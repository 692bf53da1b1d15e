import SuparnaD.Messaging.ConsumePacket

/-!
# Acknowledging packets

The functions of `messaging/ack_packet.c`. All sums are sums of `size_t`.

## Main definitions

* `ackPacket`, `ackPacketByOffset` : raise the cursor to the end of a named packet.
* `ackPacketBySize`, `ackPacketBatchBySize` : move the cursor on by given sizes.
* `ackPacketBatch` : move the cursor over the next packets of the file.
* `getAcknowledgedBytes`.
-/

namespace SuparnaD

open Broker

def ackPacket (group : Group) (packet : Packet) : Broker (ℤ × Group) := do
  if !(← hasChunk) then
    return (-1, group)
  if (← chunkLoad) ≠ 0 then
    return (-1, group)
  let totalPacketSize := packetSizeHeaderSize + packet.packetSize.toUInt64
  if (← chunkSize) < packet.offsetInTopic + totalPacketSize then
    return (-1, group)
  if group.readPointer < packet.offsetInTopic + totalPacketSize then
    return (0, { group with readPointer := packet.offsetInTopic + totalPacketSize })
  return (0, group)

def ackPacketBySize (group : Group) (topic : ℕ) (packetSize : UInt64) :
    Broker (ℤ × Group) := do
  if packetSize = 0 then
    return (-1, group)
  if group.attachedTopic ≠ topic then
    return (-1, group)
  if !(← hasChunk) then
    return (-1, group)
  if (← chunkLoad) ≠ 0 then
    return (-1, group)
  if (← chunkSize) < group.readPointer + packetSizeHeaderSize + packetSize then
    return (-1, group)
  return (0, { group with
    readPointer := group.readPointer + (packetSizeHeaderSize + packetSize)
    lastReadSize := packetSizeHeaderSize + packetSize })

def ackPacketByOffset (group : Group) (topic : ℕ) (offset packetSize : UInt64) :
    Broker (ℤ × Group) := do
  if packetSize = 0 then
    return (-1, group)
  if group.attachedTopic ≠ topic then
    return (-1, group)
  if !(← hasChunk) then
    return (-1, group)
  if (← chunkLoad) ≠ 0 then
    return (-1, group)
  let totalPacketSize := packetSizeHeaderSize + packetSize
  if (← chunkSize) < offset + totalPacketSize then
    return (-1, group)
  if group.readPointer < offset + totalPacketSize then
    return (0, { group with readPointer := offset + totalPacketSize })
  return (0, group)

/-- The loop of `ack_packet_batch`, with `count` rounds left. The result is the offset reached and
the number of packets passed over. -/
def ackBatchLoop : ℕ → UInt64 → UInt64 → Broker (UInt64 × UInt64)
  | 0, currentOffset, packetsAcked => return (currentOffset, packetsAcked)
  | count + 1, currentOffset, packetsAcked => do
    if (← chunkSize) < currentOffset + packetSizeHeaderSize then
      return (currentOffset, packetsAcked)
    let header ← chunkRead packetSizeHeaderSize currentOffset
    if header.length ≠ packetSizeHeaderSize.toNat then
      return (currentOffset, packetsAcked)
    let totalPacketSize := packetSizeHeaderSize + (u32OfBytes header).toUInt64
    if (← chunkSize) < currentOffset + totalPacketSize then
      return (currentOffset, packetsAcked)
    ackBatchLoop count (currentOffset + totalPacketSize) (packetsAcked + 1)

def ackPacketBatch (group : Group) (topic : ℕ) (count : UInt64) : Broker (ℤ × Group) := do
  if count = 0 then
    return (-1, group)
  if group.attachedTopic ≠ topic then
    return (-1, group)
  if !(← hasChunk) then
    return (-1, group)
  if (← chunkLoad) ≠ 0 then
    return (-1, group)
  let (currentOffset, packetsAcked) ← ackBatchLoop count.toNat group.readPointer 0
  -- The cursor moves even when fewer packets than asked for were passed over.
  let group' := if 0 < packetsAcked then
      { group with
        readPointer := currentOffset
        lastReadSize := currentOffset - group.readPointer }
    else group
  return (if packetsAcked = count then 0 else -1, group')

/-- The loop of `ack_packet_batch_by_size`; `none` for a zero size. -/
def sumPacketSizes (totalBytes : UInt64) : List UInt64 → Option UInt64
  | [] => some totalBytes
  | packetSize :: rest =>
    if packetSize = 0 then none
    else sumPacketSizes (totalBytes + (packetSizeHeaderSize + packetSize)) rest

def ackPacketBatchBySize (group : Group) (topic : ℕ) (packetSizes : List UInt64) :
    Broker (ℤ × Group) := do
  if packetSizes.length = 0 then
    return (-1, group)
  if group.attachedTopic ≠ topic then
    return (-1, group)
  if !(← hasChunk) then
    return (-1, group)
  if (← chunkLoad) ≠ 0 then
    return (-1, group)
  match sumPacketSizes 0 packetSizes with
  | none => return (-1, group)
  | some totalBytes =>
    if (← chunkSize) < group.readPointer + totalBytes then
      return (-1, group)
    return (0, { group with
      readPointer := group.readPointer + totalBytes
      lastReadSize := totalBytes })

def getAcknowledgedBytes (group : Group) : UInt64 := group.readPointer

end SuparnaD
