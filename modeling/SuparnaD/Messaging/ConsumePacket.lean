import SuparnaD.Messaging.ManageGroups

/-!
# Consuming packets

The functions of `messaging/consume_packet.c`. A packet in a topic file is a `uint32_t` length in
memory order followed by that many bytes.

## Main definitions

* `Packet`, `consumePacket`, `consumePacketWithSize`.
* `readPacketSizeHeader`.
-/

namespace SuparnaD

open Broker

/-- `PACKET_SIZE_HEADER_SIZE`. -/
def packetSizeHeaderSize : UInt64 := 4

/-- `MAX_PACKET_SIZE`, equal to `MAX_EVENT_SIZE` of the publisher. -/
def maxPacketSize : ℕ := 10 * 1024 * 1024

/-- The `Packet` of the source; `data_size` is the length of `data`. -/
structure Packet where
  /-- `packet_size`. -/
  packetSize : UInt32
  /-- `data`. -/
  data : Bytes
  /-- `offset_in_topic`. -/
  offsetInTopic : UInt64
  deriving DecidableEq, Repr

/-- The length header at the read pointer. The chunk is loaded again. -/
def readPacketSizeHeader (group : Group) : Broker (Option UInt32) := do
  if !(← hasChunk) then
    return none
  if (← chunkLoad) ≠ 0 then
    return none
  if (← chunkSize) < group.readPointer + packetSizeHeaderSize then
    return none
  let sizeBuffer ← chunkRead packetSizeHeaderSize group.readPointer
  if sizeBuffer.length ≠ packetSizeHeaderSize.toNat then
    return none
  return some (u32OfBytes sizeBuffer)

/-- `peek_packet_size` repeats `read_packet_size_header` word for word. -/
def peekPacketSize (group : Group) : Broker (Option UInt32) := readPacketSizeHeader group

def consumePacket (group : Group) (topic : ℕ) : Broker (Option Packet × Group) := do
  if group.attachedTopic ≠ topic then
    return (none, group)
  if !(← hasChunk) then
    return (none, group)
  if (← chunkLoad) ≠ 0 then
    return (none, group)
  if (← chunkSize) ≤ group.readPointer then
    return (none, group)
  match ← readPacketSizeHeader group with
  | none => return (none, group)
  | some packetSize =>
    if packetSize = 0 ∨ maxPacketSize < packetSize.toNat then
      return (none, group)
    if (← chunkSize) < group.readPointer + packetSizeHeaderSize + packetSize.toUInt64 then
      return (none, group)
    if !(← malloc) then
      return (none, group)
    if !(← malloc) then
      return (none, group)
    let readOffset := group.readPointer + packetSizeHeaderSize
    let data ← chunkRead packetSize.toUInt64 readOffset
    if data.length ≠ packetSize.toNat then
      return (none, group)
    return (some ⟨packetSize, data, group.readPointer⟩, { group with
      readPointer := group.readPointer + (packetSizeHeaderSize + packetSize.toUInt64)
      lastReadSize := packetSizeHeaderSize + packetSize.toUInt64 })

/-- Consumption with a size that the caller knows. This path reads no length header. -/
def consumePacketWithSize (group : Group) (topic : ℕ) (packetSize : UInt64) :
    Broker (Option Packet × Group) := do
  if packetSize = 0 ∨ maxPacketSize < packetSize.toNat then
    return (none, group)
  if group.attachedTopic ≠ topic then
    return (none, group)
  if !(← hasChunk) then
    return (none, group)
  if (← chunkLoad) ≠ 0 then
    return (none, group)
  if (← chunkSize) < group.readPointer + packetSize then
    return (none, group)
  if !(← malloc) then
    return (none, group)
  if !(← malloc) then
    return (none, group)
  let data ← chunkRead packetSize group.readPointer
  if data.length ≠ packetSize.toNat then
    return (none, group)
  return (some ⟨packetSize.toUInt32, data, group.readPointer⟩, { group with
    readPointer := group.readPointer + packetSize
    lastReadSize := packetSize })

end SuparnaD
