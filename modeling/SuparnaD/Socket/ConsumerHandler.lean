import SuparnaD.Messaging.AckPacket

/-!
# Sending packets to a consumer

The functions of `socket/consumer_handler.c` and `socket/handle_ack.c`, for a connected client. A
function that changes the group returns it after its result. Messages to the server's own terminal
are left out.

## Main definitions

* `sendPacketToConsumer`, `waitForAck`.
* `consumeAndSendPacket`, `handleConsumerRequest`, `waitAndAcknowledgePacket`.
-/

namespace SuparnaD

open Broker

/-- `PACKET_HEADER_SIZE`. -/
def packetHeaderSize : ℕ := 8

/-- The magic number `PACK`. -/
def packetMagic : UInt32 := 0x5041434B

/-- The eight bytes before a payload on the wire. -/
def packetHeader (packetSize : ℕ) : Bytes := u32Bytes packetMagic ++ u32Bytes packetSize.toUInt32

def sendPacketHeader (packetSize : ℕ) : Broker ℤ := do
  if (← send (packetHeader packetSize)) ≠ packetHeaderSize then
    return -1
  return 0

/-- The loop that sends the payload, with the bytes still to be sent. Each round sends at least one
byte or ends the loop, so as many rounds as bytes are enough. -/
def sendLoop : ℕ → Bytes → Broker ℤ
  | _, [] => return 0
  | 0, _ :: _ => return -1
  | fuel + 1, b :: rest => do
    let sent ← send (b :: rest)
    if sent < 0 then
      return -1
    if sent = 0 then
      return -1
    sendLoop fuel ((b :: rest).drop sent.toNat)

def sendPacketToConsumer (data : Bytes) : Broker ℤ := do
  if data.length = 0 then
    return -1
  if maxPacketSize < data.length then
    return -1
  if (← sendPacketHeader data.length) ≠ 0 then
    return -1
  sendLoop data.length data

/-- The length of the buffer of `wait_for_ack` without its terminator. -/
def ackBufferSize : ℕ := 1023

/-- The text contains `ACK` or `OK`. -/
def isAcknowledgement (buffer : Bytes) : Bool :=
  (strstr (cString buffer) (ascii "ACK")).isSome || (strstr (cString buffer) (ascii "OK")).isSome

def waitForAck : Broker ℤ := do
  match ← read ackBufferSize with
  | none => return -1
  | some buffer =>
    if buffer.length = 0 then
      return -1
    if isAcknowledgement buffer then
      return 1
    return 0

def consumeAndSendPacket (group : Group) (topic : ℕ) : Broker (ℤ × Group) := do
  if group.attachedTopic ≠ topic then
    return (-1, group)
  match ← consumePacket group topic with
  | (none, group) => return (0, group)
  | (some packet, group) =>
    let result ← sendPacketToConsumer packet.data
    if result = 0 then
      if 0 < (← waitForAck) then
        let (ackResult, group) ← ackPacket group packet
        return (if ackResult = 0 then result else -1, group)
      return (-1, group)
    return (result, group)

def waitAndAcknowledgePacket (group : Group) (topic : ℕ) (packetSize : UInt64) :
    Broker (ℤ × Group) := do
  if 0 < (← waitForAck) then
    let (ackResult, group) ← ackPacketBySize group topic packetSize
    return (if ackResult = 0 then 0 else -1, group)
  return (-1, group)

/-- The loop of `handle_consumer_request`. Every round counts a packet or an error. -/
def consumerLoop (topic : ℕ) : ℕ → ℕ → ℕ → Group → Broker (ℕ × Group)
  | 0, packetsSent, _, group => return (packetsSent, group)
  | fuel + 1, packetsSent, errorCount, group => do
    if ¬ (packetsSent < 100 ∧ errorCount < 3) then
      return (packetsSent, group)
    if !(← groupHasMoreData group) then
      return (packetsSent, group)
    let (result, group) ← consumeAndSendPacket group topic
    if result = 0 then
      consumerLoop topic fuel (packetsSent + 1) 0 group
    else if result < 0 then
      if 3 ≤ errorCount + 1 then
        return (packetsSent, group)
      consumerLoop topic fuel packetsSent (errorCount + 1) group
    else
      return (packetsSent, group)

/-- At most 100 packets and, before each of them and at the end, at most 3 errors: 303 rounds are
enough. -/
def handleConsumerRequest (group : Group) (topic : ℕ) : Broker (ℤ × Group) := do
  if group.attachedTopic ≠ topic then
    return (-1, group)
  let (packetsSent, group) ← consumerLoop topic 303 0 0 group
  return (packetsSent, group)

end SuparnaD
