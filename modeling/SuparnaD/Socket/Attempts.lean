import SuparnaD.Socket.ServerEventHandler

/-!
# Handing out packets, on record

The three functions that take a packet from a group and send it to the client, with a record of the
packets that they handed out and of what became of each. Without the record each of them is the
function of the source.

## Main definitions

* `Attempt`, `Attempt.Failed`.
* `recordedConsumeAndSend`, `recordedConsumerRequest`, `recordedConsumeCommand`.

## Main results

* `unrecorded_consumeAndSend`, `unrecorded_consumerRequest`, `snd_recordedConsumeCommand` : the
  record can be dropped.
-/

namespace SuparnaD

open Broker SessionM

/-- A packet handed out to the client. -/
structure Attempt where
  /-- The packet. -/
  packet : Packet
  /-- The result of `send_packet_to_consumer`. -/
  sendResult : ℤ
  /-- The result of `wait_for_ack`, if it was called. -/
  ackResult : Option ℤ
  deriving DecidableEq, Repr

/-- The sending failed, or an acknowledgement was waited for and not read. -/
def Attempt.Failed (a : Attempt) : Prop :=
  a.sendResult ≠ 0 ∨ ∃ r, a.ackResult = some r ∧ ¬ 0 < r

/-- `consume_and_send_packet` on record. -/
def recordedConsumeAndSend (group : Group) (topic : ℕ) :
    Broker ((List Attempt × ℤ) × Group) := do
  if group.attachedTopic ≠ topic then
    return (([], -1), group)
  match ← consumePacket group topic with
  | (none, group) => return (([], 0), group)
  | (some packet, group) =>
    let result ← sendPacketToConsumer packet.data
    if result = 0 then
      let acked ← waitForAck
      if 0 < acked then
        let (ackResult, group) ← ackPacket group packet
        return (([⟨packet, result, some acked⟩], if ackResult = 0 then result else -1), group)
      return (([⟨packet, result, some acked⟩], -1), group)
    return (([⟨packet, result, none⟩], result), group)

/-- The loop of `handle_consumer_request` on record, with the record so far. -/
def recordedLoop (topic : ℕ) : ℕ → ℕ → ℕ → Group → List Attempt →
    Broker ((List Attempt × ℕ) × Group)
  | 0, packetsSent, _, group, record => return ((record, packetsSent), group)
  | fuel + 1, packetsSent, errorCount, group, record => do
    if ¬ (packetsSent < 100 ∧ errorCount < 3) then
      return ((record, packetsSent), group)
    if !(← groupHasMoreData group) then
      return ((record, packetsSent), group)
    let ((attempts, result), group) ← recordedConsumeAndSend group topic
    if result = 0 then
      recordedLoop topic fuel (packetsSent + 1) 0 group (record ++ attempts)
    else if result < 0 then
      if 3 ≤ errorCount + 1 then
        return ((record ++ attempts, packetsSent), group)
      recordedLoop topic fuel packetsSent (errorCount + 1) group (record ++ attempts)
    else
      return ((record ++ attempts, packetsSent), group)

/-- `handle_consumer_request` on record. -/
def recordedConsumerRequest (group : Group) (topic : ℕ) :
    Broker ((List Attempt × ℤ) × Group) := do
  if group.attachedTopic ≠ topic then
    return (([], -1), group)
  let ((record, packetsSent), group) ← recordedLoop topic 303 0 0 group []
  return ((record, packetsSent), group)

/-- `handle_consume_command` on record. -/
def recordedConsumeCommand : SessionM (List Attempt × ℤ) := do
  let session ← getSession
  match session.group, session.topic with
  | some group, some topic =>
    let g ← getGroup group
    if !(← onTopic g.attachedTopic (groupHasMoreData g)) then
      reply noMoreData
      return ([], 0)
    match ← onGroup group topic fun g => consumePacket g topic with
    | none =>
      reply noPacket
      return ([], 0)
    | some packet =>
      let result := (← detached (sendPacketToConsumer packet.data)).1
      return ([⟨packet, result, none⟩], result)
  | _, _ =>
    reply groupOrTopicNotSetHint
    return ([], -1)

/-! ### Without the record -/

/-- The result and the group, without the record. -/
def unrecorded {α : Type} (r : (List Attempt × α) × Group) : α × Group := (r.1.2, r.2)

theorem unrecorded_consumeAndSend (group : Group) (topic : ℕ) :
    unrecorded <$> recordedConsumeAndSend group topic = consumeAndSendPacket group topic := by
  rw [recordedConsumeAndSend, consumeAndSendPacket]
  split_ifs
  · rfl
  rw [map_bind]
  refine congrArg _ (funext ?_)
  rintro ⟨packet, group⟩
  cases packet with
  | none => rfl
  | some packet =>
    dsimp only
    rw [map_bind]
    refine congrArg _ (funext fun result => ?_)
    split_ifs
    · rw [map_bind]
      refine congrArg _ (funext fun acked => ?_)
      split_ifs
      · rw [map_bind]
        rfl
      · rfl
    · rfl

theorem unrecorded_loop (topic fuel packetsSent errorCount : ℕ) (group : Group)
    (record : List Attempt) :
    unrecorded <$> recordedLoop topic fuel packetsSent errorCount group record =
      consumerLoop topic fuel packetsSent errorCount group := by
  induction fuel generalizing packetsSent errorCount group record with
  | zero => rfl
  | succ fuel ih =>
    rw [recordedLoop, consumerLoop]
    by_cases hgo : ¬ (packetsSent < 100 ∧ errorCount < 3)
    · rw [if_pos hgo, if_pos hgo]
      rfl
    rw [if_neg hgo, if_neg hgo, map_bind]
    refine congrArg _ (funext fun more => ?_)
    cases more with
    | false => rfl
    | true =>
    rw [← unrecorded_consumeAndSend, bind_map_left]
    refine (map_bind ..).trans (congrArg _ (funext ?_))
    rintro ⟨⟨attempts, result⟩, group⟩
    dsimp only [unrecorded]
    split_ifs
    · exact ih ..
    · rfl
    · exact ih ..
    · rfl

theorem unrecorded_consumerRequest (group : Group) (topic : ℕ) :
    unrecorded <$> recordedConsumerRequest group topic = handleConsumerRequest group topic := by
  rw [recordedConsumerRequest, handleConsumerRequest]
  split_ifs
  · rfl
  rw [map_bind, ← unrecorded_loop topic 303 0 0 group [], bind_map_left]
  rfl

theorem snd_recordedConsumeCommand :
    Prod.snd <$> recordedConsumeCommand = handleConsumeCommand := by
  rw [recordedConsumeCommand, handleConsumeCommand, map_bind]
  refine congrArg _ (funext ?_)
  rintro ⟨group, topic, groupId, topicName⟩
  cases group with
  | none => rfl
  | some group =>
  cases topic with
  | none => rfl
  | some topic =>
  refine (map_bind ..).trans (congrArg _ (funext fun g => ?_))
  refine (map_bind ..).trans (congrArg _ (funext fun more => ?_))
  cases more with
  | false => rfl
  | true =>
  refine (map_bind ..).trans (congrArg _ (funext fun packet => ?_))
  cases packet with
  | none => rfl
  | some packet => exact map_bind ..

end SuparnaD
