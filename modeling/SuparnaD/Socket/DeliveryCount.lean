import SuparnaD.Messaging.BatchAck
import SuparnaD.Foundation.FrameParsing
import SuparnaD.Socket.Attempts
import SuparnaD.Socket.PartialSends

/-!
# What `handle_consumer_request` counts

`consume_and_send_packet` returns `0` when a packet was sent and acknowledged, and also when
`consume_packet` returned none. The loop of `handle_consumer_request` goes on as long as bytes lie
behind the read pointer, so where these bytes are no whole frame it counts packets that do not
exist, up to its limit.

## Main definitions

* `Attempt.delivered`, `CountsDeliveries`.
* `Client.handOver`, `Client.stops` : what the client does with the packets it is offered.

## Main results

* `consumerLoop_eq` : the loop comes to an end.
* `Machine.Steady.exec_recordedConsumeAndSend` : one packet.
* `countsDeliveries_iff`.
-/

namespace SuparnaD

open Broker CallProgram

/-- The packet was written to the client completely, and the acknowledgement was read. -/
def Attempt.delivered (a : Attempt) : Bool :=
  decide (a.sendResult = 0) && a.ackResult.any fun r => decide (0 < r)

/-- `handle_consumer_request` returns the number of packets that have been delivered. -/
def CountsDeliveries (s : Machine) (g : Group) (topic : ℕ) : Prop :=
  ∃ record r g' s', (recordedConsumerRequest g topic).exec s = some (((record, r), g'), s') ∧
    (handleConsumerRequest g topic).exec s = some ((r, g'), s') ∧
    r = (record.countP Attempt.delivered : ℕ)

/-! ### The loop comes to an end -/

/-- The number of rounds that are left at most. -/
def roundsLeft (packetsSent errorCount : ℕ) : ℕ := 3 * (100 - packetsSent) + (3 - errorCount)

/-- A number of rounds that cannot be exceeded is as good as any other. -/
theorem consumerLoop_eq (topic : ℕ) {m n packetsSent errorCount : ℕ}
    (hm : roundsLeft packetsSent errorCount ≤ m) (hn : roundsLeft packetsSent errorCount ≤ n)
    (group : Group) : consumerLoop topic m packetsSent errorCount group =
      consumerLoop topic n packetsSent errorCount group := by
  induction m generalizing n packetsSent errorCount group with
  | zero =>
    have hstop : ¬ (packetsSent < 100 ∧ errorCount < 3) := by
      rw [roundsLeft] at hm
      omega
    cases n with
    | zero => rfl
    | succ n => rw [consumerLoop, consumerLoop, if_pos hstop]
  | succ m ih =>
    by_cases hstop : ¬ (packetsSent < 100 ∧ errorCount < 3)
    · cases n with
      | zero => rw [consumerLoop, consumerLoop, if_pos hstop]
      | succ n => rw [consumerLoop, consumerLoop, if_pos hstop, if_pos hstop]
    cases n with
    | zero =>
      rw [roundsLeft] at hn
      omega
    | succ n =>
      rw [roundsLeft] at hm hn
      rw [consumerLoop, consumerLoop, if_neg hstop, if_neg hstop]
      refine congrArg _ (funext fun more => ?_)
      split
      · rfl
      refine congrArg _ (funext fun r => ?_)
      dsimp only
      split
      · exact ih (by rw [roundsLeft]; omega) (by rw [roundsLeft]; omega) r.2
      split
      · split
        · rfl
        · exact ih (by rw [roundsLeft]; omega) (by rw [roundsLeft]; omega) r.2
      · rfl

/-! ### What the client does with a packet -/

/-- Send a packet to the client and wait for the acknowledgement. -/
def handOver (d : Bytes) : Broker Bool := do
  if (← sendPacketToConsumer d) = 0 then
    return decide (0 < (← waitForAck))
  return false

/-- A call to the client. -/
def BrokerCall.Talks : BrokerCall → Prop
  | .send _ | .read _ => True
  | _ => False

/-- What a program that only talks to the client does depends on the client alone. -/
theorem exec_of_talks {α : Type} {p : Broker α} (hp : p.Within BrokerCall.Talks fun _ => True) :
    ∃ f : Client → α × Client, ∀ s,
      p.exec s = some ((f s.client).1, s.withClient (f s.client).2) := by
  induction p with
  | ret a => exact ⟨fun c => (a, c), fun s => rfl⟩
  | call c k ih =>
    obtain ⟨hc, hk⟩ := hp
    cases c with
    | send data =>
      choose f hf using fun r => ih r (hk r)
      exact ⟨fun c => f (c.send data).1 (c.send data).2, fun s => hf _ _⟩
    | read n =>
      choose f hf using fun r => ih r (hk r)
      exact ⟨fun c => f (c.read n).1 (c.read n).2, fun s => hf _ _⟩
    | _ => exact hc.elim

theorem talks_sendLoop (fuel : ℕ) (data : Bytes) :
    (sendLoop fuel data).Within BrokerCall.Talks fun _ => True := by
  induction fuel generalizing data with
  | zero => cases data <;> exact within_pure trivial
  | succ fuel ih =>
    cases data with
    | nil => exact within_pure trivial
    | cons b rest =>
      refine Within.bind (p := send (b :: rest)) ⟨trivial, fun _ => trivial⟩ fun sent _ => ?_
      exact .ite (fun _ => within_pure trivial) fun _ =>
        .ite (fun _ => within_pure trivial) fun _ => ih _

theorem talks_sendPacketHeader (n : ℕ) :
    (sendPacketHeader n).Within BrokerCall.Talks fun _ => True := by
  refine Within.bind (p := send (packetHeader n)) ⟨trivial, fun _ => trivial⟩ fun sent _ => ?_
  exact .ite (fun _ => within_pure trivial) fun _ => within_pure trivial

theorem talks_sendPacketToConsumer (d : Bytes) :
    (sendPacketToConsumer d).Within BrokerCall.Talks fun _ => True := by
  refine .ite (fun _ => within_pure trivial) fun _ => ?_
  refine .ite (fun _ => within_pure trivial) fun _ => ?_
  exact (talks_sendPacketHeader d.length).bind fun r _ =>
    .ite (fun _ => within_pure trivial) fun _ => talks_sendLoop _ _

theorem talks_waitForAck : waitForAck.Within BrokerCall.Talks fun _ => True := by
  refine Within.bind (p := read ackBufferSize) ⟨trivial, fun _ => trivial⟩ fun answer _ => ?_
  cases answer with
  | none => exact within_pure trivial
  | some buffer =>
    exact .ite (fun _ => within_pure trivial) fun _ =>
      .ite (fun _ => within_pure trivial) fun _ => within_pure trivial

theorem talks_handOver (d : Bytes) : (handOver d).Within BrokerCall.Talks fun _ => True :=
  (talks_sendPacketToConsumer d).bind fun _ _ => .ite
    (fun _ => talks_waitForAck.bind fun _ _ => within_pure trivial) fun _ => within_pure trivial

/-- A machine with nothing but a client. -/
def Client.alone (c : Client) : Machine := ⟨⟨fun _ => none, fun _ => false⟩, [], none, c⟩

/-- The client is offered a packet: was it delivered, and the client afterwards. -/
def Client.handOver (c : Client) (d : Bytes) : Bool × Client :=
  match (SuparnaD.handOver d).exec c.alone with
  | none => (false, c)
  | some (delivered, s) => (delivered, s.client)

variable {s s' : Machine} {path d : Bytes} {g : Group} {topic : ℕ}

theorem exec_handOver (s : Machine) (d : Bytes) : (handOver d).exec s =
    some ((s.client.handOver d).1, s.withClient (s.client.handOver d).2) := by
  obtain ⟨f, hf⟩ := exec_of_talks (talks_handOver d)
  have halone : s.client.handOver d = f s.client := by
    rw [Client.handOver, hf]
    rfl
  rw [hf, halone]

/-- The client ends the loop among the given packets: it takes as many as the loop delivers at most,
or refuses three in a row. -/
def Client.stops : List Bytes → ℕ → ℕ → Client → Bool
  | [], packetsSent, errorCount, _ => decide (¬ (packetsSent < 100 ∧ errorCount < 3))
  | d :: ds, packetsSent, errorCount, c =>
    if ¬ (packetsSent < 100 ∧ errorCount < 3) then true
    else if (c.handOver d).1 then stops ds (packetsSent + 1) 0 (c.handOver d).2
    else stops ds packetsSent (errorCount + 1) (c.handOver d).2

theorem Client.stops_of_limit {packetsSent errorCount : ℕ}
    (h : ¬ (packetsSent < 100 ∧ errorCount < 3)) (ds : List Bytes) (c : Client) :
    stops ds packetsSent errorCount c = true := by
  cases ds with
  | nil => exact decide_eq_true h
  | cons d ds => rw [stops, if_pos h]

/-! ### One packet -/

theorem Machine.Steady.withClient (h : s.Steady path) (client : Client) :
    (s.withClient client).Steady path := ⟨h.onTopic, h.chunk, h.faults, h.small⟩

/-- A client takes a packet or not, and if it does the acknowledgement is read. -/
theorem handOver_cases (hd : topicFormat.Valid d) (s : Machine) :
    ∃ r c₁, (sendPacketToConsumer d).exec s = some (r, s.withClient c₁) ∧
      (r = -1 ∧ s.client.handOver d = (false, c₁) ∨
        r = 0 ∧ ∃ acked c₂, waitForAck.exec (s.withClient c₁) = some (acked, s.withClient c₂) ∧
          s.client.handOver d = (decide (0 < acked), c₂)) := by
  obtain ⟨r, c₁, hsend, hsent⟩ := exec_sendPacketToConsumer hd s
  have hhand := exec_handOver s d
  rw [SuparnaD.handOver] at hhand
  simp only [CallProgram.run_bind, hsend, Option.bind_some] at hhand
  have hclient {b : Bool} {c : Client}
      (h : some ((s.client.handOver d).1, s.withClient (s.client.handOver d).2) =
        some (b, s.withClient c)) : s.client.handOver d = (b, c) := by
    obtain ⟨hb, hc⟩ := Prod.mk.inj (Option.some.inj h)
    exact Prod.ext hb (congrArg Machine.client hc)
  refine ⟨r, c₁, hsend, ?_⟩
  rcases hsent with ⟨rfl, -⟩ | ⟨rfl, -⟩
  · obtain ⟨acked, c₂, hwait⟩ := onlyTalks_waitForAck (s.withClient c₁)
    rw [if_pos rfl] at hhand
    simp only [CallProgram.run_bind, hwait, Option.bind_some] at hhand
    exact .inr ⟨rfl, acked, c₂, hwait, hclient hhand.symm⟩
  · rw [if_neg (by omega)] at hhand
    exact .inl ⟨rfl, hclient hhand.symm⟩

/-- An acknowledgement of the packet that has just been consumed changes nothing. -/
theorem Machine.Steady.exec_ackPacket (h : s.Steady path)
    (hd : topicFormat.parseAt (s.file path) g.readPointer.toNat = some d) :
    ∃ s', (SuparnaD.ackPacket (afterPacket g d) (packetAt g d)).exec s =
        some ((0, afterPacket g d), s') ∧
      s'.Steady path ∧ s'.file path = s.file path ∧ s'.client = s.client := by
  obtain ⟨-, -, -, hfits⟩ := FrameFormat.parseAt_eq_some_iff.mp hd
  have hend := toNat_readPointer_afterPacket h.small hd
  obtain ⟨s', hkept, ht, hrun⟩ := h.onTopic.computes_ackPacket (afterPacket g d) (packetAt g d)
  obtain ⟨hsteady, hfile⟩ := h.of_kept hkept ht
  refine ⟨s', hrun.trans ?_, hsteady, hfile, hkept.client⟩
  have hraise : raiseTo (afterPacket g d) (afterPacket g d).readPointer (s.file path) =
      (0, afterPacket g d) := by
    rw [topicFormat_headerLen] at hfits
    rw [raiseTo, if_neg (by omega), if_neg (UInt64.lt_irrefl _)]
  rw [h.view_eq]
  exact congrArg (fun r => some (r, s')) hraise

/-- The packet at the read pointer is offered to the client, and the acknowledgement leaves the
group as `consume_packet` has left it. -/
theorem Machine.Steady.exec_recordedConsumeAndSend (h : s.Steady path)
    (htopic : g.attachedTopic = topic)
    (hd : topicFormat.parseAt (s.file path) g.readPointer.toNat = some d) :
    ∃ a s', (SuparnaD.recordedConsumeAndSend g topic).exec s =
        some ((([a], if (s.client.handOver d).1 then 0 else -1), afterPacket g d), s') ∧
      a.delivered = (s.client.handOver d).1 ∧ s'.Steady path ∧ s'.file path = s.file path ∧
      s'.client = (s.client.handOver d).2 := by
  obtain ⟨-, hvalid, -, hfits⟩ := FrameFormat.parseAt_eq_some_iff.mp hd
  obtain ⟨s₁, hsteady₁, hfile₁, hclient₁, hconsume⟩ := h.exec_consumePacket htopic
  rw [hd] at hconsume
  obtain ⟨r, c₁, hsend, hcases⟩ := handOver_cases hvalid s₁
  rw [hclient₁] at hcases
  rw [SuparnaD.recordedConsumeAndSend, if_neg (not_not.mpr htopic)]
  simp only [CallProgram.run_bind, hconsume, Option.bind_some, packetAt, hsend]
  rcases hcases with ⟨rfl, hhand⟩ | ⟨rfl, acked, c₂, hwait, hhand⟩
  · rw [hhand, if_neg (by omega)]
    exact ⟨_, _, rfl, rfl, hsteady₁.withClient c₁, hfile₁, rfl⟩
  rw [hhand, if_pos rfl]
  simp only [CallProgram.run_bind, hwait, Option.bind_some]
  by_cases hacked : 0 < acked
  swap
  · rw [if_neg hacked, decide_eq_false hacked]
    exact ⟨_, _, rfl, by simp [Attempt.delivered, hacked], hsteady₁.withClient c₂, hfile₁, rfl⟩
  have hd₂ : topicFormat.parseAt ((s₁.withClient c₂).file path) g.readPointer.toNat = some d :=
    hfile₁.symm ▸ hd
  obtain ⟨s₃, hack, hsteady₃, hfile₃, hclient₃⟩ := (hsteady₁.withClient c₂).exec_ackPacket hd₂
  rw [packetAt] at hack
  rw [if_pos hacked, decide_eq_true hacked]
  simp only [CallProgram.run_bind, hack, Option.bind_some]
  exact ⟨_, s₃, rfl, by simp [Attempt.delivered, hacked], hsteady₃, hfile₃.trans hfile₁,
    hclient₃⟩

/-! ### The loop -/

/-- Every packet that the loop can ask for is a whole frame: the client ends the loop among the
frames from the read pointer on, or nothing follows these frames. -/
def FramesSuffice (content : Bytes) (client : Client) (off packetsSent errorCount : ℕ) : Prop :=
  client.stops ((topicFormat.frames content off).map Prod.snd) packetsSent errorCount = true ∨
    content.length ≤ topicFormat.framesStop content off

theorem Machine.Steady.exec_groupHasMoreData (h : s.Steady path) (g : Group) :
    ∃ s', (SuparnaD.groupHasMoreData g).exec s =
        some (decide (g.readPointer.toNat < (s.file path).length), s') ∧
      s'.Steady path ∧ s'.file path = s.file path ∧ s'.client = s.client := by
  obtain ⟨s', hkept, ht, hrun⟩ := h.onTopic.computes_groupHasMoreData g
  obtain ⟨hsteady, hfile⟩ := h.of_kept hkept ht
  rw [h.view_eq] at hrun
  exact ⟨s', hrun, hsteady, hfile, hkept.client⟩

/-- Where no frame is at the read pointer, `consume_and_send_packet` returns `0`. -/
theorem Machine.Steady.exec_recordedConsumeAndSend_none (h : s.Steady path)
    (htopic : g.attachedTopic = topic)
    (hd : topicFormat.parseAt (s.file path) g.readPointer.toNat = none) :
    ∃ s', (SuparnaD.recordedConsumeAndSend g topic).exec s = some ((([], 0), g), s') ∧
      s'.Steady path ∧ s'.file path = s.file path ∧ s'.client = s.client := by
  obtain ⟨s', hsteady, hfile, hclient, hconsume⟩ := h.exec_consumePacket htopic
  rw [hd] at hconsume
  refine ⟨s', ?_, hsteady, hfile, hclient⟩
  rw [SuparnaD.recordedConsumeAndSend, if_neg (not_not.mpr htopic)]
  simp only [CallProgram.run_bind, hconsume, Option.bind_some, CallProgram.pure_eq_ret,
    CallProgram.run_ret]

/-- The count of the loop, which starts from a count and delivers the packets of a record: it is at
least the number of packets delivered, and exact when the frames suffice. -/
structure Counted (content : Bytes) (client : Client) (off packetsSent errorCount : ℕ)
    (record : List Attempt) (n : ℕ) : Prop where
  le : packetsSent + record.countP Attempt.delivered ≤ n
  eq_iff : n = packetsSent + record.countP Attempt.delivered ↔
    FramesSuffice content client off packetsSent errorCount

theorem Counted.nil {content : Bytes} {client : Client} {off packetsSent errorCount : ℕ}
    (h : FramesSuffice content client off packetsSent errorCount) :
    Counted content client off packetsSent errorCount [] packetsSent :=
  ⟨Nat.le_refl _, iff_of_true rfl h⟩

/-- A round without a packet is one too many. -/
theorem Counted.of_none {content : Bytes} {client : Client} {off packetsSent errorCount n : ℕ}
    {record : List Attempt} (hgo : packetsSent < 100 ∧ errorCount < 3)
    (hmore : off < content.length) (hd : topicFormat.parseAt content off = none)
    (h : Counted content client off (packetsSent + 1) 0 record n) :
    Counted content client off packetsSent errorCount record n := by
  have hle := h.le
  refine ⟨by omega, iff_of_false (by omega) ?_⟩
  rw [FramesSuffice, FrameFormat.frames_of_none hd, FrameFormat.framesStop_of_none hd,
    List.map_nil, Client.stops]
  simp only [not_not.mpr hgo, decide_false, Bool.false_eq_true, false_or, Nat.not_le]
  exact hmore

/-- The frames suffice exactly when those behind the first packet do. -/
theorem framesSuffice_of_some {content : Bytes} {client : Client} {off packetsSent errorCount : ℕ}
    (hgo : packetsSent < 100 ∧ errorCount < 3) (hd : topicFormat.parseAt content off = some d) :
    FramesSuffice content client off packetsSent errorCount ↔
      FramesSuffice content (client.handOver d).2 (off + (4 + d.length))
        (if (client.handOver d).1 then packetsSent + 1 else packetsSent)
        (if (client.handOver d).1 then 0 else errorCount + 1) := by
  rw [FramesSuffice, FrameFormat.frames_of_some hd, FrameFormat.framesStop_of_some hd,
    List.map_cons, Client.stops, if_neg (not_not.mpr hgo), FramesSuffice, topicFormat_headerLen]
  split <;> rfl

/-- A round with a packet. -/
theorem Counted.of_some {content : Bytes} {client : Client} {off packetsSent errorCount n : ℕ}
    {a : Attempt} {record : List Attempt} (hgo : packetsSent < 100 ∧ errorCount < 3)
    (hd : topicFormat.parseAt content off = some d) (ha : a.delivered = (client.handOver d).1)
    (h : Counted content (client.handOver d).2 (off + (4 + d.length))
      (if (client.handOver d).1 then packetsSent + 1 else packetsSent)
      (if (client.handOver d).1 then 0 else errorCount + 1) record n) :
    Counted content client off packetsSent errorCount (a :: record) n := by
  have hcount : packetsSent + (a :: record).countP Attempt.delivered =
      (if (client.handOver d).1 then packetsSent + 1 else packetsSent) +
        record.countP Attempt.delivered := by
    rw [List.countP_cons, ha]
    split <;> omega
  exact ⟨hcount ▸ h.le, by rw [hcount, framesSuffice_of_some hgo hd, h.eq_iff]⟩

section

variable {fuel packetsSent errorCount : ℕ}

/-- A round of the loop begins with the question whether there is more data. -/
theorem Machine.Steady.exec_recordedLoop_succ (h : s.Steady path)
    (hgo : packetsSent < 100 ∧ errorCount < 3) (record : List Attempt) :
    ∃ s₁, s₁.Steady path ∧ s₁.file path = s.file path ∧ s₁.client = s.client ∧
      (SuparnaD.recordedLoop topic (fuel + 1) packetsSent errorCount g record).exec s =
        if g.readPointer.toNat < (s.file path).length then
          (SuparnaD.recordedConsumeAndSend g topic >>= fun x =>
            if x.1.2 = 0 then
              SuparnaD.recordedLoop topic fuel (packetsSent + 1) 0 x.2 (record ++ x.1.1)
            else if x.1.2 < 0 then
              if 3 ≤ errorCount + 1 then pure ((record ++ x.1.1, packetsSent), x.2)
              else SuparnaD.recordedLoop topic fuel packetsSent (errorCount + 1) x.2
                (record ++ x.1.1)
            else pure ((record ++ x.1.1, packetsSent), x.2)).exec s₁
        else some (((record, packetsSent), g), s₁) := by
  obtain ⟨s₁, hmore, hsteady, hfile, hclient⟩ := h.exec_groupHasMoreData g
  refine ⟨s₁, hsteady, hfile, hclient, ?_⟩
  rw [SuparnaD.recordedLoop, if_neg (not_not.mpr hgo)]
  simp only [CallProgram.run_bind, hmore, Option.bind_some]
  by_cases hdata : g.readPointer.toNat < (s.file path).length
  · simp only [hdata, decide_true, Bool.not_true, Bool.false_eq_true, ↓reduceIte,
      CallProgram.run_bind]
  · simp only [hdata, decide_false, Bool.not_false, ↓reduceIte]
    rfl

/-- A round where no frame is at the read pointer. -/
theorem Machine.Steady.exec_recordedLoop_none (h : s.Steady path) (htopic : g.attachedTopic = topic)
    (hgo : packetsSent < 100 ∧ errorCount < 3)
    (hdata : g.readPointer.toNat < (s.file path).length)
    (hd : topicFormat.parseAt (s.file path) g.readPointer.toNat = none) (record : List Attempt) :
    ∃ s', s'.Steady path ∧ s'.file path = s.file path ∧ s'.client = s.client ∧
      (SuparnaD.recordedLoop topic (fuel + 1) packetsSent errorCount g record).exec s =
        (SuparnaD.recordedLoop topic fuel (packetsSent + 1) 0 g record).exec s' := by
  obtain ⟨s₁, hsteady₁, hfile₁, hclient₁, hround⟩ := h.exec_recordedLoop_succ hgo record
  rw [← hfile₁] at hd
  obtain ⟨s₂, hrun, hsteady₂, hfile₂, hclient₂⟩ :=
    hsteady₁.exec_recordedConsumeAndSend_none htopic hd
  refine ⟨s₂, hsteady₂, hfile₂.trans hfile₁, hclient₂.trans hclient₁, ?_⟩
  rw [hround, if_pos hdata]
  simp only [CallProgram.run_bind, hrun, Option.bind_some, ↓reduceIte, List.append_nil]

/-- A round with a packet. -/
theorem Machine.Steady.exec_recordedLoop_some (h : s.Steady path) (htopic : g.attachedTopic = topic)
    (hgo : packetsSent < 100 ∧ errorCount < 3)
    (hd : topicFormat.parseAt (s.file path) g.readPointer.toNat = some d) (record : List Attempt) :
    ∃ a s', a.delivered = (s.client.handOver d).1 ∧ s'.Steady path ∧ s'.file path = s.file path ∧
      s'.client = (s.client.handOver d).2 ∧
      (SuparnaD.recordedLoop topic (fuel + 1) packetsSent errorCount g record).exec s =
        if (s.client.handOver d).1 then
          (SuparnaD.recordedLoop topic fuel (packetsSent + 1) 0 (afterPacket g d)
            (record ++ [a])).exec s'
        else if 3 ≤ errorCount + 1 then
          some (((record ++ [a], packetsSent), afterPacket g d), s')
        else
          (SuparnaD.recordedLoop topic fuel packetsSent (errorCount + 1) (afterPacket g d)
            (record ++ [a])).exec s' := by
  have hdata : g.readPointer.toNat < (s.file path).length := by
    obtain ⟨-, -, -, hfits⟩ := FrameFormat.parseAt_eq_some_iff.mp hd
    rw [topicFormat_headerLen] at hfits
    omega
  obtain ⟨s₁, hsteady₁, hfile₁, hclient₁, hround⟩ := h.exec_recordedLoop_succ hgo record
  rw [← hfile₁] at hd
  obtain ⟨a, s₂, hrun, ha, hsteady₂, hfile₂, hclient₂⟩ :=
    hsteady₁.exec_recordedConsumeAndSend htopic hd
  rw [hclient₁] at hrun ha hclient₂
  refine ⟨a, s₂, ha, hsteady₂, hfile₂.trans hfile₁, hclient₂, ?_⟩
  rw [hround, if_pos hdata]
  simp only [CallProgram.run_bind, hrun, Option.bind_some]
  cases (s.client.handOver d).1 with
  | true => simp only [↓reduceIte]
  | false =>
    simp only [Bool.false_eq_true, ↓reduceIte, Int.reduceNeg, Int.reduceEq, Int.reduceLT]
    split <;> rfl

/-- The loop counts at least the packets that it delivers, and no more exactly when the frames
suffice. -/
theorem Machine.Steady.exec_recordedLoop (h : s.Steady path) (htopic : g.attachedTopic = topic)
    (hfuel : roundsLeft packetsSent errorCount ≤ fuel) (record : List Attempt) :
    ∃ more n g' s', (SuparnaD.recordedLoop topic fuel packetsSent errorCount g record).exec s =
        some (((record ++ more, n), g'), s') ∧
      Counted (s.file path) s.client g.readPointer.toNat packetsSent errorCount more n := by
  induction fuel generalizing s g packetsSent errorCount record with
  | zero =>
    have hstop : ¬ (packetsSent < 100 ∧ errorCount < 3) := by
      rw [roundsLeft] at hfuel
      omega
    exact ⟨[], packetsSent, g, s, by rw [List.append_nil]; rfl,
      .nil (.inl (Client.stops_of_limit hstop _ _))⟩
  | succ fuel ih =>
    by_cases hgo : packetsSent < 100 ∧ errorCount < 3
    swap
    · rw [SuparnaD.recordedLoop, if_pos hgo]
      exact ⟨[], packetsSent, g, s, by rw [List.append_nil]; rfl,
        .nil (.inl (Client.stops_of_limit hgo _ _))⟩
    have hleft : roundsLeft (packetsSent + 1) 0 ≤ fuel := by
      rw [roundsLeft] at hfuel ⊢
      omega
    by_cases hdata : g.readPointer.toNat < (s.file path).length
    swap
    · obtain ⟨s₁, -, -, -, hround⟩ := h.exec_recordedLoop_succ hgo record
      rw [hround, if_neg hdata]
      refine ⟨[], packetsSent, g, s₁, by rw [List.append_nil], .nil (.inr ?_)⟩
      have hend := Nat.not_lt.mp hdata
      rwa [FrameFormat.framesStop_of_none (FrameFormat.parseAt_of_length_le hend)]
    cases hd : topicFormat.parseAt (s.file path) g.readPointer.toNat with
    | none =>
      obtain ⟨s₂, hsteady, hfile, hclient, hround⟩ :=
        h.exec_recordedLoop_none htopic hgo hdata hd record
      obtain ⟨more, n, g', s', hrest, hcounted⟩ := ih hsteady htopic hleft record
      rw [hfile, hclient] at hcounted
      exact ⟨more, n, g', s', hround.trans hrest, hcounted.of_none hgo hdata hd⟩
    | some d =>
      obtain ⟨a, s₂, ha, hsteady, hfile, hclient, hround⟩ :=
        h.exec_recordedLoop_some htopic hgo hd record
      have hoff := toNat_readPointer_afterPacket h.small hd
      have hassoc (more : List Attempt) : record ++ [a] ++ more = record ++ (a :: more) :=
        List.append_assoc ..
      rw [hround]
      by_cases hdelivered : (s.client.handOver d).1
      · obtain ⟨more, n, g', s', hrest, hcounted⟩ :=
          ih hsteady (g := afterPacket g d) htopic hleft (record ++ [a])
        rw [hfile, hclient, hoff] at hcounted
        rw [if_pos hdelivered]
        refine ⟨a :: more, n, g', s', hassoc more ▸ hrest, .of_some hgo hd ha ?_⟩
        rwa [if_pos hdelivered, if_pos hdelivered]
      rw [if_neg hdelivered]
      by_cases hlimit : 3 ≤ errorCount + 1
      · rw [if_pos hlimit]
        refine ⟨[a], packetsSent, afterPacket g d, s₂, rfl, .of_some hgo hd ha ?_⟩
        rw [if_neg hdelivered, if_neg hdelivered]
        exact .nil (.inl (Client.stops_of_limit (by omega) _ _))
      · have hleft' : roundsLeft packetsSent (errorCount + 1) ≤ fuel := by
          rw [roundsLeft] at hfuel ⊢
          omega
        obtain ⟨more, n, g', s', hrest, hcounted⟩ :=
          ih hsteady (g := afterPacket g d) htopic hleft' (record ++ [a])
        rw [hfile, hclient, hoff] at hcounted
        rw [if_neg hlimit]
        refine ⟨a :: more, n, g', s', hassoc more ▸ hrest, .of_some hgo hd ha ?_⟩
        rwa [if_neg hdelivered, if_neg hdelivered]

end

/-- The loop comes to an end. What it returns is the number of packets delivered exactly when the
group is on the topic and the frames suffice. -/
theorem countsDeliveries_iff (h : s.Steady path) :
    (∀ fuel, 303 ≤ fuel → consumerLoop topic fuel 0 0 g = consumerLoop topic 303 0 0 g) ∧
      (CountsDeliveries s g topic ↔ g.attachedTopic = topic ∧
        FramesSuffice (s.file path) s.client g.readPointer.toNat 0 0) := by
  refine ⟨fun fuel hfuel => consumerLoop_eq topic hfuel (Nat.le_refl _) g, ?_⟩
  have hbare : (handleConsumerRequest g topic).exec s =
      ((recordedConsumerRequest g topic).exec s).map fun x => (unrecorded x.1, x.2) := by
    rw [← unrecorded_consumerRequest]
    exact CallProgram.run_map ..
  by_cases htopic : g.attachedTopic = topic
  · have hrounds : roundsLeft 0 0 ≤ 303 := Nat.le_refl _
    obtain ⟨record, n, g', s', hrun, hcounted⟩ := h.exec_recordedLoop htopic hrounds []
    have hrequest : (recordedConsumerRequest g topic).exec s =
        some (((record, (n : ℤ)), g'), s') := by
      rw [recordedConsumerRequest, if_neg (not_not.mpr htopic)]
      simp only [CallProgram.run_bind, hrun, Option.bind_some]
      rfl
    have heq := hcounted.eq_iff
    rw [Nat.zero_add] at heq
    rw [hrequest] at hbare
    constructor
    · rintro ⟨record', r, g'', s'', hrun', -, hr⟩
      obtain ⟨hpair, -⟩ := Prod.mk.inj (Option.some.inj (hrequest.symm.trans hrun'))
      obtain ⟨⟨rfl, rfl⟩, -⟩ := Prod.mk.inj hpair
      exact ⟨htopic, heq.mp (Int.natCast_inj.mp hr)⟩
    · rintro ⟨-, hsuffice⟩
      exact ⟨record, n, g', s', hrequest, hbare, congrArg Nat.cast (heq.mpr hsuffice)⟩
  · refine iff_of_false ?_ fun hboth => htopic hboth.1
    rintro ⟨record, r, g', s', hrun, -, hr⟩
    rw [recordedConsumerRequest, if_pos htopic] at hrun
    obtain ⟨⟨⟨rfl, rfl⟩, -⟩, -⟩ := hrun
    exact absurd hr (by decide)

theorem countsDeliveries_iff_sample :
    (∀ fuel, 303 ≤ fuel → consumerLoop 0 fuel 0 0 samplePayloadsGroup =
        consumerLoop 0 303 0 0 samplePayloadsGroup) ∧
      (CountsDeliveries sampleTruncated samplePayloadsGroup 0 ↔
        samplePayloadsGroup.attachedTopic = 0 ∧
          FramesSuffice (sampleTruncated.file (ascii "t")) sampleTruncated.client
            samplePayloadsGroup.readPointer.toNat 0 0) :=
  countsDeliveries_iff steady_sampleTruncated

/-- Half a frame is counted a hundred times. -/
theorem not_countsDeliveries_sample :
    ¬ CountsDeliveries sampleTruncated samplePayloadsGroup 0 := by
  rintro ⟨record, r, g', s', hrun, -, hr⟩
  have hcounts := congrArg (Option.map fun x => (x.1.1.1.countP Attempt.delivered, x.1.1.2)) hrun
  have hphantoms : ((recordedConsumerRequest samplePayloadsGroup 0).exec sampleTruncated).map
      (fun x => (x.1.1.1.countP Attempt.delivered, x.1.1.2)) = some (0, 100) := by decide +kernel
  obtain ⟨hcount, hreturned⟩ := Prod.mk.inj (Option.some.inj (hphantoms.symm.trans hcounts))
  exact absurd (hreturned.trans (hr.trans (congrArg Nat.cast hcount.symm))) (by decide)

end SuparnaD
