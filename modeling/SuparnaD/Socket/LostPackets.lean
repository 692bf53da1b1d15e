import SuparnaD.Foundation.Runs
import SuparnaD.Socket.SessionSteps

/-!
# Packets that do not arrive

`consume_packet` moves the read pointer past a packet before the packet is sent, and no caller moves
it back. So whatever becomes of the sending and of the acknowledgement, a packet that was handed out
lies behind the read pointer from then on: a packet whose sending failed, or whose acknowledgement
was not read, is lost to the group.

## Main definitions

* `HandOut` : the three calls that hand out packets.
* `StaysAhead` : the read pointer has not passed a packet, which therefore comes again.

## Main results

* `SessionState.Selected.run_recorded` : the read pointer passes every packet handed out.
* `HandOut.redelivers_iff`.
-/

namespace SuparnaD

open Broker

/-- The calls that hand out packets of a group. -/
inductive HandOut where
  | consumeAndSendPacket
  | handleConsumerRequest
  | handleConsumeCommand
  deriving DecidableEq, Repr

namespace HandOut

/-- The call of the source, on a group and a topic. -/
def run (gh th : ℕ) : HandOut → SessionM ℤ
  | .consumeAndSendPacket => SessionM.onGroup gh th fun g => SuparnaD.consumeAndSendPacket g th
  | .handleConsumerRequest => SessionM.onGroup gh th fun g => SuparnaD.handleConsumerRequest g th
  | .handleConsumeCommand => SuparnaD.handleConsumeCommand

/-- The call on record. -/
def recorded (gh th : ℕ) : HandOut → SessionM (List Attempt × ℤ)
  | .consumeAndSendPacket => SessionM.onGroup gh th fun g => recordedConsumeAndSend g th
  | .handleConsumerRequest => SessionM.onGroup gh th fun g => recordedConsumerRequest g th
  | .handleConsumeCommand => recordedConsumeCommand

end HandOut

/-! ### What is handed out is passed -/

/-- From one machine and group to another the read pointer has moved on, past all packets of the
record. -/
structure Advances (path : Bytes) (s s' : Machine) (g g' : Group) (record : List Attempt) :
    Prop where
  onTopic : s'.OnTopic path
  fs : s'.fs = s.fs
  chunk : s'.chunk.isSome = s.chunk.isSome
  same : g.Same g'
  le : g.readPointer ≤ g'.readPointer
  passed : ∀ a ∈ record, a.packet.offsetInTopic < g'.readPointer

variable {path : Bytes} {s s' s'' : Machine} {g g' g'' : Group} {topic : ℕ}

theorem Advances.of_kept (hkept : s.Kept s') (h : s'.OnTopic path) : Advances path s s' g g [] :=
  ⟨h, hkept.fs, hkept.chunk, ⟨rfl, rfl⟩, UInt64.le_refl _, fun _ ha => absurd ha List.not_mem_nil⟩

theorem Advances.trans {first second : List Attempt} (h : Advances path s s' g g' first)
    (h' : Advances path s' s'' g' g'' second) :
    Advances path s s'' g g'' (first ++ second) := by
  refine ⟨h'.onTopic, h'.fs.trans h.fs, h'.chunk.trans h.chunk,
    ⟨h'.same.groupId.trans h.same.groupId, h'.same.attachedTopic.trans h.same.attachedTopic⟩,
    UInt64.le_trans h.le h'.le, fun a ha => ?_⟩
  rcases List.mem_append.mp ha with ha | ha
  · exact UInt64.lt_of_lt_of_le (h.passed a ha) h'.le
  · exact h'.passed a ha

theorem Machine.OnTopic.exec_recordedConsumeAndSend (h : s.OnTopic path)
    (htopic : g.attachedTopic = topic) : ∃ record r g' s',
      (recordedConsumeAndSend g topic).exec s = some (((record, r), g'), s') ∧
        Advances path s s' g g' record := by
  obtain ⟨r, s₁, hconsume, hkept, h₁, hcases⟩ := h.exec_consumePacket htopic
  rw [recordedConsumeAndSend, if_neg (not_not.mpr htopic)]
  simp only [CallProgram.run_bind, hconsume, Option.bind_some]
  rcases hcases with ⟨rfl, -⟩ | ⟨d, hd, hlt, rfl⟩
  · exact ⟨[], 0, g, s₁, rfl, .of_kept hkept h₁⟩
  have hpassed := readPointer_lt_afterPacket hlt hd
  -- The read pointer is past the packet; the rest of the call does not move it back.
  have hadv (client : Client) (sendResult : ℤ) (ackResult : Option ℤ) :
      Advances path s (s₁.withClient client) g (afterPacket g d)
        [⟨packetAt g d, sendResult, ackResult⟩] := by
    refine ⟨h₁, hkept.fs, hkept.chunk, ⟨rfl, rfl⟩, UInt64.le_of_lt hpassed, fun a ha => ?_⟩
    rw [List.mem_singleton.mp ha]
    exact hpassed
  obtain ⟨result, client, hsend⟩ := onlyTalks_sendPacketToConsumer d s₁
  simp only [CallProgram.run_bind, packetAt, hsend, Option.bind_some]
  split_ifs with hsent
  swap
  · exact ⟨_, _, _, _, rfl, hadv client result none⟩
  obtain ⟨acked, client', hwait⟩ := onlyTalks_waitForAck (s₁.withClient client)
  simp only [CallProgram.run_bind, hwait, Option.bind_some]
  split_ifs
  swap
  · exact ⟨_, _, _, _, rfl, hadv client' result (some acked)⟩
  have h₂ : ((s₁.withClient client).withClient client').OnTopic path := h₁
  obtain ⟨s₃, hkept₃, h₃, hack⟩ := h₂.computes_ackPacket (afterPacket g d) (packetAt g d)
  rw [packetAt] at hack
  simp only [CallProgram.run_bind, hack, Option.bind_some]
  refine ⟨_, _, _, _, rfl, (hadv client' result (some acked)).trans (?_ :
    Advances path _ s₃ _ _ [])⟩
  refine ⟨h₃, hkept₃.fs, hkept₃.chunk, .elim (fun v => same_raiseTo _ _ v) _, ?_,
    fun _ ha => absurd ha List.not_mem_nil⟩
  cases ((s₁.withClient client).withClient client').view with
  | none => exact UInt64.le_refl _
  | some v => exact le_readPointer_raiseTo ..

theorem Machine.OnTopic.exec_recordedLoop (h : s.OnTopic path) (htopic : g.attachedTopic = topic)
    (fuel packetsSent errorCount : ℕ) {record : List Attempt}
    (hrecord : ∀ a ∈ record, a.packet.offsetInTopic < g.readPointer) : ∃ record' n g' s',
      (recordedLoop topic fuel packetsSent errorCount g record).exec s =
          some (((record', n), g'), s') ∧ Advances path s s' g g' record' := by
  have hstay {s' : Machine} (hkept : s.Kept s') (h' : s'.OnTopic path) :
      Advances path s s' g g record :=
    ⟨h', hkept.fs, hkept.chunk, ⟨rfl, rfl⟩, UInt64.le_refl _, hrecord⟩
  induction fuel generalizing s g packetsSent errorCount record with
  | zero => exact ⟨_, _, _, _, rfl, hstay (.refl s) h⟩
  | succ fuel ih =>
    rw [recordedLoop]
    by_cases hgo : ¬ (packetsSent < 100 ∧ errorCount < 3)
    · rw [if_pos hgo]
      exact ⟨_, _, _, _, rfl, hstay (.refl s) h⟩
    rw [if_neg hgo]
    obtain ⟨s₁, hkept₁, h₁, hmore⟩ := h.computes_groupHasMoreData g
    simp only [CallProgram.run_bind, hmore, Option.bind_some]
    split
    · exact ⟨_, _, _, _, rfl, hstay hkept₁ h₁⟩
    obtain ⟨attempts, result, g₂, s₂, hrun, hadv⟩ := h₁.exec_recordedConsumeAndSend htopic
    have hadv₂ : Advances path s s₂ g g₂ (record ++ attempts) :=
      (hstay hkept₁ h₁).trans hadv
    have htopic₂ : g₂.attachedTopic = topic := hadv.same.attachedTopic.trans htopic
    -- The next rounds start from the record so far, which the read pointer has passed.
    have hnext (packetsSent errorCount : ℕ) : ∃ record' n g' s',
        (recordedLoop topic fuel packetsSent errorCount g₂ (record ++ attempts)).exec s₂ =
          some (((record', n), g'), s') ∧ Advances path s s' g g' record' := by
      obtain ⟨record', n, g', s', hrun', hadv'⟩ := ih hadv₂.onTopic htopic₂ packetsSent errorCount
        hadv₂.passed
        fun hkept h' => ⟨h', hkept.fs, hkept.chunk, ⟨rfl, rfl⟩, UInt64.le_refl _, hadv₂.passed⟩
      exact ⟨record', n, g', s', hrun', ⟨hadv'.onTopic, hadv'.fs.trans hadv₂.fs,
        hadv'.chunk.trans hadv₂.chunk, (Advances.trans hadv₂ hadv').same,
        UInt64.le_trans hadv₂.le hadv'.le, hadv'.passed⟩⟩
    simp only [CallProgram.run_bind, hrun, Option.bind_some]
    split
    · exact hnext ..
    split
    · split
      · exact ⟨_, _, _, _, rfl, hadv₂⟩
      · exact hnext ..
    · exact ⟨_, _, _, _, rfl, hadv₂⟩

theorem Machine.OnTopic.exec_recordedConsumerRequest (h : s.OnTopic path)
    (htopic : g.attachedTopic = topic) : ∃ record r g' s',
      (recordedConsumerRequest g topic).exec s = some (((record, r), g'), s') ∧
        Advances path s s' g g' record := by
  obtain ⟨record, n, g', s', hrun, hadv⟩ :=
    h.exec_recordedLoop htopic 303 0 0 fun a ha => absurd ha List.not_mem_nil
  rw [recordedConsumerRequest, if_neg (not_not.mpr htopic)]
  simp only [CallProgram.run_bind, hrun, Option.bind_some]
  exact ⟨record, n, g', s', rfl, hadv⟩

namespace SessionState

variable {st : SessionState} {gh th : ℕ}

theorem Selected.run_recordedOnGroup (h : st.Selected gh th g path)
    {f : Group → Broker ((List Attempt × ℤ) × Group)}
    (hf : ∀ s : Machine, s.OnTopic path → ∃ record r g' s',
      (f g).exec s = some (((record, r), g'), s') ∧ Advances path s s' g g' record) :
    ∃ record r st' g', SessionM.onGroup gh th f st = some ((record, r), st') ∧
      st'.Selected gh th g' path ∧ ∀ a ∈ record, a.packet.offsetInTopic < g'.readPointer := by
  obtain ⟨t, ht, hon⟩ := h.live
  obtain ⟨record, r, g', m, hexec, hadv⟩ := hf _ hon
  obtain ⟨st', hrun, hsel, -, -⟩ := h.run_onGroup ht hexec hadv.onTopic hadv.fs hadv.chunk
    (hadv.same.attachedTopic.trans h.attached)
  exact ⟨record, r, st', g', hrun, hsel, hadv.passed⟩

/-- The three calls come to an end, and the read pointer has passed every packet handed out. -/
theorem Selected.run_recorded (h : st.Selected gh th g path) (op : HandOut) :
    ∃ record r st' g', op.recorded gh th st = some ((record, r), st') ∧
      st'.Selected gh th g' path ∧ ∀ a ∈ record, a.packet.offsetInTopic < g'.readPointer := by
  cases op with
  | consumeAndSendPacket =>
    exact h.run_recordedOnGroup fun s hs => hs.exec_recordedConsumeAndSend h.attached
  | handleConsumerRequest =>
    exact h.run_recordedOnGroup fun s hs => hs.exec_recordedConsumerRequest h.attached
  | handleConsumeCommand =>
    obtain ⟨record, r, st', hrun, -, hcases⟩ := h.run_recordedConsume
    rcases hcases with ⟨rfl, hsel, -⟩ | ⟨d, s, rfl, hsel, hd, hlt, -⟩
    · exact ⟨[], r, st', g, hrun, hsel, fun a ha => absurd ha List.not_mem_nil⟩
    · refine ⟨_, r, st', _, hrun, hsel, fun a ha => ?_⟩
      rw [List.mem_singleton.mp ha]
      exact readPointer_lt_afterPacket hlt hd

end SessionState

/-! ### Without the record -/

theorem SessionM.onGroup_unrecorded {st st' : SessionState} {gh th : ℕ} {record : List Attempt}
    {r : ℤ} {f : Group → Broker ((List Attempt × ℤ) × Group)} {f' : Group → Broker (ℤ × Group)}
    (hf : ∀ g, unrecorded <$> f g = f' g)
    (h : SessionM.onGroup gh th f st = some ((record, r), st')) :
    SessionM.onGroup gh th f' st = some (r, st') := by
  obtain ⟨g, t, m, g', hg, ht, hexec, rfl⟩ := SessionM.onGroup_eq_some_iff.mp h
  refine SessionM.onGroup_eq_some_iff.mpr ⟨g, t, m, g', hg, ht, ?_, rfl⟩
  rw [← hf]
  exact (CallProgram.run_map ..).trans (congrArg _ hexec)

/-- Without the record each call is the call of the source. -/
theorem HandOut.run_of_recorded {st st' : SessionState} {gh th : ℕ} {record : List Attempt} {r : ℤ}
    {op : HandOut} (h : op.recorded gh th st = some ((record, r), st')) :
    op.run gh th st = some (r, st') := by
  cases op with
  | consumeAndSendPacket =>
    exact SessionM.onGroup_unrecorded (fun g => unrecorded_consumeAndSend g th) h
  | handleConsumerRequest =>
    exact SessionM.onGroup_unrecorded (fun g => unrecorded_consumerRequest g th) h
  | handleConsumeCommand =>
    rw [run, ← snd_recordedConsumeCommand]
    exact SessionM.map_eq_some_iff.mpr ⟨_, h, rfl⟩

/-! ### Runs -/

/-- The read pointer has not passed the packet, no byte of it counts as acknowledged, and unless
something fails the next consumption returns it. -/
def StaysAhead (gh th : ℕ) (packet : Packet) (st : SessionState) : Prop :=
  ∃ g, st.world.groups.get gh = some g ∧ g.readPointer ≤ packet.offsetInTopic ∧
    getAcknowledgedBytes g ≤ packet.offsetInTopic ∧
    (st.world.faults = [] → ∃ st',
      SessionM.onGroup gh th (fun g => consumePacket g th) st = some (some packet, st'))

namespace HandOut

/-- The step of a run, with the record as its result. -/
def step (gh th : ℕ) (st : SessionState) (op : HandOut) :
    Option ((List Attempt × ℤ) × SessionState) := op.recorded gh th st

/-- Every packet that the call hands out is sent and, where that is waited for, acknowledged. -/
def Meets (gh th : ℕ) (st : SessionState) (op : HandOut) : Prop :=
  ∀ record r st', step gh th st op = some ((record, r), st') → ∀ a ∈ record, ¬ a.Failed

/-- Every failed attempt of the step leaves its packet ahead of the read pointer. -/
def Redelivers (gh th : ℕ) (e : RunStep SessionState HandOut (List Attempt × ℤ)) : Prop :=
  ∀ a ∈ e.result.1, a.Failed → StaysAhead gh th a.packet e.after

/-- All calls of a run come to an end, and no packet whose sending or acknowledgement failed is lost
exactly when none fails. -/
theorem redelivers_iff {st : SessionState} {gh th : ℕ} {g : Group} {path : Bytes}
    (hsel : st.Selected gh th g path) (ops : List HandOut) :
    (trace (step gh th) st ops).length = ops.length ∧
      ((∀ e ∈ trace (step gh th) st ops, Redelivers gh th e) ↔
        ∀ e ∈ trace (step gh th) st ops, Meets gh th e.before e.op) := by
  constructor
  · refine length_trace (fun st => ∃ g, st.Selected gh th g path) (fun _ => True)
      (fun st op ⟨g, hg⟩ _ => ?_) ⟨g, hsel⟩ fun _ _ => trivial
    obtain ⟨record, r, st', g', hrun, hsel', -⟩ := hg.run_recorded op
    exact ⟨(record, r), st', hrun, g', hsel'⟩
  refine trace_iff (fun st => ∃ g, st.Selected gh th g path) (fun _ => True) ?_
    ⟨g, hsel⟩ fun _ _ => trivial
  rintro st op ⟨record, r⟩ st' ⟨g, hg⟩ hstep -
  obtain ⟨record', r', st'', g', hrun, hsel', hpassed⟩ := hg.run_recorded op
  obtain ⟨heq, rfl⟩ := Prod.mk.inj (Option.some.inj (hstep.symm.trans hrun))
  obtain ⟨rfl, rfl⟩ := Prod.mk.inj heq
  refine ⟨⟨fun hahead => ?_, fun hmeets a ha hfailed => ?_⟩, fun _ => ⟨g', hsel'⟩⟩
  · intro record' r' st'' hstep' a ha hfailed
    obtain ⟨heq, rfl⟩ := Prod.mk.inj (Option.some.inj (hstep'.symm.trans hstep))
    obtain ⟨rfl, rfl⟩ := Prod.mk.inj heq
    obtain ⟨g'', hget, hle, -⟩ := hahead a ha hfailed
    cases hsel'.object.symm.trans hget
    exact absurd (UInt64.lt_of_lt_of_le (hpassed a ha) hle) (UInt64.lt_irrefl _)
  · exact absurd hfailed (hmeets record r st' hstep a ha)

/-- A session on a file of one packet whose client cannot be reached. -/
def sampleSession : SessionState where
  world :=
    { fs := .ofFile (ascii "t") (topicFormat.stream [ascii "a"])
      faults := []
      topics := HandleHeap.empty.alloc
        ⟨⟨some (ascii "t"), some (ascii "t")⟩, some ⟨ascii "t", [], 0, 0, 0⟩⟩
      groups := HandleHeap.empty.alloc ⟨ascii "g", 0, 0, 0⟩ }
  session := ⟨some 0, some 0, some (ascii "g"), some (ascii "t")⟩
  client := ⟨[.failed], [], []⟩

theorem selected_sampleSession :
    sampleSession.Selected 0 0 ⟨ascii "g", 0, 0, 0⟩ (ascii "t") :=
  ⟨rfl, rfl, rfl, rfl, _, rfl, Machine.onTopic_ofFile (ascii "t") []⟩

theorem redelivers_iff_sample :
    (trace (step 0 0) sampleSession [.consumeAndSendPacket]).length = 1 ∧
      ((∀ e ∈ trace (step 0 0) sampleSession [.consumeAndSendPacket], Redelivers 0 0 e) ↔
        ∀ e ∈ trace (step 0 0) sampleSession [.consumeAndSendPacket], Meets 0 0 e.before e.op) :=
  redelivers_iff selected_sampleSession [.consumeAndSendPacket]

/-- The packet was not sent, and the read pointer is past it. -/
theorem not_staysAhead_of_failed_send :
    ∃ st', step 0 0 sampleSession .consumeAndSendPacket =
        some (([⟨⟨1, ascii "a", 0⟩, -1, none⟩], -1), st') ∧
      ¬ StaysAhead 0 0 ⟨1, ascii "a", 0⟩ st' := by
  refine ⟨_, rfl, ?_⟩
  rintro ⟨g, hget, hle, -⟩
  have hpointer : g.readPointer = 5 := by
    cases hget
    rfl
  rw [hpointer] at hle
  exact absurd hle (by decide)

end HandOut

end SuparnaD
