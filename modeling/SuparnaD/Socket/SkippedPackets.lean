import SuparnaD.Foundation.Runs
import SuparnaD.Socket.SessionSteps

/-!
# `CONSUME` and `ACK` in one session

A client that sends `CONSUME` and `ACK` in any order should receive every packet that its group has
moved past. `CONSUME` moves the read pointer past the packet that it sends; `ACK` moves it past one
more packet, which the client has not received. So nothing is skipped exactly as long as every `ACK`
comes when its load shows no packet at the read pointer.

What the client has received is read off the bytes that the socket has taken: a packet starts with
the magic number of its header, and no reply does.

## Main definitions

* `Delivery`, `sentPayload`, `Watched`, `Watched.step` : runs with the packets received so far.
* `Watched.NoneSkipped`, `Watched.AtRest`.

## Main results

* `Watched.Served.consume`, `Watched.Served.ack` : what one command does.
* `Watched.noneSkipped_iff`.
-/

namespace SuparnaD

open Broker

/-! ### Runs with the packets received -/

/-- A packet that the client has received, with the read pointer of the group before. -/
structure Delivery where
  /-- The read pointer of the group before the packet was consumed. -/
  offset : ℕ
  /-- The payload. -/
  data : Bytes
  deriving DecidableEq, Repr

/-- The payload in bytes that the client has received during one command: everything after a packet
header. -/
def sentPayload (received : Bytes) : Option Bytes :=
  if startsWith (u32Bytes packetMagic) received then some (received.drop packetHeaderSize) else none

theorem sentPayload_packet (n : ℕ) (d : Bytes) : sentPayload (packetHeader n ++ d) = some d := by
  have hmagic : startsWith (u32Bytes packetMagic) (packetHeader n ++ d) = true := by
    rw [startsWith, List.isPrefixOf_iff_prefix, packetHeader, List.append_assoc]
    exact List.prefix_append _ _
  rw [sentPayload, if_pos hmagic]
  rfl

/-- A session with the packets that its client has received. -/
structure Watched where
  /-- The session. -/
  state : SessionState
  /-- The packets received so far. -/
  sent : List Delivery

/-- The read pointer of the group that the session has selected, `0` without a group. -/
def SessionState.readPointer (st : SessionState) : ℕ :=
  (st.session.group.bind st.world.groups.get).elim 0 fun g => g.readPointer.toNat

namespace Watched

/-- The session after a command, with what the client has received during it. -/
def note (w : Watched) (st : SessionState) : Watched :=
  ⟨st, w.sent ++ ((sentPayload (st.client.wire.drop w.state.client.wire.length)).map
    (Delivery.mk w.state.readPointer)).toList⟩

/-- Process one command. -/
def step (w : Watched) (command : Bytes) : Option (ℤ × Watched) :=
  (processClientCommand command w.state).map fun (r : ℤ × SessionState) => (r.1, w.note r.2)

/-- Every packet that ends at or before the read pointer has been received, and the packets received
are the first ones of the file in order. -/
def NoneSkipped (ds : List Bytes) (w : Watched) : Prop :=
  (∀ k (hk : k < ds.length), topicFormat.start ds (k + 1) ≤ w.state.readPointer →
      ⟨topicFormat.start ds k, ds[k]⟩ ∈ w.sent) ∧
    w.sent.map Delivery.data <+: ds

/-- The command is `CONSUME`. -/
def IsConsume (command : Bytes) : Prop := startsWith commandConsume command = true

/-- The command is `ACK` without data. -/
def IsBareAck (command : Bytes) : Prop :=
  startsWith commandAck command = true ∧ ackData command = []

/-- The next load of the selected topic shows no packet at the read pointer. -/
def AtRest (w : Watched) : Prop :=
  ∀ th v, w.state.session.topic = some th → w.state.view th = some v →
    topicFormat.parseAt v w.state.readPointer = none

/-- The command is `CONSUME`, or there is no packet at the read pointer. -/
def Meets (w : Watched) (command : Bytes) : Prop := IsConsume command ∨ w.AtRest

theorem not_isConsume_of_isBareAck {command : Bytes} (h : IsBareAck command) :
    ¬ IsConsume command := not_startsWith_consume_of_ack h.1

/-! ### The invariant -/

/-- The group stands at the start of the `k`-th packet and the client has received all packets
before it and no other. -/
structure Served (w : Watched) (gh th : ℕ) (path : Bytes) (ds : List Bytes) (k : ℕ) : Prop where
  selected : ∃ g, w.state.Selected gh th g path ∧ g.readPointer.toNat = topicFormat.start ds k
  reliable : w.state.client.Reliable
  file : w.state.file path = topicFormat.stream ds
  le : k ≤ ds.length
  data : w.sent.map Delivery.data = ds.take k
  sent : ∀ j (hj : j < ds.length), j < k → ⟨topicFormat.start ds j, ds[j]⟩ ∈ w.sent
  before : ∀ x ∈ w.sent, x.offset < topicFormat.start ds k

variable {w w' : Watched} {gh th k : ℕ} {path : Bytes} {ds : List Bytes}

theorem readPointer_of_selected {st : SessionState} {g : Group} (h : st.Selected gh th g path) :
    st.readPointer = g.readPointer.toNat := by
  rw [SessionState.readPointer, h.group, Option.bind_some, h.object, Option.elim_some]

theorem Served.readPointer_eq (h : w.Served gh th path ds k) :
    w.state.readPointer = topicFormat.start ds k := by
  obtain ⟨g, hsel, hptr⟩ := h.selected
  rw [readPointer_of_selected hsel, hptr]

/-! ### One command -/

theorem note_eq_of_reply {st : SessionState} (hrel : w.state.client.Reliable) {text : Bytes}
    (htext : sentPayload text = none) (hclient : st.client = (w.state.client.send text).2) :
    w.note st = ⟨st, w.sent⟩ := by
  have hwire : st.client.wire = w.state.client.wire ++ text := by rw [hclient, hrel.send]; rfl
  rw [note, hwire, List.drop_left, htext]
  exact congrArg (Watched.mk st) (List.append_nil _)

/-- A reply leaves the client with the packets it had. -/
theorem Served.reply (h : w.Served gh th path ds k) {st : SessionState} {g' : Group}
    (htouch : w.state.Touched st gh th) (hsel : st.Selected gh th g' path)
    (hptr : g'.readPointer.toNat = topicFormat.start ds k) {text : Bytes}
    (htext : sentPayload text = none) (hclient : st.client = (w.state.client.send text).2) :
    (w.note st).Served gh th path ds k := by
  rw [note_eq_of_reply h.reliable htext hclient]
  refine ⟨⟨g', hsel, hptr⟩, ?_, (htouch.file path).trans h.file, h.le, h.data, h.sent, h.before⟩
  change st.client.Reliable
  rw [hclient, h.reliable.send]
  exact h.reliable.receive text

section Valid

variable (hds : ∀ d ∈ ds, topicFormat.Valid d)

include hds

theorem Served.noneSkipped (h : w.Served gh th path ds k) : w.NoneSkipped ds := by
  refine ⟨fun j hj hend => ?_, ?_⟩
  · rw [h.readPointer_eq, FrameFormat.start_le_start_iff hds (by omega) h.le] at hend
    exact h.sent j hj (by omega)
  · rw [h.data]
    exact List.take_prefix k ds

/-- The packet at the read pointer. -/
theorem Served.parseAt_eq (h : w.Served gh th path ds k) :
    topicFormat.parseAt (w.state.file path) w.state.readPointer = ds[k]? := by
  rw [h.file, h.readPointer_eq, FrameFormat.parseAt_start_eq hds h.le]

/-- The `k`-th packet reaches the client and the group moves to the next one. -/
theorem Served.sending (h : w.Served gh th path ds k) (hk : k < ds.length) {st : SessionState}
    {g' : Group} (htouch : w.state.Touched st gh th) (hsel : st.Selected gh th g' path)
    (hptr : g'.readPointer.toNat = topicFormat.start ds (k + 1))
    (hclient : st.client =
      (w.state.client.receive (packetHeader ds[k].length)).receive ds[k]) :
    (w.note st).Served gh th path ds (k + 1) := by
  have hnote : w.note st = ⟨st, w.sent ++ [⟨topicFormat.start ds k, ds[k]⟩]⟩ := by
    have hwire : st.client.wire =
        w.state.client.wire ++ (packetHeader ds[k].length ++ ds[k]) := by
      rw [hclient]
      exact List.append_assoc ..
    rw [note, hwire, List.drop_left, sentPayload_packet, h.readPointer_eq]
    rfl
  rw [hnote]
  refine ⟨⟨g', hsel, hptr⟩, ?_, (htouch.file path).trans h.file, hk, ?_, ?_, ?_⟩
  · change st.client.Reliable
    rw [hclient]
    exact (h.reliable.receive _).receive _
  · rw [List.map_append, h.data, List.take_succ_eq_append_getElem hk]
    rfl
  · intro j hj hjk
    rcases Nat.lt_succ_iff_lt_or_eq.mp hjk with hjk | rfl
    · exact List.mem_append_left _ (h.sent j hj hjk)
    · exact List.mem_append_right _ List.mem_cons_self
  · intro x hx
    have hlt := FrameFormat.start_lt_start_succ hds hk
    rcases List.mem_append.mp hx with hx | hx
    · exact Nat.lt_trans (h.before x hx) hlt
    · rw [List.mem_singleton.mp hx]
      exact hlt

/-- `CONSUME` sends the packet at the read pointer and moves past it, or it sends none. -/
theorem Served.consume (h : w.Served gh th path ds k) {command : Bytes} (hcmd : IsConsume command)
    {r : ℤ} (hstep : w.step command = some (r, w')) : ∃ k', w'.Served gh th path ds k' := by
  obtain ⟨g, hsel, hptr⟩ := h.selected
  obtain ⟨record, r', st', hrun, htouch, hcases⟩ := hsel.run_consume
  have hnote : w' = w.note st' := by
    rw [step, processClientCommand_consume hcmd, hrun] at hstep
    exact (Prod.mk.inj (Option.some.inj hstep)).2.symm
  subst hnote
  rcases hcases with ⟨-, hsel', text, htext, hclient⟩ | ⟨d, s, -, hsel', hd, hsmall, hs, hsend⟩
  · refine ⟨k, h.reply htouch hsel' hptr ?_ hclient⟩
    rcases htext with rfl | rfl <;> rfl
  · have hdk : ds[k]? = some d := by
      rw [← FrameFormat.parseAt_start_eq hds h.le, ← h.file, ← hptr, hd]
    obtain ⟨hk, rfl⟩ := List.getElem?_eq_some_iff.mp hdk
    have hrel : s.client.Reliable := hs ▸ h.reliable
    rw [exec_sendPacketToConsumer_of_reliable hrel (hds _ (List.getElem_mem hk))] at hsend
    refine ⟨k + 1, h.sending hds hk htouch hsel' ?_ ?_⟩
    · rw [toNat_readPointer_afterPacket hsmall hd, hptr, FrameFormat.start_succ hk]
      rfl
    · rw [← hs]
      exact (congrArg Machine.client (Prod.mk.inj (Option.some.inj hsend)).2).symm

/-- An `ACK` without data moves past the packet at the read pointer, which the client has not
received. -/
theorem Served.ack (h : w.Served gh th path ds k) {command : Bytes} (hcmd : IsBareAck command)
    {r : ℤ} (hstep : w.step command = some (r, w')) :
    (w'.NoneSkipped ds ↔ w.AtRest) ∧ (w.AtRest → w'.Served gh th path ds k) := by
  obtain ⟨g, hsel, hptr⟩ := h.selected
  obtain ⟨r', st', g', hrun, hacked⟩ := hsel.run_ack (ackData command)
  have hnote : w' = w.note st' := by
    rw [step, processClientCommand_ack hcmd.1, hrun] at hstep
    exact (Prod.mk.inj (Option.some.inj hstep)).2.symm
  subst hnote
  obtain ⟨text, htext, hclient⟩ := hacked.client
  have hsilent : sentPayload text = none := by rcases htext with rfl | rfl <;> rfl
  have hmoved : g' = ((CursorOp.ackPacketBatch th 1).result g (w.state.view th)).2 := by
    rcases hacked.moves with ⟨packetSize, hacc, -⟩ | ⟨-, st₁, -, -, hbare, hg'⟩
    · exact absurd hcmd.2 (List.length_pos_iff.mp hacc.1.1)
    · rw [hg', hbare hcmd.2]
  have hend (hnone : topicFormat.parseAt (w.state.file path) g.readPointer.toNat = none) :
      (w.state.file path).length ≤ g.readPointer.toNat := by
    rw [h.file, hptr, FrameFormat.parseAt_start_eq hds h.le, List.getElem?_eq_none_iff] at hnone
    rw [h.file, hptr, ← FrameFormat.start_length]
    exact topicFormat.start_mono ds hnone
  have hrp : w.state.readPointer = g.readPointer.toNat := h.readPointer_eq.trans hptr.symm
  rcases hsel.result_ackPacketBatch_one hend with ⟨hnone, hsame⟩ | ⟨d, hv, hsmall, hd, hpass⟩
  · -- The load shows no packet, and nothing has moved.
    rw [← hmoved] at hsame
    have hrest : w.AtRest := fun th' v hth' hv => by
      cases hsel.topic.symm.trans hth'
      exact hrp ▸ hnone v hv
    have hkeep : (w.note st').Served gh th path ds k :=
      h.reply hacked.touched hacked.selected (hsame ▸ hptr) hsilent hclient
    exact ⟨iff_of_true (hkeep.noneSkipped hds) hrest, fun _ => hkeep⟩
  · -- The packet is passed over without having been received.
    have hmoving : ¬ w.AtRest := fun hrest =>
      absurd (hrp ▸ hrest th _ hsel.topic hv) (Option.ne_none_iff_exists'.mpr ⟨d, hd⟩)
    refine ⟨iff_of_false (fun hskip => ?_) hmoving, fun hrest => absurd hrest hmoving⟩
    have hdk : ds[k]? = some d := by rw [← h.parseAt_eq hds, hrp, hd]
    obtain ⟨hk, rfl⟩ := List.getElem?_eq_some_iff.mp hdk
    have hnext : (w.note st').state.readPointer = topicFormat.start ds (k + 1) := by
      rw [note, readPointer_of_selected hacked.selected, hmoved, hpass,
        toNat_readPointer_afterPacket hsmall hd, hptr, FrameFormat.start_succ hk]
      rfl
    have hmem := hskip.1 k hk (Nat.le_of_eq hnext.symm)
    rw [note_eq_of_reply h.reliable hsilent hclient] at hmem
    exact absurd (h.before _ hmem) (Nat.lt_irrefl _)

end Valid

/-! ### Runs -/

/-- Every command of the two kinds comes to an end and leaves the group selected. -/
theorem step_eq_some {g : Group} (hsel : w.state.Selected gh th g path) {command : Bytes}
    (hcmd : IsConsume command ∨ IsBareAck command) :
    ∃ r w', w.step command = some (r, w') ∧ ∃ g', w'.state.Selected gh th g' path := by
  rcases hcmd with hcmd | hcmd
  · obtain ⟨record, r, st', hrun, -, hcases⟩ := hsel.run_consume
    refine ⟨r, w.note st', ?_, ?_⟩
    · rw [step, processClientCommand_consume hcmd, hrun]
      rfl
    · rcases hcases with ⟨-, hsel', -⟩ | ⟨d, -, -, hsel', -⟩
      · exact ⟨g, hsel'⟩
      · exact ⟨_, hsel'⟩
  · obtain ⟨r, st', g', hrun, hacked⟩ := hsel.run_ack (ackData command)
    refine ⟨r, w.note st', ?_, g', hacked.selected⟩
    rw [step, processClientCommand_ack hcmd.1, hrun]
    rfl

/-- All commands of a run come to an end, and no packet is skipped exactly when every `ACK` finds no
packet at the read pointer. -/
theorem noneSkipped_iff {st : SessionState} {g : Group} (hsel : st.Selected gh th g path)
    (hptr : g.readPointer = 0) (hrel : st.client.Reliable) (hds : ∀ d ∈ ds, topicFormat.Valid d)
    (hfile : st.file path = topicFormat.stream ds) {commands : List Bytes}
    (hcommands : ∀ command ∈ commands, IsConsume command ∨ IsBareAck command) :
    (trace step ⟨st, []⟩ commands).length = commands.length ∧
      ((∀ e ∈ trace step ⟨st, []⟩ commands, NoneSkipped ds e.after) ↔
        ∀ e ∈ trace step ⟨st, []⟩ commands, e.before.Meets e.op) := by
  constructor
  · refine length_trace (fun w => ∃ g, w.state.Selected gh th g path) _
      (fun w command ⟨g, hg⟩ hcmd => step_eq_some hg hcmd) ⟨g, hsel⟩ hcommands
  have hserved : Served ⟨st, []⟩ gh th path ds 0 :=
    ⟨⟨g, hsel, by rw [hptr]; rfl⟩, hrel, hfile, Nat.zero_le _, rfl,
      fun j _ hj => absurd hj (Nat.not_lt_zero j), fun x hx => absurd hx List.not_mem_nil⟩
  refine trace_iff (fun w => ∃ k, w.Served gh th path ds k)
    (fun e => IsConsume e.op ∨ IsBareAck e.op) ?_ ⟨0, hserved⟩
    fun e he => hcommands e.op (op_mem_of_mem_trace he)
  rintro w command r w' ⟨k, hw⟩ hstep (hcmd | hcmd)
  · obtain ⟨k', hw'⟩ := hw.consume hds hcmd hstep
    exact ⟨iff_of_true (hw'.noneSkipped hds) (.inl hcmd), fun _ => ⟨k', hw'⟩⟩
  · obtain ⟨hiff, hkeep⟩ := hw.ack hds hcmd hstep
    have hmeets : w.Meets command ↔ w.AtRest :=
      or_iff_right (not_isConsume_of_isBareAck hcmd)
    exact ⟨hiff.trans hmeets.symm, fun h => ⟨k, hkeep (hmeets.mp h)⟩⟩

/-- A session whose group stands at the start of a file of three packets. -/
def sampleSession : SessionState where
  world :=
    { fs := .ofFile (ascii "t") (topicFormat.stream [ascii "a", ascii "b", ascii "c"])
      faults := []
      topics := HandleHeap.empty.alloc
        ⟨⟨some (ascii "t"), some (ascii "t")⟩, some ⟨ascii "t", [], 0, 0, 0⟩⟩
      groups := HandleHeap.empty.alloc ⟨ascii "g", 0, 0, 0⟩ }
  session := ⟨some 0, some 0, some (ascii "g"), some (ascii "t")⟩
  client := ⟨[], [], []⟩

theorem selected_sampleSession :
    sampleSession.Selected 0 0 ⟨ascii "g", 0, 0, 0⟩ (ascii "t") :=
  ⟨rfl, rfl, rfl, rfl, _, rfl, Machine.onTopic_ofFile (ascii "t") []⟩

/-- Two commands of the kinds in question. -/
def sampleCommands : List Bytes := [ascii "CONSUME", ascii "ACK"]

theorem noneSkipped_iff_sample :
    (trace step ⟨sampleSession, []⟩ sampleCommands).length = sampleCommands.length ∧
      ((∀ e ∈ trace step ⟨sampleSession, []⟩ sampleCommands,
          NoneSkipped [ascii "a", ascii "b", ascii "c"] e.after) ↔
        ∀ e ∈ trace step ⟨sampleSession, []⟩ sampleCommands, e.before.Meets e.op) :=
  noneSkipped_iff selected_sampleSession rfl (fun _ ho => absurd ho List.not_mem_nil)
    (by decide) (by decide) fun command hcommand => by
      rcases List.mem_pair.mp hcommand with rfl | rfl
      · exact .inl rfl
      · exact .inr ⟨rfl, rfl⟩

/-- After `CONSUME` and `ACK` the read pointer is behind the second packet, and the client has
received the first only. -/
theorem not_noneSkipped_after_ack :
    ∃ w, ((step ⟨sampleSession, []⟩ (ascii "CONSUME")).bind fun r => step r.2 (ascii "ACK")) =
        some (0, w) ∧ w.sent = [⟨0, ascii "a"⟩] ∧ w.state.readPointer = 10 ∧
      ¬ w.NoneSkipped [ascii "a", ascii "b", ascii "c"] := by
  refine ⟨_, rfl, by decide, by decide, fun hskip => ?_⟩
  exact absurd (hskip.1 1 (by decide) (by decide)) (by decide)

end Watched

end SuparnaD
