import SuparnaD.Messaging.CursorMoves
import SuparnaD.Messaging.TopicWriting

/-!
# What a failed publish leaves behind

A publishing call that returns a non-zero value should leave no trace: whatever is done with the
topic later, under whatever outcomes of storage and allocation, the file should be the one that the
same operations give without the call. The call does leave a trace as soon as it has appended
anything to the chunk, since the next save writes out what it has left there.

## Main definitions

* `TopicOp`, `runOps` : the later operations on a topic and its groups.
* `fileAfter`, `LeavesNoTrace`.

## Main results

* `leavesNoTrace_iff` : a failed call leaves no trace exactly when it was rejected before it had
  appended anything.
-/

namespace SuparnaD

open Broker

/-- An operation on a topic or on one of its groups. -/
inductive TopicOp where
  | publish (call : PublishCall)
  | flushTopic
  | getTopicSize
  | consumePacket (topic : ℕ)
  | consumePacketWithSize (topic : ℕ) (packetSize : UInt64)
  | peekPacketSize
  | groupHasMoreData
  | readFromGroup (size : UInt64)
  | setGroupPointer (offset : UInt64)
  | cursor (op : CursorOp)

/-- The function of the source, with the group after it. -/
def TopicOp.run (g : Group) : TopicOp → Broker Group
  | .publish call => do
    let _ ← call.run
    return g
  | .flushTopic => do
    let _ ← SuparnaD.flushTopic
    return g
  | .getTopicSize => do
    let _ ← SuparnaD.getTopicSize
    return g
  | .consumePacket topic => Prod.snd <$> SuparnaD.consumePacket g topic
  | .consumePacketWithSize topic packetSize =>
    Prod.snd <$> SuparnaD.consumePacketWithSize g topic packetSize
  | .peekPacketSize => do
    let _ ← SuparnaD.peekPacketSize g
    return g
  | .groupHasMoreData => do
    let _ ← SuparnaD.groupHasMoreData g
    return g
  | .readFromGroup size => Prod.snd <$> SuparnaD.readFromGroup g size
  | .setGroupPointer offset => Prod.snd <$> SuparnaD.setGroupPointer g offset
  | .cursor op => Prod.snd <$> op.run g

/-- A sequence of operations on a topic, each with the number of the group that it works on. -/
def runOps : List (ℕ × TopicOp) → (ℕ → Group) → Broker (ℕ → Group)
  | [], groups => return groups
  | (i, op) :: ops, groups => do
    let g ← op.run (groups i)
    runOps ops (Function.update groups i g)

/-- The file at a path after a sequence of operations, if they come to an end. -/
def fileAfter (path : Bytes) (ops : List (ℕ × TopicOp)) (groups : ℕ → Group) (s : Machine) :
    Option (Option Bytes) :=
  ((runOps ops groups).exec s).map fun r => r.2.fs.read path

/-- Whatever happens to the topic afterwards, the file is the same from the second state as from the
first. -/
def LeavesNoTrace (path : Bytes) (s s' : Machine) : Prop :=
  ∀ faults ops groups, fileAfter path ops groups (s'.withFaults faults) =
    fileAfter path ops groups (s.withFaults faults)

variable {s s' : Machine} {path : Bytes} {l : DeltaLog UInt8}

/-- Without faults a flush writes out all that is pending. -/
theorem Machine.Logs.exec_flushTopic (h : s.Logs path l) (hfaults : s.faults = []) :
    ∃ t, flushTopic.exec s = some (0, t) ∧ t.file path = s.file path ++ l.pending := by
  obtain ⟨r, t, count, hsave, -, hwrote, -, hcases⟩ := h.exec_chunkSaveDelta
  obtain ⟨c, hs, -, -⟩ := h
  rcases hcases with ⟨rfl, hdone, -, -⟩ | ⟨-, hne, -⟩
  · refine ⟨t, ?_, ?_⟩
    · simp only [flushTopic, CallProgram.run_bind, exec_hasChunk, hs, Option.isSome_some,
        Option.bind_some, Bool.not_true, Bool.false_eq_true, ↓reduceIte]
      exact hsave
    · rw [hwrote.file, List.take_of_length_le hdone]
  · exact absurd hfaults hne

/-- Without faults a flush shows what is pending. -/
theorem Machine.Logs.fileAfter_flush (h : s.Logs path l) (groups : ℕ → Group) :
    (fileAfter path [(0, .flushTopic)] groups (s.withFaults [])).map (·.getD []) =
      some (s.file path ++ l.pending) := by
  have hlog : (s.withFaults []).Logs path l := h
  obtain ⟨t, hflush, hfile⟩ := hlog.exec_flushTopic rfl
  simp only [fileAfter, runOps, TopicOp.run, CallProgram.run_bind, hflush, Option.bind_some,
    CallProgram.pure_eq_ret, CallProgram.run_ret, Option.map_some]
  exact congrArg some hfile

/-- Bytes that were appended and not saved are a trace. -/
theorem not_leavesNoTrace_of_appended (h : s.Logs path l) {appended written : Bytes}
    (hne : appended ≠ []) (hwrote : s'.file path = s.file path ++ written)
    (h' : s'.Logs path (l.append appended)) : ¬ LeavesNoTrace path s s' := by
  intro htrace
  have hsame := congrArg (Option.map (·.getD [])) (htrace [] [(0, .flushTopic)] fun _ =>
    ⟨[], 0, 0, 0⟩)
  rw [h.fileAfter_flush, h'.fileAfter_flush, Option.some.injEq] at hsame
  have hlen := congrArg List.length hsame
  have hpos := List.length_pos_iff.mpr hne
  simp only [hwrote, DeltaLog.pending_append, List.length_append] at hlen
  omega

/-- A publishing call that fails leaves no trace exactly when it was rejected before it had appended
anything to the chunk. -/
theorem leavesNoTrace_iff (h : s.OnTopic path) {p : PublishCall} {r : ℤ}
    (hrun : p.run.exec s = some (r, s')) (hr : r ≠ 0) :
    LeavesNoTrace path s s' ↔ p.RejectedAtStart s := by
  rcases PublishCall.exec_run_cases hrun with
    ⟨-, hreject, faults, rfl⟩ | ⟨item, items, faults, -, hchunk, -, hloop, hiff⟩
  · exact iff_of_true (fun _ _ _ => rfl) hreject
  obtain ⟨c, hs⟩ := Option.isSome_iff_exists.mp hchunk
  have hlog : (s.withFaults faults).Logs path (c.log (h c hs).2) := h.logs hs
  rw [hiff]
  constructor
  · intro htrace
    rcases hlog.exec_publishBatchLoop_failed hloop hr with
      ⟨hreject, -⟩ | ⟨appended, written, hne, hwrote, hlog'⟩
    · exact hreject
    · exact absurd htrace (not_leavesNoTrace_of_appended (h.logs hs) hne hwrote.file hlog')
  · intro hreject
    obtain ⟨faults', hreject'⟩ := Machine.exec_publishBatchLoop_of_rejects
      (s := s.withFaults faults) hchunk hreject items
    obtain ⟨-, rfl⟩ := Prod.mk.inj (Option.some.inj (hloop.symm.trans hreject'))
    exact fun _ _ _ => rfl

/-- A batch whose second item is invalid. -/
def sampleBatch : PublishCall := .batch [some (ascii "a"), none]

theorem leavesNoTrace_iff_sample :
    ∃ s', sampleBatch.run.exec (.ofFile (ascii "t") []) = some (-1, s') ∧
      (LeavesNoTrace (ascii "t") (.ofFile (ascii "t") []) s' ↔
        sampleBatch.RejectedAtStart (.ofFile (ascii "t") [])) :=
  ⟨_, rfl, leavesNoTrace_iff (Machine.onTopic_ofFile _ _) rfl (by decide)⟩

/-- After a batch whose second item is invalid the next flush writes the frame of the first item. -/
theorem not_leavesNoTrace_sampleBatch :
    ∃ s', sampleBatch.run.exec (.ofFile (ascii "t") []) = some (-1, s') ∧
      ¬ LeavesNoTrace (ascii "t") (.ofFile (ascii "t") []) s' :=
  ⟨_, rfl, fun h => absurd (h [] [(0, .flushTopic)] fun _ => ⟨[], 0, 0, 0⟩) (by decide)⟩

end SuparnaD
