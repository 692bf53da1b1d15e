import Mathlib.Data.List.Infix
import SuparnaD.Messaging.GroupOps
import SuparnaD.Messaging.GrowingLog

/-!
# Reading a log that grows as a stream

`read_from_group` copies at most as many bytes as the caller's buffer holds, from the content that
the file has at its load, and moves past them. What the load shows is a prefix of what the file
becomes, so the bytes of successive calls are one piece of the final file.

## Main definitions

* `LogReader.readStep`, `LogReader.readBytes` : runs of `read_from_group` on a growing file.
* `LogReader.ReadsOn`, `LogReader.Foresees`.

## Main results

* `Machine.OnTopic.growing_readFromGroup` : what one call does.
* `LogReader.reads_stream`.
-/

namespace SuparnaD

open Broker CallProgram

variable {path : Bytes} {g : Group}

/-! ### One call -/

/-- While others append to the file, a call reads from the content that the file has at its load. -/
theorem Machine.OnTopic.growing_readFromGroup {x : Machine × List Bytes} (h : x.1.OnTopic path)
    (hchunk : x.1.chunk.isSome = true) (hfaults : x.1.faults = [])
    (hsmall : (x.1.file path ++ x.2.flatten).length < 2 ^ 63) (g : Group) (size : UInt64) :
    ∃ v y, (readFromGroup g size).execGrowing path x = some (readOn g size v, y) ∧
      GrowsTo path x y ∧ y.1.OnTopic path ∧ x.1.file path <+: v ∧ v <+: y.1.file path := by
  rw [readFromGroup_eq]
  obtain ⟨⟨s₁, es₁⟩, hact₁, h₁, hload⟩ := h.growing_whenLoaded (none, g) (readBody g size)
  rcases hload with ⟨-, hnot⟩ | ⟨v, hshow, hv, hold, hrun⟩
  · refine absurd ⟨hchunk, hfaults, ?_⟩ hnot
    have htotal := congrArg List.length hact₁.total
    rw [List.length_append] at htotal
    omega
  obtain ⟨⟨s₂, es₂⟩, hread, hact₂, hchunk₂⟩ := execGrowing_of_quiet path (quiet_readBody g size)
    (hshow.exec_readBody g size) (.refl s₁) es₁
  exact ⟨v, _, hrun.trans hread, hact₁.trans hact₂, (hshow.of_chunk hchunk₂).onTopic, hold hfaults,
    hv.trans hact₂.grows⟩

/-- The bytes that a read returns from the given content. -/
def bytesAt (g : Group) (size : UInt64) (v : Bytes) : Bytes :=
  (v.drop g.readPointer.toNat).take size.toNat

/-- There is nothing to read exactly at the end of the content and behind it. -/
theorem bytesAt_eq_nil_iff {size : UInt64} (hsize : 0 < size) {v : Bytes} :
    bytesAt g size v = [] ↔ v.length ≤ g.readPointer.toNat := by
  rw [UInt64.lt_iff_toNat_lt, UInt64.toNat_zero] at hsize
  rw [bytesAt, List.take_eq_nil_iff, List.drop_eq_nil_iff]
  omega

/-- A read moves past the bytes that it returns. -/
theorem readOn_eq (size : UInt64) {v : Bytes} (hv : v.length < 2 ^ 63) :
    (readOn g size v).1 = some (bytesAt g size v) ∧ (readOn g size v).2.readPointer.toNat =
      g.readPointer.toNat + (bytesAt g size v).length := by
  refine ⟨rfl, ?_⟩
  have hlen : (bytesAt g size v).length ≤ v.length - g.readPointer.toNat := by
    rw [bytesAt, List.length_take, List.length_drop]
    omega
  change (if 0 < (bytesAt g size v).length then _ else g).readPointer.toNat = _
  split_ifs with hread
  · change (g.readPointer + (bytesAt g size v).length.toUInt64).toNat = _
    exact toNat_add_toUInt64 (by omega)
  · omega

namespace LogReader

variable {l l' : LogReader} {size : UInt64} {pieces : List Bytes}

/-- One call of `read_from_group` while others append the scheduled pieces to the file at the path.
Pieces that are left over are appended after the call. -/
def readStep (path : Bytes) (l : LogReader) (op : UInt64 × List Bytes) :
    Option (Option Bytes × LogReader) :=
  ((readFromGroup l.group op.1).execGrowing path (l.machine, op.2)).map fun r =>
    (r.1.1, ⟨r.2.1.grown path r.2.2.flatten, r.1.2⟩)

/-- All bytes that the calls of a run have returned. -/
def readBytes (steps : List (RunStep LogReader (UInt64 × List Bytes) (Option Bytes))) : Bytes :=
  steps.flatMap fun e => e.result.getD []

/-- A call returns bytes from the read pointer on, and none exactly when the read pointer is at or
past the end of what the file holds at the load of the call. -/
def ReadsOn (path : Bytes) (e : RunStep LogReader (UInt64 × List Bytes) (Option Bytes)) : Prop :=
  ∃ v bytes, e.before.machine.file path <+: v ∧ v <+: e.after.machine.file path ∧
    e.result = some bytes ∧ bytes.length ≤ e.op.1.toNat ∧
    (bytes = [] ↔ v.length ≤ e.before.group.readPointer.toNat)

/-- `group_has_more_data` returns `1` exactly when a read after it returns bytes. -/
def Foresees (l : LogReader) : Prop :=
  ∀ size, 0 < size → ∃ more s₁ bytes g' s₂,
    (groupHasMoreData l.group).exec l.machine = some (more, s₁) ∧
    (readFromGroup l.group size).exec s₁ = some ((some bytes, g'), s₂) ∧
    (more = true ↔ bytes ≠ [])

/-- Storage and allocation succeed on the topic of the group, and the file stays below `2 ^ 63`
bytes. -/
structure Streams (path : Bytes) (l : LogReader) (schedule : List (List Bytes)) : Prop where
  onTopic : l.machine.OnTopic path
  chunk : l.machine.chunk.isSome = true
  faults : l.machine.faults = []
  small : (l.finalFile path schedule).length < 2 ^ 63

theorem length_file_le_finalFile (path : Bytes) (l : LogReader) (schedule : List (List Bytes)) :
    (l.machine.file path).length ≤ (l.finalFile path schedule).length := by
  rw [finalFile, List.length_append]
  exact Nat.le_add_right _ _

theorem foresees_of_streams {schedule : List (List Bytes)} (h : Streams path l schedule) :
    l.Foresees := by
  intro size hsize
  have hsteady : l.machine.Steady path := ⟨h.onTopic, h.chunk, h.faults,
    Nat.lt_of_le_of_lt (length_file_le_finalFile path l schedule) h.small⟩
  obtain ⟨s₁, hkept, ht, hmore⟩ := h.onTopic.computes_groupHasMoreData l.group
  obtain ⟨hsteady₁, hfile⟩ := hsteady.of_kept hkept ht
  obtain ⟨s₂, -, -, hread⟩ := ht.computes_readFromGroup l.group size
  rw [hsteady.view_eq] at hmore
  rw [hsteady₁.view_eq, hfile] at hread
  refine ⟨_, s₁, _, _, s₂, hmore, hread, ?_⟩
  rw [ne_eq, ← bytesAt, bytesAt_eq_nil_iff hsize]
  exact decide_eq_true_iff.trans Nat.not_le.symm

/-- What one call does. -/
theorem run_readStep {schedule : List (List Bytes)} (h : Streams path l (pieces :: schedule))
    (size : UInt64) :
    ∃ v l', l.readStep path (size, pieces) = some (some (bytesAt l.group size v), l') ∧
      Streams path l' schedule ∧
      l'.machine.file path = l.machine.file path ++ pieces.flatten ∧
      l.machine.file path <+: v ∧ v <+: l'.machine.file path ∧
      l'.group.readPointer.toNat =
        l.group.readPointer.toNat + (bytesAt l.group size v).length := by
  have hpieces : (l.machine.file path ++ pieces.flatten).length < 2 ^ 63 := by
    have hsmall := h.small
    rw [finalFile, List.flatten_cons, List.flatten_append, ← List.append_assoc,
      List.length_append] at hsmall
    omega
  obtain ⟨v, ⟨s', es⟩, hrun, hact, ht, hold, hv⟩ := Machine.OnTopic.growing_readFromGroup
    (x := (l.machine, pieces)) h.onTopic h.chunk h.faults hpieces l.group size
  have hfile : (s'.grown path es.flatten).file path =
      l.machine.file path ++ pieces.flatten := by
    rw [Machine.file_grown]
    exact hact.total
  have hfinal (group : Group) : finalFile path ⟨s'.grown path es.flatten, group⟩ schedule =
      l.finalFile path (pieces :: schedule) := finalFile_cons hfile schedule
  have hv' : v <+: (s'.grown path es.flatten).file path :=
    hv.trans ⟨es.flatten, (s'.file_grown path es.flatten).symm⟩
  have hstreams (group : Group) : Streams path ⟨s'.grown path es.flatten, group⟩ schedule :=
    ⟨ht, hact.chunk.trans h.chunk, hact.faults h.faults, hfinal group ▸ h.small⟩
  have hlen : v.length < 2 ^ 63 := Nat.lt_of_le_of_lt
    (Nat.le_trans hv'.length_le
      (length_file_le_finalFile path ⟨s'.grown path es.flatten, l.group⟩ schedule))
    (hstreams l.group).small
  refine ⟨v, ⟨s'.grown path es.flatten, (readOn l.group size v).2⟩, ?_, hstreams _, hfile, hold,
    hv', (readOn_eq size hlen).2⟩
  exact Option.map_eq_some_iff.mpr ⟨_, hrun, rfl⟩

/-- A piece at the front of a list, and one that follows it. -/
theorem append_isPrefix {a b c : Bytes} (ha : a <+: c) (hb : b <+: c.drop a.length) :
    a ++ b <+: c := by
  obtain ⟨rest, rfl⟩ := ha
  rw [List.drop_left] at hb
  exact (List.prefix_append_right_inj a).mpr hb

/-- A run as a stream: all calls return, and together they return the bytes of the file from the
read pointer on, up to the read pointer at the end. -/
theorem readBytes_trace {schedule : List (UInt64 × List Bytes)}
    (h : Streams path l (schedule.map Prod.snd)) :
    (trace (readStep path) l schedule).length = schedule.length ∧
      Streams path (runEnd (readStep path) l schedule) [] ∧
      (runEnd (readStep path) l schedule).machine.file path =
        l.finalFile path (schedule.map Prod.snd) ∧
      (runEnd (readStep path) l schedule).group.readPointer.toNat =
        l.group.readPointer.toNat + (readBytes (trace (readStep path) l schedule)).length ∧
      readBytes (trace (readStep path) l schedule) <+:
        (l.finalFile path (schedule.map Prod.snd)).drop l.group.readPointer.toNat := by
  induction schedule generalizing l with
  | nil =>
    have hfinal : l.finalFile path [] = l.machine.file path := List.append_nil _
    exact ⟨rfl, h, hfinal.symm, rfl, List.nil_prefix⟩
  | cons op schedule ih =>
    obtain ⟨size, pieces⟩ := op
    obtain ⟨v, l', hstep, h', hfile, -, hv, hpointer⟩ := run_readStep h size
    obtain ⟨hlen, hend, hendFile, hendPointer, hbytes⟩ := ih h'
    have hfinal := finalFile_cons hfile (schedule.map Prod.snd)
    rw [trace_cons_of_some hstep, runEnd_cons_of_some hstep]
    have hcons (steps) :
        readBytes (⟨l, (size, pieces), some (bytesAt l.group size v), l'⟩ :: steps) =
          bytesAt l.group size v ++ readBytes steps := List.flatMap_cons
    rw [hcons, List.map_cons, ← hfinal]
    refine ⟨congrArg (· + 1) hlen, hend, hendFile, ?_, ?_⟩
    · rw [hendPointer, hpointer, List.length_append, Nat.add_assoc]
    · have hfirst : bytesAt l.group size v <+:
          (l'.finalFile path (schedule.map Prod.snd)).drop l.group.readPointer.toNat :=
        (List.take_prefix _ _).trans (List.IsPrefix.drop (hv.trans (List.prefix_append _ _)) _)
      rw [hpointer, ← List.drop_drop] at hbytes
      exact append_isPrefix hfirst hbytes

theorem readsOn_of_mem_trace {schedule : List (UInt64 × List Bytes)}
    (h : Streams path l (schedule.map Prod.snd)) (hsizes : ∀ op ∈ schedule, 0 < op.1) :
    ∀ e ∈ trace (readStep path) l schedule, ReadsOn path e ∧ e.before.Foresees := by
  induction schedule generalizing l with
  | nil => simp
  | cons op schedule ih =>
    obtain ⟨size, pieces⟩ := op
    obtain ⟨hsize, hrest⟩ := List.forall_mem_cons.mp hsizes
    obtain ⟨v, l', hstep, h', -, hold, hv, -⟩ := run_readStep h size
    rw [trace_cons_of_some hstep, List.forall_mem_cons]
    refine ⟨⟨⟨v, _, hold, hv, rfl, ?_, bytesAt_eq_nil_iff hsize⟩, foresees_of_streams h⟩,
      ih h' hrest⟩
    exact List.length_take_le _ _

/-- Whatever is appended to the file between the calls and inside them, successive reads with
buffers of any positive sizes all return, and return each byte of the file from the read pointer on
once and in order; a read returns nothing exactly at the end of the file, as
`group_has_more_data` foresees. -/
theorem reads_stream (h : l.machine.OnTopic path) (hchunk : l.machine.chunk.isSome = true)
    (hfaults : l.machine.faults = []) {schedule : List (UInt64 × List Bytes)}
    (hsmall : (l.finalFile path (schedule.map Prod.snd)).length < 2 ^ 63)
    (hsizes : ∀ op ∈ schedule, 0 < op.1) :
    (trace (readStep path) l schedule).length = schedule.length ∧
      (runEnd (readStep path) l schedule).group.readPointer.toNat =
        l.group.readPointer.toNat + (readBytes (trace (readStep path) l schedule)).length ∧
      readBytes (trace (readStep path) l schedule) =
        (((runEnd (readStep path) l schedule).machine.file path).drop
            l.group.readPointer.toNat).take
          ((runEnd (readStep path) l schedule).group.readPointer.toNat -
            l.group.readPointer.toNat) ∧
      (∀ e ∈ trace (readStep path) l schedule, ReadsOn path e ∧ e.before.Foresees) ∧
      (runEnd (readStep path) l schedule).Foresees := by
  have hstreams : Streams path l (schedule.map Prod.snd) := ⟨h, hchunk, hfaults, hsmall⟩
  obtain ⟨hlen, hend, hfile, hpointer, hbytes⟩ := readBytes_trace hstreams
  refine ⟨hlen, hpointer, ?_, readsOn_of_mem_trace hstreams hsizes, foresees_of_streams hend⟩
  rw [hpointer, hfile, Nat.add_sub_cancel_left]
  exact List.prefix_iff_eq_take.mp hbytes

/-- Reads of one, two and many bytes; the file grows between the second and the third. -/
def sampleReads : List (UInt64 × List Bytes) := [(1, []), (2, [[], [], [], [8, 9]]), (100, [])]

theorem reads_stream_sample :
    (trace (readStep (ascii "t")) sampleReader sampleReads).length = 3 ∧
      (runEnd (readStep (ascii "t")) sampleReader sampleReads).group.readPointer.toNat =
        0 + (readBytes (trace (readStep (ascii "t")) sampleReader sampleReads)).length ∧
      readBytes (trace (readStep (ascii "t")) sampleReader sampleReads) =
        (((runEnd (readStep (ascii "t")) sampleReader sampleReads).machine.file
            (ascii "t")).drop 0).take
          ((runEnd (readStep (ascii "t")) sampleReader sampleReads).group.readPointer.toNat - 0) ∧
      (∀ e ∈ trace (readStep (ascii "t")) sampleReader sampleReads,
        ReadsOn (ascii "t") e ∧ e.before.Foresees) ∧
      (runEnd (readStep (ascii "t")) sampleReader sampleReads).Foresees :=
  reads_stream (Machine.onTopic_ofFile _ _) rfl rfl (by decide) (by decide)

end LogReader

end SuparnaD
