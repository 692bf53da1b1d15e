import SuparnaD.Foundation.Runs
import SuparnaD.Writer.ChunkLog

/-!
# Delta writes under failing I/O

A run of `chunk_append` and `chunk_save_delta` on a chunk that is the only writer of its file, with
every call's allocation, `fopen` and `fwrite` turning out in any way. The stream is the content of
the file at the load followed by the bytes of the appends that returned `0`.

A save that is cut in the middle leaves the bytes that it wrote in the file and does not take note
of them. The next save writes them again. So the file stays an initial part of the stream as long
as nothing is written after a save was cut in the middle.

## Main definitions

* `WriterOp`, `WriterState`, `WriterState.step` : the runs.
* `WriterState.ExactlyOnce`, `WriterState.RunExactlyOnce` : what the file should hold after a step.
* `WriterState.Careful` : nothing is written after a save was cut in the middle.

## Main results

* `WriterState.Represents.step_append`, `WriterState.Represents.step_save` : a call has the effect
  of an event on a `DeltaLog.Writer`.
* `WriterState.exactlyOnce_of_careful` : careful runs write exactly once.
-/

namespace SuparnaD

open Writer

/-- A call of one of the two functions, with the outcome of its I/O. An argument is an object in
memory, so it has fewer than `2 ^ 63` bytes. -/
inductive WriterOp where
  | append (o : IoOutcome) (data : Bytes) (small : data.length < 2 ^ 63)
  | save (o : IoOutcome)

/-- The call is one of `chunk_save_delta`. -/
def WriterOp.isSave : WriterOp → Bool
  | .append .. => false
  | .save _ => true

/-- A chunk, its file and what should have been written. -/
structure WriterState where
  /-- The file. -/
  file : Option Bytes
  /-- The chunk. -/
  chunk : Chunk
  /-- The content of the file at the load followed by all bytes appended so far. -/
  stream : Bytes
  /-- Some save was cut in the middle. -/
  torn : Bool

namespace WriterState

/-- The number of bytes that the next save is going to write. -/
def pendingSize (st : WriterState) : ℕ := st.chunk.size.toNat - st.chunk.persistedSize.toNat

/-- A save with this outcome writes some of the pending bytes and leaves some out. -/
def Tears (st : WriterState) (o : IoOutcome) : Prop :=
  0 < saveCount o st.pendingSize ∧ saveCount o st.pendingSize < st.pendingSize

instance (st : WriterState) (o : IoOutcome) : Decidable (st.Tears o) :=
  inferInstanceAs (Decidable (_ ∧ _))

/-- One call, with its result. -/
def step (st : WriterState) : WriterOp → Option (ℤ × WriterState)
  | .append o data _ => (chunkAppend o st.chunk data).map fun (r : ℤ × Chunk) =>
    (r.1, { st with
      chunk := r.2
      stream := if r.1 = 0 then st.stream ++ data else st.stream })
  | .save o =>
    let r := chunkSaveDelta o st.file st.chunk
    some (r.1, { st with
      chunk := r.2.1
      file := r.2.2
      torn := st.torn || decide (st.Tears o) })

/-- A chunk that has loaded its file. -/
def loaded (content : Bytes) (c : Chunk) : WriterState := ⟨some content, c, content, false⟩

/-- After the call the file is an initial part of the stream, and it is the whole stream when
`chunk_save_delta` has returned `0`. -/
def ExactlyOnce (e : RunStep WriterState WriterOp ℤ) : Prop :=
  e.after.file.getD [] <+: e.after.stream ∧
    (e.op.isSave → e.result = 0 → e.after.file.getD [] = e.after.stream)

instance (e : RunStep WriterState WriterOp ℤ) : Decidable (ExactlyOnce e) :=
  inferInstanceAs (Decidable (_ ∧ _))

/-- Every call of a run writes exactly once. -/
def RunExactlyOnce (st : WriterState) (ops : List WriterOp) : Prop :=
  ∀ e ∈ trace step st ops, ExactlyOnce e

instance (st : WriterState) (ops : List WriterOp) : Decidable (st.RunExactlyOnce ops) :=
  inferInstanceAs (Decidable (∀ e ∈ _, _))

/-- A call that saves writes nothing if an earlier save was cut in the middle. -/
def Careful (st : WriterState) : WriterOp → Prop
  | .append .. => True
  | .save o => st.torn = true → saveCount o st.pendingSize = 0

instance (st : WriterState) : (op : WriterOp) → Decidable (st.Careful op)
  | .append .. => inferInstanceAs (Decidable True)
  | .save _ => inferInstanceAs (Decidable (_ → _))

/-! ### The abstract writer -/

/-- The state represents an abstract writer. -/
structure Represents (st : WriterState) (w : DeltaLog.Writer UInt8) : Prop where
  file : st.file = some w.file
  log : st.chunk.Represents w.log
  stream : st.stream = w.stream
  torn : st.torn = w.torn

variable {st : WriterState} {w : DeltaLog.Writer UInt8}

theorem Represents.pendingSize_eq (h : st.Represents w) :
    st.pendingSize = w.log.pending.length := by
  rw [pendingSize, h.log.size_eq, h.log.persistedSize_eq, DeltaLog.length_pending]

theorem represents_loaded {content : Bytes} {c : Chunk} (h : c.Represents (.load content)) :
    (loaded content c).Represents (.loaded content) := ⟨rfl, h, rfl, rfl⟩

/-- A careful save is a careful event. -/
theorem Represents.careful_save (h : st.Represents w) {o : IoOutcome} (hc : st.Careful (.save o)) :
    w.Careful (.save (saveCount o w.log.pending.length)) := by
  intro ht
  rw [← h.pendingSize_eq, hc (h.torn.trans ht), List.take_zero]

/-- An append has the effect of the event, or none. -/
theorem Represents.step_append (h : st.Represents w) {o : IoOutcome} {data : Bytes}
    {small : data.length < 2 ^ 63} {r : ℤ} {st' : WriterState}
    (hstep : st.step (.append o data small) = some (r, st')) :
    st'.Represents (w.step (.append data)) ∨ st'.Represents w := by
  simp only [step, Option.map_eq_some_iff] at hstep
  obtain ⟨rc, hrun, hst⟩ := hstep
  obtain ⟨-, rfl⟩ := Prod.mk.inj hst
  obtain ⟨-, ⟨hzero, -, hrep⟩ | ⟨hneg, hsame⟩⟩ := chunkAppend_cases h.log o small hrun
  · refine .inl ⟨h.file, hrep, ?_, h.torn⟩
    simp only [hzero, ↓reduceIte, h.stream, DeltaLog.Writer.step]
  · refine .inr ⟨h.file, hsame ▸ h.log, ?_, h.torn⟩
    simp only [hneg, Int.reduceNeg, reduceCtorEq, ↓reduceIte, h.stream]

/-- A save has the effect of the event, and completes when it returns `0`. -/
theorem Represents.step_save (h : st.Represents w) {o : IoOutcome} {r : ℤ} {st' : WriterState}
    (hstep : st.step (.save o) = some (r, st')) :
    st'.Represents (w.step (.save (saveCount o w.log.pending.length))) ∧
      (r = 0 → w.Completes (saveCount o w.log.pending.length)) := by
  simp only [step, Option.some.injEq, Prod.mk.injEq] at hstep
  obtain ⟨rfl, rfl⟩ := hstep
  obtain ⟨-, hfile, hcases⟩ := chunkSaveDelta_cases h.log o st.file
  have hfile' : (chunkSaveDelta o st.file st.chunk).2.2 =
      some (w.file ++ w.log.pending.take (saveCount o w.log.pending.length)) := by
    rw [hfile, h.file, savedFile_some]
  have htears : decide (st.Tears o) = decide (w.Tears (saveCount o w.log.pending.length)) :=
    decide_eq_decide.mpr (by rw [Tears, DeltaLog.Writer.Tears, h.pendingSize_eq])
  rcases hcases with ⟨hzero, hdone, hrep⟩ | ⟨hneg, hshort, hsame⟩
  · have hcompletes : w.Completes (saveCount o w.log.pending.length) := hdone
    refine ⟨⟨hfile', ?_, h.stream, ?_⟩, fun _ => hdone⟩
    · simpa only [DeltaLog.Writer.step, hcompletes, ↓reduceIte] using hrep
    · simp only [DeltaLog.Writer.step, h.torn, htears]
  · have hopen : ¬ w.Completes (saveCount o w.log.pending.length) := Nat.not_le.mpr hshort
    refine ⟨⟨hfile', ?_, h.stream, ?_⟩, fun hr => ?_⟩
    · simpa only [DeltaLog.Writer.step, hopen, ↓reduceIte, hsame] using h.log
    · simp only [DeltaLog.Writer.step, h.torn, htears]
    · rw [hneg] at hr
      cases hr

/-! ### Careful runs -/

/-- The state represents a writer whose file is consistent. -/
def Settled (st : WriterState) : Prop := ∃ w, st.Represents w ∧ w.Consistent

theorem Represents.isPrefix (h : st.Represents w) (hw : w.Consistent) :
    st.file.getD [] <+: st.stream := by
  rw [h.file, h.stream]
  exact hw.isPrefix

/-- A careful call keeps the file consistent and writes exactly once. -/
theorem Settled.step {op : WriterOp} {r : ℤ} {st' : WriterState} (hst : st.Settled)
    (hc : st.Careful op) (hstep : st.step op = some (r, st')) :
    st'.Settled ∧ ExactlyOnce ⟨st, op, r, st'⟩ := by
  obtain ⟨w, h, hw⟩ := hst
  cases op with
  | append o data small =>
    have hw' : (w.step (.append data)).Consistent := hw.step trivial
    rcases h.step_append hstep with h' | h'
    · exact ⟨⟨_, h', hw'⟩, h'.isPrefix hw', fun hop => nomatch hop⟩
    · exact ⟨⟨_, h', hw⟩, h'.isPrefix hw, fun hop => nomatch hop⟩
  | save o =>
    have hcareful := h.careful_save hc
    have hw' := hw.step hcareful
    obtain ⟨h', hdone⟩ := h.step_save hstep
    refine ⟨⟨_, h', hw'⟩, h'.isPrefix hw', fun _ hr => ?_⟩
    simp only [h'.file, h'.stream, Option.getD_some]
    exact hw.file_eq_stream hcareful (hdone hr)

/-- In a run from a loaded chunk in which nothing is written after a save was cut in the middle,
the file is an initial part of the stream after every call, and the whole stream after every save
that returns `0`. -/
theorem exactlyOnce_of_careful {content : Bytes} {o : IoOutcome} {c c' : Chunk}
    (hc : c.WellFormed) (hopen : o.opens = true)
    (hload : chunkLoad o (some content) c = (0, c')) (ops : List WriterOp)
    (hcareful : ∀ e ∈ trace step (loaded content c') ops, e.before.Careful e.op) :
    (loaded content c').RunExactlyOnce ops := by
  have hrep : c'.Represents (.load content) := by
    obtain ⟨-, ⟨-, hrep⟩ | ⟨hneg, -⟩⟩ := chunkLoad_cases hc o (some content)
    · rw [hload] at hrep
      simpa only [seenFile, hopen, ↓reduceIte, Option.getD_some] using hrep
    · rw [hload] at hneg
      cases hneg
  exact trace_rule Settled _
    (fun st op r st' (hst : Settled st) hmeets hstep => hst.step hmeets hstep)
    ⟨_, represents_loaded hrep, DeltaLog.Writer.consistent_loaded content⟩ hcareful

/-- The chunk of an empty file after the load. -/
def sampleChunk : Chunk := (chunkLoad .ok (some []) ⟨ascii "t", [], 0, 0, 0⟩).2

/-- A save is cut in the middle, and the next one cannot open the file. -/
theorem exactlyOnce_of_careful_sample :
    (loaded [] sampleChunk).RunExactlyOnce
      [.append .ok (ascii "ab") (by decide), .save { missing := 1 },
        .append .ok (ascii "c") (by decide), .save { opens := false }] :=
  exactlyOnce_of_careful (o := .ok) (c := ⟨ascii "t", [], 0, 0, 0⟩)
    (chunkInit_represents (o := .ok) rfl).2.wellFormed rfl (by decide) _ (by decide)

/-- A save is cut in the middle, and the next one writes everything again: the file is `aab`. -/
theorem not_exactlyOnce_after_torn_save :
    ¬ (loaded [] sampleChunk).RunExactlyOnce
      [.append .ok (ascii "ab") (by decide), .save { missing := 1 }, .save .ok] := by
  decide

end WriterState

end SuparnaD
