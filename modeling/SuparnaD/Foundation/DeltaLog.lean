import Mathlib.Data.List.Basic

/-!
# Logs that save their tail

A `DeltaLog` is a sequence held in memory, of which an initial part counts as saved to a file that
only grows. Appending extends the sequence, loading replaces it by the content of the file, and
saving appends the rest of the sequence, the *pending* part, to the file. A save may be cut short:
it then transfers an initial part of the pending items and the log does not take note of it.

The last section follows one log that is the only writer of its file. The file stays an initial
part of the intended stream as long as nothing is transferred after a save was cut in the middle.

## Main definitions

* `DeltaLog`, with `pending`, `load`, `append` and `commit`.
* `DeltaLog.Writer`, `DeltaLog.Event`, `DeltaLog.Writer.step` : a log and its file.
* `DeltaLog.Writer.Consistent` : the invariant of a log that is the only writer of its file.

## Main results

* `DeltaLog.Writer.Consistent.step` : each event keeps the invariant.
* `DeltaLog.Writer.Consistent.isPrefix`, `DeltaLog.Writer.Consistent.file_eq_stream` : what the
  invariant says about the file.
-/

/-- A sequence in memory of which the first `saved` items count as saved. -/
structure DeltaLog (β : Type*) where
  /-- The items in memory. -/
  shown : List β
  /-- The number of items that count as saved. -/
  saved : ℕ
  /-- Only items in memory count as saved. -/
  saved_le : saved ≤ shown.length

namespace DeltaLog

variable {β : Type*}

/-- The items that a save would transfer. -/
def pending (l : DeltaLog β) : List β := l.shown.drop l.saved

/-- The log after reading a file. -/
def load (content : List β) : DeltaLog β := ⟨content, content.length, Nat.le_refl _⟩

/-- The log after appending items in memory. -/
def append (l : DeltaLog β) (items : List β) : DeltaLog β :=
  ⟨l.shown ++ items, l.saved, by
    rw [List.length_append]; exact Nat.le_add_right_of_le l.saved_le⟩

/-- The log after a complete save. -/
def commit (l : DeltaLog β) : DeltaLog β := ⟨l.shown, l.shown.length, Nat.le_refl _⟩

@[simp] theorem shown_load (content : List β) : (load content).shown = content := rfl

@[simp] theorem shown_append (l : DeltaLog β) (items : List β) :
    (l.append items).shown = l.shown ++ items := rfl

@[simp] theorem pending_load (content : List β) : (load content).pending = [] := by
  simp only [pending, load, List.drop_length]

@[simp] theorem pending_append (l : DeltaLog β) (items : List β) :
    (l.append items).pending = l.pending ++ items := by
  simp only [pending, append, List.drop_append_of_le_length l.saved_le]

@[simp] theorem pending_commit (l : DeltaLog β) : l.commit.pending = [] := by
  simp only [pending, commit, List.drop_length]

theorem length_pending (l : DeltaLog β) : l.pending.length = l.shown.length - l.saved :=
  List.length_drop

theorem pending_eq_nil_iff (l : DeltaLog β) : l.pending = [] ↔ l.shown.length ≤ l.saved := by
  rw [pending, List.drop_eq_nil_iff]

@[ext] theorem ext {l l' : DeltaLog β} (hshown : l.shown = l'.shown) (hsaved : l.saved = l'.saved) :
    l = l' := by
  cases l
  cases l'
  simp only at hshown hsaved
  subst hshown hsaved
  rfl

@[simp] theorem append_nil (l : DeltaLog β) : l.append [] = l := ext (List.append_nil _) rfl

@[simp] theorem append_append (l : DeltaLog β) (a b : List β) :
    (l.append a).append b = l.append (a ++ b) := ext (List.append_assoc ..) rfl

@[simp] theorem commit_append_load (a b : List β) : ((load a).append b).commit = load (a ++ b) :=
  ext rfl rfl

/-! ### A log that is the only writer of its file -/

/-- A log, its file, and the stream that the file should come to hold. -/
structure Writer (β : Type*) where
  /-- The content of the file. -/
  file : List β
  /-- The log. -/
  log : DeltaLog β
  /-- The initial content of the file followed by everything appended since. -/
  stream : List β
  /-- Some save was cut in the middle. -/
  torn : Bool

/-- The events in the life of a writer. -/
inductive Event (β : Type*) where
  /-- Items are appended in memory. -/
  | append (items : List β)
  /-- A save transfers at most `count` items. -/
  | save (count : ℕ)

namespace Writer

/-- A save of at most `count` items completes. -/
def Completes (w : Writer β) (count : ℕ) : Prop := w.log.pending.length ≤ count

instance (w : Writer β) (count : ℕ) : Decidable (w.Completes count) :=
  inferInstanceAs (Decidable (_ ≤ _))

/-- A save of at most `count` items is cut in the middle. -/
def Tears (w : Writer β) (count : ℕ) : Prop := 0 < count ∧ count < w.log.pending.length

instance (w : Writer β) (count : ℕ) : Decidable (w.Tears count) :=
  inferInstanceAs (Decidable (_ ∧ _))

/-- The effect of an event. -/
def step (w : Writer β) : Event β → Writer β
  | .append items => { w with log := w.log.append items, stream := w.stream ++ items }
  | .save count => { w with
      file := w.file ++ w.log.pending.take count
      log := if w.Completes count then w.log.commit else w.log
      torn := w.torn || decide (w.Tears count) }

/-- The event transfers nothing if an earlier save was cut in the middle. -/
def Careful (w : Writer β) : Event β → Prop
  | .append _ => True
  | .save count => w.torn = true → w.log.pending.take count = []

instance (w : Writer β) [DecidableEq β] : (e : Event β) → Decidable (w.Careful e)
  | .append _ => inferInstanceAs (Decidable True)
  | .save _ => inferInstanceAs (Decidable (_ → _))

/-- The file is a settled part of the stream followed by the part of the pending items that a save
cut in the middle has left there. -/
def Consistent (w : Writer β) : Prop :=
  ∃ settled count, w.file = settled ++ w.log.pending.take count ∧
    settled ++ w.log.pending = w.stream ∧ count ≤ w.log.pending.length ∧
    (w.torn = false → count = 0) ∧ (w.torn = true → count < w.log.pending.length)

/-- A writer that has just loaded its file. -/
def loaded (content : List β) : Writer β := ⟨content, load content, content, false⟩

theorem consistent_loaded (content : List β) : (loaded content).Consistent :=
  ⟨content, 0, by simp [loaded], by simp [loaded], by simp, fun _ => rfl, by simp [loaded]⟩

theorem Consistent.append {w : Writer β} (hw : w.Consistent) (items : List β) :
    (w.step (.append items)).Consistent := by
  obtain ⟨settled, done, hfile, hstream, hle, hwhole, htorn⟩ := hw
  refine ⟨settled, done, ?_, ?_, ?_, hwhole, ?_⟩
  · simp only [Writer.step, pending_append, List.take_append_of_le_length hle, hfile]
  · simp only [Writer.step, pending_append, ← List.append_assoc, hstream]
  · simp only [Writer.step, pending_append, List.length_append]
    omega
  · intro ht
    have := htorn ht
    simp only [Writer.step, pending_append, List.length_append]
    omega

/-- After a cut save nothing is transferred, so neither the file nor the log changes. -/
theorem Consistent.step_of_torn {w : Writer β} (hw : w.Consistent) (ht : w.torn = true) {count : ℕ}
    (he : w.Careful (.save count)) : w.step (.save count) = w := by
  obtain ⟨settled, done, -, -, -, -, htorn⟩ := hw
  have hpos := htorn ht
  have hnil := he ht
  have hopen : ¬ w.Completes count := by
    rcases List.take_eq_nil_iff.mp hnil with h | h
    · simp only [Completes]
      omega
    · rw [h] at hpos
      exact absurd hpos (Nat.not_lt_zero _)
  rw [Writer.step, hnil, List.append_nil, if_neg hopen, ht, Bool.true_or, ← ht]

theorem Consistent.save {w : Writer β} (hw : w.Consistent) (ht : w.torn = false) (count : ℕ) :
    (w.step (.save count)).Consistent := by
  obtain ⟨settled, done, hfile, hstream, hle, hwhole, htorn⟩ := hw
  obtain rfl := hwhole ht
  simp only [List.take_zero, List.append_nil] at hfile
  by_cases hdone : w.Completes count
  · refine ⟨w.stream, 0, ?_, ?_, Nat.zero_le _, fun _ => rfl, ?_⟩
    · simp only [Writer.step, List.take_zero, List.append_nil, hfile,
        List.take_of_length_le hdone, hstream]
    · simp only [Writer.step, hdone, ↓reduceIte, pending_commit, List.append_nil]
    · have hno : ¬ w.Tears count := by
        simp only [Completes, Tears] at hdone ⊢
        omega
      simp [Writer.step, ht, hno]
  · have hshort : count < w.log.pending.length := Nat.lt_of_not_le hdone
    refine ⟨settled, count, ?_, ?_, ?_, fun hsafe => ?_, fun _ => ?_⟩
    · simp only [Writer.step, hdone, ↓reduceIte, hfile]
    · simp only [Writer.step, hdone, ↓reduceIte, hstream]
    · simp only [Writer.step, hdone, ↓reduceIte, Nat.le_of_lt hshort]
    · have hno : ¬ w.Tears count := by
        simpa only [Writer.step, ht, Bool.false_or, decide_eq_false_iff_not] using hsafe
      simp only [Tears] at hno
      omega
    · simpa only [Writer.step, hdone, ↓reduceIte] using hshort

/-- Events that transfer nothing after a cut save keep the invariant. -/
theorem Consistent.step {w : Writer β} (hw : w.Consistent) {e : Event β} (he : w.Careful e) :
    (w.step e).Consistent := by
  cases e with
  | append items => exact hw.append items
  | save count =>
    cases ht : w.torn with
    | true => exact (hw.step_of_torn ht he).symm ▸ hw
    | false => exact hw.save ht count

/-- Under the invariant the file is an initial part of the stream. -/
theorem Consistent.isPrefix {w : Writer β} (hw : w.Consistent) : w.file <+: w.stream := by
  obtain ⟨settled, done, hfile, hstream, -⟩ := hw
  rw [hfile, ← hstream]
  exact (List.prefix_append_right_inj settled).mpr (List.take_prefix _ _)

/-- A save that completes leaves the whole stream in the file. -/
theorem Consistent.file_eq_stream {w : Writer β} (hw : w.Consistent) {count : ℕ}
    (he : w.Careful (.save count)) (hdone : w.Completes count) :
    (w.step (.save count)).file = w.stream := by
  obtain ⟨settled, done, hfile, hstream, -, hwhole, htorn⟩ := hw
  cases ht : w.torn with
  | true =>
    have hpos := htorn ht
    have hnil := he ht
    rw [List.take_of_length_le hdone] at hnil
    rw [hnil] at hpos
    exact absurd hpos (Nat.not_lt_zero _)
  | false =>
    simp only [Writer.step, List.take_of_length_le hdone, hfile, hwhole ht, List.take_zero,
      List.append_nil, hstream]

end Writer

end DeltaLog
