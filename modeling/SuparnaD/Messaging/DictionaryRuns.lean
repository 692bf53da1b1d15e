import SuparnaD.Foundation.Runs
import SuparnaD.Messaging.TrainDictionary

/-!
# Runs of the functions of dictionaries

Any number of calls, one after the other, by callers that free the blocks they have been handed in
any order. Nothing is live at the end but what was live at the start and the blocks that have been
handed out and not been freed. A call never goes wrong unless a caller frees what is not live.

A file that dictionaries are saved to is a register: what is fetched is the dictionary that was
saved last, or a part of it when storage has failed meanwhile.

## Main definitions

* `EncoderOp`, `EncoderState.step` : the calls.
* `givenIn`, `releasedIn` : the objects that a call hands out or frees.
* `savedTo`, `stored` : the dictionary that was saved last.

## Main results

* `EncoderOp.spec` : what a call does.
* `EncoderState.held_runEnd`, `EncoderState.fetches_stored`.
-/

namespace SuparnaD

open EncoderM CallProgram

/-! ### Calls -/

/-- A call of one of the functions, or of `free` by a caller. -/
inductive EncoderOp where
  | encode (jsonString dictionary : Option Bytes) (compressionLevel : ℤ)
  | save (dictionary filepath : Option Bytes)
  | fetch (filepath : Option Bytes)
  | train (samples : Option Samples) (dictionarySize : UInt64)
  | release (pointer : ℕ)

/-- The calls of an operation. -/
def EncoderOp.run (zstd : ZstdContexts) : EncoderOp → EncoderM Handed
  | .encode jsonString dictionary compressionLevel =>
    encodeStringWithDict zstd.toZstd jsonString dictionary compressionLevel
  | .save dictionary filepath => do return ⟨← saveDictionary dictionary filepath, none, 0⟩
  | .fetch filepath => fetchDictionary filepath
  | .train samples dictionarySize => trainDictionary samples dictionarySize
  | .release pointer => do
    free pointer
    return ⟨0, none, 0⟩

/-- A caller frees a block. -/
def EncoderOp.releases : EncoderOp → Option ℕ
  | .release pointer => some pointer
  | _ => none

/-- One call. -/
def EncoderState.step (zstd : ZstdContexts) (memory : FreshMemory) (s : EncoderState)
    (op : EncoderOp) : Option (Handed × EncoderState) :=
  (op.run zstd).run (performEncoder zstd memory) s

variable {zstd : ZstdContexts} {memory : FreshMemory} {fs : FileSystem} {fine : Prop}

/-- The dictionary that a call puts into the file at a path, all of it or a part. -/
def savedTo (path : Bytes) (op : EncoderOp) (r : Handed) : Option Bytes :=
  match op with
  | .save (some dictionary) (some filepath) =>
    if resolve filepath = resolve path ∧ (r.result = 0 ∨ r.result = -3) then some dictionary
    else none
  | _ => none

/-- How a call ends: it holds the block that it hands out and nothing else. The file at a path is as
before, or holds a part of the dictionary that the call has saved there. -/
def Ends (fs : FileSystem) (fine : Prop) (op : EncoderOp) (r : Handed) (s : EncoderState)
    (m : Multiset (ℕ × EncoderObject)) : Prop :=
  (fine → s.faults = []) ∧
    (r.pointer = none ∧ m = 0 ∨
      ∃ pointer bytes, r.pointer = some pointer ∧ m = {(pointer, .block bytes)}) ∧
    ∀ path, savedTo path op r = none ∧ s.fs.read path = fs.read path ∨
      ∃ d k, savedTo path op r = some d ∧ s.fs.read path = some (d.take k) ∧
        (fine → k = d.length)

/-- A function that hands out a block leaves the files alone. -/
theorem HandsOut.ends {ok : Prop} {good : Bytes → Prop} {op : EncoderOp} {r : Handed}
    {s : EncoderState} {m : Multiset (ℕ × EncoderObject)} (h : HandsOut fs fine ok good r s m)
    (hop : ∀ path, savedTo path op r = none) : Ends fs fine op r s m := by
  obtain ⟨hfs, hfine, hends⟩ := h
  refine ⟨hfine, ?_, fun path => .inl ⟨hop path, by rw [hfs]⟩⟩
  rcases hends with ⟨-, hnone, hm, -⟩ | ⟨pointer, bytes, -, hpointer, hm, -⟩
  · exact .inl ⟨hnone, hm⟩
  · exact .inr ⟨pointer, bytes, hpointer, hm⟩

/-- A call that refuses its arguments. -/
theorem ends_failed {op : EncoderOp} (result : ℤ)
    (hop : ∀ path, savedTo path op (.failed result) = none) :
    Spec zstd memory (Here fs fine 0) (pure (.failed result)) (Ends fs fine op) :=
  .pure fun s m h => ⟨h.2.1, .inl ⟨rfl, h.2.2⟩, fun path => .inl ⟨hop path, by rw [h.1]⟩⟩

theorem ends_save (dictionary filepath : Option Bytes) :
    Spec zstd memory (Here fs fine 0) ((EncoderOp.save dictionary filepath).run zstd)
      (Ends fs fine (.save dictionary filepath)) := by
  cases dictionary with
  | none => exact ends_failed (-1) fun _ => rfl
  | some d =>
  cases filepath with
  | none => exact ends_failed (-1) fun _ => rfl
  | some filepath =>
  by_cases hd : d = []
  · subst hd
    exact ends_failed (-1) fun path => if_neg fun h => absurd h.2 (by decide)
  refine (saveDictionary_spec hd filepath).bind fun r => .pure fun s m h => ?_
  obtain ⟨hfine, hm, hends⟩ := h
  refine ⟨hfine, .inl ⟨rfl, hm⟩, fun path => ?_⟩
  rcases hends with ⟨rfl, hfs, -⟩ | ⟨k, -, hfs, hr, hall⟩
  · exact .inl ⟨if_neg fun h => absurd h.2 (by decide), by rw [hfs]⟩
  by_cases hpath : resolve filepath = resolve path
  · refine .inr ⟨d, k, if_pos ⟨hpath, hr.imp_right And.left⟩, ?_, fun hf => (hall hf).2⟩
    rw [hfs, FileSystem.read, ← hpath, ← FileSystem.read, FileSystem.read_write]
  · refine .inl ⟨if_neg fun h => hpath h.1, ?_⟩
    rw [hfs, FileSystem.read_write_of_ne _ (Ne.symm hpath)]

theorem EncoderOp.spec {op : EncoderOp} (hop : op.releases = none) :
    Spec zstd memory (Here fs fine 0) (op.run zstd) (Ends fs fine op) := by
  cases op with
  | encode jsonString dictionary compressionLevel =>
    cases jsonString with
    | none => exact ends_failed (-1) fun _ => rfl
    | some json =>
      exact (encodeStringWithDict_spec json dictionary compressionLevel).post
        fun _ _ _ h => h.ends fun _ => rfl
  | save dictionary filepath => exact ends_save dictionary filepath
  | fetch filepath =>
    cases filepath with
    | none => exact ends_failed (-1) fun _ => rfl
    | some path => exact (fetchDictionary_spec path).post fun _ _ _ h => h.ends fun _ => rfl
  | train samples dictionarySize =>
    cases samples with
    | none => exact ends_failed (-1) fun _ => rfl
    | some samples =>
      exact (trainDictionary_spec samples dictionarySize).post fun _ _ _ h => h.ends fun _ => rfl
  | release pointer => cases hop

/-- A call of a function comes to an end from every state. -/
theorem EncoderState.exists_step (zstd : ZstdContexts) (memory : FreshMemory) {op : EncoderOp}
    (hop : op.releases = none) (s : EncoderState) :
    ∃ r s' m, s.step zstd memory op = some (r, s') ∧ s'.held = m + s.held ∧
      Ends s.fs (s.faults = []) op r s' m :=
  (EncoderOp.spec hop).run ⟨rfl, id, rfl⟩

/-! ### Objects -/

namespace EncoderState

variable {s s' : EncoderState} {op : EncoderOp} {r : Handed} {p : ℕ} {o : EncoderObject}

/-- The object at a pointer, when the pointer is set and the object is live. -/
def lookup (s : EncoderState) (pointer : Option ℕ) : Multiset (ℕ × EncoderObject) :=
  pointer.elim 0 fun p => (s.objects.get p).elim 0 fun o => {(p, o)}

theorem lookup_some (hget : s.objects.get p = some o) : s.lookup (some p) = {(p, o)} := by
  rw [lookup, Option.elim_some, hget, Option.elim_some]

/-- The object that a call hands out. -/
def givenIn (e : RunStep EncoderState EncoderOp Handed) : Multiset (ℕ × EncoderObject) :=
  e.after.lookup e.result.pointer

/-- The object that a caller frees. -/
def releasedIn (e : RunStep EncoderState EncoderOp Handed) : Multiset (ℕ × EncoderObject) :=
  e.before.lookup e.op.releases

/-- A caller can free this pointer. -/
def Releasable (s : EncoderState) (pointer : ℕ) : Prop :=
  match s.objects.get pointer with
  | some (.block _) | some (.pointers _) => True
  | _ => False

theorem Releasable.exists_get (h : s.Releasable p) : ∃ o, s.objects.get p = some o := by
  unfold Releasable at h
  split at h
  · next bytes hget => exact ⟨_, hget⟩
  · next slots hget => exact ⟨_, hget⟩
  · exact h.elim

theorem step_release_eq (s : EncoderState) (p : ℕ) : s.step zstd memory (.release p) =
    (performEncoder zstd memory (.free p) s).map fun x => (⟨0, none, 0⟩, x.2) := by
  show (CallProgram.issue (I := encoderCalls) (.free p) >>= fun _ => pure _).run _ s = _
  rw [run_bind, run_issue, Option.map_eq_bind]
  rfl

theorem step_release (h : s.Releasable p) :
    s.step zstd memory (.release p) = some (⟨0, none, 0⟩, s.drop p) := by
  rw [step_release_eq]
  unfold Releasable at h
  split at h
  · next bytes hget => simp only [performEncoder, hget, Option.map_some]
  · next slots hget => simp only [performEncoder, hget, Option.map_some]
  · exact h.elim

theorem releasable_of_step (hstep : s.step zstd memory (.release p) = some (r, s')) :
    s.Releasable p := by
  rw [step_release_eq] at hstep
  simp only [performEncoder] at hstep
  unfold Releasable
  split
  · trivial
  · trivial
  · next hblock hpointers =>
    split at hstep
    · next bytes hget => exact hblock bytes hget
    · next slots hget => exact hpointers slots hget
    · cases hstep

/-- Only a caller can make a call go wrong. -/
theorem step_eq_none (hnone : s.step zstd memory op = none) :
    ∃ p, op = .release p ∧ ¬ s.Releasable p := by
  cases hop : op.releases with
  | none =>
    obtain ⟨r, s', m, hstep, -⟩ := exists_step zstd memory hop s
    cases hnone.symm.trans hstep
  | some p =>
    cases op with
    | release p =>
      refine ⟨p, rfl, fun h => ?_⟩
      cases hnone.symm.trans (step_release h)
    | _ => cases hop

/-- A call adds what it hands out and takes away what it frees. -/
theorem held_step (hstep : s.step zstd memory op = some (r, s')) :
    s'.held + releasedIn ⟨s, op, r, s'⟩ = s.held + givenIn ⟨s, op, r, s'⟩ := by
  cases hop : op.releases with
  | none =>
    obtain ⟨r₁, s₁, m, hstep₁, hheld, -, hgiven, -⟩ := exists_step zstd memory hop s
    obtain ⟨rfl, rfl⟩ := Prod.mk.inj (Option.some.inj (hstep.symm.trans hstep₁))
    have hzero : releasedIn ⟨s, op, r, s'⟩ = 0 := by
      rw [releasedIn, hop]
      rfl
    rw [hzero, add_zero, hheld, add_comm]
    refine congrArg _ ?_
    rcases hgiven with ⟨hnull, rfl⟩ | ⟨pointer, bytes, hpointer, rfl⟩
    · rw [givenIn, hnull]
      rfl
    · rw [givenIn, hpointer, lookup_some (HandleHeap.get_of_live hheld)]
  | some p =>
    cases op with
    | release p =>
      have hfree := releasable_of_step hstep
      obtain ⟨rfl, rfl⟩ := Prod.mk.inj (Option.some.inj (hstep.symm.trans (step_release hfree)))
      obtain ⟨o, hget⟩ := hfree.exists_get
      have hgiven : givenIn ⟨s, .release p, ⟨0, none, 0⟩, s.drop p⟩ = 0 := rfl
      have hreleased : releasedIn ⟨s, .release p, ⟨0, none, 0⟩, s.drop p⟩ = {(p, o)} :=
        lookup_some hget
      rw [hgiven, hreleased, add_zero, add_comm]
      exact (HandleHeap.live_eq_of_get hget).symm
    | _ => cases hop

/-- In any run of calls, whatever memory, storage and the library do, nothing becomes live but the
blocks that are handed out, and nothing ceases to be live but what callers free: every context,
stream, buffer and array is given back. The run stops only where a caller frees what is not live. -/
theorem held_runEnd (zstd : ZstdContexts) (memory : FreshMemory) (s : EncoderState)
    (ops : List EncoderOp) :
    (runEnd (step zstd memory) s ops).held + ((trace (step zstd memory) s ops).map releasedIn).sum =
        s.held + ((trace (step zstd memory) s ops).map givenIn).sum ∧
      ((trace (step zstd memory) s ops).length = ops.length ∨
        ∃ p, ops[(trace (step zstd memory) s ops).length]? = some (.release p) ∧
          ¬ (runEnd (step zstd memory) s ops).Releasable p) := by
  induction ops generalizing s with
  | nil => exact ⟨rfl, .inl rfl⟩
  | cons op ops ih =>
    cases hstep : step zstd memory s op with
    | none =>
      obtain ⟨p, rfl, hp⟩ := step_eq_none hstep
      simp only [trace, runEnd, hstep, List.map_nil, List.sum_nil]
      exact ⟨trivial, .inr ⟨p, rfl, hp⟩⟩
    | some x =>
      obtain ⟨r, s'⟩ := x
      obtain ⟨hheld, hends⟩ := ih s'
      have hfirst := held_step hstep
      rw [trace_cons_of_some hstep, runEnd_cons_of_some hstep, List.map_cons, List.map_cons,
        List.sum_cons, List.sum_cons, List.length_cons, List.length_cons]
      constructor
      · rw [add_left_comm, hheld, ← add_assoc, add_comm (releasedIn _), hfirst, add_assoc]
      · exact hends.imp (congrArg (· + 1)) fun h => h

/-! ### Files -/

/-- The dictionary that was saved last to the file at a path; `content` where none has been saved.
-/
def stored (path : Bytes) (content : Option Bytes)
    (es : List (RunStep EncoderState EncoderOp Handed)) : Option Bytes :=
  es.foldl (fun d e => (savedTo path e.op e.result).or d) content

/-- The file holds a part of the dictionary from its start on, and all of it without faults. -/
def Shows (s : EncoderState) (fine : Prop) (path : Bytes) (dictionary : Option Bytes) : Prop :=
  (fine → s.faults = []) ∧ ∃ k, s.fs.read path = dictionary.map (List.take k) ∧
    (fine → ∀ d, dictionary = some d → d.length ≤ k)

variable {path : Bytes} {dictionary : Option Bytes}

theorem shows_read (s : EncoderState) (path : Bytes) :
    s.Shows (s.faults = []) path (s.fs.read path) := by
  refine ⟨id, ((s.fs.read path).getD []).length, ?_, fun _ d hd => ?_⟩
  · cases s.fs.read path with
    | none => rfl
    | some d => rw [Option.map_some, Option.getD_some, List.take_length]
  · rw [hd, Option.getD_some]

/-- A call keeps the file in step with what was saved. -/
theorem Shows.step (h : s.Shows fine path dictionary)
    (hstep : s.step zstd memory op = some (r, s')) :
    s'.Shows fine path ((savedTo path op r).or dictionary) := by
  obtain ⟨hfine, k, hread, hwhole⟩ := h
  cases hop : op.releases with
  | none =>
    obtain ⟨r₁, s₁, m, hstep₁, -, hfine', -, hfiles⟩ := exists_step zstd memory hop s
    obtain ⟨rfl, rfl⟩ := Prod.mk.inj (Option.some.inj (hstep.symm.trans hstep₁))
    refine ⟨fun hf => hfine' (hfine hf), ?_⟩
    rcases hfiles path with ⟨hnone, hsame⟩ | ⟨d, k', hsaved, hread', hwhole'⟩
    · rw [hnone, Option.none_or, hsame]
      exact ⟨k, hread, hwhole⟩
    · rw [hsaved, Option.some_or]
      refine ⟨k', hread', fun hf d' hd' => ?_⟩
      obtain rfl := Option.some.inj hd'
      exact Nat.le_of_eq (hwhole' (hfine hf)).symm
  | some p =>
    cases op with
    | release p =>
      have hdrop : s.step zstd memory (.release p) = _ := step_release (releasable_of_step hstep)
      obtain ⟨rfl, rfl⟩ := Prod.mk.inj (Option.some.inj (hstep.symm.trans hdrop))
      refine ⟨fun hf => ?_, k, hread, hwhole⟩
      show s.faults.tail = []
      rw [hfine hf, List.tail_nil]
    | _ => cases hop

/-- In any run the file stays in step with what was saved. -/
theorem Shows.run (zstd : ZstdContexts) (memory : FreshMemory)
    (h : s.Shows fine path dictionary) (ops : List EncoderOp) :
    (runEnd (EncoderState.step zstd memory) s ops).Shows fine path
      (stored path dictionary (trace (EncoderState.step zstd memory) s ops)) := by
  induction ops generalizing s dictionary with
  | nil => exact h
  | cons op ops ih =>
    cases hstep : EncoderState.step zstd memory s op with
    | none =>
      simp only [runEnd, trace, hstep]
      exact h
    | some x =>
      rw [runEnd_cons_of_some hstep, trace_cons_of_some hstep]
      exact ih (h.step hstep)

/-- The block that a call has handed out, as far as its size says. -/
def HandedOut (s : EncoderState) (r : Handed) (out : Bytes) : Prop :=
  ∃ pointer bytes, r.pointer = some pointer ∧ s.objects.get pointer = some (.block bytes) ∧
    bytes.take r.size = out

theorem exists_handedOut {ok : Prop} {good : Bytes → Prop} {m F : Multiset (ℕ × EncoderObject)}
    (h : HandsOut fs fine ok good r s m) (hheld : s.held = m + F) (hzero : r.result = 0) :
    ∃ out, s.HandedOut r out ∧ good out := by
  obtain ⟨-, -, ⟨hfailed, -⟩ | ⟨pointer, bytes, -, hpointer, rfl, -, hgood⟩⟩ := h
  · exact absurd hzero hfailed
  · exact ⟨_, ⟨pointer, bytes, hpointer, HandleHeap.get_of_live hheld, rfl⟩, hgood⟩

/-- What `fetch_dictionary` makes of such a file. -/
theorem Shows.exists_fetch (zstd : ZstdContexts) (memory : FreshMemory)
    (h : s.Shows fine path dictionary) :
    ∃ r s', s.step zstd memory (.fetch (some path)) = some (r, s') ∧
      (r.result = 0 → ∃ out d, s'.HandedOut r out ∧ dictionary = some d ∧ out <+: d ∧ out ≠ [] ∧
        (fine → out = d)) ∧
      (fine → ∀ d, dictionary = some d → d ≠ [] → d.length < 2 ^ 63 → r.result = 0) := by
  obtain ⟨hfine, k, hread, hwhole⟩ := h
  obtain ⟨r, s', m, hrun, hheld, hends⟩ : ∃ r s' m,
      s.step zstd memory (.fetch (some path)) = some (r, s') ∧ s'.held = m + s.held ∧
        HandsOut s.fs fine _ _ r s' m := (fetchDictionary_spec path).run ⟨rfl, hfine, rfl⟩
  have hall (hf : fine) {d : Bytes} (hd : dictionary = some d) : d.take k = d :=
    List.take_of_length_le (hwhole hf d hd)
  refine ⟨r, s', hrun, fun hzero => ?_, fun hf d hd hne hlen => ?_⟩
  · obtain ⟨out, hout, hcontent, hne⟩ := exists_handedOut hends hheld hzero
    obtain ⟨d, hd, rfl⟩ := Option.map_eq_some_iff.mp (hread.symm.trans hcontent)
    exact ⟨_, d, hout, hd, List.take_prefix k d, hne, fun hf => hall hf hd⟩
  · obtain ⟨-, -, ⟨-, -, -, hnot⟩ | ⟨_, _, hzero, -⟩⟩ := hends
    · rw [hd, Option.map_some, hall hf hd] at hread
      exact absurd ⟨hf, d, ⟨hread, hne⟩, hlen⟩ hnot
    · exact hzero

/-- After any run of calls, whatever memory, storage and the library have done, `fetch_dictionary`
comes to an end. When its result is `0` it hands out a block with a part of the dictionary that was
saved last to the file, from its start on and not empty. While nothing fails, the result is `0` and
the part is the whole dictionary. -/
theorem fetches_stored (zstd : ZstdContexts) (memory : FreshMemory) (s : EncoderState)
    (ops : List EncoderOp) (path : Bytes) :
    ∃ r s', (runEnd (step zstd memory) s ops).step zstd memory (.fetch (some path)) = some (r, s') ∧
      (r.result = 0 → ∃ pointer bytes d, r.pointer = some pointer ∧
        s'.objects.get pointer = some (.block bytes) ∧
        stored path (s.fs.read path) (trace (step zstd memory) s ops) = some d ∧
        bytes.take r.size <+: d ∧ bytes.take r.size ≠ [] ∧
        (s.faults = [] → bytes.take r.size = d)) ∧
      (s.faults = [] → ∀ d,
        stored path (s.fs.read path) (trace (step zstd memory) s ops) = some d → d ≠ [] →
          d.length < 2 ^ 63 → r.result = 0) := by
  obtain ⟨r, s', hrun, hgives, hfinds⟩ :=
    ((shows_read s path).run zstd memory ops).exists_fetch zstd memory
  refine ⟨r, s', hrun, fun hzero => ?_, hfinds⟩
  obtain ⟨_, d, ⟨pointer, bytes, hpointer, hget, rfl⟩, hrest⟩ := hgives hzero
  exact ⟨pointer, bytes, d, hpointer, hget, hrest⟩

end EncoderState

end SuparnaD
