import Mathlib.Data.List.Basic

/-!
# Runs of a step function

A step function maps a state and an operation to a result and a new state, or to nothing when the
operation does not come to an end. `trace` lists the steps of a run. A law about runs says that some
property holds of each of its steps; the rules below reduce such a law to one step, by an
invariant on states.

## Main definitions

* `RunStep`, `trace`, `runEnd`.

## Main results

* `runEnd_rule` : what every step keeps holds at the end.
* `trace_rule` : every step has a property, when every step meets a condition.
* `trace_always` : every step has a property.
* `trace_iff` : every step has a property exactly when every step meets a condition.
* `length_trace` : a run whose operations all come to an end.
* `countP_trace_rule` : a measure bounds the steps of a kind.
* `trace_filter_rule` : a run beside the same run without some of its operations.
-/

variable {S Op R : Type*}

/-- One step of a run. -/
structure RunStep (S Op R : Type*) where
  /-- The state before the step. -/
  before : S
  /-- The operation. -/
  op : Op
  /-- The result of the operation. -/
  result : R
  /-- The state after the step. -/
  after : S

/-- The steps of a run, up to an operation that does not come to an end. -/
def trace (step : S → Op → Option (R × S)) : S → List Op → List (RunStep S Op R)
  | _, [] => []
  | s, op :: ops =>
    match step s op with
    | none => []
    | some (r, s') => ⟨s, op, r, s'⟩ :: trace step s' ops

/-- The state at the end of a run, or before an operation that does not come to an end. -/
def runEnd (step : S → Op → Option (R × S)) : S → List Op → S
  | s, [] => s
  | s, op :: ops =>
    match step s op with
    | none => s
    | some (_, s') => runEnd step s' ops

section

variable {step : S → Op → Option (R × S)} {Inv : S → Prop} {Meets : S → Op → Prop}
  {Given Holds : RunStep S Op R → Prop}

@[simp] theorem trace_nil (s : S) : trace step s [] = [] := rfl

theorem trace_cons_of_none {s : S} {op : Op} (h : step s op = none) (ops : List Op) :
    trace step s (op :: ops) = [] := by
  simp only [trace, h]

theorem trace_cons_of_some {s s' : S} {op : Op} {r : R} (h : step s op = some (r, s'))
    (ops : List Op) : trace step s (op :: ops) = ⟨s, op, r, s'⟩ :: trace step s' ops := by
  simp only [trace, h]

/-- What a step contributes comes before what the rest of the run contributes. -/
theorem filterMap_trace_cons {α : Type*} (f : RunStep S Op R → Option α) {s s' : S} {op : Op}
    {r : R} (h : step s op = some (r, s')) (ops : List Op) :
    (trace step s (op :: ops)).filterMap f =
      (f ⟨s, op, r, s'⟩).toList ++ (trace step s' ops).filterMap f := by
  rw [trace_cons_of_some h, List.filterMap_cons]
  cases f ⟨s, op, r, s'⟩ <;> rfl

@[simp] theorem runEnd_nil (s : S) : runEnd step s [] = s := rfl

theorem runEnd_cons_of_some {s s' : S} {op : Op} {r : R} (h : step s op = some (r, s'))
    (ops : List Op) : runEnd step s (op :: ops) = runEnd step s' ops := by
  simp only [runEnd, h]

variable (Inv) in
/-- What every step keeps holds at the end of a run. -/
theorem runEnd_rule (hstep : ∀ s op r s', Inv s → step s op = some (r, s') → Inv s') {s : S}
    (hs : Inv s) (ops : List Op) : Inv (runEnd step s ops) := by
  induction ops generalizing s with
  | nil => exact hs
  | cons op ops ih =>
    cases hop : step s op with
    | none => simpa only [runEnd, hop] using hs
    | some rs =>
      rw [runEnd_cons_of_some hop]
      exact ih (hstep s op rs.1 rs.2 hs hop)

variable (Inv Meets) in
/-- If under an invariant every step that meets a condition has a property and keeps the invariant,
then in a run whose steps meet the condition all steps have the property. -/
theorem trace_rule
    (hstep : ∀ s op r s', Inv s → Meets s op → step s op = some (r, s') →
      Inv s' ∧ Holds ⟨s, op, r, s'⟩)
    {s : S} (hs : Inv s) {ops : List Op} (hmeets : ∀ e ∈ trace step s ops, Meets e.before e.op) :
    ∀ e ∈ trace step s ops, Holds e := by
  induction ops generalizing s with
  | nil => simp
  | cons op ops ih =>
    cases hop : step s op with
    | none => simp [trace_cons_of_none hop]
    | some rs =>
      rw [trace_cons_of_some hop, List.forall_mem_cons] at hmeets ⊢
      obtain ⟨hs', hholds⟩ := hstep s op rs.1 rs.2 hs hmeets.1 hop
      exact ⟨hholds, ih hs' hmeets.2⟩

variable (Inv) in
/-- If under an invariant every step has a property and keeps the invariant, then all steps of a run
have the property. -/
theorem trace_always
    (hstep : ∀ s op r s', Inv s → step s op = some (r, s') → Inv s' ∧ Holds ⟨s, op, r, s'⟩)
    {s : S} (hs : Inv s) (ops : List Op) : ∀ e ∈ trace step s ops, Holds e :=
  trace_rule Inv (fun _ _ => True) (fun s op r s' h _ => hstep s op r s' h) hs fun _ _ => trivial

variable (Inv Given) in
/-- If under an invariant a step, of which something is given, has a property exactly when it meets
a condition, and then keeps the invariant, then the steps of a run all have the property exactly
when they all meet the condition. -/
theorem trace_iff
    (hstep : ∀ s op r s', Inv s → step s op = some (r, s') → Given ⟨s, op, r, s'⟩ →
      (Holds ⟨s, op, r, s'⟩ ↔ Meets s op) ∧ (Meets s op → Inv s'))
    {s : S} (hs : Inv s) {ops : List Op} (hgiven : ∀ e ∈ trace step s ops, Given e) :
    (∀ e ∈ trace step s ops, Holds e) ↔ ∀ e ∈ trace step s ops, Meets e.before e.op := by
  induction ops generalizing s with
  | nil => simp
  | cons op ops ih =>
    cases hop : step s op with
    | none => simp [trace_cons_of_none hop]
    | some rs =>
      rw [trace_cons_of_some hop, List.forall_mem_cons] at hgiven
      obtain ⟨hiff, hkeep⟩ := hstep s op rs.1 rs.2 hs hop hgiven.1
      rw [trace_cons_of_some hop, List.forall_mem_cons, List.forall_mem_cons, hiff]
      exact and_congr_right fun hmeets => ih (hkeep hmeets) hgiven.2

variable (Inv) in
/-- If under an invariant an operation of some kind comes to an end and keeps the invariant, then a
run of such operations has all its steps. -/
theorem length_trace (Kind : Op → Prop)
    (hstep : ∀ s op, Inv s → Kind op → ∃ r s', step s op = some (r, s') ∧ Inv s')
    {s : S} (hs : Inv s) {ops : List Op} (hops : ∀ op ∈ ops, Kind op) :
    (trace step s ops).length = ops.length := by
  induction ops generalizing s with
  | nil => rfl
  | cons op ops ih =>
    rw [List.forall_mem_cons] at hops
    obtain ⟨r, s', hop, hs'⟩ := hstep s op hs hops.1
    rw [trace_cons_of_some hop, List.length_cons, ih hs' hops.2, List.length_cons]

/-- What holds of the steps of a run: it holds of a first step, and it is inherited from the steps
that follow. -/
theorem mem_trace_rule {P : List Op → RunStep S Op R → Prop}
    (hfirst : ∀ s op ops r s', step s op = some (r, s') → P (op :: ops) ⟨s, op, r, s'⟩)
    (hnext : ∀ op ops e, P ops e → P (op :: ops) e) {s : S} {ops : List Op}
    {e : RunStep S Op R} (he : e ∈ trace step s ops) : P ops e := by
  induction ops generalizing s with
  | nil => exact absurd he List.not_mem_nil
  | cons op ops ih =>
    cases hop : step s op with
    | none =>
      rw [trace_cons_of_none hop] at he
      exact absurd he List.not_mem_nil
    | some rs =>
      rw [trace_cons_of_some hop, List.mem_cons] at he
      rcases he with rfl | he
      · exact hfirst s op ops rs.1 rs.2 hop
      · exact hnext op ops e (ih he)

/-- The operations of the steps are operations of the run. -/
theorem op_mem_of_mem_trace {s : S} {ops : List Op} {e : RunStep S Op R}
    (he : e ∈ trace step s ops) : e.op ∈ ops :=
  mem_trace_rule (P := fun ops e => e.op ∈ ops) (fun _ _ _ _ _ _ => List.mem_cons_self)
    (fun _ _ _ => List.mem_cons_of_mem _) he

/-- The steps of a run are steps. -/
theorem step_of_mem_trace {s : S} {ops : List Op} {e : RunStep S Op R}
    (he : e ∈ trace step s ops) : step e.before e.op = some (e.result, e.after) :=
  mem_trace_rule (P := fun _ e => step e.before e.op = some (e.result, e.after))
    (fun _ _ _ _ _ hop => hop) (fun _ _ _ hstep => hstep) he

variable (Inv) in
/-- If under an invariant every step of a kind uses up a part of a measure and no other step adds to
it, then a run has no more steps of the kind than the measure allows. -/
theorem countP_trace_rule (measure : S → ℕ) (kind : Op → Bool)
    (hkind : ∀ s op r s', Inv s → step s op = some (r, s') → kind op = true →
      measure s' < measure s)
    (hother : ∀ s op r s', Inv s → step s op = some (r, s') → kind op = false →
      measure s' ≤ measure s)
    (hinv : ∀ s op r s', Inv s → step s op = some (r, s') → Inv s') {s : S} (hs : Inv s)
    (ops : List Op) :
    measure (runEnd step s ops) + (trace step s ops).countP (fun e => kind e.op) ≤ measure s := by
  induction ops generalizing s with
  | nil => exact Nat.le_refl _
  | cons op ops ih =>
    cases hop : step s op with
    | none => simp only [runEnd, trace, hop, List.countP_nil, Nat.add_zero, Nat.le_refl]
    | some rs =>
      obtain ⟨r, s'⟩ := rs
      have hrest := ih (hinv s op r s' hs hop)
      rw [runEnd_cons_of_some hop, trace_cons_of_some hop, List.countP_cons]
      dsimp only
      split_ifs with hop'
      · have hless := hkind s op r s' hs hop hop'
        omega
      · have hle := hother s op r s' hs hop (Bool.eq_false_iff.mpr hop')
        omega

/-! ### Leaving out operations -/

variable (Rel : List Op → S → S → Prop) (keep : Op → Bool)

variable (Meets) in
/-- Two runs side by side, the second without the operations that are not kept. The relation between
their states may look at the operations that are still to come. -/
theorem trace_filter_rule
    (hstep : ∀ s t op ops, Rel (op :: ops) s t → ∃ r s', step s op = some (r, s') ∧
      (Meets s op → if keep op then ∃ t', step t op = some (r, t') ∧ Rel ops s' t'
        else Rel ops s' t))
    {s t : S} {ops : List Op} (h : Rel ops s t)
    (hmeets : ∀ e ∈ trace step s ops, Meets e.before e.op) :
    List.Forall₂ (fun e e' => e.op = e'.op ∧ e.result = e'.result ∧
        ∃ rest, Rel rest e.after e'.after)
      ((trace step s ops).filter fun e => keep e.op) (trace step t (ops.filter keep)) ∧
    Rel [] (runEnd step s ops) (runEnd step t (ops.filter keep)) := by
  induction ops generalizing s t with
  | nil => exact ⟨.nil, h⟩
  | cons op ops ih =>
    obtain ⟨r, s', hop, hnext⟩ := hstep s t op ops h
    rw [trace_cons_of_some hop, List.forall_mem_cons] at hmeets
    have hnext := hnext hmeets.1
    rw [trace_cons_of_some hop, runEnd_cons_of_some hop]
    cases hkeep : keep op with
    | true =>
      rw [if_pos hkeep] at hnext
      obtain ⟨t', hop', hrel⟩ := hnext
      obtain ⟨hsteps, hend⟩ := ih hrel hmeets.2
      simp only [List.filter_cons, hkeep, ↓reduceIte]
      rw [trace_cons_of_some hop', runEnd_cons_of_some hop']
      exact ⟨.cons ⟨rfl, rfl, ops, hrel⟩ hsteps, hend⟩
    | false =>
      simp only [hkeep, Bool.false_eq_true, ↓reduceIte] at hnext
      simp only [List.filter_cons, hkeep, Bool.false_eq_true, ↓reduceIte]
      exact ih hnext hmeets.2

end
