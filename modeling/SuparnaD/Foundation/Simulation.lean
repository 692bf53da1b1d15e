import Mathlib.Data.List.Forall2
import SuparnaD.Foundation.Runs

/-!
# Simulation of runs

A machine simulates another when a relation between their states is kept by every operation and its
*name*, an operation of the other machine that says what it is for. The name may depend on the state
of the other machine, and the relation may look at the operations that are still to come, for
instance to leave room for them.

## Main definitions

* `NamedRun` : the operations of a run have names, one by one.

## Main results

* `simulation` : a named run goes as the run of its names.
-/

variable {S T Op Op' R R' : Type*}

/-- The operations of a run have names in the other machine, one by one. -/
inductive NamedRun (names : T → Op → Op' → Prop) (step' : T → Op' → Option (R' × T)) :
    T → List Op → List Op' → Prop
  | nil (t : T) : NamedRun names step' t [] []
  | cons {t t' : T} {op : Op} {op' : Op'} {r' : R'} {ops : List Op} {ops' : List Op'}
      (hname : names t op op') (hstep : step' t op' = some (r', t'))
      (hrest : NamedRun names step' t' ops ops') : NamedRun names step' t (op :: ops) (op' :: ops')

variable {names : T → Op → Op' → Prop} {step : S → Op → Option (R × S)}
  {step' : T → Op' → Option (R' × T)}

/-- If an operation on related states goes as its name and relates the states after it, a named run
goes as the run of its names. -/
theorem simulation (Rel : List Op → S → T → Prop) (Answers : T → R → R' → Prop)
    (hstep : ∀ s t op op' ops r' t', Rel (op :: ops) s t → names t op op' →
      step' t op' = some (r', t') →
        ∃ r s', step s op = some (r, s') ∧ Answers t r r' ∧ Rel ops s' t')
    {s : S} {t : T} {ops : List Op} {ops' : List Op'} (h : Rel ops s t)
    (hnamed : NamedRun names step' t ops ops') :
    List.Forall₂ (fun x x' => names x'.before x.op x'.op ∧ Answers x'.before x.result x'.result ∧
        ∃ rest, Rel rest x.after x'.after) (trace step s ops) (trace step' t ops') ∧
      Rel [] (runEnd step s ops) (runEnd step' t ops') := by
  induction hnamed generalizing s with
  | nil t => exact ⟨.nil, h⟩
  | cons hname hop' hrest ih =>
    obtain ⟨r, s', hop, hanswers, hrel⟩ := hstep _ _ _ _ _ _ _ h hname hop'
    obtain ⟨hsteps, hend⟩ := ih hrel
    rw [trace_cons_of_some hop, trace_cons_of_some hop', runEnd_cons_of_some hop,
      runEnd_cons_of_some hop']
    exact ⟨.cons ⟨hname, hanswers, _, hrel⟩ hsteps, hend⟩

/-- What is known of two runs side by side, with the steps of the second. -/
theorem forall₂_trace_step {X : Type*} {P : X → RunStep T Op' R' → Prop} {t : T} {l : List X}
    {ops' : List Op'} (h : List.Forall₂ P l (trace step' t ops')) :
    List.Forall₂ (fun x x' => step' x'.before x'.op = some (x'.result, x'.after) ∧ P x x') l
      (trace step' t ops') :=
  ((List.forall₂_and_left _ _).mpr ⟨fun _ hx' => step_of_mem_trace hx', h.flip⟩).flip

section Lists

variable {α β γ : Type*} {P : α → β → Prop} {l : List α} {l' : List β}

/-- Lists whose elements correspond are mapped alike. -/
theorem flatMap_eq_of_forall₂ {f : α → List γ} {g : β → List γ} (h : List.Forall₂ P l l')
    (hfg : ∀ x x', P x x' → f x = g x') : l.flatMap f = l'.flatMap g := by
  induction h with
  | nil => rfl
  | cons hx _ ih => rw [List.flatMap_cons, List.flatMap_cons, hfg _ _ hx, ih]

/-- Lists whose elements correspond are filtered alike. -/
theorem filterMap_eq_of_forall₂ {f : α → Option γ} {g : β → Option γ} (h : List.Forall₂ P l l')
    (hfg : ∀ x x', P x x' → f x = g x') : l.filterMap f = l'.filterMap g := by
  induction h with
  | nil => rfl
  | cons hx _ ih => rw [List.filterMap_cons, List.filterMap_cons, hfg _ _ hx, ih]

end Lists
