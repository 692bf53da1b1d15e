import Mathlib.Tactic.Common

/-!
# Programs over an interface of calls

A `CallInterface` lists the calls that a program may issue to its surroundings and the type of the
answer to each. A `CallProgram` is a finite tree: it returns, or it issues a call and continues
with the answer. A `CallHandler` says what a call does to a state of the surroundings; `run`
executes a program against a handler, from start to end and with nothing in between.

The same tree also has an interleaved reading, in which other programs act between two calls; it
is given in `SuparnaD.Foundation.Interleaving`.

## Main definitions

* `CallProgram`, with its monad structure.
* `CallProgram.run` : execution against a handler. The result `none` means that some call never
  answers.
* `CallProgram.Keeps` : every completed execution preserves a relation on states.
* `CallProgram.Calls` : every call of an execution has a property.

## Main results

* `CallProgram.run_bind`, `CallProgram.run_bind_eq_some_iff` : execution of a sequence.
* `CallProgram.run_unless_eq_some_iff` : execution past an early return.
* `CallProgram.Keeps.bind` : a transitive relation that two programs respect is respected by their
  sequence.
-/

/-- The calls that a program may issue, and the type of the answer to each. -/
structure CallInterface where
  /-- The calls. -/
  Call : Type
  /-- The type of the answer to a call. -/
  Answer : Call → Type

/-- A program that returns a value, or issues a call and continues with the answer. -/
inductive CallProgram (I : CallInterface) (α : Type) : Type
  | ret (a : α) : CallProgram I α
  | call (c : I.Call) (k : I.Answer c → CallProgram I α) : CallProgram I α

/-- What each call does to a state. The value `none` stands for a call that never answers. -/
abbrev CallHandler (I : CallInterface) (S : Type) : Type :=
  (c : I.Call) → S → Option (I.Answer c × S)

namespace CallProgram

variable {I : CallInterface} {S α β γ : Type}

/-- Run `p`, then `f` on its result. -/
def bind : CallProgram I α → (α → CallProgram I β) → CallProgram I β
  | ret a, f => f a
  | call c k, f => call c fun r => (k r).bind f

instance : Monad (CallProgram I) where
  pure := ret
  bind := bind

@[simp] theorem pure_eq_ret (a : α) : (pure a : CallProgram I α) = ret a := rfl

@[simp] theorem ret_bind (a : α) (f : α → CallProgram I β) : ret a >>= f = f a := rfl

@[simp] theorem call_bind (c : I.Call) (k : I.Answer c → CallProgram I α)
    (f : α → CallProgram I β) : call c k >>= f = call c fun r => k r >>= f := rfl

theorem bind_ret (p : CallProgram I α) : p >>= ret = p := by
  induction p with
  | ret a => rfl
  | call c k ih => simp only [call_bind, ih]

theorem bind_assoc (p : CallProgram I α) (f : α → CallProgram I β) (g : β → CallProgram I γ) :
    p >>= f >>= g = p >>= fun a => f a >>= g := by
  induction p with
  | ret a => rfl
  | call c k ih => simp only [call_bind, ih]

instance : LawfulMonad (CallProgram I) :=
  LawfulMonad.mk' (CallProgram I) (fun p => bind_ret p) (fun _ _ => rfl)
    fun p f g => bind_assoc p f g

/-- Issue one call and return its answer. -/
def issue (c : I.Call) : CallProgram I (I.Answer c) := call c ret

/-! ### Execution from start to end -/

/-- Execute a program against a handler. -/
def run (h : CallHandler I S) : CallProgram I α → S → Option (α × S)
  | ret a, s => some (a, s)
  | call c k, s => (h c s).bind fun r => (k r.1).run h r.2

variable (h : CallHandler I S)

@[simp] theorem run_ret (a : α) (s : S) : (ret a : CallProgram I α).run h s = some (a, s) := rfl

theorem run_call (c : I.Call) (k : I.Answer c → CallProgram I α) (s : S) :
    (call c k).run h s = (h c s).bind fun r => (k r.1).run h r.2 := rfl

@[simp] theorem run_issue (c : I.Call) (s : S) : (issue c).run h s = h c s := by
  simp only [issue, run_call, run_ret]
  cases h c s <;> rfl

@[simp] theorem run_bind (p : CallProgram I α) (f : α → CallProgram I β) (s : S) :
    (p >>= f).run h s = (p.run h s).bind fun r => (f r.1).run h r.2 := by
  induction p generalizing s with
  | ret a => rfl
  | call c k ih => simp only [call_bind, run_call, ih, Option.bind_assoc]

theorem run_map (f : α → β) (p : CallProgram I α) (s : S) :
    (f <$> p).run h s = (p.run h s).map fun r => (f r.1, r.2) := by
  rw [map_eq_pure_bind, run_bind, Option.map_eq_bind]
  rfl

@[simp] theorem run_ite (b : Prop) [Decidable b] (p q : CallProgram I α) (s : S) :
    (if b then p else q).run h s = if b then p.run h s else q.run h s := by
  split <;> rfl

variable {h}

/-- A completed execution of a sequence, taken apart. -/
theorem run_bind_eq_some_iff {p : CallProgram I α} {f : α → CallProgram I β} {s : S}
    {b : β × S} :
    (p >>= f).run h s = some b ↔ ∃ a t, p.run h s = some (a, t) ∧ (f a).run h t = some b := by
  rw [run_bind, Option.bind_eq_some_iff, Prod.exists]

theorem run_pure_eq_some_iff {a b : α} {s t : S} :
    (pure a : CallProgram I α).run h s = some (b, t) ↔ a = b ∧ s = t := by
  rw [pure_eq_ret, run_ret, Option.some.injEq, Prod.mk.injEq]

/-- An execution with another result than that of an early return has not taken it. -/
theorem run_unless_eq_some_iff {b : Prop} [Decidable b] {p : CallProgram I α} {a a' : α}
    (hne : a' ≠ a) {s t : S} :
    (if b then pure a' else p).run h s = some (a, t) ↔ ¬ b ∧ p.run h s = some (a, t) := by
  by_cases hb : b
  · rw [if_pos hb, run_pure_eq_some_iff]
    exact iff_of_false (fun hrun => hne hrun.1) fun hrun => hrun.1 hb
  · rw [if_neg hb, and_iff_right hb]

/-! ### Relations that an execution respects -/

/-- Every completed execution of `p` relates its initial state to its final state by `R`. -/
def Keeps (h : CallHandler I S) (R : S → S → Prop) (p : CallProgram I α) : Prop :=
  ∀ ⦃s a s'⦄, p.run h s = some (a, s') → R s s'

variable {R : S → S → Prop}

theorem Keeps.ret (hrefl : ∀ s, R s s) (a : α) : Keeps h R (ret a : CallProgram I α) := by
  intro s a' s' hrun
  simp only [run_ret, Option.some.injEq, Prod.mk.injEq] at hrun
  exact hrun.2 ▸ hrefl s

theorem Keeps.bind (htrans : ∀ s t u, R s t → R t u → R s u) {p : CallProgram I α}
    {f : α → CallProgram I β} (hp : Keeps h R p) (hf : ∀ a, Keeps h R (f a)) :
    Keeps h R (p >>= f) := by
  intro s b s' hrun
  rw [run_bind, Option.bind_eq_some_iff] at hrun
  obtain ⟨⟨a, t⟩, hrun₁, hrun₂⟩ := hrun
  exact htrans _ _ _ (hp hrun₁) (hf a hrun₂)

/-! ### The calls of an execution -/

/-- Every call of an execution, with its answer, has a property. -/
def Calls (h : CallHandler I S) (P : (c : I.Call) → I.Answer c → Prop) :
    CallProgram I α → S → Prop
  | ret _, _ => True
  | call c k, s => ∀ x ∈ h c s, P c x.1 ∧ (k x.1).Calls h P x.2

variable {P : (c : I.Call) → I.Answer c → Prop} {s : S}

instance decidableCalls [∀ c r, Decidable (P c r)] :
    ∀ (p : CallProgram I α) (s : S), Decidable (p.Calls h P s)
  | ret _, _ => isTrue trivial
  | call c k, s =>
    have : ∀ x : I.Answer c × S, Decidable ((k x.1).Calls h P x.2) := fun x =>
      decidableCalls (k x.1) x.2
    inferInstanceAs (Decidable (∀ x ∈ h c s, P c x.1 ∧ (k x.1).Calls h P x.2))

/-- The calls of a sequence are those of its parts. -/
theorem Calls.of_bind {p : CallProgram I α} {f : α → CallProgram I β}
    (hcalls : (p >>= f).Calls h P s) :
    p.Calls h P s ∧ ∀ a s', p.run h s = some (a, s') → (f a).Calls h P s' := by
  induction p generalizing s with
  | ret a =>
    refine ⟨trivial, fun b s' hrun => ?_⟩
    obtain ⟨rfl, rfl⟩ := Prod.mk.inj (Option.some.inj hrun)
    exact hcalls
  | call c k ih =>
    refine ⟨fun x hx => ⟨(hcalls x hx).1, (ih x.1 (hcalls x hx).2).1⟩, fun a s' hrun => ?_⟩
    obtain ⟨x, hx, hrest⟩ := Option.bind_eq_some_iff.mp hrun
    exact (ih x.1 (hcalls x hx).2).2 a s' hrest

end CallProgram
