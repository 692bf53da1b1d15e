import Mathlib.Logic.Function.Basic
import SuparnaD.Foundation.CallProgram

/-!
# Interleaved programs

Several call programs run on one state and take turns call by call: a call is one atomic step, and
between two calls of one program the others may do anything.

Two facts about a single program survive every interleaving. `Within` bounds the calls that it can
issue and the values that it can return, whatever the answers. `Follows` says which calls it issues
if they are answered in a certain way.

## Main definitions

* `CallEvent` : a call with its answer.
* `CallPool`, `CallPool.step` : programs that share a state.
* `CallProgram.Within`, `CallProgram.Follows`.

## Main results

* `CallPool.step_eq_some_iff` : what one turn does.
* `CallProgram.Within.bind`, `CallProgram.Follows.bind`.
* `CallProgram.Within.invariant` : what the calls of a program preserve, its runs preserve.
-/

variable {I : CallInterface} {ι S α β : Type}

/-- A call with its answer. -/
abbrev CallEvent (I : CallInterface) : Type := Σ c, I.Answer c

namespace CallProgram

/-- The value of a program that has returned. -/
def returned : CallProgram I α → Option α
  | ret a => some a
  | call _ _ => none

/-- The call that the program issues next. -/
def next : CallProgram I α → Option I.Call
  | ret _ => none
  | call c _ => some c

@[simp] theorem returned_ret (a : α) : (ret a : CallProgram I α).returned = some a := rfl

theorem returned_eq_some_iff {p : CallProgram I α} {a : α} : p.returned = some a ↔ p = ret a := by
  cases p with
  | ret b => simp only [returned, Option.some.injEq, ret.injEq]
  | call c k => simp only [returned, reduceCtorEq]

/-! ### Bounds on calls and values -/

/-- Whatever the answers, the program issues calls with `P` only and returns values with `Q` only.
-/
def Within (P : I.Call → Prop) (Q : α → Prop) : CallProgram I α → Prop
  | ret a => Q a
  | call c k => P c ∧ ∀ r, (k r).Within P Q

section

variable {P : I.Call → Prop} {Q : α → Prop} {Q' : β → Prop}

theorem within_pure {a : α} (h : Q a) : (pure a : CallProgram I α).Within P Q := h

/-- What a program returns it returns within its bounds. -/
theorem Within.of_run {p : CallProgram I α} (hp : p.Within P Q) {h : CallHandler I S} {s s' : S}
    {a : α} (hrun : p.run h s = some (a, s')) : Q a := by
  induction p generalizing s with
  | ret b =>
    obtain ⟨rfl, -⟩ := Prod.mk.inj (Option.some.inj hrun)
    exact hp
  | call c k ih =>
    obtain ⟨r, -, hrest⟩ := Option.bind_eq_some_iff.mp hrun
    exact ih r.1 (hp.2 r.1) hrest

/-- What the calls of a program preserve, a run of the program preserves. -/
theorem Within.invariant {p : CallProgram I α} (hp : p.Within P Q) {h : CallHandler I S}
    {J : S → Prop} (hcalls : ∀ c r s s', P c → h c s = some (r, s') → J s → J s') {s s' : S} {a : α}
    (hrun : p.run h s = some (a, s')) (hs : J s) : J s' := by
  induction p generalizing s with
  | ret b =>
    obtain ⟨-, rfl⟩ := Prod.mk.inj (Option.some.inj hrun)
    exact hs
  | call c k ih =>
    obtain ⟨⟨r, t⟩, hcall, hrest⟩ := Option.bind_eq_some_iff.mp hrun
    exact ih r (hp.2 r) hrest (hcalls c r s t hp.1 hcall hs)

theorem Within.bind {p : CallProgram I α} {f : α → CallProgram I β} (hp : p.Within P Q)
    (hf : ∀ a, Q a → (f a).Within P Q') : (p >>= f).Within P Q' := by
  induction p with
  | ret a => exact hf a hp
  | call c k ih => exact ⟨hp.1, fun r => ih r (hp.2 r)⟩

theorem Within.mono {Q' : α → Prop} {p : CallProgram I α} (hp : p.Within P Q)
    (h : ∀ a, Q a → Q' a) : p.Within P Q' := by
  induction p with
  | ret a => exact h a hp
  | call c k ih => exact ⟨hp.1, fun r => ih r (hp.2 r)⟩

theorem Within.weaken {P' : I.Call → Prop} {p : CallProgram I α} (hp : p.Within P Q)
    (h : ∀ c, P c → P' c) : p.Within P' Q := by
  induction p with
  | ret a => exact hp
  | call c k ih => exact ⟨h c hp.1, fun r => ih r (hp.2 r)⟩

theorem within_true (p : CallProgram I α) : p.Within (fun _ => True) fun _ => True := by
  induction p with
  | ret a => trivial
  | call c k ih => exact ⟨trivial, ih⟩

theorem Within.map {p : CallProgram I α} {f : α → β} (hp : p.Within P Q)
    (hf : ∀ a, Q a → Q' (f a)) : (f <$> p).Within P Q' := by
  rw [map_eq_pure_bind]
  exact hp.bind fun a ha => within_pure (hf a ha)

theorem Within.ite {b : Prop} [Decidable b] {p q : CallProgram I α} (hp : b → p.Within P Q)
    (hq : ¬ b → q.Within P Q) : (if b then p else q).Within P Q := by
  split
  · exact hp ‹_›
  · exact hq ‹_›

end

/-! ### Expected courses -/

/-- The program issues the listed calls and then returns `a`, if each call is answered as listed. -/
def Follows : CallProgram I α → List (CallEvent I) → α → Prop
  | ret b, [], a => b = a
  | call c k, ⟨c', r⟩ :: events, a => ∃ h : c' = c, (k (h ▸ r)).Follows events a
  | ret _, _ :: _, _ => False
  | call _ _, [], _ => False

theorem follows_ret (a : α) : (ret a : CallProgram I α).Follows [] a := rfl

theorem follows_issue (c : I.Call) (r : I.Answer c) : (issue c).Follows [⟨c, r⟩] r := ⟨rfl, rfl⟩

theorem Follows.eq_ret {p : CallProgram I α} {a : α} (h : p.Follows [] a) : p = ret a := by
  cases p with
  | ret b => exact congrArg ret h
  | call c k => exact h.elim

theorem Follows.eq_call {p : CallProgram I α} {e : CallEvent I} {events : List (CallEvent I)}
    {a : α} (h : p.Follows (e :: events) a) :
    ∃ k, p = call e.1 k ∧ (k e.2).Follows events a := by
  cases p with
  | ret b => exact h.elim
  | call c' k =>
    obtain ⟨rfl, h⟩ := h
    exact ⟨k, rfl, h⟩

theorem Follows.bind {p : CallProgram I α} {f : α → CallProgram I β}
    {events events' : List (CallEvent I)} {a : α} {b : β} (hp : p.Follows events a)
    (hf : (f a).Follows events' b) : (p >>= f).Follows (events ++ events') b := by
  induction p generalizing events with
  | ret a' =>
    cases events with
    | nil =>
      obtain rfl : a' = a := hp
      exact hf
    | cons e events => exact hp.elim
  | call c k ih =>
    cases events with
    | nil => exact hp.elim
    | cons e events =>
      obtain ⟨rfl, hp⟩ := hp
      exact ⟨rfl, ih _ hp⟩

end CallProgram

/-! ### Pools -/

/-- Programs that share a state. -/
structure CallPool (I : CallInterface) (ι α S : Type) where
  /-- The state. -/
  state : S
  /-- What remains of each program. -/
  threads : ι → CallProgram I α

namespace CallPool

open CallProgram

variable [DecidableEq ι]

/-- One turn of one program. A program that has returned does nothing. -/
def step (h : CallHandler I S) (p : CallPool I ι α S) (i : ι) :
    Option (Option (CallEvent I) × CallPool I ι α S) :=
  match p.threads i with
  | ret _ => some (none, p)
  | call c k => (h c p.state).map fun r =>
      (some ⟨c, r.1⟩, ⟨r.2, Function.update p.threads i (k r.1)⟩)

/-- A turn does nothing, or it issues one call. -/
theorem step_eq_some_iff {h : CallHandler I S} {p p' : CallPool I ι α S} {i : ι}
    {event : Option (CallEvent I)} : p.step h i = some (event, p') ↔
      (∃ a, p.threads i = ret a ∧ event = none ∧ p' = p) ∨
        ∃ c k r s', p.threads i = call c k ∧ h c p.state = some (r, s') ∧
          event = some ⟨c, r⟩ ∧ p' = ⟨s', Function.update p.threads i (k r)⟩ := by
  rw [step]
  cases hthread : p.threads i with
  | ret a =>
    simp only [Option.some.injEq, Prod.mk.injEq, ret.injEq, exists_eq_left', reduceCtorEq,
      false_and, exists_false, or_false]
    exact and_congr eq_comm eq_comm
  | call c k =>
    simp only [reduceCtorEq, false_and, exists_false, false_or]
    rw [Option.map_eq_some_iff]
    constructor
    · rintro ⟨⟨r, s'⟩, hcall, heq⟩
      obtain ⟨rfl, rfl⟩ := Prod.mk.inj heq
      exact ⟨c, k, r, s', rfl, hcall, rfl, rfl⟩
    · rintro ⟨c', k', r, s', heq, hcall, rfl, rfl⟩
      cases heq
      exact ⟨(r, s'), hcall, rfl⟩

end CallPool
