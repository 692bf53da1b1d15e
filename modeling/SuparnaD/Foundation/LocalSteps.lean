import SuparnaD.Foundation.Interleaving

/-!
# Rely-guarantee reasoning for call programs

A program that shares its surroundings with others cannot predict the answers to its calls from what
it did before, but it can keep an account of its own. A `LocalSpec` says which calls may be issued
under an account and how an account can change with a call, whatever the others have done in
between. `Ensures` is the weakest precondition of a program with respect to such a description; it
is proved for one program at a time and holds of what is left of the program in every interleaving.

## Main definitions

* `LocalSpec` : what a program may do under an account and what it may rely on.
* `CallProgram.Ensures`.

## Main results

* `CallProgram.Ensures.bind`, `CallProgram.ensures_issue_bind` : the rules for a sequence and for a
  call.
* `CallPool.ensures_update` : one turn of one program in a pool.
-/

variable {I : CallInterface} {L ι α β S : Type}

/-- Which calls a program may issue under an account, and how the account can change with a call. -/
structure LocalSpec (I : CallInterface) (L : Type) where
  /-- What has to hold before a call. -/
  pre : I.Call → L → Prop
  /-- The account before a call, the answer and the account after it. -/
  step : (c : I.Call) → L → I.Answer c → L → Prop

namespace CallProgram

/-- Started under the account, the program issues calls that it may issue and returns a value and an
account with `Q` only. -/
def Ensures (spec : LocalSpec I L) (Q : α → L → Prop) : CallProgram I α → L → Prop
  | ret a, x => Q a x
  | call c k, x => spec.pre c x ∧ ∀ r x', spec.step c x r x' → (k r).Ensures spec Q x'

variable {spec : LocalSpec I L} {Q : α → L → Prop} {Q' : β → L → Prop} {x : L}

theorem ensures_pure {a : α} (h : Q a x) : (pure a : CallProgram I α).Ensures spec Q x := h

theorem Ensures.bind {p : CallProgram I α} {f : α → CallProgram I β} (hp : p.Ensures spec Q x)
    (hf : ∀ a x', Q a x' → (f a).Ensures spec Q' x') : (p >>= f).Ensures spec Q' x := by
  induction p generalizing x with
  | ret a => exact hf a x hp
  | call c k ih => exact ⟨hp.1, fun r x' hstep => ih r (hp.2 r x' hstep)⟩

theorem Ensures.mono {Q' : α → L → Prop} {p : CallProgram I α} (hp : p.Ensures spec Q x)
    (h : ∀ a x', Q a x' → Q' a x') : p.Ensures spec Q' x := by
  induction p generalizing x with
  | ret a => exact h a x hp
  | call c k ih => exact ⟨hp.1, fun r x' hstep => ih r (hp.2 r x' hstep)⟩

theorem ensures_issue {c : I.Call} {Q : I.Answer c → L → Prop} (hpre : spec.pre c x)
    (h : ∀ r x', spec.step c x r x' → Q r x') : (issue c).Ensures spec Q x := ⟨hpre, h⟩

/-- A call and what follows it. -/
theorem ensures_issue_bind {c : I.Call} {f : I.Answer c → CallProgram I α} {Q : α → L → Prop}
    (hpre : spec.pre c x) (h : ∀ r x', spec.step c x r x' → (f r).Ensures spec Q x') :
    (issue c >>= f).Ensures spec Q x := ⟨hpre, h⟩

/-- A call whose step is a function of its answer. -/
theorem ensures_issue_bind_of_eq {c : I.Call} {f : I.Answer c → CallProgram I α}
    {Q : α → L → Prop} {next : I.Answer c → L} (hpre : spec.pre c x)
    (hstep : ∀ r x', spec.step c x r x' → x' = next r)
    (h : ∀ r, (f r).Ensures spec Q (next r)) : (issue c >>= f).Ensures spec Q x :=
  ensures_issue_bind hpre fun r x' hcall => hstep r x' hcall ▸ h r

theorem Ensures.ite {b : Prop} [Decidable b] {p q : CallProgram I α}
    (hp : b → p.Ensures spec Q x) (hq : ¬ b → q.Ensures spec Q x) :
    (if b then p else q).Ensures spec Q x := by
  split
  · exact hp ‹_›
  · exact hq ‹_›

/-- A program whose calls keep a property of the account. -/
theorem ensures_of_within {P : I.Call → Prop} {J : L → Prop} {p : CallProgram I α} {R : α → Prop}
    (hp : p.Within P R) (hx : J x)
    (hcalls : ∀ c y, P c → J y → spec.pre c y ∧ ∀ r y', spec.step c y r y' → J y') :
    p.Ensures spec (fun a y => R a ∧ J y) x := by
  induction p generalizing x with
  | ret a => exact ⟨hp, hx⟩
  | call c k ih =>
    obtain ⟨hpre, hkeep⟩ := hcalls c x hp.1 hx
    exact ⟨hpre, fun r x' hstep => ih r (hp.2 r) (hkeep r x' hstep)⟩

end CallProgram

/-- One turn of one program: what is left of every program still ensures what it has to. -/
theorem CallPool.ensures_update [DecidableEq ι] {spec : ι → LocalSpec I L}
    {Q : ι → α → L → Prop} {threads : ι → CallProgram I α} {x : ι → L}
    (h : ∀ i, (threads i).Ensures (spec i) (Q i) (x i))
    {i : ι} {c : I.Call} {k : I.Answer c → CallProgram I α} {r : I.Answer c} {x' : L}
    (hthread : threads i = .call c k) (hstep : (spec i).step c (x i) r x') (j : ι) :
    (Function.update threads i (k r) j).Ensures (spec j) (Q j) (Function.update x i x' j) := by
  by_cases hne : j = i
  · subst hne
    have hensures := h j
    rw [hthread] at hensures
    rw [Function.update_self, Function.update_self]
    exact hensures.2 r x' hstep
  · rw [Function.update_of_ne hne, Function.update_of_ne hne]
    exact h j
