import Mathlib.Algebra.Group.Basic
import SuparnaD.Foundation.CallProgram

/-!
# Triples about held resources

A state of the surroundings holds resources, which are added up in a commutative monoid. A triple
says of a program that it owns a part of them and comes to an end from every state with that part,
whatever else is held, and that it leaves the rest as it was. The assertions may also speak of the
state itself, for instance of a file system that all programs share.

A handler answers nothing when a call is misused, so a triple also says that no call is.

## Main definitions

* `CallProgram.Triple`.

## Main results

* `CallProgram.Triple.pure`, `CallProgram.Triple.bind`, `CallProgram.Triple.ite`,
  `CallProgram.Triple.issue`, `CallProgram.Triple.conseq` : programs.
* `CallProgram.Triple.run` : what a program does to a state that holds more.
-/

namespace CallProgram

variable {I : CallInterface} {S M α β : Type} [AddCommMonoid M]

/-- From every state that satisfies `P` with a part of what it holds, the program comes to an end.
The part has become one that satisfies `Q`, and the rest is still held. -/
def Triple (h : CallHandler I S) (held : S → M) (P : S → M → Prop) (p : CallProgram I α)
    (Q : α → S → M → Prop) : Prop :=
  ∀ ⦃s m F⦄, held s = m + F → P s m →
    ∃ a s' m', p.run h s = some (a, s') ∧ held s' = m' + F ∧ Q a s' m'

namespace Triple

variable {h : CallHandler I S} {held : S → M} {P P' : S → M → Prop} {p q : CallProgram I α}
  {Q Q' : α → S → M → Prop} {R : β → S → M → Prop}

theorem pure {a : α} (himp : ∀ s m, P s m → Q a s m) :
    Triple h held P (Pure.pure a : CallProgram I α) Q :=
  fun s m _ hheld hP => ⟨a, s, m, rfl, hheld, himp s m hP⟩

theorem bind {f : α → CallProgram I β} (hp : Triple h held P p Q)
    (hf : ∀ a, Triple h held (Q a) (f a) R) : Triple h held P (p >>= f) R := by
  intro s m F hheld hP
  obtain ⟨a, t, n, hrun, hheld', hQ⟩ := hp hheld hP
  obtain ⟨b, s', m', hrun', hheld'', hR⟩ := hf a hheld' hQ
  exact ⟨b, s', m', run_bind_eq_some_iff.mpr ⟨a, t, hrun, hrun'⟩, hheld'', hR⟩

theorem conseq (hp : Triple h held P p Q) (hpre : ∀ s m, P' s m → P s m)
    (hpost : ∀ a s m, Q a s m → Q' a s m) : Triple h held P' p Q' := by
  intro s m F hheld hP
  obtain ⟨a, s', m', hrun, hheld', hQ⟩ := hp hheld (hpre s m hP)
  exact ⟨a, s', m', hrun, hheld', hpost a s' m' hQ⟩

theorem post (hp : Triple h held P p Q) (hpost : ∀ a s m, Q a s m → Q' a s m) :
    Triple h held P p Q' :=
  hp.conseq (fun _ _ hP => hP) hpost

theorem ite {b : Prop} [Decidable b] (hp : b → Triple h held P p Q)
    (hq : ¬ b → Triple h held P q Q) : Triple h held P (if b then p else q) Q := by
  split
  · exact hp ‹_›
  · exact hq ‹_›

/-- A precondition with a part that does not speak of the state. -/
theorem of_imp {b : Prop} (hp : b → Triple h held P p Q) :
    Triple h held (fun s m => P s m ∧ b) p Q :=
  fun _ _ _ hheld hP => hp hP.2 hheld hP.1

/-- A precondition that holds for some value. -/
theorem exists_pre {X : Type} {P : X → S → M → Prop} (hp : ∀ x, Triple h held (P x) p Q) :
    Triple h held (fun s m => ∃ x, P x s m) p Q :=
  fun _ _ _ hheld hP => hP.elim fun x hx => hp x hheld hx

theorem issue {c : I.Call} {Q : I.Answer c → S → M → Prop}
    (hc : ∀ ⦃s m F⦄, held s = m + F → P s m →
      ∃ a s' m', h c s = some (a, s') ∧ held s' = m' + F ∧ Q a s' m') :
    Triple h held P (CallProgram.issue c) Q := by
  intro s m F hheld hP
  rw [run_issue]
  exact hc hheld hP

/-- A program that needs nothing runs from every state, and adds what its postcondition says. -/
theorem run (hp : Triple h held P p Q) {s : S} (hP : P s 0) :
    ∃ a s' m, p.run h s = some (a, s') ∧ held s' = m + held s ∧ Q a s' m :=
  hp (zero_add _).symm hP

end Triple

end CallProgram
