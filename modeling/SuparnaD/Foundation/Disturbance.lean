import SuparnaD.Foundation.Interleaving

/-!
# Programs whose surroundings act between two calls

While a program runs, its surroundings may act on the state before any of its calls. A schedule
lists these actions. A program all of whose calls commute with the actions does not notice them: it
returns what it returns undisturbed, and the actions show in the state afterwards.

## Main definitions

* `CallHandler.disturbed` : a handler in which one action of a schedule comes before every call.

## Main results

* `CallProgram.run_disturbed` : a program whose calls commute with the actions.
-/

variable {I : CallInterface} {S E α : Type}

namespace CallHandler

/-- The state when the next action of the schedule has taken place. -/
def afterAction (act : S → E → S) : S × List E → S × List E
  | (s, []) => (s, [])
  | (s, e :: es) => (act s e, es)

/-- Every call comes after the next action of the schedule, as long as there is one. -/
def disturbed (h : CallHandler I S) (act : S → E → S) : CallHandler I (S × List E) := fun c x =>
  (h c (afterAction act x).1).map fun r => (r.1, r.2, (afterAction act x).2)

end CallHandler

namespace CallProgram

variable {h : CallHandler I S} {act : S → E → S} {P : I.Call → Prop} {Q : α → Prop}

/-- An action before the program is like an action after it. -/
theorem run_act {p : CallProgram I α}
    (hcomm : ∀ c r s s' e, P c → h c s = some (r, s') → h c (act s e) = some (r, act s' e))
    (hp : p.Within P Q) {s s' : S} {a : α} (hrun : p.run h s = some (a, s')) (e : E) :
    p.run h (act s e) = some (a, act s' e) := by
  induction p generalizing s with
  | ret b =>
    obtain ⟨rfl, rfl⟩ := run_pure_eq_some_iff.mp hrun
    rfl
  | call c k ih =>
    obtain ⟨⟨r, t⟩, hcall, hrest⟩ := Option.bind_eq_some_iff.mp hrun
    rw [run_call, hcomm c r s t e hp.1 hcall]
    exact ih r (hp.2 r) hrest

/-- A program whose calls commute with the actions returns what it returns undisturbed. -/
theorem run_disturbed (act : S → E → S) {p : CallProgram I α}
    (hcomm : ∀ c r s s' e, P c → h c s = some (r, s') → h c (act s e) = some (r, act s' e))
    (hp : p.Within P Q) {s s' : S} {a : α} (hrun : p.run h s = some (a, s')) (es : List E) :
    ∃ done rest, es = done ++ rest ∧
      p.run (CallHandler.disturbed h act) (s, es) = some (a, done.foldl act s', rest) := by
  induction p generalizing s s' es with
  | ret b =>
    obtain ⟨rfl, rfl⟩ := run_pure_eq_some_iff.mp hrun
    exact ⟨[], es, rfl, rfl⟩
  | call c k ih =>
    obtain ⟨⟨r, t⟩, hcall, hrest⟩ := Option.bind_eq_some_iff.mp hrun
    cases es with
    | nil =>
      obtain ⟨done, rest, hes, hrun'⟩ := ih r (hp.2 r) hrest []
      refine ⟨done, rest, hes, ?_⟩
      rw [run_call, CallHandler.disturbed, CallHandler.afterAction, hcall]
      exact hrun'
    | cons e es =>
      -- The action before this call comes after all that follows, as seen undisturbed.
      have hacted := run_act hcomm (hp.2 r) hrest e
      obtain ⟨done, rest, hes, hrun'⟩ := ih r (hp.2 r) hacted es
      refine ⟨e :: done, rest, congrArg (e :: ·) hes, ?_⟩
      rw [run_call, CallHandler.disturbed, CallHandler.afterAction, hcomm c r s t e hp.1 hcall]
      exact hrun'

end CallProgram
