import Mathlib.Logic.Function.Basic
import Mathlib.Tactic.SplitIfs
import SuparnaD.Foundation.HandleHeap

/-!
# Custody of resources

A store maps each resource to its value while the resource is open. Several parties hold resources,
each at most one. When every open resource is in the custody of exactly one of them, a party may use
and close the resource that it holds, and nothing is closed twice or left open with no holder.

## Main definitions

* `Custody` : every open resource has exactly one holder, and only open resources are held.

## Main results

* `Custody.acquire`, `Custody.release`, `Custody.transfer`, `Custody.put` : what may happen to a
  resource.
* `Custody.alloc`, `Custody.free` : the same for the objects of a heap.
-/

variable {R V H : Type*} {store store' : R → Option V} {holds : H → Option R} {r : R} {h h' : H}
  {v : V}

/-- Every open resource has exactly one holder, and only open resources are held. -/
structure Custody (store : R → Option V) (holds : H → Option R) : Prop where
  open_iff : ∀ r, (store r).isSome ↔ ∃ h, holds h = some r
  unique : ∀ {h h' r}, holds h = some r → holds h' = some r → h = h'

namespace Custody

theorem nothing : Custody (fun _ : R => (none : Option V)) fun _ : H => none :=
  ⟨fun _ => by simp, fun hh => by simp at hh⟩

/-- What is held is open. -/
theorem exists_eq (hc : Custody store holds) (hh : holds h = some r) : ∃ v, store r = some v :=
  Option.isSome_iff_exists.mp ((hc.open_iff r).mpr ⟨h, hh⟩)

/-- Nobody holds a closed resource. -/
theorem ne_of_eq_none (hc : Custody store holds) (hr : store r = none) (h : H) :
    holds h ≠ some r := by
  intro hh
  obtain ⟨v, hv⟩ := hc.exists_eq hh
  simp [hr] at hv

/-- Only which resources are open counts. -/
theorem congr (hc : Custody store holds) (hopen : ∀ r, (store' r).isSome = (store r).isSome) :
    Custody store' holds :=
  ⟨fun r => by rw [hopen, hc.open_iff], hc.unique⟩

section

variable [DecidableEq R]

/-- The value of an open resource is changed. -/
theorem put (hc : Custody store holds) (hh : holds h = some r) (v : V) :
    Custody (Function.update store r (some v)) holds := by
  refine hc.congr fun r' => ?_
  by_cases hr : r' = r
  · obtain ⟨v', hv'⟩ := hc.exists_eq hh
    simp [hr, hv']
  · rw [Function.update_of_ne hr]

variable [DecidableEq H]

/-- A party with free hands opens a resource. -/
theorem acquire (hc : Custody store holds) (hr : store r = none) (hh : holds h = none) (v : V) :
    Custody (Function.update store r (some v)) (Function.update holds h (some r)) := by
  have hnew := hc.ne_of_eq_none hr
  constructor
  · intro r'
    by_cases heq : r' = r
    · subst heq
      simp only [Function.update_self, Option.isSome_some, true_iff]
      exact ⟨h, Function.update_self ..⟩
    · rw [Function.update_of_ne heq, hc.open_iff]
      refine exists_congr fun k => ?_
      by_cases hk : k = h
      · simp [hk, hh, Ne.symm heq]
      · rw [Function.update_of_ne hk]
  · intro k k' r' hk hk'
    simp only [Function.update_apply] at hk hk'
    split_ifs at hk hk' with h₁ h₂ h₂
    · exact h₁.trans h₂.symm
    · exact absurd (hk'.trans hk.symm) (hnew k')
    · exact absurd (hk.trans hk'.symm) (hnew k)
    · exact hc.unique hk hk'

/-- The holder closes its resource. -/
theorem release (hc : Custody store holds) (hh : holds h = some r) :
    Custody (Function.update store r none) (Function.update holds h none) := by
  constructor
  · intro r'
    by_cases heq : r' = r
    · subst heq
      simp only [Function.update_self, Option.isSome_none, Bool.false_eq_true, false_iff]
      rintro ⟨k, hk⟩
      simp only [Function.update_apply] at hk
      split_ifs at hk with hkh
      exact hkh (hc.unique hk hh)
    · rw [Function.update_of_ne heq, hc.open_iff]
      refine exists_congr fun k => ?_
      by_cases hk : k = h
      · simp [hk, hh, Ne.symm heq]
      · rw [Function.update_of_ne hk]
  · intro k k' r' hk hk'
    simp only [Function.update_apply] at hk hk'
    split_ifs at hk hk'
    exact hc.unique hk hk'

/-- The holder hands its resource to a party with free hands. -/
theorem transfer (hc : Custody store holds) (hh : holds h = some r) (hfree : holds h' = none) :
    Custody store (Function.update (Function.update holds h none) h' (some r)) := by
  obtain ⟨v, hv⟩ := hc.exists_eq hh
  have hmoved := (hc.release hh).acquire (h := h') (Function.update_self ..)
    (by simp only [Function.update_apply, hfree, ite_self]) v
  rwa [Function.update_idem, ← hv, Function.update_eq_self] at hmoved

end

/-! ### Objects on a heap -/

section

variable [DecidableEq H] {heap : HandleHeap V} {holds : H → Option ℕ} {handle : ℕ}

/-- A party with free hands makes an object. -/
theorem alloc (hc : Custody heap.get holds) (hh : holds h = none) (v : V) :
    Custody (heap.alloc v).get (Function.update holds h (some heap.fresh)) := by
  have hnew : heap.get heap.fresh = none := by
    cases hget : heap.get heap.fresh with
    | none => rfl
    | some v => exact absurd (HandleHeap.lt_fresh_of_get hget) (Nat.lt_irrefl _)
  refine (hc.acquire hnew hh v).congr fun k => ?_
  by_cases hk : k = heap.fresh
  · rw [hk, HandleHeap.get_alloc_self, Function.update_self]
  · rw [HandleHeap.get_alloc_of_ne hk, Function.update_of_ne hk]

/-- The holder of an object frees it. -/
theorem free (hc : Custody heap.get holds) (hh : holds h = some handle) :
    Custody (heap.free handle).get (Function.update holds h none) := by
  refine (hc.release hh).congr fun k => ?_
  by_cases hk : k = handle
  · rw [hk, HandleHeap.get_free_self, Function.update_self]
  · rw [HandleHeap.get_free_of_ne hk, Function.update_of_ne hk]

end

end Custody
