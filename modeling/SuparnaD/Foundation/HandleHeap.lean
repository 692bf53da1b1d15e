import Mathlib.Data.List.Basic
import Mathlib.Data.Nat.Notation

/-!
# A heap of explicitly freed objects

Objects are named by handles. A handle is never used twice: `alloc` always takes a fresh one, and
a freed object leaves its cell empty. So a handle that is kept for too long reads as `none` and
cannot come to name another object. The heap keeps a list of what has been freed, in which an object
that is freed twice appears twice.

## Main definitions

* `HandleHeap`, with `get`, `alloc`, `set`, `free` and `freeAll`.
* `HandleHeap.OwnedSince` : of the objects made since some moment exactly one is live, or none, and
  none has been freed twice.

## Main results

* The lookup rules `get_alloc_self`, `get_alloc_of_ne`, `get_set_self` and `get_free_self`.
* `HandleHeap.OwnedSince.alloc`, `HandleHeap.OwnedSince.free` : an owner that makes an object when
  it has none, and frees only the one it has.
-/

/-- A heap of objects of type `α`. -/
structure HandleHeap (α : Type*) where
  /-- The object of each handle given out so far; `none` after it has been freed. -/
  cells : List (Option α)
  /-- The handles that have been freed, the latest first. -/
  freed : List ℕ

namespace HandleHeap

variable {α : Type*} (H : HandleHeap α)

/-- The heap in which no handle has been given out. -/
def empty : HandleHeap α := ⟨[], []⟩

/-- The live object of a handle. -/
def get (h : ℕ) : Option α := H.cells[h]?.join

/-- The handle that the next allocation gives out. -/
def fresh : ℕ := H.cells.length

/-- Allocate an object under the fresh handle. -/
def alloc (a : α) : HandleHeap α := ⟨H.cells ++ [some a], H.freed⟩

/-- Overwrite the object of a handle. -/
def set (h : ℕ) (a : α) : HandleHeap α := ⟨H.cells.set h (some a), H.freed⟩

/-- Free the object of a handle. -/
def free (h : ℕ) : HandleHeap α := ⟨H.cells.set h none, h :: H.freed⟩

variable {H} {h k : ℕ} {a b : α}

theorem lt_fresh_of_get (hget : H.get h = some a) : h < H.fresh := by
  by_contra hge
  rw [get, List.getElem?_eq_none (Nat.le_of_not_lt hge)] at hget
  exact absurd hget (by simp)

@[simp] theorem get_empty : (empty : HandleHeap α).get h = none := by
  simp [get, empty]

@[simp] theorem get_alloc_self : (H.alloc a).get H.fresh = some a := by
  simp [get, alloc, fresh]

theorem get_alloc_of_ne (hne : h ≠ H.fresh) : (H.alloc a).get h = H.get h := by
  simp only [get, alloc, fresh] at hne ⊢
  rcases Nat.lt_or_gt_of_ne hne with hlt | hgt
  · rw [List.getElem?_append_left hlt]
  · rw [List.getElem?_eq_none (by simp; omega), List.getElem?_eq_none (Nat.le_of_lt hgt)]

theorem get_set_self (hget : H.get h = some b) : (H.set h a).get h = some a := by
  have hlt := lt_fresh_of_get hget
  simp only [fresh] at hlt
  simp [get, set, hlt]

theorem get_set_of_ne (hne : k ≠ h) : (H.set h a).get k = H.get k := by
  simp only [get, set, List.getElem?_set_ne (Ne.symm hne)]

@[simp] theorem get_free_self : (H.free h).get h = none := by
  by_cases hlt : h < H.cells.length
  · simp [get, free, hlt]
  · simp [get, free, hlt]

theorem get_free_of_ne (hne : k ≠ h) : (H.free h).get k = H.get k := by
  simp only [get, free, List.getElem?_set_ne (Ne.symm hne)]

@[simp] theorem fresh_alloc : (H.alloc a).fresh = H.fresh + 1 := by simp [fresh, alloc]

@[simp] theorem fresh_set : (H.set h a).fresh = H.fresh := by simp [fresh, set]

@[simp] theorem fresh_free : (H.free h).fresh = H.fresh := by simp [fresh, free]

theorem isSome_get_set (hget : (H.get h).isSome) (k : ℕ) :
    ((H.set h a).get k).isSome = (H.get k).isSome := by
  by_cases hk : k = h
  · obtain ⟨b, hb⟩ := Option.isSome_iff_exists.mp hget
    rw [hk, get_set_self hb, hget, Option.isSome_some]
  · rw [get_set_of_ne hk]

/-! ### Several objects -/

/-- Making objects frees none. -/
theorem freed_foldl_alloc (H : HandleHeap α) (objects : List α) :
    (objects.foldl alloc H).freed = H.freed := by
  induction objects generalizing H with
  | nil => rfl
  | cons a objects ih => exact ih (H.alloc a)

/-- Free several objects, one after the other. -/
def freeAll (H : HandleHeap α) (handles : List ℕ) : HandleHeap α := handles.foldl free H

theorem freed_freeAll (H : HandleHeap α) (handles : List ℕ) :
    (H.freeAll handles).freed = handles.reverse ++ H.freed := by
  induction handles generalizing H with
  | nil => rfl
  | cons h handles ih =>
    rw [freeAll, List.foldl_cons, ← freeAll, ih, List.reverse_cons, List.append_assoc]
    rfl

theorem get_freeAll (H : HandleHeap α) (handles : List ℕ) (k : ℕ) :
    (H.freeAll handles).get k = if k ∈ handles then none else H.get k := by
  induction handles generalizing H with
  | nil => simp [freeAll]
  | cons h handles ih =>
    rw [freeAll, List.foldl_cons, ← freeAll, ih]
    by_cases hk : k = h
    · simp [hk]
    · rw [get_free_of_ne hk]
      simp only [List.mem_cons, hk, false_or]

/-! ### A single owner -/

/-- Of the objects made since the first heap exactly the owned one is live, and no object has been
freed that was not made since, or freed twice. -/
structure OwnedSince (H₀ H : HandleHeap α) (owned : Option ℕ) : Prop where
  fresh_le : H₀.fresh ≤ H.fresh
  live_iff : ∀ h, H₀.fresh ≤ h → ((H.get h).isSome ↔ owned = some h)
  le : ∀ h, owned = some h → H₀.fresh ≤ h
  freed : ∃ freed, H.freed = freed ++ H₀.freed ∧ freed.Nodup ∧
    ∀ h ∈ freed, H₀.fresh ≤ h ∧ h < H.fresh ∧ H.get h = none

namespace OwnedSince

variable {H₀ H' : HandleHeap α} {owned : Option ℕ}

theorem refl (H : HandleHeap α) : OwnedSince H H none := by
  refine ⟨Nat.le_refl _, fun h hh => iff_of_false (fun hlive => ?_) (by simp), by simp, [], rfl,
    List.nodup_nil, by simp⟩
  obtain ⟨a, ha⟩ := Option.isSome_iff_exists.mp hlive
  have := lt_fresh_of_get ha
  omega

/-- Changing objects, but not which of them are live. -/
theorem congr (hH : OwnedSince H₀ H owned) (hlive : ∀ h, (H'.get h).isSome = (H.get h).isSome)
    (hfresh : H'.fresh = H.fresh) (hfreed : H'.freed = H.freed) : OwnedSince H₀ H' owned := by
  obtain ⟨freed, heq, hnodup, hdead⟩ := hH.freed
  refine ⟨hfresh ▸ hH.fresh_le, fun h hh => by rw [hlive, hH.live_iff h hh], hH.le, freed,
    hfreed.trans heq, hnodup, fun h hh => ?_⟩
  obtain ⟨hge, hlt, hnone⟩ := hdead h hh
  refine ⟨hge, hfresh ▸ hlt, ?_⟩
  rw [← Option.not_isSome_iff_eq_none, hlive, hnone]
  simp

theorem alloc (hH : OwnedSince H₀ H none) (a : α) :
    OwnedSince H₀ (H.alloc a) (some H.fresh) := by
  obtain ⟨freed, heq, hnodup, hdead⟩ := hH.freed
  refine ⟨?_, fun h hh => ?_, fun h hh => Option.some.inj hh ▸ hH.fresh_le, freed, heq, hnodup,
    fun h hh => ?_⟩
  · rw [fresh_alloc]
    exact Nat.le_succ_of_le hH.fresh_le
  · by_cases hk : h = H.fresh
    · subst hk
      simp
    · rw [get_alloc_of_ne hk, hH.live_iff h hh, Option.some.injEq]
      simp [Ne.symm hk]
  · obtain ⟨hge, hlt, hnone⟩ := hdead h hh
    refine ⟨hge, ?_, (get_alloc_of_ne (Nat.ne_of_lt hlt)).trans hnone⟩
    rw [fresh_alloc]
    exact Nat.lt_succ_of_lt hlt

theorem free (hH : OwnedSince H₀ H (some h)) : OwnedSince H₀ (H.free h) none := by
  obtain ⟨freed, heq, hnodup, hdead⟩ := hH.freed
  have hge := hH.le h rfl
  obtain ⟨a, ha⟩ := Option.isSome_iff_exists.mp ((hH.live_iff h hge).mpr rfl)
  have hnew : h ∉ freed := fun hmem => by
    cases ha.symm.trans (hdead h hmem).2.2
  refine ⟨?_, fun k hk => ?_, by simp, h :: freed, ?_, List.nodup_cons.mpr ⟨hnew, hnodup⟩,
    fun k hk => ?_⟩
  · rw [fresh_free]
    exact hH.fresh_le
  · by_cases hkh : k = h
    · subst hkh
      simp
    · rw [get_free_of_ne hkh, hH.live_iff k hk, Option.some.injEq]
      simp [Ne.symm hkh]
  · rw [HandleHeap.free, heq, List.cons_append]
  · rw [fresh_free]
    rcases List.mem_cons.mp hk with rfl | hmem
    · exact ⟨hge, lt_fresh_of_get ha, get_free_self⟩
    · obtain ⟨hge', hlt, hnone⟩ := hdead k hmem
      have hne : k ≠ h := fun hkh => hnew (hkh ▸ hmem)
      exact ⟨hge', hlt, (get_free_of_ne hne).trans hnone⟩

end OwnedSince

end HandleHeap
