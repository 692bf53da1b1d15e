import Mathlib.Data.Multiset.UnionInter
import SuparnaD.Foundation.HandleHeap

/-!
# The live objects of a heap

The live objects of a heap, each with its handle, as a multiset. Allocating adds one, overwriting
replaces one and freeing takes one away, whatever else is live.

## Main definitions

* `HandleHeap.live`.

## Main results

* `HandleHeap.mem_live`, `HandleHeap.nodup_live`.
* `HandleHeap.live_alloc`, `HandleHeap.live_set`, `HandleHeap.live_free`.
-/

namespace HandleHeap

variable {α : Type*}

/-- The live objects with their handles. -/
def live (H : HandleHeap α) : Multiset (ℕ × α) :=
  ((List.range H.fresh).filterMap fun h => (H.get h).map (Prod.mk h) : List (ℕ × α))

variable {H : HandleHeap α} {h : ℕ} {a b : α} {F : Multiset (ℕ × α)}

theorem mem_live : (h, a) ∈ H.live ↔ H.get h = some a := by
  simp only [live, Multiset.mem_coe, List.mem_filterMap, List.mem_range, Option.map_eq_some_iff,
    Prod.mk.injEq]
  constructor
  · rintro ⟨k, -, b, hget, rfl, rfl⟩
    exact hget
  · intro hget
    exact ⟨h, lt_fresh_of_get hget, a, hget, rfl, rfl⟩

theorem nodup_live : H.live.Nodup := by
  rw [live, Multiset.coe_nodup]
  refine List.Nodup.filterMap (fun k k' x hk hk' => ?_) List.nodup_range
  obtain ⟨_, -, rfl⟩ := Option.map_eq_some_iff.mp hk
  obtain ⟨_, -, heq⟩ := Option.map_eq_some_iff.mp hk'
  exact (congrArg Prod.fst heq).symm

theorem get_of_live (hlive : H.live = {(h, a)} + F) : H.get h = some a := by
  rw [← mem_live, hlive]
  exact Multiset.mem_add.mpr (.inl (Multiset.mem_singleton_self _))

/-- Two live objects have different handles. -/
theorem notMem_of_live (hlive : H.live = {(h, a)} + F) (b : α) : (h, b) ∉ F := by
  intro hmem
  have hget : H.get h = some b := by
    rw [← mem_live, hlive]
    exact Multiset.mem_add.mpr (.inr hmem)
  obtain rfl := Option.some.inj ((get_of_live hlive).symm.trans hget)
  have hnodup := hlive ▸ H.nodup_live
  rw [Multiset.singleton_add, Multiset.nodup_cons] at hnodup
  exact hnodup.1 hmem

theorem nodup_of_live (hlive : H.live = {(h, a)} + F) : F.Nodup := by
  have hnodup := hlive ▸ H.nodup_live
  rw [Multiset.singleton_add, Multiset.nodup_cons] at hnodup
  exact hnodup.2

/-- The other live objects are those of the other handles. -/
theorem mem_of_live (hlive : H.live = {(h, a)} + F) {k : ℕ} (hne : k ≠ h) :
    (k, b) ∈ F ↔ H.get k = some b := by
  rw [← mem_live, hlive, Multiset.mem_add, Multiset.mem_singleton, Prod.mk.injEq]
  simp only [hne, false_and, false_or]

theorem live_alloc (H : HandleHeap α) (a : α) : (H.alloc a).live = {(H.fresh, a)} + H.live := by
  have hnew : ∀ b, (H.fresh, b) ∉ H.live := fun b hmem =>
    Nat.lt_irrefl _ (lt_fresh_of_get (mem_live.mp hmem))
  refine (Multiset.Nodup.ext nodup_live ?_).mpr fun ⟨k, b⟩ => ?_
  · rw [Multiset.singleton_add, Multiset.nodup_cons]
    exact ⟨hnew a, nodup_live⟩
  · rw [mem_live, Multiset.mem_add, Multiset.mem_singleton, Prod.mk.injEq]
    by_cases hk : k = H.fresh
    · subst hk
      simp only [get_alloc_self, Option.some.injEq, true_and, hnew b, or_false, eq_comm]
    · rw [get_alloc_of_ne hk]
      simp only [hk, false_and, false_or, mem_live]

/-- Overwriting a live object. -/
theorem live_set (hlive : H.live = {(h, a)} + F) (b : α) : (H.set h b).live = {(h, b)} + F := by
  refine (Multiset.Nodup.ext nodup_live ?_).mpr fun ⟨k, c⟩ => ?_
  · rw [Multiset.singleton_add, Multiset.nodup_cons]
    exact ⟨notMem_of_live hlive b, nodup_of_live hlive⟩
  · rw [mem_live, Multiset.mem_add, Multiset.mem_singleton, Prod.mk.injEq]
    by_cases hk : k = h
    · subst hk
      rw [get_set_self (get_of_live hlive)]
      simp only [Option.some.injEq, true_and, notMem_of_live hlive, or_false, eq_comm]
    · rw [get_set_of_ne hk, mem_of_live hlive hk]
      simp only [hk, false_and, false_or]

/-- Freeing a live object. -/
theorem live_free (hlive : H.live = {(h, a)} + F) : (H.free h).live = F := by
  refine (Multiset.Nodup.ext nodup_live (nodup_of_live hlive)).mpr fun ⟨k, b⟩ => ?_
  rw [mem_live]
  by_cases hk : k = h
  · subst hk
    rw [get_free_self]
    simp only [reduceCtorEq, notMem_of_live hlive]
  · rw [get_free_of_ne hk, mem_of_live hlive hk]

/-- A live object beside the others. -/
theorem live_eq_of_get (hget : H.get h = some a) : H.live = {(h, a)} + (H.free h).live := by
  obtain ⟨F, hF⟩ := Multiset.exists_cons_of_mem (mem_live.mpr hget)
  rw [← Multiset.singleton_add] at hF
  rw [live_free hF, hF]

end HandleHeap
