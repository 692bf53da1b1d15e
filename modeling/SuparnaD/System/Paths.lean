import Mathlib.Data.List.Infix
import SuparnaD.System.Environment

/-!
# The spelling of paths

A path is resolved by following its parts, which are separated by slashes, one after the other.
Following a path that does not climb leads from the same place to the same place whatever lies
above.

## Main definitions

* `dotDot`, `walk`.

## Main results

* `walk_append_slash` : a path is followed up to a slash and on from there.
* `tail_pushPart_suffix` : one part leads no further down than one step.
* `walk_append` : a path that does not climb leaves what lies above as it is.
-/

namespace SuparnaD

/-- The part that leads up. -/
def dotDot : Bytes := ascii ".."

/-- The parts that are reached from the given ones along a path. Parts are listed from the last to
the first. -/
def walk (absolute : Bool) (parts : List Bytes) (path : Bytes) : List Bytes :=
  (path.splitOn 47).foldl (pushPart absolute) parts

variable {absolute : Bool} {parts base : List Bytes} {part path : Bytes}

theorem resolve_eq (path : Bytes) : resolve path = ⟨startsWith (ascii "/") path,
    (walk (startsWith (ascii "/") path) [] path).reverse⟩ := rfl

/-! ### Slashes -/

theorem walk_append_slash (absolute : Bool) (parts : List Bytes) (u v : Bytes) :
    walk absolute parts (u ++ 47 :: v) = walk absolute (walk absolute parts u) v := by
  rw [walk, List.splitOn_append_cons_self, List.foldl_append, walk, walk]

theorem walk_of_not_mem (h : 47 ∉ path) :
    walk absolute parts path = pushPart absolute parts path := by
  rw [walk, List.splitOn_eq_singleton h]
  rfl

/-- Whether a path is absolute is seen from its start. -/
theorem startsWith_slash_append {u : Bytes} (hu : u ≠ []) (v : Bytes) :
    startsWith (ascii "/") (u ++ v) = startsWith (ascii "/") u := by
  cases u with
  | nil => exact absurd rfl hu
  | cons b u =>
    change ((47 : UInt8) == b && List.isPrefixOf [] (u ++ v)) =
      ((47 : UInt8) == b && List.isPrefixOf [] u)
    rw [List.isPrefixOf_nil_left, List.isPrefixOf_nil_left]

/-- The end of a path after its last slash. -/
theorem exists_last_slash (h : 47 ∈ path) : ∃ u v, path = u ++ 47 :: v ∧ 47 ∉ v := by
  obtain ⟨v, u, hsplit, hv⟩ := List.eq_append_cons_of_mem (List.mem_reverse.mpr h)
  refine ⟨u.reverse, v.reverse, ?_, fun hmem => hv (List.mem_reverse.mp hmem)⟩
  rw [← List.reverse_reverse path, hsplit, List.reverse_append, List.reverse_cons,
    List.append_assoc, List.singleton_append]

/-! ### Single parts -/

theorem pushPart_stay (h : part = [] ∨ part = ascii ".") :
    pushPart absolute parts part = parts := by
  rw [pushPart.eq_def, if_pos h]

theorem pushPart_up_cons (absolute : Bool) (last : Bytes) (rest : List Bytes) :
    pushPart absolute (last :: rest) dotDot =
      if last = dotDot then dotDot :: last :: rest else rest := rfl

theorem pushPart_down (hstay : ¬ (part = [] ∨ part = ascii ".")) (hup : part ≠ dotDot) :
    pushPart absolute parts part = part :: parts := by
  rw [pushPart.eq_def, if_neg hstay]
  exact if_neg hup

/-- A part leads down by one step at most. -/
theorem tail_pushPart_suffix (absolute : Bool) (parts : List Bytes) (part : Bytes) :
    (pushPart absolute parts part).tail <:+ parts := by
  by_cases hstay : part = [] ∨ part = ascii "."
  · rw [pushPart_stay hstay]
    exact List.tail_suffix parts
  by_cases hup : part = dotDot
  swap
  · rw [pushPart_down hstay hup]
    exact List.suffix_refl parts
  subst hup
  cases parts with
  | nil => cases absolute <;> exact List.suffix_refl []
  | cons last rest =>
    rw [pushPart_up_cons]
    split_ifs
    · exact List.suffix_refl _
    · exact (List.tail_suffix rest).trans (List.suffix_cons last rest)

/-- Once a path has climbed out, it stays out. -/
theorem dotDot_mem_pushPart (h : dotDot ∈ parts) : dotDot ∈ pushPart absolute parts part := by
  by_cases hstay : part = [] ∨ part = ascii "."
  · rwa [pushPart_stay hstay]
  by_cases hup : part = dotDot
  swap
  · rw [pushPart_down hstay hup]
    exact List.mem_cons_of_mem _ h
  subst hup
  cases parts with
  | nil => cases h
  | cons last rest =>
    rw [pushPart_up_cons]
    split_ifs with hlast
    · exact List.mem_cons_self
    · exact (List.mem_cons.mp h).resolve_left fun heq => hlast heq.symm

/-- A part that does not climb leaves what lies above as it is. -/
theorem pushPart_append (h : dotDot ∉ pushPart false parts part) :
    pushPart absolute (parts ++ base) part = pushPart false parts part ++ base := by
  by_cases hstay : part = [] ∨ part = ascii "."
  · rw [pushPart_stay hstay, pushPart_stay hstay]
  by_cases hup : part = dotDot
  swap
  · rw [pushPart_down hstay hup, pushPart_down hstay hup, List.cons_append]
  subst hup
  cases parts with
  | nil => exact absurd List.mem_cons_self h
  | cons last rest =>
    rw [pushPart_up_cons] at h
    rw [List.cons_append, pushPart_up_cons, pushPart_up_cons]
    split_ifs with hlast
    · rw [if_pos hlast] at h
      exact absurd List.mem_cons_self h
    · rfl

/-! ### Paths that do not climb -/

theorem dotDot_mem_foldl {ps : List Bytes} (h : dotDot ∈ parts) :
    dotDot ∈ ps.foldl (pushPart absolute) parts := by
  induction ps generalizing parts with
  | nil => exact h
  | cons p ps ih => exact ih (dotDot_mem_pushPart h)

theorem foldl_pushPart_append {ps : List Bytes}
    (h : dotDot ∉ ps.foldl (pushPart false) parts) :
    ps.foldl (pushPart absolute) (parts ++ base) = ps.foldl (pushPart false) parts ++ base := by
  induction ps generalizing parts with
  | nil => rfl
  | cons p ps ih =>
    rw [List.foldl_cons] at h ⊢
    rw [List.foldl_cons, pushPart_append fun hp => h (dotDot_mem_foldl hp)]
    exact ih h

theorem walk_append (h : dotDot ∉ walk false parts path) :
    walk absolute (parts ++ base) path = walk false parts path ++ base := by
  rw [walk] at h ⊢
  rw [walk]
  exact foldl_pushPart_append h

end SuparnaD
