import Mathlib.Data.List.Basic

/-!
# Cutting a stream into pieces

A stream reaches its reader in pieces of a bounded length, and the reader has no influence on where
the stream is cut. Two cuts of one stream differ at will around a single stretch of it, which is
enough to tell a reader that depends on the cuts from one that does not.

## Main definitions

* `IsCut` : pieces that make up a stream.
* `singletons`, `focus` : the finest cut, and the cut with one longer piece.
* `Apart` : elements of one kind do not closely follow elements of another kind.

## Main results

* `isCut_singletons`, `isCut_focus`.
* `Apart.pairwise` : what `Apart` says of one piece.
-/

variable {β : Type*}

/-- The pieces make up the stream, and each of them has at least one element and at most `n`. -/
structure IsCut (n : ℕ) (pieces : List (List β)) (stream : List β) : Prop where
  flatten : pieces.flatten = stream
  nonempty : ∀ p ∈ pieces, p ≠ []
  length_le : ∀ p ∈ pieces, p.length ≤ n

/-- The finest cut. -/
def singletons (stream : List β) : List (List β) := stream.map fun b => [b]

/-- The cut with one longer piece. -/
def focus (before piece after : List β) : List (List β) :=
  singletons before ++ piece :: singletons after

/-- No element with `Q` comes less than `n` places after an element with `P`. -/
def Apart (n : ℕ) (P Q : β → Prop) (stream : List β) : Prop :=
  ∀ k i a b, k < i → i < k + n → stream[k]? = some a → stream[i]? = some b → P a → ¬ Q b

section

variable {n : ℕ} {p stream stream' : List β} {pieces : List (List β)} {P Q : β → Prop}

@[simp] theorem singletons_cons (b : β) (stream : List β) :
    singletons (b :: stream) = [b] :: singletons stream := rfl

theorem flatten_singletons (stream : List β) : (singletons stream).flatten = stream := by
  induction stream with
  | nil => rfl
  | cons b stream ih => rw [singletons_cons, List.flatten_cons, ih, List.singleton_append]

theorem eq_singleton_of_mem (h : p ∈ singletons stream) : ∃ b, p = [b] := by
  obtain ⟨b, -, rfl⟩ := List.mem_map.mp h
  exact ⟨b, rfl⟩

theorem isCut_singletons (hn : 0 < n) (stream : List β) :
    IsCut n (singletons stream) stream := by
  refine ⟨flatten_singletons stream, fun p hp => ?_, fun p hp => ?_⟩ <;>
    obtain ⟨b, rfl⟩ := eq_singleton_of_mem hp
  · exact List.cons_ne_nil b []
  · exact hn

theorem isCut_focus (before : List β) (hne : p ≠ []) (hlen : p.length ≤ n) (after : List β) :
    IsCut n (focus before p after) (before ++ p ++ after) := by
  have hn : 0 < n := Nat.lt_of_lt_of_le (List.length_pos_iff.mpr hne) hlen
  have hsingle := isCut_singletons (β := β) hn
  refine ⟨?_, fun q hq => ?_, fun q hq => ?_⟩
  · rw [focus, List.flatten_append, List.flatten_cons, flatten_singletons, flatten_singletons,
      List.append_assoc]
  all_goals rcases List.mem_append.mp hq with hq | hq
  · exact (hsingle before).nonempty q hq
  · rcases List.mem_cons.mp hq with rfl | hq
    · exact hne
    · exact (hsingle after).nonempty q hq
  · exact (hsingle before).length_le q hq
  · rcases List.mem_cons.mp hq with rfl | hq
    · exact hlen
    · exact (hsingle after).length_le q hq

theorem IsCut.tail (h : IsCut n (p :: pieces) stream) :
    stream = p ++ pieces.flatten ∧ p.length ≤ n ∧ IsCut n pieces pieces.flatten :=
  ⟨h.flatten.symm, h.length_le p List.mem_cons_self, rfl,
    fun q hq => h.nonempty q (List.mem_cons_of_mem p hq),
    fun q hq => h.length_le q (List.mem_cons_of_mem p hq)⟩

theorem Apart.left (h : Apart n P Q (stream ++ stream')) : Apart n P Q stream := by
  intro k i a b hlt hnear hk hi
  have hk' := (List.getElem?_eq_some_iff.mp hk).1
  have hi' := (List.getElem?_eq_some_iff.mp hi).1
  refine h k i a b hlt hnear ?_ ?_
  · rwa [List.getElem?_append_left hk']
  · rwa [List.getElem?_append_left hi']

theorem Apart.right (h : Apart n P Q (stream ++ stream')) : Apart n P Q stream' := by
  intro k i a b hlt hnear hk hi
  refine h (stream.length + k) (stream.length + i) a b (by omega) (by omega) ?_ ?_
  · rwa [List.getElem?_append_right (Nat.le_add_right _ _), Nat.add_sub_cancel_left]
  · rwa [List.getElem?_append_right (Nat.le_add_right _ _), Nat.add_sub_cancel_left]

/-- In one piece no element with `Q` comes after an element with `P`. -/
theorem Apart.pairwise (h : Apart n P Q p) (hlen : p.length ≤ n) :
    p.Pairwise fun a b => P a → ¬ Q b := by
  refine List.pairwise_iff_getElem.mpr fun k i hk hi hlt => ?_
  exact h k i _ _ hlt (by omega) (List.getElem?_eq_getElem hk) (List.getElem?_eq_getElem hi)

/-- An element with `Q` that closely follows an element with `P` fits with it into one piece. -/
theorem exists_piece_of_not_apart (h : ¬ Apart n P Q stream) :
    ∃ before a middle b after, stream = before ++ (a :: middle ++ [b]) ++ after ∧
      (a :: middle ++ [b]).length ≤ n ∧ P a ∧ Q b := by
  simp only [Apart, not_forall, not_not] at h
  obtain ⟨k, i, a, b, hlt, hnear, hk, hi, hP, hQ⟩ := h
  obtain ⟨hklen, rfl⟩ := List.getElem?_eq_some_iff.mp hk
  obtain ⟨hilen, rfl⟩ := List.getElem?_eq_some_iff.mp hi
  refine ⟨stream.take k, stream[k], (stream.drop (k + 1)).take (i - (k + 1)), stream[i],
    stream.drop (i + 1), ?_, ?_, hP, hQ⟩
  · have hmiddle : stream.drop (k + 1) =
        (stream.drop (k + 1)).take (i - (k + 1)) ++ stream[i] :: stream.drop (i + 1) := by
      rw [← List.drop_eq_getElem_cons hilen]
      calc stream.drop (k + 1)
        _ = (stream.drop (k + 1)).take (i - (k + 1)) ++
              (stream.drop (k + 1)).drop (i - (k + 1)) := (List.take_append_drop ..).symm
        _ = _ := by rw [List.drop_drop, Nat.add_sub_cancel' hlt]
    calc stream
      _ = stream.take k ++ stream.drop k := (List.take_append_drop k stream).symm
      _ = stream.take k ++ stream[k] :: stream.drop (k + 1) := by
        rw [List.drop_eq_getElem_cons hklen]
      _ = _ := by
        nth_rewrite 1 [hmiddle]
        simp only [List.append_assoc, List.cons_append, List.nil_append]
  · simp only [List.length_append, List.length_cons, List.length_take, List.length_drop,
      List.length_nil]
    omega

end
