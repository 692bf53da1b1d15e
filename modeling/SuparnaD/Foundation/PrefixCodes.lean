import SuparnaD.Foundation.LengthFraming

/-!
# Prefix codes

A code gives every symbol a word. If no word is empty and none begins another, then a concatenation
of words, written without anything between them, can be taken apart in one way only.

Words that end with a terminator form such a code, and so do the frames of a format. Two codes can
be used side by side if the first elements of their words differ.

## Main definitions

* `IsPrefixCode`.

## Main results

* `IsPrefixCode.flatMap_injective` : a concatenation of words determines the symbols.
* `isPrefixCode_terminated`, `FrameFormat.isPrefixCode_frame`, `IsPrefixCode.sumElim`.
-/

variable {ι κ β : Type*}

/-- No word is empty, and none begins another. -/
structure IsPrefixCode (word : ι → List β) : Prop where
  ne_nil : ∀ i, word i ≠ []
  eq_of_begins : ∀ i j, word i <+: word j → i = j

namespace IsPrefixCode

variable {word : ι → List β}

/-- Of two words at the start of one list, the shorter one begins the longer one. -/
theorem eq_of_append_eq (h : IsPrefixCode word) {i j : ι} {s t : List β}
    (heq : word i ++ s = word j ++ t) : i = j := by
  have hi : word i <+: word j ++ t := heq ▸ List.prefix_append _ _
  have hj : word j <+: word j ++ t := List.prefix_append _ _
  rcases Nat.le_total (word i).length (word j).length with hle | hle
  · exact h.eq_of_begins i j (List.prefix_of_prefix_length_le hi hj hle)
  · exact (h.eq_of_begins j i (List.prefix_of_prefix_length_le hj hi hle)).symm

/-- A concatenation of words determines the symbols. -/
theorem flatMap_injective (h : IsPrefixCode word) :
    Function.Injective fun is : List ι => is.flatMap word := by
  intro is
  -- The first symbols of both sequences agree, and what is left after their words agrees too.
  induction is with
  | nil =>
    intro js heq
    cases js with
    | nil => rfl
    | cons j js => exact absurd (List.append_eq_nil_iff.mp heq.symm).1 (h.ne_nil j)
  | cons i is ih =>
    intro js heq
    cases js with
    | nil => exact absurd (List.append_eq_nil_iff.mp heq).1 (h.ne_nil i)
    | cons j js =>
      have heq' : word i ++ is.flatMap word = word j ++ js.flatMap word := heq
      obtain rfl := h.eq_of_append_eq heq'
      rw [ih (List.append_cancel_left heq')]

/-- Two codes side by side. The first element of a word says to which of them it belongs. -/
theorem sumElim {word' : κ → List β} (h : IsPrefixCode word) (h' : IsPrefixCode word')
    (hhead : ∀ i j, (word i).head? ≠ (word' j).head?) : IsPrefixCode (Sum.elim word word') := by
  have hboth {i : ι} {j : κ} {u : List β} (hi : word i <+: u) (hj : word' j <+: u) : False := by
    obtain ⟨s, rfl⟩ := hi
    obtain ⟨t, heq⟩ := hj
    refine hhead i j ?_
    rw [← List.head?_append_of_ne_nil _ (h.ne_nil i), ← heq,
      List.head?_append_of_ne_nil _ (h'.ne_nil j)]
  refine ⟨?_, ?_⟩
  · rintro (i | j)
    · exact h.ne_nil i
    · exact h'.ne_nil j
  · rintro (i | j) (i' | j') hbegins
    · rw [h.eq_of_begins i i' hbegins]
    · exact (hboth hbegins List.prefix_rfl).elim
    · exact (hboth List.prefix_rfl hbegins).elim
    · rw [h'.eq_of_begins j j' hbegins]

end IsPrefixCode

/-- Different texts with a terminator that stands in none of them. -/
theorem isPrefixCode_terminated {text : ι → List β} (hinj : Function.Injective text) {stop : β}
    (hstop : ∀ i, stop ∉ text i) : IsPrefixCode fun i => text i ++ [stop] := by
  refine ⟨fun i => by simp, fun i j hbegins => ?_⟩
  obtain ⟨rest, heq⟩ := hbegins
  rw [List.append_assoc, List.singleton_append] at heq
  have hsame := (List.append_cons_inj_of_notMem (hstop j) List.not_mem_nil).mp heq.symm
  exact hinj hsame.1.symm

/-- The frames of a format. -/
theorem FrameFormat.isPrefixCode_frame (F : FrameFormat β) (hlen : 0 < F.headerLen) :
    IsPrefixCode fun d : { d // F.Valid d } => F.frame d.1 := by
  refine ⟨fun d hnil => ?_, fun d e hbegins => ?_⟩
  · have hzero := F.length_frame d.1
    rw [hnil, List.length_nil] at hzero
    omega
  · obtain ⟨rest, heq⟩ := hbegins
    have hd := parseAt_append d.2 [] rest
    have he := parseAt_append e.2 [] []
    rw [List.nil_append] at hd he
    rw [heq] at hd
    rw [List.append_nil] at he
    exact Subtype.ext (Option.some.inj (hd.symm.trans he))
