import SuparnaD.System.Bytes

/-!
# C strings in memory

A pointer into a block of memory stands for the part of the block from it to the end. A function
that reads through a pointer has the value `none` when it leaves the block. A C string in a block
that ends with its terminator is read as far as the terminator and no further exactly when the value
is not `none`.

The functions of `string.h` read a string byte by byte, up to what they look for or to the
terminator. What they find is what the searches in C strings find.

## Main definitions

* `Pointer`, `stringBlock`.
* `skipWhileAt`, `strchrAt`, `strstrAt`.

## Main results

* `skipWhileAt_block`, `strchrAt_block`, `strstrAt_block`.
-/

namespace SuparnaD

/-- A pointer: what its block holds from it on. -/
abbrev Pointer : Type := Bytes

/-- The block of a C string: its text and the terminator. -/
def stringBlock (text : Bytes) : Pointer := text ++ [0]

/-- The loop `while (*p && f(*p)) p++`. -/
def skipWhileAt (f : UInt8 → Bool) : Pointer → Option Pointer
  | [] => none
  | b :: rest => if b ≠ 0 ∧ f b = true then skipWhileAt f rest else some (b :: rest)

/-- `strchr`. The inner `none` is the null pointer. -/
def strchrAt (c : UInt8) : Pointer → Option (Option Pointer)
  | [] => none
  | b :: rest => if b = c then some (some (b :: rest))
    else if b = 0 then some none
    else strchrAt c rest

/-- Compare a word with what the pointer points to, up to the first difference. -/
def startsWithAt : Bytes → Pointer → Option Bool
  | [], _ => some true
  | _ :: _, [] => none
  | a :: word, b :: rest => if a = b then startsWithAt word rest else some false

/-- `strstr`. The inner `none` is the null pointer. -/
def strstrAt (word : Bytes) : Pointer → Option (Option Pointer)
  | [] => (startsWithAt word []).map fun _ => some []
  | b :: rest =>
    match startsWithAt word (b :: rest) with
    | none => none
    | some true => some (some (b :: rest))
    | some false => if b = 0 then some none else strstrAt word rest

variable {text word : Bytes}

@[simp] theorem stringBlock_nil : stringBlock [] = [0] := rfl

@[simp] theorem stringBlock_cons (b : UInt8) (text : Bytes) :
    stringBlock (b :: text) = b :: stringBlock text := rfl

theorem skipWhileAt_block (f : UInt8 → Bool) (h : 0 ∉ text) :
    skipWhileAt f (stringBlock text) = some (stringBlock (text.dropWhile f)) := by
  induction text with
  | nil => rfl
  | cons b text ih =>
    rw [List.mem_cons, not_or] at h
    rw [stringBlock_cons, skipWhileAt, List.dropWhile_cons]
    by_cases hb : f b = true
    · rw [if_pos ⟨Ne.symm h.1, hb⟩, if_pos hb, ih h.2]
    · rw [if_neg fun hboth => hb hboth.2, if_neg hb, stringBlock_cons]

theorem startsWithAt_block (h : 0 ∉ word) :
    startsWithAt word (stringBlock text) = some (startsWith word text) := by
  induction text generalizing word with
  | nil =>
    cases word with
    | nil => rfl
    | cons a word =>
      rw [List.mem_cons, not_or] at h
      rw [stringBlock_nil, startsWithAt, if_neg (Ne.symm h.1)]
      rfl
  | cons b text ih =>
    cases word with
    | nil => rfl
    | cons a word =>
      rw [List.mem_cons, not_or] at h
      rw [stringBlock_cons, startsWithAt, startsWith, List.isPrefixOf_cons_cons]
      by_cases hab : a = b
      · rw [if_pos hab, ih h.2, hab, beq_self_eq_true, Bool.true_and, startsWith]
      · rw [if_neg hab, beq_false_of_ne hab, Bool.false_and]

theorem strstrAt_block (hword : 0 ∉ word) (h : 0 ∉ text) :
    strstrAt word (stringBlock text) = some ((strstr text word).map stringBlock) := by
  induction text with
  | nil =>
    have hstart : startsWithAt word (stringBlock []) = some (startsWith word []) :=
      startsWithAt_block hword
    rw [stringBlock_nil] at hstart
    rw [stringBlock_nil, strstrAt, hstart, strstr]
    cases startsWith word [] <;> rfl
  | cons b text ih =>
    rw [List.mem_cons, not_or] at h
    have hstart : startsWithAt word (stringBlock (b :: text)) = some (startsWith word (b :: text)) :=
      startsWithAt_block hword
    rw [stringBlock_cons] at hstart
    rw [stringBlock_cons, strstrAt, hstart, strstr]
    cases startsWith word (b :: text) with
    | true => rfl
    | false => exact (if_neg (Ne.symm h.1)).trans (ih h.2)

theorem strchrAt_block {c : UInt8} (hc : c ≠ 0) (h : 0 ∉ text) :
    strchrAt c (stringBlock text) = some ((strchr text c).map stringBlock) := by
  induction text with
  | nil => exact if_neg hc.symm
  | cons b text ih =>
    rw [List.mem_cons, not_or] at h
    rw [stringBlock_cons, strchrAt, strchr, strstr, startsWith, List.isPrefixOf_cons_cons,
      List.isPrefixOf_nil_left, Bool.and_true]
    by_cases hbc : b = c
    · rw [if_pos hbc, hbc, beq_self_eq_true, if_pos rfl]
      rfl
    · rw [if_neg hbc, if_neg (Ne.symm h.1), ih h.2, beq_false_of_ne (Ne.symm hbc),
        if_neg Bool.false_ne_true]
      rfl

end SuparnaD
