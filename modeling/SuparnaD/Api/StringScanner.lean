import SuparnaD.Api.FieldLookup
import SuparnaD.Socket.SessionSteps
import SuparnaD.System.StringMemory

/-!
# The string scanner and the end of the text

`extract_json_string` and `extract_json_value` are one function but for the white space that they
skip after the colon. Their last loop steps over one byte or over two, so backslashes in front of a
quote, or in front of the terminator, decide where it ends. Here the function is followed through
memory, read by read, and compared with the search in C strings.

## Main definitions

* `scanQuoteAt`, `extractAt` : the functions on memory.
* `extractJsonStringAt`, `extractJsonValueAt`.
* `findWith` : what they find.

## Main results

* `extractAt_block` : nothing behind the terminator is read.
* `findWith_escaped` : the value ends at the first quote that is not escaped.
* `findJsonString_eq_findJsonValue` : when the white space makes no difference.
* `scanner_correct`.
-/

namespace SuparnaD

open JsonText

/-! ### The functions on memory -/

/-- The loop that steps to the closing quote, over two bytes at a backslash unless the terminator
follows it. -/
def scanQuoteAt : Pointer → Option Pointer
  | [] => none
  | b :: rest =>
    if b ≠ 0 ∧ b ≠ 34 then
      if b = 92 then
        match rest with
        | [] => none
        | c :: rest' => if c ≠ 0 then scanQuoteAt rest' else scanQuoteAt (c :: rest')
      else scanQuoteAt rest
    else some (b :: rest)

/-- The end of the lookup: the string at a pointer is copied. `alloc` says whether `malloc` grants
the copy. -/
def copyStringAt (alloc : Bool) (start : Pointer) : Option (Option Bytes) := do
  if (← start.head?) ≠ 34 then
    return none
  let start := start.drop 1
  let stop ← scanQuoteAt start
  if (← stop.head?) ≠ 34 then
    return none
  let len := start.length - stop.length
  if !alloc then
    return none
  return some (start.take len)

/-- The lookup of a key. -/
def extractAt (space : UInt8 → Bool) (alloc : Bool) (json : Pointer) (key : Bytes) :
    Option (Option Bytes) := do
  match ← strstrAt (searchKey key) json with
  | none => return none
  | some keyPos =>
    match ← strchrAt 58 keyPos with
    | none => return none
    | some colon => copyStringAt alloc (← skipWhileAt space (colon.drop 1))

def extractJsonStringAt : Bool → Pointer → Bytes → Option (Option Bytes) := extractAt isSpace

def extractJsonValueAt : Bool → Pointer → Bytes → Option (Option Bytes) := extractAt isBlank

/-! ### What they find -/

/-- The string at the start of a text. -/
def quotedString : Bytes → Option Bytes
  | 34 :: rest => scanString rest
  | _ => none

/-- The string behind the first colon at or behind the first place of the quoted key. -/
def findWith (space : UInt8 → Bool) (json key : Bytes) : Option Bytes :=
  (keyColon json key).bind fun colon => quotedString ((colon.drop 1).dropWhile space)

theorem findJsonString_eq_findWith (json key : Bytes) :
    findJsonString json key = findWith isSpace json key := findJsonString_eq_bind json key

theorem findJsonValue_eq_findWith (json key : Bytes) :
    findJsonValue json key = findWith isBlank json key := by
  rw [findJsonValue, findWith, keyColon, Option.bind_assoc]
  rfl

/-! ### No read behind the terminator -/

theorem scanQuoteAt_quote (rest : Pointer) : scanQuoteAt (34 :: rest) = some (34 :: rest) := by
  cases rest <;> rfl

theorem scanQuoteAt_plain {b : UInt8} (hzero : b ≠ 0) (hquote : b ≠ 34) (hbackslash : b ≠ 92)
    (rest : Pointer) : scanQuoteAt (b :: rest) = scanQuoteAt rest := by
  cases rest with
  | nil => simp [scanQuoteAt, hzero, hquote, hbackslash]
  | cons c rest => rw [scanQuoteAt, if_pos ⟨hzero, hquote⟩, if_neg hbackslash]

theorem scanQuoteAt_backslash {c : UInt8} (hzero : c ≠ 0) (rest : Pointer) :
    scanQuoteAt (92 :: c :: rest) = scanQuoteAt rest := by
  rw [scanQuoteAt, if_pos (by simp), if_pos rfl, if_pos hzero]

/-- The loop stops at the quote behind an escaped text. -/
theorem scanQuoteAt_escaped {s : Bytes} (h : Escaped s) (hzero : 0 ∉ s) (rest : Pointer) :
    scanQuoteAt (s ++ 34 :: rest) = some (34 :: rest) := by
  induction h with
  | nil => exact scanQuoteAt_quote rest
  | plain hquote hbackslash _ ih =>
    rw [List.mem_cons, not_or] at hzero
    rw [List.cons_append, scanQuoteAt_plain (Ne.symm hzero.1) hquote hbackslash, ih hzero.2]
  | escape e _ ih =>
    rw [List.mem_cons, List.mem_cons, not_or, not_or] at hzero
    rw [List.cons_append, List.cons_append, scanQuoteAt_backslash (Ne.symm hzero.2.1),
      ih hzero.2.2]

/-- Without a closing quote the loop stops at the terminator. The step over two bytes cannot jump
it, since the byte behind the backslash is looked at first. -/
theorem scanQuoteAt_of_none {s : Bytes} (hzero : 0 ∉ s) (h : scanString s = none) :
    scanQuoteAt (stringBlock s) = some [0] := by
  fun_induction scanString s with
  | case1 => rfl
  | case2 => cases h
  | case3 b hquote =>
    rw [List.mem_singleton] at hzero
    by_cases hbackslash : b = 92
    · rw [hbackslash]
      rfl
    · rw [stringBlock_cons, scanQuoteAt_plain (Ne.symm hzero) hquote hbackslash]
      rfl
  | case4 => cases h
  | case5 c rest _ ih =>
    rw [List.mem_cons, List.mem_cons, not_or, not_or] at hzero
    rw [stringBlock_cons, stringBlock_cons, scanQuoteAt_backslash (Ne.symm hzero.2.1)]
    exact ih hzero.2.2 (Option.map_eq_none_iff.mp h)
  | case6 b c rest hquote hbackslash ih =>
    rw [List.mem_cons, not_or] at hzero
    rw [stringBlock_cons, scanQuoteAt_plain (Ne.symm hzero.1) hquote hbackslash]
    exact ih hzero.2 (Option.map_eq_none_iff.mp h)

theorem quotedString_of_ne {b : UInt8} (h : b ≠ 34) (rest : Bytes) :
    quotedString (b :: rest) = none := by
  rw [quotedString]
  rintro rest' heq
  exact h (List.cons.inj heq).1

theorem copyStringAt_block (alloc : Bool) {start : Bytes} (hzero : 0 ∉ start) :
    copyStringAt alloc (stringBlock start) =
      some (if alloc then quotedString start else none) := by
  cases start with
  | nil =>
    rw [show quotedString [] = none from rfl, ite_self]
    rfl
  | cons b start =>
  rw [List.mem_cons, not_or] at hzero
  by_cases hb : b = 34
  swap
  · rw [quotedString_of_ne hb, ite_self]
    exact if_pos hb
  subst hb
  rw [quotedString, stringBlock_cons, copyStringAt, List.head?_cons, List.drop_one, List.tail_cons]
  dsimp only [Option.bind_eq_bind, Option.bind_some]
  rw [if_neg (not_not.mpr rfl)]
  cases hscan : scanString start with
  | none =>
    rw [scanQuoteAt_of_none hzero.2 hscan, ite_self]
    rfl
  | some v =>
    obtain ⟨hescaped, rest, rfl⟩ := scanString_eq_some_iff.mp hscan
    have hv : 0 ∉ v := fun hmem => hzero.2 (List.mem_append_left _ hmem)
    have hblock : stringBlock (v ++ 34 :: rest) = v ++ 34 :: stringBlock rest :=
      List.append_assoc v (34 :: rest) [0]
    rw [hblock, scanQuoteAt_escaped hescaped hv]
    dsimp only [Option.bind_some, List.head?_cons]
    rw [if_neg (not_not.mpr rfl), List.length_append, Nat.add_sub_cancel, List.take_left]
    cases alloc <;> rfl

theorem zero_notMem_searchKey {key : Bytes} (h : 0 ∉ key) : 0 ∉ searchKey key := by
  intro hmem
  have hmem' := List.mem_of_mem_take hmem
  rw [show ascii "\"" = [34] by decide] at hmem'
  simp [h] at hmem'

/-- On a C string the lookup reads nothing behind the terminator, comes to an end, and returns what
the search finds. -/
theorem extractAt_block (space : UInt8 → Bool) (alloc : Bool) {text key : Bytes} (htext : 0 ∉ text)
    (hkey : 0 ∉ key) :
    extractAt space alloc (stringBlock text) key =
      some (if alloc then findWith space text key else none) := by
  rw [extractAt, strstrAt_block (zero_notMem_searchKey hkey) htext, findWith, keyColon]
  cases hplace : strstr text (searchKey key) with
  | none =>
    rw [Option.bind_none, Option.bind_none, ite_self]
    rfl
  | some keyPos =>
  have hkeyPos : 0 ∉ keyPos := fun hmem => htext ((suffix_of_strstr hplace).subset hmem)
  rw [Option.bind_some]
  dsimp only [Option.map_some, Option.bind_eq_bind, Option.bind_some]
  rw [strchrAt_block (by decide) hkeyPos]
  cases hcolon : strchr keyPos 58 with
  | none =>
    rw [Option.bind_none, ite_self]
    rfl
  | some colon =>
  obtain ⟨u, rest, rfl, rfl, -⟩ := strchr_eq_some_iff.mp hcolon
  have hrest : 0 ∉ rest := fun hmem =>
    hkeyPos (List.mem_append_right u (List.mem_cons_of_mem 58 hmem))
  have hstart : 0 ∉ rest.dropWhile space := fun hmem =>
    hrest ((List.dropWhile_suffix space).subset hmem)
  dsimp only [Option.map_some, Option.bind_some]
  rw [stringBlock_cons, List.drop_one, List.tail_cons, skipWhileAt_block space hrest,
    Option.bind_some, copyStringAt_block alloc hstart, List.drop_one, List.tail_cons]

/-- The handlers see the same value. -/
theorem extractJsonString_eq_at {text key : Bytes} (htext : 0 ∉ text) (hkey : 0 ∉ key)
    (st : ApiState) :
    ∃ v st', extractJsonStringAt st.machine.outcome.alloc (stringBlock text) key = some v ∧
      extractJsonString text key st = some (v, st') := by
  obtain ⟨st', hrun⟩ := exists_extractJsonString text key st
  refine ⟨_, st', extractAt_block isSpace _ htext hkey, ?_⟩
  rw [hrun, findJsonString_eq_findWith]

/-- A session sees the same value. -/
theorem extractJsonValue_eq_at {text key : Bytes} (htext : 0 ∉ text) (hkey : 0 ∉ key)
    (st : SessionState) :
    ∃ v st', extractJsonValueAt (st.machine none).outcome.alloc (stringBlock text) key = some v ∧
      extractJsonValue text key st = some (v, st') := by
  have hrun := SessionState.extractJsonValue_eq text key st
  rw [extractJsonValueAt, extractAt_block isBlank _ htext hkey, ← findJsonValue_eq_findWith]
  cases hfind : findJsonValue text key with
  | none =>
    rw [hfind] at hrun
    exact ⟨none, st, by rw [ite_self], hrun⟩
  | some value =>
    rw [hfind] at hrun
    exact ⟨_, st.allocated, rfl, hrun⟩

/-! ### Where the value ends -/

/-- At its first place the quoted key is followed by a colon, with white space around it that the
lookup skips, and by a quote. The value ends at the next quote that is not escaped. -/
theorem findWith_escaped {space : UInt8 → Bool} {text key p w w' s r : Bytes}
    (hlen : key.length ≤ 253) (hcolon : 58 ∉ key)
    (hplace : FirstPlace text (quoted key) p
      (quoted key ++ (w ++ 58 :: (w' ++ 34 :: (s ++ 34 :: r)))))
    (hw : 58 ∉ w) (hw' : ∀ b ∈ w', space b = true) (hquote : space 34 = false) (hs : Escaped s) :
    findWith space text key = some s := by
  have hkey : searchKey key = quoted key := take_quoted hlen
  have hkeyColon : 58 ∉ quoted key := by
    simpa [quoted] using hcolon
  rw [findWith, keyColon, hkey, strstr_eq_some_iff.mpr ⟨p, hplace⟩, Option.bind_some,
    strchr_skip hkeyColon, strchr_skip hw, strchr_cons_self, Option.bind_some, List.drop_one,
    List.tail_cons, List.dropWhile_append_of_pos hw',
    List.dropWhile_cons_of_neg (by simp [hquote])]
  exact scanString_escaped hs r

/-! ### Two kinds of white space -/

theorem isSpace_of_isBlank_eq {b : UInt8} (h : isBlank b = true) : isSpace b = true := by
  rw [isBlank, Bool.or_eq_true, decide_eq_true_eq, decide_eq_true_eq] at h
  rcases h with rfl | rfl <;> rfl

/-- A skip over more kinds of elements ends at the same place when only the common ones occur. -/
theorem dropWhile_eq_of_takeWhile {α : Type} {f g : α → Bool} (hfg : ∀ a, g a = true → f a = true)
    {l : List α} (h : ∀ a ∈ l.takeWhile f, g a = true) : l.dropWhile f = l.dropWhile g := by
  induction l with
  | nil => rfl
  | cons a l ih =>
    by_cases hf : f a = true
    · rw [List.takeWhile_cons_of_pos hf, List.forall_mem_cons] at h
      rw [List.dropWhile_cons_of_pos hf, List.dropWhile_cons_of_pos h.1, ih h.2]
    · rw [List.dropWhile_cons_of_neg hf, List.dropWhile_cons_of_neg (mt (hfg a) hf)]

/-- Where the white space behind the colon is blanks only, both functions find the same. -/
theorem findWith_eq_of_blank {text key : Bytes}
    (h : ∀ colon, keyColon text key = some colon →
      ∀ b ∈ (colon.drop 1).takeWhile isSpace, isBlank b = true) :
    findWith isSpace text key = findWith isBlank text key := by
  rw [findWith, findWith]
  cases hcolon : keyColon text key with
  | none => rfl
  | some colon =>
    rw [Option.bind_some, Option.bind_some,
      dropWhile_eq_of_takeWhile (fun _ => isSpace_of_isBlank_eq) (h colon hcolon)]

/-! ### The whole -/

/-- A key as the callers use it: a C string that fits into its buffer, without a colon. -/
structure LookupKey (key : Bytes) : Prop where
  length_le : key.length ≤ 253
  colon : 58 ∉ key
  zero : 0 ∉ key

/-- On every C string both functions come to an end within its block. Where the first place of the
quoted key is followed by a colon, with blanks around it, and by an escaped text in quotes, both
return this text. They return the same wherever the white space behind the colon is blanks only. -/
theorem scanner_correct {key : Bytes} (hkey : LookupKey key) (alloc : Bool) :
    (∀ text, 0 ∉ text → (extractJsonStringAt alloc (stringBlock text) key).isSome ∧
      (extractJsonValueAt alloc (stringBlock text) key).isSome) ∧
    (∀ text p w w' s r, 0 ∉ text →
      text = p ++ (quoted key ++ (w ++ 58 :: (w' ++ 34 :: (s ++ 34 :: r)))) →
      (∀ u v, text = u ++ (quoted key ++ v) → p.length ≤ u.length) →
      (∀ b ∈ w, isBlank b = true) → (∀ b ∈ w', isBlank b = true) → Escaped s →
        extractJsonStringAt true (stringBlock text) key = some (some s) ∧
          extractJsonValueAt true (stringBlock text) key = some (some s)) ∧
    ∀ text, 0 ∉ text → (∀ colon, keyColon text key = some colon →
      ∀ b ∈ (colon.drop 1).takeWhile isSpace, isBlank b = true) →
        extractJsonStringAt alloc (stringBlock text) key =
          extractJsonValueAt alloc (stringBlock text) key := by
  refine ⟨fun text htext => ?_, ?_, fun text htext hblank => ?_⟩
  · rw [extractJsonStringAt, extractJsonValueAt, extractAt_block _ _ htext hkey.zero,
      extractAt_block _ _ htext hkey.zero]
    exact ⟨rfl, rfl⟩
  · intro text p w w' s r htext heq hfirst hw hw' hs
    have hplace : FirstPlace text (quoted key) p
        (quoted key ++ (w ++ 58 :: (w' ++ 34 :: (s ++ 34 :: r)))) := by
      refine ⟨heq, List.prefix_append _ _, fun u p' hu hp' => ?_⟩
      obtain ⟨v, rfl⟩ := hp'
      exact hfirst u v hu
    have hcolon : 58 ∉ w := fun hmem => absurd (hw 58 hmem) (by decide)
    have hspace : ∀ b ∈ w', isSpace b = true := fun b hb => isSpace_of_isBlank_eq (hw' b hb)
    have hfind := findWith_escaped hkey.length_le hkey.colon hplace hcolon hspace rfl hs
    have hfind' := findWith_escaped hkey.length_le hkey.colon hplace hcolon hw' rfl hs
    rw [extractJsonStringAt, extractJsonValueAt, extractAt_block _ _ htext hkey.zero,
      extractAt_block _ _ htext hkey.zero, hfind, hfind']
    exact ⟨rfl, rfl⟩
  · rw [extractJsonStringAt, extractJsonValueAt, extractAt_block _ _ htext hkey.zero,
      extractAt_block _ _ htext hkey.zero, findWith_eq_of_blank hblank]

/-- A text whose value ends with an escaped quote and an escaped backslash. -/
def sampleText : Bytes :=
  [123] ++ (quoted (ascii "data") ++
    ([32] ++ 58 :: ([9] ++ 34 :: ([97, 92, 34, 92, 92] ++ 34 :: [125]))))

theorem scanner_correct_sample :
    extractJsonStringAt true (stringBlock sampleText) (ascii "data") =
        some (some [97, 92, 34, 92, 92]) ∧
      extractJsonValueAt true (stringBlock sampleText) (ascii "data") =
        some (some [97, 92, 34, 92, 92]) := by
  have hkey : LookupKey (ascii "data") := ⟨by decide, by decide, by decide⟩
  have hescaped : Escaped [97, 92, 34, 92, 92] :=
    .plain (by decide) (by decide) (.escape 34 (.escape 92 .nil))
  refine (scanner_correct hkey true).2.1 sampleText [123] [32] [9] [97, 92, 34, 92, 92] [125]
    (by decide) rfl (fun u v h => ?_) (by simp [isBlank]) (by simp [isBlank]) hescaped
  cases u with
  | nil => cases (List.cons.inj h).1
  | cons b u => exact Nat.succ_le_succ (Nat.zero_le _)

end SuparnaD
