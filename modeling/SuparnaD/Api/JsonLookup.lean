import SuparnaD.Api.Request
import SuparnaD.Foundation.JsonText

/-!
# Looking up a string in a JSON object

What `extract_json_string` finds in the text of an object. It looks for the quoted key as a sequence
of bytes, so it also finds it where a value ends with it, and it takes the text between the quotes
after the next colon as it is written.

## Main definitions

* `colonAfter`, `valueAt` : the two halves of the search.
* `lastPart` : the part of a spelling after its last escaped quote.

## Main results

* `scanString_eq_some_iff` : the scan stops at the first quote that is not escaped.
* `colonAfter_member` : the search in one member.
* `findJsonString_pair` : what is found in an object with two members.
-/

namespace SuparnaD

open JsonText

/-! ### Searches for a byte and for a quoted key -/

theorem cString_of_not_mem {s : Bytes} (h : 0 ∉ s) : cString s = s := by
  rw [cString, List.takeWhile_eq_self_iff]
  intro b hb
  rw [decide_eq_true_eq]
  rintro rfl
  exact h hb

theorem strstr_skip {b : UInt8} {u : Bytes} (h : b ∉ u) (pat rest : Bytes) :
    strstr (u ++ rest) (b :: pat) = strstr rest (b :: pat) := by
  induction u with
  | nil => rfl
  | cons a u ih =>
    rw [List.mem_cons, not_or] at h
    rw [List.cons_append, strstr, startsWith, List.isPrefixOf_cons_cons, beq_false_of_ne h.1,
      Bool.false_and, if_neg Bool.false_ne_true]
    exact ih h.2

theorem strchr_skip {b : UInt8} {u : Bytes} (h : b ∉ u) (rest : Bytes) :
    strchr (u ++ rest) b = strchr rest b := strstr_skip h [] rest

theorem strchr_cons_self (b : UInt8) (rest : Bytes) : strchr (b :: rest) b = some (b :: rest) := by
  rw [strchr, strstr, startsWith, List.isPrefixOf_cons_cons, beq_self_eq_true,
    List.isPrefixOf_nil_left, Bool.and_self, if_pos rfl]

theorem strchr_eq_none {b : UInt8} {u : Bytes} (h : b ∉ u) : strchr u b = none := by
  rw [← List.append_nil u, strchr_skip h]
  rfl

theorem suffix_of_strstr {s pat p : Bytes} (h : strstr s pat = some p) : p <:+ s := by
  induction s with
  | nil =>
    rw [strstr] at h
    split at h <;> cases h
    exact List.suffix_rfl
  | cons b s ih =>
    rw [strstr] at h
    split at h
    · cases h
      exact List.suffix_rfl
    · exact (ih h).trans (List.suffix_cons b s)

/-- A key in quotes. -/
def quoted (key : Bytes) : Bytes := 34 :: (key ++ [34])

/-- The search for the quoted key and the next colon. -/
def colonAfter (key s : Bytes) : Option Bytes := (strstr s (quoted key)).bind fun p => strchr p 58

/-- The string after a colon. -/
def valueAt (colon : Bytes) : Option Bytes :=
  match (colon.drop 1).dropWhile isSpace with
  | 34 :: rest => scanString rest
  | _ => none

/-- The quoted key fits into its buffer. -/
theorem take_quoted {key : Bytes} (h : key.length ≤ 253) :
    (ascii "\"" ++ key ++ ascii "\"").take 255 = quoted key := by
  rw [show ascii "\"" = [34] by decide, List.take_of_length_le]
  · rfl
  · simp only [List.length_append, List.length_singleton]
    omega

theorem findJsonString_eq {key : Bytes} (h : key.length ≤ 253) (json : Bytes) :
    findJsonString json key = (colonAfter key json).bind valueAt := by
  rw [findJsonString, take_quoted h, colonAfter, Option.bind_assoc]
  rfl

/-- A key that fits in its buffer and has none of the bytes that the search stumbles over: quotes,
colons, backslashes and commas. -/
structure PlainKey (key : Bytes) : Prop where
  length_le : key.length ≤ 253
  quote : 34 ∉ key
  colon : 58 ∉ key
  backslash : 92 ∉ key
  comma : 44 ∉ key

section

variable {key : Bytes}

/-- The search skips what is not a quote. -/
theorem colonAfter_skip {u : Bytes} (hu : 34 ∉ u) (rest : Bytes) :
    colonAfter key (u ++ rest) = colonAfter key rest := by
  rw [colonAfter, quoted, strstr_skip hu, colonAfter, quoted]

/-- What stands before the first occurrence of a byte is determined. -/
theorem eq_of_append_cons {b : UInt8} {u v t r : Bytes} (hu : b ∉ u) (hv : b ∉ v)
    (h : u ++ b :: t = v ++ b :: r) : u = v := by
  rcases List.append_eq_append_iff.mp h with ⟨w, rfl, hw⟩ | ⟨w, rfl, hw⟩
  · cases w with
    | nil => rw [List.append_nil]
    | cons a w =>
      obtain rfl := (List.cons.inj hw).1
      exact absurd (List.mem_append_right u List.mem_cons_self) hv
  · cases w with
    | nil => rw [List.append_nil]
    | cons a w =>
      obtain rfl := (List.cons.inj hw).1
      exact absurd (List.mem_append_right v List.mem_cons_self) hu

theorem startsWith_quoted_iff (hkey : 34 ∉ key) {u : Bytes} (hu : 34 ∉ u) (rest : Bytes) :
    startsWith (quoted key) (34 :: (u ++ 34 :: rest)) = true ↔ u = key := by
  rw [startsWith, quoted, List.isPrefixOf_iff_prefix, List.cons_prefix_cons]
  constructor
  · rintro ⟨-, t, ht⟩
    rw [List.append_assoc, List.singleton_append] at ht
    exact (eq_of_append_cons hkey hu ht).symm
  · rintro rfl
    exact ⟨rfl, rest, by rw [List.append_assoc, List.singleton_append]⟩

/-- The search at a quote, when the next quote follows `u`. -/
theorem colonAfter_quote (hkey : PlainKey key) {u : Bytes} (hu : 34 ∉ u) (rest : Bytes) :
    colonAfter key (34 :: (u ++ 34 :: rest)) =
      if u = key then strchr rest 58 else colonAfter key (34 :: rest) := by
  have hstart := startsWith_quoted_iff hkey.quote hu rest
  rw [colonAfter, strstr]
  split
  · rename_i hfound
    obtain rfl := hstart.mp hfound
    rw [if_pos rfl, Option.bind_some, ← List.singleton_append, strchr_skip (by decide),
      strchr_skip hkey.colon, ← List.singleton_append, strchr_skip (by decide)]
  · rename_i hfound
    rw [if_neg fun h => hfound (hstart.mpr h)]
    exact colonAfter_skip hu (34 :: rest)

/-- The search at the last quote of a text. -/
theorem colonAfter_last {u : Bytes} (hu : 34 ∉ u) : colonAfter key (34 :: u) = none := by
  have hstart : ¬ startsWith (quoted key) (34 :: u) = true := by
    rw [startsWith, quoted, List.isPrefixOf_iff_prefix, List.cons_prefix_cons]
    rintro ⟨-, hstarts⟩
    exact hu (hstarts.subset (List.mem_append_right key List.mem_cons_self))
  rw [colonAfter, strstr, if_neg hstart]
  have hnone : colonAfter key (u ++ []) = colonAfter key [] := colonAfter_skip hu []
  rwa [List.append_nil] at hnone

/-! ### Spellings -/

/-- The part of a spelling after its last quote. -/
def lastPart (s : Bytes) : Bytes := s.rtakeWhile fun b => b ≠ 34

theorem lastPart_of_not_mem {s : Bytes} (h : 34 ∉ s) : lastPart s = s := by
  rw [lastPart, List.rtakeWhile_eq_self_iff]
  intro b hb
  rw [decide_eq_true_eq]
  rintro rfl
  exact h hb

theorem lastPart_append_quote (u v : Bytes) : lastPart (u ++ 34 :: v) = lastPart v := by
  rw [lastPart, lastPart, List.rtakeWhile, List.rtakeWhile, List.reverse_append,
    List.reverse_cons, List.append_assoc, List.takeWhile_append]
  split
  · rename_i hall
    rw [List.IsPrefix.eq_of_length (List.takeWhile_prefix _) hall]
    simp
  · rfl

/-- The search in a string: it stops where the part after the last escaped quote is the key. `u` is
what stands between the last quote so far and the rest of the spelling. -/
theorem colonAfter_spells (hkey : PlainKey key) {cs : List Char} {s : Bytes} (h : Spells cs s)
    {u : Bytes} (hu : 34 ∉ u) (rest : Bytes) :
    colonAfter key (34 :: (u ++ (s ++ 34 :: rest))) =
      if lastPart (u ++ s) = key then strchr rest 58 else colonAfter key (34 :: rest) := by
  induction h generalizing u with
  | nil => rw [List.nil_append, List.append_nil, colonAfter_quote hkey hu, lastPart_of_not_mem hu]
  | @cons c cs s r hc _ ih =>
    by_cases hquote : 34 ∈ s
    · -- An escaped quote: what stands before it ends with a backslash.
      obtain ⟨-, rfl⟩ := hc.eq_escapedQuote hquote
      have hu' : 34 ∉ u ++ [92] := by
        rw [List.mem_append, not_or]
        exact ⟨hu, by decide⟩
      have hne : u ++ [92] ≠ key := by
        rintro rfl
        exact hkey.backslash (List.mem_append_right u List.mem_cons_self)
      have hsplit (v : Bytes) : u ++ ([92, 34] ++ v) = (u ++ [92]) ++ 34 :: v := by simp
      rw [List.append_assoc, hsplit, colonAfter_quote hkey hu', if_neg hne, hsplit,
        lastPart_append_quote]
      exact ih List.not_mem_nil
    · have hus : 34 ∉ u ++ s := by
        rw [List.mem_append, not_or]
        exact ⟨hu, hquote⟩
      have hstep := ih hus
      rwa [List.append_assoc, List.append_assoc, ← List.append_assoc s] at hstep

/-! ### The scan to the closing quote -/

theorem scanString_quote (rest : Bytes) : scanString (34 :: rest) = some [] := by
  cases rest with
  | nil => rfl
  | cons b rest => rw [scanString, if_pos rfl]

theorem scanString_backslash (e : UInt8) (rest : Bytes) :
    scanString (92 :: e :: rest) = (scanString rest).map fun s => 92 :: e :: s := by
  rw [scanString, if_neg (by decide), if_pos rfl]

/-- The scan passes over bytes that are neither quotes nor backslashes. -/
theorem scanString_append {u : Bytes} (hquote : 34 ∉ u) (hbackslash : 92 ∉ u) (rest : Bytes) :
    scanString (u ++ rest) = (scanString rest).map (u ++ ·) := by
  induction u with
  | nil => simp
  | cons b u ih =>
    rw [List.mem_cons, not_or] at hquote hbackslash
    have hstep : scanString (b :: (u ++ rest)) = (scanString (u ++ rest)).map (b :: ·) := by
      cases u ++ rest with
      | nil => simp [scanString, Ne.symm hquote.1]
      | cons a t => rw [scanString, if_neg (Ne.symm hquote.1), if_neg (Ne.symm hbackslash.1)]
    rw [List.cons_append, hstep, ih hquote.2 hbackslash.2, Option.map_map]
    rfl

/-- The scan stops at the first quote that is not escaped. -/
theorem scanString_escaped {s : Bytes} (h : Escaped s) (rest : Bytes) :
    scanString (s ++ 34 :: rest) = some s := by
  induction h with
  | nil => exact scanString_quote rest
  | @plain b s hquote hbackslash _ ih =>
    have hstep := scanString_append (u := [b]) (by simpa using hquote.symm)
      (by simpa using hbackslash.symm) (s ++ 34 :: rest)
    rw [ih] at hstep
    exact hstep
  | escape e _ ih =>
    rw [List.cons_append, List.cons_append, scanString_backslash, ih]
    rfl

/-- What the scan gives is escaped, and a quote stands behind it. -/
theorem scanString_eq_some_iff {s v : Bytes} :
    scanString s = some v ↔ Escaped v ∧ ∃ rest, s = v ++ 34 :: rest := by
  refine ⟨fun h => ?_, fun ⟨hv, rest, hs⟩ => hs ▸ scanString_escaped hv rest⟩
  fun_induction scanString s generalizing v with
  | case1 => cases h
  | case2 =>
    cases h
    exact ⟨.nil, [], rfl⟩
  | case3 => cases h
  | case4 c rest =>
    cases h
    exact ⟨.nil, c :: rest, rfl⟩
  | case5 c rest _ ih =>
    obtain ⟨w, hw, rfl⟩ := Option.map_eq_some_iff.mp h
    obtain ⟨hescaped, more, rfl⟩ := ih hw
    exact ⟨.escape c hescaped, more, rfl⟩
  | case6 b c rest hquote hbackslash ih =>
    obtain ⟨w, hw, rfl⟩ := Option.map_eq_some_iff.mp h
    obtain ⟨hescaped, more, hmore⟩ := ih hw
    exact ⟨.plain hquote hbackslash hescaped, more, congrArg _ hmore⟩

/-- What the lookup finds stands in the text. -/
theorem infix_of_findJsonString {json key v : Bytes} (h : findJsonString json key = some v) :
    v <:+: json := by
  obtain ⟨p, hp, h⟩ := Option.bind_eq_some_iff.mp h
  obtain ⟨colon, hcolon, h⟩ := Option.bind_eq_some_iff.mp h
  split at h
  · rename_i rest hrest
    have hquote : 34 :: rest <:+ colon.drop 1 := hrest ▸ List.dropWhile_suffix _
    have hsuffix : rest <:+ json :=
      (List.suffix_cons 34 rest).trans <| hquote.trans <| (List.drop_suffix 1 colon).trans <|
        (suffix_of_strstr hcolon).trans (suffix_of_strstr hp)
    obtain ⟨-, more, rfl⟩ := scanString_eq_some_iff.mp h
    exact (List.prefix_append v _).isInfix.trans hsuffix.isInfix
  · cases h

/-- The scan gives a spelling back. -/
theorem scanString_spells {cs : List Char} {s : Bytes} (h : Spells cs s) (rest : Bytes) :
    scanString (s ++ 34 :: rest) = some s := scanString_escaped h.escaped rest

/-! ### The search in a member -/

theorem isSpace_of_isBlank {b : UInt8} (h : IsBlank b) : isSpace b = true := by
  rcases h with rfl | rfl | rfl | rfl <;> rfl

/-- The string after the colon of a member is the spelling of its value. -/
theorem valueAt_valuePart (m : Member) (rest : Bytes) :
    valueAt (58 :: m.valuePart rest) = some m.valueText := by
  have hblank : (m.valuePart rest).dropWhile isSpace =
      34 :: (m.valueText ++ 34 :: (m.afterValue.1 ++ rest)) := by
    rw [Member.valuePart, List.dropWhile_append_of_pos fun b hb =>
      isSpace_of_isBlank (m.beforeValue.2 b hb)]
    rfl
  rw [valueAt, List.drop_one, List.tail_cons, hblank]
  exact scanString_spells m.spells_value _

/-- The search in a member: it stops at the name or at the end of the value, or goes on with what
follows the value. -/
theorem colonAfter_member (hkey : PlainKey key) (m : Member) (rest : Bytes) :
    colonAfter key (m.text rest) =
      if lastPart m.nameText = key then some (58 :: m.valuePart rest)
      else if lastPart m.valueText = key then strchr (m.afterValue.1 ++ rest) 58
      else colonAfter key (34 :: (m.afterValue.1 ++ rest)) := by
  have hname := colonAfter_spells hkey m.spells_name List.not_mem_nil
  have hvalue := colonAfter_spells hkey m.spells_value List.not_mem_nil
  simp only [List.nil_append] at hname hvalue
  rw [Member.text, colonAfter_skip (m.beforeName.not_mem (by decide)), hname]
  refine ite_congr rfl (fun _ => ?_) fun _ => ?_
  · rw [strchr_skip (m.afterName.not_mem (by decide)), strchr_cons_self]
  · have hcolon : m.afterName.1 ++ 58 :: m.valuePart rest =
        (m.afterName.1 ++ 58 :: m.beforeValue.1) ++
          34 :: (m.valueText ++ 34 :: (m.afterValue.1 ++ rest)) := by
      rw [Member.valuePart, List.append_assoc, List.cons_append]
    have hquote : 34 ∉ m.afterName.1 ++ 58 :: m.beforeValue.1 :=
      Blank.not_mem_around _ _ (by decide) (by decide)
    rw [hcolon, colonAfter_quote hkey hquote, if_neg, hvalue]
    rintro rfl
    exact hkey.colon (List.mem_append_right _ List.mem_cons_self)

/-- From the quote after a value the search passes over the comma to the next member. -/
theorem colonAfter_comma (hkey : PlainKey key) (w : Blank) (m : Member) (rest : Bytes) :
    colonAfter key (34 :: (w.1 ++ 44 :: m.text rest)) = colonAfter key (m.text rest) := by
  have hquote : 34 ∉ w.1 ++ 44 :: m.beforeName.1 :=
    Blank.not_mem_around _ _ (by decide) (by decide)
  have hne : w.1 ++ 44 :: m.beforeName.1 ≠ key := by
    rintro rfl
    exact hkey.comma (List.mem_append_right _ List.mem_cons_self)
  have hcomma (v : Bytes) : w.1 ++ 44 :: (m.beforeName.1 ++ 34 :: v) =
      (w.1 ++ 44 :: m.beforeName.1) ++ 34 :: v := by
    rw [List.append_assoc, List.cons_append]
  rw [Member.text, hcomma, colonAfter_quote hkey hquote, if_neg hne,
    colonAfter_skip (m.beforeName.not_mem (by decide))]

/-- The colon after the comma is that of the next member. -/
theorem strchr_comma (w : Blank) {m : Member} (hname : 58 ∉ utf8 m.name) (rest : Bytes) :
    strchr (w.1 ++ 44 :: m.text rest) 58 = some (58 :: m.valuePart rest) := by
  rw [strchr_skip (w.not_mem (by decide)), ← List.singleton_append, strchr_skip (by decide),
    Member.text, strchr_skip (m.beforeName.not_mem (by decide)), ← List.singleton_append,
    strchr_skip (by decide), strchr_skip fun hcolon => hname (m.spells_name.of_mem_colon hcolon),
    ← List.singleton_append, strchr_skip (by decide), strchr_skip (m.afterName.not_mem (by decide)),
    strchr_cons_self]

/-- In an object with two members the search finds the first value when the first name ends like the
key, the second value when the first value or the second name does, and nothing else. -/
theorem findJsonString_pair (hkey : PlainKey key) {x : Object} {m₁ m₂ : Member}
    (hx : x.members = [m₁, m₂]) (hname : 58 ∉ utf8 m₂.name) :
    findJsonString x.text key =
      if lastPart m₁.nameText = key then some m₁.valueText
      else if lastPart m₁.valueText = key ∨ lastPart m₂.nameText = key then some m₂.valueText
      else none := by
  have hstart : 34 ∉ x.before.1 ++ [123] :=
    Blank.not_mem_around x.before .none (by decide) (by decide)
  have htext : x.text = (x.before.1 ++ [123]) ++ m₁.text (44 :: m₂.text (125 :: x.after.1)) := by
    rw [Object.text, hx, List.append_assoc]
    rfl
  -- After the last value there is neither a colon nor another quote.
  have hend (b : UInt8) (hb : ¬ IsBlank b ∧ b ≠ 125) : b ∉ m₂.afterValue.1 ++ 125 :: x.after.1 :=
    Blank.not_mem_around _ _ hb.1 hb.2
  rw [findJsonString_eq hkey.length_le, htext, colonAfter_skip hstart, colonAfter_member hkey,
    strchr_comma _ hname, colonAfter_comma hkey, colonAfter_member hkey,
    strchr_eq_none (hend 58 (by decide)), colonAfter_last (hend 34 (by decide))]
  by_cases hfirst : lastPart m₁.nameText = key
  · rw [if_pos hfirst, if_pos hfirst, Option.bind_some, valueAt_valuePart]
  rw [if_neg hfirst, if_neg hfirst]
  by_cases hvalue : lastPart m₁.valueText = key
  · rw [if_pos hvalue, if_pos (.inl hvalue), Option.bind_some, valueAt_valuePart]
  rw [if_neg hvalue]
  by_cases hsecond : lastPart m₂.nameText = key
  · rw [if_pos hsecond, if_pos (.inr hsecond), Option.bind_some, valueAt_valuePart]
  · rw [if_neg hsecond, if_neg (not_or.mpr ⟨hvalue, hsecond⟩), ite_self, Option.bind_none]

end

end SuparnaD
