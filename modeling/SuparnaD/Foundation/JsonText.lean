import Mathlib.Data.List.DropRight

/-!
# JSON texts of objects with strings

A JSON text is a list of bytes in UTF-8. Between the quotes of a string a character is spelled
plainly or by an escape: a short one, one `\u` escape, or two of them for a character outside the
basic plane. An object lists members, and white space may stand around every token.

A spelling without a backslash is plain, and then it is the UTF-8 of the string; a spelling with one
is longer than that.

## Main definitions

* `JsonText.SpellsChar`, `JsonText.Spells` : the spellings of a character and of a string.
* `JsonText.Escaped` : the texts between two quotes, whatever their escapes mean.
* `JsonText.escape` : a spelling of every string.
* `JsonText.Member`, `JsonText.Object` : an object as it is written, with its `text`.

## Main results

* `JsonText.Spells.eq_utf8_iff` : a spelling is the UTF-8 of the string exactly when it has no
  backslash.
* `JsonText.SpellsChar.eq_escapedQuote` : a quote inside a string is spelled with a backslash before
  it.
-/

namespace JsonText

/-! ### Strings -/

/-- The bytes of a string in UTF-8. -/
def utf8 (cs : List Char) : List UInt8 := cs.flatMap String.utf8EncodeChar

/-- The value of a hexadecimal digit. -/
def hexValue (b : UInt8) : Option ℕ :=
  if 48 ≤ b ∧ b ≤ 57 then some (b.toNat - 48)
  else if 65 ≤ b ∧ b ≤ 70 then some (b.toNat - 55)
  else if 97 ≤ b ∧ b ≤ 102 then some (b.toNat - 87)
  else none

/-- Four hexadecimal digits and their value. -/
inductive Hex4 : List UInt8 → ℕ → Prop
  | mk {d₁ d₂ d₃ d₄ : UInt8} {v₁ v₂ v₃ v₄ : ℕ} (h₁ : hexValue d₁ = some v₁)
    (h₂ : hexValue d₂ = some v₂) (h₃ : hexValue d₃ = some v₃) (h₄ : hexValue d₄ = some v₄) :
    Hex4 [d₁, d₂, d₃, d₄] (((v₁ * 16 + v₂) * 16 + v₃) * 16 + v₄)

/-- The character of a short escape. -/
def shortEscape (b : UInt8) : Option Char :=
  if b = 34 then some '"'
  else if b = 92 then some '\\'
  else if b = 47 then some '/'
  else if b = 98 then some '\x08'
  else if b = 102 then some '\x0c'
  else if b = 110 then some '\n'
  else if b = 114 then some '\r'
  else if b = 116 then some '\t'
  else none

/-- The spellings of a character inside a string. -/
inductive SpellsChar : Char → List UInt8 → Prop
  | plain {c : Char} (hcontrol : 32 ≤ c.toNat) (hquote : c ≠ '"') (hbackslash : c ≠ '\\') :
    SpellsChar c (String.utf8EncodeChar c)
  | short {c : Char} {e : UInt8} (h : shortEscape e = some c) : SpellsChar c [92, e]
  | unicode {c : Char} {digits : List UInt8} (h : Hex4 digits c.toNat) :
    SpellsChar c (92 :: 117 :: digits)
  | surrogates {c : Char} {high low : List UInt8} {h l : ℕ} (hhigh : Hex4 high h)
    (hlow : Hex4 low l) (hrange : 0xD800 ≤ h ∧ h ≤ 0xDBFF) (lrange : 0xDC00 ≤ l ∧ l ≤ 0xDFFF)
    (hc : c.toNat = 0x10000 + (h - 0xD800) * 0x400 + (l - 0xDC00)) :
    SpellsChar c ((92 :: 117 :: high) ++ (92 :: 117 :: low))

/-- The spellings of a string, without its quotes. -/
inductive Spells : List Char → List UInt8 → Prop
  | nil : Spells [] []
  | cons {c : Char} {cs : List Char} {s r : List UInt8} (hc : SpellsChar c s) (hcs : Spells cs r) :
    Spells (c :: cs) (s ++ r)

/-- Every quote is escaped, and the text does not end with an unpaired backslash. -/
inductive Escaped : List UInt8 → Prop
  | nil : Escaped []
  | plain {b : UInt8} {s : List UInt8} (hquote : b ≠ 34) (hbackslash : b ≠ 92) (h : Escaped s) :
    Escaped (b :: s)
  | escape {s : List UInt8} (e : UInt8) (h : Escaped s) : Escaped (92 :: e :: s)

/-! ### UTF-8 of ASCII characters -/

/-- A byte below `128` in the UTF-8 of a character is that character. -/
theorem eq_of_mem_utf8EncodeChar {c : Char} {b : UInt8} (hb : b.toNat < 128)
    (h : b ∈ String.utf8EncodeChar c) : c.toNat = b.toNat := by
  have hval : c.val.toNat = c.toNat := rfl
  rw [String.utf8EncodeChar, hval] at h
  split_ifs at h with h₁ h₂ h₃ <;>
    simp only [List.mem_cons, List.not_mem_nil, or_false] at h <;>
    rcases h with rfl | rfl | rfl | rfl <;> rw [UInt8.toNat_ofNat'] at hb ⊢ <;> omega

theorem utf8EncodeChar_of_lt {c : Char} (h : c.toNat < 128) :
    String.utf8EncodeChar c = [c.toNat.toUInt8] := by
  have hsize : c.utf8Size = 1 := Char.utf8Size_eq_one_iff.mpr (Nat.le_of_lt_succ h)
  rw [String.utf8EncodeChar_eq_singleton hsize]
  rfl

theorem utf8_cons (c : Char) (cs : List Char) :
    utf8 (c :: cs) = String.utf8EncodeChar c ++ utf8 cs := rfl

theorem utf8_injective : Function.Injective utf8 := by
  intro cs ds h
  have hbytes : (String.ofList cs).toByteArray = (String.ofList ds).toByteArray :=
    congrArg List.toByteArray h
  exact String.ofList_injective (String.toByteArray_inj.mp hbytes)

/-! ### Spellings of characters -/

/-- The bytes of the grammar: zero, quote, colon and backslash. -/
def IsMark (b : UInt8) : Prop := b = 0 ∨ b = 34 ∨ b = 58 ∨ b = 92

theorem not_isMark_of_hexValue {b : UInt8} {v : ℕ} (h : hexValue b = some v) : ¬ IsMark b := by
  rintro (rfl | rfl | rfl | rfl) <;> cases h

theorem Hex4.not_isMark {digits : List UInt8} {n : ℕ} (h : Hex4 digits n) :
    ∀ b ∈ digits, ¬ IsMark b := by
  obtain ⟨h₁, h₂, h₃, h₄⟩ := h
  simp only [List.forall_mem_cons, List.not_mem_nil, false_implies, implies_true, and_true]
  exact ⟨not_isMark_of_hexValue h₁, not_isMark_of_hexValue h₂, not_isMark_of_hexValue h₃,
    not_isMark_of_hexValue h₄⟩

theorem Hex4.length_eq {digits : List UInt8} {n : ℕ} (h : Hex4 digits n) : digits.length = 4 := by
  obtain ⟨h₁, h₂, h₃, h₄⟩ := h
  rfl

/-- A `\u` escape has no marks but its backslash. -/
theorem Hex4.eq_backslash {digits : List UInt8} {n : ℕ} (h : Hex4 digits n) {b : UInt8}
    (hb : b ∈ 92 :: 117 :: digits) (hmark : IsMark b) : b = 92 := by
  rcases List.mem_cons.mp hb with rfl | hb
  · rfl
  rcases List.mem_cons.mp hb with rfl | hb
  · rcases hmark with h | h | h | h <;> cases h
  · exact absurd hmark (h.not_isMark b hb)

theorem shortEscape_eq_some {e : UInt8} {c : Char} (h : shortEscape e = some c) :
    c.toNat < 128 ∧ (e = 34 ∧ c = '"' ∨ (IsMark e → e = 92)) := by
  rw [shortEscape] at h
  split_ifs at h with h₁ h₂ h₃ h₄ h₅ h₆ h₇ h₈ <;> subst e <;> cases h
  · exact ⟨by decide, .inl ⟨rfl, rfl⟩⟩
  all_goals
    refine ⟨by decide, .inr fun hmark => ?_⟩
    rcases hmark with h | h | h | h <;> first | rfl | cases h

namespace SpellsChar

variable {c : Char} {s : List UInt8}

/-- What the marks in a spelling say: a plain spelling has no backslash and a mark is the character
itself; in an escape every mark is a backslash, unless it escapes a quote. -/
theorem cases_mark (h : SpellsChar c s) :
    s = String.utf8EncodeChar c ∧ 32 ≤ c.toNat ∧ c ≠ '"' ∧ c ≠ '\\' ∨
      92 ∈ s ∧ (String.utf8EncodeChar c).length < s.length ∧
        (s = [92, 34] ∧ c = '"' ∨ ∀ b ∈ s, IsMark b → b = 92) := by
  cases h with
  | plain hcontrol hquote hbackslash => exact .inl ⟨rfl, hcontrol, hquote, hbackslash⟩
  | @short e h =>
    obtain ⟨hlt, hcases⟩ := shortEscape_eq_some h
    refine .inr ⟨List.mem_cons_self, ?_, ?_⟩
    · rw [utf8EncodeChar_of_lt hlt]
      exact Nat.lt_succ_self 1
    · rcases hcases with ⟨rfl, hc⟩ | hother
      · exact .inl ⟨rfl, hc⟩
      · refine .inr fun b hb hmark => ?_
        rcases List.mem_cons.mp hb with rfl | hb
        · rfl
        · obtain rfl := List.mem_singleton.mp hb
          exact hother hmark
  | unicode h =>
    refine .inr ⟨List.mem_cons_self, ?_, .inr fun b => h.eq_backslash⟩
    rw [String.length_utf8EncodeChar, List.length_cons, List.length_cons, h.length_eq]
    have := c.utf8Size_le_four
    omega
  | surrogates hhigh hlow hrange lrange hc =>
    refine .inr ⟨List.mem_cons_self, ?_, .inr fun b hb hmark => ?_⟩
    · rw [String.length_utf8EncodeChar, List.length_append, List.length_cons, List.length_cons,
        List.length_cons, List.length_cons, hhigh.length_eq, hlow.length_eq]
      have := c.utf8Size_le_four
      omega
    · rcases List.mem_append.mp hb with hb | hb
      · exact hhigh.eq_backslash hb hmark
      · exact hlow.eq_backslash hb hmark

theorem eq_of_mem_plain {b : UInt8} (hb : b.toNat < 128) (hmem : b ∈ String.utf8EncodeChar c)
    {c' : Char} (hc' : c'.toNat = b.toNat) : c = c' :=
  Char.toNat_inj.mp ((eq_of_mem_utf8EncodeChar hb hmem).trans hc'.symm)

/-- A quote inside a string is spelled with a backslash before it. -/
theorem eq_escapedQuote (h : SpellsChar c s) (hquote : 34 ∈ s) : c = '"' ∧ s = [92, 34] := by
  rcases h.cases_mark with ⟨rfl, -, hne, -⟩ | ⟨-, -, ⟨hs, hc⟩ | hmarks⟩
  · exact absurd (eq_of_mem_plain (by decide) hquote rfl) hne
  · exact ⟨hc, hs⟩
  · cases hmarks 34 hquote (.inr (.inl rfl))

theorem eq_colon (h : SpellsChar c s) (hcolon : 58 ∈ s) : c = ':' := by
  rcases h.cases_mark with ⟨rfl, -⟩ | ⟨-, -, ⟨rfl, -⟩ | hmarks⟩
  · exact eq_of_mem_plain (by decide) hcolon rfl
  · rcases List.mem_cons.mp hcolon with h | h <;> cases h
    rename_i h
    cases h
  · cases hmarks 58 hcolon (.inr (.inr (.inl rfl)))

theorem not_mem_zero (h : SpellsChar c s) : 0 ∉ s := by
  intro hzero
  rcases h.cases_mark with ⟨rfl, hcontrol, -⟩ | ⟨-, -, ⟨rfl, -⟩ | hmarks⟩
  · have := eq_of_mem_utf8EncodeChar (by decide) hzero
    rw [this] at hcontrol
    exact absurd hcontrol (by decide)
  · revert hzero
    decide
  · cases hmarks 0 hzero (.inl rfl)

/-- A character is spelled plainly, or by something longer with a backslash. -/
theorem plain_or_escape (h : SpellsChar c s) :
    s = String.utf8EncodeChar c ∧ 92 ∉ s ∨
      92 ∈ s ∧ (String.utf8EncodeChar c).length < s.length := by
  rcases h.cases_mark with ⟨rfl, -, -, hne⟩ | ⟨hmem, hlt, -⟩
  · exact .inl ⟨rfl, fun hmem => hne (eq_of_mem_plain (by decide) hmem rfl)⟩
  · exact .inr ⟨hmem, hlt⟩

end SpellsChar

/-! ### Escaped texts -/

theorem Escaped.append {s r : List UInt8} (hs : Escaped s) (hr : Escaped r) :
    Escaped (s ++ r) := by
  induction hs with
  | nil => exact hr
  | plain hquote hbackslash _ ih => exact .plain hquote hbackslash ih
  | escape e _ ih => exact .escape e ih

theorem escaped_of_not_mem {s : List UInt8} (hquote : 34 ∉ s) (hbackslash : 92 ∉ s) :
    Escaped s := by
  induction s with
  | nil => exact .nil
  | cons b s ih =>
    rw [List.mem_cons, not_or] at hquote hbackslash
    exact .plain (Ne.symm hquote.1) (Ne.symm hbackslash.1) (ih hquote.2 hbackslash.2)

theorem Hex4.escaped {digits : List UInt8} {n : ℕ} (h : Hex4 digits n) :
    Escaped (92 :: 117 :: digits) := by
  have hmark := h.not_isMark
  exact .escape 117 (escaped_of_not_mem (fun hb => hmark 34 hb (.inr (.inl rfl)))
    fun hb => hmark 92 hb (.inr (.inr (.inr rfl))))

/-- A character is spelled by an escaped text. -/
theorem SpellsChar.escaped {c : Char} {s : List UInt8} (h : SpellsChar c s) : Escaped s := by
  cases h with
  | plain hcontrol hquote hbackslash =>
    exact escaped_of_not_mem (fun hb => hquote (eq_of_mem_plain (by decide) hb rfl))
      fun hb => hbackslash (eq_of_mem_plain (by decide) hb rfl)
  | short h => exact .escape _ .nil
  | unicode h => exact h.escaped
  | surrogates hhigh hlow hrange lrange hc => exact hhigh.escaped.append hlow.escaped

/-! ### Spellings of strings -/

namespace Spells

variable {cs : List Char} {s : List UInt8}

/-- A string is spelled by an escaped text. -/
theorem escaped (h : Spells cs s) : Escaped s := by
  induction h with
  | nil => exact .nil
  | cons hc _ ih => exact hc.escaped.append ih

theorem not_mem_zero (h : Spells cs s) : 0 ∉ s := by
  induction h with
  | nil => exact List.not_mem_nil
  | cons hc _ ih =>
    rw [List.mem_append, not_or]
    exact ⟨hc.not_mem_zero, ih⟩

/-- A colon in a spelling stands for a colon. -/
theorem of_mem_colon (h : Spells cs s) (hcolon : 58 ∈ s) : 58 ∈ utf8 cs := by
  induction h with
  | nil => cases hcolon
  | cons hc _ ih =>
    rw [utf8_cons, List.mem_append]
    rcases List.mem_append.mp hcolon with hmem | hmem
    · obtain rfl := hc.eq_colon hmem
      exact .inl List.mem_cons_self
    · exact .inr (ih hmem)

/-- A quote in a spelling stands for a quote and has a backslash. -/
theorem of_mem_quote (h : Spells cs s) (hquote : 34 ∈ s) : 34 ∈ utf8 cs ∧ 92 ∈ s := by
  induction h with
  | nil => cases hquote
  | cons hc _ ih =>
    rw [utf8_cons, List.mem_append, List.mem_append]
    rcases List.mem_append.mp hquote with hmem | hmem
    · obtain ⟨rfl, rfl⟩ := hc.eq_escapedQuote hmem
      exact ⟨.inl List.mem_cons_self, .inl List.mem_cons_self⟩
    · obtain ⟨hutf8, hbackslash⟩ := ih hmem
      exact ⟨.inr hutf8, .inr hbackslash⟩

theorem eq_utf8_or_length_lt (h : Spells cs s) :
    s = utf8 cs ∧ 92 ∉ s ∨ 92 ∈ s ∧ (utf8 cs).length < s.length := by
  induction h with
  | nil => exact .inl ⟨rfl, List.not_mem_nil⟩
  | @cons c cs s r hc _ ih =>
    rw [utf8_cons, List.mem_append, List.length_append, List.length_append]
    have hle : (String.utf8EncodeChar c).length ≤ s.length := by
      rcases hc.plain_or_escape with ⟨rfl, -⟩ | ⟨-, hlt⟩
      · exact Nat.le_refl _
      · exact Nat.le_of_lt hlt
    rcases ih with ⟨rfl, hnot⟩ | ⟨hmem, hlt⟩
    · rcases hc.plain_or_escape with ⟨rfl, hnot'⟩ | ⟨hmem, hlt⟩
      · exact .inl ⟨rfl, not_or.mpr ⟨hnot', hnot⟩⟩
      · exact .inr ⟨.inl hmem, Nat.add_lt_add_right hlt _⟩
    · exact .inr ⟨.inr hmem, Nat.add_lt_add_of_le_of_lt hle hlt⟩

/-- A spelling is the UTF-8 of the string exactly when it has no backslash. -/
theorem eq_utf8_iff (h : Spells cs s) : s = utf8 cs ↔ 92 ∉ s := by
  rcases h.eq_utf8_or_length_lt with ⟨heq, hnot⟩ | ⟨hmem, hlt⟩
  · exact iff_of_true heq hnot
  · refine iff_of_false (fun heq => ?_) (not_not.mpr hmem)
    rw [heq] at hlt
    exact Nat.lt_irrefl _ hlt

end Spells

/-! ### A spelling of every string -/

/-- The hexadecimal digit of a number below `16`. -/
def hexDigit (n : ℕ) : UInt8 := if n < 10 then (48 + n).toUInt8 else (87 + n).toUInt8

/-- A character with a short escape for a quote and a backslash, and a `\u` escape for a control
character. -/
def escapeChar (c : Char) : List UInt8 :=
  if c = '"' then [92, 34]
  else if c = '\\' then [92, 92]
  else if c.toNat < 32 then [92, 117, 48, 48, hexDigit (c.toNat / 16), hexDigit (c.toNat % 16)]
  else String.utf8EncodeChar c

/-- A string with escapes where they are needed. -/
def escape (cs : List Char) : List UInt8 := cs.flatMap escapeChar

theorem hexValue_hexDigit : ∀ n < 16, hexValue (hexDigit n) = some n := by decide

theorem spellsChar_escapeChar (c : Char) : SpellsChar c (escapeChar c) := by
  rw [escapeChar]
  split_ifs with hquote hbackslash hcontrol
  · exact .short (hquote ▸ rfl)
  · exact .short (hbackslash ▸ rfl)
  · have hhex : Hex4 [48, 48, hexDigit (c.toNat / 16), hexDigit (c.toNat % 16)]
        (((0 * 16 + 0) * 16 + c.toNat / 16) * 16 + c.toNat % 16) :=
      .mk rfl rfl (hexValue_hexDigit _ (by omega)) (hexValue_hexDigit _ (by omega))
    have hvalue : ((0 * 16 + 0) * 16 + c.toNat / 16) * 16 + c.toNat % 16 = c.toNat := by omega
    rw [hvalue] at hhex
    exact .unicode hhex
  · exact .plain (Nat.not_lt.mp hcontrol) hquote hbackslash

theorem spells_escape (cs : List Char) : Spells cs (escape cs) := by
  induction cs with
  | nil => exact .nil
  | cons c cs ih => exact .cons (spellsChar_escapeChar c) ih

/-! ### Objects -/

/-- The white space between tokens. -/
def IsBlank (b : UInt8) : Prop := b = 32 ∨ b = 9 ∨ b = 10 ∨ b = 13

instance (b : UInt8) : Decidable (IsBlank b) := inferInstanceAs (Decidable (_ ∨ _))

/-- White space, possibly none. -/
abbrev Blank : Type := { w : List UInt8 // ∀ b ∈ w, IsBlank b }

/-- No white space. -/
def Blank.none : Blank := ⟨[], List.forall_mem_nil _⟩

theorem Blank.not_mem (w : Blank) {b : UInt8} (h : ¬ IsBlank b) : b ∉ w.1 :=
  fun hb => h (w.2 b hb)

/-- A byte and the white space around it have no other byte that is not white space. -/
theorem Blank.not_mem_around (w w' : Blank) {a b : UInt8} (hblank : ¬ IsBlank b) (hne : b ≠ a) :
    b ∉ w.1 ++ a :: w'.1 := by
  rw [List.mem_append, List.mem_cons, not_or, not_or]
  exact ⟨w.not_mem hblank, hne, w'.not_mem hblank⟩

/-- A member with a string value, as it is written. -/
structure Member where
  /-- The name. -/
  name : List Char
  /-- The value. -/
  value : List Char
  /-- The spelling of the name. -/
  nameText : List UInt8
  /-- The spelling of the value. -/
  valueText : List UInt8
  spells_name : Spells name nameText
  spells_value : Spells value valueText
  /-- White space before the name. -/
  beforeName : Blank
  /-- White space before the colon. -/
  afterName : Blank
  /-- White space after the colon. -/
  beforeValue : Blank
  /-- White space after the value. -/
  afterValue : Blank

namespace Member

/-- What follows the colon of a member, when `rest` follows the member. -/
def valuePart (m : Member) (rest : List UInt8) : List UInt8 :=
  m.beforeValue.1 ++ 34 :: (m.valueText ++ 34 :: (m.afterValue.1 ++ rest))

/-- A member, when `rest` follows it. -/
def text (m : Member) (rest : List UInt8) : List UInt8 :=
  m.beforeName.1 ++ 34 :: (m.nameText ++ 34 :: (m.afterName.1 ++ 58 :: m.valuePart rest))

/-- A member without white space. -/
def ofStrings (name value : List Char) : Member where
  name := name
  value := value
  nameText := escape name
  valueText := escape value
  spells_name := spells_escape name
  spells_value := spells_escape value
  beforeName := .none
  afterName := .none
  beforeValue := .none
  afterValue := .none

end Member

/-- Members with commas between them, when `rest` follows. -/
def membersText : List Member → List UInt8 → List UInt8
  | [], rest => rest
  | [m], rest => m.text rest
  | m :: m' :: ms, rest => m.text (44 :: membersText (m' :: ms) rest)

theorem Member.not_mem_zero (m : Member) {rest : List UInt8} (h : 0 ∉ rest) : 0 ∉ m.text rest := by
  simp only [text, valuePart, List.mem_append, List.mem_cons, not_or]
  have hblank (w : Blank) : 0 ∉ w.1 := w.not_mem (by decide)
  exact ⟨hblank _, by decide, m.spells_name.not_mem_zero, by decide, hblank _, by decide, hblank _,
    by decide, m.spells_value.not_mem_zero, by decide, hblank _, h⟩

theorem not_mem_zero_membersText (ms : List Member) {rest : List UInt8} (h : 0 ∉ rest) :
    0 ∉ membersText ms rest := by
  fun_induction membersText ms rest with
  | case1 => exact h
  | case2 m => exact m.not_mem_zero h
  | case3 m m' ms rest ih =>
    refine m.not_mem_zero ?_
    rw [List.mem_cons, not_or]
    exact ⟨by decide, ih h⟩

/-- An object with string values, as it is written. -/
structure Object where
  /-- The members. -/
  members : List Member
  /-- White space before the object. -/
  before : Blank
  /-- White space after the object. -/
  after : Blank

namespace Object

/-- The text of an object. -/
def text (x : Object) : List UInt8 :=
  x.before.1 ++ 123 :: membersText x.members (125 :: x.after.1)

theorem not_mem_zero (x : Object) : 0 ∉ x.text := by
  rw [text, List.mem_append, List.mem_cons, not_or, not_or]
  refine ⟨x.before.not_mem (by decide), by decide, not_mem_zero_membersText x.members ?_⟩
  rw [List.mem_cons, not_or]
  exact ⟨by decide, x.after.not_mem (by decide)⟩

/-- The names and values of an object. -/
def fields (x : Object) : List (List Char × List Char) := x.members.map fun m => (m.name, m.value)

/-- The object of some names and values, without white space. -/
def ofFields (fs : List (List Char × List Char)) : Object where
  members := fs.map fun f => .ofStrings f.1 f.2
  before := .none
  after := .none

@[simp] theorem fields_ofFields (fs : List (List Char × List Char)) :
    (ofFields fs).fields = fs := by
  rw [fields, ofFields, List.map_map]
  exact List.map_id fs

end Object

end JsonText
