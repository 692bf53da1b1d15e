import Mathlib.Data.List.Nodup
import SuparnaD.Api.EventText
import SuparnaD.Foundation.JsonColons

/-!
# Looking up a member of a JSON object

`extract_json_string` takes the first place at which the quoted key stands in the text, and reads
the string behind the next colon. The place may be inside a value, or across two strings, and the
next colon may belong to another member or stand inside a string.

## Main definitions

* `FindsField` : the lookup gives the value of the member, or nothing when there is no such member.
* `FirstPlace`, `ColonBehindKey` : the first colon behind the first place of the quoted key.
* `LeadsToField` : this colon is that of the member, or as good.

## Main results

* `strstr_eq_some_iff` : `strstr` finds the first place.
* `valueAt_of_hasColon` : what is read at a colon of an object.
* `findsField_iff`.
* `findJsonString_of_first` : a plain key is found when no string before it ends with the key.
-/

namespace SuparnaD

open JsonText ApiM

/-- The texts of an object. White space may stand in an object without members, too. -/
def IsTextOf (t : Bytes) (x : Object) : Prop :=
  t = x.text ∨ x.members = [] ∧ ∃ w : Blank, t = x.before.1 ++ 123 :: (w.1 ++ x.ending)

/-- The value of the member with the name, as it is written. -/
def memberValue (x : Object) (key : Bytes) : Option Bytes :=
  (x.members.find? fun m => utf8 m.name = key).map Member.valueText

/-- `extract_json_string` returns the text of the value of the member with the name, and `NULL` when
there is none, or when no memory is granted for the copy. -/
def FindsField (t : Bytes) (x : Object) (key : Bytes) : Prop :=
  ∀ st, ∃ st', extractJsonString (cString t) key st =
    some (if st.machine.outcome.alloc then memberValue x key else none, st')

/-- The bytes that the lookup searches for: the quoted key, cut to 255 bytes. -/
def searchKey (key : Bytes) : Bytes := (ascii "\"" ++ key ++ ascii "\"").take 255

/-- `p` is the text from the first place of a word on, and `u` stands before it. -/
def FirstPlace (s word u p : Bytes) : Prop :=
  s = u ++ p ∧ word <+: p ∧ ∀ u' p', s = u' ++ p' → word <+: p' → u.length ≤ u'.length

/-- `r` follows the first colon at or behind the first place of the quoted key. -/
def ColonBehindKey (t key r : Bytes) : Prop :=
  ∃ u v, FirstPlace t (searchKey key) u (v ++ 58 :: r) ∧ 58 ∉ v

/-- A member with the name `key` has a value that is spelled `v`. -/
def HasField (x : Object) (key v : Bytes) : Prop :=
  ∃ m ∈ x.members, utf8 m.name = key ∧ m.valueText = v

/-- No member has the name `key`. -/
def NoField (x : Object) (key : Bytes) : Prop := ∀ m ∈ x.members, utf8 m.name ≠ key

/-- The colon is that of a member whose value is spelled as it should be; or it ends a string, up
to spaces, and the gap to the next string is spelled as the value should be; or there is nothing to
be read at the colon, and no member has the name. -/
def ColonFits (x : Object) (key : Bytes) : ColonPlace → Prop
  | .ofMember m => HasField x key m.valueText
  | .inString left (some gap) => if left.all isSpace then HasField x key gap else NoField x key
  | .inString _ none => NoField x key

/-- The first colon behind the first place of the quoted key fits, or there is none and no member
has the name. -/
def LeadsToField (t : Bytes) (x : Object) (key : Bytes) : Prop :=
  (∃ r p, ColonBehindKey t key r ∧ x.HasColon p r ∧ ColonFits x key p) ∨
    (∀ r, ¬ ColonBehindKey t key r) ∧ NoField x key

variable {t key v : Bytes} {x : Object} {p : ColonPlace} {r : Bytes}

/-! ### The value of a member -/

theorem memberValue_eq_some_iff (hx : (x.members.map Member.name).Nodup) :
    memberValue x key = some v ↔ HasField x key v := by
  rw [memberValue, Option.map_eq_some_iff]
  have hfound {m : Member} (h : x.members.find? (fun m => utf8 m.name = key) = some m) :
      utf8 m.name = key := by
    have hname := List.find?_some h
    exact of_decide_eq_true hname
  constructor
  · rintro ⟨m, hfind, hvalue⟩
    exact ⟨m, List.mem_of_find?_eq_some hfind, hfound hfind, hvalue⟩
  · rintro ⟨m, hmem, hname, hvalue⟩
    obtain ⟨m', hfind⟩ : ∃ m', x.members.find? (fun m => utf8 m.name = key) = some m' := by
      refine Option.ne_none_iff_exists'.mp fun hnone => ?_
      exact List.find?_eq_none.mp hnone m hmem (decide_eq_true hname)
    have hsame : m' = m := List.inj_on_of_nodup_map hx (List.mem_of_find?_eq_some hfind) hmem
      (utf8_injective ((hfound hfind).trans hname.symm))
    exact ⟨m', hfind, hsame ▸ hvalue⟩

theorem memberValue_eq_none_iff : memberValue x key = none ↔ NoField x key := by
  rw [memberValue, Option.map_eq_none_iff, List.find?_eq_none]
  simp only [decide_eq_true_eq, NoField, ne_eq]

/-! ### What is read at a colon -/

/-- The string that is read at a colon. -/
def stringAt : ColonPlace → Option Bytes
  | .ofMember m => some m.valueText
  | .inString left gap => if left.all isSpace then gap else none

/-- Behind a colon inside a string something is read when only spaces are left of the string. -/
theorem valueAt_inString {cs : List Char} {s u left : Bytes} (hs : Spells cs s)
    (hs' : s = u ++ 58 :: left) (rest : Bytes) :
    valueAt (58 :: (left ++ 34 :: rest)) = if left.all isSpace then scanString rest else none := by
  have hdrop : (58 :: (left ++ 34 :: rest)).drop 1 = left ++ 34 :: rest := rfl
  rw [valueAt, hdrop]
  split_ifs with hall
  · rw [List.dropWhile_append_of_pos (List.all_eq_true.mp hall)]
    rfl
  · -- The first byte that is no space is no quote, since no backslash stands before it.
    obtain ⟨b, more, hleft'⟩ : ∃ b more, left.dropWhile isSpace = b :: more := by
      refine List.exists_cons_of_ne_nil fun hnil => hall ?_
      exact List.all_eq_true.mpr (List.dropWhile_eq_nil_iff.mp hnil)
    have hquote : b ≠ 34 := by
      rintro rfl
      have hsplit : s = (u ++ 58 :: left.takeWhile isSpace) ++ 34 :: more := by
        rw [hs', List.append_assoc, List.cons_append, ← hleft', List.takeWhile_append_dropWhile]
      obtain ⟨w, hw⟩ := hs.exists_backslash hsplit
      have hlast := congrArg List.getLast? hw
      rw [List.getLast?_append_cons, List.getLast?_concat] at hlast
      rcases List.mem_cons.mp (List.mem_of_getLast? hlast) with h | h
      · cases h
      · exact absurd (List.mem_takeWhile_imp h) (by decide)
    have hrest : (left ++ 34 :: rest).dropWhile isSpace = b :: (more ++ 34 :: rest) := by
      rw [List.dropWhile_append, hleft']
      rfl
    rw [hrest]
    split
    · rename_i heq
      exact absurd (List.cons.inj heq).1 hquote
    · rfl

/-- What is read at a colon of an object. -/
theorem valueAt_of_hasColon (h : x.HasColon p r) : valueAt (58 :: r) = stringAt p := by
  have hquote {b : UInt8} (hb : 34 ≠ b) (u w : Blank) : 34 ∉ u.1 ++ b :: w.1 :=
    Blank.not_mem_around u w (by decide) hb
  have hbackslash {b : UInt8} (hb : 92 ≠ b) (u w : Blank) : 92 ∉ u.1 ++ b :: w.1 :=
    Blank.not_mem_around u w (by decide) hb
  have hgap {b : UInt8} (hb : 34 ≠ b ∧ 92 ≠ b) (u w : Blank) (rest : Bytes) :
      scanString (u.1 ++ b :: (w.1 ++ 34 :: rest)) = some (u.1 ++ b :: w.1) := by
    have hsplit : u.1 ++ b :: (w.1 ++ 34 :: rest) = (u.1 ++ b :: w.1) ++ 34 :: rest := by
      rw [List.append_assoc, List.cons_append]
    rw [hsplit, scanString_append (hquote hb.1 u w) (hbackslash hb.2 u w), scanString_quote,
      Option.map_some, List.append_nil]
  cases h with
  | ofMember h => exact valueAt_valuePart _ _
  | @inName before after m u left h hname =>
    rw [valueAt_inString m.spells_name hname, stringAt, Member.valuePart,
      hgap (by decide)]
  | @inValue before after m m' u left h hvalue =>
    rw [valueAt_inString m.spells_value hvalue, stringAt, follow, membersText_cons, Member.text,
      hgap (by decide)]
  | @inLast before m u left h hvalue =>
    have hnone := scanString_append (hquote (b := 125) (by decide) m.afterValue x.after)
      (hbackslash (by decide) _ _) []
    rw [List.append_nil] at hnone
    rw [valueAt_inString m.spells_value hvalue, stringAt, Object.ending, hnone]
    rfl

theorem colonFits_iff (hx : (x.members.map Member.name).Nodup) :
    ColonFits x key p ↔ memberValue x key = stringAt p := by
  cases p with
  | ofMember m => exact (memberValue_eq_some_iff hx).symm
  | inString left gap =>
    rw [stringAt]
    cases gap with
    | none =>
      rw [ite_self]
      exact memberValue_eq_none_iff.symm
    | some gap =>
      rw [ColonFits]
      split_ifs
      · exact (memberValue_eq_some_iff hx).symm
      · exact memberValue_eq_none_iff.symm

/-! ### The first place of a word -/

/-- A text that begins with the word has its first place there. -/
theorem exists_firstPlace_of_startsWith {s word p : Bytes} (h : word <+: s) :
    (∃ u, FirstPlace s word u p) ↔ p = s := by
  constructor
  · rintro ⟨u, hs, -, hfirst⟩
    obtain rfl := List.eq_nil_of_length_eq_zero (Nat.le_zero.mp (hfirst [] s rfl h))
    exact hs.symm
  · rintro rfl
    exact ⟨[], rfl, h, fun _ _ _ _ => Nat.zero_le _⟩

/-- Otherwise the first place is one of the rest. -/
theorem exists_firstPlace_cons {s word p : Bytes} {b : UInt8} (h : ¬ word <+: b :: s) :
    (∃ u, FirstPlace (b :: s) word u p) ↔ ∃ u, FirstPlace s word u p := by
  constructor
  · rintro ⟨u, hs, hword, hfirst⟩
    rcases List.cons_eq_append_iff.mp hs with ⟨rfl, rfl⟩ | ⟨u', rfl, hs'⟩
    · exact absurd hword h
    · refine ⟨u', hs', hword, fun v q hq hword' => ?_⟩
      exact Nat.le_of_succ_le_succ (hfirst (b :: v) q (congrArg (b :: ·) hq) hword')
  · rintro ⟨u, rfl, hword, hfirst⟩
    refine ⟨b :: u, rfl, hword, fun v q hq hword' => ?_⟩
    rcases List.cons_eq_append_iff.mp hq with ⟨rfl, rfl⟩ | ⟨v', rfl, hq'⟩
    · exact absurd hword' h
    · exact Nat.succ_le_succ (hfirst v' q hq' hword')

theorem strstr_eq_some_iff {s word p : Bytes} :
    strstr s word = some p ↔ ∃ u, FirstPlace s word u p := by
  induction s with
  | nil =>
    rw [strstr, startsWith]
    split_ifs with hstarts
    · rw [exists_firstPlace_of_startsWith (List.isPrefixOf_iff_prefix.mp hstarts), Option.some_inj,
        eq_comm]
    · refine iff_of_false (fun h => ?_) ?_
      · cases h
      · rintro ⟨u, hs, hword, -⟩
        rw [(List.append_eq_nil_iff.mp hs.symm).2] at hword
        exact hstarts (List.isPrefixOf_iff_prefix.mpr hword)
  | cons b s ih =>
    rw [strstr, startsWith]
    split_ifs with hstarts
    · rw [exists_firstPlace_of_startsWith (List.isPrefixOf_iff_prefix.mp hstarts), Option.some_inj,
        eq_comm]
    · rw [List.isPrefixOf_iff_prefix] at hstarts
      rw [exists_firstPlace_cons hstarts]
      exact ih

theorem strchr_eq_some_iff {s c : Bytes} {b : UInt8} :
    strchr s b = some c ↔ ∃ v r, c = b :: r ∧ s = v ++ b :: r ∧ b ∉ v := by
  constructor
  · induction s with
    | nil =>
      intro h
      cases h
    | cons a s ih =>
      intro h
      rw [strchr, strstr, startsWith] at h
      split_ifs at h with hstarts
      · rw [List.isPrefixOf_iff_prefix, List.cons_prefix_cons] at hstarts
        obtain rfl := hstarts.1
        exact ⟨[], s, (Option.some.inj h).symm, rfl, List.not_mem_nil⟩
      · obtain ⟨v, r, hc, rfl, hv⟩ := ih h
        refine ⟨a :: v, r, hc, rfl, ?_⟩
        rw [List.mem_cons, not_or]
        refine ⟨?_, hv⟩
        rintro rfl
        exact hstarts (List.isPrefixOf_iff_prefix.mpr ⟨v ++ b :: r, rfl⟩)
  · rintro ⟨v, r, rfl, rfl, hv⟩
    rw [strchr_skip hv, strchr_cons_self]

/-! ### The lookup -/

/-- The text from the colon on at which the lookup reads. -/
def keyColon (t key : Bytes) : Option Bytes :=
  (strstr t (searchKey key)).bind fun p => strchr p 58

theorem keyColon_eq_some_iff {c : Bytes} :
    keyColon t key = some c ↔ ∃ r, c = 58 :: r ∧ ColonBehindKey t key r := by
  rw [keyColon, Option.bind_eq_some_iff]
  constructor
  · rintro ⟨p, hplace, hcolon⟩
    obtain ⟨v, r, rfl, rfl, hv⟩ := strchr_eq_some_iff.mp hcolon
    obtain ⟨u, hfirst⟩ := strstr_eq_some_iff.mp hplace
    exact ⟨r, rfl, u, v, hfirst, hv⟩
  · rintro ⟨r, rfl, u, v, hfirst, hv⟩
    exact ⟨v ++ 58 :: r, strstr_eq_some_iff.mpr ⟨u, hfirst⟩,
      strchr_eq_some_iff.mpr ⟨v, r, rfl, rfl, hv⟩⟩

theorem ColonBehindKey.keyColon_eq (h : ColonBehindKey t key r) :
    keyColon t key = some (58 :: r) := keyColon_eq_some_iff.mpr ⟨r, rfl, h⟩

/-- The copy of what is found needs memory. -/
theorem exists_extractJsonString (json key : Bytes) (st : ApiState) :
    ∃ st', extractJsonString json key st =
      some (if st.machine.outcome.alloc then findJsonString json key else none, st') := by
  rw [extractJsonString]
  cases findJsonString json key with
  | none =>
    rw [ite_self]
    exact ⟨st, rfl⟩
  | some value =>
    refine ⟨{ st with machine := st.machine.next }, ?_⟩
    show (broker Broker.malloc >>= fun granted => if granted then pure _ else pure none) st = _
    rw [broker_bind, Broker.exec_malloc, Option.bind_some]
    cases st.machine.outcome.alloc <;> rfl

theorem findJsonString_eq_bind (t key : Bytes) :
    findJsonString t key = (keyColon t key).bind valueAt := by
  rw [findJsonString, keyColon, Option.bind_assoc]
  rfl

theorem not_mem_emptyText (w : Blank) {b : UInt8} (hblank : ¬ IsBlank b)
    (hbrace : 123 ≠ b ∧ 125 ≠ b) : b ∉ x.before.1 ++ 123 :: (w.1 ++ x.ending) := by
  rw [Object.ending, List.mem_append, List.mem_cons, not_or, not_or]
  exact ⟨x.before.not_mem hblank, hbrace.1.symm,
    Blank.not_mem_around w x.after hblank hbrace.2.symm⟩

/-- The colon behind the quoted key has a place in the object. -/
theorem ColonBehindKey.exists_hasColon (ht : IsTextOf t x) (h : ColonBehindKey t key r) :
    ∃ p, x.HasColon p r := by
  obtain ⟨place, hplace, hcolon⟩ := Option.bind_eq_some_iff.mp h.keyColon_eq
  rcases ht with rfl | ⟨-, w, rfl⟩
  · exact Object.exists_hasColon ((suffix_of_strstr hcolon).trans (suffix_of_strstr hplace))
  · -- There is no quote in the text.
    have hquote := not_mem_emptyText (x := x) w (b := 34) (by decide) (by decide)
    have hkey : searchKey key = 34 :: (key ++ [34]).take 254 := rfl
    have hnone := strstr_skip hquote ((key ++ [34]).take 254) []
    rw [List.append_nil, ← hkey, hplace] at hnone
    cases hnone

theorem not_mem_zero_of_isTextOf (ht : IsTextOf t x) : 0 ∉ t := by
  rcases ht with rfl | ⟨-, w, rfl⟩
  · exact x.not_mem_zero
  · exact not_mem_emptyText w (by decide) (by decide)

/-- The lookup finds the member exactly when the first colon behind the first place of the quoted
key is that of the member, or what is read there happens to be the same. -/
theorem findsField_iff (hx : (x.members.map Member.name).Nodup) (ht : IsTextOf t x) :
    FindsField t x key ↔ LeadsToField t x key := by
  have hfind : FindsField t x key ↔ findJsonString t key = memberValue x key := by
    rw [FindsField, cString_of_not_mem (not_mem_zero_of_isTextOf ht)]
    constructor
    · intro hfinds
      obtain ⟨_, hrun⟩ := hfinds sampleStore
      obtain ⟨_, hreturn⟩ := exists_extractJsonString t key sampleStore
      exact (Prod.mk.inj (Option.some.inj (hreturn.symm.trans hrun))).1
    · intro heq st
      rw [← heq]
      exact exists_extractJsonString t key st
  rw [hfind, findJsonString_eq_bind, LeadsToField]
  constructor
  · intro heq
    by_cases hcolon : ∃ r, ColonBehindKey t key r
    · obtain ⟨r, hr⟩ := hcolon
      obtain ⟨p, hp⟩ := hr.exists_hasColon ht
      rw [hr.keyColon_eq, Option.bind_some, valueAt_of_hasColon hp] at heq
      exact .inl ⟨r, p, hr, hp, (colonFits_iff hx).mpr heq.symm⟩
    · have hnone : keyColon t key = none := by
        refine Option.eq_none_iff_forall_not_mem.mpr fun c hc => hcolon ?_
        obtain ⟨r, -, hr⟩ := keyColon_eq_some_iff.mp hc
        exact ⟨r, hr⟩
      rw [hnone, Option.bind_none] at heq
      exact .inr ⟨not_exists.mp hcolon, memberValue_eq_none_iff.mp heq.symm⟩
  · rintro (⟨r, p, hr, hp, hfits⟩ | ⟨hcolon, hno⟩)
    · rw [hr.keyColon_eq, Option.bind_some, valueAt_of_hasColon hp]
      exact ((colonFits_iff hx).mp hfits).symm
    · have hnone : keyColon t key = none := by
        refine Option.eq_none_iff_forall_not_mem.mpr fun c hc => ?_
        obtain ⟨r, -, hr⟩ := keyColon_eq_some_iff.mp hc
        exact hcolon r hr
      rw [hnone, Option.bind_none, memberValue_eq_none_iff.mpr hno]

/-- A value ends like the name of a member behind it, so this member is not found. -/
def echoedObject : Object :=
  .ofFields [("x".toList, "topic".toList), ("data".toList, "d".toList),
    ("topic".toList, "events".toList)]

theorem findsField_iff_echoedObject :
    FindsField echoedObject.text echoedObject (ascii "data") ↔
      LeadsToField echoedObject.text echoedObject (ascii "data") :=
  findsField_iff (by decide) (.inl rfl)

/-- The value of the member behind the echo is given. -/
theorem not_findsField_echoedObject :
    (echoedObject.members.map Member.name).Nodup ∧ IsTextOf echoedObject.text echoedObject ∧
      ¬ FindsField echoedObject.text echoedObject (ascii "topic") := by
  refine ⟨by decide, .inl rfl, fun h => ?_⟩
  obtain ⟨_, hrun⟩ := h sampleStore
  obtain ⟨_, hreturn⟩ := exists_extractJsonString (cString echoedObject.text) (ascii "topic")
    sampleStore
  have heq := (Prod.mk.inj (Option.some.inj (hreturn.symm.trans hrun))).1
  exact absurd heq (by decide)

/-! ### Plain keys -/

/-- The search passes over the members that do not end a string with the key. -/
theorem colonAfter_members (hkey : PlainKey key) {before after : List Member} {m : Member}
    (hbefore : ∀ m' ∈ before, lastPart m'.nameText ≠ key ∧ lastPart m'.valueText ≠ key)
    (hm : lastPart m.nameText = key) (rest : Bytes) :
    colonAfter key (membersText (before ++ m :: after) rest) =
      some (58 :: m.valuePart (follow after rest)) := by
  induction before with
  | nil => rw [List.nil_append, membersText_cons, colonAfter_member hkey, if_pos hm]
  | cons m' before ih =>
    obtain ⟨hname, hvalue⟩ := hbefore m' List.mem_cons_self
    have hnext := ih fun n hn => hbefore n (List.mem_cons_of_mem m' hn)
    rw [List.cons_append, membersText_cons, colonAfter_member hkey, if_neg hname, if_neg hvalue]
    cases before with
    | nil =>
      rw [List.nil_append, membersText_cons] at hnext
      rw [List.nil_append, follow, membersText_cons, colonAfter_comma hkey, hnext]
    | cons n before =>
      rw [List.cons_append, membersText_cons] at hnext
      rw [List.cons_append, follow, membersText_cons, colonAfter_comma hkey, hnext]

/-- A member with a plain name is found when no string before it ends with the name. -/
theorem findJsonString_of_first (hkey : PlainKey key) {before after : List Member} {m : Member}
    (hx : x.members = before ++ m :: after)
    (hbefore : ∀ m' ∈ before, lastPart m'.nameText ≠ key ∧ lastPart m'.valueText ≠ key)
    (hm : lastPart m.nameText = key) : findJsonString x.text key = some m.valueText := by
  have hstart : 34 ∉ x.before.1 ++ [123] :=
    Blank.not_mem_around x.before .none (by decide) (by decide)
  have htext : x.text = (x.before.1 ++ [123]) ++ membersText (before ++ m :: after) x.ending := by
    rw [Object.text, hx, List.append_assoc]
    rfl
  rw [findJsonString_eq hkey.length_le, htext, colonAfter_skip hstart,
    colonAfter_members hkey hbefore hm, Option.bind_some, valueAt_valuePart]

end SuparnaD
