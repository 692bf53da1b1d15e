import SuparnaD.Foundation.JsonText

/-!
# The colons of a JSON object

A colon in the text of an object stands behind the name of a member, or inside a string. What
follows a colon inside a string is the rest of the string, its quote, and a gap up to the quote of
the next string.

## Main definitions

* `JsonText.follow` : the members that follow a member.
* `JsonText.ColonPlace`, `JsonText.Object.HasColon` : where a colon stands, and what follows it.

## Main results

* `JsonText.Object.exists_hasColon` : every colon has a place.
* `JsonText.Spells.exists_backslash` : inside a string a quote follows a backslash.
-/

namespace JsonText

/-- What follows a member, when these are the next members and `rest` follows them. -/
def follow : List Member → List UInt8 → List UInt8
  | [], rest => rest
  | m :: ms, rest => 44 :: membersText (m :: ms) rest

theorem membersText_cons (m : Member) (ms : List Member) (rest : List UInt8) :
    membersText (m :: ms) rest = m.text (follow ms rest) := by
  cases ms <;> rfl

/-- Where a colon stands. -/
inductive ColonPlace where
  /-- Behind the name of a member. -/
  | ofMember (m : Member)
  /-- Inside a string: `left` is the rest of the string, and `gap` the text between this string and
  the next one. -/
  | inString (left : List UInt8) (gap : Option (List UInt8))

namespace Object

/-- What follows the last member. -/
def ending (x : Object) : List UInt8 := 125 :: x.after.1

/-- The text of an object has a colon at the place, followed by the bytes. -/
inductive HasColon (x : Object) : ColonPlace → List UInt8 → Prop
  | ofMember {before after : List Member} {m : Member} (h : x.members = before ++ m :: after) :
    HasColon x (.ofMember m) (m.valuePart (follow after x.ending))
  | inName {before after : List Member} {m : Member} {u v : List UInt8}
    (h : x.members = before ++ m :: after) (hname : m.nameText = u ++ 58 :: v) :
    HasColon x (.inString v (some (m.afterName.1 ++ 58 :: m.beforeValue.1)))
      (v ++ 34 :: (m.afterName.1 ++ 58 :: m.valuePart (follow after x.ending)))
  | inValue {before after : List Member} {m m' : Member} {u v : List UInt8}
    (h : x.members = before ++ m :: m' :: after) (hvalue : m.valueText = u ++ 58 :: v) :
    HasColon x (.inString v (some (m.afterValue.1 ++ 44 :: m'.beforeName.1)))
      (v ++ 34 :: (m.afterValue.1 ++ follow (m' :: after) x.ending))
  | inLast {before : List Member} {m : Member} {u v : List UInt8}
    (h : x.members = before ++ [m]) (hvalue : m.valueText = u ++ 58 :: v) :
    HasColon x (.inString v none) (v ++ 34 :: (m.afterValue.1 ++ x.ending))

end Object

/-! ### Every colon has a place -/

section

variable {α : Type} {b : α} {r u v : List α}

/-- A suffix of two parts that begins with `b`: it begins in the second part or in the first. -/
theorem cons_suffix_append (h : b :: r <:+ u ++ v) :
    b :: r <:+ v ∨ ∃ s t, u = s ++ b :: t ∧ r = t ++ v := by
  obtain ⟨w, hw⟩ := h
  rcases List.append_eq_append_iff.mp hw with ⟨t, rfl, ht⟩ | ⟨t, -, ht⟩
  · cases t with
    | nil => exact .inl ⟨[], ht⟩
    | cons a t =>
      obtain ⟨rfl, rfl⟩ := List.cons.inj ht
      exact .inr ⟨w, t, rfl, rfl⟩
  · exact .inl ⟨t, ht.symm⟩

theorem cons_suffix_of_not_mem (h : b :: r <:+ u ++ v) (hu : b ∉ u) : b :: r <:+ v := by
  refine (cons_suffix_append h).resolve_right ?_
  rintro ⟨s, t, rfl, -⟩
  exact hu (List.mem_append_right s List.mem_cons_self)

theorem cons_suffix_of_ne {a : α} (h : b :: r <:+ a :: v) (hne : a ≠ b) : b :: r <:+ v := by
  rcases List.suffix_cons_iff.mp h with heq | hsuffix
  · exact absurd (List.cons.inj heq).1.symm hne
  · exact hsuffix

end

/-- A colon of a member, when `rest` follows the member. -/
def Member.ColonBefore (m : Member) (rest r : List UInt8) : Prop :=
  (∃ u v, m.nameText = u ++ 58 :: v ∧ r = v ++ 34 :: (m.afterName.1 ++ 58 :: m.valuePart rest)) ∨
    r = m.valuePart rest ∨
      ∃ u v, m.valueText = u ++ 58 :: v ∧ r = v ++ 34 :: (m.afterValue.1 ++ rest)

theorem Member.colon_cases {m : Member} {rest r : List UInt8} (h : 58 :: r <:+ m.text rest) :
    m.ColonBefore rest r ∨ 58 :: r <:+ rest := by
  have hblank (w : Blank) : 58 ∉ w.1 := w.not_mem (by decide)
  have hname := cons_suffix_of_ne (cons_suffix_of_not_mem h (hblank _)) (by decide)
  rcases cons_suffix_append hname with hname | hname
  swap
  · exact .inl (.inl hname)
  have hcolon := cons_suffix_of_not_mem (cons_suffix_of_ne hname (by decide)) (hblank _)
  rcases List.suffix_cons_iff.mp hcolon with heq | hvalue
  · exact .inl (.inr (.inl (List.cons.inj heq).2))
  have hvalue := cons_suffix_of_ne (cons_suffix_of_not_mem hvalue (hblank _)) (by decide)
  rcases cons_suffix_append hvalue with hvalue | hvalue
  · exact .inr (cons_suffix_of_not_mem (cons_suffix_of_ne hvalue (by decide)) (hblank _))
  · exact .inl (.inr (.inr hvalue))

theorem colon_membersText {ms : List Member} {rest r : List UInt8}
    (h : 58 :: r <:+ membersText ms rest) :
    (∃ before m after, ms = before ++ m :: after ∧ m.ColonBefore (follow after rest) r) ∨
      58 :: r <:+ rest := by
  induction ms with
  | nil => exact .inr h
  | cons m ms ih =>
    rw [membersText_cons] at h
    rcases Member.colon_cases h with hbefore | hfollow
    · exact .inl ⟨[], m, ms, rfl, hbefore⟩
    cases ms with
    | nil => exact .inr hfollow
    | cons m' ms =>
      rcases ih (cons_suffix_of_ne hfollow (by decide)) with
        ⟨before, n, after, heq, hbefore⟩ | hrest
      · exact .inl ⟨m :: before, n, after, congrArg (m :: ·) heq, hbefore⟩
      · exact .inr hrest

/-- Every colon of an object has a place. -/
theorem Object.exists_hasColon {x : Object} {r : List UInt8} (h : 58 :: r <:+ x.text) :
    ∃ p, x.HasColon p r := by
  have hbefore : 58 ∉ x.before.1 := x.before.not_mem (by decide)
  have hmembers := cons_suffix_of_ne (cons_suffix_of_not_mem h hbefore) (by decide)
  rcases colon_membersText hmembers with ⟨before, m, after, hx, hcolon⟩ | hrest
  · rcases hcolon with ⟨u, v, hname, rfl⟩ | rfl | ⟨u, v, hvalue, rfl⟩
    · exact ⟨_, .inName hx hname⟩
    · exact ⟨_, .ofMember hx⟩
    · cases after with
      | nil => exact ⟨_, .inLast hx hvalue⟩
      | cons m' after => exact ⟨_, .inValue hx hvalue⟩
  · have hafter := cons_suffix_of_ne hrest (by decide)
    exact absurd (hafter.subset List.mem_cons_self) (x.after.not_mem (by decide))

/-! ### Quotes inside a string -/

/-- Inside a string a quote follows a backslash. -/
theorem Spells.exists_backslash {cs : List Char} {s : List UInt8} (h : Spells cs s)
    {u v : List UInt8} (hs : s = u ++ 34 :: v) : ∃ w, u = w ++ [92] := by
  induction h generalizing u with
  | nil => exact absurd hs.symm (List.append_ne_nil_of_right_ne_nil _ (List.cons_ne_nil _ _))
  | @cons c cs s r hc _ ih =>
    rcases List.append_eq_append_iff.mp hs with ⟨t, rfl, ht⟩ | ⟨t, rfl, ht⟩
    · obtain ⟨w, rfl⟩ := ih ht
      exact ⟨s ++ w, (List.append_assoc ..).symm⟩
    · cases t with
      | nil =>
        obtain ⟨w, hw⟩ := ih (u := []) ht.symm
        exact absurd hw.symm (List.append_ne_nil_of_right_ne_nil _ (List.cons_ne_nil _ _))
      | cons a t =>
        obtain rfl := (List.cons.inj ht).1
        obtain ⟨-, hescape⟩ := hc.eq_escapedQuote (List.mem_append_right u List.mem_cons_self)
        -- The escape is the backslash and the quote, so `u` is the backslash.
        obtain _ | ⟨a, _ | ⟨a', u⟩⟩ := u
        · cases hescape
        · obtain rfl := (List.cons.inj hescape).1
          exact ⟨[], rfl⟩
        · have hlen := congrArg List.length hescape
          simp at hlen

end JsonText
