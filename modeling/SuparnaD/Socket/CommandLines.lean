import Mathlib.Data.List.DropRight
import SuparnaD.Api.JsonLookup
import SuparnaD.Socket.Segmentation

/-!
# Command lines

A line has a first token and the rest, without white space on either side. The session loop trims
the front of a line only and tests whether it begins with a keyword. So it dispatches every token
that begins with a keyword, it hands an argument on with the white space and the newline behind it,
and it takes the payload of `ACK` from behind the newline.

## Main definitions

* `IsLine`, `firstToken`, `afterToken`, `trimWhite` : a line and its parts.
* `lineCommand` : the command that a line states.
* `PlainToken`, `PlainArgument` : the lines that are read as stated.

## Main results

* `startsWith_pieceCommand` : the keyword tests look at the first token only.
* `ackData_eq_iff`, `commandArgument_eq_iff` : when an argument is handed on as it is stated.
* `requests_line_iff`.
-/

namespace SuparnaD

/-! ### Lines and what they state -/

/-- A line ends with its only newline. A carriage return before it is white space. -/
def IsLine (line : Bytes) : Prop := ∃ body, 10 ∉ body ∧ line = body ++ [10]

/-- The first token between white space. -/
def firstToken (line : Bytes) : Bytes := (line.dropWhile isWhite).takeWhile fun b => !isWhite b

/-- What follows the first token. -/
def afterToken (line : Bytes) : Bytes := (line.dropWhile isWhite).dropWhile fun b => !isWhite b

/-- A text without the white space around it. -/
def trimWhite (s : Bytes) : Bytes := (s.dropWhile isWhite).rdropWhile isWhite

/-- The keywords of the session loop. -/
def keywords : List Bytes :=
  [ascii "QUIT", ascii "EXIT", commandConsume, commandAck, commandSetGroup, commandSetTopic]

/-- The command that a line states, none when it has no token. `EXIT` is another word for
`QUIT`. -/
def lineCommand (line : Bytes) : Option Request :=
  if firstToken line = [] then none
  else if firstToken line = ascii "QUIT" ∨ firstToken line = ascii "EXIT" then some .quit
  else if firstToken line = commandConsume then some .consume
  else if firstToken line = commandAck then some (.ack (trimWhite (afterToken line)))
  else if firstToken line = commandSetGroup then some (.setGroup (trimWhite (afterToken line)))
  else if firstToken line = commandSetTopic then some (.setTopic (trimWhite (afterToken line)))
  else some .unknown

/-- A request without its argument. -/
def Request.bare : Request → Request
  | .ack _ => .ack []
  | .setGroup _ => .setGroup []
  | .setTopic _ => .setTopic []
  | request => request

/-- The first token is a keyword, or it begins with none of them and with no zero byte. -/
def PlainToken (line : Bytes) : Prop :=
  firstToken line = [] ∨ firstToken line ∈ keywords ∨
    (firstToken line).head? ≠ some 0 ∧ ∀ k ∈ keywords, ¬ k <+: firstToken line

/-- A keyword that takes an argument has none, and `SET_GROUP` and `SET_TOPIC` are followed by no
carriage return. -/
def PlainArgument (line : Bytes) : Prop :=
  (firstToken line = commandAck → trimWhite (afterToken line) = []) ∧
    (firstToken line = commandSetGroup ∨ firstToken line = commandSetTopic →
      trimWhite (afterToken line) = [] ∧ 13 ∉ afterToken line)

variable {line k s : Bytes}

/-! ### The front of a line -/

theorem firstToken_append_afterToken (line : Bytes) :
    firstToken line ++ afterToken line = line.dropWhile isWhite :=
  List.takeWhile_append_dropWhile

theorem cString_cons (b : UInt8) (s : Bytes) :
    cString (b :: s) = if b = 0 then [] else b :: cString s := by
  rw [cString, List.takeWhile_cons, cString]
  by_cases hzero : b = 0 <;> simp [hzero]

/-- The command of a piece begins at its first token and ends before a zero byte. -/
theorem pieceCommand_eq (piece : Bytes) :
    pieceCommand piece = cString (piece.dropWhile isWhite) := by
  induction piece with
  | nil => rfl
  | cons b piece ih =>
    rw [pieceCommand_cons]
    split_ifs with hzero hwhite
    · subst hzero
      rfl
    · rw [List.dropWhile_cons_of_pos hwhite, ih]
    · rw [List.dropWhile_cons_of_neg hwhite, cString_cons, if_neg hzero]

theorem prefix_takeWhile_iff {p : UInt8 → Bool} (hk : ∀ b ∈ k, p b = true) :
    k <+: s.takeWhile p ↔ k <+: s := by
  refine ⟨fun h => h.trans (List.takeWhile_prefix p), ?_⟩
  rintro ⟨rest, rfl⟩
  rw [List.takeWhile_append_of_pos hk]
  exact List.prefix_append _ _

/-- The keyword tests look at the first token only. -/
theorem startsWith_pieceCommand (hk : ∀ b ∈ k, isVisible b = true) (line : Bytes) :
    startsWith k (pieceCommand line) = true ↔ k <+: firstToken line := by
  rw [startsWith, List.isPrefixOf_iff_prefix, pieceCommand_eq, cString, firstToken,
    prefix_takeWhile_iff, prefix_takeWhile_iff]
  · intro b hb
    have := hk b hb
    simp only [isVisible, Bool.and_eq_true] at this
    exact this.2
  · intro b hb
    have := hk b hb
    simp only [isVisible, Bool.and_eq_true] at this
    exact this.1

theorem isVisible_of_mem_keywords : ∀ k ∈ keywords, ∀ b ∈ k, isVisible b = true := by
  have hall : (keywords.all fun k => k.all isVisible) = true := by decide
  intro k hk
  exact List.all_eq_true.mp (List.all_eq_true.mp hall k hk)

/-- The session loop skips a line without a token, and one whose token begins with a zero byte. -/
theorem pieceCommand_eq_nil_iff :
    pieceCommand line = [] ↔ firstToken line = [] ∨ (firstToken line).head? = some 0 := by
  rw [pieceCommand_eq, firstToken]
  cases hline : line.dropWhile isWhite with
  | nil => simp [cString]
  | cons b rest =>
    have hne : line.dropWhile isWhite ≠ [] := hline ▸ List.cons_ne_nil _ _
    have hb : ¬ isWhite b = true := by
      have hhead := List.head_dropWhile_not isWhite hne
      simpa only [hline, List.head_cons, Bool.not_eq_true] using hhead
    rw [List.takeWhile_cons_of_pos (by simpa using hb), cString_cons]
    simp only [reduceCtorEq, List.head?_cons, Option.some.injEq, false_or]
    split_ifs with hzero
    · exact iff_of_true rfl hzero
    · exact iff_of_false not_false hzero

/-- Which command is dispatched depends on the first token. -/
theorem parseCommand_pieceCommand (line : Bytes) : parseCommand (pieceCommand line) =
    if ascii "QUIT" <+: firstToken line ∨ ascii "EXIT" <+: firstToken line then .quit
    else if commandConsume <+: firstToken line then .consume
    else if commandAck <+: firstToken line then .ack (ackData (pieceCommand line))
    else if commandSetGroup <+: firstToken line then
      .setGroup (commandArgument commandSetGroup (pieceCommand line))
    else if commandSetTopic <+: firstToken line then
      .setTopic (commandArgument commandSetTopic (pieceCommand line))
    else .unknown := by
  have hstarts (k : Bytes) (hk : k ∈ keywords) :=
    startsWith_pieceCommand (isVisible_of_mem_keywords k hk) line
  rw [parseCommand, isQuit]
  simp only [Bool.or_eq_true, hstarts (ascii "QUIT") (by decide),
    hstarts (ascii "EXIT") (by decide), hstarts commandConsume (by decide),
    hstarts commandAck (by decide), hstarts commandSetGroup (by decide),
    hstarts commandSetTopic (by decide)]

/-- One piece makes one request or none. -/
theorem requests_singleton (line : Bytes) : requests [line] =
    if pieceCommand line = [] then [] else [parseCommand (pieceCommand line)] := by
  rw [requests]
  simp only [List.length_eq_zero_iff]
  split_ifs with hempty hquit
  · rfl
  · rw [parseCommand, if_pos hquit]
  · rfl

/-! ### Arguments -/

/-- The white space behind a first token ends with the newline. -/
theorem exists_afterToken (h : IsLine line) (htoken : firstToken line ≠ []) :
    ∃ v, 10 ∉ v ∧ afterToken line = v ++ [10] := by
  obtain ⟨body, hbody, rfl⟩ := h
  have hsuffix : afterToken (body ++ [10]) <:+ body ++ [10] :=
    (List.dropWhile_suffix _).trans (List.dropWhile_suffix _)
  rcases List.suffix_concat_iff.mp hsuffix with hnil | ⟨v, hv, hsub⟩
  · -- Without white space behind it, the token would contain the newline.
    have hwhole := firstToken_append_afterToken (body ++ [10])
    rw [hnil, List.append_nil] at hwhole
    have hmem : 10 ∈ firstToken (body ++ [10]) := by
      rcases List.suffix_concat_iff.mp (List.dropWhile_suffix isWhite (l := body ++ [10]))
        with hempty | ⟨u, hu, -⟩
      · exact absurd (hwhole.trans hempty) htoken
      · rw [hwhole, hu]
        exact List.mem_append_right _ (List.mem_singleton_self _)
    have hwhite := List.mem_takeWhile_imp hmem
    exact absurd hwhite (by decide)
  · exact ⟨v, fun hmem => hbody (hsub.subset hmem), hv⟩

theorem mem_trimWhite {b : UInt8} (hb : isWhite b = false) (h : b ∈ s) : b ∈ trimWhite s := by
  have hnot {l : Bytes} (hmem : b ∈ l.takeWhile isWhite ∨ b ∈ l.rtakeWhile isWhite) : False := by
    rcases hmem with hmem | hmem
    · cases hb.symm.trans (List.mem_takeWhile_imp hmem)
    · cases hb.symm.trans (List.mem_rtakeWhile_imp hmem)
  rw [← List.takeWhile_append_dropWhile (p := isWhite) (l := s), List.mem_append] at h
  have hdrop := h.resolve_left fun hmem => hnot (.inl hmem)
  rw [← List.rdropWhile_append_rtakeWhile (p := isWhite) (l := s.dropWhile isWhite),
    List.mem_append] at hdrop
  exact hdrop.resolve_right fun hmem => hnot (.inr hmem)

theorem trimWhite_eq_nil_iff : trimWhite s = [] ↔ ∀ b ∈ s, isWhite b = true := by
  constructor
  · intro h b hb
    by_contra hnot
    rw [Bool.not_eq_true] at hnot
    have hmem := mem_trimWhite hnot hb
    rw [h] at hmem
    exact List.not_mem_nil hmem
  · intro h
    rw [trimWhite, List.dropWhile_eq_nil_iff.mpr h, List.rdropWhile_nil]

/-- A trimmed text does not end with white space. -/
theorem trimWhite_ne_concat (s : Bytes) {u : Bytes} {b : UInt8} (hb : isWhite b = true) :
    trimWhite s ≠ u ++ [b] := by
  intro h
  have hne : trimWhite s ≠ [] := h ▸ List.append_ne_nil_of_right_ne_nil _ (List.cons_ne_nil _ _)
  have hlast := List.rdropWhile_last_not isWhite (s.dropWhile isWhite) hne
  refine hlast ?_
  have hgetLast : (trimWhite s).getLast hne = b := by
    simp only [h, List.getLast_append_singleton]
  rw [← hb, ← hgetLast]
  rfl

/-- A command with a keyword as its first token. -/
theorem pieceCommand_of_firstToken (hk : ∀ b ∈ k, isVisible b = true) (h : firstToken line = k) :
    pieceCommand line = k ++ cString (afterToken line) := by
  rw [pieceCommand_eq, ← firstToken_append_afterToken, h, cString, List.takeWhile_append_of_pos]
  · rfl
  · intro b hb
    have hvisible := hk b hb
    simp only [isVisible, Bool.and_eq_true] at hvisible
    exact hvisible.1

theorem not_mem_zero_cString (s : Bytes) : 0 ∉ cString s := fun hmem =>
  absurd (List.mem_takeWhile_imp hmem) (by decide)

/-- A zero byte in the rest of a line is part of the argument, and a command has none. -/
theorem iff_of_zero_mem {data rest : Bytes} (hzero : 0 ∈ rest) (hdata : 0 ∉ data) :
    data = trimWhite rest ↔ trimWhite rest = [] := by
  have hmem : 0 ∈ trimWhite rest := mem_trimWhite rfl hzero
  refine iff_of_false (fun heq => hdata (heq ▸ hmem)) fun hnil => ?_
  rw [hnil] at hmem
  exact List.not_mem_nil hmem

/-- The payload of `ACK` is read from behind the newline, so it is lost. -/
theorem ackData_eq_iff (hline : IsLine line) (h : firstToken line = commandAck) :
    ackData (pieceCommand line) = trimWhite (afterToken line) ↔
      trimWhite (afterToken line) = [] := by
  obtain ⟨v, hv, hafter⟩ := exists_afterToken hline (h ▸ List.cons_ne_nil _ _)
  by_cases hzero : 0 ∈ afterToken line
  · refine iff_of_zero_mem hzero fun hmem => ?_
    have hcommand : 0 ∈ pieceCommand line := by
      rw [ackData] at hmem
      split at hmem
      · rename_i rest hfound
        exact (suffix_of_strstr hfound).subset (List.mem_of_mem_drop hmem)
      · exact List.mem_of_mem_drop ((List.dropWhile_suffix _).subset hmem)
    rw [pieceCommand_eq] at hcommand
    exact not_mem_zero_cString _ hcommand
  · have hskip : 10 ∉ commandAck ++ v := by
      rw [List.mem_append, not_or]
      exact ⟨by decide, hv⟩
    have hdata : ackData (pieceCommand line) = [] := by
      rw [pieceCommand_of_firstToken (isVisible_of_mem_keywords _ (by decide)) h,
        cString_of_not_mem hzero, hafter, ← List.append_assoc, ackData, strchr_skip hskip,
        strchr_cons_self]
      rfl
    rw [hdata]
    exact eq_comm

/-- The argument of `SET_GROUP` and `SET_TOPIC` keeps what is behind it, up to the newline. -/
theorem commandArgument_eq_iff (hk : ∀ b ∈ k, isVisible b = true) (hline : IsLine line)
    (h : firstToken line = k) (hne : k ≠ []) :
    commandArgument k (pieceCommand line) = trimWhite (afterToken line) ↔
      trimWhite (afterToken line) = [] ∧ 13 ∉ afterToken line := by
  obtain ⟨v, hv, hafter⟩ := exists_afterToken hline (h ▸ hne)
  have harg : commandArgument k (pieceCommand line) =
      (cString (afterToken line)).dropWhile fun b => isBlank b || b = 10 := by
    rw [commandArgument, pieceCommand_of_firstToken hk h, List.drop_left]
  rw [harg]
  by_cases hzero : 0 ∈ afterToken line
  · rw [iff_of_zero_mem hzero fun hmem =>
      not_mem_zero_cString _ ((List.dropWhile_suffix _).subset hmem)]
    refine ⟨fun hnil => ?_, And.left⟩
    have hmem : 0 ∈ trimWhite (afterToken line) := mem_trimWhite rfl hzero
    rw [hnil] at hmem
    exact absurd hmem List.not_mem_nil
  · rw [cString_of_not_mem hzero]
    constructor
    · intro heq
      -- What is left over would end with the newline.
      have hsuffix : (afterToken line).dropWhile (fun b => isBlank b || b = 10) <:+ v ++ [10] :=
        hafter ▸ List.dropWhile_suffix _
      rcases List.suffix_concat_iff.mp hsuffix with hnil | ⟨u, hu, -⟩
      · refine ⟨heq.symm.trans hnil, fun hmem => ?_⟩
        exact absurd (List.dropWhile_eq_nil_iff.mp hnil 13 hmem) (by decide)
      · exact absurd (heq.symm.trans hu) (trimWhite_ne_concat _ rfl)
    · rintro ⟨hnil, hreturn⟩
      rw [hnil, List.dropWhile_eq_nil_iff]
      intro b hb
      have hwhite := trimWhite_eq_nil_iff.mp hnil b hb
      rw [isWhite, Bool.or_eq_true] at hwhite
      refine hwhite.resolve_right fun hthirteen => hreturn ?_
      exact of_decide_eq_true hthirteen ▸ hb

/-! ### Lines that are read as stated -/

/-- A token that is no keyword states no known command. -/
theorem lineCommand_of_not_mem (hnil : firstToken line ≠ []) (h : firstToken line ∉ keywords) :
    lineCommand line = some .unknown := by
  simp only [keywords, List.mem_cons, List.not_mem_nil, or_false, not_or] at h
  obtain ⟨hquit, hexit, hconsume, hack, hgroup, htopic⟩ := h
  simp only [lineCommand, hnil, hquit, hexit, hconsume, hack, hgroup, htopic, or_self, ↓reduceIte]

/-- A token is read as no known command when it begins with no keyword. -/
theorem bare_parseCommand_eq_unknown_iff :
    (parseCommand (pieceCommand line)).bare = .unknown ↔
      ∀ k ∈ keywords, ¬ k <+: firstToken line := by
  simp only [keywords, List.forall_mem_cons, List.not_mem_nil, false_implies, implies_true,
    and_true]
  rw [parseCommand_pieceCommand]
  split_ifs with hquit hconsume hack hgroup htopic
  · refine iff_of_false (by decide) fun hnone => ?_
    exact hquit.elim hnone.1 hnone.2.1
  · exact iff_of_false (by decide) fun hnone => hnone.2.2.1 hconsume
  · exact iff_of_false Request.noConfusion fun hnone => hnone.2.2.2.1 hack
  · exact iff_of_false Request.noConfusion fun hnone => hnone.2.2.2.2.1 hgroup
  · exact iff_of_false Request.noConfusion fun hnone => hnone.2.2.2.2.2 htopic
  · rw [not_or] at hquit
    exact iff_of_true rfl ⟨hquit.1, hquit.2, hconsume, hack, hgroup, htopic⟩

/-- A keyword is dispatched as stated. -/
theorem bare_lineCommand_of_mem (h : firstToken line ∈ keywords) :
    (lineCommand line).map Request.bare = some (parseCommand (pieceCommand line)).bare := by
  rw [parseCommand_pieceCommand, lineCommand]
  simp only [keywords, List.mem_cons, List.not_mem_nil, or_false] at h
  rcases h with htoken | htoken | htoken | htoken | htoken | htoken <;> rw [htoken] <;> rfl

/-- The command that a line states is dispatched exactly when its first token is plain. -/
theorem map_bare_requests_iff : (requests [line]).map Request.bare =
    ((lineCommand line).map Request.bare).toList ↔ PlainToken line := by
  rw [requests_singleton]
  by_cases hnil : firstToken line = []
  · rw [if_pos (pieceCommand_eq_nil_iff.mpr (.inl hnil)), lineCommand, if_pos hnil]
    exact iff_of_true rfl (.inl hnil)
  by_cases hmem : firstToken line ∈ keywords
  · have hhead : (firstToken line).head? ≠ some 0 := by
      have hkeywords : ∀ k ∈ keywords, k.head? ≠ some 0 := by decide
      exact hkeywords _ hmem
    have hcommand : pieceCommand line ≠ [] := fun h =>
      (pieceCommand_eq_nil_iff.mp h).elim hnil hhead
    rw [if_neg hcommand, bare_lineCommand_of_mem hmem]
    exact iff_of_true rfl (.inr (.inl hmem))
  rw [lineCommand_of_not_mem hnil hmem]
  by_cases hzero : (firstToken line).head? = some 0
  · rw [if_pos (pieceCommand_eq_nil_iff.mpr (.inr hzero))]
    refine iff_of_false (by simp) ?_
    rintro (h | h | h)
    · exact hnil h
    · exact hmem h
    · exact h.1 hzero
  · have hcommand : pieceCommand line ≠ [] := fun h =>
      (pieceCommand_eq_nil_iff.mp h).elim hnil hzero
    rw [if_neg hcommand, PlainToken, or_iff_right hnil, or_iff_right hmem, and_iff_right hzero,
      ← bare_parseCommand_eq_unknown_iff]
    exact List.singleton_inj

theorem eq_of_bare_eq_unknown {request : Request} (h : request.bare = .unknown) :
    request = .unknown := by
  cases request <;> first | rfl | cases h

theorem plainArgument_of_not_mem
    (h : firstToken line ∉ [commandAck, commandSetGroup, commandSetTopic]) :
    PlainArgument line := by
  simp only [List.mem_cons, List.not_mem_nil, or_false, not_or] at h
  exact ⟨fun hack => absurd hack h.1, fun hset => absurd hset (not_or.mpr h.2)⟩

theorem plainArgument_ack_iff (h : firstToken line = commandAck) :
    PlainArgument line ↔ trimWhite (afterToken line) = [] := by
  have hset : ¬ (firstToken line = commandSetGroup ∨ firstToken line = commandSetTopic) := by
    rw [h]
    decide
  rw [PlainArgument, and_iff_left fun hset' => absurd hset' hset]
  exact ⟨fun hplain => hplain h, fun hnil _ => hnil⟩

theorem plainArgument_set_iff
    (h : firstToken line = commandSetGroup ∨ firstToken line = commandSetTopic) :
    PlainArgument line ↔ trimWhite (afterToken line) = [] ∧ 13 ∉ afterToken line := by
  have hack : firstToken line ≠ commandAck := by
    rcases h with h | h <;> rw [h] <;> decide
  rw [PlainArgument, and_iff_right fun hack' => absurd hack' hack]
  exact ⟨fun hplain => hplain h, fun hboth _ => hboth⟩

/-- A keyword is read with its argument exactly when that is plain. -/
theorem parseCommand_eq_iff (h : IsLine line) (hmem : firstToken line ∈ keywords) :
    some (parseCommand (pieceCommand line)) = lineCommand line ↔ PlainArgument line := by
  rw [parseCommand_pieceCommand, lineCommand]
  simp only [keywords, List.mem_cons, List.not_mem_nil, or_false] at hmem
  rcases hmem with htoken | htoken | htoken | htoken | htoken | htoken
  · rw [htoken]
    exact iff_of_true rfl (plainArgument_of_not_mem (htoken ▸ by decide))
  · rw [htoken]
    exact iff_of_true rfl (plainArgument_of_not_mem (htoken ▸ by decide))
  · rw [htoken]
    exact iff_of_true rfl (plainArgument_of_not_mem (htoken ▸ by decide))
  · rw [plainArgument_ack_iff htoken, ← ackData_eq_iff h htoken, htoken]
    exact Option.some_inj.trans (iff_of_eq (Request.ack.injEq _ _))
  · rw [plainArgument_set_iff (.inl htoken),
      ← commandArgument_eq_iff (isVisible_of_mem_keywords _ (by decide)) h htoken (by decide),
      htoken]
    exact Option.some_inj.trans (iff_of_eq (Request.setGroup.injEq _ _))
  · rw [plainArgument_set_iff (.inr htoken),
      ← commandArgument_eq_iff (isVisible_of_mem_keywords _ (by decide)) h htoken (by decide),
      htoken]
    exact Option.some_inj.trans (iff_of_eq (Request.setTopic.injEq _ _))

/-- A line with a plain token is read as it is stated exactly when its argument is plain, too. -/
theorem requests_eq_iff (h : IsLine line) (htoken : PlainToken line) :
    requests [line] = (lineCommand line).toList ↔ PlainArgument line := by
  have hbare := map_bare_requests_iff.mpr htoken
  rw [requests_singleton] at hbare ⊢
  by_cases hmem : firstToken line ∈ keywords
  · have hcommand : pieceCommand line ≠ [] := by
      intro hnil
      rw [if_pos hnil, bare_lineCommand_of_mem hmem] at hbare
      cases hbare
    rw [if_neg hcommand, ← parseCommand_eq_iff h hmem]
    cases lineCommand line with
    | none => exact iff_of_false (by simp) (by simp)
    | some request => exact List.singleton_inj.trans Option.some_inj.symm
  · have hsub : [commandAck, commandSetGroup, commandSetTopic] ⊆ keywords := by decide
    refine iff_of_true ?_ (plainArgument_of_not_mem fun hset => hmem (hsub hset))
    by_cases hnil : firstToken line = []
    · rw [if_pos (pieceCommand_eq_nil_iff.mpr (.inl hnil)), lineCommand, if_pos hnil]
      rfl
    · rw [lineCommand_of_not_mem hnil hmem] at hbare ⊢
      split_ifs at hbare ⊢ with hcommand
      · cases hbare
      · exact congrArg (fun request => [request])
          (eq_of_bare_eq_unknown (List.singleton_inj.mp hbare))

/-- The session loop dispatches the command that a line states exactly when the first token is
plain, and with the argument that it states exactly when that is plain, too. A line that is rightly
read as no known command is answered so, and changes nothing but the client's stream. -/
theorem requests_line_iff (h : IsLine line) :
    ((requests [line]).map Request.bare = ((lineCommand line).map Request.bare).toList ↔
        PlainToken line) ∧
      (requests [line] = (lineCommand line).toList ↔ PlainToken line ∧ PlainArgument line) ∧
      (requests [line] = [.unknown] → ∀ st,
        sessionLoop [line] st = some ((), st.replied unknownCommand)) := by
  refine ⟨map_bare_requests_iff, ?_, fun hunknown st => ?_⟩
  · by_cases htoken : PlainToken line
    · rw [requests_eq_iff h htoken, and_iff_right htoken]
    · refine iff_of_false (fun heq => htoken (map_bare_requests_iff.mp ?_)) fun hboth =>
        htoken hboth.1
      rw [heq]
      cases lineCommand line <;> rfl
  · rw [sessionLoop_eq, hunknown]
    rfl

theorem requests_line_iff_sample :
    ((requests [ascii "SET_GROUP  \n"]).map Request.bare =
        ((lineCommand (ascii "SET_GROUP  \n")).map Request.bare).toList ↔
      PlainToken (ascii "SET_GROUP  \n")) ∧
    (requests [ascii "SET_GROUP  \n"] = (lineCommand (ascii "SET_GROUP  \n")).toList ↔
      PlainToken (ascii "SET_GROUP  \n") ∧ PlainArgument (ascii "SET_GROUP  \n")) ∧
    (requests [ascii "SET_GROUP  \n"] = [.unknown] → ∀ st,
      sessionLoop [ascii "SET_GROUP  \n"] st = some ((), st.replied unknownCommand)) :=
  requests_line_iff ⟨ascii "SET_GROUP  ", by decide, by decide⟩

/-- `EXIT` ends the session, and a topic name is handed on with the newline. -/
theorem not_unknown_exit : IsLine (ascii "EXIT\n") ∧ firstToken (ascii "EXIT\n") = ascii "EXIT" ∧
    requests [ascii "EXIT\n"] ≠ [.unknown] ∧
      requests [ascii "SET_TOPIC events\n"] = [.setTopic (ascii "events\n")] :=
  ⟨⟨ascii "EXIT", by decide, by decide⟩, by decide, by decide, by decide⟩

end SuparnaD
