import SuparnaD.Foundation.Pieces
import SuparnaD.Socket.SessionSteps

/-!
# How the stream is cut into commands

`recv` cuts the stream of a client at will, and the session loop takes every piece for one command.
What a session does is determined by the requests that it reads off the pieces. They depend on the
cuts as soon as two visible bytes fit into one piece, that is, for every stream that holds a command
with a keyword.

## Main definitions

* `Request`, `parseCommand`, `requests` : what the session loop is asked to do.
* `commandStream` : commands that end with a newline.
* `SegmentationFree` : all cuts of a stream have the same effect.
* `Scattered` : the streams for which this holds.

## Main results

* `sessionLoop_eq` : the session loop carries out the requests.
* `requests_of_scattered`, `length_requests_focus_lt`.
* `segmentationFree_iff`.
-/

namespace SuparnaD

open SessionM

/-! ### Requests -/

/-- A command with its argument. -/
inductive Request where
  | consume
  | ack (commandData : Bytes)
  | setGroup (groupName : Bytes)
  | setTopic (topicName : Bytes)
  | unknown
  | quit
  deriving DecidableEq, Repr

/-- The keyword and the argument that the session loop finds in a command. -/
def parseCommand (command : Bytes) : Request :=
  if isQuit command then .quit
  else if startsWith commandConsume command then .consume
  else if startsWith commandAck command then .ack (ackData command)
  else if startsWith commandSetGroup command then
    .setGroup (commandArgument commandSetGroup command)
  else if startsWith commandSetTopic command then
    .setTopic (commandArgument commandSetTopic command)
  else .unknown

/-- What a session does on a request. -/
def Request.run : Request → SessionM Unit
  | .consume => do let _ ← handleConsumeCommand
  | .ack commandData => do let _ ← handleAckCommand commandData
  | .setGroup groupName => do let _ ← handleSetGroup groupName
  | .setTopic topicName => do let _ ← handleSetTopic topicName
  | .unknown => reply unknownCommand
  | .quit => reply goodbye

/-- The requests of the pieces, up to one that ends the session. -/
def requests : List Bytes → List Request
  | [] => []
  | piece :: pieces =>
    let command := pieceCommand piece
    if command.length = 0 then requests pieces
    else if isQuit command then [.quit]
    else parseCommand command :: requests pieces

/-- Carry out requests one after the other. -/
def runRequests : List Request → SessionM Unit
  | [] => return ()
  | request :: rest => do
    request.run
    runRequests rest

theorem processClientCommand_eq {command : Bytes} (h : isQuit command = false) :
    (do let _ ← processClientCommand command) = (parseCommand command).run := by
  rw [parseCommand, h, if_neg Bool.false_ne_true, processClientCommand]
  split_ifs <;> rfl

/-- The session loop carries out the requests that it reads off the pieces. -/
theorem sessionLoop_eq (pieces : List Bytes) :
    sessionLoop pieces = runRequests (requests pieces) := by
  induction pieces with
  | nil => rfl
  | cons piece pieces ih =>
    rw [sessionLoop, requests]
    split_ifs with hempty hquit
    · exact ih
    · rfl
    · rw [Bool.not_eq_true] at hquit
      rw [runRequests, ← processClientCommand_eq hquit, ih]
      simp only [bind_assoc, pure_bind]

/-! ### Visible bytes -/

/-- The bytes that the session loop skips in front of a command. -/
def isWhite (b : UInt8) : Bool := isBlank b || b = 10 || b = 13

/-- A byte that is part of a command wherever it stands. -/
def isVisible (b : UInt8) : Bool := b ≠ 0 && !isWhite b

theorem pieceCommand_cons (b : UInt8) (piece : Bytes) : pieceCommand (b :: piece) =
    if b = 0 then [] else if isWhite b then pieceCommand piece else b :: cString piece := by
  simp only [pieceCommand, cString, List.takeWhile_cons]
  by_cases hzero : b = 0
  · simp [hzero]
  · simp only [ne_eq, hzero, not_false_eq_true, decide_true, ↓reduceIte, List.dropWhile_cons]
    rfl

/-- In this stream no visible byte comes less than 4095 places after a byte that is not white. -/
def Scattered (stream : Bytes) : Prop :=
  Apart 4095 (fun b => isWhite b = false) (fun b => isVisible b = true) stream

/-- A piece without two visible bytes holds no command, or it begins with the visible byte and
nothing else is visible. -/
theorem pieceCommand_cases {piece : Bytes}
    (h : piece.Pairwise fun a b => isWhite a = false → ¬ isVisible b = true) :
    pieceCommand piece = [] ∧ piece.filter isVisible = [] ∨
      ∃ b w, pieceCommand piece = b :: w ∧ piece.filter isVisible = [b] ∧
        ∀ c ∈ w, isWhite c = true := by
  induction piece with
  | nil => exact .inl ⟨rfl, rfl⟩
  | cons b piece ih =>
    obtain ⟨hb, hpiece⟩ := List.pairwise_cons.mp h
    rw [pieceCommand_cons]
    by_cases hwhite : isWhite b = true
    · have hzero : b ≠ 0 := by
        rintro rfl
        cases hwhite
      have hhidden : isVisible b = false := by simp [isVisible, hwhite]
      rw [if_neg hzero, if_pos hwhite, List.filter_cons_of_neg (by simp [hhidden])]
      exact ih hpiece
    rw [Bool.not_eq_true] at hwhite
    have hrest : piece.filter isVisible = [] :=
      List.filter_eq_nil_iff.mpr fun c hc => hb c hc hwhite
    by_cases hzero : b = 0
    · refine .inl ⟨if_pos hzero, ?_⟩
      rw [List.filter_cons_of_neg (by simp [isVisible, hzero]), hrest]
    · refine .inr ⟨b, cString piece, ?_, ?_, fun c hc => ?_⟩
      · rw [if_neg hzero, if_neg (by simp [hwhite])]
      · rw [List.filter_cons_of_pos (by simp [isVisible, hzero, hwhite]), hrest]
      · have hvisible := hb c (List.takeWhile_subset _ hc) hwhite
        have hc0 := List.all_eq_true.mp List.all_takeWhile c hc
        simpa [isVisible, hc0] using hvisible

/-- A keyword has no white byte in its second place. -/
theorem startsWith_eq_false {keyword w : Bytes} {b y : UInt8} (hy : keyword[1]? = some y)
    (hvisible : isWhite y = false) (hw : ∀ c ∈ w, isWhite c = true) :
    startsWith keyword (b :: w) = false := by
  obtain _ | ⟨x, _ | ⟨y', rest⟩⟩ := keyword
  · cases hy
  · cases hy
  obtain rfl : y' = y := Option.some.inj hy
  rw [startsWith, List.isPrefixOf_cons_cons, Bool.and_eq_false_iff]
  refine .inr ?_
  cases w with
  | nil => rfl
  | cons c w =>
    have hne : (y' == c) = false := by
      rw [beq_eq_false_iff_ne]
      rintro rfl
      cases hvisible.symm.trans (hw y' List.mem_cons_self)
    rw [List.isPrefixOf_cons_cons, hne, Bool.false_and]

theorem parseCommand_eq_unknown {b : UInt8} {w : Bytes} (hw : ∀ c ∈ w, isWhite c = true) :
    isQuit (b :: w) = false ∧ parseCommand (b :: w) = .unknown := by
  have hword (keyword : Bytes) (y : UInt8) (hy : keyword[1]? = some y)
      (hvisible : isWhite y = false) : startsWith keyword (b :: w) = false :=
    startsWith_eq_false hy hvisible hw
  have hquit : isQuit (b :: w) = false := by
    rw [isQuit, hword _ 85 rfl rfl, hword _ 88 rfl rfl, Bool.false_or]
  refine ⟨hquit, ?_⟩
  rw [parseCommand, hquit, hword commandConsume 79 rfl rfl, hword commandAck 67 rfl rfl,
    hword commandSetGroup 69 rfl rfl, hword commandSetTopic 69 rfl rfl]
  rfl

/-- Each visible byte of such a piece is an unknown command. -/
theorem requests_cons_of_pairwise {piece : Bytes}
    (h : piece.Pairwise fun a b => isWhite a = false → ¬ isVisible b = true)
    (pieces : List Bytes) : requests (piece :: pieces) =
      ((piece.filter isVisible).map fun _ => .unknown) ++ requests pieces := by
  rw [requests]
  rcases pieceCommand_cases h with ⟨hnone, hvisible⟩ | ⟨b, w, hcommand, hvisible, hw⟩
  · rw [hnone, hvisible]
    rfl
  · obtain ⟨hquit, hparse⟩ := parseCommand_eq_unknown (b := b) hw
    rw [hcommand, hvisible, if_neg (by simp), hquit, hparse]
    rfl

/-- In a scattered stream each visible byte is an unknown command, however the stream is cut. -/
theorem requests_of_scattered {pieces : List Bytes} {stream : Bytes}
    (hcut : IsCut 4095 pieces stream) (h : Scattered stream) :
    requests pieces = (stream.filter isVisible).map fun _ => .unknown := by
  induction pieces generalizing stream with
  | nil =>
    obtain rfl := hcut.flatten
    rfl
  | cons piece pieces ih =>
    obtain ⟨rfl, hlen, htail⟩ := hcut.tail
    rw [requests_cons_of_pairwise (h.left.pairwise hlen), ih htail h.right, List.filter_append,
      List.map_append]

/-- One byte at a time, each visible byte is an unknown command. -/
theorem requests_singletons_append (stream : Bytes) (pieces : List Bytes) :
    requests (singletons stream ++ pieces) =
      ((stream.filter isVisible).map fun _ => .unknown) ++ requests pieces := by
  induction stream with
  | nil => rfl
  | cons b stream ih =>
    rw [singletons_cons, List.cons_append, requests_cons_of_pairwise (List.pairwise_singleton _ b),
      ih, ← List.append_assoc, ← List.map_append, ← List.filter_append, List.singleton_append]

theorem requests_singletons (stream : Bytes) :
    requests (singletons stream) = (stream.filter isVisible).map fun _ => .unknown := by
  have happend := requests_singletons_append stream []
  rwa [List.append_nil, requests, List.append_nil] at happend

/-- One piece makes at most one request, and none if it begins with a zero byte. -/
theorem length_requests_cons_le (b : UInt8) (piece : Bytes) (pieces : List Bytes) :
    (requests ((b :: piece) :: pieces)).length ≤
      (if b = 0 then 0 else 1) + (requests pieces).length := by
  rw [requests, pieceCommand_cons]
  by_cases hzero : b = 0
  · rw [if_pos hzero, if_pos hzero, Nat.zero_add]
    exact Nat.le_refl _
  rw [if_neg hzero, if_neg hzero]
  generalize (if isWhite b then pieceCommand piece else b :: cString piece) = command
  by_cases hempty : command.length = 0
  · rw [if_pos hempty]
    omega
  rw [if_neg hempty]
  split_ifs
  · exact Nat.le_add_right 1 _
  · rw [List.length_cons]
    omega

/-- Two bytes that are read as two commands one by one are read as one at most in one piece. -/
theorem length_requests_focus_lt (before middle after : Bytes) {a b : UInt8}
    (ha : isWhite a = false) (hb : isVisible b = true) :
    (requests (focus before (a :: middle ++ [b]) after)).length <
      (requests (singletons (before ++ (a :: middle ++ [b]) ++ after))).length := by
  have hle := length_requests_cons_le a (middle ++ [b]) (singletons after)
  have hvisible : isVisible a = decide (a ≠ 0) := by simp [isVisible, ha]
  rw [focus, requests_singletons_append, requests_singletons]
  rw [requests_singletons] at hle
  simp only [List.length_append, List.length_map, List.filter_append, List.filter_cons,
    List.cons_append, hb, hvisible, List.filter_nil, ↓reduceIte] at hle ⊢
  by_cases hzero : a = 0 <;> simp [hzero] at hle ⊢ <;> omega

/-! ### All cuts of a stream -/

/-- The bytes of commands that end with a newline. -/
def commandStream (commands : List Bytes) : Bytes := commands.flatMap fun command => command ++ [10]

/-- However the stream is cut, the session loop gets the same requests, and a session comes to the
same state with the same replies. -/
def SegmentationFree (stream : Bytes) : Prop :=
  ∀ pieces pieces', IsCut 4095 pieces stream → IsCut 4095 pieces' stream →
    requests pieces = requests pieces' ∧ ∀ st, sessionLoop pieces st = sessionLoop pieces' st ∧
      handleClientSession pieces st = handleClientSession pieces' st

/-- What a session does is independent of the cuts exactly when the visible bytes of the stream are
so far apart that no piece holds two of them, or a zero byte in front of one. -/
theorem segmentationFree_iff (commands : List Bytes) :
    SegmentationFree (commandStream commands) ↔ Scattered (commandStream commands) := by
  constructor
  · intro hfree
    by_contra hnot
    obtain ⟨before, a, middle, b, after, hstream, hlen, ha, hb⟩ := exists_piece_of_not_apart hnot
    rw [hstream] at hfree
    have hlt := length_requests_focus_lt before middle after ha hb
    have hsame := (hfree (focus before (a :: middle ++ [b]) after) _
      (isCut_focus before (List.cons_ne_nil _ _) hlen after)
      (isCut_singletons (by decide) _)).1
    rw [hsame] at hlt
    exact Nat.lt_irrefl _ hlt
  · intro h pieces pieces' hcut hcut'
    have hsame : requests pieces = requests pieces' := by
      rw [requests_of_scattered hcut h, requests_of_scattered hcut' h]
    have hloop : sessionLoop pieces = sessionLoop pieces' := by
      rw [sessionLoop_eq, sessionLoop_eq, hsame]
    refine ⟨hsame, fun st => ⟨congrFun hloop st, ?_⟩⟩
    rw [handleClientSession, handleClientSession, hloop]

/-- `SET_TOPIC t` and `SET_GROUP g` in one piece. -/
theorem not_segmentationFree_sample :
    ¬ SegmentationFree (commandStream [ascii "SET_TOPIC t", ascii "SET_GROUP g"]) := by
  intro hfree
  have hsame := (hfree [commandStream [ascii "SET_TOPIC t", ascii "SET_GROUP g"]]
    [ascii "SET_TOPIC t\n", ascii "SET_GROUP g\n"] ⟨rfl, by decide, by decide⟩
    ⟨rfl, by decide, by decide⟩).1
  exact absurd hsame (by decide)

end SuparnaD
