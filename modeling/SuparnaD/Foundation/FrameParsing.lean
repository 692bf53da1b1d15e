import SuparnaD.Foundation.LengthFraming

/-!
# Parsing a log of frames that still grows

`frames` reads frame after frame from an offset of arbitrary data and stops at the first that is
malformed or incomplete. When the data grows at its end, the frames that have been read stay, and
more may follow.

## Main definitions

* `FrameFormat.frames` : the frames from an offset on, each with the offset at which it starts.
* `FrameFormat.framesStop` : the offset behind them.

## Main results

* `FrameFormat.frames_eq` : the first frame, and then the others.
* `FrameFormat.parseAt_of_isPrefix` : a frame that is there is still there in longer data.
-/

namespace FrameFormat

variable {β : Type*} (F : FrameFormat β)

/-- Read at most `fuel` frames from an offset on. -/
def framesUpTo (bytes : List β) : ℕ → ℕ → List (ℕ × List β)
  | 0, _ => []
  | fuel + 1, off =>
    match F.parseAt bytes off with
    | none => []
    | some d => (off, d) :: framesUpTo bytes fuel (off + (F.headerLen + d.length))

/-- The frames from an offset on, up to the first that is malformed or incomplete. Every frame has a
payload, so there are at most as many as bytes. -/
def frames (bytes : List β) (off : ℕ) : List (ℕ × List β) := F.framesUpTo bytes bytes.length off

variable {F} {bytes d : List β} {off : ℕ}

/-- A frame ends within the data, after its start. -/
theorem lt_length_of_parseAt (h : F.parseAt bytes off = some d) :
    off < off + (F.headerLen + d.length) ∧ off + (F.headerLen + d.length) ≤ bytes.length := by
  obtain ⟨-, hvalid, -, hfits⟩ := parseAt_eq_some_iff.mp h
  have := hvalid.1
  omega

/-- A number of frames that cannot be exceeded is as good as any other. -/
theorem framesUpTo_eq {m n : ℕ} (hm : bytes.length ≤ off + m) (hn : bytes.length ≤ off + n) :
    F.framesUpTo bytes m off = F.framesUpTo bytes n off := by
  induction m generalizing off n with
  | zero =>
    have hnone : F.parseAt bytes off = none := parseAt_of_length_le hm
    cases n with
    | zero => rfl
    | succ n => simp only [framesUpTo, hnone]
  | succ m ih =>
    cases hparse : F.parseAt bytes off with
    | none => cases n <;> simp only [framesUpTo, hparse]
    | some d =>
      obtain ⟨hlt, hle⟩ := lt_length_of_parseAt hparse
      cases n with
      | zero => omega
      | succ n =>
        simp only [framesUpTo, hparse]
        exact congrArg _ (ih (by omega) (by omega))

theorem frames_of_none (h : F.parseAt bytes off = none) : F.frames bytes off = [] := by
  rw [frames]
  cases bytes.length <;> simp only [framesUpTo, h]

/-- The first frame, and then the others. -/
theorem frames_of_some (h : F.parseAt bytes off = some d) :
    F.frames bytes off = (off, d) :: F.frames bytes (off + (F.headerLen + d.length)) := by
  obtain ⟨hlt, hle⟩ := lt_length_of_parseAt h
  obtain ⟨n, hn⟩ : ∃ n, bytes.length = n + 1 := Nat.exists_eq_succ_of_ne_zero (by omega)
  rw [frames, hn, framesUpTo, h, frames]
  exact congrArg _ (framesUpTo_eq (by omega) (by omega))

variable (F bytes off) in
/-- The offset behind the frames. -/
def framesStop : ℕ := off + (F.stream ((F.frames bytes off).map Prod.snd)).length

theorem framesStop_of_none (h : F.parseAt bytes off = none) : F.framesStop bytes off = off := by
  rw [framesStop, frames_of_none h, List.map_nil, stream_nil, List.length_nil, Nat.add_zero]

theorem framesStop_of_some (h : F.parseAt bytes off = some d) :
    F.framesStop bytes off = F.framesStop bytes (off + (F.headerLen + d.length)) := by
  rw [framesStop, frames_of_some h, List.map_cons, stream_cons, List.length_append, length_frame,
    ← Nat.add_assoc, framesStop]

/-- A frame that is there is still there in longer data. -/
theorem parseAt_of_isPrefix {longer : List β} (h : F.parseAt bytes off = some d)
    (hlonger : bytes <+: longer) : F.parseAt longer off = some d := by
  obtain ⟨more, rfl⟩ := hlonger
  obtain ⟨hvalue, hvalid, htake, hfits⟩ := parseAt_eq_some_iff.mp h
  have hlen : d.length ≤ (bytes.drop (off + F.headerLen)).length := by
    rw [List.length_drop]
    omega
  have hhead : F.headerLen ≤ (bytes.drop off).length := by
    rw [List.length_drop]
    omega
  refine parseAt_eq_some_iff.mpr ⟨?_, hvalid, ?_, ?_⟩
  · rw [List.drop_append_of_le_length (by omega), List.take_append_of_le_length hhead, hvalue]
  · rw [List.drop_append_of_le_length (by omega), List.take_append_of_le_length hlen, htake]
  · rw [List.length_append]
    omega

/-- Where shorter data has a frame, longer data has one. -/
theorem parseAt_eq_none_of_isPrefix {longer : List β} (h : F.parseAt longer off = none)
    (hlonger : bytes <+: longer) : F.parseAt bytes off = none := by
  cases hparse : F.parseAt bytes off with
  | none => rfl
  | some d => cases h.symm.trans (parseAt_of_isPrefix hparse hlonger)

end FrameFormat
