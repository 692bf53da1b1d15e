import Mathlib.Data.List.Basic
import Mathlib.Data.List.TakeDrop
import Mathlib.Order.Basic

/-!
# Length-prefixed framing

A `FrameFormat` writes a payload as a header of fixed length, which states the length of the
payload, followed by the payload. A stream is a concatenation of frames. `parseAt` reads the frame
at an offset of arbitrary data and refuses a header that states a length outside of `1` to `maxLen`
or that exceeds the data.

The *boundaries* of a stream are the offsets of its frames and its end.

## Main definitions

* `FrameFormat`, with `frame`, `stream`, `parseAt`.
* `FrameFormat.start` : the offset of a frame of a stream.
* `FrameFormat.IsBoundary`, `FrameFormat.AtBoundary`.

## Main results

* `FrameFormat.parseAt_append` : a frame is read back wherever it stands.
* `FrameFormat.parseAt_start_eq` : reading a stream at its boundaries.
* `FrameFormat.start_lt_start_iff` : the order of the frames is the order of their offsets.
-/

/-- A format of frames with a header of fixed length. -/
structure FrameFormat (β : Type*) where
  /-- The length of a header. -/
  headerLen : ℕ
  /-- The header of a payload of the given length. -/
  header : ℕ → List β
  /-- The length that a header states. -/
  value : List β → ℕ
  /-- The largest length of a payload. -/
  maxLen : ℕ
  length_header : ∀ n, (header n).length = headerLen
  value_header : ∀ n ≤ maxLen, value (header n) = n

namespace FrameFormat

variable {β : Type*} (F : FrameFormat β)

/-- The frame of a payload. -/
def frame (d : List β) : List β := F.header d.length ++ d

/-- The concatenation of the frames of a list of payloads. -/
def stream (ds : List (List β)) : List β := ds.flatMap F.frame

/-- A payload that can be written. -/
def Valid (d : List β) : Prop := 0 < d.length ∧ d.length ≤ F.maxLen

instance (d : List β) : Decidable (F.Valid d) := inferInstanceAs (Decidable (_ ∧ _))

/-- Read the frame at an offset. -/
def parseAt (bytes : List β) (off : ℕ) : Option (List β) :=
  let n := F.value ((bytes.drop off).take F.headerLen)
  if off + F.headerLen + n ≤ bytes.length ∧ 0 < n ∧ n ≤ F.maxLen then
    some ((bytes.drop (off + F.headerLen)).take n)
  else none

@[simp] theorem length_frame (d : List β) : (F.frame d).length = F.headerLen + d.length := by
  rw [frame, List.length_append, F.length_header]

@[simp] theorem stream_nil : F.stream [] = [] := rfl

@[simp] theorem stream_cons (d : List β) (ds : List (List β)) :
    F.stream (d :: ds) = F.frame d ++ F.stream ds := rfl

@[simp] theorem stream_append (ds es : List (List β)) :
    F.stream (ds ++ es) = F.stream ds ++ F.stream es := List.flatMap_append

/-! ### Reading frames -/

variable {F}

/-- What a successful read says about the data. -/
theorem parseAt_eq_some_iff {bytes d : List β} {off : ℕ} :
    F.parseAt bytes off = some d ↔
      F.value ((bytes.drop off).take F.headerLen) = d.length ∧ F.Valid d ∧
        (bytes.drop (off + F.headerLen)).take d.length = d ∧
        off + F.headerLen + d.length ≤ bytes.length := by
  rw [parseAt]
  constructor
  · intro h
    split at h
    · rename_i hfits
      have hd := Option.some.inj h
      have hlen : F.value ((bytes.drop off).take F.headerLen) = d.length := by
        rw [← hd, List.length_take, List.length_drop]
        omega
      rw [hlen] at hfits hd
      exact ⟨hlen, hfits.2, hd, hfits.1⟩
    · cases h
  · rintro ⟨hlen, hvalid, htake, hfits⟩
    simp only [hlen]
    rw [if_pos ⟨hfits, hvalid⟩, htake]

/-- A frame is read back wherever it stands. -/
theorem parseAt_append {d : List β} (hd : F.Valid d) (before after : List β) :
    F.parseAt (before ++ F.frame d ++ after) before.length = some d := by
  have hhead : (before ++ F.frame d ++ after).drop before.length =
      F.header d.length ++ (d ++ after) := by
    rw [List.append_assoc, List.drop_left, frame, List.append_assoc]
  have hbody : (before ++ F.frame d ++ after).drop (before.length + F.headerLen) = d ++ after := by
    rw [← List.drop_drop, hhead, ← F.length_header d.length, List.drop_left]
  rw [parseAt_eq_some_iff, hhead, hbody, List.take_left]
  refine ⟨?_, hd, rfl, ?_⟩
  · rw [← F.length_header d.length, List.take_left, F.value_header _ hd.2]
  · simp only [List.length_append, length_frame]
    omega

/-- Nothing is read at or after the end. -/
theorem parseAt_of_length_le {bytes : List β} {off : ℕ} (h : bytes.length ≤ off) :
    F.parseAt bytes off = none := by
  rw [Option.eq_none_iff_forall_ne_some]
  intro d hd
  rw [parseAt_eq_some_iff] at hd
  obtain ⟨-, hvalid, -, hfits⟩ := hd
  have := hvalid.1
  omega

/-! ### Boundaries of a stream -/

variable (F) in
/-- The offset of the `k`-th frame of a stream, or its end. -/
def start (ds : List (List β)) (k : ℕ) : ℕ := (F.stream (ds.take k)).length

variable (F) in
/-- The offset of a frame of the stream, or its end. -/
def IsBoundary (ds : List (List β)) (off : ℕ) : Prop := ∃ k ≤ ds.length, off = F.start ds k

@[simp] theorem start_zero (ds : List (List β)) : F.start ds 0 = 0 := rfl

theorem isBoundary_zero (ds : List (List β)) : F.IsBoundary ds 0 := ⟨0, Nat.zero_le _, rfl⟩

/-- The end of the stream. -/
theorem start_length (ds : List (List β)) : F.start ds ds.length = (F.stream ds).length := by
  rw [start, List.take_length]

/-- A frame ends where the next one starts. -/
theorem start_succ {ds : List (List β)} {k : ℕ} (hk : k < ds.length) :
    F.start ds (k + 1) = F.start ds k + (F.headerLen + ds[k].length) := by
  rw [start, ← List.take_append_getElem hk, stream_append, List.length_append, stream_cons,
    stream_nil, List.append_nil, length_frame, start]

/-- A longer stream has the same frames at its start. -/
theorem start_append_of_le {ds es : List (List β)} {k : ℕ} (hk : k ≤ ds.length) :
    F.start (ds ++ es) k = F.start ds k := by
  rw [start, List.take_append_of_le_length hk, start]

/-- The boundaries of a stream are boundaries of a longer one. -/
theorem IsBoundary.append {ds : List (List β)} {off : ℕ} (h : F.IsBoundary ds off)
    (es : List (List β)) : F.IsBoundary (ds ++ es) off := by
  obtain ⟨k, hk, rfl⟩ := h
  exact ⟨k, by rw [List.length_append]; omega, (start_append_of_le hk).symm⟩

theorem start_mono (ds : List (List β)) {j k : ℕ} (h : j ≤ k) : F.start ds j ≤ F.start ds k := by
  have hsplit : ds.take k = ds.take j ++ (ds.take k).drop j := by
    conv_lhs => rw [← List.take_append_drop j (ds.take k)]
    rw [List.take_take, Nat.min_eq_left h]
  rw [start, start, hsplit, stream_append, List.length_append]
  exact Nat.le_add_right _ _

section Valid

variable {ds : List (List β)} (hds : ∀ d ∈ ds, F.Valid d)

include hds

theorem start_lt_start_succ {k : ℕ} (hk : k < ds.length) : F.start ds k < F.start ds (k + 1) := by
  have := (hds _ (List.getElem_mem hk)).1
  rw [start_succ hk]
  omega

/-- The order of the frames is the order of their offsets. -/
theorem start_lt_start_iff {j k : ℕ} (hj : j ≤ ds.length) (hk : k ≤ ds.length) :
    F.start ds j < F.start ds k ↔ j < k := by
  constructor
  · intro h
    by_contra hge
    have := F.start_mono ds (Nat.le_of_not_lt hge)
    omega
  · intro h
    have := start_lt_start_succ hds (k := j) (by omega)
    have := F.start_mono ds (Nat.succ_le_of_lt h)
    rw [Nat.succ_eq_add_one] at this
    omega

theorem start_le_start_iff {j k : ℕ} (hj : j ≤ ds.length) (hk : k ≤ ds.length) :
    F.start ds j ≤ F.start ds k ↔ j ≤ k := by
  have := start_lt_start_iff hds hk hj
  omega

omit hds in
/-- The stream split at one of its frames. -/
theorem stream_split {k : ℕ} (hk : k < ds.length) :
    F.stream ds = F.stream (ds.take k) ++ F.frame ds[k] ++ F.stream (ds.drop (k + 1)) := by
  conv_lhs => rw [← List.take_append_drop k ds, List.drop_eq_getElem_cons hk]
  rw [stream_append, stream_cons, List.append_assoc]

/-- Reading a stream at the start of a frame. -/
theorem parseAt_start {k : ℕ} (hk : k < ds.length) :
    F.parseAt (F.stream ds) (F.start ds k) = some ds[k] := by
  rw [stream_split hk, start]
  exact parseAt_append (hds _ (List.getElem_mem hk)) _ _

omit hds in
/-- Reading a stream at its end. -/
theorem parseAt_end : F.parseAt (F.stream ds) (F.start ds ds.length) = none :=
  parseAt_of_length_le (Nat.le_of_eq (start_length ds).symm)

/-- Reading a stream at a boundary gives the frame there, if there is one. -/
theorem parseAt_start_eq {k : ℕ} (hk : k ≤ ds.length) :
    F.parseAt (F.stream ds) (F.start ds k) = ds[k]? := by
  rcases Nat.lt_or_eq_of_le hk with hlt | rfl
  · rw [parseAt_start hds hlt, List.getElem?_eq_getElem hlt]
  · rw [parseAt_end, List.getElem?_eq_none (Nat.le_refl _)]

end Valid

/-! ### Boundaries of data -/

variable (F) in
/-- The data is a stream of frames, and the offset is a boundary of it. -/
def AtBoundary (bytes : List β) (off : ℕ) : Prop :=
  ∃ ds, (∀ d ∈ ds, F.Valid d) ∧ F.stream ds = bytes ∧ F.IsBoundary ds off

variable {bytes d : List β} {off : ℕ}

theorem atBoundary_zero {ds : List (List β)} (hds : ∀ d ∈ ds, F.Valid d) :
    F.AtBoundary (F.stream ds) 0 := ⟨ds, hds, rfl, isBoundary_zero ds⟩

/-- Behind a frame at a boundary is a boundary. -/
theorem AtBoundary.next (h : F.AtBoundary bytes off) (hd : F.parseAt bytes off = some d) :
    F.AtBoundary bytes (off + (F.headerLen + d.length)) := by
  obtain ⟨ds, hds, rfl, k, hk, rfl⟩ := h
  rw [parseAt_start_eq hds hk] at hd
  obtain ⟨hlt, rfl⟩ := List.getElem?_eq_some_iff.mp hd
  exact ⟨ds, hds, rfl, k + 1, hlt, (start_succ hlt).symm⟩

/-- A boundary without a frame is the end. -/
theorem AtBoundary.length_le (h : F.AtBoundary bytes off) (hd : F.parseAt bytes off = none) :
    bytes.length ≤ off := by
  obtain ⟨ds, hds, rfl, k, hk, rfl⟩ := h
  rw [parseAt_start_eq hds hk, List.getElem?_eq_none_iff] at hd
  rw [← start_length]
  exact F.start_mono ds hd

/-- Growth by whole frames keeps the boundaries. -/
theorem AtBoundary.append (h : F.AtBoundary bytes off) {es : List (List β)}
    (hes : ∀ d ∈ es, F.Valid d) : F.AtBoundary (bytes ++ F.stream es) off := by
  obtain ⟨ds, hds, rfl, hoff⟩ := h
  refine ⟨ds ++ es, fun d hd => ?_, F.stream_append ds es, hoff.append es⟩
  exact (List.mem_append.mp hd).elim (hds d) (hes d)

/-- There is no boundary inside the first frame. -/
theorem AtBoundary.eq_zero_or_le (h : F.AtBoundary bytes off) (hd : F.parseAt bytes 0 = some d) :
    off = 0 ∨ F.headerLen + d.length ≤ off := by
  obtain ⟨ds, hds, rfl, k, hk, rfl⟩ := h
  rw [← start_zero (F := F) ds, parseAt_start_eq hds (Nat.zero_le _)] at hd
  obtain ⟨hlt, rfl⟩ := List.getElem?_eq_some_iff.mp hd
  cases k with
  | zero => exact .inl (start_zero ds)
  | succ k =>
    have hmono := F.start_mono ds (Nat.succ_le_succ (Nat.zero_le k))
    rw [start_succ hlt, start_zero, Nat.zero_add] at hmono
    exact .inr hmono

end FrameFormat
