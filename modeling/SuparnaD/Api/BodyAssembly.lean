import SuparnaD.Api.UploadBuffer

/-!
# Bodies in pieces

A body reaches a handler in pieces, and where it is cut is up to the sender and to the network. The
buffer in which the pieces are collected has a capacity that depends on the cuts, but whether the
body is accepted does not, and neither does what is collected.

## Main definitions

* `BodyPiece`, `Assembly`, `assemble` : the pieces are appended up to the first rejection.
* `RequestBuffer.Holds` : the buffer holds a body.

## Main results

* `RequestBuffer.Holds.append_of_le`, `RequestBuffer.Holds.append_of_lt` : one piece.
* `RequestBuffer.Holds.exists_assemble` : all pieces.
* `assemble_split`.
-/

namespace SuparnaD

/-- A piece as a handler gets it. It is not empty, and an object in memory has fewer than `2 ^ 63`
bytes. -/
abbrev BodyPiece : Type := { data : Bytes // data ≠ [] ∧ data.length < 2 ^ 63 }

/-- The body that pieces make up. -/
def bodyOf (pieces : List BodyPiece) : Bytes := pieces.flatMap (·.1)

/-- What has become of an upload. -/
structure Assembly where
  /-- The pieces that `append_to_buffer` has accepted. -/
  accepted : List BodyPiece
  /-- The piece that it has rejected. -/
  rejected : Option BodyPiece
  /-- The buffer. -/
  buffer : RequestBuffer

/-- Append the pieces one after the other, up to the first rejection. -/
def assemble (buf : RequestBuffer) : List BodyPiece → Option Assembly
  | [] => some ⟨[], none, buf⟩
  | piece :: pieces => do
    let (r, buf) ← appendToBuffer .ok buf piece.1
    if r ≠ 0 then
      return ⟨[], some piece, buf⟩
    let rest ← assemble buf pieces
    return { rest with accepted := piece :: rest.accepted }

namespace RequestBuffer

/-- The bytes collected so far. -/
def content (buf : RequestBuffer) : Bytes := (buf.buffer.getD []).take buf.size.toNat

/-- The buffer holds the body, in a block that is not longer than necessary. -/
structure Holds (buf : RequestBuffer) (body : Bytes) : Prop where
  fits : buf = .empty ∨ buf.Tight body.length
  size : buf.size.toNat = body.length
  content : buf.content = body
  length_le : body.length ≤ maxBodySize.toNat

/-- If the piece makes the buffer grow, the doubling ends, with room for all bytes. -/
def GrowthEnds (buf : RequestBuffer) (piece : BodyPiece) : Prop :=
  buf.size + piece.1.length.toUInt64 ≤ maxBodySize →
    buf.capacity < buf.size + piece.1.length.toUInt64 →
      ∃ newCapacity, Writer.growCapacity 64
          (if buf.capacity = 0 then initialBufferSize else buf.capacity * 2)
          (buf.size + piece.1.length.toUInt64) = some newCapacity ∧
        buf.size + piece.1.length.toUInt64 ≤ newCapacity

variable {buf buf' : RequestBuffer} {body data : Bytes} {piece : BodyPiece}

theorem holds_empty : Holds .empty [] := ⟨.inl rfl, rfl, rfl, Nat.zero_le _⟩

/-! ### One piece -/

/-- The new size does not wrap. -/
theorem Holds.newSize (h : buf.Holds body) (hdata : data.length < 2 ^ 63) :
    (buf.size + data.length.toUInt64).toNat = body.length + data.length := by
  have hmax : maxBodySize.toNat = 10485760 := rfl
  have hle := h.length_le
  rw [toNat_add_toUInt64 (by rw [h.size]; omega), h.size]

/-- The block is at least as long as the body. -/
theorem Holds.length_block (h : buf.Holds body) : body.length ≤ (buf.buffer.getD []).length := by
  have hlen := congrArg List.length h.content
  rw [RequestBuffer.content, List.length_take] at hlen
  omega

/-- The piece is copied behind the bytes collected so far. -/
theorem Holds.content_append (h : buf.Holds body) (hdata : data.length < 2 ^ 63)
    (hrun : appendToBuffer .ok buf data = some (0, buf')) : buf'.content = body ++ data := by
  have hsize := h.newSize hdata
  have hblock := h.length_block
  have hcontent : (buf.buffer.getD []).take body.length = body := by
    rw [← h.size]
    exact h.content
  cases acceptStep_of_appendToBuffer hrun with
  | @grown newCapacity hfull hgrow hgrant =>
    have hle := UInt64.le_iff_toNat_le.mp (Writer.le_of_growCapacity hgrow)
    rw [hsize] at hle
    have hroom : body.length ≤ newCapacity.toNat := by omega
    rw [RequestBuffer.content, RequestBuffer.copied, hsize, Option.getD_some, h.size,
      take_writeAt (by rw [length_reallocBuffer]; exact hroom), take_reallocBuffer hroom hblock,
      hcontent]
  | inPlace hroom heq =>
    rw [heq, Option.getD_some] at hblock hcontent
    rw [RequestBuffer.content, RequestBuffer.copied, hsize, Option.getD_some, h.size,
      take_writeAt hblock, hcontent]

/-- A piece that fits below the limit is accepted. -/
theorem Holds.append_of_le (h : buf.Holds body)
    (hmax : body.length + piece.1.length ≤ maxBodySize.toNat) :
    ∃ buf', appendToBuffer .ok buf piece.1 = some (0, buf') ∧ buf'.Holds (body ++ piece.1) := by
  obtain ⟨buf', hrun⟩ := exists_appendToBuffer h.fits h.size piece.2.1 hmax
  have htight := appendToBuffer_tight h.fits h.size hmax hrun
  rw [← List.length_append] at htight hmax
  exact ⟨buf', hrun, .inr htight, htight.size, h.content_append piece.2.2 hrun, hmax⟩

/-- A piece that exceeds the limit is rejected, and the buffer stays as it was. -/
theorem Holds.append_of_lt (h : buf.Holds body)
    (hmax : maxBodySize.toNat < body.length + piece.1.length) :
    appendToBuffer .ok buf piece.1 = some (-1, buf) := by
  have hlen : ¬ piece.1.length = 0 := fun hzero =>
    piece.2.1 (List.eq_nil_of_length_eq_zero hzero)
  have hover : maxBodySize < buf.size + piece.1.length.toUInt64 := by
    rw [UInt64.lt_iff_toNat_lt, h.newSize piece.2.2]
    exact hmax
  rw [appendToBuffer, if_neg hlen]
  exact if_pos hover

theorem Holds.growthEnds (h : buf.Holds body) (piece : BodyPiece) : buf.GrowthEnds piece := by
  intro hmax hfull
  have hsize := h.newSize piece.2.2
  have hmax' : maxBodySize.toNat = 10485760 := rfl
  have hle := UInt64.le_iff_toNat_le.mp hmax
  have hsmall : (buf.size + piece.1.length.toUInt64).toNat ≤ 2 ^ 62 := by omega
  obtain ⟨k, hstart, -⟩ := startCapacity_eq h.fits hfull hsmall
  have hone := Nat.one_le_two_pow (n := k)
  obtain ⟨newCapacity, hgrow, hroom, -⟩ := Writer.growCapacity_eq_some 64
    (if buf.capacity = 0 then initialBufferSize else buf.capacity * 2)
    (Nat.le_trans hsmall (by omega)) (by omega) (by omega)
  exact ⟨newCapacity, hgrow, UInt64.le_iff_toNat_le.mpr hroom⟩

end RequestBuffer

/-! ### All pieces -/

/-- All pieces have been accepted, and the buffer holds the body. -/
structure Assembly.Complete (a : Assembly) (pieces : List BodyPiece) : Prop where
  accepted : a.accepted = pieces
  rejected : a.rejected = none
  size : a.buffer.size.toNat = (bodyOf pieces).length
  content : a.buffer.content = bodyOf pieces

/-- A piece has been rejected, and the buffer holds the pieces before it. -/
structure Assembly.CutShort (a : Assembly) (pieces : List BodyPiece) : Prop where
  rejected : ∃ piece rest, pieces = a.accepted ++ piece :: rest ∧ a.rejected = some piece
  size : a.buffer.size.toNat = (bodyOf a.accepted).length
  content : a.buffer.content = bodyOf a.accepted

theorem bodyOf_cons (piece : BodyPiece) (pieces : List BodyPiece) :
    bodyOf (piece :: pieces) = piece.1 ++ bodyOf pieces := List.flatMap_cons

theorem assemble_cons_of_accepted {buf buf' : RequestBuffer} {piece : BodyPiece}
    (h : appendToBuffer .ok buf piece.1 = some (0, buf')) (pieces : List BodyPiece) :
    assemble buf (piece :: pieces) =
      (assemble buf' pieces).map fun a => { a with accepted := piece :: a.accepted } := by
  rw [assemble, h, Option.map_eq_bind]
  rfl

theorem assemble_cons_of_rejected {buf buf' : RequestBuffer} {piece : BodyPiece}
    (h : appendToBuffer .ok buf piece.1 = some (-1, buf')) (pieces : List BodyPiece) :
    assemble buf (piece :: pieces) = some ⟨[], some piece, buf'⟩ := by
  rw [assemble, h]
  rfl

/-- All pieces are accepted if the body does not exceed the limit. Otherwise the first piece that
exceeds it is rejected. -/
theorem RequestBuffer.Holds.exists_assemble {buf : RequestBuffer} {body : Bytes}
    (h : buf.Holds body) (pieces : List BodyPiece) :
    ∃ a, assemble buf pieces = some a ∧ a.buffer.Holds (body ++ bodyOf a.accepted) ∧
      ((body ++ bodyOf pieces).length ≤ maxBodySize.toNat ∧ a.accepted = pieces ∧
          a.rejected = none ∨
        maxBodySize.toNat < (body ++ bodyOf pieces).length ∧
          ∃ piece rest, pieces = a.accepted ++ piece :: rest ∧ a.rejected = some piece) := by
  induction pieces generalizing buf body with
  | nil =>
    have hbody : body ++ bodyOf [] = body := List.append_nil body
    exact ⟨⟨[], none, buf⟩, rfl, by rwa [hbody], .inl ⟨by rw [hbody]; exact h.length_le, rfl, rfl⟩⟩
  | cons piece pieces ih =>
    rcases Nat.lt_or_ge maxBodySize.toNat (body.length + piece.1.length) with hlt | hle
    · refine ⟨_, assemble_cons_of_rejected (h.append_of_lt hlt) pieces, ?_, .inr ⟨?_, piece, pieces,
        rfl, rfl⟩⟩
      · rw [show body ++ bodyOf [] = body from List.append_nil body]
        exact h
      · rw [bodyOf_cons, List.length_append, List.length_append]
        omega
    · obtain ⟨buf', hrun, hbuf'⟩ := h.append_of_le hle
      obtain ⟨a, ha, hholds, hcases⟩ := ih hbuf'
      refine ⟨_, (assemble_cons_of_accepted hrun pieces).trans (congrArg _ ha), ?_, ?_⟩
      · rw [bodyOf_cons, ← List.append_assoc]
        exact hholds
      · rw [bodyOf_cons, ← List.append_assoc]
        rcases hcases with ⟨hle, hall, hnone⟩ | ⟨hlong, p, rest, hp, hr⟩
        · exact .inl ⟨hle, congrArg _ hall, hnone⟩
        · exact .inr ⟨hlong, p, rest, congrArg _ hp, hr⟩

/-- A body from an empty buffer: complete up to the limit, cut short beyond it. -/
theorem exists_assemble_empty (pieces : List BodyPiece) :
    ∃ a, assemble .empty pieces = some a ∧
      ((bodyOf pieces).length ≤ maxBodySize.toNat ∧ a.Complete pieces ∨
        maxBodySize.toNat < (bodyOf pieces).length ∧ a.CutShort pieces) := by
  obtain ⟨a, ha, hholds, hcases⟩ := RequestBuffer.holds_empty.exists_assemble pieces
  rw [List.nil_append] at hholds
  rw [List.nil_append] at hcases
  refine ⟨a, ha, hcases.imp (fun ⟨hle, hall, hnone⟩ => ⟨hle, hall, hnone, ?_, ?_⟩)
    fun ⟨hlt, hrejected⟩ => ⟨hlt, hrejected, hholds.size, hholds.content⟩⟩
  · rw [hholds.size, hall]
  · rw [hholds.content, hall]

/-- Two splits of one body come to the same: up to the limit all pieces are accepted and the buffer
holds the body, beyond it a piece is rejected and the buffer holds what was accepted. Whatever has
been accepted, the doubling for the next piece ends with enough room. -/
theorem assemble_split (pieces pieces' : List BodyPiece) (hsame : bodyOf pieces = bodyOf pieces') :
    (∃ a a', assemble .empty pieces = some a ∧ assemble .empty pieces' = some a' ∧
      ((bodyOf pieces).length ≤ maxBodySize.toNat ∧ a.Complete pieces ∧ a'.Complete pieces' ∨
        maxBodySize.toNat < (bodyOf pieces).length ∧ a.CutShort pieces ∧ a'.CutShort pieces')) ∧
      ∀ (accepted : List BodyPiece) (buf : RequestBuffer) (piece : BodyPiece),
        assemble .empty accepted = some ⟨accepted, none, buf⟩ →
          buf.size ≤ buf.capacity ∧ buf.GrowthEnds piece := by
  refine ⟨?_, fun accepted buf piece hrun => ?_⟩
  · obtain ⟨a, ha, hcases⟩ := exists_assemble_empty pieces
    obtain ⟨a', ha', hcases'⟩ := exists_assemble_empty pieces'
    rw [← hsame] at hcases'
    refine ⟨a, a', ha, ha', ?_⟩
    rcases hcases with ⟨hle, hcomplete⟩ | ⟨hlt, hshort⟩
    · rcases hcases' with ⟨-, hcomplete'⟩ | ⟨hlt, -⟩
      · exact .inl ⟨hle, hcomplete, hcomplete'⟩
      · exact absurd hle (Nat.not_le.mpr hlt)
    · rcases hcases' with ⟨hle, -⟩ | ⟨-, hshort'⟩
      · exact absurd hle (Nat.not_le.mpr hlt)
      · exact .inr ⟨hlt, hshort, hshort'⟩
  · obtain ⟨a, ha, hholds, -⟩ := RequestBuffer.holds_empty.exists_assemble accepted
    obtain rfl := Option.some.inj (hrun.symm.trans ha)
    refine ⟨?_, hholds.growthEnds piece⟩
    rcases hholds.fits with rfl | htight
    · exact UInt64.le_refl _
    · rw [UInt64.le_iff_toNat_le, htight.size]
      exact htight.le_capacity

/-- A body in one piece. -/
def sampleWhole : List BodyPiece := [⟨[97, 98], List.cons_ne_nil _ _, by decide⟩]

/-- The same body in two pieces. -/
def sampleHalves : List BodyPiece :=
  [⟨[97], List.cons_ne_nil _ _, by decide⟩, ⟨[98], List.cons_ne_nil _ _, by decide⟩]

theorem assemble_split_sample :
    ∃ a a', assemble .empty sampleWhole = some a ∧ assemble .empty sampleHalves = some a' ∧
      a.Complete sampleWhole ∧ a'.Complete sampleHalves := by
  obtain ⟨⟨a, a', ha, ha', hcases⟩, -⟩ := assemble_split sampleWhole sampleHalves rfl
  refine ⟨a, a', ha, ha', ?_⟩
  rcases hcases with ⟨-, hcomplete⟩ | ⟨hlt, -⟩
  · exact hcomplete
  · exact absurd hlt (by decide)

end SuparnaD
