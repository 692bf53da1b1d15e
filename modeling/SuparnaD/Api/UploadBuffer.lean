import Mathlib.Data.List.Induction
import SuparnaD.Api.Request
import SuparnaD.Writer.ChunkLog

/-!
# The room for the terminator

`append_to_buffer` doubles the capacity of a buffer only when the bytes do not fit. The handlers
then write a zero behind the last byte without asking for room, so this byte lies outside the buffer
when the body fills it.

## Main definitions

* `Collects` : the pieces of an upload are appended one after the other.
* `RequestBuffer.TerminatorFits` : the zero lies inside the buffer.

## Main results

* `Collects.tight` : the capacity is the least one of the form `4096 * 2 ^ k` that is sufficient.
* `exists_collects` : every split of a body of at most ten mebibytes is collected.
* `terminatorFits_iff`.
-/

namespace SuparnaD

/-- The pieces are appended one after the other, each with success. -/
inductive Collects (buf : RequestBuffer) : List Bytes → RequestBuffer → Prop
  /-- Nothing has been uploaded. -/
  | nil : Collects buf [] buf
  /-- One more call of `append_to_buffer` returns `0`. -/
  | append {pieces : List Bytes} {buf₁ buf₂ : RequestBuffer} {o : IoOutcome} {data : Bytes} :
    Collects buf pieces buf₁ → appendToBuffer o buf₁ data = some (0, buf₂) →
      Collects buf (pieces ++ [data]) buf₂

/-- The index at which the handlers write the zero lies inside the allocated block. -/
def RequestBuffer.TerminatorFits (buf : RequestBuffer) : Prop :=
  ∃ block, buf.buffer = some block ∧ block.length = buf.capacity.toNat ∧ buf.size < buf.capacity

/-! ### The capacity -/

/-- The capacity is `4096 * 2 ^ k`, and no smaller one of this form holds the body. -/
structure RequestBuffer.Tight (buf : RequestBuffer) (n : ℕ) : Prop where
  size : buf.size.toNat = n
  block : ∃ block, buf.buffer = some block ∧ block.length = buf.capacity.toNat
  pow : ∃ k, buf.capacity.toNat = 4096 * 2 ^ k ∧ (k = 0 ∨ buf.capacity.toNat < 2 * n)
  le_capacity : n ≤ buf.capacity.toNat

variable {buf buf' : RequestBuffer} {o : IoOutcome} {data : Bytes} {pieces : List Bytes} {n : ℕ}

/-- The capacity at which the growth of a full buffer starts. -/
theorem startCapacity_eq {required : UInt64} (hbuf : buf = .empty ∨ buf.Tight n)
    (hfull : buf.capacity < required) (hrequired : required.toNat ≤ 2 ^ 62) :
    ∃ k, (if buf.capacity = 0 then initialBufferSize else buf.capacity * 2).toNat =
        4096 * 2 ^ k ∧ (k = 0 ∨ 4096 * 2 ^ k < 2 * required.toNat) := by
  have hlt := UInt64.lt_iff_toNat_lt.mp hfull
  rcases hbuf with rfl | hbuf
  · exact ⟨0, rfl, .inl rfl⟩
  obtain ⟨k, hk, -⟩ := hbuf.pow
  have hpos : 0 < buf.capacity.toNat := hk ▸ Nat.mul_pos (by omega) (Nat.two_pow_pos k)
  have hzero : ¬ buf.capacity = 0 := fun hzero => absurd (hzero ▸ hpos) (by decide)
  rw [if_neg hzero, toNat_mul_two (by omega)]
  exact ⟨k + 1, by rw [hk, Nat.pow_succ, Nat.mul_assoc], .inr (by omega)⟩

/-- The capacity at which it ends. -/
theorem growCapacity_tight {required newCapacity : UInt64}
    (hbuf : buf = .empty ∨ buf.Tight n) (hfull : buf.capacity < required)
    (hrequired : required.toNat ≤ 2 ^ 62)
    (h : Writer.growCapacity 64
      (if buf.capacity = 0 then initialBufferSize else buf.capacity * 2) required =
        some newCapacity) :
    ∃ k, newCapacity.toNat = 4096 * 2 ^ k ∧
      (k = 0 ∨ newCapacity.toNat < 2 * required.toNat) := by
  obtain ⟨k, hstart, hleast⟩ := startCapacity_eq hbuf hfull hrequired
  obtain ⟨j, hn, hcases⟩ := Writer.growCapacity_eq_mul_pow h (by omega)
  rw [hstart, Nat.mul_assoc, ← Nat.pow_add] at hn
  refine ⟨k + j, hn, ?_⟩
  rcases hcases with rfl | hless
  · rw [hn]
    exact hleast
  · exact .inr hless

/-- The buffer after a piece has been copied into its block. -/
def RequestBuffer.copied (buf : RequestBuffer) (data block : Bytes) (capacity : UInt64) :
    RequestBuffer :=
  ⟨some (writeAt block buf.size.toNat data), buf.size + data.length.toUInt64, capacity⟩

/-- The ways in which `append_to_buffer` accepts a piece. -/
inductive AcceptStep (o : IoOutcome) (buf : RequestBuffer) (data : Bytes) : RequestBuffer → Prop
  /-- The buffer was full and has been made larger. -/
  | grown {newCapacity : UInt64} : buf.capacity < buf.size + data.length.toUInt64 →
    Writer.growCapacity 64 (if buf.capacity = 0 then initialBufferSize else buf.capacity * 2)
        (buf.size + data.length.toUInt64) = some newCapacity →
    Writer.reallocGrants o newCapacity.toNat = true →
      AcceptStep o buf data (buf.copied data
        (Writer.reallocBuffer (buf.buffer.getD []) newCapacity.toNat) newCapacity)
  /-- The piece fits into the buffer. -/
  | inPlace {block : Bytes} : ¬ buf.capacity < buf.size + data.length.toUInt64 →
    buf.buffer = some block → AcceptStep o buf data (buf.copied data block buf.capacity)

theorem acceptStep_of_appendToBuffer (hrun : appendToBuffer o buf data = some (0, buf')) :
    AcceptStep o buf data buf' := by
  rw [appendToBuffer] at hrun
  dsimp only at hrun
  split at hrun
  · cases hrun
  split at hrun
  · cases hrun
  split at hrun
  · rename_i hfull
    split at hrun
    · cases hrun
    rename_i newCapacity hgrow
    split at hrun
    · cases hrun
    rename_i hgrant
    cases hrun
    exact .grown hfull hgrow (not_not.mp hgrant)
  · rename_i hroom
    split at hrun
    · cases hrun
    rename_i block hblock
    cases hrun
    exact .inPlace hroom hblock

/-- An append that succeeds keeps the capacity tight. -/
theorem appendToBuffer_tight (hbuf : buf = .empty ∨ buf.Tight n)
    (hn : buf.size.toNat = n) (hmax : n + data.length ≤ maxBodySize.toNat)
    (h : appendToBuffer o buf data = some (0, buf')) : buf'.Tight (n + data.length) := by
  have hmax' : maxBodySize.toNat = 10485760 := rfl
  have hsize : (buf.size + data.length.toUInt64).toNat = n + data.length := by
    rw [toNat_add_toUInt64 (by omega), hn]
  cases acceptStep_of_appendToBuffer h with
  | grown hfull hgrow hgrant =>
    have hle := UInt64.le_iff_toNat_le.mp (Writer.le_of_growCapacity hgrow)
    obtain ⟨k, hk, hcases⟩ := growCapacity_tight hbuf hfull (by omega) hgrow
    rw [hsize] at hle hcases
    refine ⟨hsize, ⟨_, rfl, ?_⟩, ⟨k, hk, hcases⟩, hle⟩
    rw [length_writeAt (by rw [length_reallocBuffer, hn]; exact hle), length_reallocBuffer]
    rfl
  | inPlace hroom hblock =>
    rw [UInt64.lt_iff_toNat_lt, hsize, Nat.not_lt] at hroom
    rcases hbuf with rfl | hbuf
    · cases hblock
    obtain ⟨block', hblock', hlen⟩ := hbuf.block
    obtain rfl := Option.some.inj (hblock.symm.trans hblock')
    obtain ⟨k, hk, hcases⟩ := hbuf.pow
    refine ⟨hsize, ⟨_, rfl, ?_⟩, ⟨k, hk, hcases.imp id fun hless => ?_⟩, hroom⟩
    · rw [length_writeAt (by rw [hlen, hn]; exact hroom), hlen]
      rfl
    · exact Nat.lt_of_lt_of_le hless (by omega)

/-- What has been collected fits tightly. -/
theorem Collects.tight (h : Collects .empty pieces buf)
    (hmax : pieces.flatten.length ≤ maxBodySize.toNat) :
    buf = .empty ∧ pieces = [] ∨ buf.Tight pieces.flatten.length := by
  induction h with
  | nil => exact .inl ⟨rfl, rfl⟩
  | append hcollects happend ih =>
    rename_i pieces buf₁ buf₂ o data
    have hlen : (pieces ++ [data]).flatten.length = pieces.flatten.length + data.length := by
      rw [List.flatten_append, List.flatten_singleton, List.length_append]
    rw [hlen] at hmax ⊢
    rcases ih (by omega) with ⟨rfl, rfl⟩ | htight
    · exact .inr (appendToBuffer_tight (.inl rfl) rfl hmax happend)
    · exact .inr (appendToBuffer_tight (.inr htight) htight.size hmax happend)

/-- Where the zero does not fit, the handlers have no text to read. -/
theorem RequestBuffer.Tight.isSome_text_iff (h : buf.Tight n) :
    buf.text.isSome ↔ buf.TerminatorFits := by
  obtain ⟨block, hblock, hlen⟩ := h.block
  rw [TerminatorFits, text, hblock]
  simp only [Option.some.injEq, exists_eq_left', hlen, true_and]
  rw [UInt64.lt_iff_toNat_lt]
  split_ifs with hfits
  · exact iff_of_true rfl hfits
  · exact iff_of_false (by decide) hfits

/-- Tight bodies leave no room when they are as long as a capacity can be, and only then. -/
theorem RequestBuffer.Tight.fits_iff (h : buf.Tight n) :
    buf.TerminatorFits ↔ ∀ k, n ≠ 4096 * 2 ^ k := by
  obtain ⟨k, hk, hleast⟩ := h.pow
  obtain ⟨block, hblock, hlen⟩ := h.block
  have hle := h.le_capacity
  rw [TerminatorFits]
  simp only [hblock, Option.some.injEq, exists_eq_left', hlen, true_and]
  rw [UInt64.lt_iff_toNat_lt, h.size]
  constructor
  · rintro hlt j rfl
    rw [hk] at hlt hleast
    have hjk : j < k := (Nat.pow_lt_pow_iff_right (by omega)).mp (Nat.lt_of_mul_lt_mul_left hlt)
    obtain ⟨i, rfl⟩ := Nat.exists_eq_add_of_lt hjk
    have hpow : 2 ^ (j + i + 1) = 2 * 2 ^ j * 2 ^ i := by
      rw [Nat.pow_succ, Nat.pow_add, Nat.mul_comm, Nat.mul_assoc]
    have hone := Nat.one_le_two_pow (n := i)
    rcases hleast with hzero | hless
    · omega
    · have hmul : 2 * 2 ^ j * 1 ≤ 2 * 2 ^ j * 2 ^ i := Nat.mul_le_mul_left _ hone
      omega
  · intro hne
    have := hne k
    omega

/-! ### Every split is collected -/

/-- Where memory is granted, a piece that keeps the body small enough is appended. -/
theorem exists_appendToBuffer (hbuf : buf = .empty ∨ buf.Tight n) (hn : buf.size.toNat = n)
    (hdata : data ≠ []) (hmax : n + data.length ≤ maxBodySize.toNat) :
    ∃ buf', appendToBuffer .ok buf data = some (0, buf') := by
  have hmax' : maxBodySize.toNat = 10485760 := rfl
  have hlen : ¬ data.length = 0 := fun h => hdata (List.eq_nil_of_length_eq_zero h)
  have hsize : (buf.size + data.length.toUInt64).toNat = n + data.length := by
    rw [toNat_add_toUInt64 (by omega), hn]
  have hsmall : ¬ maxBodySize < buf.size + data.length.toUInt64 := by
    rw [UInt64.lt_iff_toNat_lt, hsize]
    exact Nat.not_lt.mpr hmax
  rw [appendToBuffer, if_neg hlen]
  dsimp only
  rw [if_neg hsmall]
  by_cases hfull : buf.capacity < buf.size + data.length.toUInt64
  · rw [if_pos hfull]
    have hsmall' : (buf.size + data.length.toUInt64).toNat ≤ 2 ^ 62 := by omega
    obtain ⟨k, hstart, -⟩ := startCapacity_eq hbuf hfull hsmall'
    have hone := Nat.one_le_two_pow (n := k)
    obtain ⟨newCapacity, hgrow, -, -⟩ := Writer.growCapacity_eq_some 64
      (if buf.capacity = 0 then initialBufferSize else buf.capacity * 2)
      (Nat.le_trans hsmall' (by omega)) (by omega) (by omega)
    obtain ⟨k, hk, hcases⟩ := growCapacity_tight hbuf hfull hsmall' hgrow
    have hgrant : Writer.reallocGrants .ok newCapacity.toNat = true := by
      refine decide_eq_true ?_
      rcases hcases with rfl | hless <;> omega
    rw [hgrow]
    dsimp only
    rw [if_neg (not_not.mpr hgrant)]
    exact ⟨_, rfl⟩
  · rw [if_neg hfull]
    rcases hbuf with rfl | hbuf
    · refine absurd ?_ hfull
      rw [UInt64.lt_iff_toNat_lt, hsize]
      exact Nat.lt_of_lt_of_le (Nat.pos_of_ne_zero hlen) (Nat.le_add_left _ _)
    obtain ⟨block, hblock, -⟩ := hbuf.block
    rw [hblock]
    exact ⟨_, rfl⟩

/-- Every split of a body into pieces is collected. -/
theorem exists_collects (hpieces : ∀ data ∈ pieces, data ≠ [])
    (hmax : pieces.flatten.length ≤ maxBodySize.toNat) :
    ∃ buf, Collects .empty pieces buf := by
  induction pieces using List.reverseRecOn with
  | nil => exact ⟨.empty, .nil⟩
  | append_singleton pieces data ih =>
    rw [List.flatten_append, List.flatten_singleton, List.length_append] at hmax
    obtain ⟨buf, hcollects⟩ := ih (fun d hd => hpieces d (List.mem_append_left _ hd)) (by omega)
    have hbuf : buf = .empty ∧ pieces = [] ∨ buf.Tight pieces.flatten.length :=
      hcollects.tight (by omega)
    have hn : buf.size.toNat = pieces.flatten.length := by
      rcases hbuf with ⟨rfl, rfl⟩ | hbuf
      · rfl
      · exact hbuf.size
    obtain ⟨buf', happend⟩ := exists_appendToBuffer (hbuf.imp And.left id) hn
      (hpieces data (List.mem_append_right _ (List.mem_singleton_self data))) hmax
    exact ⟨buf', hcollects.append happend⟩

/-- The zero behind a body has room exactly when the length of the body is not `4096 * 2 ^ k`. -/
theorem terminatorFits_iff (h : Collects .empty pieces buf) (hpieces : pieces ≠ [])
    (hmax : pieces.flatten.length ≤ maxBodySize.toNat) :
    buf.TerminatorFits ↔ ∀ k, pieces.flatten.length ≠ 4096 * 2 ^ k := by
  rcases h.tight hmax with ⟨-, hnil⟩ | htight
  · exact absurd hnil hpieces
  · exact htight.fits_iff

theorem terminatorFits_iff_sample :
    RequestBuffer.TerminatorFits ⟨some (writeAt (Writer.reallocBuffer [] 4096) 0 [97]), 1, 4096⟩ ↔
      ∀ k, [[(97 : UInt8)]].flatten.length ≠ 4096 * 2 ^ k :=
  terminatorFits_iff (.append (o := .ok) .nil rfl) (List.cons_ne_nil _ _) (by decide)

/-- A body of 4096 bytes fills its buffer. -/
theorem not_terminatorFits_sample : ∃ buf, Collects .empty [List.replicate 4096 97] buf ∧
    ¬ buf.TerminatorFits := by
  have hlen : [List.replicate 4096 (97 : UInt8)].flatten.length = 4096 := by
    rw [List.flatten_singleton, List.length_replicate]
  have hmax : [List.replicate 4096 (97 : UInt8)].flatten.length ≤ maxBodySize.toNat :=
    Nat.le_trans (Nat.le_of_eq hlen) (by decide)
  have hne : ∀ data ∈ [List.replicate 4096 (97 : UInt8)], data ≠ [] := by
    intro data hdata
    rw [List.mem_singleton.mp hdata]
    exact List.cons_ne_nil _ _
  obtain ⟨buf, hcollects⟩ := exists_collects hne hmax
  refine ⟨buf, hcollects, fun hfits => ?_⟩
  rcases hcollects.tight hmax with ⟨-, hnil⟩ | htight
  · exact absurd hnil (List.cons_ne_nil _ _)
  · exact htight.fits_iff.mp hfits 0 (hlen.trans (by decide))

end SuparnaD
