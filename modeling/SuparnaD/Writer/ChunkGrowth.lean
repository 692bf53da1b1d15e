import SuparnaD.Writer.ChunkLog

/-!
# How far a chunk can grow

`chunk_append` doubles the capacity of the chunk until the data fit, and no block of memory has
`2 ^ 63` bytes. So a number of bytes fits when some doubling of the capacity lies between the two,
and appending does not change which numbers these are.

## Main definitions

* `Chunk.CanHold`.
* `Chunk.GrowsTo`, `Chunk.Appended` : what `chunk_append` makes of the capacity and of the content.

## Main results

* `Writer.chunkAppend_iff` : with memory, an append succeeds exactly when the bytes fit.
* `Writer.canHold_append`.
* `Writer.chunkAppend_growth` : up to a sum of `2 ^ 63` bytes no doubling wraps.
-/

namespace SuparnaD

namespace Chunk

/-- The capacity from which a chunk grows. -/
def firstCapacity (c : Chunk) : ℕ :=
  if c.capacity = 0 then initialCapacity.toNat else c.capacity.toNat

/-- Doubling makes room for `n` bytes in a block of memory. -/
def CanHold (c : Chunk) (n : ℕ) : Prop :=
  ∃ k, n ≤ c.firstCapacity * 2 ^ k ∧ c.firstCapacity * 2 ^ k < 2 ^ 63

variable {c : Chunk} {m n : ℕ}

theorem CanHold.mono (h : c.CanHold n) (hmn : m ≤ n) : c.CanHold m := by
  obtain ⟨k, hk, hlt⟩ := h
  exact ⟨k, Nat.le_trans hmn hk, hlt⟩

theorem firstCapacity_of_pos (h : 0 < c.capacity.toNat) : c.firstCapacity = c.capacity.toNat :=
  if_neg fun hzero => by
    rw [hzero] at h
    exact absurd h (by decide)

theorem firstCapacity_pos (c : Chunk) : 0 < c.firstCapacity := by
  rw [firstCapacity]
  split_ifs with hzero
  · decide
  · exact Nat.pos_of_ne_zero fun h => hzero (UInt64.toNat_inj.mp h)

end Chunk

namespace Writer

variable {c c' : Chunk} {l : DeltaLog UInt8} {data : Bytes} {o : IoOutcome}

/-- The doubling loop starts at the first capacity or at its double. -/
theorem startCapacity_toNat (hwf : c.WellFormed) :
    ∃ j, (if c.capacity = 0 then initialCapacity else c.capacity * 2).toNat =
      c.firstCapacity * 2 ^ j ∧ (j = 0 ∨ j = 1 ∧ c.firstCapacity = c.capacity.toNat) := by
  have hlt := hwf.capacity_lt
  rw [Chunk.firstCapacity]
  split_ifs with hzero
  · exact ⟨0, (Nat.mul_one _).symm, .inl rfl⟩
  · refine ⟨1, ?_, .inr ⟨rfl, rfl⟩⟩
    rw [toNat_mul_two hlt, Nat.pow_one]

/-- The sum of the sizes does not wrap. -/
theorem size_add_toNat (hwf : c.WellFormed) (hdata : data.length < 2 ^ 63) :
    (c.size + data.length.toUInt64).toNat = c.size.toNat + data.length := by
  have hsize := hwf.size_le
  have hcapacity := hwf.capacity_lt
  exact toNat_add_toUInt64 (by omega)

/-- An append that succeeds has doubled the capacity some number of times. -/
theorem capacity_chunkAppend (hwf : c.WellFormed) (hdata : data.length < 2 ^ 63)
    (hrun : chunkAppend o c data = some (0, c')) :
    ∃ k, c'.capacity.toNat = c.firstCapacity * 2 ^ k := by
  have hsum := size_add_toNat hwf hdata
  cases appendStep_of_chunkAppend hrun with
  | grown _ _ hgrow hgrant =>
    rw [reallocGrants, Bool.and_eq_true, decide_eq_true_eq] at hgrant
    have hreq := UInt64.le_iff_toNat_le.mp (le_of_growCapacity hgrow)
    obtain ⟨j, hj, -⟩ := growCapacity_eq_mul_pow hgrow (by omega)
    obtain ⟨i, hi, -⟩ := startCapacity_toNat hwf
    refine ⟨i + j, ?_⟩
    rw [hj, hi, Nat.pow_add, Nat.mul_assoc]
  | inPlace hne hroom =>
    have hpos := List.length_pos_iff.mpr hne
    rw [UInt64.lt_iff_toNat_lt, hsum] at hroom
    exact ⟨0, by rw [Chunk.firstCapacity_of_pos (by omega), Nat.pow_zero, Nat.mul_one]⟩

/-- Appending does not change what the chunk can hold. -/
theorem canHold_append (hrep : c.Represents l) (hdata : data.length < 2 ^ 63)
    (hrun : chunkAppend o c data = some (0, c')) (n : ℕ) : c'.CanHold n ↔ c.CanHold n := by
  obtain ⟨k, hk⟩ := capacity_chunkAppend hrep.wellFormed hdata hrun
  obtain ⟨-, ⟨-, -, hrep'⟩ | ⟨hneg, -⟩⟩ := chunkAppend_cases hrep o hdata hrun
  swap
  · cases hneg
  have hlt : c'.capacity.toNat < 2 ^ 63 := hrep'.wellFormed.capacity_lt
  have hfirst : c'.firstCapacity = c.firstCapacity * 2 ^ k := by
    have hpos := Nat.mul_pos c.firstCapacity_pos (Nat.two_pow_pos k)
    rw [Chunk.firstCapacity_of_pos (by omega), hk]
  constructor
  · rintro ⟨j, hle, hless⟩
    rw [hfirst, Nat.mul_assoc, ← Nat.pow_add] at hle hless
    exact ⟨k + j, hle, hless⟩
  · rintro ⟨j, hle, hless⟩
    rw [Chunk.CanHold, hfirst]
    rcases Nat.le_total k j with hkj | hjk
    · refine ⟨j - k, ?_⟩
      rw [Nat.mul_assoc, ← Nat.pow_add, Nat.add_sub_cancel' hkj]
      exact ⟨hle, hless⟩
    · refine ⟨0, ?_⟩
      rw [Nat.pow_zero, Nat.mul_one]
      refine ⟨Nat.le_trans hle ?_, hk ▸ hlt⟩
      exact Nat.mul_le_mul_left _ (Nat.pow_le_pow_right Nat.zero_lt_two hjk)

/-- The least sufficient doubling is at most any other that is sufficient. -/
theorem mul_pow_le {first required j k : ℕ}
    (hleast : first * 2 ^ j < 2 * required) (hle : required ≤ first * 2 ^ k) :
    first * 2 ^ j ≤ first * 2 ^ k := by
  have hless : first * 2 ^ j < first * 2 ^ (k + 1) := by
    rw [Nat.pow_succ, ← Nat.mul_assoc]
    omega
  have hpow := Nat.lt_of_mul_lt_mul_left hless
  have hexp := (Nat.pow_lt_pow_iff_right (by omega : 1 < 2)).mp hpow
  exact Nat.mul_le_mul_left _ (Nat.pow_le_pow_right Nat.zero_lt_two (by omega))

/-- When the bytes fit, the doubling loop ends at a capacity that `realloc` grants. -/
theorem growCapacity_of_canHold (hwf : c.WellFormed) {required : UInt64}
    (hfull : c.capacity < required) (hfits : c.CanHold required.toNat) :
    ∃ n, growCapacity 64 (if c.capacity = 0 then initialCapacity else c.capacity * 2) required =
      some n ∧ n.toNat < 2 ^ 63 := by
  obtain ⟨k, hle, hlt⟩ := hfits
  have hreq : required.toNat ≤ 2 ^ 63 := by omega
  obtain ⟨n, hn, -, -⟩ := growCapacity_of_full hfull hreq
  refine ⟨n, hn, Nat.lt_of_le_of_lt ?_ hlt⟩
  obtain ⟨i, hi, hstart⟩ := startCapacity_toNat hwf
  obtain ⟨j, hj, hcases⟩ := growCapacity_eq_mul_pow hn hreq
  rw [hi, Nat.mul_assoc, ← Nat.pow_add] at hj
  rcases hcases with rfl | hless
  · rw [hj]
    refine Nat.mul_le_mul_left _ (Nat.pow_le_pow_right Nat.zero_lt_two ?_)
    rcases hstart with rfl | ⟨rfl, hfirst⟩
    · exact Nat.zero_le k
    -- A full buffer of the first capacity does not hold the bytes undoubled.
    · by_contra hk
      obtain rfl : k = 0 := by omega
      rw [hfirst, Nat.pow_zero, Nat.mul_one] at hle
      have := UInt64.lt_iff_toNat_lt.mp hfull
      omega
  · rw [hj] at hless ⊢
    exact mul_pow_le hless hle

/-- With memory, an append succeeds exactly when the bytes fit. -/
theorem chunkAppend_iff (hrep : c.Represents l) (halloc : o.alloc = true) (hne : data ≠ [])
    (hdata : data.length < 2 ^ 63) :
    (∃ c', chunkAppend o c data = some (0, c')) ↔ c.CanHold (c.size.toNat + data.length) := by
  have hwf := hrep.wellFormed
  have hsum := size_add_toNat hwf hdata
  constructor
  · rintro ⟨c', hrun⟩
    rw [← canHold_append hrep hdata hrun]
    obtain ⟨-, ⟨-, -, hrep'⟩ | ⟨hneg, -⟩⟩ := chunkAppend_cases hrep o hdata hrun
    swap
    · cases hneg
    have hsize : c'.size.toNat = _ := hrep'.size_eq
    rw [DeltaLog.shown_append, List.length_append, ← hrep.size_eq] at hsize
    have hle : c'.size.toNat ≤ c'.capacity.toNat := hrep'.wellFormed.size_le
    have hpos := List.length_pos_iff.mpr hne
    refine ⟨0, ?_⟩
    rw [Chunk.firstCapacity_of_pos (by omega), Nat.pow_zero, Nat.mul_one, ← hsize]
    exact ⟨hle, hrep'.wellFormed.capacity_lt⟩
  · intro hfits
    rw [← hsum] at hfits
    rw [chunkAppend, if_neg fun h => hne (List.length_eq_zero_iff.mp h)]
    dsimp only
    split
    · rename_i hfull
      obtain ⟨n, hn, hlt⟩ := growCapacity_of_canHold hwf hfull hfits
      have hgrant : reallocGrants o n.toNat = true := by
        rw [reallocGrants, halloc, Bool.true_and, decide_eq_true_eq]
        exact hlt
      rw [hn]
      simp only [hgrant, not_true_eq_false, ↓reduceIte, Option.some.injEq, Prod.mk.injEq, true_and]
      exact ⟨_, rfl⟩
    · exact ⟨_, rfl⟩

end Writer

/-! ### The arithmetic of the loop -/

namespace Chunk

/-- The capacity at which the doubling loop starts, computed without wrapping. -/
def startCapacity (c : Chunk) : ℕ :=
  if c.capacity = 0 then initialCapacity.toNat else 2 * c.capacity.toNat

/-- The capacity after room has been made for `required` bytes. If the old one does not suffice,
the loop ends, and it has doubled the capacity without wrapping as long as that was necessary. -/
structure GrowsTo (c : Chunk) (required : ℕ) (n : UInt64) : Prop where
  sufficient : required ≤ n.toNat
  unchanged : required ≤ c.capacity.toNat → n = c.capacity
  bounded : c.capacity.toNat < required → n.toNat ≤ max 1024 (2 * required - 1)
  loop : c.capacity.toNat < required → Writer.growCapacity 64
    (if c.capacity = 0 then initialCapacity else c.capacity * 2) required.toUInt64 = some n
  doublings : c.capacity.toNat < required → ∃ j, n.toNat = c.startCapacity * 2 ^ j ∧
    ∀ i < j, c.startCapacity * 2 ^ i < required

/-- The data stand behind the old content, in a block of the given capacity. -/
structure Appended (c c' : Chunk) (data : Bytes) (n : UInt64) : Prop where
  content : c'.content = c.content ++ data
  size : c'.size.toNat = c.size.toNat + data.length
  capacity : c'.capacity = n
  length_data : c'.data.length = n.toNat
  filePath : c'.filePath = c.filePath
  persistedSize : c'.persistedSize = c.persistedSize

theorem exists_growsTo (c : Chunk) {required : ℕ} (hrequired : required ≤ 2 ^ 63) :
    ∃ n, c.GrowsTo required n := by
  have hnat : required.toUInt64.toNat = required := toNat_toUInt64 (by omega)
  by_cases hfull : c.capacity.toNat < required
  swap
  · refine ⟨c.capacity, Nat.le_of_not_lt hfull, fun _ => rfl, ?_, ?_, ?_⟩ <;>
      exact fun h => absurd h hfull
  have hless : c.capacity < required.toUInt64 := by rwa [UInt64.lt_iff_toNat_lt, hnat]
  obtain ⟨n, hn, hle, hlt⟩ := Writer.growCapacity_of_full hless (by rwa [hnat])
  obtain ⟨j, hj, hsteps⟩ := Writer.growCapacity_doublings hn (by rwa [hnat])
  have hstart : (if c.capacity = 0 then initialCapacity else c.capacity * 2).toNat =
      c.startCapacity := by
    rw [startCapacity]
    split_ifs with hzero
    · rfl
    · rw [toNat_mul_two (by omega), Nat.mul_comm]
  rw [hnat] at hle hlt hsteps
  rw [hstart] at hj hsteps
  refine ⟨n, hle, fun hroom => ?_, fun _ => ?_, fun _ => hn, fun _ => ⟨j, hj, hsteps⟩⟩
  · exact absurd hfull (Nat.not_lt.mpr hroom)
  · omega

/-- The data are copied behind the content of a block that has been made long enough. -/
theorem appended_of_block {c : Chunk} {data buf : Bytes} {n : UInt64}
    (hbuf : buf.length = n.toNat) (hroom : c.size.toNat + data.length ≤ n.toNat)
    (hkeep : buf.take c.size.toNat = c.content) :
    c.Appended { c with
      data := writeAt buf c.size.toNat data
      capacity := n
      size := (c.size.toNat + data.length).toUInt64 } data n := by
  have hlt := n.toNat_lt
  have hnat : (c.size.toNat + data.length).toUInt64.toNat = c.size.toNat + data.length :=
    toNat_toUInt64 (by omega)
  refine ⟨?_, hnat, rfl, ?_, rfl, rfl⟩
  · rw [content, hnat, take_writeAt (by omega), hkeep]
  · rw [length_writeAt (by omega), hbuf]

end Chunk

namespace Writer

/-- Up to a sum of `2 ^ 63` bytes the loop ends without wrapping at a sufficient capacity, and the
data are appended to the content, unless the block cannot be reallocated; then the chunk stays as
it was. -/
theorem chunkAppend_growth (o : IoOutcome) (c : Chunk) (data : Bytes) (hsize : c.size ≤ c.capacity)
    (hblock : c.data.length = c.capacity.toNat) (hdata : data ≠ [])
    (hmax : c.size.toNat + data.length ≤ 2 ^ 63) :
    ∃ n, c.GrowsTo (c.size.toNat + data.length) n ∧
      if c.capacity.toNat < c.size.toNat + data.length ∧ reallocGrants o n.toNat = false then
        chunkAppend o c data = some (-1, c)
      else ∃ c', chunkAppend o c data = some (0, c') ∧ c.Appended c' data n := by
  obtain ⟨n, hn⟩ := c.exists_growsTo hmax
  refine ⟨n, hn, ?_⟩
  have hsum : c.size + data.length.toUInt64 = (c.size.toNat + data.length).toUInt64 := by
    rw [← UInt64.toNat_inj, toNat_toUInt64 (by omega), toNat_add_toUInt64 (by omega)]
  have hnat : (c.size.toNat + data.length).toUInt64.toNat = c.size.toNat + data.length :=
    toNat_toUInt64 (by omega)
  have hle := UInt64.le_iff_toNat_le.mp hsize
  have hfull_iff : c.capacity < (c.size.toNat + data.length).toUInt64 ↔
      c.capacity.toNat < c.size.toNat + data.length := by
    rw [UInt64.lt_iff_toNat_lt, hnat]
  rw [chunkAppend, if_neg fun h => hdata (List.length_eq_zero_iff.mp h)]
  dsimp only
  rw [hsum]
  by_cases hfull : c.capacity.toNat < c.size.toNat + data.length
  · rw [if_pos (hfull_iff.mpr hfull), hn.loop hfull]
    cases hgrant : reallocGrants o n.toNat with
    | false =>
      rw [if_pos ⟨hfull, rfl⟩]
      exact if_pos (by rw [hgrant]; exact Bool.false_ne_true)
    | true =>
      rw [if_neg fun h => Bool.noConfusion h.2]
      refine ⟨_, if_neg (not_not.mpr hgrant), ?_⟩
      have hkeep : (reallocBuffer c.data n.toNat).take c.size.toNat = c.content :=
        take_reallocBuffer (by have := hn.sufficient; omega) (by omega)
      exact Chunk.appended_of_block (length_reallocBuffer _ _) hn.sufficient hkeep
  · rw [if_neg (mt hfull_iff.mp hfull), if_neg fun h => hfull h.1]
    have hroom := Nat.le_of_not_lt hfull
    obtain rfl := hn.unchanged hroom
    exact ⟨_, rfl, Chunk.appended_of_block hblock hroom rfl⟩

/-- Four bytes behind three in a full block: the loop goes from 6 to 12. -/
theorem chunkAppend_growth_sample :
    ∃ n, Chunk.GrowsTo ⟨[], [1, 2, 3], 3, 3, 0⟩ 7 n ∧
      if (3 : UInt64).toNat < 7 ∧ reallocGrants .ok n.toNat = false then
        chunkAppend .ok ⟨[], [1, 2, 3], 3, 3, 0⟩ [4, 5, 6, 7] =
          some (-1, ⟨[], [1, 2, 3], 3, 3, 0⟩)
      else ∃ c', chunkAppend .ok ⟨[], [1, 2, 3], 3, 3, 0⟩ [4, 5, 6, 7] = some (0, c') ∧
        Chunk.Appended ⟨[], [1, 2, 3], 3, 3, 0⟩ c' [4, 5, 6, 7] n :=
  chunkAppend_growth .ok ⟨[], [1, 2, 3], 3, 3, 0⟩ [4, 5, 6, 7] (UInt64.le_refl _) rfl
    (List.cons_ne_nil _ _) (by simp)

end Writer

end SuparnaD
