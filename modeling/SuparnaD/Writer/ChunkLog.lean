import SuparnaD.Foundation.DeltaLog
import SuparnaD.Writer.ReadWriteData

/-!
# Chunks represent logs that save their tail

A well-formed chunk represents a `DeltaLog` of bytes: the items in memory are the first `size` bytes
of the buffer, of which `persistedSize` count as saved. Each function of the writer, on every exit,
either leaves the represented log as it was or has the effect of the operation of the same name
on logs.

## Main definitions

* `Chunk.WellFormed`, `Chunk.content`, `Chunk.log`, `Chunk.Represents`.
* `Writer.AppendStep` : the ways in which `chunk_append` returns.

## Main results

* `Writer.chunkLoad_cases`, `Writer.chunkAppend_cases`, `Writer.chunkSaveDelta_cases` : everything
  that these functions can do.
* `Writer.chunkRead_eq` : reading is reading from the log.
-/

namespace SuparnaD

/-! ### Sizes and buffers -/

theorem toNat_toUInt64 {n : ℕ} (h : n < 2 ^ 64) : n.toUInt64.toNat = n := by
  rw [Nat.toUInt64, UInt64.toNat_ofNat']
  exact Nat.mod_eq_of_lt h

/-- A sum of sizes that does not wrap. -/
theorem toNat_add_toUInt64 {a : UInt64} {n : ℕ} (h : a.toNat + n < 2 ^ 64) :
    (a + n.toUInt64).toNat = a.toNat + n := by
  rw [UInt64.toNat_add, toNat_toUInt64 (by omega)]
  exact Nat.mod_eq_of_lt h

/-- Doubling does not wrap below `2 ^ 63`. -/
theorem toNat_mul_two {a : UInt64} (h : a.toNat < 2 ^ 63) : (a * 2).toNat = a.toNat * 2 := by
  have htwo : (2 : UInt64).toNat = 2 := rfl
  rw [UInt64.toNat_mul, htwo]
  omega

@[simp] theorem length_reallocBuffer (buf : Bytes) (n : ℕ) :
    (Writer.reallocBuffer buf n).length = n := by
  simp only [Writer.reallocBuffer, List.length_append, List.length_take, List.length_replicate]
  omega

theorem take_reallocBuffer {buf : Bytes} {n k : ℕ} (hn : k ≤ n) (hk : k ≤ buf.length) :
    (Writer.reallocBuffer buf n).take k = buf.take k := by
  rw [Writer.reallocBuffer, List.take_append_of_le_length (by rw [List.length_take]; omega),
    List.take_take, Nat.min_eq_left hn]

theorem length_writeAt {buf bytes : Bytes} {off : ℕ} (h : off + bytes.length ≤ buf.length) :
    (writeAt buf off bytes).length = buf.length := by
  simp only [writeAt, List.length_append, List.length_take, List.length_drop]
  omega

/-- The buffer up to the end of the bytes that were written. -/
theorem take_writeAt {buf bytes : Bytes} {off : ℕ} (h : off ≤ buf.length) :
    (writeAt buf off bytes).take (off + bytes.length) = buf.take off ++ bytes := by
  have hlen : (buf.take off ++ bytes).length = off + bytes.length := by
    simp only [List.length_append, List.length_take, Nat.min_eq_left h]
  rw [writeAt, List.take_append_of_le_length (Nat.le_of_eq hlen.symm),
    List.take_of_length_le (Nat.le_of_eq hlen)]

/-! ### The represented log -/

namespace Chunk

/-- The sizes of a chunk fit together, and its buffer fits into memory. -/
structure WellFormed (c : Chunk) : Prop where
  /-- The buffer is `capacity` bytes long. -/
  length_data : c.data.length = c.capacity.toNat
  /-- An object in memory has fewer than `2 ^ 63` bytes. -/
  capacity_lt : c.capacity.toNat < 2 ^ 63
  size_le : c.size.toNat ≤ c.capacity.toNat
  persisted_le : c.persistedSize.toNat ≤ c.size.toNat

/-- The valid bytes of the buffer. -/
def content (c : Chunk) : Bytes := c.data.take c.size.toNat

theorem WellFormed.length_content {c : Chunk} (h : c.WellFormed) :
    c.content.length = c.size.toNat := by
  have := h.length_data
  have := h.size_le
  rw [content, List.length_take]
  omega

/-- The log that a well-formed chunk represents. -/
def log (c : Chunk) (h : c.WellFormed) : DeltaLog UInt8 :=
  ⟨c.content, c.persistedSize.toNat, by rw [h.length_content]; exact h.persisted_le⟩

/-- The chunk is well formed and represents the log. -/
def Represents (c : Chunk) (l : DeltaLog UInt8) : Prop := ∃ h : c.WellFormed, c.log h = l

theorem WellFormed.represents {c : Chunk} (h : c.WellFormed) : c.Represents (c.log h) := ⟨h, rfl⟩

namespace Represents

variable {c : Chunk} {l : DeltaLog UInt8} (h : c.Represents l)

include h

theorem wellFormed : c.WellFormed := h.1

theorem content_eq : c.content = l.shown := by
  obtain ⟨_, rfl⟩ := h
  rfl

theorem persistedSize_eq : c.persistedSize.toNat = l.saved := by
  obtain ⟨_, rfl⟩ := h
  rfl

theorem size_eq : c.size.toNat = l.shown.length := by
  rw [← h.content_eq, h.wellFormed.length_content]

theorem shown_length_lt : l.shown.length < 2 ^ 63 := by
  have := h.wellFormed.size_le
  have := h.wellFormed.capacity_lt
  have := h.size_eq
  omega

/-- The part of the buffer that a save writes out. -/
theorem delta_eq :
    (c.data.drop c.persistedSize.toNat).take (c.size - c.persistedSize).toNat = l.pending := by
  have hle := h.wellFormed.persisted_le
  rw [UInt64.toNat_sub_of_le _ _ (UInt64.le_iff_toNat_le.mpr hle), DeltaLog.pending,
    ← h.content_eq, ← h.persistedSize_eq, content, List.drop_take]

theorem size_le_persistedSize_iff : c.size ≤ c.persistedSize ↔ l.pending = [] := by
  rw [UInt64.le_iff_toNat_le, h.size_eq, h.persistedSize_eq, DeltaLog.pending_eq_nil_iff]

end Represents

theorem Represents.mk' {c : Chunk} {l : DeltaLog UInt8} (h : c.WellFormed)
    (hcontent : c.content = l.shown) (hsaved : c.persistedSize.toNat = l.saved) :
    c.Represents l :=
  ⟨h, DeltaLog.ext hcontent hsaved⟩

/-- A chunk that represents two logs represents one. -/
theorem Represents.unique {c : Chunk} {l l' : DeltaLog UInt8} (h : c.Represents l)
    (h' : c.Represents l') : l = l' := by
  obtain ⟨_, rfl⟩ := h
  obtain ⟨_, rfl⟩ := h'
  rfl

end Chunk

namespace Writer

open Chunk

/-! ### Initialisation -/

theorem chunkInit_represents {o : IoOutcome} {filePath : Bytes} {c : Chunk}
    (h : chunkInit o filePath = some c) :
    c.filePath = filePath ∧ c.Represents (DeltaLog.load []) := by
  rw [chunkInit] at h
  split at h
  · cases h
    exact ⟨rfl, .mk' ⟨rfl, by simp, by simp, by simp⟩ rfl rfl⟩
  · cases h

/-! ### Loading -/

/-- What `fopen` shows of a file. -/
def seenFile (o : IoOutcome) (file : Option Bytes) : Option Bytes := if o.opens then file else none

@[simp] theorem seenFile_ok (file : Option Bytes) : seenFile .ok file = file := rfl

/-- The buffer with room for a file of `n` bytes. -/
def roomFor (c : Chunk) (n : ℕ) : Chunk :=
  if c.capacity < n.toUInt64 then
    { c with data := reallocBuffer c.data n, capacity := n.toUInt64 }
  else c

theorem roomFor_wellFormed {c : Chunk} (h : c.WellFormed) {n : ℕ} (hn : n < 2 ^ 63) :
    (roomFor c n).WellFormed ∧ n ≤ (roomFor c n).capacity.toNat ∧
      (roomFor c n).size = c.size ∧ (roomFor c n).persistedSize = c.persistedSize ∧
      (roomFor c n).filePath = c.filePath := by
  have hsize : n.toUInt64.toNat = n := toNat_toUInt64 (by omega)
  have hle := h.size_le
  rw [roomFor]
  split
  · rename_i hlt
    rw [UInt64.lt_iff_toNat_lt, hsize] at hlt
    refine ⟨⟨?_, ?_, ?_, h.persisted_le⟩, ?_, rfl, rfl, rfl⟩
    · rw [length_reallocBuffer, hsize]
    · rwa [hsize]
    · dsimp only
      omega
    · dsimp only
      omega
  · rename_i hge
    rw [UInt64.lt_iff_toNat_lt, hsize] at hge
    exact ⟨h, by omega, rfl, rfl, rfl⟩

theorem chunkLoad_of_none {o : IoOutcome} {file : Option Bytes} (hseen : seenFile o file = none)
    (c : Chunk) : chunkLoad o file c = (0, { c with size := 0, persistedSize := 0 }) := by
  rw [seenFile] at hseen
  simp only [chunkLoad, hseen]

theorem chunkLoad_of_some {o : IoOutcome} {file : Option Bytes} {content : Bytes}
    (hseen : seenFile o file = some content) (c : Chunk) :
    chunkLoad o file c =
      if ¬ o.tells ∨ 2 ^ 63 ≤ content.length then (-1, c)
      else if c.capacity < content.length.toUInt64 ∧ ¬ o.alloc then (-1, c)
      else
        let c := { roomFor c content.length with
          data := writeAt (roomFor c content.length).data 0
            (content.take (o.transferred content.length)) }
        if o.transferred content.length ≠ content.length then (-1, c)
        else (0, { c with
          size := content.length.toUInt64
          persistedSize := content.length.toUInt64 }) := by
  rw [seenFile] at hseen
  simp only [chunkLoad, hseen, roomFor]

/-- `chunk_load` succeeds with a chunk that represents the file, or fails with the sizes as they
were. A failure may have overwritten bytes of the buffer. -/
theorem chunkLoad_cases {c : Chunk} (h : c.WellFormed) (o : IoOutcome) (file : Option Bytes) :
    (chunkLoad o file c).2.filePath = c.filePath ∧
      ((chunkLoad o file c).1 = 0 ∧
          (chunkLoad o file c).2.Represents (.load ((seenFile o file).getD [])) ∨
        (chunkLoad o file c).1 = -1 ∧ (chunkLoad o file c).2.WellFormed ∧
          (chunkLoad o file c).2.size = c.size ∧
          (chunkLoad o file c).2.persistedSize = c.persistedSize) := by
  cases hseen : seenFile o file with
  | none =>
    rw [chunkLoad_of_none hseen]
    refine ⟨rfl, .inl ⟨rfl, .mk' ⟨h.length_data, h.capacity_lt, ?_, ?_⟩ rfl rfl⟩⟩ <;> simp
  | some content =>
    rw [chunkLoad_of_some hseen, Option.getD_some]
    split
    · exact ⟨rfl, .inr ⟨rfl, h, rfl, rfl⟩⟩
    rename_i htell
    have hlen : content.length < 2 ^ 63 := Nat.lt_of_not_le (not_or.mp htell).2
    obtain ⟨hroom, hcap, hsize, hsaved, hpath⟩ := roomFor_wellFormed h hlen
    have hnat : content.length.toUInt64.toNat = content.length := toNat_toUInt64 (by omega)
    -- The read stays inside the buffer, however long it is.
    have hwrite (n : ℕ) :
        ({ roomFor c content.length with
          data := writeAt (roomFor c content.length).data 0 (content.take n) } :
          Chunk).WellFormed := by
      refine ⟨?_, hroom.capacity_lt, hroom.size_le, hroom.persisted_le⟩
      rw [length_writeAt, hroom.length_data]
      rw [hroom.length_data, List.length_take]
      omega
    split
    · exact ⟨rfl, .inr ⟨rfl, h, rfl, rfl⟩⟩
    dsimp only
    split
    · exact ⟨hpath, .inr ⟨rfl, hwrite _, hsize, hsaved⟩⟩
    rename_i hcount
    rw [not_not] at hcount
    refine ⟨hpath, .inl ⟨rfl, .mk' ⟨(hwrite _).length_data, hroom.capacity_lt, ?_, Nat.le_refl _⟩
      ?_ hnat⟩⟩
    · rw [hnat]
      exact hcap
    · simp only [Chunk.content, hnat, hcount, List.take_length, DeltaLog.shown_load]
      simpa using @take_writeAt (roomFor c content.length).data content 0 (Nat.zero_le _)

theorem chunkLoad_ok (c : Chunk) (file : Option Bytes) (hfile : (file.getD []).length < 2 ^ 63) :
    (chunkLoad .ok file c).1 = 0 := by
  cases file with
  | none => rfl
  | some content =>
    have hshort : ¬ (¬ IoOutcome.ok.tells = true ∨ 2 ^ 63 ≤ content.length) :=
      not_or.mpr ⟨not_not.mpr rfl, Nat.not_le.mpr hfile⟩
    rw [chunkLoad_of_some (seenFile_ok _), if_neg hshort]
    simp

/-! ### Appending -/

/-- The doubling loop ends at a sufficient capacity. -/
theorem le_of_growCapacity {fuel : ℕ} {newCapacity required n : UInt64}
    (h : growCapacity fuel newCapacity required = some n) : required ≤ n := by
  induction fuel generalizing newCapacity with
  | zero =>
    rw [growCapacity] at h
    split at h
    · cases h
    · rename_i hge
      cases h
      exact UInt64.not_lt.mp hge
  | succ fuel ih =>
    rw [growCapacity] at h
    split at h
    · exact ih h
    · rename_i hge
      cases h
      exact UInt64.not_lt.mp hge

/-- The doubling loop ends at the first sufficient capacity, and none of its doublings wraps. -/
theorem growCapacity_doublings {fuel : ℕ} {newCapacity required n : UInt64}
    (h : growCapacity fuel newCapacity required = some n)
    (hrequired : required.toNat ≤ 2 ^ 63) :
    ∃ j, n.toNat = newCapacity.toNat * 2 ^ j ∧
      ∀ i < j, newCapacity.toNat * 2 ^ i < required.toNat := by
  induction fuel generalizing newCapacity with
  | zero =>
    rw [growCapacity] at h
    split at h
    · cases h
    · obtain rfl := Option.some.inj h
      exact ⟨0, (Nat.mul_one _).symm, fun i hi => absurd hi (Nat.not_lt_zero i)⟩
  | succ fuel ih =>
    rw [growCapacity] at h
    split at h
    · rename_i hless
      have hlt := UInt64.lt_iff_toNat_lt.mp hless
      obtain ⟨j, hn, hsteps⟩ := ih h
      rw [toNat_mul_two (by omega)] at hn hsteps
      refine ⟨j + 1, by rw [hn, Nat.mul_assoc, ← Nat.pow_succ'], fun i hi => ?_⟩
      cases i with
      | zero => rwa [Nat.pow_zero, Nat.mul_one]
      | succ i =>
        rw [Nat.pow_succ', ← Nat.mul_assoc]
        exact hsteps i (Nat.lt_of_succ_lt_succ hi)
    · obtain rfl := Option.some.inj h
      exact ⟨0, (Nat.mul_one _).symm, fun i hi => absurd hi (Nat.not_lt_zero i)⟩

/-- Unless it has not started, the loop ends below twice what is required. -/
theorem growCapacity_eq_mul_pow {fuel : ℕ} {newCapacity required n : UInt64}
    (h : growCapacity fuel newCapacity required = some n)
    (hrequired : required.toNat ≤ 2 ^ 63) :
    ∃ j, n.toNat = newCapacity.toNat * 2 ^ j ∧ (j = 0 ∨ n.toNat < 2 * required.toNat) := by
  obtain ⟨j, hn, hsteps⟩ := growCapacity_doublings h hrequired
  refine ⟨j, hn, ?_⟩
  cases j with
  | zero => exact .inl rfl
  | succ i =>
    have hlast := hsteps i (Nat.lt_succ_self i)
    rw [Nat.pow_succ, ← Nat.mul_assoc] at hn
    omega

/-- Up to `2 ^ 63` the doubling loop does not wrap: it ends, below twice what is required unless it
has not started. -/
theorem growCapacity_eq_some (fuel : ℕ) (newCapacity : UInt64) {required : UInt64}
    (hrequired : required.toNat ≤ 2 ^ 63) (hpos : 0 < newCapacity.toNat)
    (hfuel : required.toNat ≤ newCapacity.toNat * 2 ^ fuel) :
    ∃ n, growCapacity fuel newCapacity required = some n ∧ required.toNat ≤ n.toNat ∧
      (n = newCapacity ∨ n.toNat < 2 * required.toNat) := by
  induction fuel generalizing newCapacity with
  | zero =>
    rw [Nat.pow_zero, Nat.mul_one] at hfuel
    refine ⟨newCapacity, ?_, hfuel, .inl rfl⟩
    rw [growCapacity, if_neg]
    rwa [UInt64.lt_iff_toNat_lt, Nat.not_lt]
  | succ fuel ih =>
    by_cases hless : newCapacity < required
    swap
    · refine ⟨newCapacity, by rw [growCapacity, if_neg hless], ?_, .inl rfl⟩
      rwa [UInt64.lt_iff_toNat_lt, Nat.not_lt] at hless
    have hlt := UInt64.lt_iff_toNat_lt.mp hless
    have hdouble := toNat_mul_two (a := newCapacity) (by omega)
    rw [Nat.pow_succ] at hfuel
    obtain ⟨n, hn, hle, hcases⟩ := ih (newCapacity * 2) (by omega) (by
      rw [hdouble, Nat.mul_assoc, Nat.mul_comm 2]
      exact hfuel)
    refine ⟨n, by rw [growCapacity, if_pos hless, hn], hle, .inr ?_⟩
    rcases hcases with rfl | hlt'
    · omega
    · exact hlt'

/-- The capacity at which the growth of a full buffer ends. -/
theorem growCapacity_of_full {capacity required : UInt64} (hfull : capacity < required)
    (hrequired : required.toNat ≤ 2 ^ 63) :
    ∃ n, growCapacity 64 (if capacity = 0 then initialCapacity else capacity * 2) required =
        some n ∧ required.toNat ≤ n.toNat ∧ n.toNat < max 1025 (2 * required.toNat) := by
  have hlt := UInt64.lt_iff_toNat_lt.mp hfull
  by_cases hzero : capacity = 0
  · have hinitial : initialCapacity.toNat = 1024 := rfl
    rw [if_pos hzero]
    obtain ⟨n, hn, hle, hcases⟩ := growCapacity_eq_some 64 initialCapacity hrequired
      (by omega) (Nat.le_trans hrequired (by rw [hinitial]; decide))
    refine ⟨n, hn, hle, ?_⟩
    rcases hcases with rfl | hless <;> omega
  · have hpos : 0 < capacity.toNat := Nat.pos_of_ne_zero fun h => hzero (UInt64.toNat_inj.mp h)
    have hdouble := toNat_mul_two (a := capacity) (by omega)
    rw [if_neg hzero]
    have hfuel : 2 ^ 63 ≤ (capacity * 2).toNat * 2 ^ 64 := by
      have hone : 1 ≤ (capacity * 2).toNat := by omega
      calc 2 ^ 63 ≤ 1 * 2 ^ 64 := by omega
        _ ≤ (capacity * 2).toNat * 2 ^ 64 := Nat.mul_le_mul_right _ hone
    obtain ⟨n, hn, hle, hcases⟩ := growCapacity_eq_some 64 (capacity * 2) hrequired (by omega)
      (Nat.le_trans hrequired hfuel)
    refine ⟨n, hn, hle, ?_⟩
    rcases hcases with rfl | hless <;> omega

/-- Writing after the valid bytes of a buffer with enough room appends to the log. -/
theorem represents_append {c : Chunk} {l : DeltaLog UInt8} (h : c.Represents l) {data buf : Bytes}
    {capacity : UInt64} (hbuf : buf.length = capacity.toNat) (hcap : capacity.toNat < 2 ^ 63)
    (hroom : c.size.toNat + data.length ≤ capacity.toNat)
    (hkeep : buf.take c.size.toNat = c.content) :
    ({ c with
      data := writeAt buf c.size.toNat data
      capacity := capacity
      size := c.size + data.length.toUInt64 } : Chunk).Represents (l.append data) := by
  have hsize : (c.size + data.length.toUInt64).toNat = c.size.toNat + data.length :=
    toNat_add_toUInt64 (by omega)
  have hle := h.wellFormed.persisted_le
  refine .mk' ⟨?_, hcap, ?_, ?_⟩ ?_ h.persistedSize_eq
  · rw [length_writeAt (by omega), hbuf]
  · dsimp only
    omega
  · dsimp only
    omega
  · rw [Chunk.content, hsize, take_writeAt (by omega), hkeep, h.content_eq, DeltaLog.shown_append]

/-- The chunk has no room for `n` more bytes, and `realloc` refuses to make some. -/
def AppendRefused (o : IoOutcome) (c : Chunk) (n : ℕ) : Prop :=
  c.capacity < c.size + n.toUInt64 ∧ ∃ newCapacity,
    growCapacity 64 (if c.capacity = 0 then initialCapacity else c.capacity * 2)
        (c.size + n.toUInt64) = some newCapacity ∧
      reallocGrants o newCapacity.toNat = false

/-- An append that `realloc` refuses fails and changes nothing. -/
theorem chunkAppend_of_refused {o : IoOutcome} {c : Chunk} {data : Bytes}
    (h : AppendRefused o c data.length) : chunkAppend o c data = some (-1, c) := by
  obtain ⟨hfull, newCapacity, hgrow, hrefuse⟩ := h
  simp only [chunkAppend, hfull, hgrow, hrefuse, ↓reduceIte, Bool.false_eq_true, not_false_eq_true,
    ite_self]

/-- The ways in which `chunk_append` returns. -/
inductive AppendStep (o : IoOutcome) (c : Chunk) (data : Bytes) : ℤ × Chunk → Prop
  /-- There is nothing to append. -/
  | empty : data = [] → AppendStep o c data (-1, c)
  /-- The chunk is full and stays as it was. -/
  | refused : AppendRefused o c data.length → AppendStep o c data (-1, c)
  /-- The chunk was full and has been made larger. -/
  | grown {newCapacity : UInt64} : data ≠ [] → c.capacity < c.size + data.length.toUInt64 →
    growCapacity 64 (if c.capacity = 0 then initialCapacity else c.capacity * 2)
        (c.size + data.length.toUInt64) = some newCapacity →
    reallocGrants o newCapacity.toNat = true →
      AppendStep o c data (0, { c with
        data := writeAt (reallocBuffer c.data newCapacity.toNat) c.size.toNat data
        capacity := newCapacity
        size := c.size + data.length.toUInt64 })
  /-- The data fit into the chunk. -/
  | inPlace : data ≠ [] → ¬ c.capacity < c.size + data.length.toUInt64 →
      AppendStep o c data (0, { c with
        data := writeAt c.data c.size.toNat data
        size := c.size + data.length.toUInt64 })

theorem appendStep_of_chunkAppend {o : IoOutcome} {c : Chunk} {data : Bytes} {r : ℤ × Chunk}
    (hrun : chunkAppend o c data = some r) : AppendStep o c data r := by
  rw [chunkAppend] at hrun
  split at hrun
  · rename_i hzero
    cases hrun
    exact .empty (List.length_eq_zero_iff.mp hzero)
  rename_i hzero
  have hdata : data ≠ [] := fun h => hzero (List.length_eq_zero_iff.mpr h)
  dsimp only at hrun
  split at hrun
  · rename_i hfull
    split at hrun
    · cases hrun
    rename_i newCapacity hgrow
    split at hrun
    · rename_i hrefuse
      cases hrun
      exact .refused ⟨hfull, newCapacity, hgrow, Bool.not_eq_true _ ▸ hrefuse⟩
    · rename_i hgrant
      cases hrun
      exact .grown hdata hfull hgrow (not_not.mp hgrant)
  · rename_i hroom
    cases hrun
    exact .inPlace hdata hroom

/-- An append of some bytes fails only when `realloc` refuses. -/
theorem appendRefused_of_ne_zero {o : IoOutcome} {c : Chunk} {data : Bytes} (hdata : data ≠ [])
    {r : ℤ × Chunk} (hrun : chunkAppend o c data = some r) (hr : r.1 ≠ 0) :
    AppendRefused o c data.length := by
  cases appendStep_of_chunkAppend hrun with
  | empty hnil => exact absurd hnil hdata
  | refused hrefused => exact hrefused
  | grown | inPlace => exact absurd rfl hr

/-- `chunk_append` appends to the log, or changes nothing. -/
theorem chunkAppend_cases {c : Chunk} {l : DeltaLog UInt8} (h : c.Represents l) (o : IoOutcome)
    {data : Bytes} (hdata : data.length < 2 ^ 63) {r : ℤ × Chunk}
    (hrun : chunkAppend o c data = some r) :
    r.2.filePath = c.filePath ∧
      (r.1 = 0 ∧ data ≠ [] ∧ r.2.Represents (l.append data) ∨ r.1 = -1 ∧ r.2 = c) := by
  have hlt := h.shown_length_lt
  have hlog := h.size_eq
  have hwf := h.wellFormed
  have hle := hwf.size_le
  have hsum : (c.size + data.length.toUInt64).toNat = c.size.toNat + data.length :=
    toNat_add_toUInt64 (by omega)
  cases appendStep_of_chunkAppend hrun with
  | empty | refused => exact ⟨rfl, .inr ⟨rfl, rfl⟩⟩
  | grown hnil hfull hgrow hgrant =>
    have hreq := UInt64.le_iff_toNat_le.mp (le_of_growCapacity hgrow)
    rw [hsum] at hreq
    rw [reallocGrants, Bool.and_eq_true, decide_eq_true_eq] at hgrant
    refine ⟨rfl, .inl ⟨rfl, hnil, represents_append h (length_reallocBuffer _ _) hgrant.2 hreq ?_⟩⟩
    rw [take_reallocBuffer (by omega) (by rw [hwf.length_data]; exact hle), Chunk.content]
  | inPlace hnil hroom =>
    rw [UInt64.lt_iff_toNat_lt, hsum] at hroom
    exact ⟨rfl, .inl ⟨rfl, hnil, represents_append h hwf.length_data hwf.capacity_lt (by omega)
      rfl⟩⟩

/-- With memory, an append to a log that stays below `2 ^ 62` bytes succeeds. -/
theorem chunkAppend_ok {c : Chunk} {l : DeltaLog UInt8} (h : c.Represents l) {o : IoOutcome}
    (halloc : o.alloc = true) {data : Bytes} (hdata : data ≠ [])
    (hsmall : l.shown.length + data.length < 2 ^ 62) :
    ∃ c', chunkAppend o c data = some (0, c') ∧ c'.filePath = c.filePath ∧
      c'.Represents (l.append data) := by
  have hlog := h.size_eq
  have hsum : (c.size + data.length.toUInt64).toNat = c.size.toNat + data.length :=
    toNat_add_toUInt64 (by omega)
  have hgranted : ∃ r, chunkAppend o c data = some r ∧ ¬ AppendRefused o c data.length := by
    by_cases hfull : c.capacity < c.size + data.length.toUInt64
    · obtain ⟨n, hn, hle, hlt⟩ := growCapacity_of_full hfull (by omega)
      have hgrant : reallocGrants o n.toNat = true := by
        rw [reallocGrants, halloc, Bool.true_and, decide_eq_true_eq]
        omega
      refine ⟨_, by
        simp only [chunkAppend, List.length_eq_zero_iff, hdata, hfull, hn, hgrant, ↓reduceIte,
          not_true_eq_false]
        rfl, ?_⟩
      rintro ⟨-, n', hn', hrefuse⟩
      cases hn.symm.trans hn'
      cases hgrant.symm.trans hrefuse
    · exact ⟨_, by
        simp only [chunkAppend, List.length_eq_zero_iff, hdata, hfull, ↓reduceIte]
        rfl, fun hrefuse => hfull hrefuse.1⟩
  obtain ⟨⟨r, c'⟩, hrun, hgrant⟩ := hgranted
  have hzero : r = 0 := by
    by_contra hne
    exact hgrant (appendRefused_of_ne_zero hdata hrun hne)
  subst hzero
  obtain ⟨hpath, ⟨-, -, hrep⟩ | ⟨hneg, -⟩⟩ := chunkAppend_cases h o (by omega) hrun
  · exact ⟨c', hrun, hpath, hrep⟩
  · cases hneg

/-! ### Reading and saving -/

/-- `chunk_read` reads from the log. -/
theorem chunkRead_eq {c : Chunk} {l : DeltaLog UInt8} (h : c.Represents l)
    (size offset : UInt64) :
    chunkRead c size offset = (l.shown.drop offset.toNat).take size.toNat := by
  have hsize := h.size_eq
  rw [chunkRead]
  split
  · rename_i hle
    rw [UInt64.le_iff_toNat_le, hsize] at hle
    rw [List.drop_of_length_le hle, List.take_nil]
  · rename_i hlt
    rw [UInt64.le_iff_toNat_le, Nat.not_le] at hlt
    have havail : (c.size - offset).toNat = c.size.toNat - offset.toNat :=
      UInt64.toNat_sub_of_le _ _ (UInt64.le_iff_toNat_le.mpr (Nat.le_of_lt hlt))
    rw [← h.content_eq, Chunk.content, List.drop_take, List.take_take]
    dsimp only
    congr 1
    split
    · rename_i hmin
      rw [UInt64.lt_iff_toNat_lt, havail] at hmin
      omega
    · rename_i hmin
      rw [UInt64.lt_iff_toNat_lt, havail] at hmin
      omega

/-- The number of bytes that a save of `n` pending bytes transfers. -/
def saveCount (o : IoOutcome) (n : ℕ) : ℕ := if o.opens then o.transferred n else 0

@[simp] theorem saveCount_ok (n : ℕ) : saveCount .ok n = n := rfl

/-- The file after a save of the pending bytes. A save that opens the file makes it exist. -/
def savedFile (o : IoOutcome) (file : Option Bytes) (pending : Bytes) : Option Bytes :=
  if pending = [] ∨ ¬ o.opens then file
  else some (file.getD [] ++ pending.take (saveCount o pending.length))

theorem getD_savedFile (o : IoOutcome) (file : Option Bytes) (pending : Bytes) :
    (savedFile o file pending).getD [] =
      file.getD [] ++ pending.take (saveCount o pending.length) := by
  rw [savedFile]
  split
  · rename_i hnone
    rcases hnone with rfl | hopen
    · simp
    · simp [saveCount, hopen]
  · rfl

@[simp] theorem savedFile_some (o : IoOutcome) (content pending : Bytes) :
    savedFile o (some content) pending =
      some (content ++ pending.take (saveCount o pending.length)) := by
  have h := getD_savedFile o (some content) pending
  rw [savedFile] at h ⊢
  split
  · rename_i hnone
    rw [if_pos hnone] at h
    simpa using h
  · rfl

/-- `chunk_save_delta` transfers pending bytes; it succeeds when none are left out. -/
theorem chunkSaveDelta_cases {c : Chunk} {l : DeltaLog UInt8} (h : c.Represents l)
    (o : IoOutcome) (file : Option Bytes) :
    (chunkSaveDelta o file c).2.1.filePath = c.filePath ∧
      (chunkSaveDelta o file c).2.2 = savedFile o file l.pending ∧
      ((chunkSaveDelta o file c).1 = 0 ∧ l.pending.length ≤ saveCount o l.pending.length ∧
          (chunkSaveDelta o file c).2.1.Represents l.commit ∨
        (chunkSaveDelta o file c).1 = -1 ∧ saveCount o l.pending.length < l.pending.length ∧
          (chunkSaveDelta o file c).2.1 = c) := by
  have hdelta := h.delta_eq
  have hwf := h.wellFormed
  have hcommit : ({ c with persistedSize := c.size } : Chunk).Represents l.commit :=
    .mk' ⟨hwf.length_data, hwf.capacity_lt, hwf.size_le, Nat.le_refl _⟩ h.content_eq h.size_eq
  rw [chunkSaveDelta, savedFile]
  split
  · rename_i hnone
    rw [h.size_le_persistedSize_iff] at hnone
    refine ⟨rfl, by simp [hnone], .inl ⟨rfl, by simp [hnone], ?_⟩⟩
    rw [DeltaLog.pending_eq_nil_iff] at hnone
    have hsame : l.commit = l := DeltaLog.ext rfl (Nat.le_antisymm hnone l.saved_le)
    rwa [hsame]
  rename_i hsome
  rw [h.size_le_persistedSize_iff] at hsome
  have hpos : 0 < l.pending.length := List.length_pos_iff.mpr hsome
  have hlen : (c.size - c.persistedSize).toNat = l.pending.length := by
    rw [← hdelta, List.length_take, List.length_drop, hwf.length_data,
      UInt64.toNat_sub_of_le _ _ (UInt64.le_iff_toNat_le.mpr hwf.persisted_le)]
    have := hwf.size_le
    omega
  dsimp only
  rw [hdelta, hlen]
  split
  · rename_i hopen
    exact ⟨rfl, by simp [hopen], .inr ⟨rfl, by simpa [saveCount, hopen] using hpos, rfl⟩⟩
  rename_i hopen
  rw [not_not] at hopen
  have hle := o.transferred_le l.pending.length
  split
  · refine ⟨rfl, by simp [hopen, hsome, saveCount], .inr ⟨rfl, ?_, rfl⟩⟩
    simp only [saveCount, hopen, ↓reduceIte]
    omega
  · refine ⟨rfl, by simp [hopen, hsome, saveCount], .inl ⟨rfl, ?_, hcommit⟩⟩
    simp only [saveCount, hopen, ↓reduceIte]
    omega

end Writer

end SuparnaD
