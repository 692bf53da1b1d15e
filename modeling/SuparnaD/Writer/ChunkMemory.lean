import SuparnaD.Writer.ChunkLog

/-!
# The memory of a chunk

The functions of `writer/read_write_data.c` once more, on a chunk whose buffer is `NULL` or a block
of memory, with every access of the buffer checked against the block. A function has no result when
an access leaves the block, or when the doubling loop of `chunk_append` does not end.

Neither happens. As long as the block has exactly `capacity` bytes and the sizes fit together, every
function does what the function of the same name in `SuparnaD.Writer.ReadWriteData` does, on each
of its exits, and it keeps this invariant.

## Main definitions

* `copyOut`, `copyIn` : checked accesses of a block.
* `HeapChunk`, with `HeapChunk.chunkLoad`, `HeapChunk.chunkAppend`, `HeapChunk.chunkRead` and
  `HeapChunk.chunkSaveDelta`.
* `HeapChunk.Intact` : the invariant.
* `HeapChunk.Reached` : the chunks that a run leads to.

## Main results

* `HeapChunk.Intact.chunkLoad`, `HeapChunk.Intact.chunkAppend`, `HeapChunk.Intact.chunkRead`,
  `HeapChunk.Intact.chunkSaveDelta` : the functions in checked memory.
* `HeapChunk.Reached.sound`.
-/

namespace SuparnaD

open Writer

/-! ### Blocks of memory -/

/-- The bytes of a block; `NULL` has none. -/
def blockBytes (block : Option Bytes) : Bytes := block.getD []

/-- The `n` bytes at an offset of a block, or nothing when they do not lie inside it. -/
def copyOut (block : Option Bytes) (off n : ℕ) : Option Bytes :=
  if off + n ≤ (blockBytes block).length then some (((blockBytes block).drop off).take n) else none

/-- The block after bytes have been written to the start of a range of `n` bytes, or nothing when
the range does not lie inside the block. -/
def copyIn (block : Option Bytes) (off n : ℕ) (bytes : Bytes) : Option (Option Bytes) :=
  if off + n ≤ (blockBytes block).length then some (block.map fun b => writeAt b off bytes)
  else none

/-- `realloc` of a block, or of `NULL`, to `n` bytes. -/
def realloc (o : IoOutcome) (block : Option Bytes) (n : ℕ) : Option Bytes :=
  if reallocGrants o n then some (reallocBuffer (blockBytes block) n) else none

theorem copyOut_of_le {block : Option Bytes} {off n : ℕ}
    (h : off + n ≤ (blockBytes block).length) :
    copyOut block off n = some (((blockBytes block).drop off).take n) := if_pos h

/-- A write inside a block changes its bytes as expected, and `NULL` stays `NULL`. -/
theorem copyIn_of_le (block : Option Bytes) {off n : ℕ} {bytes : Bytes}
    (h : off + n ≤ (blockBytes block).length) (hbytes : bytes.length ≤ n) :
    ∃ block', copyIn block off n bytes = some block' ∧
      blockBytes block' = writeAt (blockBytes block) off bytes ∧
      (block' = none ↔ block = none) := by
  refine ⟨_, if_pos h, ?_, Option.map_eq_none_iff⟩
  cases block with
  | some b => rfl
  | none =>
    have hlen : (blockBytes none).length = 0 := rfl
    obtain rfl : bytes = [] := List.length_eq_zero_iff.mp (by omega)
    obtain rfl : off = 0 := by omega
    rfl

/-! ### Chunks in memory -/

/-- The `Chunk` of the source, with its buffer as the program has it. -/
structure HeapChunk where
  /-- The path of the file. -/
  filePath : Bytes
  /-- `NULL` or a block of memory. -/
  data : Option Bytes
  /-- The number of valid bytes in the buffer. -/
  size : UInt64
  /-- The allocated length of the buffer. -/
  capacity : UInt64
  /-- The number of bytes already saved to disk. -/
  persistedSize : UInt64
  deriving DecidableEq, Repr

namespace HeapChunk

def chunkInit (o : IoOutcome) (filePath : Bytes) : Option HeapChunk :=
  if o.alloc then some ⟨filePath, none, 0, 0, 0⟩ else none

def chunkLoad (o : IoOutcome) (file : Option Bytes) (c : HeapChunk) : Option (ℤ × HeapChunk) :=
  match if o.opens then file else none with
  | none => some (0, { c with size := 0, persistedSize := 0 })
  | some content =>
    if ¬ o.tells ∨ 2 ^ 63 ≤ content.length then some (-1, c)
    else
      let fsize := content.length.toUInt64
      let grown := if c.capacity < fsize then
          (realloc o c.data content.length).map fun block =>
            { c with data := some block, capacity := fsize }
        else some c
      match grown with
      | none => some (-1, c)
      | some c => do
        let readCount := o.transferred content.length
        let data ← copyIn c.data 0 content.length (content.take readCount)
        let c := { c with data := data }
        if readCount ≠ content.length then return (-1, c)
        return (0, { c with size := fsize, persistedSize := fsize })

/-- The argument is `NULL` or points to some bytes. -/
def chunkAppend (o : IoOutcome) (c : HeapChunk) : Option Bytes → Option (ℤ × HeapChunk)
  | none => some (-1, c)
  | some bytes => do
    if bytes.length = 0 then return (-1, c)
    let size := bytes.length.toUInt64
    let required := c.size + size
    if c.capacity < required then
      let newCapacity ← growCapacity 64
        (if c.capacity = 0 then initialCapacity else c.capacity * 2) required
      match realloc o c.data newCapacity.toNat with
      | none => return (-1, c)
      | some block =>
        let data ← copyIn (some block) c.size.toNat bytes.length bytes
        return (0, { c with data := data, capacity := newCapacity, size := c.size + size })
    else
      let data ← copyIn c.data c.size.toNat bytes.length bytes
      return (0, { c with data := data, size := c.size + size })

/-- The bytes that are copied to the caller's buffer; the count that the source returns is their
length. -/
def chunkRead (c : HeapChunk) (size offset : UInt64) : Option Bytes :=
  if c.size ≤ offset then some []
  else
    let available := c.size - offset
    let toRead := if size < available then size else available
    copyOut c.data offset.toNat toRead.toNat

def chunkSaveDelta (o : IoOutcome) (file : Option Bytes) (c : HeapChunk) :
    Option (ℤ × HeapChunk × Option Bytes) :=
  if c.size ≤ c.persistedSize then some (0, c, file)
  else
    let deltaSize := (c.size - c.persistedSize).toNat
    if ¬ o.opens then some (-1, c, file)
    else do
      let delta ← copyOut c.data c.persistedSize.toNat deltaSize
      let written := o.transferred deltaSize
      let file := some (file.getD [] ++ delta.take written)
      if written ≠ deltaSize then return (-1, c, file)
      return (0, { c with persistedSize := c.size }, file)

/-! ### The invariant -/

/-- The chunk without the difference between `NULL` and an empty block. -/
def toChunk (c : HeapChunk) : Chunk :=
  ⟨c.filePath, blockBytes c.data, c.size, c.capacity, c.persistedSize⟩

/-- The buffer has `capacity` bytes, less than `2 ^ 63`, the sizes fit together, and the buffer is
`NULL` exactly when it has no bytes. -/
structure Intact (c : HeapChunk) : Prop where
  wellFormed : c.toChunk.WellFormed
  null_iff : c.data = none ↔ c.capacity = 0

namespace Intact

variable {c : HeapChunk} (h : c.Intact)

include h

theorem length_data : (blockBytes c.data).length = c.capacity.toNat := h.wellFormed.length_data

theorem size_le : c.size.toNat ≤ c.capacity.toNat := h.wellFormed.size_le

theorem persisted_le : c.persistedSize.toNat ≤ c.size.toNat := h.wellFormed.persisted_le

/-- `chunk_read` copies bytes of the buffer. -/
theorem chunkRead (size offset : UInt64) :
    c.chunkRead size offset = some (Writer.chunkRead c.toChunk size offset) := by
  have hlen := h.length_data
  have hsize := h.size_le
  rw [HeapChunk.chunkRead, Writer.chunkRead]
  show (if c.size ≤ offset then _ else _) = some (if c.size ≤ offset then _ else _)
  split_ifs with hend
  · rfl
  rw [UInt64.le_iff_toNat_le, Nat.not_le] at hend
  have havail : (c.size - offset).toNat = c.size.toNat - offset.toNat :=
    UInt64.toNat_sub_of_le _ _ (UInt64.le_iff_toNat_le.mpr (Nat.le_of_lt hend))
  have hmin : (if size < c.size - offset then size else c.size - offset).toNat ≤
      c.size.toNat - offset.toNat := by
    split
    · rename_i hless
      rw [UInt64.lt_iff_toNat_lt, havail] at hless
      omega
    · omega
  exact copyOut_of_le (by omega)

/-- `chunk_save_delta` writes out bytes of the buffer. -/
theorem chunkSaveDelta (o : IoOutcome) (file : Option Bytes) :
    ∃ r c' file', c.chunkSaveDelta o file = some (r, c', file') ∧
      Writer.chunkSaveDelta o file c.toChunk = (r, c'.toChunk, file') ∧ c'.Intact := by
  have hlen := h.length_data
  have hsize := h.size_le
  have hsaved := h.persisted_le
  by_cases hnone : c.size ≤ c.persistedSize
  · refine ⟨0, c, file, ?_, ?_, h⟩
    · rw [HeapChunk.chunkSaveDelta, if_pos hnone]
    · exact if_pos hnone
  have hdelta : (c.size - c.persistedSize).toNat = c.size.toNat - c.persistedSize.toNat :=
    UInt64.toNat_sub_of_le _ _ (UInt64.le_iff_toNat_le.mpr hsaved)
  have hread : copyOut c.data c.persistedSize.toNat (c.size - c.persistedSize).toNat =
      some (((blockBytes c.data).drop c.persistedSize.toNat).take
        (c.size - c.persistedSize).toNat) :=
    copyOut_of_le (by omega)
  simp only [HeapChunk.chunkSaveDelta, Writer.chunkSaveDelta, hread, Option.bind_eq_bind,
    Option.bind_some, toChunk, hnone, ↓reduceIte]
  by_cases hopen : o.opens = true
  swap
  · simp only [hopen, Bool.false_eq_true, not_false_eq_true, ↓reduceIte]
    exact ⟨_, c, _, rfl, rfl, h⟩
  simp only [hopen, not_true_eq_false, ↓reduceIte]
  by_cases hcount : o.transferred (c.size - c.persistedSize).toNat =
    (c.size - c.persistedSize).toNat
  swap
  · simp only [ne_eq, hcount, not_false_eq_true, ↓reduceIte]
    exact ⟨_, c, _, rfl, rfl, h⟩
  · simp only [ne_eq, hcount, not_true_eq_false, ↓reduceIte]
    exact ⟨_, { c with persistedSize := c.size }, _, rfl, rfl,
      ⟨hlen, h.wellFormed.capacity_lt, hsize, Nat.le_refl _⟩, h.null_iff⟩

/-- A larger buffer. -/
theorem grow {capacity : UInt64} (hless : c.capacity < capacity)
    (hlt : capacity.toNat < 2 ^ 63) :
    ({ c with
      data := some (reallocBuffer (blockBytes c.data) capacity.toNat)
      capacity := capacity } : HeapChunk).Intact := by
  have hle := h.size_le
  rw [UInt64.lt_iff_toNat_lt] at hless
  refine ⟨⟨length_reallocBuffer _ _, hlt, ?_, h.persisted_le⟩, ?_⟩
  · show c.size.toNat ≤ capacity.toNat
    omega
  · refine iff_of_false (Option.some_ne_none _) fun hzero => ?_
    have : capacity.toNat = 0 := UInt64.toNat_inj.mpr hzero
    omega

/-- The end of `chunk_load`, when the buffer has room for the file. -/
theorem fill (o : IoOutcome) {content : Bytes} (hroom : content.length ≤ c.capacity.toNat) :
    ∃ r c', (do
        let data ← copyIn c.data 0 content.length (content.take (o.transferred content.length))
        let c := { c with data := data }
        if o.transferred content.length ≠ content.length then return (-1, c)
        return (0, { c with
          size := content.length.toUInt64
          persistedSize := content.length.toUInt64 }) : Option (ℤ × HeapChunk)) = some (r, c') ∧
      (if o.transferred content.length ≠ content.length then
          (-1, { c.toChunk with
            data := writeAt c.toChunk.data 0 (content.take (o.transferred content.length)) })
        else (0, { c.toChunk with
            data := writeAt c.toChunk.data 0 (content.take (o.transferred content.length))
            size := content.length.toUInt64
            persistedSize := content.length.toUInt64 })) = (r, c'.toChunk) ∧ c'.Intact := by
  have hlen := h.length_data
  have hlt := h.wellFormed.capacity_lt
  have hnat : content.length.toUInt64.toNat = content.length :=
    toNat_toUInt64 (by change c.capacity.toNat < _ at hlt; omega)
  have hread : (content.take (o.transferred content.length)).length ≤ content.length := by
    rw [List.length_take]
    exact Nat.min_le_right _ _
  have hinside : 0 + content.length ≤ (blockBytes c.data).length := by omega
  obtain ⟨block, hcopy, hbytes, hnull⟩ := copyIn_of_le c.data hinside hread
  have hkept : (blockBytes block).length = c.capacity.toNat := by
    rw [hbytes, length_writeAt, hlen]
    rw [List.length_take]
    omega
  rw [hcopy]
  simp only [Option.bind_eq_bind, Option.bind_some, toChunk, ← hbytes]
  by_cases hcount : o.transferred content.length = content.length
  swap
  · simp only [ne_eq, hcount, not_false_eq_true, ↓reduceIte]
    exact ⟨_, _, rfl, rfl, ⟨hkept, hlt, h.size_le, h.persisted_le⟩, hnull.trans h.null_iff⟩
  · simp only [ne_eq, not_true_eq_false, hcount, ↓reduceIte] at hkept ⊢
    refine ⟨_, _, rfl, rfl, ⟨hkept, hlt, ?_, Nat.le_refl _⟩, hnull.trans h.null_iff⟩
    show content.length.toUInt64.toNat ≤ c.capacity.toNat
    omega

/-- `chunk_load` reads into the buffer, which it has made large enough. -/
theorem chunkLoad (o : IoOutcome) (file : Option Bytes) :
    ∃ r c', c.chunkLoad o file = some (r, c') ∧
      Writer.chunkLoad o file c.toChunk = (r, c'.toChunk) ∧ c'.Intact := by
  cases hseen : seenFile o file with
  | none =>
    refine ⟨0, { c with size := 0, persistedSize := 0 }, ?_, chunkLoad_of_none hseen _,
      ⟨h.length_data, h.wellFormed.capacity_lt, Nat.zero_le _, Nat.le_refl _⟩, h.null_iff⟩
    rw [seenFile] at hseen
    simp only [HeapChunk.chunkLoad, hseen]
  | some content =>
    rw [chunkLoad_of_some hseen]
    rw [seenFile] at hseen
    simp only [HeapChunk.chunkLoad, hseen]
    by_cases htell : ¬ o.tells ∨ 2 ^ 63 ≤ content.length
    · simp only [if_pos htell]
      exact ⟨-1, c, rfl, rfl, h⟩
    have hlen : content.length < 2 ^ 63 := Nat.lt_of_not_le (not_or.mp htell).2
    have hnat : content.length.toUInt64.toNat = content.length := toNat_toUInt64 (by omega)
    simp only [htell, ↓reduceIte]
    by_cases hfull : c.capacity < content.length.toUInt64
    · have hgrown := h.grow hfull (by rwa [hnat])
      rw [hnat] at hgrown
      cases halloc : o.alloc with
      | false =>
        have hrefuse : realloc o c.data content.length = none := by
          rw [realloc, reallocGrants, halloc, Bool.false_and]
          rfl
        simp only [hfull, hrefuse, ↓reduceIte, Option.map_none, toChunk, Bool.false_eq_true,
          not_false_eq_true, and_self]
        exact ⟨-1, c, rfl, rfl, h⟩
      | true =>
        have hgrant : realloc o c.data content.length =
            some (reallocBuffer (blockBytes c.data) content.length) := by
          rw [realloc, reallocGrants, halloc, Bool.true_and, if_pos (decide_eq_true hlen)]
        obtain ⟨r, c', hrun, hsame, hc'⟩ := hgrown.fill o (Nat.le_of_eq hnat.symm)
        refine ⟨r, c', ?_, ?_, hc'⟩
        · simp only [hfull, hgrant, ↓reduceIte, Option.map_some]
          exact hrun
        · rw [← hsame]
          simp only [roomFor, toChunk, hfull, ↓reduceIte, not_true_eq_false, and_false]
          rfl
    · have hroom : content.length ≤ c.capacity.toNat := by
        rwa [UInt64.lt_iff_toNat_lt, hnat, Nat.not_lt] at hfull
      obtain ⟨r, c', hrun, hsame, hc'⟩ := h.fill o hroom
      refine ⟨r, c', ?_, ?_, hc'⟩
      · simp only [hfull, ↓reduceIte]
        exact hrun
      · rw [← hsame]
        simp only [roomFor, toChunk, hfull, ↓reduceIte, false_and]

/-- The end of `chunk_append`, when the buffer has room for the bytes. -/
theorem put {bytes : Bytes} (hroom : c.size.toNat + bytes.length ≤ c.capacity.toNat) :
    ∃ block, copyIn c.data c.size.toNat bytes.length bytes = some block ∧
      blockBytes block = writeAt (blockBytes c.data) c.size.toNat bytes ∧
      ({ c with data := block, size := c.size + bytes.length.toUInt64 } : HeapChunk).Intact := by
  have hlen := h.length_data
  have hlt : c.capacity.toNat < 2 ^ 63 := h.wellFormed.capacity_lt
  have hsaved := h.persisted_le
  have hinside : c.size.toNat + bytes.length ≤ (blockBytes c.data).length := by rwa [hlen]
  obtain ⟨block, hcopy, hbytes, hnull⟩ := copyIn_of_le c.data hinside (Nat.le_refl _)
  have hsum : (c.size + bytes.length.toUInt64).toNat = c.size.toNat + bytes.length :=
    toNat_add_toUInt64 (by omega)
  refine ⟨block, hcopy, hbytes, ⟨?_, hlt, ?_, ?_⟩, hnull.trans h.null_iff⟩
  · show (blockBytes block).length = c.capacity.toNat
    rw [hbytes, length_writeAt hinside, hlen]
  · show (c.size + bytes.length.toUInt64).toNat ≤ c.capacity.toNat
    omega
  · show c.persistedSize.toNat ≤ (c.size + bytes.length.toUInt64).toNat
    omega

/-- `chunk_append` copies to a part of the buffer, which it has made large enough. -/
theorem chunkAppend (o : IoOutcome) (bytes : Bytes)
    (hsmall : c.size.toNat + bytes.length ≤ 2 ^ 63) :
    ∃ r c', c.chunkAppend o (some bytes) = some (r, c') ∧
      Writer.chunkAppend o c.toChunk bytes = some (r, c'.toChunk) ∧ c'.Intact := by
  by_cases hzero : bytes.length = 0
  · refine ⟨-1, c, ?_, ?_, h⟩
    · simp only [HeapChunk.chunkAppend, hzero, ↓reduceIte]
      rfl
    · rw [Writer.chunkAppend, if_pos hzero]
  have hsum : (c.size + bytes.length.toUInt64).toNat = c.size.toNat + bytes.length :=
    toNat_add_toUInt64 (by omega)
  simp only [HeapChunk.chunkAppend, Writer.chunkAppend, hzero, ↓reduceIte]
  show ∃ r c', (if c.capacity < c.size + bytes.length.toUInt64 then _ else _) = _ ∧
    (if c.capacity < c.size + bytes.length.toUInt64 then _ else _) = _ ∧ _
  by_cases hfull : c.capacity < c.size + bytes.length.toUInt64
  swap
  · have hroom : c.size.toNat + bytes.length ≤ c.capacity.toNat := by
      rwa [UInt64.lt_iff_toNat_lt, hsum, Nat.not_lt] at hfull
    obtain ⟨block, hcopy, hbytes, hc'⟩ := h.put hroom
    simp only [hfull, ↓reduceIte, hcopy]
    refine ⟨0, _, rfl, ?_, hc'⟩
    rw [toChunk, toChunk, hbytes]
  obtain ⟨newCapacity, hgrow, hle, -⟩ := growCapacity_of_full hfull (by omega)
  have hgrow' : growCapacity 64
      (if c.toChunk.capacity = 0 then initialCapacity else c.toChunk.capacity * 2)
      (c.toChunk.size + bytes.length.toUInt64) = some newCapacity := hgrow
  cases hgrant : reallocGrants o newCapacity.toNat with
  | false =>
    refine ⟨-1, c, ?_, ?_, h⟩
    · simp only [hfull, hgrow, realloc, hgrant, ↓reduceIte, Bool.false_eq_true,
        Option.bind_eq_bind, Option.bind_some]
      rfl
    · simp only [hfull, hgrow', hgrant, ↓reduceIte, Bool.false_eq_true, not_false_eq_true]
  | true =>
    have hless : c.capacity < newCapacity := by
      rw [UInt64.lt_iff_toNat_lt] at hfull ⊢
      omega
    have hlt : newCapacity.toNat < 2 ^ 63 := by
      rw [reallocGrants, Bool.and_eq_true, decide_eq_true_eq] at hgrant
      exact hgrant.2
    obtain ⟨block, hcopy, hbytes, hc'⟩ := (h.grow hless hlt).put (hsum ▸ hle)
    refine ⟨0, _, ?_, ?_, hc'⟩
    · simp only [hfull, hgrow, realloc, hgrant, ↓reduceIte, Option.bind_eq_bind,
        Option.bind_some]
      exact congrArg (Option.bind · _) hcopy
    · simp only [hfull, hgrow', hgrant, ↓reduceIte, not_true_eq_false]
      rw [toChunk, toChunk, hbytes]
      rfl

end Intact

/-! ### Runs -/

/-- A call on a chunk, with the outcome of its I/O and the file that it finds. -/
inductive Op where
  | load (o : IoOutcome) (file : Option Bytes)
  | append (o : IoOutcome) (data : Option Bytes)
  | read (size offset : UInt64)
  | saveDelta (o : IoOutcome) (file : Option Bytes)

/-- The chunk after a call, if the call comes to an end and no access leaves the buffer. -/
def step (c : HeapChunk) : Op → Option HeapChunk
  | .load o file => (c.chunkLoad o file).map Prod.snd
  | .append o data => (c.chunkAppend o data).map Prod.snd
  | .read size offset => (c.chunkRead size offset).map fun _ => c
  | .saveDelta o file => (c.chunkSaveDelta o file).map fun r => r.2.1

/-- The sizes that a call may meet: files stay below `2 ^ 62` bytes, and so does the chunk before
bytes are appended, of which there are at most 10485760. -/
def Allows (c : HeapChunk) : Op → Prop
  | .load _ file | .saveDelta _ file => ∀ content ∈ file, content.length < 2 ^ 62
  | .append _ data => c.size.toNat < 2 ^ 62 ∧ ∀ bytes ∈ data, bytes.length ≤ 10485760
  | .read _ _ => True

/-- The chunks that a run leads to, from `chunk_init` on. Between two calls the file may change in
any way. -/
inductive Reached : HeapChunk → Prop where
  | init {o : IoOutcome} {filePath : Bytes} {c : HeapChunk}
    (h : chunkInit o filePath = some c) : Reached c
  | step {c c' : HeapChunk} (op : Op) (hc : Reached c) (hop : c.Allows op)
    (h : c.step op = some c') : Reached c'

/-- A new chunk has no buffer. -/
theorem Intact.of_chunkInit {o : IoOutcome} {filePath : Bytes} {c : HeapChunk}
    (h : chunkInit o filePath = some c) : c.Intact := by
  rw [chunkInit] at h
  split_ifs at h
  obtain rfl := Option.some.inj h
  exact ⟨⟨rfl, Nat.two_pow_pos 63, Nat.le_refl _, Nat.le_refl _⟩, iff_of_true rfl rfl⟩

/-- A call on an intact chunk comes to an end without leaving the buffer, and the chunk stays
intact. -/
theorem Intact.step {c : HeapChunk} (h : c.Intact) {op : Op} (hop : c.Allows op) :
    ∃ c', c.step op = some c' ∧ c'.Intact := by
  cases op with
  | load o file =>
    obtain ⟨r, c', hrun, -, hc'⟩ := h.chunkLoad o file
    exact ⟨c', by rw [HeapChunk.step, hrun]; rfl, hc'⟩
  | append o data =>
    cases data with
    | none => exact ⟨c, rfl, h⟩
    | some bytes =>
      have hlen := hop.2 bytes rfl
      have hsize := hop.1
      obtain ⟨r, c', hrun, -, hc'⟩ := h.chunkAppend o bytes (by omega)
      exact ⟨c', by rw [HeapChunk.step, hrun]; rfl, hc'⟩
  | read size offset => exact ⟨c, by rw [HeapChunk.step, h.chunkRead]; rfl, h⟩
  | saveDelta o file =>
    obtain ⟨r, c', file', hrun, -, hc'⟩ := h.chunkSaveDelta o file
    exact ⟨c', by rw [HeapChunk.step, hrun]; rfl, hc'⟩

theorem Reached.intact {c : HeapChunk} (h : c.Reached) : c.Intact := by
  induction h with
  | init h => exact .of_chunkInit h
  | step op _ hop hstep ih =>
    obtain ⟨c', hstep', hc'⟩ := ih.step hop
    obtain rfl := Option.some.inj (hstep'.symm.trans hstep)
    exact hc'

/-- In every state of a run the sizes fit together, the buffer has exactly `capacity` bytes, and the
next call comes to an end without leaving the buffer. -/
theorem Reached.sound {c : HeapChunk} (h : c.Reached) :
    c.persistedSize ≤ c.size ∧ c.size ≤ c.capacity ∧
      (blockBytes c.data).length = c.capacity.toNat ∧ (c.data = none ↔ c.capacity = 0) ∧
      ∀ op, c.Allows op → ∃ c', c.step op = some c' := by
  have hc := h.intact
  refine ⟨UInt64.le_iff_toNat_le.mpr hc.persisted_le, UInt64.le_iff_toNat_le.mpr hc.size_le,
    hc.length_data, hc.null_iff, fun op hop => ?_⟩
  obtain ⟨c', hstep, -⟩ := hc.step hop
  exact ⟨c', hstep⟩

/-- A chunk that has loaded two bytes, and then one after the file has shrunk. -/
def sampleShrunk : HeapChunk := ⟨ascii "t", some (ascii "ab"), 1, 2, 1⟩

theorem Reached.sound_sample :
    sampleShrunk.persistedSize ≤ sampleShrunk.size ∧ sampleShrunk.size ≤ sampleShrunk.capacity ∧
      (blockBytes sampleShrunk.data).length = sampleShrunk.capacity.toNat ∧
      (sampleShrunk.data = none ↔ sampleShrunk.capacity = 0) ∧
      ∀ op, sampleShrunk.Allows op → ∃ c', sampleShrunk.step op = some c' := by
  have h₀ : Reached ⟨ascii "t", none, 0, 0, 0⟩ := .init (o := .ok) rfl
  have h₁ : Reached ⟨ascii "t", some (ascii "ab"), 2, 2, 2⟩ :=
    h₀.step (.load .ok (some (ascii "ab"))) (by simp [Allows, ascii]) (by decide)
  have h₂ : sampleShrunk.Reached :=
    h₁.step (.load .ok (some (ascii "a"))) (by simp [Allows, ascii]) (by decide)
  exact h₂.sound

end HeapChunk

end SuparnaD
