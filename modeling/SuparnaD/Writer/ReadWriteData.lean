import SuparnaD.System.Bytes

/-!
# Chunks: a topic file and its copy in memory

The functions of `writer/read_write_data.c`. Each works on a chunk and on the content of the file
at the chunk's path, `none` when there is no such file; `IoOutcome` says how the allocation and
the stream operations inside one call turn out. The mutex makes every function atomic, so it has no
state of its own.

The buffer has `capacity` bytes. Bytes that `realloc` adds are zero here; they lie at or after
`size` until they are written. An object in memory has fewer than `2 ^ 63` bytes: `realloc` refuses
a larger request whatever the outcome says. A stream has no buffer here, so that `fwrite` reports
every byte that does not reach the file and `fclose` loses none.

## Main definitions

* `Chunk`, `Writer.chunkInit`.
* `Writer.chunkLoad`, `Writer.chunkAppend`, `Writer.chunkRead`, `Writer.chunkSaveDelta`.
-/

namespace SuparnaD

/-- How the allocation and the stream operations of one call turn out. By default all succeed. -/
structure IoOutcome where
  /-- `malloc`, `realloc` or `strdup` returns memory. -/
  alloc : Bool := true
  /-- `fopen`, `stat` or `mkdir` is not refused. -/
  opens : Bool := true
  /-- `ftell` reports a length. -/
  tells : Bool := true
  /-- The number of requested bytes that `fread` or `fwrite` leaves out. -/
  missing : ℕ := 0
  deriving DecidableEq, Repr

namespace IoOutcome

/-- Everything succeeds. -/
def ok : IoOutcome := {}

/-- The item count that `fread` or `fwrite` returns for a request of `n` bytes. -/
def transferred (o : IoOutcome) (n : ℕ) : ℕ := n - o.missing

@[simp] theorem ok_alloc : ok.alloc = true := rfl

@[simp] theorem ok_opens : ok.opens = true := rfl

@[simp] theorem ok_tells : ok.tells = true := rfl

@[simp] theorem ok_transferred (n : ℕ) : ok.transferred n = n := rfl

theorem transferred_le (o : IoOutcome) (n : ℕ) : o.transferred n ≤ n := Nat.sub_le _ _

end IoOutcome

/-- `INITIAL_CAPACITY`. -/
def initialCapacity : UInt64 := 1024

/-- The `Chunk` of the source. Its mutex is implicit in the atomicity of the functions below. -/
structure Chunk where
  /-- The path of the file. -/
  filePath : Bytes
  /-- The buffer, `capacity` bytes long. -/
  data : Bytes
  /-- The number of valid bytes in the buffer. -/
  size : UInt64
  /-- The allocated length of the buffer. -/
  capacity : UInt64
  /-- The number of bytes already saved to disk. -/
  persistedSize : UInt64
  deriving DecidableEq, Repr

namespace Writer

/-- A new chunk for a path; `none` when memory runs out. -/
def chunkInit (o : IoOutcome) (filePath : Bytes) : Option Chunk :=
  if o.alloc then some ⟨filePath, [], 0, 0, 0⟩ else none

/-- The buffer after `realloc` to `n` bytes. -/
def reallocBuffer (buf : Bytes) (n : ℕ) : Bytes :=
  buf.take n ++ List.replicate (n - buf.length) 0

/-- Load the file into memory. A file that cannot be opened counts as empty, and its length as
`ftell` reports it must fit into a `long`. The read goes into the live buffer before its length
is compared. -/
def chunkLoad (o : IoOutcome) (file : Option Bytes) (c : Chunk) : ℤ × Chunk :=
  match if o.opens then file else none with
  | none => (0, { c with size := 0, persistedSize := 0 })
  | some content =>
    if ¬ o.tells ∨ 2 ^ 63 ≤ content.length then (-1, c)
    else
      let fsize := content.length.toUInt64
      if c.capacity < fsize ∧ ¬ o.alloc then (-1, c)
      else
        let c := if c.capacity < fsize then
            { c with data := reallocBuffer c.data content.length, capacity := fsize }
          else c
        let readCount := o.transferred content.length
        let c := { c with data := writeAt c.data 0 (content.take readCount) }
        if readCount ≠ content.length then (-1, c)
        else (0, { c with size := fsize, persistedSize := fsize })

/-- The loop `while (new_capacity < required_capacity) new_capacity *= 2`, at most `fuel` times.
The value `none` means that the loop goes on for longer. -/
def growCapacity : ℕ → UInt64 → UInt64 → Option UInt64
  | 0, newCapacity, required => if newCapacity < required then none else some newCapacity
  | fuel + 1, newCapacity, required =>
    if newCapacity < required then growCapacity fuel (newCapacity * 2) required
    else some newCapacity

/-- `realloc` to `n` bytes returns memory. -/
def reallocGrants (o : IoOutcome) (n : ℕ) : Bool := o.alloc && decide (n < 2 ^ 63)

/-- Append to the chunk in memory. The value `none` means that the doubling loop never ends: after
64 doublings the capacity is `0` and stays so. -/
def chunkAppend (o : IoOutcome) (c : Chunk) (data : Bytes) : Option (ℤ × Chunk) :=
  if data.length = 0 then some (-1, c)
  else
    let size := data.length.toUInt64
    let required := c.size + size
    if c.capacity < required then
      match growCapacity 64 (if c.capacity = 0 then initialCapacity else c.capacity * 2)
          required with
      | none => none
      | some newCapacity =>
        if ¬ reallocGrants o newCapacity.toNat then some (-1, c)
        else
          let buf := reallocBuffer c.data newCapacity.toNat
          some (0, { c with
            data := writeAt buf c.size.toNat data
            capacity := newCapacity
            size := c.size + size })
    else some (0, { c with
      data := writeAt c.data c.size.toNat data
      size := c.size + size })

/-- Copy at most `size` bytes of the chunk from `offset` on. The count that the source returns is
the length of the result. -/
def chunkRead (c : Chunk) (size offset : UInt64) : Bytes :=
  if c.size ≤ offset then []
  else
    let available := c.size - offset
    let toRead := if size < available then size else available
    (c.data.drop offset.toNat).take toRead.toNat

/-- Append the bytes after `persistedSize` to the file, in append mode. A short write stays in the
file and leaves `persistedSize` as it was. -/
def chunkSaveDelta (o : IoOutcome) (file : Option Bytes) (c : Chunk) :
    ℤ × Chunk × Option Bytes :=
  if c.size ≤ c.persistedSize then (0, c, file)
  else
    let deltaSize := (c.size - c.persistedSize).toNat
    let delta := (c.data.drop c.persistedSize.toNat).take deltaSize
    if ¬ o.opens then (-1, c, file)
    else
      let written := o.transferred deltaSize
      let file := some (file.getD [] ++ delta.take written)
      if written ≠ deltaSize then (-1, c, file)
      else (0, { c with persistedSize := c.size }, file)

end Writer

end SuparnaD
