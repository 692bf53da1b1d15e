import SuparnaD.Foundation.LiveObjects
import SuparnaD.Messaging.Encoder

/-!
# Compression with dictionaries

The functions of `messaging/encoder.c` that work with a dictionary. They allocate blocks, open
streams and make contexts of the Zstd library, and must give back what they do not hand out. So
these are objects on a heap here: a call on an object that is not live, or is of another kind, has
no answer. Each call uses up one outcome from a script of faults; past its end all succeed.

What `fwrite` takes stays in the buffer of the stream until `fclose`, which may lose some of it.
The result of `fclose` is not looked at.

## Main definitions

* `ZstdContexts`, `Samples`.
* `EncoderObject`, `EncoderState`, `encoderCalls`, `performEncoder` : objects and calls.
* `encodeStringWithDict`, `saveDictionary`, `fetchDictionary`, `trainDictionary`.
-/

namespace SuparnaD

/-- The functions of the Zstd library for compression with a dictionary. -/
structure ZstdContexts extends Zstd where
  /-- `ZSTD_CCtx_loadDictionary` takes the dictionary. -/
  loadDictionary : Bytes → Bool
  /-- `ZSTD_CCtx_setParameter` takes the level. -/
  setCompressionLevel : ℤ → Bool
  /-- `ZSTD_compress2` into a buffer of the given length, in a context with a dictionary and a
  level; `none` for an error code. -/
  compress2 : Option Bytes → Option ℤ → ℕ → Bytes → Option Bytes
  length_compress2 : ∀ {dictionary level capacity data out},
    compress2 dictionary level capacity data = some out → out.length ≤ capacity
  /-- `ZSTD_trainFromBuffer` into a buffer of the given length; `none` for an error code. The header
  `zstd.h` declares no such function. It is assumed to read each sample through its pointer, to
  write no more than the buffer holds and to keep nothing. -/
  trainFromBuffer : ℕ → List Bytes → Option Bytes
  length_trainFromBuffer : ∀ {capacity samples out},
    trainFromBuffer capacity samples = some out → out.length ≤ capacity

/-- The samples for a dictionary. Their lengths come in an array of `size_t`. -/
structure Samples where
  /-- The samples. -/
  list : List Bytes
  fits : list.length * 8 < 2 ^ 63

/-! ### Objects -/

/-- What a pointer may point to. -/
inductive EncoderObject where
  /-- A block of memory. -/
  | block (bytes : Bytes)
  /-- An array of pointers; `none` for a place that has not been written. -/
  | pointers (slots : List (Option ℕ))
  /-- A `ZSTD_CCtx` with its dictionary and its level. -/
  | context (dictionary : Option Bytes) (level : Option ℤ)
  /-- A stream for reading, with its position. -/
  | reader (path : Bytes) (position : ℕ)
  /-- A stream for writing, with the bytes in its buffer. -/
  | writer (path pending : Bytes)
  deriving DecidableEq, Repr

/-- The files, the outcomes in store and the objects. -/
structure EncoderState where
  /-- The files. -/
  fs : FileSystem
  /-- How the coming calls turn out; past the end all succeed. -/
  faults : List IoOutcome
  /-- The objects. -/
  objects : HandleHeap EncoderObject

namespace EncoderState

/-- The outcome in store for the next call. -/
def outcome (s : EncoderState) : IoOutcome := s.faults.headD .ok

/-- The state after that outcome has been used up. -/
def next (s : EncoderState) : EncoderState := { s with faults := s.faults.tail }

/-- The block at a pointer. -/
def block (s : EncoderState) (pointer : ℕ) : Option Bytes :=
  match s.objects.get pointer with
  | some (.block bytes) => some bytes
  | _ => none

/-- A new object, unless there is no memory for it. -/
def make (s : EncoderState) (granted : Bool) (object : EncoderObject) : Option ℕ × EncoderState :=
  if granted then (some s.objects.fresh, { s.next with objects := s.objects.alloc object })
  else (none, s.next)

/-- Overwrite an object. -/
def put (s : EncoderState) (pointer : ℕ) (object : EncoderObject) : EncoderState :=
  { s.next with objects := s.objects.set pointer object }

/-- Give an object back. -/
def drop (s : EncoderState) (pointer : ℕ) : EncoderState :=
  { s.next with objects := s.objects.free pointer }

/-- The library writes its output into a block, unless it runs out of memory. Output that is longer
than the block has no answer. -/
def fill (s : EncoderState) (granted : Bool) (pointer : ℕ) (bytes out : Bytes) :
    Option (Option ℕ × EncoderState) :=
  if granted then
    if out.length ≤ bytes.length then
      some (some out.length, s.put pointer (.block (writeAt bytes 0 out)))
    else none
  else some (none, s.next)

/-- The samples that an array of pointers leads to. -/
def samples (s : EncoderState) (slots : List (Option ℕ)) (sizes : List ℕ) : Option (List Bytes) :=
  (slots.zip sizes).mapM fun x => do
    let bytes ← s.block (← x.1)
    if x.2 ≤ bytes.length then some (bytes.take x.2) else none

end EncoderState

/-! ### Calls -/

/-- The calls that the functions issue. -/
inductive EncoderCall where
  | malloc (size : ℕ)
  /-- `malloc` of an array of pointers. -/
  | mallocPointers (count : ℕ)
  /-- `free` of a block or of an array. -/
  | free (pointer : ℕ)
  | memcpy (pointer : ℕ) (data : Bytes)
  /-- `array[i] = pointer`. -/
  | setPointer (array i pointer : ℕ)
  /-- `array[i]`. -/
  | getPointer (array i : ℕ)
  | createCCtx
  | freeCCtx (cctx : ℕ)
  | loadDictionary (cctx : ℕ) (dictionary : Bytes)
  | setCompressionLevel (cctx : ℕ) (level : ℤ)
  | compress2 (cctx pointer capacity : ℕ) (data : Bytes)
  | trainFromBuffer (pointer capacity array : ℕ) (sizes : List ℕ)
  /-- `fopen(path, "wb")`. -/
  | fopenWrite (path : Bytes)
  /-- `fopen(path, "rb")`. -/
  | fopenRead (path : Bytes)
  | fwrite (stream : ℕ) (data : Bytes)
  /-- `fseek(stream, 0, SEEK_END)`. -/
  | fseekEnd (stream : ℕ)
  /-- `fseek(stream, 0, SEEK_SET)`. -/
  | fseekStart (stream : ℕ)
  | ftell (stream : ℕ)
  | fread (pointer count stream : ℕ)
  | fclose (stream : ℕ)
  deriving DecidableEq, Repr

/-- The interface of these calls. A count is `none` for an error. -/
@[reducible] def encoderCalls : CallInterface where
  Call := EncoderCall
  Answer
    | .malloc _ | .mallocPointers _ | .createCCtx | .fopenWrite _ | .fopenRead _ => Option ℕ
    | .free _ | .memcpy _ _ | .setPointer _ _ _ | .freeCCtx _ | .fclose _ => Unit
    | .getPointer _ _ | .fwrite _ _ | .fread _ _ _ => ℕ
    | .loadDictionary _ _ | .setCompressionLevel _ _ | .fseekEnd _ | .fseekStart _ => Bool
    | .compress2 _ _ _ _ | .trainFromBuffer _ _ _ _ | .ftell _ => Option ℕ

/-- A program that issues these calls. -/
abbrev EncoderM (α : Type) : Type := CallProgram encoderCalls α

namespace EncoderM

def malloc (size : ℕ) : EncoderM (Option ℕ) := .issue (I := encoderCalls) (.malloc size)
def mallocPointers (count : ℕ) : EncoderM (Option ℕ) :=
  .issue (I := encoderCalls) (.mallocPointers count)
def free (pointer : ℕ) : EncoderM Unit := .issue (I := encoderCalls) (.free pointer)
def memcpy (pointer : ℕ) (data : Bytes) : EncoderM Unit :=
  .issue (I := encoderCalls) (.memcpy pointer data)
def setPointer (array i pointer : ℕ) : EncoderM Unit :=
  .issue (I := encoderCalls) (.setPointer array i pointer)
def getPointer (array i : ℕ) : EncoderM ℕ := .issue (I := encoderCalls) (.getPointer array i)
def createCCtx : EncoderM (Option ℕ) := .issue (I := encoderCalls) .createCCtx
def freeCCtx (cctx : ℕ) : EncoderM Unit := .issue (I := encoderCalls) (.freeCCtx cctx)
def loadDictionary (cctx : ℕ) (dictionary : Bytes) : EncoderM Bool :=
  .issue (I := encoderCalls) (.loadDictionary cctx dictionary)
def setCompressionLevel (cctx : ℕ) (level : ℤ) : EncoderM Bool :=
  .issue (I := encoderCalls) (.setCompressionLevel cctx level)
def compress2 (cctx pointer capacity : ℕ) (data : Bytes) : EncoderM (Option ℕ) :=
  .issue (I := encoderCalls) (.compress2 cctx pointer capacity data)
def trainFromBuffer (pointer capacity array : ℕ) (sizes : List ℕ) : EncoderM (Option ℕ) :=
  .issue (I := encoderCalls) (.trainFromBuffer pointer capacity array sizes)
def fopenWrite (path : Bytes) : EncoderM (Option ℕ) :=
  .issue (I := encoderCalls) (.fopenWrite path)
def fopenRead (path : Bytes) : EncoderM (Option ℕ) := .issue (I := encoderCalls) (.fopenRead path)
def fwrite (stream : ℕ) (data : Bytes) : EncoderM ℕ :=
  .issue (I := encoderCalls) (.fwrite stream data)
def fseekEnd (stream : ℕ) : EncoderM Bool := .issue (I := encoderCalls) (.fseekEnd stream)
def fseekStart (stream : ℕ) : EncoderM Bool := .issue (I := encoderCalls) (.fseekStart stream)
def ftell (stream : ℕ) : EncoderM (Option ℕ) := .issue (I := encoderCalls) (.ftell stream)
def fread (pointer count stream : ℕ) : EncoderM ℕ :=
  .issue (I := encoderCalls) (.fread pointer count stream)
def fclose (stream : ℕ) : EncoderM Unit := .issue (I := encoderCalls) (.fclose stream)

end EncoderM

open EncoderState in
/-- The effect of each call. -/
def performEncoder (zstd : ZstdContexts) (memory : FreshMemory) :
    CallHandler encoderCalls EncoderState
  | .malloc size, s =>
    some (s.make (s.outcome.alloc && decide (size < 2 ^ 63))
      (.block (memory.block size.toUInt64)))
  | .mallocPointers count, s =>
    let bytes := (count.toUInt64 * 8).toNat
    some (s.make (s.outcome.alloc && decide (bytes < 2 ^ 63))
      (.pointers (List.replicate (bytes / 8) none)))
  | .free pointer, s =>
    match s.objects.get pointer with
    | some (.block _) | some (.pointers _) => some ((), s.drop pointer)
    | _ => none
  | .memcpy pointer data, s =>
    match s.objects.get pointer with
    | some (.block bytes) =>
      if data.length ≤ bytes.length then some ((), s.put pointer (.block (writeAt bytes 0 data)))
      else none
    | _ => none
  | .setPointer array i pointer, s =>
    match s.objects.get array with
    | some (.pointers slots) =>
      if i < slots.length then some ((), s.put array (.pointers (slots.set i (some pointer))))
      else none
    | _ => none
  | .getPointer array i, s =>
    match s.objects.get array with
    | some (.pointers slots) => (slots[i]?.join).map fun pointer => (pointer, s.next)
    | _ => none
  | .createCCtx, s => some (s.make s.outcome.alloc (.context none none))
  | .freeCCtx cctx, s =>
    match s.objects.get cctx with
    | some (.context _ _) => some ((), s.drop cctx)
    | _ => none
  | .loadDictionary cctx dictionary, s =>
    match s.objects.get cctx with
    | some (.context _ level) =>
      if s.outcome.alloc && zstd.loadDictionary dictionary then
        some (true, s.put cctx (.context (some dictionary) level))
      else some (false, s.next)
    | _ => none
  | .setCompressionLevel cctx level, s =>
    match s.objects.get cctx with
    | some (.context dictionary _) =>
      if zstd.setCompressionLevel level then
        some (true, s.put cctx (.context dictionary (some level)))
      else some (false, s.next)
    | _ => none
  | .compress2 cctx pointer capacity data, s =>
    match s.objects.get cctx, s.block pointer with
    | some (.context dictionary level), some bytes =>
      if bytes.length < capacity then none
      else
        match zstd.compress2 dictionary level capacity data with
        | some out => s.fill s.outcome.alloc pointer bytes out
        | none => some (none, s.next)
    | _, _ => none
  | .trainFromBuffer pointer capacity array sizes, s =>
    match s.block pointer, s.objects.get array with
    | some bytes, some (.pointers slots) =>
      if bytes.length < capacity ∨ slots.length ≠ sizes.length then none
      else
        (s.samples slots sizes).bind fun samples =>
          match zstd.trainFromBuffer capacity samples with
          | some out => s.fill s.outcome.alloc pointer bytes out
          | none => some (none, s.next)
    | _, _ => none
  | .fopenWrite path, s =>
    if s.outcome.opens then
      some (some s.objects.fresh, { s.next with
        fs := s.fs.write path (some [])
        objects := s.objects.alloc (.writer path []) })
    else some (none, s.next)
  | .fopenRead path, s =>
    some (s.make (s.outcome.opens && (s.fs.read path).isSome) (.reader path 0))
  | .fwrite stream data, s =>
    match s.objects.get stream with
    | some (.writer path pending) =>
      let count := s.outcome.transferred data.length
      some (count, s.put stream (.writer path (pending ++ data.take count)))
    | _ => none
  | .fseekEnd stream, s =>
    match s.objects.get stream with
    | some (.reader path _) =>
      if s.outcome.tells then
        some (true, s.put stream (.reader path ((s.fs.read path).getD []).length))
      else some (false, s.next)
    | _ => none
  | .fseekStart stream, s =>
    match s.objects.get stream with
    | some (.reader path _) =>
      if s.outcome.tells then some (true, s.put stream (.reader path 0))
      else some (false, s.next)
    | _ => none
  | .ftell stream, s =>
    match s.objects.get stream with
    | some (.reader _ position) =>
      some (if s.outcome.tells ∧ position < 2 ^ 63 then some position else none, s.next)
    | _ => none
  | .fread pointer count stream, s =>
    match s.objects.get stream, s.block pointer with
    | some (.reader path position), some bytes =>
      if bytes.length < count then none
      else
        let data := (((s.fs.read path).getD []).drop position).take (s.outcome.transferred count)
        some (data.length, { s.next with
          objects := (s.objects.set pointer (.block (writeAt bytes 0 data))).set stream
            (.reader path (position + data.length)) })
    | _, _ => none
  | .fclose stream, s =>
    match s.objects.get stream with
    | some (.reader _ _) => some ((), s.drop stream)
    | some (.writer path pending) =>
      let saved := pending.take (s.outcome.transferred pending.length)
      some ((), { s.drop stream with
        fs := s.fs.write path (some ((s.fs.read path).getD [] ++ saved)) })
    | _ => none

/-! ### The functions -/

open EncoderM

/-- What a function hands out: its result, and for the result `0` a block and how many of its bytes
count. -/
structure Handed where
  /-- The result of the call. -/
  result : ℤ
  /-- The block that the caller's pointer has been set to. -/
  pointer : Option ℕ
  /-- The size that is written through the caller's pointer. -/
  size : ℕ
  deriving DecidableEq, Repr

/-- A call that fails hands out nothing. -/
def Handed.failed (result : ℤ) : Handed := ⟨result, none, 0⟩

/-- A dictionary without bytes is not loaded. -/
def loadedDictionary (dictionary : Option Bytes) : Option Bytes :=
  dictionary.filter fun d => d.length ≠ 0

/-- `if (dictionary && dictionary_size > 0)` with the call that it guards. -/
def loadIfGiven (cctx : ℕ) (dictionary : Option Bytes) : EncoderM Bool :=
  match loadedDictionary dictionary with
  | none => return true
  | some d => loadDictionary cctx d

def encodeStringWithDict (zstd : Zstd) (jsonString dictionary : Option Bytes)
    (compressionLevel : ℤ) : EncoderM Handed :=
  match jsonString with
  | none => return .failed (-1)
  | some json => do
    if json.length = 0 then
      return .failed (-1)
    else
      match ← createCCtx with
      | none => return .failed (-2)
      | some cctx =>
        if ← loadIfGiven cctx dictionary then
          if ← setCompressionLevel cctx (zstd.levelFor compressionLevel) then
            match ← malloc (zstd.compressBound json.length) with
            | none =>
              freeCCtx cctx
              return .failed (-5)
            | some compressedData =>
              let result ← compress2 cctx compressedData (zstd.compressBound json.length) json
              freeCCtx cctx
              match result with
              | none =>
                free compressedData
                return .failed (-6)
              | some compressedSize => return ⟨0, some compressedData, compressedSize⟩
          else
            freeCCtx cctx
            return .failed (-4)
        else
          freeCCtx cctx
          return .failed (-3)

def saveDictionary (dictionary filepath : Option Bytes) : EncoderM ℤ :=
  match dictionary, filepath with
  | some dictionary, some filepath => do
    if dictionary.length = 0 then
      return -1
    else
      match ← fopenWrite filepath with
      | none => return -2
      | some file =>
        let written ← fwrite file dictionary
        fclose file
        if written ≠ dictionary.length then
          return -3
        else
          return 0
  | _, _ => return -1

def fetchDictionary (filepath : Option Bytes) : EncoderM Handed :=
  match filepath with
  | none => return .failed (-1)
  | some filepath => do
    match ← fopenRead filepath with
    | none => return .failed (-2)
    | some file =>
      if ← fseekEnd file then
        match ← ftell file with
        | none =>
          fclose file
          return .failed (-4)
        | some fileSize =>
          if fileSize = 0 then
            fclose file
            return .failed (-5)
          else if ← fseekStart file then
            match ← malloc fileSize with
            | none =>
              fclose file
              return .failed (-6)
            | some dictionary =>
              let readSize ← fread dictionary fileSize file
              fclose file
              if readSize ≠ fileSize then
                free dictionary
                return .failed (-7)
              else
                return ⟨0, some dictionary, fileSize⟩
          else
            fclose file
            return .failed (-3)
      else
        fclose file
        return .failed (-3)

/-- `MIN_DICTIONARY_SIZE`. -/
def minDictionarySize : UInt64 := 1024

/-- `MAX_DICTIONARY_SIZE`. -/
def maxDictionarySize : UInt64 := 1024 * 1024

/-- The size that is used when a caller asks for `dictionarySize`. -/
def trainedSize (dictionarySize : UInt64) : UInt64 :=
  if dictionarySize < minDictionarySize ∨ maxDictionarySize < dictionarySize then 1024 * 10
  else dictionarySize

/-- The loop that frees `count` buffers of an array, from index `j` on. -/
def freeBuffers (sampleBuffers : ℕ) : ℕ → ℕ → EncoderM Unit
  | 0, _ => return ()
  | count + 1, j => do
    free (← getPointer sampleBuffers j)
    freeBuffers sampleBuffers count (j + 1)

/-- The loop that copies the samples, from index `i` on. Without memory it frees what has been
allocated so far. -/
def copySamples (sampleBuffers : ℕ) : ℕ → List Bytes → EncoderM Bool
  | _, [] => return true
  | i, sample :: rest => do
    match ← malloc sample.length with
    | none =>
      freeBuffers sampleBuffers i 0
      free sampleBuffers
      return false
    | some buffer =>
      setPointer sampleBuffers i buffer
      memcpy buffer sample
      copySamples sampleBuffers (i + 1) rest

def trainDictionary (samples : Option Samples) (dictionarySize : UInt64) : EncoderM Handed :=
  match samples with
  | none => return .failed (-1)
  | some samples => do
    if samples.list.length = 0 then
      return .failed (-1)
    else
      match ← mallocPointers samples.list.length with
      | none => return .failed (-2)
      | some sampleBuffers =>
        if ← copySamples sampleBuffers 0 samples.list then
          match ← malloc (trainedSize dictionarySize).toNat with
          | none =>
            freeBuffers sampleBuffers samples.list.length 0
            free sampleBuffers
            return .failed (-2)
          | some dictionary =>
            let result ← trainFromBuffer dictionary (trainedSize dictionarySize).toNat sampleBuffers
              (samples.list.map List.length)
            freeBuffers sampleBuffers samples.list.length 0
            free sampleBuffers
            match result with
            | none =>
              free dictionary
              return .failed (-3)
            | some actualDictSize => return ⟨0, some dictionary, actualDictSize⟩
        else
          return .failed (-2)

end SuparnaD
