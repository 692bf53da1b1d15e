import SuparnaD.Api.ResponseBuilder
import SuparnaD.Socket.ServerEventHandler

/-!
# Request bodies

What the handlers of `api/publish_event.c` and `api/create_topic.c` have in common: each has the
same functions that collect the pieces of a body in a buffer and that look up a string in the JSON
text, and the same handling of the calls that bring a piece.

## Main definitions

* `RequestBuffer`, `appendToBuffer`.
* `findJsonString`, `extractJsonString`.
* `HandlerReturn`, `handleRequest` : the calls of a handler, given what it does with a whole body.
-/

namespace SuparnaD

open ApiM

/-- `MAX_BODY_SIZE`. -/
def maxBodySize : UInt64 := 10 * 1024 * 1024

/-- `INITIAL_BUFFER_SIZE`. -/
def initialBufferSize : UInt64 := 4096

/-- The `RequestBuffer` of the source. -/
structure RequestBuffer where
  /-- The allocated block, `none` for `NULL`. -/
  buffer : Option Bytes
  /-- The number of bytes of the body so far. -/
  size : UInt64
  /-- The allocated length. -/
  capacity : UInt64
  deriving DecidableEq, Repr

/-- A buffer as the handlers make it. -/
def RequestBuffer.empty : RequestBuffer := ⟨none, 0, 0⟩

/-- Append a piece. The value `none` means that the doubling loop never ends, or that `memcpy` gets
a null pointer. -/
def appendToBuffer (o : IoOutcome) (buf : RequestBuffer) (data : Bytes) :
    Option (ℤ × RequestBuffer) :=
  if data.length = 0 then some (-1, buf)
  else
    let newSize := buf.size + data.length.toUInt64
    if maxBodySize < newSize then some (-1, buf)
    else
      let copied (block : Bytes) (capacity : UInt64) : Option (ℤ × RequestBuffer) :=
        some (0, ⟨some (writeAt block buf.size.toNat data), newSize, capacity⟩)
      if buf.capacity < newSize then
        match Writer.growCapacity 64
            (if buf.capacity = 0 then initialBufferSize else buf.capacity * 2) newSize with
        | none => none
        | some newCapacity =>
          if ¬ Writer.reallocGrants o newCapacity.toNat then some (-1, buf)
          else copied (Writer.reallocBuffer (buf.buffer.getD []) newCapacity.toNat) newCapacity
      else
        match buf.buffer with
        | none => none
        | some block => copied block buf.capacity

/-- The C string in the buffer after the handler has written a zero at index `size`. The value
`none` means that this index lies outside the buffer. -/
def RequestBuffer.text (buf : RequestBuffer) : Option Bytes :=
  match buf.buffer with
  | none => none
  | some block =>
    if buf.size.toNat < block.length then some (cString (writeAt block buf.size.toNat [0]))
    else none

/-- The text that `extract_json_string` finds: the quoted key, the next colon, white space, a quote
and everything up to the closing quote. -/
def findJsonString (json key : Bytes) : Option Bytes := do
  let searchKey := (ascii "\"" ++ key ++ ascii "\"").take 255
  let keyPos ← strstr json searchKey
  let colon ← strchr keyPos 58
  match (colon.drop 1).dropWhile isSpace with
  | 34 :: rest => scanString rest
  | _ => none

def extractJsonString (json key : Bytes) : ApiM (Option Bytes) := do
  match findJsonString json key with
  | none => return none
  | some value => if ← malloc then return some value else return none

/-! ### The calls of a handler -/

/-- What a call of a handler leaves behind. -/
structure HandlerReturn where
  /-- The result. -/
  result : MhdResult
  /-- `*upload_data_size`, the number of bytes that are left. -/
  uploadDataSize : ℕ
  /-- `*con_cls`. -/
  conCls : Option RequestBuffer
  deriving DecidableEq, Repr

def bodyTooLarge : Bytes := ascii "\x7b\"error\":\"Request body too large\"\x7d"

/-- The buffer of the request, a new one at its first piece. -/
def requestBuffer : Option RequestBuffer → ApiM (Option RequestBuffer)
  | some buf => return some buf
  | none => do
    if ← malloc then
      return some .empty
    else
      return none

/-- `append_to_buffer` with the outcome in store. -/
def appendPiece (buf : RequestBuffer) (data : Bytes) : ApiM (ℤ × RequestBuffer) := fun st =>
  (appendToBuffer st.machine.outcome buf data).map fun r =>
    (r, { st with machine := st.machine.next })

/-- The text of the collected body. -/
def bodyText (buf : RequestBuffer) : ApiM Bytes := fun st => buf.text.map fun text => (text, st)

/-- A call with a piece of the body. -/
def handlePiece (uploadData : Bytes) (conCls : Option RequestBuffer) : ApiM HandlerReturn := do
  match ← requestBuffer conCls with
  | none => return ⟨.no, uploadData.length, none⟩
  | some buf =>
    let (r, buf) ← appendPiece buf uploadData
    if r ≠ 0 then
      return ⟨← reply 413 bodyTooLarge applicationJson, uploadData.length, some buf⟩
    return ⟨.yes, 0, some buf⟩

/-- One call of a handler that treats a whole body by `finish`. A call without data ends the
request: it treats what has been collected, and refuses when there is nothing. -/
def handleRequest (finish : Bytes → ApiM MhdResult) (uploadData : Bytes)
    (conCls : Option RequestBuffer) : ApiM HandlerReturn := do
  if uploadData.length = 0 then
    match conCls with
    | none => return ⟨.no, 0, none⟩
    | some buf =>
      if buf.buffer.isSome && 0 < buf.size then
        return ⟨← finish (← bodyText buf), 0, none⟩
      else
        return ⟨.no, 0, none⟩
  else
    handlePiece uploadData conCls

end SuparnaD
