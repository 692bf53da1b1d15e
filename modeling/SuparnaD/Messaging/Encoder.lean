import SuparnaD.System.Environment

/-!
# Compression

The part of `messaging/encoder.c` that publishing uses, and the two decoders. The Zstd library is a
parameter, and so is what newly allocated memory holds.

## Main definitions

* `Zstd`, `encodeString`.
* `ZstdDecoder`, `FreshMemory`, `decodeString`, `decodeStringWithDict`.
-/

namespace SuparnaD

open Broker

/-- The functions of the Zstd library that are used for publishing. -/
structure Zstd where
  /-- `ZSTD_maxCLevel`. -/
  maxCLevel : ℤ
  /-- `ZSTD_compressBound`. -/
  compressBound : ℕ → ℕ
  /-- `ZSTD_compress` into a buffer of the given length; `none` for an error code. -/
  compress : ℕ → Bytes → ℤ → Option Bytes

/-- `DEFAULT_COMPRESSION_LEVEL`. -/
def defaultCompressionLevel : ℤ := 3

/-- The level that is used when a caller asks for `compressionLevel`. -/
def Zstd.levelFor (zstd : Zstd) (compressionLevel : ℤ) : ℤ :=
  if compressionLevel < 1 ∨ zstd.maxCLevel < compressionLevel then defaultCompressionLevel
  else compressionLevel

/-- The compressed bytes after the result; they are only meaningful for the result `0`. -/
def encodeString (zstd : Zstd) (data : Bytes) (compressionLevel : ℤ) : Broker (ℤ × Bytes) := do
  if data.length = 0 then
    return (-1, [])
  let level := zstd.levelFor compressionLevel
  if !(← malloc) then
    return (-2, [])
  match zstd.compress (zstd.compressBound data.length) data level with
  | none => return (-3, [])
  | some compressed => return (0, compressed)

/-! ### Decoding -/

/-- The functions of the Zstd library that are used for decoding. -/
structure ZstdDecoder where
  /-- `ZSTD_getFrameContentSize`. -/
  getFrameContentSize : Bytes → UInt64
  /-- `ZSTD_decompress` into a buffer of the given length; `none` for an error code. -/
  decompress : UInt64 → Bytes → Option Bytes
  /-- `ZSTD_DCtx_loadDictionary` into a fresh context succeeds. -/
  loadDictionary : Bytes → Bool
  /-- `ZSTD_decompressDCtx` with a fresh context into which the dictionary has been loaded. -/
  decompressDCtx : Option Bytes → UInt64 → Bytes → Option Bytes

/-- `ZSTD_CONTENTSIZE_UNKNOWN`. -/
def contentSizeUnknown : UInt64 := 0 - 1

/-- `ZSTD_CONTENTSIZE_ERROR`. -/
def contentSizeError : UInt64 := 0 - 2

/-- What newly allocated memory holds. -/
structure FreshMemory where
  /-- The bytes of a new block. -/
  block : UInt64 → Bytes
  length_block : ∀ n, (block n).length = n.toNat

/-- What a decoder leaves behind. -/
structure Decoded where
  /-- The result of the call. -/
  result : ℤ
  /-- The block that `*decompressed_string` points to, unless it has been freed or never allocated.
  -/
  decompressedString : Option Bytes
  /-- `*decompressed_size`; it is only meaningful for the result `0`. -/
  decompressedSize : UInt64
  deriving DecidableEq, Repr

/-- A call that fails frees its buffer. -/
def Decoded.failed (result : ℤ) : Decoded := ⟨result, none, 0⟩

def decodeString (zstd : ZstdDecoder) (memory : FreshMemory) (compressedData : Bytes) :
    Broker Decoded := do
  if compressedData.length = 0 then
    return .failed (-1)
  let contentSize := zstd.getFrameContentSize compressedData
  if contentSize = contentSizeError then
    return .failed (-2)
  if contentSize = contentSizeUnknown then
    let estimatedSize := compressedData.length.toUInt64 * 4
    if !(← malloc) then
      return .failed (-3)
    match zstd.decompress estimatedSize compressedData with
    | none => return .failed (-4)
    -- No zero is written here.
    | some out => return ⟨0, some (writeAt (memory.block estimatedSize) 0 out), out.length.toUInt64⟩
  else
    if !(← malloc) then
      return .failed (-3)
    match zstd.decompress contentSize compressedData with
    | none => return .failed (-4)
    | some out =>
      return ⟨0, some ((writeAt (memory.block (contentSize + 1)) 0 out).set out.length 0),
        out.length.toUInt64⟩

def decodeStringWithDict (zstd : ZstdDecoder) (memory : FreshMemory) (compressedData : Bytes)
    (dictionary : Option Bytes) : Broker Decoded := do
  if compressedData.length = 0 then
    return .failed (-1)
  if !(← malloc) then
    return .failed (-2)
  let loaded := dictionary.filter fun d => d.length ≠ 0
  if loaded.any fun d => !zstd.loadDictionary d then
    return .failed (-3)
  let contentSize := zstd.getFrameContentSize compressedData
  if contentSize = contentSizeError then
    return .failed (-4)
  let bufferSize := if contentSize = contentSizeUnknown then compressedData.length.toUInt64 * 4
    else contentSize
  if !(← malloc) then
    return .failed (-5)
  match zstd.decompressDCtx loaded bufferSize compressedData with
  | none => return .failed (-6)
  | some out =>
    return ⟨0, some ((writeAt (memory.block (bufferSize + 1)) 0 out).set out.length 0),
      out.length.toUInt64⟩

end SuparnaD
