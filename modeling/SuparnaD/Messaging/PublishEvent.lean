import SuparnaD.Messaging.ConsumePacket
import SuparnaD.Messaging.Encoder

/-!
# Publishing events

The functions of `messaging/publish_event.c`. A `data` pointer with its size is an `Option Bytes`,
`none` for `NULL`; the size is the length of the bytes.

## Main definitions

* `publishEvent`, `publishEventString`, `publishEventCompressed`, `publishEventBatch`.
* `flushTopic`, `getTopicSize`.
-/

namespace SuparnaD

open Broker

/-- `MAX_EVENT_SIZE`. -/
def maxEventSize : ℕ := 10 * 1024 * 1024

/-- `(uint32_t)data_size` as the bytes that are appended for it. -/
def eventHeader (data : Bytes) : Bytes := u32Bytes data.length.toUInt32

/-- Append the length header and the payload of one event to the chunk. -/
def appendEvent (data : Bytes) : Broker ℤ := do
  if (← chunkAppend (eventHeader data)) ≠ 0 then
    return -1
  if (← chunkAppend data) ≠ 0 then
    return -1
  return 0

def publishEvent (data : Option Bytes) : Broker ℤ := do
  match data with
  | none => return -1
  | some data =>
    if data.length = 0 then
      return -1
    if maxEventSize < data.length then
      return -2
    if !(← hasChunk) then
      return -1
    if (← appendEvent data) ≠ 0 then
      return -1
    if (← chunkSaveDelta) ≠ 0 then
      return -1
    return 0

/-- The argument is a buffer that holds a C string. -/
def publishEventString (data : Option Bytes) : Broker ℤ := do
  match data with
  | none => return -1
  | some data =>
    if (cString data).length = 0 then
      return -1
    publishEvent (some (cString data))

def publishEventCompressed (zstd : Zstd) (data : Option Bytes) (compressionLevel : ℤ) :
    Broker ℤ := do
  match data with
  | none => return -1
  | some data =>
    if data.length = 0 then
      return -1
    if maxEventSize < data.length then
      return -2
    let (encodeResult, compressedData) ← encodeString zstd data compressionLevel
    if encodeResult ≠ 0 then
      return -1
    publishEvent (some compressedData)

/-- The loop of `publish_event_batch` and the save after it. -/
def publishBatchLoop : List (Option Bytes) → Broker ℤ
  | [] => do
    if (← chunkSaveDelta) ≠ 0 then
      return -1
    return 0
  | none :: _ => return -1
  | some data :: rest => do
    if data.length = 0 ∨ maxEventSize < data.length then
      return -1
    if (← appendEvent data) ≠ 0 then
      return -1
    publishBatchLoop rest

def publishEventBatch (dataArray : List (Option Bytes)) : Broker ℤ := do
  if dataArray.length = 0 then
    return -1
  if !(← hasChunk) then
    return -1
  publishBatchLoop dataArray

def flushTopic : Broker ℤ := do
  if !(← hasChunk) then
    return -1
  chunkSaveDelta

def getTopicSize : Broker UInt64 := do
  if !(← hasChunk) then
    return 0
  if (← chunkLoad) ≠ 0 then
    return 0
  chunkSize

end SuparnaD
