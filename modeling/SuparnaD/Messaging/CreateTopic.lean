import SuparnaD.System.Environment

/-!
# Topics

The functions of `messaging/create_topic.c`. Those that set a topic up leave the chunk of the new
topic in the machine; the other fields of the `Topic` are their result. Names and paths are C
strings, so they contain no zero byte. No other function calls `delete_topic`, so it acts on the
machine directly.

## Main definitions

* `Topic`, `createTopic`, `topicExists`.
* `buildTopicPath`, `ensureDirectoryExists`.
* `deleteTopic`.
-/

namespace SuparnaD

open Broker

/-- The `Topic` of the source without its `chunk_handle`, which is the chunk of the machine. The
fields are `none` where `strdup` ran out of memory and the caller did not look. -/
structure Topic where
  /-- `topic_name`. -/
  topicName : Option Bytes
  /-- `file_path`. -/
  filePath : Option Bytes
  deriving DecidableEq, Repr

/-- The path of a topic below a base path. -/
def topicPath (topicName basePath : Bytes) : Bytes :=
  basePath ++ ascii "/" ++ topicName ++ ascii ".topic"

/-- The allocated length is ten more than the two parts, so `snprintf` never truncates. -/
def buildTopicPath (topicName basePath : Bytes) : Broker (Option Bytes) := do
  if ← malloc then
    return some (topicPath topicName basePath)
  else
    return none

/-- Make the directory `path` unless something is there. -/
def ensureDirectory (path : Bytes) : Broker ℤ := do
  if ← stat path then
    return 0
  match ← mkdir path with
  | .failed => return -1
  | .created | .alreadyExists => return 0

/-- The loop of `ensure_directory_exists`: `before` has been scanned, and each separator cuts the
path there for a moment. -/
def ensurePrefixes (before : Bytes) : Bytes → Broker ℤ
  | [] => ensureDirectory before
  | b :: rest => do
    if b = 47 ∨ b = 92 then
      if (← ensureDirectory before) ≠ 0 then
        return -1
    ensurePrefixes (before ++ [b]) rest

def ensureDirectoryExists (path : Bytes) : Broker ℤ := do
  if !(← malloc) then
    return -1
  ensurePrefixes [] path

def topicExists (topicName basePath : Bytes) : Broker Bool := do
  match ← buildTopicPath topicName basePath with
  | none => return false
  | some filePath => fopenRead filePath

/-- The bytes that `create_topic` writes to a new file. -/
def initialData : Bytes := ascii "\x7b\x7d"

def createTopic (topicName basePath : Bytes) : Broker (Option Topic) := do
  if topicName.length = 0 then
    return none
  if ← topicExists topicName basePath then
    return none
  if (← ensureDirectoryExists basePath) ≠ 0 then
    return none
  match ← buildTopicPath topicName basePath with
  | none => return none
  | some filePath =>
    if !(← chunkInit filePath) then
      return none
    if (← chunkAppend initialData) ≠ 0 then
      chunkFree
      return none
    if (← chunkSaveDelta) ≠ 0 then
      chunkFree
      return none
    if !(← malloc) then
      chunkFree
      return none
    if !(← malloc) then
      chunkFree
      return none
    return some ⟨some topicName, some filePath⟩

/-- `remove` of a file: it fails when the call is refused or there is no file. -/
def removeFile (path : Bytes) (s : Machine) : ℤ × Machine :=
  if s.outcome.opens && (s.fs.read path).isSome then
    (0, { s.next with fs := s.fs.write path none })
  else (-1, s.next)

/-- The chunk is freed before the file is removed. -/
def deleteTopic (topic : Topic) (s : Machine) : ℤ × Machine :=
  let s := { s with chunk := none }
  match topic.filePath with
  | none => (0, s)
  | some filePath =>
    let (r, s) := removeFile filePath s
    if r ≠ 0 then (-1, s) else (0, s)

end SuparnaD
