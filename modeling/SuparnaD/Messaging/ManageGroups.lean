import SuparnaD.Messaging.CreateTopic

/-!
# Consumer groups

The functions of `messaging/manage_groups.c` on one group. A group names its topic by a handle; the
chunk of that topic is the chunk of the machine. A function that changes the group returns it after
its result.

## Main definitions

* `Group`, `createGroup`, `groupHasMoreData`.
* `setGroupPointer`, `advanceGroupPointer`, `resetGroupPointer`, `readFromGroup`.
-/

namespace SuparnaD

open Broker

/-- The `Group` of the source. -/
structure Group where
  /-- `group_id`. -/
  groupId : Bytes
  /-- `attached_topic`, a handle; `create_group` never leaves it unset. -/
  attachedTopic : ℕ
  /-- `read_pointer`. -/
  readPointer : UInt64
  /-- `last_read_size`. -/
  lastReadSize : UInt64
  deriving DecidableEq, Repr

/-- The group id is `none` where the caller's `strdup` ran out of memory. -/
def createGroup (groupId : Option Bytes) (topic : ℕ) : Broker (Option Group) := do
  match groupId with
  | none => return none
  | some groupId =>
    if groupId.length = 0 then
      return none
    if !(← malloc) then
      return none
    if !(← malloc) then
      return none
    return some ⟨groupId, topic, 0, 0⟩

def setGroupPointer (group : Group) (offset : UInt64) : Broker (ℤ × Group) := do
  if !(← hasChunk) then
    return (-1, group)
  if (← chunkLoad) ≠ 0 then
    return (-1, group)
  let size ← chunkSize
  let offset := if size < offset then size else offset
  return (0, { group with readPointer := offset })

def getGroupPointer (group : Group) : UInt64 := group.readPointer

def advanceGroupPointer (group : Group) (bytes : UInt64) : Broker (ℤ × Group) := do
  if !(← hasChunk) then
    return (-1, group)
  if (← chunkLoad) ≠ 0 then
    return (-1, group)
  let size ← chunkSize
  let newPointer := group.readPointer + bytes
  let newPointer := if size < newPointer then size else newPointer
  return (0, { group with readPointer := newPointer })

def resetGroupPointer (group : Group) : Broker (ℤ × Group) := setGroupPointer group 0

/-- The bytes read, or `none` for a failure. -/
def readFromGroup (group : Group) (size : UInt64) : Broker (Option Bytes × Group) := do
  if !(← hasChunk) then
    return (none, group)
  if (← chunkLoad) ≠ 0 then
    return (none, group)
  let bytes ← chunkRead size group.readPointer
  if 0 < bytes.length then
    let bytesRead := bytes.length.toUInt64
    return (some bytes, { group with
      lastReadSize := bytesRead
      readPointer := group.readPointer + bytesRead })
  return (some bytes, group)

def groupHasMoreData (group : Group) : Broker Bool := do
  if !(← hasChunk) then
    return false
  if (← chunkLoad) ≠ 0 then
    return false
  return decide (group.readPointer < (← chunkSize))

end SuparnaD
