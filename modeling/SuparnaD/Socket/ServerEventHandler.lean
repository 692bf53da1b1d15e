import SuparnaD.Foundation.HandleHeap
import SuparnaD.Socket.ConsumerHandler

/-!
# Socket sessions

The functions of `socket/server_event_handler.c`. Topics and groups live on heaps and a session
names them by handles, so that a handle may outlive its object; using such a handle has no defined
result, which is the value `none` of `SessionM`. A call that never answers has the same value.

A session works for one connected client. `recv` hands over one piece of the stream per call, at
most 4095 bytes, and every piece is treated as one command.

## Main definitions

* `World`, `ClientSession`, `SessionState`, `SessionM`.
* `handleConsumeCommand`, `handleAckCommand`, `processClientCommand`.
* `clientSessionFree`, `sessionLoop`, `handleClientSession`.
-/

namespace SuparnaD

/-! ### The state of the server as a session sees it -/

/-- A `Topic` together with its `chunk_handle`. -/
structure TopicObject where
  /-- The fields but the chunk. -/
  topic : Topic
  /-- `chunk_handle`. -/
  chunkHandle : Option Chunk
  deriving DecidableEq, Repr

/-- What all sessions share. -/
structure World where
  /-- The files and directories. -/
  fs : FileSystem
  /-- How the coming calls to storage and to the allocator turn out. -/
  faults : List IoOutcome
  /-- The topic handles made so far. -/
  topics : HandleHeap TopicObject
  /-- The group handles made so far. -/
  groups : HandleHeap Group

/-- The `ClientSession` of the source; the socket is the client of `SessionState`. -/
structure ClientSession where
  /-- `group`. -/
  group : Option ℕ
  /-- `topic`. -/
  topic : Option ℕ
  /-- `group_id`. -/
  groupId : Option Bytes
  /-- `topic_name`. -/
  topicName : Option Bytes
  deriving DecidableEq, Repr

/-- A session as `calloc` makes it. -/
def ClientSession.fresh : ClientSession := ⟨none, none, none, none⟩

/-- The world, one session and its client. -/
structure SessionState where
  /-- The world. -/
  world : World
  /-- The session. -/
  session : ClientSession
  /-- Its client. -/
  client : Client

/-- A computation of one session. -/
abbrev SessionM (α : Type) : Type := StateT SessionState Option α

namespace SessionM

variable {α : Type}

/-- Run a program of the broker on the topic object of a handle. -/
def onTopic (h : ℕ) (p : Broker α) : SessionM α := fun st =>
  (st.world.topics.get h).bind fun t =>
    (p.exec ⟨st.world.fs, st.world.faults, t.chunkHandle, st.client⟩).map fun r =>
      (r.1, { st with
        world := { st.world with
          fs := r.2.fs
          faults := r.2.faults
          topics := st.world.topics.set h { t with chunkHandle := r.2.chunk } }
        client := r.2.client })

/-- Run a program of the broker that has no topic yet, and return the chunk that it set up. -/
def detached (p : Broker α) : SessionM (α × Option Chunk) := fun st =>
  (p.exec ⟨st.world.fs, st.world.faults, none, st.client⟩).map fun r =>
    ((r.1, r.2.chunk), { st with
      world := { st.world with fs := r.2.fs, faults := r.2.faults }
      client := r.2.client })

/-- `malloc` or `strdup`. -/
def malloc : SessionM Bool := do return (← detached Broker.malloc).1

/-- `send` of a whole text; the source ignores its result. -/
def reply (text : Bytes) : SessionM Unit := do
  let _ ← detached (Broker.send text)

/-- The session of the state. -/
def getSession : SessionM ClientSession := do return (← get).session

/-- Change the session. -/
def modifySession (f : ClientSession → ClientSession) : SessionM Unit :=
  modify fun st => { st with session := f st.session }

/-- The object of a group handle. -/
def getGroup (h : ℕ) : SessionM Group := fun st => (st.world.groups.get h).map fun g => (g, st)

/-- Run a function of the broker on the group and the topic of two handles, and store the group
that it returns. -/
def onGroup (group topic : ℕ) (f : Group → Broker (α × Group)) : SessionM α := do
  let (a, g) ← onTopic topic (f (← getGroup group))
  modify fun st => { st with
    world := { st.world with groups := st.world.groups.set group g } }
  return a

/-- `topic_free`. -/
def topicFree (h : ℕ) : SessionM Unit :=
  modify fun st => { st with world := { st.world with topics := st.world.topics.free h } }

/-- `group_free`. -/
def groupFree (h : ℕ) : SessionM Unit :=
  modify fun st => { st with world := { st.world with groups := st.world.groups.free h } }

/-- Give a new topic a handle, unless its setup failed. -/
def newTopic : Option Topic × Option Chunk → SessionM (Option ℕ)
  | (none, _) => return none
  | (some topic, chunk) => fun st =>
    some (some st.world.topics.fresh, { st with
      world := { st.world with topics := st.world.topics.alloc ⟨topic, chunk⟩ } })

/-- Give a new group a handle, unless its setup failed. -/
def newGroup : Option Group → SessionM (Option ℕ)
  | none => return none
  | some group => fun st =>
    some (some st.world.groups.fresh, { st with
      world := { st.world with groups := st.world.groups.alloc group } })

end SessionM

open SessionM

/-! ### Replies -/

def groupOrTopicNotSetHint : Bytes :=
  ascii "\x7b\"error\":\"Group or topic not set. Use SET_GROUP and SET_TOPIC commands first\"\x7d\n"

def groupOrTopicNotSet : Bytes := ascii "\x7b\"error\":\"Group or topic not set\"\x7d\n"

def noMoreData : Bytes :=
  ascii "\x7b\"status\":\"no_data\",\"message\":\"No more data available\"\x7d\n"

def noPacket : Bytes :=
  ascii "\x7b\"status\":\"no_packet\",\"message\":\"No packet available\"\x7d\n"

def packetAcknowledged : Bytes :=
  ascii "\x7b\"status\":\"success\",\"message\":\"Packet acknowledged\"\x7d\n"

def acknowledgeFailed : Bytes := ascii "\x7b\"error\":\"Failed to acknowledge packet\"\x7d\n"

def groupSet : Bytes := ascii "\x7b\"status\":\"success\",\"message\":\"Group set\"\x7d\n"

def topicSet : Bytes := ascii "\x7b\"status\":\"success\",\"message\":\"Topic set\"\x7d\n"

def unknownCommand : Bytes := ascii "\x7b\"error\":\"Unknown command\"\x7d\n"

def goodbye : Bytes := ascii "\x7b\"status\":\"goodbye\"\x7d\n"

/-! ### Reading values out of a command -/

def isBlank (b : UInt8) : Bool := b = 32 || b = 9

/-- The scan to the closing quote. A backslash takes the next byte with it, unless the text ends
there. -/
def scanString : Bytes → Option Bytes
  | [] => none
  | [b] => if b = 34 then some [] else none
  | b :: c :: rest =>
    if b = 34 then some []
    else if b = 92 then (scanString rest).map fun s => b :: c :: s
    else (scanString (c :: rest)).map fun s => b :: s

/-- The text that `extract_json_value` finds: the quoted key, the next colon, blanks, a quote and
everything up to the closing quote. -/
def findJsonValue (json key : Bytes) : Option Bytes := do
  let searchKey := (ascii "\"" ++ key ++ ascii "\"").take 255
  let keyPos ← strstr json searchKey
  let colon ← strchr keyPos 58
  match (colon.drop 1).dropWhile isBlank with
  | 34 :: rest => scanString rest
  | _ => none

def extractJsonValue (json key : Bytes) : SessionM (Option Bytes) := do
  match findJsonValue json key with
  | none => return none
  | some value => if ← malloc then return some value else return none

/-! ### Commands -/

def handleConsumeCommand : SessionM ℤ := do
  let session ← getSession
  match session.group, session.topic with
  | some group, some topic =>
    let g ← getGroup group
    if !(← onTopic g.attachedTopic (groupHasMoreData g)) then
      reply noMoreData
      return 0
    match ← onGroup group topic fun g => consumePacket g topic with
    | none =>
      reply noPacket
      return 0
    | some packet =>
      return (← detached (sendPacketToConsumer packet.data)).1
  | _, _ =>
    reply groupOrTopicNotSetHint
    return -1

def handleAckCommand (commandData : Bytes) : SessionM ℤ := do
  let session ← getSession
  match session.group, session.topic with
  | some group, some topic =>
    if 0 < commandData.length then
      match ← extractJsonValue commandData (ascii "packet_size") with
      | none => pure ()
      | some packetSizeStr =>
        let packetSize := sizeOfInt (atoi packetSizeStr)
        if (← onGroup group topic fun g => ackPacketBySize g topic packetSize) = 0 then
          reply packetAcknowledged
          return 0
    if (← onGroup group topic fun g => ackPacketBatch g topic 1) = 0 then
      reply packetAcknowledged
      return 0
    reply acknowledgeFailed
    return -1
  | _, _ =>
    reply groupOrTopicNotSet
    return -1

def commandConsume : Bytes := ascii "CONSUME"
def commandAck : Bytes := ascii "ACK"
def commandSetGroup : Bytes := ascii "SET_GROUP"
def commandSetTopic : Bytes := ascii "SET_TOPIC"

def defaultTopicBasePath : Bytes := ascii "./topics"

/-- What follows `ACK`: the text after the first newline, or the rest of the line without leading
blanks when there is no newline. -/
def ackData (command : Bytes) : Bytes :=
  match strchr command 10 with
  | some rest => rest.drop 1
  | none => (command.drop commandAck.length).dropWhile isBlank

/-- The argument of `SET_GROUP` and `SET_TOPIC`. Only leading white space is removed. -/
def commandArgument (keyword command : Bytes) : Bytes :=
  (command.drop keyword.length).dropWhile fun b => isBlank b || b = 10

/-- Replace the group of the session by a new one on its topic. -/
def renewGroup (topic : ℕ) : SessionM Unit := do
  let session ← getSession
  match session.group with
  | some group => groupFree group
  | none => pure ()
  let group ← newGroup (← detached (createGroup session.groupId topic)).1
  modifySession fun s => { s with group := group }

def handleSetGroup (groupName : Bytes) : SessionM ℤ := do
  let groupId ← malloc
  modifySession fun s => { s with groupId := if groupId then some groupName else none }
  match (← getSession).topic with
  | some topic => renewGroup topic
  | none => pure ()
  reply groupSet
  return 0

/-- The part of `SET_TOPIC` that opens a topic that exists. The path is cut to 511 bytes. -/
def openTopic (topicName : Bytes) : Broker (Option Topic) := do
  if !(← Broker.malloc) then
    return none
  let name ← Broker.malloc
  let filePath := (topicPath topicName defaultTopicBasePath).take 511
  let path ← Broker.malloc
  if ← Broker.chunkInit filePath then
    let _ ← Broker.chunkLoad
  return some ⟨if name then some topicName else none, if path then some filePath else none⟩

def handleSetTopic (topicName : Bytes) : SessionM ℤ := do
  let copied ← malloc
  modifySession fun s => { s with topicName := if copied then some topicName else none }
  -- A failed copy leaves a null name, which does not exist and cannot be created.
  let found ← if copied then
      Prod.fst <$> detached (topicExists topicName defaultTopicBasePath)
    else pure false
  if found then
    match (← getSession).topic with
    | some topic => topicFree topic
    | none => pure ()
    let topic ← newTopic (← detached (openTopic topicName))
    modifySession fun s => { s with topic := topic }
  else if copied then
    let topic ← newTopic (← detached (createTopic topicName defaultTopicBasePath))
    modifySession fun s => { s with topic := topic }
  else
    modifySession fun s => { s with topic := none }
  let session ← getSession
  match session.topic, session.groupId with
  | some topic, some _ => renewGroup topic
  | _, _ => pure ()
  reply topicSet
  return 0

/-- A command is a C string, so it contains no zero byte. -/
def processClientCommand (command : Bytes) : SessionM ℤ := do
  if startsWith commandConsume command then
    handleConsumeCommand
  else if startsWith commandAck command then
    handleAckCommand (ackData command)
  else if startsWith commandSetGroup command then
    handleSetGroup (commandArgument commandSetGroup command)
  else if startsWith commandSetTopic command then
    handleSetTopic (commandArgument commandSetTopic command)
  else
    reply unknownCommand
    return -1

def clientSessionFree : SessionM Unit := do
  let session ← getSession
  match session.group with
  | some group => groupFree group
  | none => pure ()
  match session.topic with
  | some topic => topicFree topic
  | none => pure ()
  modifySession fun _ => .fresh

/-! ### The session loop -/

/-- The command in a piece of the stream: the C string in the buffer without leading white
space. -/
def pieceCommand (piece : Bytes) : Bytes :=
  (cString piece).dropWhile fun b => isBlank b || b = 10 || b = 13

/-- `QUIT` or `EXIT`. -/
def isQuit (command : Bytes) : Bool :=
  startsWith (ascii "QUIT") command || startsWith (ascii "EXIT") command

/-- The loop over the pieces that `recv` returns, until it returns nothing more. -/
def sessionLoop : List Bytes → SessionM Unit
  | [] => return ()
  | piece :: pieces => do
    let command := pieceCommand piece
    if command.length = 0 then
      sessionLoop pieces
    else if isQuit command then
      reply goodbye
    else
      let _ ← processClientCommand command
      sessionLoop pieces

/-- The session starts from `calloc` and ends with `client_session_free`. -/
def handleClientSession (pieces : List Bytes) : SessionM ℤ := do
  if !(← malloc) then
    return -1
  modifySession fun _ => .fresh
  sessionLoop pieces
  clientSessionFree
  return 0

end SuparnaD
