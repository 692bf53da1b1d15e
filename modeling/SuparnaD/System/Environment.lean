import Mathlib.Logic.Function.Basic
import SuparnaD.Foundation.CallProgram
import SuparnaD.Writer.ReadWriteData

/-!
# The environment of the broker

The functions of `messaging/` and of `socket/consumer_handler.c` work on one topic, that is on one
chunk, and on one client socket. They are programs over the calls listed here: the functions of
`writer/`, allocation, the file system and the socket. `Machine` is the state that these calls act
on, and `perform` is their effect.

The fate of storage and allocation (`faults`) and the answers of the client (`sends`, `acks`) are
scripts; past the end of a script every call succeeds, so an empty script of faults means that all
I/O and allocation succeed.

Paths are resolved lexically. A path may have parts of any length, a file can be made where its
directory is missing, and what `fwrite` takes is in the file at once. Every call returns: a client
that does not read cannot hold up a `send`, and one that has gone raises no signal.

## Main definitions

* `FileSystem`, with `resolve` for the spelling of paths.
* `Client`, `Machine`.
* `brokerCalls`, `perform` : the interface of calls and its effect.
-/

namespace SuparnaD

/-! ### Files and directories -/

/-- A path after lexical removal of empty parts, `.` and `..`. -/
structure Path where
  /-- The path starts with `/`. -/
  absolute : Bool
  /-- The parts, from the root or the working directory on. -/
  parts : List Bytes
  deriving DecidableEq, Repr

/-- Add one part to the parts of a resolved path, which are listed from the last to the first. -/
def pushPart (absolute : Bool) (parts : List Bytes) (part : Bytes) : List Bytes :=
  if part = [] ∨ part = ascii "." then parts
  else if part = ascii ".." then
    match parts with
    | [] => if absolute then [] else [part]
    | last :: rest => if last = ascii ".." then part :: parts else rest
  else part :: parts

/-- Resolve the spelling of a path. -/
def resolve (path : Bytes) : Path :=
  let absolute := startsWith (ascii "/") path
  ⟨absolute, ((path.splitOn 47).foldl (pushPart absolute) []).reverse⟩

/-- The files with their contents, and the directories. Only `mkdir` looks for the parent of a path,
and no name is too long. -/
structure FileSystem where
  /-- The content of each file. -/
  files : Path → Option Bytes
  /-- The directories that exist, besides the root and the working directory. -/
  dirs : Path → Bool

namespace FileSystem

/-- The content of the file at a path. -/
def read (fs : FileSystem) (path : Bytes) : Option Bytes := fs.files (resolve path)

/-- Replace the content of the file at a path; `none` leaves no file there. -/
def write (fs : FileSystem) (path : Bytes) (content : Option Bytes) : FileSystem :=
  { fs with files := Function.update fs.files (resolve path) content }

@[simp] theorem read_write (fs : FileSystem) (path : Bytes) (content : Option Bytes) :
    (fs.write path content).read path = content :=
  Function.update_self ..

theorem read_write_of_ne (fs : FileSystem) {path other : Bytes}
    (h : resolve other ≠ resolve path) (content : Option Bytes) :
    (fs.write path content).read other = fs.read other :=
  Function.update_of_ne h ..

/-- The file system with one file. -/
def ofFile (path content : Bytes) : FileSystem :=
  ⟨Function.update (fun _ => none) (resolve path) (some content), fun _ => false⟩

@[simp] theorem read_ofFile (path content : Bytes) :
    (ofFile path content).read path = some content := by
  simp only [read, ofFile, Function.update_self]

/-- A directory exists at a resolved path. -/
def isDir (fs : FileSystem) (p : Path) : Bool := p.parts.isEmpty || fs.dirs p

/-- `stat` succeeds: the path is not empty and something is there. -/
def stat (fs : FileSystem) (path : Bytes) : Bool :=
  !path.isEmpty && (fs.isDir (resolve path) || (fs.read path).isSome)

/-- The results of `mkdir` that the source tells apart. -/
inductive MkdirResult where
  | created
  | alreadyExists
  | failed
  deriving DecidableEq, Repr

/-- `mkdir`: a directory is made at a free path whose parent is a directory. -/
def mkdir (fs : FileSystem) (path : Bytes) : MkdirResult × FileSystem :=
  let p := resolve path
  if path = [] then (.failed, fs)
  else if fs.stat path then (.alreadyExists, fs)
  else if fs.isDir ⟨p.absolute, p.parts.dropLast⟩ then
    (.created, { fs with dirs := Function.update fs.dirs p true })
  else (.failed, fs)

end FileSystem

/-! ### The client -/

/-- What happens to one `send`: it fails, or the socket takes all but some of the bytes. -/
inductive SendOutcome where
  | failed
  | accepts (missing : ℕ)
  deriving DecidableEq, Repr

/-- The client at the other end of the socket. It never keeps a call waiting. -/
structure Client where
  /-- The fates of the coming `send` calls; past the end all bytes are taken. -/
  sends : List SendOutcome
  /-- The results of the coming `read` calls, `none` for an error; past the end the connection is
  closed, which `read` shows as no bytes. -/
  acks : List (Option Bytes)
  /-- All bytes that the socket has taken. -/
  wire : Bytes
  deriving DecidableEq, Repr

namespace Client

/-- `send(client_fd, data, len, 0)`, with its result. It always returns here, though the call may
block on a client that does not read. -/
def send (c : Client) (data : Bytes) : ℤ × Client :=
  match c.sends.headD (.accepts 0) with
  | .failed => (-1, { c with sends := c.sends.tail })
  | .accepts missing =>
    let count := data.length - missing
    (count, { c with sends := c.sends.tail, wire := c.wire ++ data.take count })

/-- `read(client_fd, buffer, n)`: the bytes read, at most `n`, or `none` for an error. -/
def read (c : Client) (n : ℕ) : Option Bytes × Client :=
  (match c.acks.headD (some []) with
    | none => none
    | some bytes => some (bytes.take n),
    { c with acks := c.acks.tail })

end Client

/-! ### The calls -/

/-- The calls that a program of one topic and one client issues. -/
inductive BrokerCall where
  /-- Is `topic->chunk_handle` set? -/
  | hasChunk
  /-- The functions of the writer, on the chunk of the topic. -/
  | chunkInit (filePath : Bytes)
  | chunkFree
  | chunkLoad
  | chunkAppend (data : Bytes)
  | chunkRead (size offset : UInt64)
  | chunkSize
  | chunkSaveDelta
  /-- `malloc` or `strdup`. -/
  | malloc
  /-- `fopen(path, "r")` followed by `fclose`. -/
  | fopenRead (path : Bytes)
  | stat (path : Bytes)
  | mkdir (path : Bytes)
  /-- The socket. -/
  | send (data : Bytes)
  | read (n : ℕ)
  deriving DecidableEq, Repr

/-- The interface of the broker's calls. -/
@[reducible] def brokerCalls : CallInterface where
  Call := BrokerCall
  Answer
    | .hasChunk | .chunkInit _ | .malloc | .fopenRead _ | .stat _ => Bool
    | .chunkFree => Unit
    | .chunkLoad | .chunkAppend _ | .chunkSaveDelta | .send _ => ℤ
    | .chunkRead _ _ => Bytes
    | .chunkSize => UInt64
    | .mkdir _ => FileSystem.MkdirResult
    | .read _ => Option Bytes

/-- A program of the broker. -/
abbrev Broker (α : Type) : Type := CallProgram brokerCalls α

namespace Broker

def hasChunk : Broker Bool := .issue (I := brokerCalls) .hasChunk
def chunkInit (filePath : Bytes) : Broker Bool := .issue (I := brokerCalls) (.chunkInit filePath)
def chunkFree : Broker Unit := .issue (I := brokerCalls) .chunkFree
def chunkLoad : Broker ℤ := .issue (I := brokerCalls) .chunkLoad
def chunkAppend (data : Bytes) : Broker ℤ := .issue (I := brokerCalls) (.chunkAppend data)
def chunkRead (size offset : UInt64) : Broker Bytes :=
  .issue (I := brokerCalls) (.chunkRead size offset)
def chunkSize : Broker UInt64 := .issue (I := brokerCalls) .chunkSize
def chunkSaveDelta : Broker ℤ := .issue (I := brokerCalls) .chunkSaveDelta
def malloc : Broker Bool := .issue (I := brokerCalls) .malloc
def fopenRead (path : Bytes) : Broker Bool := .issue (I := brokerCalls) (.fopenRead path)
def stat (path : Bytes) : Broker Bool := .issue (I := brokerCalls) (.stat path)
def mkdir (path : Bytes) : Broker FileSystem.MkdirResult := .issue (I := brokerCalls) (.mkdir path)
def send (data : Bytes) : Broker ℤ := .issue (I := brokerCalls) (.send data)
def read (n : ℕ) : Broker (Option Bytes) := .issue (I := brokerCalls) (.read n)

end Broker

/-! ### The state that the calls act on -/

/-- The file system, the script of storage and allocation, the chunk of the topic at hand and the
client. -/
structure Machine where
  /-- The files and directories. -/
  fs : FileSystem
  /-- How the coming calls to storage and to the allocator turn out; past the end all succeed. -/
  faults : List IoOutcome
  /-- `topic->chunk_handle`, or the chunk that a function is setting up. -/
  chunk : Option Chunk
  /-- The client. -/
  client : Client

namespace Machine

/-- One file with a chunk that has not been loaded yet; every call succeeds. -/
def ofFile (path content : Bytes) : Machine :=
  ⟨.ofFile path content, [], some ⟨path, [], 0, 0, 0⟩, ⟨[], [], []⟩⟩

/-- The outcome in store for the next call to storage or to the allocator. -/
def outcome (s : Machine) : IoOutcome := s.faults.headD .ok

/-- The state after that outcome has been used up. -/
def next (s : Machine) : Machine := { s with faults := s.faults.tail }

end Machine

open Machine in
/-- The effect of each call. -/
def perform : CallHandler brokerCalls Machine
  | .hasChunk, s => some (s.chunk.isSome, s)
  | .chunkInit filePath, s =>
    let chunk := Writer.chunkInit s.outcome filePath
    some (chunk.isSome, { s.next with chunk := chunk })
  | .chunkFree, s => some ((), { s with chunk := none })
  | .chunkLoad, s =>
    match s.chunk with
    | none => some ((-1 : ℤ), s)
    | some c =>
      let r := Writer.chunkLoad s.outcome (s.fs.read c.filePath) c
      some (r.1, { s.next with chunk := some r.2 })
  | .chunkAppend data, s =>
    match s.chunk with
    | none => some ((-1 : ℤ), s)
    | some c =>
      (Writer.chunkAppend s.outcome c data).map fun r =>
        (r.1, { s.next with chunk := some r.2 })
  | .chunkRead size offset, s =>
    match s.chunk with
    | none => some (([] : Bytes), s)
    | some c => some (Writer.chunkRead c size offset, s)
  | .chunkSize, s => s.chunk.map fun c => (c.size, s)
  | .chunkSaveDelta, s =>
    match s.chunk with
    | none => some ((-1 : ℤ), s)
    | some c =>
      let r := Writer.chunkSaveDelta s.outcome (s.fs.read c.filePath) c
      some (r.1, { s.next with chunk := some r.2.1, fs := s.fs.write c.filePath r.2.2 })
  | .malloc, s => some (s.outcome.alloc, s.next)
  | .fopenRead path, s => some (s.outcome.opens && (s.fs.read path).isSome, s.next)
  | .stat path, s => some (s.outcome.opens && s.fs.stat path, s.next)
  | .mkdir path, s =>
    if s.outcome.opens then
      some ((s.fs.mkdir path).1, { s.next with fs := (s.fs.mkdir path).2 })
    else some (.failed, s.next)
  | .send data, s =>
    let r := s.client.send data
    some (r.1, { s with client := r.2 })
  | .read n, s =>
    let r := s.client.read n
    some (r.1, { s with client := r.2 })

namespace Broker

/-- Execute a program of the broker. -/
abbrev exec {α : Type} (p : Broker α) (s : Machine) : Option (α × Machine) := p.run perform s

/-! ### The effect of single calls -/

variable {s : Machine} {c : Chunk}

@[simp] theorem exec_hasChunk : hasChunk.exec s = some (s.chunk.isSome, s) := rfl

@[simp] theorem exec_chunkFree : chunkFree.exec s = some ((), { s with chunk := none }) := rfl

theorem exec_chunkLoad (h : s.chunk = some c) : chunkLoad.exec s =
    some ((Writer.chunkLoad s.outcome (s.fs.read c.filePath) c).1,
      { s.next with
        chunk := some (Writer.chunkLoad s.outcome (s.fs.read c.filePath) c).2 }) :=
  (CallProgram.run_issue perform BrokerCall.chunkLoad s).trans (by simp only [perform, h])

theorem exec_chunkAppend (h : s.chunk = some c) (data : Bytes) : (chunkAppend data).exec s =
    (Writer.chunkAppend s.outcome c data).map fun r =>
      (r.1, { s.next with chunk := some r.2 }) :=
  (CallProgram.run_issue perform (BrokerCall.chunkAppend data) s).trans (by simp only [perform, h])

theorem exec_chunkRead (h : s.chunk = some c) (size offset : UInt64) :
    (chunkRead size offset).exec s = some (Writer.chunkRead c size offset, s) :=
  (CallProgram.run_issue perform (BrokerCall.chunkRead size offset) s).trans
    (by simp only [perform, h])

theorem exec_chunkSize (h : s.chunk = some c) : chunkSize.exec s = some (c.size, s) :=
  (CallProgram.run_issue perform BrokerCall.chunkSize s).trans
    (by simp only [perform, h, Option.map_some])

theorem exec_chunkSaveDelta (h : s.chunk = some c) : chunkSaveDelta.exec s =
    some ((Writer.chunkSaveDelta s.outcome (s.fs.read c.filePath) c).1,
      { s.next with
        chunk := some (Writer.chunkSaveDelta s.outcome (s.fs.read c.filePath) c).2.1
        fs := s.fs.write c.filePath
          (Writer.chunkSaveDelta s.outcome (s.fs.read c.filePath) c).2.2 }) :=
  (CallProgram.run_issue perform BrokerCall.chunkSaveDelta s).trans (by simp only [perform, h])

@[simp] theorem exec_malloc : malloc.exec s = some (s.outcome.alloc, s.next) := rfl

@[simp] theorem exec_fopenRead (path : Bytes) : (fopenRead path).exec s =
    some (s.outcome.opens && (s.fs.read path).isSome, s.next) := rfl

@[simp] theorem exec_send (data : Bytes) : (send data).exec s =
    some ((s.client.send data).1, { s with client := (s.client.send data).2 }) := rfl

end Broker

end SuparnaD
