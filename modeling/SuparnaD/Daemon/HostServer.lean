import SuparnaD.Daemon.Steps
import SuparnaD.Foundation.Custody
import SuparnaD.Socket.Segmentation

/-!
# Hosting the sessions

The functions of `socket/host_server.c` and `socket/connect_to_client.c`, with the session loop of
`handle_client_session`. One loop accepts connections and starts a thread for each; a thread runs
one session and then closes its descriptor and frees the block through which the descriptor was
handed to it. The loop, the threads and the HTTP requests take their steps in any order.

The kernel may give a descriptor out again once it has been closed. A step that uses a closed
descriptor or a freed block is a misuse.

A connection delivers finitely many pieces and is then closed by the client. So `recv` always
returns, and a client that stays silent or never stops sending is left out. A command or a call of
the request handler is one step, as in `Daemon.step`.

## Main definitions

* `LoopStage`, `ThreadStage` : how far the loop and the threads have come.
* `Host`, `HostOp`, `Host.step`.
* `sessionTurns` : what a session does with the pieces that it receives.

## Main results

* `runEnd_sessionTurns` : a session that is not interrupted does what `handle_client_session` does.
-/

namespace SuparnaD

/-- How far `run_server_loop` has come. A connection has the number of its `accept`. -/
inductive LoopStage where
  /-- Before `accept_client`. -/
  | accepting
  /-- After `accept_client`. -/
  | accepted (number fd : ℕ)
  /-- The block `thread_data` has been allocated and filled. -/
  | filled (number fd block : ℕ)
  /-- `pthread_create` has failed. -/
  | discarding (fd block : ℕ)
  /-- Before `close`, without a block. -/
  | refusing (fd : ℕ)
  deriving DecidableEq, Repr

/-- How far `handle_client_thread` has come. -/
inductive ThreadStage where
  /-- The thread has not been created. -/
  | absent
  /-- The thread has been given its block. -/
  | created (block : ℕ)
  /-- In `handle_client_session`, before `calloc`. -/
  | entered (block fd : ℕ)
  /-- In the loop of the session. -/
  | serving (block fd : ℕ)
  /-- After the loop. -/
  | leaving (block fd : ℕ)
  /-- The session has been freed. -/
  | closing (block fd : ℕ)
  /-- Back from `handle_client_session`, which may have left the descriptor open. -/
  | returned (block : ℕ) (leftOpen : Option ℕ)
  /-- The thread has ended. -/
  | ended (leftOpen : Option ℕ)
  deriving DecidableEq, Repr

/-- The program with its accepted connections. -/
structure Host where
  /-- The sessions, the HTTP requests and the files. -/
  daemon : Daemon
  /-- The open descriptors of clients, with the pieces that `recv` is going to return before it
  returns nothing. -/
  connections : ℕ → Option (List Bytes)
  /-- The blocks of `ClientThreadData` with their `client_fd`. -/
  data : HandleHeap ℕ
  /-- The loop of the server. -/
  loop : LoopStage
  /-- The thread of each connection. -/
  threads : ℕ → ThreadStage
  /-- The number of connections accepted so far. -/
  accepted : ℕ

/-- What can happen. -/
inductive HostOp where
  /-- `accept` returns a descriptor. -/
  | accept (fd : ℕ) (pieces : List Bytes)
  /-- `accept` fails. -/
  | acceptFails
  /-- The loop takes a step. Its `malloc` or `pthread_create` works or fails. -/
  | loop (works : Bool)
  /-- A thread takes a step. Its `calloc` works or fails. -/
  | thread (number : ℕ) (works : Bool)
  /-- A call of the request handler for a request. -/
  | http (request : ℕ) (url method uploadData : Bytes)
  deriving DecidableEq, Repr

/-- What a step shows. -/
inductive HostResult where
  /-- Nothing. -/
  | quiet
  /-- A turn of a session or of a request. -/
  | turn (op : DaemonOp) (r : DaemonResult)
  /-- A closed descriptor or a freed block has been used. -/
  | misuse

namespace Host

/-- The program at its start. -/
def start (daemon : Daemon) : Host :=
  ⟨daemon, fun _ => none, .empty, .accepting, fun _ => .absent, 0⟩

/-- The loop has come to a stage. -/
def withLoop (h : Host) (stage : LoopStage) : Host := { h with loop := stage }

/-- A thread has come to a stage. -/
def withThread (h : Host) (number : ℕ) (stage : ThreadStage) : Host :=
  { h with threads := Function.update h.threads number stage }

/-- The program takes a turn and goes on. -/
def turn (h : Host) (op : DaemonOp) : Option (HostResult × Host) :=
  (h.daemon.step op).map fun r => (.turn op r.1, { h with daemon := r.2 })

/-- `recv` has returned a piece. -/
def afterRecv (h : Host) (fd : ℕ) (pieces : List Bytes) : Host :=
  { h with connections := Function.update h.connections fd (some pieces) }

/-- `close`, then go on. -/
def close (h : Host) (fd : ℕ) (next : Host → Host) : HostResult × Host :=
  match h.connections fd with
  | none => (.misuse, h)
  | some _ => (.quiet, next { h with connections := Function.update h.connections fd none })

/-- `free(thread_data)`, then go on. -/
def freeData (h : Host) (block : ℕ) (next : Host → Host) : HostResult × Host :=
  match h.data.get block with
  | none => (.misuse, h)
  | some _ => (.quiet, next { h with data := h.data.free block })

/-- The loop behind `accept_client`. -/
def runServerLoop (h : Host) (works : Bool) : Option (HostResult × Host) :=
  match h.loop with
  | .accepting => none
  | .accepted number fd =>
    if works then
      some (.quiet, { h with data := h.data.alloc fd }.withLoop (.filled number fd h.data.fresh))
    else some (.quiet, h.withLoop (.refusing fd))
  | .filled number fd block =>
    if works then some (.quiet, (h.withThread number (.created block)).withLoop .accepting)
    else some (.quiet, h.withLoop (.discarding fd block))
  | .discarding fd block => some (h.freeData block fun h => h.withLoop (.refusing fd))
  | .refusing fd => some (h.close fd fun h => h.withLoop .accepting)

/-- The body of the loop of `handle_client_session`. -/
def serve (h : Host) (number block fd : ℕ) : Option (HostResult × Host) :=
  match h.connections fd with
  | none => some (.misuse, h)
  | some [] => some (.quiet, h.withThread number (.leaving block fd))
  | some (piece :: pieces) =>
    let command := pieceCommand piece
    if command.length = 0 then some (.quiet, h.afterRecv fd pieces)
    else if isQuit command then
      ((h.afterRecv fd pieces).withThread number (.leaving block fd)).turn (.goodbye number)
    else (h.afterRecv fd pieces).turn (.socket (.command number command))

/-- The body of a thread. `accept` never returns a negative descriptor here, so the check of
`handle_client_session` always passes. -/
def handleClientThread (h : Host) (number : ℕ) (works : Bool) : Option (HostResult × Host) :=
  match h.threads number with
  | .absent | .ended _ => none
  | .created block =>
    match h.data.get block with
    | none => some (.misuse, h)
    | some fd => some (.quiet, h.withThread number (.entered block fd))
  | .entered block fd =>
    if works then some (.quiet, h.withThread number (.serving block fd))
    else some (.quiet, h.withThread number (.returned block (some fd)))
  | .serving block fd => h.serve number block fd
  | .leaving block fd =>
    (h.withThread number (.closing block fd)).turn (.socket (.disconnect number))
  | .closing block fd => some (h.close fd fun h => h.withThread number (.returned block none))
  | .returned block leftOpen =>
    some (h.freeData block fun h => h.withThread number (.ended leftOpen))

/-- One step. -/
def step (h : Host) : HostOp → Option (HostResult × Host)
  | .accept fd pieces =>
    -- A new descriptor is one that is not open.
    if h.loop = .accepting ∧ h.connections fd = none then
      some (.quiet, { h.afterRecv fd pieces with accepted := h.accepted + 1 }.withLoop
        (.accepted h.accepted fd))
    else none
  | .acceptFails => if h.loop = .accepting then some (.quiet, h) else none
  | .loop works => h.runServerLoop works
  | .thread number works => h.handleClientThread number works
  | .http request url method uploadData => h.turn (.http request url method uploadData)

end Host

/-! ### One session -/

/-- What a session does with the pieces that it receives. -/
def sessionTurns (number : ℕ) : List Bytes → List DaemonOp
  | [] => [.socket (.disconnect number)]
  | piece :: pieces =>
    let command := pieceCommand piece
    if command.length = 0 then sessionTurns number pieces
    else if isQuit command then [.goodbye number, .socket (.disconnect number)]
    else .socket (.command number command) :: sessionTurns number pieces

section

open SessionM

variable {d : Daemon} {number : ℕ} {t st' : SessionState}

@[simp] theorem Server.update_update (s : Server) (i : ℕ) (st st' : SessionState) :
    (s.update i st).update i st' = s.update i st' := by
  simp only [Server.update, Function.update_idem]

/-- A turn of a session that is not interrupted. -/
theorem runEnd_session {op : DaemonOp} {ops : List DaemonOp} {r : DaemonResult}
    (hstep : d.step op = some (r, { d with server := d.server.update number t }))
    (hend : runEnd Daemon.step { d with server := d.server.update number t } ops =
      { d with server := (d.server.update number t).update number st' }) :
    runEnd Daemon.step d (op :: ops) = { d with server := d.server.update number st' } := by
  rw [runEnd_cons_of_some hstep, hend, Server.update_update]

theorem step_disconnect (hrun : clientSessionFree (d.server.view number) = some ((), st')) :
    d.step (.socket (.disconnect number)) =
      some (.socket [] 0, { d with server := d.server.update number st' }) := by
  simp only [Daemon.step, Server.step, hrun, Option.map_some]

/-- A session that nothing interrupts does what `handle_client_session` does after `calloc`. -/
theorem runEnd_sessionTurns (pieces : List Bytes)
    (hrun : (do sessionLoop pieces; clientSessionFree) (d.server.view number) = some ((), st')) :
    runEnd Daemon.step d (sessionTurns number pieces) =
      { d with server := d.server.update number st' } := by
  induction pieces generalizing d with
  | nil => exact runEnd_session (step_disconnect hrun) (by simp)
  | cons piece pieces ih =>
    rw [sessionLoop] at hrun
    rw [sessionTurns]
    split_ifs at hrun ⊢ with hempty hquit
    · exact ih hrun
    · refine runEnd_session (t := (d.server.view number).replied goodbye) rfl ?_
      refine runEnd_session (t := st') (step_disconnect ?_) (by simp)
      rwa [Server.view_update_self]
    · rw [bind_assoc] at hrun
      obtain ⟨r, st₁, hcommand, hrun⟩ := SessionM.bind_eq_some_iff.mp hrun
      rw [← snd_recordedCommand] at hcommand
      obtain ⟨⟨record, r'⟩, hcommand, -⟩ := SessionM.map_eq_some_iff.mp hcommand
      refine runEnd_session (t := st₁) (r := .socket record r') ?_ (ih ?_)
      · simp only [Daemon.step, Server.step, hcommand, Option.map_some]
      · rwa [Server.view_update_self]

end

end SuparnaD
