import SuparnaD.Api.Handler
import SuparnaD.Daemon.SessionFiles

/-!
# The whole program

The HTTP server and the socket server run in one program and share nothing but the files. `Daemon`
is the state of both: the world with its sessions, and `*con_cls` of every HTTP request. A turn is
one command of a session, its answer to `QUIT`, its end, or one call of the request handler.

A turn is taken at once. The threads of the program have no lock around a command, so this leaves
out what they do to each other inside of one: two of them may both find a topic missing and both
write its initial data, which is the subject of `SuparnaD.Api.TopicRace`. Nor does a client hold up
a turn: every `send` and `read` returns, as in `SuparnaD.System.Environment`.

A relation between files and outcomes that every single call keeps is kept by every turn.

## Main definitions

* `Daemon`, `DaemonOp`, `Daemon.step`, `Daemon.start`.
* `StorageRelation` : a relation between files and outcomes that every call keeps.

## Main results

* `Daemon.owned_step` : no turn gives a group to two sessions.
* `StorageRelation.routeRequest` : every call of the request handler keeps such a relation.
* `StorageRelation.run` : every run of the program keeps it.
-/

namespace SuparnaD

open Broker

/-- The socket server, the HTTP requests and the script of the HTTP library. -/
structure Daemon where
  /-- The sessions and the files. -/
  server : Server
  /-- `*con_cls` of each request. -/
  requests : ℕ → Option RequestBuffer
  /-- The results of the coming calls to the HTTP library. -/
  mhd : List Bool

/-- What can happen at the program. -/
inductive DaemonOp where
  /-- A turn of a session. -/
  | socket (op : ServerOp)
  /-- A session answers `QUIT`. -/
  | goodbye (i : ℕ)
  /-- A call of the request handler for a request. -/
  | http (request : ℕ) (url method uploadData : Bytes)
  deriving DecidableEq, Repr

/-- What a turn shows. -/
inductive DaemonResult where
  /-- The packets handed out and the result of the command. -/
  | socket (record : List Attempt) (r : ℤ)
  /-- The result of the handler, the replies that it has queued and its calls to the broker. -/
  | http (result : MhdResult) (replies : List Reply) (actions : List ApiAction)

namespace Daemon

/-- What the request handler works on. -/
def apiState (d : Daemon) : ApiState :=
  ⟨⟨d.server.world.fs, d.server.world.faults, none, ⟨[], [], []⟩⟩, d.mhd, [], []⟩

/-- The program after a call of the request handler. -/
def afterCall (d : Daemon) (request : ℕ) (conCls : Option RequestBuffer) (st : ApiState) :
    Daemon where
  server := { d.server with world := { d.server.world with
    fs := st.machine.fs
    faults := st.machine.faults } }
  requests := Function.update d.requests request conCls
  mhd := st.mhd

/-- One turn, which nothing interrupts. -/
def step (d : Daemon) : DaemonOp → Option (DaemonResult × Daemon)
  | .socket op => (d.server.step op).map fun r => (.socket r.1.1 r.1.2, { d with server := r.2 })
  | .goodbye i => some (.socket [] 0,
      { d with server := d.server.update i ((d.server.view i).replied SuparnaD.goodbye) })
  | .http request url method uploadData =>
    (routeRequest url method uploadData (d.requests request) d.apiState).map fun r =>
      (.http r.1.result r.2.replies r.2.actions, d.afterCall request r.1.conCls r.2)

/-- The files. -/
def fs (d : Daemon) : FileSystem := d.server.world.fs

/-- The program at its start. -/
def start (fs : FileSystem) (faults : List IoOutcome) (clients : ℕ → Client) (mhd : List Bool) :
    Daemon :=
  ⟨.start fs faults clients, fun _ => none, mhd⟩

/-- The program at its start on the given files. Storage, the allocator and the HTTP library work,
and the clients take all that is sent. -/
def onFiles (fs : FileSystem) : Daemon := start fs [] (fun _ => ⟨[], [], []⟩) []

/-- A call of the request handler, taken apart. -/
theorem step_http_eq_some_iff {d d' : Daemon} {request : ℕ} {url method uploadData : Bytes}
    {r : DaemonResult} :
    d.step (.http request url method uploadData) = some (r, d') ↔ ∃ ret st,
      routeRequest url method uploadData (d.requests request) d.apiState = some (ret, st) ∧
        r = .http ret.result st.replies st.actions ∧ d' = d.afterCall request ret.conCls st := by
  rw [step, Option.map_eq_some_iff]
  constructor
  · rintro ⟨⟨ret, st⟩, hrun, heq⟩
    obtain ⟨rfl, rfl⟩ := Prod.mk.inj heq
    exact ⟨ret, st, hrun, rfl, rfl⟩
  · rintro ⟨ret, st, hrun, rfl, rfl⟩
    exact ⟨(ret, st), hrun, rfl⟩

end Daemon

/-! ### The sessions -/

/-- A change of the files does not touch the groups. -/
theorem Server.Owned.withStorage {s : Server} (h : s.Owned) (fs : FileSystem)
    (faults : List IoOutcome) :
    ({ s with world := { s.world with fs := fs, faults := faults } } : Server).Owned :=
  ⟨h.sound, fun i => ⟨(h.bounded i).topic, (h.bounded i).attached⟩, h.made, h.apart⟩

/-- A turn leaves each group to one session. -/
theorem Daemon.owned_step {d d' : Daemon} {op : DaemonOp} {r : DaemonResult}
    (h : d.server.Owned) (hstep : d.step op = some (r, d')) : d'.server.Owned := by
  cases op with
  | socket op =>
    obtain ⟨⟨r', s'⟩, hrun, heq⟩ := Option.map_eq_some_iff.mp hstep
    obtain ⟨-, rfl⟩ := Prod.mk.inj heq
    exact (h.step hrun).1
  | goodbye i =>
    obtain ⟨-, rfl⟩ := Prod.mk.inj (Option.some.inj hstep)
    exact h.update ((SessionState.idle_replied _ _).keepsToOwn (h.bounded i))
  | http request url method uploadData =>
    obtain ⟨ret, st, -, -, rfl⟩ := step_http_eq_some_iff.mp hstep
    exact h.withStorage _ _

theorem Daemon.owned_run {d : Daemon} (h : d.server.Owned) (ops : List DaemonOp) :
    (runEnd Daemon.step d ops).server.Owned :=
  runEnd_rule (fun d => d.server.Owned) (fun _ _ _ _ h hstep => owned_step h hstep) h ops

/-! ### Computations of a request handler -/

namespace ApiM

variable {α β : Type} {R : ApiState → ApiState → Prop}

/-- Every completed execution relates its initial state to its final state by `R`. -/
def Keeps (m : ApiM α) (R : ApiState → ApiState → Prop) : Prop :=
  ∀ ⦃st a st'⦄, m st = some (a, st') → R st st'

theorem Keeps.ite {b : Prop} [Decidable b] {m m' : ApiM α} (hm : m.Keeps R)
    (hm' : m'.Keeps R) : (if b then m else m').Keeps R := by
  split
  · exact hm
  · exact hm'

/-- A completed computation of a sequence, taken apart. -/
theorem bind_eq_some_iff {x : ApiM α} {f : α → ApiM β} {st : ApiState} {b : β × ApiState} :
    (x >>= f) st = some b ↔ ∃ a t, x st = some (a, t) ∧ f a t = some b := by
  rw [← Prod.exists (p := fun r => x st = some r ∧ f r.1 r.2 = some b)]
  exact Option.bind_eq_some_iff

end ApiM

/-- A relation between files and outcomes that every single call keeps. -/
structure StorageRelation (Rel : Storage → Storage → Prop) : Prop where
  refl : ∀ x, Rel x x
  trans : ∀ x y z, Rel x y → Rel y z → Rel x z
  perform : ∀ {c : BrokerCall} {s s' : Machine} {r : brokerCalls.Answer c},
    SuparnaD.perform c s = some (r, s') → Rel s.storage s'.storage

namespace StorageRelation

variable {Rel : Storage → Storage → Prop} (h : StorageRelation Rel)

include h

/-- Every program of the broker keeps the relation. -/
theorem exec {α : Type} {p : Broker α} {s s' : Machine} {a : α} (hrun : p.exec s = some (a, s')) :
    Rel s.storage s'.storage :=
  (CallProgram.within_true p).invariant (J := fun t => Rel s.storage t.storage)
    (fun _ _ _ _ _ hcall ht => h.trans _ _ _ ht (h.perform hcall)) hrun (h.refl s.storage)

/-- The relation is one that sessions keep. -/
theorem session : SessionRelation Rel where
  refl := h.refl
  trans := h.trans
  unsaving _ hrun := h.exec hrun
  createTopic hrun := h.exec hrun

/-! ### Requests -/

omit h in
/-- The relation between the machines before and after a computation of a request handler. -/
abbrev OnRequest (Rel : Storage → Storage → Prop) (st st' : ApiState) : Prop :=
  Rel st.machine.storage st'.machine.storage

/-- A computation that leaves the machine alone. -/
theorem keeps_of_machine {α : Type} {m : ApiM α}
    (hm : ∀ st a st', m st = some (a, st') → st'.machine = st.machine) :
    m.Keeps (OnRequest Rel) := by
  intro st a st' hrun
  rw [OnRequest, hm st a st' hrun]
  exact h.refl _

theorem keeps_pure {α : Type} (a : α) : (pure a : ApiM α).Keeps (OnRequest Rel) :=
  h.keeps_of_machine fun _ _ _ hrun => by
    obtain ⟨-, rfl⟩ := Prod.mk.inj (Option.some.inj hrun)
    rfl

theorem keeps_bind {α β : Type} {m : ApiM α} {f : α → ApiM β} (hm : m.Keeps (OnRequest Rel))
    (hf : ∀ a, (f a).Keeps (OnRequest Rel)) : (m >>= f).Keeps (OnRequest Rel) := by
  intro st b st' hrun
  obtain ⟨a, t, hrun₁, hrun₂⟩ := ApiM.bind_eq_some_iff.mp hrun
  exact h.trans _ _ _ (hm hrun₁) (hf a hrun₂)

theorem keeps_broker {α : Type} (p : Broker α) : (ApiM.broker p).Keeps (OnRequest Rel) := by
  intro st a st' hrun
  obtain ⟨⟨a', m⟩, hexec, heq⟩ := Option.map_eq_some_iff.mp hrun
  obtain ⟨rfl, rfl⟩ := Prod.mk.inj heq
  exact h.exec hexec

theorem keeps_reply (status : ℕ) (body contentType : Bytes) :
    (ApiM.reply status body contentType).Keeps (OnRequest Rel) :=
  h.keeps_of_machine fun st _ _ hrun => by
    obtain ⟨_, _, hrun', hmachine, -⟩ := ApiM.reply_eq_some status body contentType st
    obtain ⟨-, rfl⟩ := Prod.mk.inj (Option.some.inj (hrun'.symm.trans hrun))
    exact hmachine

theorem keeps_record (action : ApiAction) : (ApiM.record action).Keeps (OnRequest Rel) :=
  h.keeps_of_machine fun _ _ _ hrun => by
    obtain ⟨-, rfl⟩ := Prod.mk.inj (Option.some.inj hrun)
    rfl

theorem extractJsonString (json key : Bytes) :
    (SuparnaD.extractJsonString json key).Keeps (OnRequest Rel) := by
  rw [SuparnaD.extractJsonString]
  cases findJsonString json key with
  | none => exact h.keeps_pure _
  | some value =>
    exact h.keeps_bind (h.keeps_broker _) fun _ => .ite (h.keeps_pure _) (h.keeps_pure _)

theorem publishBody (json : Bytes) : (SuparnaD.publishBody json).Keeps (OnRequest Rel) := by
  refine h.keeps_bind (h.extractJsonString _ _) fun topicName =>
    h.keeps_bind (h.extractJsonString _ _) fun data => ?_
  cases topicName with
  | none => exact h.keeps_reply _ _ _
  | some topicName =>
  cases data with
  | none => exact h.keeps_reply _ _ _
  | some data =>
  refine h.keeps_bind (h.keeps_broker _) fun topic => ?_
  cases topic with
  | none => exact h.keeps_reply _ _ _
  | some topic =>
  have hanswer (status : ℕ) (body : Bytes) :
      (do
        let result ← ApiM.reply status body applicationJson
        ApiM.broker chunkFree
        return result : ApiM MhdResult).Keeps (OnRequest Rel) :=
    h.keeps_bind (h.keeps_reply _ _ _) fun _ => h.keeps_bind (h.keeps_broker _) fun _ =>
      h.keeps_pure _
  exact h.keeps_bind (h.keeps_record _) fun _ => h.keeps_bind (h.keeps_broker _) fun r =>
    .ite (hanswer _ _) (hanswer _ _)

theorem createBody (json : Bytes) : (SuparnaD.createBody json).Keeps (OnRequest Rel) := by
  refine h.keeps_bind (h.extractJsonString _ _) fun topicName =>
    h.keeps_bind (h.extractJsonString _ _) fun basePath => ?_
  cases topicName with
  | none => exact h.keeps_reply _ _ _
  | some topicName =>
  refine h.keeps_bind (h.keeps_broker _) fun found => .ite (h.keeps_reply _ _ _) ?_
  refine h.keeps_bind (h.keeps_record _) fun _ => h.keeps_bind (h.keeps_broker _) fun topic => ?_
  cases topic with
  | none => exact h.keeps_reply _ _ _
  | some topic =>
    exact h.keeps_bind (h.keeps_reply _ _ _) fun _ => h.keeps_bind (h.keeps_broker _) fun _ =>
      h.keeps_pure _

theorem handlePiece (uploadData : Bytes) (conCls : Option RequestBuffer) :
    (SuparnaD.handlePiece uploadData conCls).Keeps (OnRequest Rel) := by
  have hbuffer : (requestBuffer conCls).Keeps (OnRequest Rel) := by
    cases conCls with
    | none =>
      exact h.keeps_bind (h.keeps_broker _) fun _ => .ite (h.keeps_pure _) (h.keeps_pure _)
    | some buf => exact h.keeps_pure _
  refine h.keeps_bind hbuffer fun buf => ?_
  cases buf with
  | none => exact h.keeps_pure _
  | some buf =>
    refine h.keeps_bind (fun st a st' hrun => ?_) fun r =>
      .ite (h.keeps_bind (h.keeps_reply _ _ _) fun _ => h.keeps_pure _) (h.keeps_pure _)
    obtain ⟨r, -, heq⟩ := Option.map_eq_some_iff.mp hrun
    obtain ⟨-, rfl⟩ := Prod.mk.inj heq
    -- The outcome is used up as by an allocation.
    exact h.exec (exec_malloc (s := st.machine))

theorem handleRequest {finish : Bytes → ApiM MhdResult}
    (hfinish : ∀ json, (finish json).Keeps (OnRequest Rel)) (uploadData : Bytes)
    (conCls : Option RequestBuffer) :
    (SuparnaD.handleRequest finish uploadData conCls).Keeps (OnRequest Rel) := by
  refine .ite ?_ (h.handlePiece _ _)
  cases conCls with
  | none => exact h.keeps_pure _
  | some buf =>
    refine .ite (h.keeps_bind (h.keeps_of_machine fun st a st' hrun => ?_) fun text =>
      h.keeps_bind (hfinish text) fun _ => h.keeps_pure _) (h.keeps_pure _)
    obtain ⟨text, -, heq⟩ := Option.map_eq_some_iff.mp hrun
    obtain ⟨-, rfl⟩ := Prod.mk.inj heq
    rfl

/-- Every call of the request handler keeps the relation. -/
theorem routeRequest (url method uploadData : Bytes) (conCls : Option RequestBuffer) :
    (SuparnaD.routeRequest url method uploadData conCls).Keeps (OnRequest Rel) := by
  have hanswer (status : ℕ) (body contentType : Bytes) :
      (answer status body contentType uploadData conCls).Keeps (OnRequest Rel) :=
    h.keeps_bind (h.keeps_reply _ _ _) fun _ => h.keeps_pure _
  exact .ite (hanswer _ _ _) <| .ite (hanswer _ _ _) <|
    .ite (h.handleRequest h.publishBody _ _) <| .ite (h.handleRequest h.createBody _ _)
      (hanswer _ _ _)

/-! ### Turns -/

/-- Every turn keeps the relation. -/
theorem step {d d' : Daemon} {op : DaemonOp} {r : DaemonResult}
    (hstep : d.step op = some (r, d')) : Rel d.server.world.storage d'.server.world.storage := by
  cases op with
  | socket op =>
    obtain ⟨⟨r', s'⟩, hrun, heq⟩ := Option.map_eq_some_iff.mp hstep
    obtain ⟨-, rfl⟩ := Prod.mk.inj heq
    exact h.session.serverStep hrun
  | goodbye i =>
    obtain ⟨-, rfl⟩ := Prod.mk.inj (Option.some.inj hstep)
    exact h.refl _
  | http request url method uploadData =>
    obtain ⟨ret, st, hrun, -, rfl⟩ := Daemon.step_http_eq_some_iff.mp hstep
    exact h.routeRequest url method uploadData _ hrun

/-- Every run of the program keeps the relation. -/
theorem run (d : Daemon) (ops : List DaemonOp) :
    Rel d.server.world.storage (runEnd Daemon.step d ops).server.world.storage :=
  runEnd_rule (fun d' => Rel d.server.world.storage d'.server.world.storage)
    (fun _ _ _ _ hrel hstep => h.trans _ _ _ hrel (h.step hstep)) (h.refl _) ops

end StorageRelation

/-- Outcomes are only used up. -/
theorem storageRelation_faults : StorageRelation fun x y => y.2 <:+ x.2 where
  refl x := List.suffix_refl x.2
  trans _ _ _ h h' := h'.trans h
  perform hcall := faults_perform hcall

end SuparnaD
