import SuparnaD.System.Environment

/-!
# Replies to HTTP requests

The part of `api/response_builder.c` that the request handlers use, and the state that a handler
works on. The HTTP library is libmicrohttpd; its calls return results from a script, and past the
end of the script all succeed. A handler also notes which calls of the broker it has made.

## Main definitions

* `Response`, `Reply`, `MhdResult`.
* `ApiState`, `ApiM` : the state of a handler and its computations.
* `buildResponseFromBuffer`, `ApiM.reply`.

## Main results

* `ApiM.reply_eq_some` : a reply always comes to an end.
-/

namespace SuparnaD

/-- `enum MHD_Result`. -/
inductive MhdResult where
  | no
  | yes
  deriving DecidableEq, Repr

/-- A response object: a copy of the body, and the content type unless the header could not be
added. -/
structure Response where
  /-- The body. -/
  body : Bytes
  /-- The value of `Content-Type`. -/
  contentType : Option Bytes
  deriving DecidableEq, Repr

/-- A response that is queued on a connection. -/
structure Reply where
  /-- The HTTP status. -/
  status : ℕ
  /-- The response. -/
  response : Response
  deriving DecidableEq, Repr

/-- The calls to the broker that the handlers are about. -/
inductive ApiAction where
  /-- `publish_event_string` on the topic of a name. -/
  | publish (topicName data : Bytes)
  /-- `create_topic`. -/
  | create (topicName basePath : Bytes)
  deriving DecidableEq, Repr

/-- What a handler works on. -/
structure ApiState where
  /-- The files, the outcomes in store and the chunk of the topic at hand. -/
  machine : Machine
  /-- The results of the coming calls to the HTTP library; past the end all succeed. -/
  mhd : List Bool
  /-- The replies that have been queued. -/
  replies : List Reply
  /-- The calls to the broker so far. -/
  actions : List ApiAction

/-- A computation of a handler. -/
abbrev ApiM (α : Type) : Type := StateT ApiState Option α

namespace ApiM

variable {α : Type}

/-- Run a program of the broker. -/
def broker (p : Broker α) : ApiM α := fun st =>
  (p.exec st.machine).map fun r => (r.1, { st with machine := r.2 })

/-- `malloc`. -/
def malloc : ApiM Bool := broker Broker.malloc

/-- A call to the HTTP library. -/
def mhdCall : ApiM Bool := fun st => some (st.mhd.headD true, { st with mhd := st.mhd.tail })

/-- Take note of a call to the broker. -/
def record (action : ApiAction) : ApiM Unit :=
  modify fun st => { st with actions := st.actions ++ [action] }

theorem bind_of_eq_some {β : Type} {p : ApiM α} {st st' : ApiState} {a : α}
    (h : p st = some (a, st')) (f : α → ApiM β) : (p >>= f) st = f a st' := by
  show (p st).bind (fun r => f r.1 r.2) = f a st'
  rw [h, Option.bind_some]

theorem broker_bind {β : Type} (p : Broker α) (f : α → ApiM β) (st : ApiState) :
    (broker p >>= f) st = (p.exec st.machine).bind fun r => f r.1 { st with machine := r.2 } := by
  show ((p.exec st.machine).map fun r => (r.1, { st with machine := r.2 })).bind
    (fun r => f r.1 r.2) = _
  rw [Option.bind_map]
  rfl

/-- `MHD_queue_response`. -/
def queueResponse (status : ℕ) (response : Response) : ApiM MhdResult := do
  if ← mhdCall then
    modify fun st => { st with replies := st.replies ++ [⟨status, response⟩] }
    return .yes
  else
    return .no

end ApiM

open ApiM

/-- The status code is not used. The result of adding the header is ignored. -/
def buildResponseFromBuffer (body contentType : Bytes) : ApiM (Option Response) := do
  if !(← mhdCall) then
    return none
  if ← mhdCall then
    return some ⟨body, some contentType⟩
  else
    return some ⟨body, none⟩

/-- Build a response and queue it. -/
def ApiM.reply (status : ℕ) (body contentType : Bytes) : ApiM MhdResult := do
  match ← buildResponseFromBuffer body contentType with
  | none => return .no
  | some response => queueResponse status response

/-- A reply leaves the topic alone, whether it can be queued or not. -/
theorem ApiM.reply_eq_some (status : ℕ) (body contentType : Bytes) (st : ApiState) :
    ∃ result st', reply status body contentType st = some (result, st') ∧
      st'.machine = st.machine ∧ st'.actions = st.actions := by
  have hcall (st : ApiState) :
      mhdCall st = some (st.mhd.headD true, { st with mhd := st.mhd.tail }) := rfl
  have hqueue (response : Response) (st : ApiState) : ∃ result st',
      queueResponse status response st = some (result, st') ∧ st'.machine = st.machine ∧
        st'.actions = st.actions := by
    rw [queueResponse, bind_of_eq_some (hcall st)]
    split <;> exact ⟨_, _, rfl, rfl, rfl⟩
  have hbuild : ∃ response st', buildResponseFromBuffer body contentType st = some (response, st') ∧
      st'.machine = st.machine ∧ st'.actions = st.actions := by
    rw [buildResponseFromBuffer, bind_of_eq_some (hcall st)]
    split
    · exact ⟨_, _, rfl, rfl, rfl⟩
    · rw [bind_of_eq_some (hcall _)]
      split <;> exact ⟨_, _, rfl, rfl, rfl⟩
  obtain ⟨response, st₁, hbuild, hmachine, hactions⟩ := hbuild
  rw [reply, bind_of_eq_some hbuild]
  cases response with
  | none => exact ⟨_, _, rfl, hmachine, hactions⟩
  | some response =>
    obtain ⟨result, st₂, hrun, hmachine', hactions'⟩ := hqueue response st₁
    exact ⟨result, st₂, hrun, hmachine'.trans hmachine, hactions'.trans hactions⟩

/-- `application/json`. -/
def applicationJson : Bytes := ascii "application/json"

/-- `text/plain`. -/
def textPlain : Bytes := ascii "text/plain"

end SuparnaD
