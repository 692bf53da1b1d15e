import SuparnaD.Api.CreateTopic
import SuparnaD.Api.PublishEvent

/-!
# The request router under the upload protocol

`route_request` of `api/handler.c`, and the calls that libmicrohttpd makes for one request with a
body: a first call without data and without state, one call for each piece with the state that the
handler has stored, and a last call without data. A result of `MHD_NO` aborts the connection.

The handlers tell the first call from the last one only by the stored state, and they store none in
the first call. They take it for the end of an empty request and refuse.

## Main definitions

* `routeRequest`.
* `callsAccepted`, `Served` : the calls of one request and what they should achieve.
* `PublishesBody`, `CreatesBody` : the call to the broker that a body asks for.

## Main results

* `callsAccepted_upload` : no request gets past its first call.
* `not_served`.
-/

namespace SuparnaD

open ApiM

/-! ### The router -/

def helloBody : Bytes := ascii "\x7b\"message\":\"Hello from C http server\"\x7d"

def pong : Bytes := ascii "pong\n"

def notFound : Bytes := ascii "Not Found\n"

def methodGet : Bytes := ascii "GET"

def methodPost : Bytes := ascii "POST"

def urlPublish : Bytes := ascii "/publish"

def urlCreateTopic : Bytes := ascii "/create_topic"

/-- A reply that leaves `*upload_data_size` and `*con_cls` alone. -/
def answer (status : ℕ) (body contentType uploadData : Bytes) (conCls : Option RequestBuffer) :
    ApiM HandlerReturn := do
  return ⟨← reply status body contentType, uploadData.length, conCls⟩

def routeRequest (url method uploadData : Bytes) (conCls : Option RequestBuffer) :
    ApiM HandlerReturn :=
  if method = methodGet ∧ url = ascii "/" then
    answer 200 helloBody applicationJson uploadData conCls
  else if method = methodGet ∧ url = ascii "/ping" then
    answer 200 pong textPlain uploadData conCls
  else if method = methodPost ∧ url = urlPublish then
    handlePublishRequest uploadData conCls
  else if method = methodPost ∧ url = urlCreateTopic then
    handleCreateTopicRequest uploadData conCls
  else
    answer 404 notFound textPlain uploadData conCls

theorem methodPost_ne_methodGet : methodPost ≠ methodGet := by decide

theorem urlCreateTopic_ne_urlPublish : urlCreateTopic ≠ urlPublish := by decide

theorem routeRequest_publish : routeRequest urlPublish methodPost = handlePublishRequest := by
  funext uploadData conCls
  simp only [routeRequest, methodPost_ne_methodGet, false_and, and_self, ↓reduceIte]

theorem routeRequest_createTopic :
    routeRequest urlCreateTopic methodPost = handleCreateTopicRequest := by
  funext uploadData conCls
  simp only [routeRequest, methodPost_ne_methodGet, urlCreateTopic_ne_urlPublish, false_and,
    and_false, and_self, ↓reduceIte]

/-! ### One request -/

/-- A handler with its method and URL fixed. -/
abbrev RequestHandler : Type := Bytes → Option RequestBuffer → ApiM HandlerReturn

/-- Calls with the given data one after the other, as long as they are accepted. The result is the
state that the last one has stored, or `none` when a call has aborted the connection. -/
def callsAccepted (handler : RequestHandler) :
    List Bytes → Option RequestBuffer → ApiM (Option (Option RequestBuffer))
  | [], conCls => return some conCls
  | data :: rest, conCls => do
    let r ← handler data conCls
    if r.result = .yes then
      callsAccepted handler rest r.conCls
    else
      return none

/-- The request whose calls bring these data before the last call is served: all of them are
accepted, and the last call makes exactly one call to the broker, as the body asks for, and queues
one reply. -/
def Served (handler : RequestHandler) (asks : Bytes → ApiAction → Prop) (calls : List Bytes)
    (st : ApiState) : Prop :=
  ∃ conCls st₁ r st₂ action queued,
    callsAccepted handler calls none st = some (some conCls, st₁) ∧
      st₁.actions = st.actions ∧ st₁.replies = st.replies ∧
      handler [] conCls st₁ = some (r, st₂) ∧ asks calls.flatten action ∧
      st₂.actions = st.actions ++ [action] ∧ st₂.replies = st.replies ++ [queued]

/-- The publish that a body asks for. -/
def PublishesBody (body : Bytes) (action : ApiAction) : Prop :=
  ∃ topicName data, findJsonString body (ascii "topic") = some topicName ∧
    findJsonString body (ascii "data") = some data ∧ action = .publish topicName data

/-- The creation of a topic that a body asks for. -/
def CreatesBody (body : Bytes) (action : ApiAction) : Prop :=
  ∃ topicName, findJsonString body (ascii "topic") = some topicName ∧
    action = .create topicName
      ((findJsonString body (ascii "base_path")).getD defaultTopicBasePath)

/-- No request gets past its first call, which changes nothing. -/
theorem callsAccepted_upload (finish : Bytes → ApiM MhdResult) (pieces : List Bytes)
    (st : ApiState) :
    callsAccepted (handleRequest finish) ([] :: pieces) none st = some (none, st) := rfl

theorem not_served_of_handleRequest (finish : Bytes → ApiM MhdResult)
    (asks : Bytes → ApiAction → Prop) (pieces : List Bytes) (st : ApiState) :
    ¬ Served (handleRequest finish) asks ([] :: pieces) st := by
  rintro ⟨conCls, st₁, r, st₂, action, queued, hcalls, -⟩
  cases (callsAccepted_upload finish pieces st).symm.trans hcalls

/-- No request is served, whatever its body and its pieces are. -/
theorem not_served (pieces : List Bytes) (st : ApiState) :
    ¬ Served (routeRequest urlPublish methodPost) PublishesBody ([] :: pieces) st ∧
      ¬ Served (routeRequest urlCreateTopic methodPost) CreatesBody ([] :: pieces) st := by
  rw [routeRequest_publish, routeRequest_createTopic]
  exact ⟨not_served_of_handleRequest publishBody _ pieces st,
    not_served_of_handleRequest createBody _ pieces st⟩

/-- A server without files; every call succeeds. -/
def sampleServer : ApiState :=
  ⟨⟨⟨fun _ => none, fun _ => false⟩, [], none, ⟨[], [], []⟩⟩, [], [], []⟩

/-- A body with the fields `topic` and `data`. -/
def sampleBody : Bytes := ascii "\x7b\"topic\":\"t\",\"data\":\"d\"\x7d"

/-- The body is well formed, in one piece, and neither handler serves it. -/
theorem not_served_sample :
    (∃ action, PublishesBody sampleBody action) ∧ (∃ action, CreatesBody sampleBody action) ∧
      0 < sampleBody.length ∧ sampleBody.length ≤ 10485760 ∧
      ¬ Served (routeRequest urlPublish methodPost) PublishesBody [[], sampleBody] sampleServer ∧
      ¬ Served (routeRequest urlCreateTopic methodPost) CreatesBody [[], sampleBody]
        sampleServer := by
  have hfields : findJsonString sampleBody (ascii "topic") = some (ascii "t") ∧
      findJsonString sampleBody (ascii "data") = some (ascii "d") := by decide +kernel
  rw [routeRequest_publish, routeRequest_createTopic]
  exact ⟨⟨_, _, _, hfields.1, hfields.2, rfl⟩, ⟨_, _, hfields.1, rfl⟩, by decide, by decide,
    not_served_of_handleRequest publishBody _ _ _, not_served_of_handleRequest createBody _ _ _⟩

end SuparnaD
