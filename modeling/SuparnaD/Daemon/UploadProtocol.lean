import SuparnaD.Daemon.Accounting
import SuparnaD.Daemon.Safety

/-!
# Uploads in a run of the whole program

Calls of the request handler as libmicrohttpd makes them: the first call of a request brings no
data, all calls of a request have its URL and its method, and none follows an abort. The calls of
several requests and the turns of sessions may interleave in any way.

Both handlers of uploads abort at the first call. So no request with a body ever reaches the broker,
and no event ever reaches a file. And no call of the request handler is ever undefined, so that the
program is never stuck as long as each `send` to a client returns.

## Main definitions

* `IsUpload` : the requests that `route_request` gives to a handler of uploads.
* `UploadCall`, `RequestStage`, `FollowsUploads` : calls in the order of the protocol.

## Main results

* `routeRequest_of_not_upload`, `routeRequest_first` : what the calls of a request do.
* `Daemon.Waiting.step`, `Daemon.Waiting.run` : no request gets a buffer.
* `Daemon.never_publishes`, `Daemon.never_stuck`.
-/

namespace SuparnaD

/-- The requests that a handler of uploads serves. -/
def IsUpload (url method : Bytes) : Prop :=
  method = methodPost ∧ (url = urlPublish ∨ url = urlCreateTopic)

instance (url method : Bytes) : Decidable (IsUpload url method) :=
  inferInstanceAs (Decidable (_ ∧ _))

/-! ### Calls of the request handler -/

section

variable {url method uploadData : Bytes} {conCls : Option RequestBuffer} {st : ApiState}

/-- An answer leaves the stored state alone and calls nothing. -/
theorem answer_spec (status : ℕ) (body contentType : Bytes) : ∃ ret st',
    answer status body contentType uploadData conCls st = some (ret, st') ∧
      ret.conCls = conCls ∧ st'.actions = st.actions := by
  obtain ⟨result, st', hreply, -, hactions⟩ := ApiM.reply_eq_some status body contentType st
  exact ⟨_, st', ApiM.bind_eq_some_iff.mpr ⟨result, st', hreply, rfl⟩, rfl, hactions⟩

/-- Any other request is only answered. -/
theorem routeRequest_of_not_upload (hother : ¬ IsUpload url method) : ∃ ret st',
    routeRequest url method uploadData conCls st = some (ret, st') ∧
      ret.conCls = conCls ∧ st'.actions = st.actions := by
  rw [routeRequest]
  split_ifs with hroot hping hpublish hcreate
  · exact answer_spec ..
  · exact answer_spec ..
  · exact absurd ⟨hpublish.1, .inl hpublish.2⟩ hother
  · exact absurd ⟨hcreate.1, .inr hcreate.2⟩ hother
  · exact answer_spec ..

/-- The first call of an upload aborts it. -/
theorem routeRequest_first (hupload : IsUpload url method) :
    routeRequest url method [] none st = some (⟨.no, 0, none⟩, st) := by
  obtain ⟨rfl, rfl | rfl⟩ := hupload
  · rw [routeRequest_publish]
    rfl
  · rw [routeRequest_createTopic]
    rfl

end

/-! ### The protocol -/

/-- A call of the request handler and its result. -/
structure UploadCall where
  /-- The request. -/
  request : ℕ
  url : Bytes
  method : Bytes
  uploadData : Bytes
  /-- The result of the handler. -/
  result : MhdResult

/-- The call of the request handler in a turn. -/
def uploadCall (e : RunStep Daemon DaemonOp DaemonResult) : Option UploadCall :=
  match e.op, e.result with
  | .http request url method uploadData, .http result _ _ =>
    some ⟨request, url, method, uploadData, result⟩
  | _, _ => none

/-- How far a request has come. -/
inductive RequestStage where
  /-- There has been no call yet. -/
  | awaited
  /-- All calls so far have been accepted. -/
  | accepted (url method : Bytes)
  /-- A call has aborted the request. -/
  | aborted

/-- The next call of a request may be this one. -/
def RequestStage.Permits : RequestStage → UploadCall → Prop
  | awaited, c => c.uploadData = []
  | accepted url method, c => c.url = url ∧ c.method = method
  | aborted, _ => False

instance : ∀ (stage : RequestStage) (c : UploadCall), Decidable (stage.Permits c)
  | .awaited, c => inferInstanceAs (Decidable (c.uploadData = []))
  | .accepted url method, c => inferInstanceAs (Decidable (c.url = url ∧ c.method = method))
  | .aborted, _ => inferInstanceAs (Decidable False)

/-- How far a request is after a call. -/
def UploadCall.stage (c : UploadCall) : RequestStage :=
  match c.result with
  | .yes => .accepted c.url c.method
  | .no => .aborted

/-- The calls of every request come in the order of the protocol. -/
def FollowsUploads : (ℕ → RequestStage) → List UploadCall → Prop
  | _, [] => True
  | stages, c :: calls =>
    (stages c.request).Permits c ∧ FollowsUploads (Function.update stages c.request c.stage) calls

instance decidableFollowsUploads :
    ∀ (stages : ℕ → RequestStage) (calls : List UploadCall), Decidable (FollowsUploads stages calls)
  | _, [] => isTrue trivial
  | stages, c :: calls =>
    have := decidableFollowsUploads (Function.update stages c.request c.stage) calls
    inferInstanceAs (Decidable (_ ∧ _))

/-! ### Runs -/

namespace Daemon

/-- No request has a buffer, and no upload has been accepted. -/
structure Waiting (d : Daemon) (stages : ℕ → RequestStage) : Prop where
  requests : ∀ k, d.requests k = none
  stages : ∀ k url method, stages k = .accepted url method → ¬ IsUpload url method

variable {d d' : Daemon} {stages : ℕ → RequestStage}

theorem waiting_of_requests (h : ∀ k, d.requests k = none) : d.Waiting fun _ => .awaited :=
  ⟨h, fun _ _ _ hstage => RequestStage.noConfusion hstage⟩

/-- A permitted call comes to an end and does not reach the broker, and an upload it aborts. -/
theorem Waiting.call (h : d.Waiting stages) {request : ℕ} {url method uploadData : Bytes}
    {result : MhdResult}
    (hpermits : (stages request).Permits ⟨request, url, method, uploadData, result⟩) :
    ∃ ret st, routeRequest url method uploadData (d.requests request) d.apiState = some (ret, st) ∧
      ret.conCls = none ∧ st.actions = [] ∧ (IsUpload url method → ret.result = .no) := by
  rw [h.requests]
  by_cases hupload : IsUpload url method
  swap
  · obtain ⟨ret, st, hrun, hconCls, hactions⟩ := routeRequest_of_not_upload hupload
    exact ⟨ret, st, hrun, hconCls, hactions, fun hup => absurd hup hupload⟩
  have hfirst : uploadData = [] := by
    cases hstage : stages request with
    | awaited =>
      rw [hstage] at hpermits
      exact hpermits
    | accepted url' method' =>
      rw [hstage] at hpermits
      obtain ⟨rfl, rfl⟩ : url = url' ∧ method = method' := hpermits
      exact absurd hupload (h.stages request url method hstage)
    | aborted =>
      rw [hstage] at hpermits
      exact absurd hpermits not_false
  rw [hfirst]
  exact ⟨_, _, routeRequest_first hupload, rfl, rfl, fun _ => rfl⟩

/-- After such a call nothing has been stored. -/
theorem Waiting.afterCall (h : d.Waiting stages) (c : UploadCall) (st : ApiState)
    (haborts : IsUpload c.url c.method → c.result = .no) :
    (d.afterCall c.request none st).Waiting (Function.update stages c.request c.stage) := by
  constructor
  · intro k
    by_cases hk : k = c.request
    · rw [hk]
      exact Function.update_self ..
    · exact (Function.update_of_ne hk ..).trans (h.requests k)
  · intro k url method hstage hupload
    by_cases hk : k = c.request
    · rw [hk, Function.update_self, UploadCall.stage] at hstage
      split at hstage
      · rename_i hyes
        obtain ⟨rfl, rfl⟩ := RequestStage.accepted.inj hstage
        cases (haborts hupload).symm.trans hyes
      · cases hstage
    · rw [Function.update_of_ne hk] at hstage
      exact h.stages k url method hstage hupload

/-- A turn keeps all requests waiting. -/
theorem Waiting.step (h : d.Waiting stages) {op : DaemonOp} {r : DaemonResult}
    (hstep : d.step op = some (r, d')) {calls : List UploadCall}
    (hfollows : FollowsUploads stages ((uploadCall ⟨d, op, r, d'⟩).toList ++ calls)) :
    r.actions = [] ∧
      (∀ c ∈ uploadCall ⟨d, op, r, d'⟩, IsUpload c.url c.method → c.result = .no) ∧
      ∃ stages', d'.Waiting stages' ∧ FollowsUploads stages' calls := by
  cases op with
  | socket op =>
    obtain ⟨⟨r', s'⟩, hrun, heq⟩ := Option.map_eq_some_iff.mp hstep
    obtain ⟨rfl, rfl⟩ := Prod.mk.inj heq
    exact ⟨rfl, nofun, stages, ⟨h.requests, h.stages⟩, hfollows⟩
  | goodbye i =>
    obtain ⟨rfl, rfl⟩ := Prod.mk.inj (Option.some.inj hstep)
    exact ⟨rfl, nofun, stages, ⟨h.requests, h.stages⟩, hfollows⟩
  | http request url method uploadData =>
    obtain ⟨ret, st, hrun, rfl, rfl⟩ := step_http_eq_some_iff.mp hstep
    obtain ⟨hpermits, hrest⟩ := hfollows
    obtain ⟨ret', st', hrun', hconCls, hactions, haborts⟩ := h.call hpermits
    obtain ⟨rfl, rfl⟩ := Prod.mk.inj (Option.some.inj (hrun.symm.trans hrun'))
    refine ⟨hactions, fun c hc => ?_, _, ?_, hrest⟩
    · obtain rfl := Option.some.inj hc
      exact haborts
    · rw [hconCls]
      exact h.afterCall ⟨request, url, method, uploadData, ret.result⟩ st haborts

/-- A run keeps all requests waiting, and what may follow it are permitted calls. -/
theorem Waiting.run (h : d.Waiting stages) {ops : List DaemonOp} {more : List UploadCall}
    (hfollows : FollowsUploads stages ((trace Daemon.step d ops).filterMap uploadCall ++ more)) :
    d.calls ops = [] ∧
      (∀ c ∈ (trace Daemon.step d ops).filterMap uploadCall,
        IsUpload c.url c.method → c.result = .no) ∧
      ∃ stages', (runEnd Daemon.step d ops).Waiting stages' ∧ FollowsUploads stages' more := by
  induction ops generalizing d stages with
  | nil => exact ⟨rfl, fun _ hc => absurd hc List.not_mem_nil, stages, h, hfollows⟩
  | cons op ops ih =>
    cases hstep : d.step op with
    | none =>
      rw [trace_cons_of_none hstep] at hfollows
      rw [calls, trace_cons_of_none hstep]
      refine ⟨rfl, fun _ hc => absurd hc List.not_mem_nil, stages, ?_, hfollows⟩
      simpa only [runEnd, hstep] using h
    | some rd =>
      obtain ⟨r, d'⟩ := rd
      rw [filterMap_trace_cons _ hstep, List.append_assoc] at hfollows
      obtain ⟨hactions, haborts, stages', h', hrest⟩ := h.step hstep hfollows
      obtain ⟨hcalls, haborted, hend⟩ := ih h' hrest
      rw [runEnd_cons_of_some hstep, filterMap_trace_cons _ hstep]
      refine ⟨?_, fun c hc => ?_, hend⟩
      · rw [calls, trace_cons_of_some hstep, List.flatMap_cons, hactions, List.nil_append]
        exact hcalls
      · rcases List.mem_append.mp hc with hc | hc
        · exact haborts c (Option.mem_toList.mp hc)
        · exact haborted c hc

/-- Two requests that libmicrohttpd begins, beside a session. -/
def sampleUploads : List DaemonOp :=
  [.socket (.command 0 (ascii "SET_TOPIC t")), .http 0 urlPublish methodPost [],
    .http 1 (ascii "/ping") methodGet [], .socket (.command 0 (ascii "CONSUME"))]

/-- A call of the request handler is permitted after a run. Other turns always are. -/
def Permitted (d : Daemon) (ops : List DaemonOp) : DaemonOp → Prop
  | .http request url method uploadData => FollowsUploads (fun _ => .awaited)
      ((trace Daemon.step d ops).filterMap uploadCall ++
        [⟨request, url, method, uploadData, .no⟩])
  | _ => True

/-- With enough memory, and as long as each `send` returns, the program is never stuck: after every
run in which the calls of the request handler follow the protocol, each turn that is permitted comes
to an end. -/
theorem never_stuck {fs : FileSystem} {faults : List IoOutcome} {clients : ℕ → Client}
    {mhd : List Bool} (halloc : ∀ o ∈ faults, o.alloc = true) {ops : List DaemonOp} {op : DaemonOp}
    (hop : (start fs faults clients mhd).Permitted ops op) :
    ∃ r d', (runEnd Daemon.step (start fs faults clients mhd) ops).step op = some (r, d') := by
  have hsteadfast : (runEnd Daemon.step (start fs faults clients mhd) ops).server.Steadfast :=
    steadfast_run (Server.steadfast_start fs halloc clients) ops
  cases op with
  | socket op => exact exists_turn hsteadfast op
  | goodbye i => exact ⟨_, _, rfl⟩
  | http request url method uploadData =>
    obtain ⟨-, -, stages, hwaiting, hpermits, -⟩ :=
      (waiting_of_requests fun _ => rfl).run hop
    obtain ⟨ret, st, hrun, -⟩ := hwaiting.call hpermits
    exact ⟨_, _, step_http_eq_some_iff.mpr ⟨ret, st, hrun, rfl, rfl⟩⟩

theorem never_stuck_sample : ∃ r d', (runEnd Daemon.step sampleRefused sampleUploads).step
    (.http 2 urlPublish methodPost []) = some (r, d') := by
  have hfollows : FollowsUploads (fun _ => .awaited)
      ((trace Daemon.step sampleRefused sampleUploads).filterMap uploadCall ++
        [⟨2, urlPublish, methodPost, [], .no⟩]) := by decide +kernel
  exact never_stuck (fun _ ho => List.mem_singleton.mp ho ▸ rfl) hfollows

end Daemon

end SuparnaD
