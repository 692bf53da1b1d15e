import SuparnaD.Api.EventText
import SuparnaD.Api.NameIsolation
import SuparnaD.Api.TopicRace
import SuparnaD.Daemon.AppendOnly
import SuparnaD.Messaging.TopicLifecycle

/-!
# What the files hold

While storage and allocation succeed, every file is accounted for: it holds what it held at the
start of the run, or the initial data when it was not there, and after that the events of the
publish requests for its topic, each whole and in the order of their turns. Sessions write nothing
but the initial data of a new topic.

This is about whole commands and calls, one at a time (see `SuparnaD.Daemon.Steps`), and about
published names of at most 496 bytes, whose paths are not cut.

## Main definitions

* `FileAccount`, `FileSystem.Accounts`.
* `publishedTo` : the payloads that a call to the broker adds to a file.
* `DaemonResult.actions` : the calls to the broker of a turn.

## Main results

* `FileSystem.sessionRelation_accounts`, `ApiState.accounts_routeRequest` : what a turn of a
  session and a call of the request handler add.
* `Daemon.file_accounted`.
-/

namespace SuparnaD

open Broker CallProgram

/-- The file has got the events at its end. One that was not there starts with the initial data. -/
def FileAccount (file : Option Bytes) (events : List Bytes) (file' : Option Bytes) : Prop :=
  file' = file ∧ events = [] ∨ file' = some (file.getD initialData ++ topicFormat.stream events)

theorem FileAccount.refl (file : Option Bytes) : FileAccount file [] file := .inl ⟨rfl, rfl⟩

theorem FileAccount.trans {file file' file'' : Option Bytes} {ds ds' : List Bytes}
    (h : FileAccount file ds file') (h' : FileAccount file' ds' file'') :
    FileAccount file (ds ++ ds') file'' := by
  rcases h with ⟨rfl, rfl⟩ | rfl
  · exact h'
  rcases h' with ⟨rfl, rfl⟩ | rfl
  · rw [List.append_nil]
    exact .inr rfl
  · refine .inr ?_
    rw [Option.getD_some, FrameFormat.stream_append, List.append_assoc]

/-- Every file has got the events that are for it. -/
def FileSystem.Accounts (events : Bytes → List Bytes) (fs fs' : FileSystem) : Prop :=
  ∀ path, FileAccount (fs.read path) (events path) (fs'.read path)

/-- The path of the topic is not cut, and its file is not so long that a save could fail. -/
def FileSystem.Fits (fs : FileSystem) (topicName : Bytes) : Prop :=
  topicName.length ≤ 496 ∧ ((fs.read (testedPath topicName)).getD []).length < 2 ^ 61

/-- The payloads that a call to the broker adds to the file at a path. -/
def publishedTo (path : Bytes) : ApiAction → List Bytes
  | .publish topicName data =>
    if resolve (testedPath topicName) = resolve path ∧ topicFormat.Valid (cString data) then
      [cString data]
    else []
  | .create _ _ => []

namespace FileSystem

variable {fs fs' fs'' : FileSystem} {events events' : Bytes → List Bytes}

theorem accounts_of_read (h : ∀ path, fs'.read path = fs.read path) :
    fs.Accounts (fun _ => []) fs' := fun path => .inl ⟨h path, rfl⟩

theorem Accounts.trans (h : fs.Accounts events fs') (h' : fs'.Accounts events' fs'') :
    fs.Accounts (fun path => events path ++ events' path) fs'' :=
  fun path => (h path).trans (h' path)

end FileSystem

namespace Machine

variable {s s' : Machine} {topicName basePath path data : Bytes}

theorem next_of_faults (h : s.faults = []) : s.next = s := by
  rw [next, h, List.tail_nil, ← h]

theorem faults_exec_nil {α : Type} {p : Broker α} {a : α} (h : s.faults = [])
    (hrun : p.exec s = some (a, s')) : s'.faults = [] :=
  List.suffix_nil.mp (h ▸ faults_exec hrun)

/-- A program that saves nothing leaves all files as they are. -/
theorem accounts_unsaving {α : Type} {p : Broker α} {a : α} (hp : p.Unsaving)
    (hrun : p.exec s = some (a, s')) : s.fs.Accounts (fun _ => []) s'.fs :=
  FileSystem.accounts_of_read fun path => hp.read_exec hrun path

/-- Without faults `create_topic` writes the initial data of a missing file, or nothing. -/
theorem accounts_createTopic (hfaults : s.faults = []) {r : Option Topic}
    (hrun : (createTopic topicName basePath).exec s = some (r, s')) :
    s.fs.Accounts (fun _ => []) s'.fs := by
  rcases exec_createTopic_cases hrun with ⟨-, hsame⟩ | ⟨t, hreach, hsetup⟩
  · exact FileSystem.accounts_of_read hsame.read
  have hsame := hreach.sameFiles
  have habsent : t.fs.read (topicPath topicName basePath) = none := by
    obtain ⟨-, s₁, -, hfound, -⟩ := hreach
    rw [hsame.read, ← Option.not_isSome_iff_eq_none, ← exec_topicExists hfaults hfound]
    exact Bool.false_ne_true
  have ht : t.faults = [] := hsame.faults hfaults
  have hwhole : t.SetsUpWhole := by
    simp only [SetsUpWhole, next_of_faults ht, outcome_of_faults ht, IoOutcome.ok_alloc]
    exact .inr (.inr (.inr ⟨rfl, trivial, trivial⟩))
  obtain ⟨hgrew, hset⟩ := exec_setUpTopic hsetup
  intro p
  by_cases hp : resolve p = resolve (topicPath topicName basePath)
  · rw [FileSystem.read_congr _ hp, FileSystem.read_congr _ hp, ← hsame.read, habsent]
    cases r with
    | none =>
      rw [(setUpTopic_iff habsent hsetup).mpr hwhole rfl]
      exact .refl _
    | some topic =>
      rw [(hset topic rfl).2, Machine.file, habsent]
      exact .inr rfl
  · rw [hgrew.others p hp, hsame.read]
    exact .refl _

/-- Without faults a topic that exists is opened, and shows its file. -/
theorem exec_openStoredTopic (hfaults : s.faults = []) {n : ℕ}
    (hroom : (s.file ((testedPath topicName).take 511)).length + n < 2 ^ 62) :
    ∃ topic s', (openStoredTopic topicName).exec s = some (some topic, s') ∧
      s'.Holds ((testedPath topicName).take 511)
        ⟨s.fs.read ((testedPath topicName).take 511), []⟩ n := by
  have hmalloc : malloc.exec s = some (true, s) := by
    rw [exec_malloc_ok hfaults, next_of_faults hfaults]
  have hinit : (chunkInit ((testedPath topicName).take 511)).exec s =
      some (true, { s with chunk := some ⟨(testedPath topicName).take 511, [], 0, 0, 0⟩ }) := by
    refine congrArg some (Prod.ext ?_ ?_)
    · rw [outcome_of_faults hfaults]
      rfl
    · rw [outcome_of_faults hfaults, next_of_faults hfaults]
      rfl
  have hsteady : Machine.Steady
      { s with chunk := some ⟨(testedPath topicName).take 511, [], 0, 0, 0⟩ }
      ((testedPath topicName).take 511) :=
    ⟨SessionState.onTopic_of_chunkInit hinit, rfl, hfaults,
      Nat.lt_of_le_of_lt (Nat.le_add_right _ n) (Nat.lt_trans hroom (by decide))⟩
  obtain ⟨s', hkept, -, ⟨hnone, -⟩ | ⟨v, hv, hshow, hload⟩⟩ := hsteady.onTopic.exec_chunkLoad
  · cases hsteady.view_eq.symm.trans hnone
  obtain rfl := Option.some.inj (hsteady.view_eq.symm.trans hv)
  refine ⟨⟨some topicName, some ((testedPath topicName).take 511)⟩, s', ?_, ?_⟩
  · exact run_bind_eq_some_iff.mpr ⟨true, s, hmalloc, run_bind_eq_some_iff.mpr ⟨true, s, hmalloc,
      run_bind_eq_some_iff.mpr ⟨true, s, hmalloc, run_bind_eq_some_iff.mpr ⟨true, _, hinit,
        run_bind_eq_some_iff.mpr ⟨0, s', hload, rfl⟩⟩⟩⟩⟩
  · refine ⟨hkept.faults hfaults, ?_, ⟨_, hshow, DeltaLog.pending_load _, hroom⟩, hroom⟩
    rw [hkept.fs]

theorem unsaving_openStoredTopic (topicName : Bytes) : (openStoredTopic topicName).Unsaving := by
  refine unsaving_malloc.bind fun _ _ => .ite (fun _ => trivial) fun _ => ?_
  refine unsaving_malloc.bind fun _ _ => .ite (fun _ => trivial) fun _ => ?_
  refine unsaving_malloc.bind fun _ _ => .ite (fun _ => trivial) fun _ => ?_
  refine (unsaving_issue (c := .chunkInit _) trivial).bind fun _ _ =>
    .ite (fun _ => trivial) fun _ => ?_
  refine looks_chunkLoad.unsaving.bind fun _ _ => .ite (fun _ => ?_) fun _ => trivial
  exact (unsaving_issue (c := .chunkFree) trivial).bind fun _ _ => trivial

/-- Without faults a publish request gets its topic without adding an event. -/
theorem accounts_getOrCreateTopic (hfaults : s.faults = []) {r : Option Topic}
    (hrun : (getOrCreateTopic topicName).exec s = some (r, s')) :
    s.fs.Accounts (fun _ => []) s'.fs := by
  obtain ⟨found, s₁, hfound, hrun⟩ := run_bind_eq_some_iff.mp hrun
  have hkept := accounts_unsaving (onDirectories_topicExists _ _).unsaving hfound
  cases found with
  | true => exact hkept.trans (accounts_unsaving (unsaving_openStoredTopic _) hrun)
  | false => exact hkept.trans (accounts_createTopic (faults_exec_nil hfaults hfound) hrun)

/-- Without faults the topic that it gets shows its file, which is there. -/
theorem holds_getOrCreateTopic (hfaults : s.faults = []) {n : ℕ} (hname : topicName.length ≤ 496)
    (hroom : (s.file (testedPath topicName)).length + 2 + n < 2 ^ 62) {topic : Topic}
    (hrun : (getOrCreateTopic topicName).exec s = some (some topic, s')) :
    ∃ content, s'.Holds (testedPath topicName) ⟨some content, []⟩ n := by
  obtain ⟨found, s₁, hfound, hrun⟩ := run_bind_eq_some_iff.mp hrun
  have hfaults₁ := faults_exec_nil hfaults hfound
  have hsame (path : Bytes) : s₁.fs.read path = s.fs.read path :=
    (onDirectories_topicExists _ _).unsaving.read_exec hfound path
  have hexists := exec_topicExists hfaults hfound
  cases found with
  | true =>
    have hwhole := take_testedPath_eq_iff.mpr hname
    have hroom₁ : (s₁.file ((testedPath topicName).take 511)).length + n < 2 ^ 62 := by
      rw [hwhole, file, hsame, ← file]
      omega
    obtain ⟨topic, s₂, hopen, hholds⟩ := exec_openStoredTopic hfaults₁ hroom₁
    obtain ⟨-, rfl⟩ := Prod.mk.inj (Option.some.inj (hopen.symm.trans hrun))
    rw [hwhole, hsame] at hholds
    obtain ⟨content, hcontent⟩ := Option.isSome_iff_exists.mp hexists.symm
    exact ⟨content, hcontent ▸ hholds⟩
  | false =>
    obtain ⟨hshow, hfile, -⟩ := (SuparnaD.exec_createTopic hrun).2 topic rfl
    have hnone : s.fs.read (testedPath topicName) = none :=
      Option.not_isSome_iff_eq_none.mp (hexists ▸ Bool.false_ne_true)
    have hempty : s₁.file (topicPath topicName defaultTopicBasePath) = [] := by
      rw [file, hsame]
      exact congrArg (Option.getD · []) hnone
    rw [hempty, List.nil_append] at hfile
    have hsmall : initialData.length + n < 2 ^ 62 :=
      Nat.lt_of_le_of_lt (Nat.add_le_add_right (Nat.le_add_left 2 _) n) hroom
    exact ⟨initialData, faults_exec_nil hfaults₁ hrun, hfile,
      ⟨_, hshow, DeltaLog.pending_load _, hsmall⟩, hsmall⟩

/-- Publishing changes the file of the topic only. -/
theorem publishes_publishEventString (data : Option Bytes) :
    (publishEventString data).Within BrokerCall.Publishes fun _ => True := by
  cases data with
  | none => trivial
  | some d =>
    refine .ite (fun _ => trivial) fun _ => .ite (fun _ => trivial) fun _ =>
      .ite (fun _ => trivial) fun _ => ⟨trivial, fun _ => .ite (fun _ => trivial) fun _ => ?_⟩
    refine Within.bind (Q := fun _ => True) ?_ fun _ _ => .ite (fun _ => trivial) fun _ =>
      ⟨trivial, fun _ => .ite (fun _ => trivial) fun _ => trivial⟩
    refine ⟨trivial, fun _ => .ite (fun _ => trivial) fun _ => ?_⟩
    exact ⟨trivial, fun _ => .ite (fun _ => trivial) fun _ => trivial⟩

/-- Without faults a valid event is added to the file of the topic, and no other. -/
theorem accounts_publishEventString {content : Bytes}
    (h : s.Holds (testedPath topicName) ⟨some content, []⟩ (4 + maxEventSize)) {r : ℤ}
    (hrun : (publishEventString (some data)).exec s = some (r, s')) :
    s.fs.Accounts (fun path => publishedTo path (.publish topicName data)) s'.fs := by
  obtain ⟨l, hlog, -⟩ := h.logs
  have hchunk : s.ChunkAt (testedPath topicName) := fun c hc => (hlog.onTopic c hc).1
  have helse := elsewhere_of_within (publishes_publishEventString (some data)) hchunk hrun
  intro path
  show FileAccount _ (if resolve (testedPath topicName) = resolve path ∧
    topicFormat.Valid (cString data) then [cString data] else []) _
  by_cases hpath : resolve (testedPath topicName) = resolve path
  swap
  · rw [if_neg fun hand => hpath hand.1, helse.others path fun hp => hpath hp.symm]
    exact .refl _
  rw [FileSystem.read_congr _ hpath.symm, FileSystem.read_congr _ hpath.symm]
  by_cases hvalid : topicFormat.Valid (cString data)
  · obtain ⟨hpos, hlong⟩ := not_or.mp (valid_iff.mp hvalid)
    have hrun' : (publishEvent (some (cString data))).exec s = some (r, s') := by
      rwa [publishEventString, if_neg hpos] at hrun
    have hroom : (topicFormat.stream (some (cString data)).toList).length + 0 ≤
        4 + maxEventSize := by
      rw [Option.toList_some, FrameFormat.stream_cons, FrameFormat.stream_nil, List.append_nil,
        FrameFormat.length_frame, topicFormat_headerLen]
      omega
    obtain ⟨s₂, hpublish, hholds⟩ := (h.mono hroom).exec_publishEvent
    obtain ⟨-, rfl⟩ := Prod.mk.inj (Option.some.inj (hpublish.symm.trans hrun'))
    rw [Backlog.publishEvent_of_valid hvalid] at hholds
    rw [if_pos ⟨hpath, hvalid⟩, h.file, hholds.file]
    refine .inr ?_
    simp only [Option.getD_some, Backlog.content, FrameFormat.stream_cons, FrameFormat.stream_nil,
      List.append_nil]
  · rw [if_neg fun hand => hvalid hand.2]
    have hsame : s' = s := by
      rw [publishEventString] at hrun
      split_ifs at hrun with hzero
      · exact (run_pure_eq_some_iff.mp hrun).2.symm
      · have hlong := (not_not.mp fun hgood => hvalid (valid_iff.mpr hgood)).resolve_left hzero
        rw [publishEvent, if_neg hzero, if_pos hlong] at hrun
        exact (run_pure_eq_some_iff.mp hrun).2.symm
    rw [hsame]
    exact .refl _

end Machine

/-! ### Requests -/

theorem ApiM.of_reply {status : ℕ} {body contentType : Bytes} {st st' : ApiState} {r : MhdResult}
    (hrun : ApiM.reply status body contentType st = some (r, st')) :
    st'.machine = st.machine ∧ st'.actions = st.actions := by
  obtain ⟨r', t, hreply, hmachine, hactions⟩ := ApiM.reply_eq_some status body contentType st
  obtain ⟨-, rfl⟩ := Prod.mk.inj (Option.some.inj (hreply.symm.trans hrun))
  exact ⟨hmachine, hactions⟩

theorem ApiM.of_broker {α : Type} {p : Broker α} {st st' : ApiState} {a : α}
    (hrun : ApiM.broker p st = some (a, st')) :
    p.exec st.machine = some (a, st'.machine) ∧ st'.actions = st.actions := by
  obtain ⟨⟨a', m⟩, hexec, heq⟩ := Option.map_eq_some_iff.mp hrun
  obtain ⟨rfl, rfl⟩ := Prod.mk.inj heq
  exact ⟨hexec, rfl⟩

namespace ApiState

/-- Storage and allocation keep succeeding, and the files get the events of the calls to the broker
that are new, as long as the topics fit. -/
def Accounts (st st' : ApiState) : Prop :=
  st.machine.faults = [] → st'.machine.faults = [] ∧ ∃ actions,
    st'.actions = st.actions ++ actions ∧
    ((∀ topicName data, ApiAction.publish topicName data ∈ actions →
        st.machine.fs.Fits topicName) →
      st.machine.fs.Accounts (fun path => actions.flatMap (publishedTo path)) st'.machine.fs)

variable {st st' st'' : ApiState}

/-- No call to the broker is recorded, and no file changes. -/
theorem accounts_of_same (hactions : st'.actions = st.actions)
    (hfaults : st.machine.faults = [] → st'.machine.faults = [])
    (hfs : st.machine.fs.Accounts (fun _ => []) st'.machine.fs) : st.Accounts st' :=
  fun h => ⟨hfaults h, [], by rw [hactions, List.append_nil], fun _ => hfs⟩

theorem accounts_of_machine (hactions : st'.actions = st.actions)
    (hmachine : st'.machine = st.machine) : st.Accounts st' :=
  accounts_of_same hactions (fun h => hmachine ▸ h)
    (FileSystem.accounts_of_read fun path => by rw [hmachine])

theorem accounts_reply (status : ℕ) (body contentType : Bytes) :
    (ApiM.reply status body contentType).Keeps Accounts := fun _ _ _ hrun =>
  accounts_of_machine (ApiM.of_reply hrun).2 (ApiM.of_reply hrun).1

/-- A reply at the end, after which the topic is freed. -/
theorem accounts_answer {status : ℕ} {body contentType : Bytes} {r : MhdResult}
    (hrun : (do
      let result ← ApiM.reply status body contentType
      ApiM.broker chunkFree
      return result) st = some (r, st')) :
    st'.actions = st.actions ∧ st'.machine.fs = st.machine.fs ∧
      st'.machine.faults = st.machine.faults := by
  obtain ⟨result, t, hreply, hrun⟩ := ApiM.bind_eq_some_iff.mp hrun
  obtain ⟨hmachine, hactions⟩ := ApiM.of_reply hreply
  obtain ⟨_, u, hfree, hrun⟩ := ApiM.bind_eq_some_iff.mp hrun
  obtain ⟨hexec, hactions'⟩ := ApiM.of_broker hfree
  obtain ⟨-, hu⟩ := Prod.mk.inj (Option.some.inj hexec)
  obtain ⟨-, rfl⟩ := Prod.mk.inj (Option.some.inj hrun)
  refine ⟨hactions'.trans hactions, ?_, ?_⟩ <;> rw [← hu, hmachine]

theorem accounts_publishBody (json : Bytes) : (publishBody json).Keeps Accounts := by
  intro st r st' hrun hfine
  rw [publishBody, ApiM.bind_of_eq_some (extractJsonString_of_faults hfine json _),
    ApiM.bind_of_eq_some (extractJsonString_of_faults hfine json _)] at hrun
  cases htopic : findJsonString json (ascii "topic") with
  | none =>
    rw [htopic] at hrun
    exact accounts_reply _ _ _ hrun hfine
  | some topicName =>
  cases hdata : findJsonString json (ascii "data") with
  | none =>
    rw [htopic, hdata] at hrun
    exact accounts_reply _ _ _ hrun hfine
  | some data =>
  rw [htopic, hdata] at hrun
  obtain ⟨topic, t, hopen, hrun⟩ := ApiM.bind_eq_some_iff.mp hrun
  obtain ⟨hexec, hactions⟩ := ApiM.of_broker hopen
  have hfaults := Machine.faults_exec_nil hfine hexec
  have hkept := Machine.accounts_getOrCreateTopic hfine hexec
  cases topic with
  | none =>
    obtain ⟨hmachine, hactions'⟩ := ApiM.of_reply hrun
    exact accounts_of_same (hactions'.trans hactions) (fun _ => hmachine ▸ hfaults)
      (hmachine ▸ hkept) hfine
  | some topic =>
  obtain ⟨_, u, hrecord, hrun⟩ := ApiM.bind_eq_some_iff.mp hrun
  obtain ⟨-, rfl⟩ := Prod.mk.inj (Option.some.inj hrecord)
  obtain ⟨published, v, hpublish, hrun⟩ := ApiM.bind_eq_some_iff.mp hrun
  obtain ⟨hpublished, hactions'⟩ := ApiM.of_broker hpublish
  have hend : st'.actions = v.actions ∧ st'.machine.fs = v.machine.fs ∧
      st'.machine.faults = v.machine.faults := by
    split at hrun <;> exact accounts_answer hrun
  refine ⟨hend.2.2.trans (Machine.faults_exec_nil hfaults hpublished),
    [.publish topicName data], ?_, fun hnames => ?_⟩
  · rw [hend.1, hactions', ← hactions]
  · obtain ⟨hname, hsmall⟩ := hnames topicName data (List.mem_singleton_self _)
    have hroom : (st.machine.file (testedPath topicName)).length + 2 + (4 + maxEventSize) <
        2 ^ 62 := by
      have hlen : (st.machine.file (testedPath topicName)).length < 2 ^ 61 := hsmall
      have hmax : maxEventSize = 10485760 := rfl
      omega
    obtain ⟨content, hholds⟩ :=
      Machine.holds_getOrCreateTopic hfine hname hroom hexec
    have hadded := hkept.trans (Machine.accounts_publishEventString hholds hpublished)
    simp only [hend.2.1, List.flatMap_cons, List.flatMap_nil, List.append_nil]
    exact hadded

theorem accounts_createBody (json : Bytes) : (createBody json).Keeps Accounts := by
  intro st r st' hrun hfine
  rw [createBody, ApiM.bind_of_eq_some (extractJsonString_of_faults hfine json _),
    ApiM.bind_of_eq_some (extractJsonString_of_faults hfine json _)] at hrun
  cases htopic : findJsonString json (ascii "topic") with
  | none =>
    rw [htopic] at hrun
    exact accounts_reply _ _ _ hrun hfine
  | some topicName =>
  rw [htopic] at hrun
  obtain ⟨found, t, hfind, hrun⟩ := ApiM.bind_eq_some_iff.mp hrun
  obtain ⟨hfound, hactions⟩ := ApiM.of_broker hfind
  have hfaults := Machine.faults_exec_nil hfine hfound
  have hkept := Machine.accounts_unsaving (onDirectories_topicExists _ _).unsaving hfound
  cases found with
  | true =>
    obtain ⟨hmachine, hactions'⟩ := ApiM.of_reply hrun
    exact accounts_of_same (hactions'.trans hactions) (fun _ => hmachine ▸ hfaults)
      (hmachine ▸ hkept) hfine
  | false =>
  obtain ⟨_, u, hrecord, hrun⟩ := ApiM.bind_eq_some_iff.mp hrun
  obtain ⟨-, rfl⟩ := Prod.mk.inj (Option.some.inj hrecord)
  obtain ⟨topic, v, hcreate, hrun⟩ := ApiM.bind_eq_some_iff.mp hrun
  obtain ⟨hcreated, hactions'⟩ := ApiM.of_broker hcreate
  have hadded := hkept.trans (Machine.accounts_createTopic hfaults hcreated)
  have hend : st'.actions = v.actions ∧ st'.machine.fs = v.machine.fs ∧
      st'.machine.faults = v.machine.faults := by
    cases topic with
    | none =>
      obtain ⟨hmachine, hactions''⟩ := ApiM.of_reply hrun
      exact ⟨hactions'', by rw [hmachine], by rw [hmachine]⟩
    | some topic => exact accounts_answer hrun
  refine ⟨hend.2.2.trans (Machine.faults_exec_nil hfaults hcreated), [.create topicName
    ((findJsonString json (ascii "base_path")).getD defaultTopicBasePath)], ?_, fun _ => ?_⟩
  · rw [hend.1, hactions', ← hactions]
  · rw [hend.2.1]
    exact hadded

/-- A call with a piece of a body touches no file. -/
theorem accounts_handlePiece (uploadData : Bytes) (conCls : Option RequestBuffer) :
    (handlePiece uploadData conCls).Keeps Accounts := by
  intro st ret st' hrun
  obtain ⟨buf, t, hbuf, hrun⟩ := ApiM.bind_eq_some_iff.mp hrun
  have hquiet : t.actions = st.actions ∧ t.machine.fs = st.machine.fs ∧
      (st.machine.faults = [] → t.machine.faults = []) := by
    cases conCls with
    | some buf =>
      obtain ⟨-, rfl⟩ := Prod.mk.inj (Option.some.inj hbuf)
      exact ⟨rfl, rfl, id⟩
    | none =>
      obtain ⟨granted, u, hmalloc, hbuf⟩ := ApiM.bind_eq_some_iff.mp hbuf
      obtain ⟨hexec, hactions⟩ := ApiM.of_broker hmalloc
      obtain ⟨-, hu⟩ := Prod.mk.inj (Option.some.inj hexec)
      have htu : t = u := by
        split at hbuf <;> exact (Prod.mk.inj (Option.some.inj hbuf)).2.symm
      rw [htu, ← hu]
      exact ⟨hactions, rfl, (Machine.kept_next _).faults⟩
  obtain ⟨hactions, hfs, hfaults⟩ := hquiet
  cases buf with
  | none =>
    obtain ⟨-, rfl⟩ := Prod.mk.inj (Option.some.inj hrun)
    exact accounts_of_same hactions hfaults
      (FileSystem.accounts_of_read fun _ => by rw [hfs])
  | some buf =>
  obtain ⟨⟨r, buf'⟩, u, happend, hrun⟩ := ApiM.bind_eq_some_iff.mp hrun
  dsimp only at hrun
  obtain ⟨_, -, heq⟩ := Option.map_eq_some_iff.mp happend
  obtain ⟨-, rfl⟩ := Prod.mk.inj heq
  have hend : st'.actions = t.actions ∧ st'.machine = t.machine.next := by
    split at hrun
    · obtain ⟨result, v, hreply, hrun⟩ := ApiM.bind_eq_some_iff.mp hrun
      obtain ⟨-, rfl⟩ := Prod.mk.inj (Option.some.inj hrun)
      exact (ApiM.of_reply hreply).symm
    · obtain ⟨-, rfl⟩ := Prod.mk.inj (Option.some.inj hrun)
      exact ⟨rfl, rfl⟩
  refine accounts_of_same (hend.1.trans hactions) (fun h => ?_)
    (FileSystem.accounts_of_read fun path => ?_)
  · rw [hend.2]
    exact (Machine.kept_next _).faults (hfaults h)
  · rw [hend.2, ← hfs]
    rfl

theorem accounts_handleRequest {finish : Bytes → ApiM MhdResult}
    (hfinish : ∀ json, (finish json).Keeps Accounts) (uploadData : Bytes)
    (conCls : Option RequestBuffer) :
    (handleRequest finish uploadData conCls).Keeps Accounts := by
  have hsame (ret : HandlerReturn) : (pure ret : ApiM HandlerReturn).Keeps Accounts := by
    intro st _ st' hrun
    obtain ⟨-, rfl⟩ := Prod.mk.inj (Option.some.inj hrun)
    exact accounts_of_machine rfl rfl
  refine .ite ?_ (accounts_handlePiece _ _)
  cases conCls with
  | none => exact hsame _
  | some buf =>
    refine .ite (fun st ret st' hrun => ?_) (hsame _)
    obtain ⟨text, t, htext, hrun⟩ := ApiM.bind_eq_some_iff.mp hrun
    obtain ⟨_, -, heq⟩ := Option.map_eq_some_iff.mp htext
    obtain ⟨-, rfl⟩ := Prod.mk.inj heq
    obtain ⟨result, u, hfinished, hrun⟩ := ApiM.bind_eq_some_iff.mp hrun
    obtain ⟨-, rfl⟩ := Prod.mk.inj (Option.some.inj hrun)
    exact hfinish text hfinished

/-- Without faults a call of the request handler adds the events that it publishes. -/
theorem accounts_routeRequest (url method uploadData : Bytes) (conCls : Option RequestBuffer) :
    (routeRequest url method uploadData conCls).Keeps Accounts := by
  have hanswer (status : ℕ) (body contentType : Bytes) :
      (answer status body contentType uploadData conCls).Keeps Accounts := by
    intro st ret st' hrun
    obtain ⟨result, t, hreply, hrun⟩ := ApiM.bind_eq_some_iff.mp hrun
    obtain ⟨-, rfl⟩ := Prod.mk.inj (Option.some.inj hrun)
    exact accounts_reply _ _ _ hreply
  exact .ite (hanswer _ _ _) <| .ite (hanswer _ _ _) <|
    .ite (accounts_handleRequest accounts_publishBody _ _) <|
      .ite (accounts_handleRequest accounts_createBody _ _) (hanswer _ _ _)

end ApiState

/-! ### Turns -/

/-- Without faults a session adds no event. -/
theorem FileSystem.sessionRelation_accounts : SessionRelation fun x y =>
    x.2 = [] → y.2 = [] ∧ x.1.Accounts (fun _ => []) y.1 where
  refl _ h := ⟨h, accounts_of_read fun _ => rfl⟩
  trans _ _ _ h h' hx := ⟨(h' (h hx).1).1, (h hx).2.trans (h' (h hx).1).2⟩
  unsaving hp hrun h := ⟨Machine.faults_exec_nil h hrun, Machine.accounts_unsaving hp hrun⟩
  createTopic hrun h := ⟨Machine.faults_exec_nil h hrun, Machine.accounts_createTopic h hrun⟩

/-- The calls to the broker of a turn, if it is a request. -/
def DaemonResult.actions : DaemonResult → List ApiAction
  | .socket _ _ => []
  | .http _ _ actions => actions

namespace Daemon

/-- A turn adds the events of its publish call. -/
theorem accounts_step {d d' : Daemon} {op : DaemonOp} {r : DaemonResult}
    (hfaults : d.server.world.faults = []) (hstep : d.step op = some (r, d'))
    (hfits : ∀ topicName data, ApiAction.publish topicName data ∈ r.actions →
      d.fs.Fits topicName) :
    d'.server.world.faults = [] ∧
      d.fs.Accounts (fun path => r.actions.flatMap (publishedTo path)) d'.fs := by
  cases op with
  | socket op =>
    obtain ⟨⟨r', s'⟩, hrun, heq⟩ := Option.map_eq_some_iff.mp hstep
    obtain ⟨rfl, rfl⟩ := Prod.mk.inj heq
    exact FileSystem.sessionRelation_accounts.serverStep hrun hfaults
  | goodbye i =>
    obtain ⟨rfl, rfl⟩ := Prod.mk.inj (Option.some.inj hstep)
    exact ⟨hfaults, FileSystem.accounts_of_read fun _ => rfl⟩
  | http request url method uploadData =>
    obtain ⟨ret, st, hrun, rfl, rfl⟩ := step_http_eq_some_iff.mp hstep
    obtain ⟨hfaults', actions, hactions, hadded⟩ :=
      ApiState.accounts_routeRequest url method uploadData _ hrun hfaults
    obtain rfl : st.actions = actions := hactions
    exact ⟨hfaults', hadded hfits⟩

/-- The calls to the broker in a run. -/
def calls (d : Daemon) (ops : List DaemonOp) : List ApiAction :=
  (trace Daemon.step d ops).flatMap fun x => x.result.actions

theorem fits_of_grows {fs fs' : FileSystem} (h : fs.Grows fs') {topicName : Bytes}
    (hfits : fs'.Fits topicName) : fs.Fits topicName := by
  refine ⟨hfits.1, Nat.lt_of_le_of_lt ?_ hfits.2⟩
  cases hfile : fs.read (testedPath topicName) with
  | none => exact Nat.zero_le _
  | some content =>
    obtain ⟨more, hmore⟩ := h.files _ content hfile
    rw [show fs'.read (testedPath topicName) = _ from hmore, Option.getD_some, Option.getD_some,
      List.length_append]
    exact Nat.le_add_right _ _

/-- While storage and allocation succeed, every file holds at the end of a run what it held at the
start, or the initial data, and then the events of the publish requests for its topic, each whole
and in order. -/
theorem file_accounted {d : Daemon} {ops : List DaemonOp} (hfaults : d.server.world.faults = [])
    (hfits : ∀ topicName data, ApiAction.publish topicName data ∈ d.calls ops →
      (runEnd Daemon.step d ops).fs.Fits topicName) (path : Bytes) :
    FileAccount (d.fs.read path) ((d.calls ops).flatMap (publishedTo path))
      ((runEnd Daemon.step d ops).fs.read path) := by
  induction ops generalizing d with
  | nil => exact .refl _
  | cons op ops ih =>
    cases hstep : d.step op with
    | none =>
      simp only [calls, trace, runEnd, hstep]
      exact .refl _
    | some rd =>
      obtain ⟨r, d'⟩ := rd
      have hcalls : d.calls (op :: ops) = r.actions ++ d'.calls ops := by
        rw [calls, trace_cons_of_some hstep, List.flatMap_cons, calls]
      rw [hcalls, runEnd_cons_of_some hstep] at hfits
      rw [hcalls, runEnd_cons_of_some hstep, List.flatMap_append]
      have hgrows := FileSystem.storageRelation_grows.step hstep
      have hgrows' := FileSystem.storageRelation_grows.run d' ops
      obtain ⟨hfaults', hadded⟩ := accounts_step hfaults hstep fun topicName data hmem =>
        fits_of_grows (hgrows.trans hgrows') (hfits topicName data (List.mem_append_left _ hmem))
      exact (hadded path).trans (ih hfaults' fun topicName data hmem =>
        hfits topicName data (List.mem_append_right _ hmem))

theorem calls_sampleTurns :
    sampleTopic.calls sampleTurns = [.publish (ascii "t") (ascii "d")] := by decide +kernel

theorem file_accounted_sample :
    FileAccount (sampleTopic.fs.read (ascii "./topics/t.topic"))
      ((sampleTopic.calls sampleTurns).flatMap (publishedTo (ascii "./topics/t.topic")))
      ((runEnd Daemon.step sampleTopic sampleTurns).fs.read (ascii "./topics/t.topic")) := by
  refine file_accounted rfl (fun topicName data hmem => ?_) _
  rw [calls_sampleTurns, List.mem_singleton] at hmem
  obtain ⟨rfl, rfl⟩ := ApiAction.publish.inj hmem
  exact ⟨by decide, by decide +kernel⟩

end Daemon

end SuparnaD
