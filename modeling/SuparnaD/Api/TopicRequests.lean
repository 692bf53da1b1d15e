import SuparnaD.Api.PublishEvent
import SuparnaD.Foundation.LocalSteps
import SuparnaD.Messaging.SharedTopic
import SuparnaD.Messaging.TopicCreation
import SuparnaD.Socket.HandleOwnership

/-!
# Requests for one topic name

The requests that open a topic or create it: HTTP publishes, calls of `create_topic` and `SET_TOPIC`
commands, each with a chunk of its own. A request keeps an account of its chunk, of what it has seen
of the file and of what it has saved. Whatever other requests do between its calls, it saves only
what its account allows: the initial data of a new topic, or the one frame of its event in a file
that it has seen.

## Main definitions

* `TopicRequest`, `RequestResult`, `TopicRequest.run`.
* `RequestAccount`, `requestSpec` : the account and what may be done under it.

## Main results

* `getOrCreateTopic_eq` : the model of `get_or_create_topic` beside the one that notes whether
  `create_topic` has returned the topic.
* `TopicRequest.ensures_run` : every request keeps to its account.
-/

namespace SuparnaD

open Broker CallProgram

/-! ### Requests -/

/-- Open a topic that exists or create it, and note whether `create_topic` has returned it. -/
def openOrCreate (opening : Broker (Option Topic)) (topicName : Bytes) :
    Broker (Option Topic × Bool) := do
  if ← topicExists topicName defaultTopicBasePath then
    return (← opening, false)
  else
    let topic ← createTopic topicName defaultTopicBasePath
    return (topic, topic.isSome)

theorem getOrCreateTopic_eq (topicName : Bytes) :
    getOrCreateTopic topicName =
      Prod.fst <$> openOrCreate (openStoredTopic topicName) topicName := by
  rw [getOrCreateTopic, openOrCreate, map_bind]
  refine congrArg _ (funext fun found => ?_)
  cases found with
  | true => simp only [↓reduceIte, map_bind, map_pure, bind_pure]
  | false => simp only [Bool.false_eq_true, ↓reduceIte, map_bind, map_pure, bind_pure]

/-- The calls that `SET_TOPIC` issues for the topic of a name. Without memory for its copy of the
name it does not look for the topic. -/
def selectTopic (topicName : Bytes) : Broker (Option Topic × Bool) := do
  if ← malloc then
    openOrCreate (openTopic topicName) topicName
  else
    return (none, false)

/-- What a request for a topic does. -/
inductive TopicRequest where
  /-- An HTTP publish: `get_or_create_topic` and `publish_event_string`. -/
  | publish (data : Bytes)
  /-- A call of `create_topic`. -/
  | createTopic
  /-- A `SET_TOPIC` command. -/
  | setTopic
  deriving DecidableEq, Repr

/-- What a request has achieved. -/
structure RequestResult where
  /-- `create_topic` has returned a topic. -/
  created : Bool
  /-- The request has got a topic. -/
  hasTopic : Bool
  /-- The result of `publish_event_string`, `-1` where it is not called. -/
  result : ℤ
  deriving DecidableEq, Repr

namespace TopicRequest

/-- The calls of a request. The topic of a publish is freed at the end. -/
def run (topicName : Bytes) : TopicRequest → Broker RequestResult
  | .publish data => do
    let (topic, created) ← openOrCreate (openStoredTopic topicName) topicName
    match topic with
    | none => return ⟨created, false, -1⟩
    | some _ =>
      let result ← publishEventString (some data)
      chunkFree
      return ⟨created, true, result⟩
  | .createTopic => do
    let topic ← SuparnaD.createTopic topicName defaultTopicBasePath
    return ⟨topic.isSome, topic.isSome, -1⟩
  | .setTopic => do
    let (topic, created) ← selectTopic topicName
    return ⟨created, topic.isSome, -1⟩

/-- The event that a request is given to publish. -/
def event : TopicRequest → Option Bytes
  | .publish data => some (cString data)
  | .createTopic | .setTopic => none

/-- The events that a request with this result has published. -/
def published (request : TopicRequest) (a : RequestResult) : List Bytes :=
  if a.result = 0 then request.event.toList else []

end TopicRequest

/-! ### `SET_TOPIC` and its calls -/

namespace SessionState

open SessionM

variable {st st' : SessionState}

/-- A new group leaves the files alone. -/
theorem files_renewGroup {th : ℕ} (hrun : renewGroup th st = some ((), st')) :
    st'.world.fs.files = st.world.fs.files := by
  rw [renewGroup_eq, getSession_bind] at hrun
  obtain ⟨⟨⟩, st₁, hfree, hrun⟩ := SessionM.bind_eq_some_iff.mp hrun
  have hfiles : st₁.world.fs.files = st.world.fs.files := by
    cases hgroup : st.session.group <;> rw [hgroup] at hfree <;>
      obtain ⟨-, rfl⟩ := Prod.mk.inj (Option.some.inj hfree) <;> rfl
  obtain ⟨⟨r, chunk⟩, st₂, hcreate, hrun⟩ := SessionM.bind_eq_some_iff.mp hrun
  obtain ⟨m, hexec, -, rfl⟩ := SessionM.detached_eq_some_iff.mp hcreate
  have hkept := (onDirectories_createGroup st.session.groupId th).keepsFiles hexec
  obtain ⟨group, st₃, hnew, hrun⟩ := SessionM.bind_eq_some_iff.mp hrun
  obtain ⟨-, rfl⟩ := Prod.mk.inj (Option.some.inj hrun)
  cases r <;> obtain ⟨-, rfl⟩ := Prod.mk.inj (Option.some.inj hnew) <;>
    exact hkept.files.trans hfiles

theorem files_finishSelection {r : ℤ} (hrun : finishSelection st = some (r, st')) :
    st'.world.fs.files = st.world.fs.files := by
  rcases finishSelection_cases hrun with ⟨-, rfl⟩ | ⟨th, name, st₁, -, -, hrenew, rfl⟩
  · rfl
  · have hfiles := files_renewGroup hrenew
    exact hfiles

/-- The session has the topic that a program has set up, and the files are as the program has left
them. -/
structure Selects (st' : SessionState) (topic : Option Topic) (m : Machine) : Prop where
  files : st'.world.fs.files = m.fs.files
  of_none : topic = none → st'.session.topic = none
  of_some : ∀ t, topic = some t →
    ∃ th, st'.session.topic = some th ∧ st'.world.topics.get th = some ⟨t, m.chunk⟩

theorem selects_withNewTopic {p : Broker (Option Topic)}
    (hrun : withNewTopic p st = some ((), st')) :
    ∃ topic m, p.exec (st.machine none) = some (topic, m) ∧ st'.Selects topic m := by
  obtain ⟨⟨topic, chunk⟩, st₁, hsetup, hrun⟩ := SessionM.bind_eq_some_iff.mp hrun
  obtain ⟨m, hexec, rfl, rfl⟩ := SessionM.detached_eq_some_iff.mp hsetup
  obtain ⟨handle, st₂, hnew, hrun⟩ := SessionM.bind_eq_some_iff.mp hrun
  obtain ⟨-, rfl⟩ := Prod.mk.inj (Option.some.inj hrun)
  refine ⟨topic, m, hexec, ?_⟩
  cases topic with
  | none =>
    obtain ⟨rfl, rfl⟩ := Prod.mk.inj (Option.some.inj hnew)
    exact ⟨rfl, fun _ => rfl, fun _ h => by cases h⟩
  | some t =>
    obtain ⟨rfl, rfl⟩ := Prod.mk.inj (Option.some.inj hnew)
    refine ⟨rfl, fun h => absurd h (Option.some_ne_none t), fun t' h => ?_⟩
    obtain rfl := Option.some.inj h
    exact ⟨_, rfl, HandleHeap.get_alloc_self⟩

theorem Selects.finishSelection {topic : Option Topic} {m : Machine} {r : ℤ}
    (h : st.Selects topic m) (hrun : SessionState.finishSelection st = some (r, st')) :
    st'.Selects topic m := by
  obtain ⟨hheap, htopic⟩ := topics_finishSelection hrun
  refine ⟨(files_finishSelection hrun).trans h.files, fun hnone => ?_, fun t ht => ?_⟩
  · rw [htopic]
    exact h.of_none hnone
  · rw [hheap, htopic]
    exact h.of_some t ht

/-- What `SET_TOPIC` does to the files and to the topic of the session, `selectTopic` does. -/
theorem selects_handleSetTopic {topicName : Bytes} {r : ℤ}
    (hrun : handleSetTopic topicName st = some (r, st')) :
    ∃ result m, (selectTopic topicName).exec (st.machine none) = some (result, m) ∧
      st'.Selects result.1 m := by
  rw [handleSetTopic_eq] at hrun
  cases halloc : (st.machine none).outcome.alloc with
  | false =>
    rw [halloc, if_neg Bool.false_ne_true] at hrun
    obtain ⟨⟨⟩, st₁, hset, hrun⟩ := SessionM.bind_eq_some_iff.mp hrun
    obtain ⟨-, rfl⟩ := Prod.mk.inj (Option.some.inj hset)
    have hselects : SessionState.Selects { st.withTopicName topicName with
        session := { (st.withTopicName topicName).session with topic := none } }
        none (st.machine none).next := ⟨rfl, fun _ => rfl, fun _ h => by cases h⟩
    refine ⟨(none, false), (st.machine none).next,
      CallProgram.run_bind_eq_some_iff.mpr ⟨_, _, exec_malloc, ?_⟩,
      hselects.finishSelection hrun⟩
    rw [halloc]
    rfl
  | true =>
  rw [halloc, if_pos rfl] at hrun
  obtain ⟨found, st₁, hfound, hrun⟩ := SessionM.bind_eq_some_iff.mp hrun
  obtain ⟨⟨found', chunk⟩, hdetached, rfl⟩ := SessionM.map_eq_some_iff.mp hfound
  obtain ⟨m, hexists, -, rfl⟩ := SessionM.detached_eq_some_iff.mp hdetached
  have hmachine : ((st.withTopicName topicName).after m).machine none = m := by
    have hchunk :=
      ((onDirectories_topicExists topicName defaultTopicBasePath).keepsFiles hexists).chunk
    obtain ⟨fs, faults, chunk, client⟩ := m
    obtain rfl : chunk = none := hchunk
    rfl
  have hselect {result : Option Topic × Bool} {m' : Machine}
      (hfollow : (if found' = true then (do return (← openTopic topicName, false))
        else do
          let topic ← createTopic topicName defaultTopicBasePath
          return (topic, topic.isSome)).exec m = some (result, m')) :
      (selectTopic topicName).exec (st.machine none) = some (result, m') := by
    refine CallProgram.run_bind_eq_some_iff.mpr ⟨_, _, exec_malloc, ?_⟩
    rw [halloc, if_pos rfl]
    exact CallProgram.run_bind_eq_some_iff.mpr ⟨found', m, hexists, hfollow⟩
  cases found' with
  | true =>
    rw [if_pos rfl, getSession_bind] at hrun
    obtain ⟨⟨⟩, st₂, hfree, hrun⟩ := SessionM.bind_eq_some_iff.mp hrun
    have hsame : st₂.machine none = m := by
      refine Eq.trans ?_ hmachine
      cases htopic : ((st.withTopicName topicName).after m).session.topic <;>
        rw [htopic] at hfree <;> obtain ⟨-, rfl⟩ := Prod.mk.inj (Option.some.inj hfree) <;> rfl
    obtain ⟨⟨⟩, st₃, hset, hrun⟩ := SessionM.bind_eq_some_iff.mp hrun
    obtain ⟨topic, m', hopen, hselects⟩ := selects_withNewTopic hset
    rw [hsame] at hopen
    exact ⟨_, m', hselect (CallProgram.run_bind_eq_some_iff.mpr ⟨topic, m', hopen, rfl⟩),
      hselects.finishSelection hrun⟩
  | false =>
    obtain ⟨⟨⟩, st₃, hset, hrun⟩ := SessionM.bind_eq_some_iff.mp hrun
    obtain ⟨topic, m', hcreate, hselects⟩ := selects_withNewTopic hset
    rw [hmachine] at hcreate
    exact ⟨_, m', hselect (CallProgram.run_bind_eq_some_iff.mpr ⟨topic, m', hcreate, rfl⟩),
      hselects.finishSelection hrun⟩

end SessionState

/-! ### The account of a request -/

/-- What a request knows, whatever the others do. -/
structure RequestAccount where
  /-- The path of its chunk and the bytes that the chunk has to save. -/
  chunk : Option (Bytes × Bytes)
  /-- It has seen the file of the topic. -/
  seen : Bool
  /-- It has saved the initial data of a new topic. -/
  made : Bool
  /-- It has saved its event. -/
  stored : Bool
  deriving DecidableEq, Repr

namespace RequestAccount

/-- Before the first call. -/
def fresh : RequestAccount := ⟨none, false, false, false⟩

/-- The bytes that the chunk has to save. -/
def unsaved (x : RequestAccount) : Bytes := x.chunk.elim [] Prod.snd

/-- The account after an append. -/
def append (x : RequestAccount) (data : Bytes) : RequestAccount :=
  { x with chunk := x.chunk.map fun c => (c.1, c.2 ++ data) }

/-- The account after a save that has succeeded. -/
def saved (x : RequestAccount) : RequestAccount :=
  let cleared := x.chunk.map fun c => (c.1, ([] : Bytes))
  if x.unsaved = [] then x
  else if x.unsaved = initialData then { x with chunk := cleared, seen := true, made := true }
  else { x with chunk := cleared, stored := true }

end RequestAccount

/-- The calls of a request that publishes at most this event in the topic at this path. -/
def requestSpec (path : Bytes) (event : Option Bytes) : LocalSpec brokerCalls RequestAccount where
  pre
    | .chunkLoad, x => x.unsaved = []
    | .chunkAppend data, _ => data.length < 2 ^ 63
    | .chunkSaveDelta, x => x.unsaved = [] ∨ x.unsaved = initialData ∨
        x.seen = true ∧ x.stored = false ∧
          ∃ d, event = some d ∧ topicFormat.Valid d ∧ x.unsaved = topicFormat.frame d
    | _, _ => True
  step
    | .hasChunk, x, r, x' => r = x.chunk.isSome ∧ x' = x
    | .chunkInit filePath, x, r, x' =>
      x' = { x with chunk := if r then some (filePath, []) else none }
    | .chunkFree, x, _, x' => x' = { x with chunk := none }
    | .chunkAppend data, x, r, x' => r = (0 : ℤ) ∧ x' = x.append data ∨ r ≠ (0 : ℤ) ∧ x' = x
    | .chunkSaveDelta, x, r, x' => r = (0 : ℤ) ∧ x' = x.saved ∨ r ≠ (0 : ℤ) ∧ x' = x
    | .fopenRead p, x, r, x' => x' = { x with seen := x.seen || (r && decide (p = path)) }
    | _, x, _, x' => x' = x

namespace RequestAccount

variable {x : RequestAccount}

theorem saved_of_nil (h : x.unsaved = []) : x.saved = x := by
  rw [saved, if_pos h]

/-- A save of the initial data. -/
theorem saved_of_initialData (h : x.unsaved = initialData) :
    x.saved = { x with
      chunk := x.chunk.map fun c => (c.1, [])
      seen := true
      made := true } := by
  rw [saved, if_neg (by rw [h]; decide), if_pos h]

/-- A save of an event. -/
theorem saved_of_frame {d : Bytes} (h : x.unsaved = topicFormat.frame d)
    (hd : topicFormat.Valid d) :
    x.saved = { x with chunk := x.chunk.map fun c => (c.1, []), stored := true } := by
  have hlen : 4 < x.unsaved.length := by
    rw [h, FrameFormat.length_frame, topicFormat_headerLen]
    exact Nat.lt_add_of_pos_right hd.1
  rw [saved, if_neg, if_neg]
  · intro heq
    rw [heq] at hlen
    exact absurd hlen (by decide)
  · intro heq
    rw [heq] at hlen
    exact absurd hlen (by decide)

end RequestAccount

/-! ### Every request keeps to its account -/

section

open RequestAccount

variable {path : Bytes} {event : Option Bytes} {x : RequestAccount}

/-- A call that changes nothing that the account knows of. -/
theorem ensures_same {c : BrokerCall} {Q : brokerCalls.Answer c → RequestAccount → Prop}
    (hpre : (requestSpec path event).pre c x)
    (hsame : ∀ r x', (requestSpec path event).step c x r x' → x' = x) (h : ∀ r, Q r x) :
    (issue c : CallProgram brokerCalls _).Ensures (requestSpec path event) Q x :=
  ensures_issue hpre fun r x' hstep => hsame r x' hstep ▸ h r

theorem ensures_malloc {Q : Bool → RequestAccount → Prop} (h : ∀ r, Q r x) :
    malloc.Ensures (requestSpec path event) Q x :=
  ensures_same trivial (fun _ _ => id) h

/-- Giving a chunk up. -/
theorem ensures_giveUp {α : Type} {a : α} {Q : α → RequestAccount → Prop}
    (h : Q a { x with chunk := none }) :
    (do chunkFree; return a : Broker α).Ensures (requestSpec path event) Q x :=
  ⟨trivial, fun _ _ hstep => hstep ▸ h⟩

theorem ensures_topicExists (topicName basePath : Bytes) (hstored : x.stored = false) :
    (topicExists topicName basePath).Ensures
      (requestSpec (topicPath topicName basePath) event)
      (fun found x' => x'.stored = false ∧ (found = true → x'.seen = true)) x := by
  refine Ensures.bind (Q := fun r x' => x' = x ∧ ∀ p, r = some p → p = topicPath topicName basePath)
    ?_ fun r x' => ?_
  · refine Ensures.bind (ensures_malloc (Q := fun _ x' => x' = x) fun _ => rfl)
      fun granted x' h => ?_
    refine .ite (fun _ => ⟨h, fun p hp => (Option.some.inj hp).symm⟩) fun _ => ⟨h, fun p hp => ?_⟩
    cases hp
  · rintro ⟨rfl, hpath⟩
    cases r with
    | none => exact ⟨hstored, fun h => by cases h⟩
    | some p =>
      refine ⟨trivial, fun found y hstep => ?_⟩
      obtain rfl := hpath p rfl
      obtain rfl : y = _ := hstep
      refine ⟨hstored, fun hfound => ?_⟩
      subst hfound
      simp only [decide_true, Bool.and_self, Bool.or_true]

/-- What a request knows once it has created the topic or failed to. -/
def RequestAccount.Opened (hasTopic created : Bool) (x : RequestAccount) : Prop :=
  x.stored = false ∧ (hasTopic = true → x.seen = true ∧ x.unsaved = []) ∧
    (created = true → x.made = true)

theorem opened_none (h : x.stored = false) :
    x.Opened (none : Option Topic).isSome (none : Option Topic).isSome :=
  ⟨h, fun h => Bool.noConfusion h, fun h => Bool.noConfusion h⟩

theorem ensures_setUpTopic (topicName filePath : Bytes) (hstored : x.stored = false) :
    (setUpTopic topicName filePath).Ensures (requestSpec path event)
      (fun topic => Opened topic.isSome topic.isSome) x := by
  refine ensures_issue_bind_of_eq trivial (fun _ _ => id) fun r => ?_
  cases r with
  | false => exact opened_none hstored
  | true =>
  refine ensures_issue_bind (show initialData.length < 2 ^ 63 by decide) fun r y hstep => ?_
  obtain ⟨rfl, rfl⟩ | ⟨hne, rfl⟩ := hstep
  swap
  · rw [if_pos hne]
    exact ensures_giveUp (opened_none hstored)
  refine ensures_issue_bind (.inr (.inl rfl)) fun r y hstep => ?_
  obtain ⟨rfl, rfl⟩ | ⟨hne, rfl⟩ := hstep
  swap
  · rw [if_pos hne]
    exact ensures_giveUp (opened_none hstored)
  rw [if_neg (not_not.mpr rfl), saved_of_initialData rfl]
  refine ensures_issue_bind_of_eq trivial (fun _ _ => id) fun granted => ?_
  refine .ite (fun _ => ensures_giveUp (opened_none hstored)) fun _ => ?_
  refine ensures_issue_bind_of_eq trivial (fun _ _ => id) fun granted => ?_
  refine .ite (fun _ => ensures_giveUp (opened_none hstored)) fun _ => ?_
  exact ensures_pure ⟨hstored, fun _ => ⟨rfl, rfl⟩, fun _ => rfl⟩

theorem ensures_createTopic (topicName basePath : Bytes) (hstored : x.stored = false) :
    (createTopic topicName basePath).Ensures (requestSpec (topicPath topicName basePath) event)
      (fun topic => Opened topic.isSome topic.isSome) x := by
  rw [createTopic_eq]
  refine .ite (fun _ => opened_none hstored) fun _ => ?_
  refine (ensures_topicExists topicName basePath hstored).bind fun found x₁ h₁ => ?_
  refine .ite (fun _ => opened_none h₁.1) fun _ => ?_
  refine Ensures.bind (ensures_of_within (J := fun y => y.stored = false)
    (onDirectories_ensureDirectoryExists basePath) h₁.1 fun c y hc hy => ?_) fun r x₂ h₂ => ?_
  · cases c with
    | malloc | stat _ | mkdir _ => exact ⟨trivial, fun r y' hstep => hstep ▸ hy⟩
    | fopenRead p =>
      refine ⟨trivial, fun r y' hstep => ?_⟩
      obtain rfl : y' = _ := hstep
      exact hy
    | _ => exact hc.elim
  refine .ite (fun _ => opened_none h₂.2) fun _ => ?_
  refine Ensures.bind (Q := fun _ y => y.stored = false) ?_ fun filePath x₃ h₃ => ?_
  · refine ensures_issue_bind_of_eq trivial (fun _ _ => id) fun granted => ?_
    exact .ite (fun _ => h₂.2) fun _ => h₂.2
  cases filePath with
  | none => exact opened_none h₃
  | some filePath => exact ensures_setUpTopic topicName filePath h₃

/-- An append that succeeds leaves the frame of the event to save. -/
theorem ensures_appendEvent {p d : Bytes} (hd : topicFormat.Valid d)
    (hchunk : x.chunk = some (p, [])) :
    (appendEvent d).Ensures (requestSpec path event)
      (fun r y => r = 0 ∧ y = { x with chunk := some (p, topicFormat.frame d) } ∨
        r ≠ 0 ∧ y.stored = x.stored ∧ y.made = x.made ∧ y.seen = x.seen) x := by
  refine ensures_issue_bind (show (eventHeader d).length < 2 ^ 63 by
    rw [length_eventHeader]; decide) fun r y hstep => ?_
  obtain ⟨rfl, rfl⟩ | ⟨hne, rfl⟩ := hstep
  swap
  · rw [if_pos hne]
    exact .inr ⟨by omega, rfl, rfl, rfl⟩
  refine ensures_issue_bind (length_lt_of_valid hd) fun r y hstep => ?_
  obtain ⟨rfl, rfl⟩ | ⟨hne, rfl⟩ := hstep
  swap
  · rw [if_pos hne]
    exact .inr ⟨by omega, rfl, rfl, rfl⟩
  refine .inl ⟨rfl, ?_⟩
  simp only [RequestAccount.append, hchunk, Option.map_some, List.nil_append]
  rfl

/-- A publish saves the event exactly when it returns `0`. -/
theorem ensures_publishEventString (data : Bytes) (hstored : x.stored = false)
    (hseen : x.seen = true) (hunsaved : x.unsaved = []) :
    (publishEventString (some data)).Ensures (requestSpec path (some (cString data)))
      (fun r y => y.stored = decide (r = 0) ∧ y.made = x.made ∧ y.seen = true) x := by
  have hfail : (pure (-1) : Broker ℤ).Ensures (requestSpec path (some (cString data)))
      (fun r y => y.stored = decide (r = 0) ∧ y.made = x.made ∧ y.seen = true) x :=
    ⟨hstored, rfl, hseen⟩
  refine .ite (fun _ => hfail) fun hlen => ?_
  refine .ite (fun _ => hfail) fun _ => .ite (fun _ => ⟨hstored, rfl, hseen⟩) fun hshort => ?_
  have hd : topicFormat.Valid (cString data) := valid_iff.mpr (not_or.mpr ⟨hlen, hshort⟩)
  refine ensures_issue_bind trivial fun r y hstep => ?_
  obtain ⟨rfl, rfl⟩ := hstep
  cases hchunk : y.chunk with
  | none => exact ⟨hstored, rfl, hseen⟩
  | some c =>
  obtain ⟨p, u⟩ := c
  obtain rfl : u = [] := by rwa [unsaved, hchunk] at hunsaved
  refine (ensures_appendEvent hd hchunk).bind fun r z hz => ?_
  rcases hz with ⟨rfl, rfl⟩ | ⟨hne, hsame, hmade, hz⟩
  swap
  · rw [if_pos hne]
    exact ⟨hsame.trans hstored, hmade, hz.trans hseen⟩
  refine ensures_issue_bind (.inr (.inr ⟨hseen, hstored, _, rfl, hd, rfl⟩)) fun r z hstep => ?_
  obtain ⟨rfl, rfl⟩ | ⟨hne, rfl⟩ := hstep
  · rw [saved_of_frame rfl hd]
    exact ⟨rfl, rfl, hseen⟩
  · rw [if_pos hne]
    exact ⟨hstored, rfl, hseen⟩

/-- Opening a topic that the request has seen saves nothing. -/
theorem ensures_openStoredTopic (topicName : Bytes) (hstored : x.stored = false)
    (hseen : x.seen = true) :
    (openStoredTopic topicName).Ensures (requestSpec path event)
      (fun topic => Opened topic.isSome false) x := by
  refine ensures_issue_bind_of_eq trivial (fun _ _ => id) fun granted => ?_
  refine .ite (fun _ => opened_none hstored) fun _ => ?_
  refine ensures_issue_bind_of_eq trivial (fun _ _ => id) fun granted => ?_
  refine .ite (fun _ => opened_none hstored) fun _ => ?_
  refine ensures_issue_bind_of_eq trivial (fun _ _ => id) fun granted => ?_
  refine .ite (fun _ => opened_none hstored) fun _ => ?_
  refine ensures_issue_bind_of_eq trivial (fun _ _ => id) fun granted => ?_
  cases granted with
  | false => exact opened_none hstored
  | true =>
  refine ensures_issue_bind_of_eq rfl (fun _ _ => id) fun r => ?_
  refine .ite (fun _ => ensures_giveUp (opened_none hstored)) fun _ => ?_
  exact ensures_pure ⟨hstored, fun _ => ⟨hseen, rfl⟩, fun h => Bool.noConfusion h⟩

theorem ensures_openTopic (topicName : Bytes) (hstored : x.stored = false)
    (hseen : x.seen = true) :
    (openTopic topicName).Ensures (requestSpec path event)
      (fun topic => Opened topic.isSome false) x := by
  refine ensures_issue_bind_of_eq trivial (fun _ _ => id) fun granted => ?_
  refine .ite (fun _ => opened_none hstored) fun _ => ?_
  refine ensures_issue_bind_of_eq trivial (fun _ _ => id) fun name => ?_
  refine ensures_issue_bind_of_eq trivial (fun _ _ => id) fun path => ?_
  refine ensures_issue_bind_of_eq trivial (fun _ _ => id) fun granted => ?_
  cases granted with
  | false => exact ensures_pure ⟨hstored, fun _ => ⟨hseen, rfl⟩, fun h => Bool.noConfusion h⟩
  | true =>
  refine ensures_issue_bind_of_eq rfl (fun _ _ => id) fun r => ?_
  exact ensures_pure ⟨hstored, fun _ => ⟨hseen, rfl⟩, fun h => Bool.noConfusion h⟩

theorem ensures_openOrCreate {opening : Broker (Option Topic)} {topicName : Bytes}
    (hopening : ∀ y : RequestAccount, y.stored = false → y.seen = true →
      opening.Ensures (requestSpec (topicPath topicName defaultTopicBasePath) event)
        (fun topic => Opened topic.isSome false) y)
    (hstored : x.stored = false) :
    (openOrCreate opening topicName).Ensures
      (requestSpec (topicPath topicName defaultTopicBasePath) event)
      (fun r => Opened r.1.isSome r.2) x := by
  refine (ensures_topicExists topicName _ hstored).bind fun found y hy => ?_
  refine .ite (fun hfound => ?_) fun _ => ?_
  · exact (hopening y hy.1 (hy.2 hfound)).bind fun topic z hz => hz
  · exact (ensures_createTopic topicName _ hy.1).bind fun topic z hz => hz

/-- What a request that returns has done. -/
structure TopicRequest.Returns (request : TopicRequest) (a : RequestResult) (x : RequestAccount) :
    Prop where
  stored : (if x.stored then request.event.toList else []) = request.published a
  hasTopic : a.hasTopic = true → x.seen = true
  created : a.created = true → x.made = true

theorem TopicRequest.returns_of_opened {request : TopicRequest} {hasTopic created : Bool} {r : ℤ}
    (h : x.Opened hasTopic created) (hr : r ≠ 0) :
    request.Returns ⟨created, hasTopic, r⟩ x := by
  refine ⟨?_, fun htopic => (h.2.1 htopic).1, h.2.2⟩
  rw [h.1, published, if_neg hr]
  rfl

/-- Every request keeps to its account. -/
theorem TopicRequest.ensures_run (request : TopicRequest) (topicName : Bytes) :
    (request.run topicName).Ensures
      (requestSpec (topicPath topicName defaultTopicBasePath) request.event) request.Returns
      .fresh := by
  cases request with
  | publish data =>
    refine (ensures_openOrCreate (fun y => ensures_openStoredTopic topicName) rfl).bind
      fun r y hy => ?_
    obtain ⟨topic, created⟩ := r
    cases topic with
    | none => exact returns_of_opened hy (by omega)
    | some topic =>
      obtain ⟨hseen, hunsaved⟩ := hy.2.1 rfl
      refine (ensures_publishEventString data hy.1 hseen hunsaved).bind fun r z hz => ?_
      refine ensures_giveUp ⟨?_, fun _ => hz.2.2, fun hcreated => ?_⟩
      · simp only [hz.1, decide_eq_true_eq, published]
      · exact hz.2.1.trans (hy.2.2 hcreated)
  | createTopic =>
    exact (ensures_createTopic topicName _ rfl).bind fun topic y hy =>
      returns_of_opened hy (by omega)
  | setTopic =>
    refine Ensures.bind (Q := fun r => Opened r.1.isSome r.2) ?_ fun r y hy =>
      returns_of_opened hy (by omega)
    refine ensures_issue_bind_of_eq trivial (fun _ _ => id) fun granted => ?_
    exact .ite (fun _ => ensures_openOrCreate (fun y => ensures_openTopic topicName) rfl)
      fun _ => opened_none rfl

end

end SuparnaD
