import SuparnaD.Api.TopicRequests
import SuparnaD.Socket.SessionCoherence

/-!
# The file of a topic name

`topic_exists` and `create_topic` build the path of a topic in a buffer that is long enough. A
publish and `SET_TOPIC` build it in a buffer of 512 bytes when they open a topic that exists, and
`snprintf` cuts a longer path there. So the existence of one file is checked and another file is
opened. A file system that bounds the parts of a path has no file for some of the longer names, and
then nothing is opened for them.

## Main definitions

* `Topic.IsOn` : a topic and its chunk belong to the file at a path.
* `PublishOpens`, `SessionOpens` : the file that a publish or a session opens for a name.

## Main results

* `isOn_of_getOrCreateTopic`, `isOn_of_selectTopic` : the file of every topic that is opened.
* `opens_tested_iff` : publishes and sessions open the tested file exactly for a name of at most
  496 bytes.
-/

namespace SuparnaD

open Broker

/-- The topic and its chunk belong to the file at the path. -/
def Topic.IsOn (topic : Topic) (chunk : Option Chunk) (path : Bytes) : Prop :=
  (∀ p, topic.filePath = some p → p = path) ∧ ∀ c, chunk = some c → c.filePath = path

/-- The path that `topic_exists` tests and that `create_topic` creates for a name. -/
def testedPath (topicName : Bytes) : Bytes := topicPath topicName defaultTopicBasePath

/-- Every topic that `get_or_create_topic` returns for the name belongs to the file at the path. -/
def PublishOpens (topicName path : Bytes) : Prop :=
  ∀ s topic s', (getOrCreateTopic topicName).exec s = some (some topic, s') →
    topic.IsOn s'.chunk path

/-- Every topic that `SET_TOPIC` stores for the name belongs to the file at the path. -/
def SessionOpens (topicName path : Bytes) : Prop :=
  ∀ (st : SessionState) r (st' : SessionState) th t,
    handleSetTopic topicName st = some (r, st') → st'.session.topic = some th →
      st'.world.topics.get th = some t → t.topic.IsOn t.chunkHandle path

variable {topicName basePath path : Bytes} {topic : Topic} {s s' : Machine}

/-! ### The paths that topics are given -/

/-- A topic, if there is one, has the path or none. -/
def GivesPath (path : Bytes) (r : Option Topic) : Prop :=
  ∀ topic, r = some topic → ∀ p, topic.filePath = some p → p = path

/-- The program gives its topic the path. -/
abbrev Broker.GivesPath (path : Bytes) (p : Broker (Option Topic)) : Prop :=
  p.Within (fun _ => True) (SuparnaD.GivesPath path)

theorem givesPath_none : Broker.GivesPath path (pure none) := fun _ h => by cases h

/-- A call that the path of the topic does not depend on. -/
theorem givesPath_issue {c : BrokerCall} {k : brokerCalls.Answer c → Broker (Option Topic)}
    (hk : ∀ r, (k r).GivesPath path) :
    Broker.GivesPath path ((CallProgram.issue c : CallProgram brokerCalls _) >>= k) :=
  ⟨trivial, hk⟩

/-- A failure exit. -/
theorem givesPath_ite_none {b : Prop} [Decidable b] {p : Broker (Option Topic)}
    (hp : p.GivesPath path) : (if b then pure none else p).GivesPath path :=
  .ite (fun _ => givesPath_none) fun _ => hp

/-- A failure exit that gives the chunk up. -/
theorem givesPath_ite_giveUp {b : Prop} [Decidable b] {p : Broker (Option Topic)}
    (hp : p.GivesPath path) :
    (if b then (do chunkFree; return none) else p).GivesPath path :=
  .ite (fun _ => givesPath_issue fun _ => givesPath_none) fun _ => hp

theorem givesPath_setUpTopic (topicName path : Bytes) :
    (setUpTopic topicName path).GivesPath path := by
  refine givesPath_issue fun made => givesPath_ite_none ?_
  refine givesPath_issue fun appended => givesPath_ite_giveUp ?_
  refine givesPath_issue fun saved => givesPath_ite_giveUp ?_
  refine givesPath_issue fun _ => givesPath_ite_giveUp ?_
  refine givesPath_issue fun _ => givesPath_ite_giveUp ?_
  rintro topic h p hp
  obtain rfl := Option.some.inj h
  exact (Option.some.inj hp).symm

theorem givesPath_createTopic (topicName basePath : Bytes) :
    (createTopic topicName basePath).GivesPath (topicPath topicName basePath) := by
  have hbuild : (buildTopicPath topicName basePath).Within (fun _ => True)
      fun r => ∀ filePath, r = some filePath → filePath = topicPath topicName basePath := by
    refine ⟨trivial, fun granted => ?_⟩
    cases granted with
    | true => exact fun _ h => (Option.some.inj h).symm
    | false => exact fun _ h => by cases h
  rw [createTopic_eq]
  refine givesPath_ite_none ?_
  refine ((onDirectories_topicExists topicName basePath).weaken fun _ _ => trivial).bind
    fun found _ => givesPath_ite_none ?_
  refine ((onDirectories_ensureDirectoryExists basePath).weaken fun _ _ => trivial).bind
    fun made _ => givesPath_ite_none ?_
  refine hbuild.bind fun filePath h => ?_
  cases filePath with
  | none => exact givesPath_none
  | some filePath =>
    obtain rfl := h filePath rfl
    exact givesPath_setUpTopic topicName _

theorem givesPath_openStoredTopic (topicName : Bytes) :
    (openStoredTopic topicName).GivesPath ((testedPath topicName).take 511) := by
  refine givesPath_issue fun _ => givesPath_ite_none ?_
  refine givesPath_issue fun _ => givesPath_ite_none ?_
  refine givesPath_issue fun _ => givesPath_ite_none ?_
  refine givesPath_issue fun _ => givesPath_ite_none ?_
  refine givesPath_issue fun loaded => givesPath_ite_giveUp ?_
  rintro topic h p hp
  obtain rfl := Option.some.inj h
  exact (Option.some.inj hp).symm

theorem givesPath_openTopic (topicName : Bytes) :
    (openTopic topicName).GivesPath ((testedPath topicName).take 511) := by
  have hend (name copied : Bool) : SuparnaD.GivesPath ((testedPath topicName).take 511)
      (some ⟨if name then some topicName else none,
        if copied then some ((testedPath topicName).take 511) else none⟩) := by
    rintro topic h p hp
    obtain rfl := Option.some.inj h
    cases copied with
    | true => exact (Option.some.inj hp).symm
    | false => cases hp
  refine givesPath_issue fun _ => givesPath_ite_none ?_
  refine givesPath_issue fun name => givesPath_issue fun copied => givesPath_issue fun made => ?_
  cases made with
  | true => exact ⟨trivial, fun _ => hend name copied⟩
  | false => exact hend name copied

/-! ### What is opened -/

theorem isOn_of_onTopic (hpath : GivesPath path (some topic)) (h : s.OnTopic path) :
    topic.IsOn s.chunk path := ⟨hpath topic rfl, fun c hc => (h c hc).1⟩

/-- A new topic has the whole path. -/
theorem isOn_of_createTopic
    (hrun : (createTopic topicName basePath).exec s = some (some topic, s')) :
    topic.IsOn s'.chunk (topicPath topicName basePath) :=
  isOn_of_onTopic ((givesPath_createTopic topicName basePath).of_run hrun)
    ((exec_createTopic hrun).2 topic rfl).1.onTopic

theorem onTopic_of_openStoredTopic
    (hrun : (openStoredTopic topicName).exec s = some (some topic, s')) :
    s'.OnTopic ((testedPath topicName).take 511) := by
  have hsome : none ≠ some topic := (Option.some_ne_none topic).symm
  obtain ⟨_, s₁, -, hrun⟩ := CallProgram.run_bind_eq_some_iff.mp hrun
  obtain ⟨-, hrun⟩ := (CallProgram.run_unless_eq_some_iff hsome).mp hrun
  obtain ⟨_, s₂, -, hrun⟩ := CallProgram.run_bind_eq_some_iff.mp hrun
  obtain ⟨-, hrun⟩ := (CallProgram.run_unless_eq_some_iff hsome).mp hrun
  obtain ⟨_, s₃, -, hrun⟩ := CallProgram.run_bind_eq_some_iff.mp hrun
  obtain ⟨-, hrun⟩ := (CallProgram.run_unless_eq_some_iff hsome).mp hrun
  obtain ⟨_, s₄, hinit, hrun⟩ := CallProgram.run_bind_eq_some_iff.mp hrun
  obtain ⟨-, hrun⟩ := (CallProgram.run_unless_eq_some_iff hsome).mp hrun
  obtain ⟨_, s₅, hload, hrun⟩ := CallProgram.run_bind_eq_some_iff.mp hrun
  split at hrun
  · obtain ⟨_, s₆, -, hrun⟩ := CallProgram.run_bind_eq_some_iff.mp hrun
    cases (CallProgram.run_pure_eq_some_iff.mp hrun).1
  · obtain ⟨-, rfl⟩ := CallProgram.run_pure_eq_some_iff.mp hrun
    exact SessionState.onTopic_of_chunkLoad (SessionState.onTopic_of_chunkInit hinit) hload

theorem isOn_of_openStoredTopic
    (hrun : (openStoredTopic topicName).exec s = some (some topic, s')) :
    topic.IsOn s'.chunk ((testedPath topicName).take 511) :=
  isOn_of_onTopic ((givesPath_openStoredTopic topicName).of_run hrun)
    (onTopic_of_openStoredTopic hrun)

theorem isOn_of_openTopic (hrun : (openTopic topicName).exec s = some (some topic, s')) :
    topic.IsOn s'.chunk ((testedPath topicName).take 511) :=
  isOn_of_onTopic ((givesPath_openTopic topicName).of_run hrun)
    (SessionState.onTopic_of_openTopic hrun)

/-- What is opened has the cut path, and what is created has the whole path. -/
theorem isOn_of_openOrCreate {opening : Broker (Option Topic)} {created : Bool}
    (hopen : ∀ s topic s', opening.exec s = some (some topic, s') → topic.IsOn s'.chunk path)
    (hrun : (openOrCreate opening topicName).exec s = some ((some topic, created), s')) :
    topic.IsOn s'.chunk path ∨ topic.IsOn s'.chunk (testedPath topicName) := by
  obtain ⟨found, s₁, -, hrun⟩ := CallProgram.run_bind_eq_some_iff.mp hrun
  cases found with
  | true =>
    obtain ⟨r, s₂, hstored, hrun⟩ := CallProgram.run_bind_eq_some_iff.mp hrun
    obtain ⟨heq, rfl⟩ := CallProgram.run_pure_eq_some_iff.mp hrun
    obtain rfl := (Prod.mk.inj heq).1
    exact .inl (hopen s₁ topic s₂ hstored)
  | false =>
    obtain ⟨r, s₂, hcreate, hrun⟩ := CallProgram.run_bind_eq_some_iff.mp hrun
    obtain ⟨heq, rfl⟩ := CallProgram.run_pure_eq_some_iff.mp hrun
    obtain rfl := (Prod.mk.inj heq).1
    exact .inr (isOn_of_createTopic hcreate)

theorem isOn_of_getOrCreateTopic
    (hrun : (getOrCreateTopic topicName).exec s = some (some topic, s')) :
    topic.IsOn s'.chunk ((testedPath topicName).take 511) ∨
      topic.IsOn s'.chunk (testedPath topicName) := by
  rw [getOrCreateTopic_eq, exec, CallProgram.run_map] at hrun
  obtain ⟨⟨⟨r, created⟩, s₁⟩, hopen, heq⟩ := Option.map_eq_some_iff.mp hrun
  obtain ⟨rfl, rfl⟩ := Prod.mk.inj heq
  exact isOn_of_openOrCreate (fun _ _ _ => isOn_of_openStoredTopic) hopen

theorem isOn_of_selectTopic {created : Bool}
    (hrun : (selectTopic topicName).exec s = some ((some topic, created), s')) :
    topic.IsOn s'.chunk ((testedPath topicName).take 511) ∨
      topic.IsOn s'.chunk (testedPath topicName) := by
  obtain ⟨copied, s₁, -, hrun⟩ := CallProgram.run_bind_eq_some_iff.mp hrun
  cases copied with
  | true => exact isOn_of_openOrCreate (fun _ _ _ => isOn_of_openTopic) hrun
  | false => cases (CallProgram.run_pure_eq_some_iff.mp hrun).1

/-! ### Names that fit -/

/-- The two paths are the same for a name that leaves room for the directory and the extension. -/
theorem take_testedPath_eq_iff :
    (testedPath topicName).take 511 = testedPath topicName ↔ topicName.length ≤ 496 := by
  have hlen : (testedPath topicName).length = 15 + topicName.length := by
    simp only [testedPath, topicPath, List.length_append]
    have hbase : defaultTopicBasePath.length = 8 := rfl
    have hslash : (ascii "/").length = 1 := rfl
    have hext : (ascii ".topic").length = 6 := rfl
    omega
  rw [List.take_eq_self_iff, hlen]
  omega

theorem publishOpens_of_length (h : topicName.length ≤ 496) :
    PublishOpens topicName (testedPath topicName) := by
  intro s topic s' hrun
  have hon := isOn_of_getOrCreateTopic hrun
  rw [take_testedPath_eq_iff.mpr h, or_self] at hon
  exact hon

theorem sessionOpens_of_length (h : topicName.length ≤ 496) :
    SessionOpens topicName (testedPath topicName) := by
  intro st r st' th t hrun hth ht
  obtain ⟨⟨opened, created⟩, m, hselect, hselects⟩ := SessionState.selects_handleSetTopic hrun
  cases opened with
  | none => cases (hselects.of_none rfl).symm.trans hth
  | some topic =>
    obtain ⟨th', hth', ht'⟩ := hselects.of_some topic rfl
    cases hth'.symm.trans hth
    cases ht'.symm.trans ht
    have hon := isOn_of_selectTopic hselect
    rw [take_testedPath_eq_iff.mpr h, or_self] at hon
    exact hon

/-! ### Longer names -/

/-- The file that `topic_exists` tests and its directories are there, and every call succeeds. -/
def storedMachine (topicName : Bytes) : Machine where
  fs := { FileSystem.ofFile (testedPath topicName) [] with
    dirs := fun p => decide (p.absolute = (resolve (testedPath topicName)).absolute) &&
      p.parts.isPrefixOf (resolve (testedPath topicName)).parts.dropLast }
  faults := []
  chunk := none
  client := ⟨[], [], []⟩

theorem topicExists_storedMachine (topicName : Bytes) :
    (topicExists topicName defaultTopicBasePath).exec (storedMachine topicName) =
      some (true, storedMachine topicName) := by
  have hread : (storedMachine topicName).fs.read (testedPath topicName) = some [] :=
    FileSystem.read_ofFile _ _
  refine CallProgram.run_bind_eq_some_iff.mpr
    ⟨some (testedPath topicName), storedMachine topicName, rfl, ?_⟩
  refine (exec_fopenRead _).trans ?_
  rw [hread]
  rfl

/-- Whichever path the chunk is given, its load succeeds. -/
theorem chunkLoad_storedMachine (topicName path : Bytes) :
    ∃ s', chunkLoad.exec { storedMachine topicName with chunk := some ⟨path, [], 0, 0, 0⟩ } =
      some (0, s') := by
  have hempty : ((storedMachine topicName).fs.read path).getD [] = [] := by
    change (Function.update (fun _ => none) (resolve (testedPath topicName)) (some ([] : Bytes))
      (resolve path)).getD [] = []
    rw [Function.update_apply]
    split <;> rfl
  have hzero := Writer.chunkLoad_ok ⟨path, [], 0, 0, 0⟩ ((storedMachine topicName).fs.read path)
    (by rw [hempty]; decide)
  have hrun := exec_chunkLoad
    (s := { storedMachine topicName with chunk := some ⟨path, [], 0, 0, 0⟩ }) rfl
  exact ⟨_, hrun.trans (congrArg (fun r => some (r, _)) hzero)⟩

theorem getOrCreateTopic_storedMachine (topicName : Bytes) :
    ∃ s', (getOrCreateTopic topicName).exec (storedMachine topicName) =
      some (some ⟨some topicName, some ((testedPath topicName).take 511)⟩, s') := by
  obtain ⟨s', hload⟩ := chunkLoad_storedMachine topicName ((testedPath topicName).take 511)
  refine ⟨s', CallProgram.run_bind_eq_some_iff.mpr
    ⟨true, storedMachine topicName, topicExists_storedMachine topicName, ?_⟩⟩
  exact CallProgram.run_bind_eq_some_iff.mpr ⟨true, storedMachine topicName, rfl,
    CallProgram.run_bind_eq_some_iff.mpr ⟨true, storedMachine topicName, rfl,
    CallProgram.run_bind_eq_some_iff.mpr ⟨true, storedMachine topicName, rfl,
    CallProgram.run_bind_eq_some_iff.mpr ⟨true, _, rfl,
    CallProgram.run_bind_eq_some_iff.mpr ⟨0, s', hload, rfl⟩⟩⟩⟩⟩

theorem selectTopic_storedMachine (topicName : Bytes) :
    ∃ s', (selectTopic topicName).exec (storedMachine topicName) =
      some ((some ⟨some topicName, some ((testedPath topicName).take 511)⟩, false), s') := by
  obtain ⟨s', hload⟩ := chunkLoad_storedMachine topicName ((testedPath topicName).take 511)
  refine ⟨s', CallProgram.run_bind_eq_some_iff.mpr ⟨true, storedMachine topicName, rfl,
    CallProgram.run_bind_eq_some_iff.mpr
      ⟨true, storedMachine topicName, topicExists_storedMachine topicName,
        CallProgram.run_bind_eq_some_iff.mpr ⟨_, s', ?_, rfl⟩⟩⟩⟩
  exact CallProgram.run_bind_eq_some_iff.mpr ⟨true, storedMachine topicName, rfl,
    CallProgram.run_bind_eq_some_iff.mpr ⟨true, storedMachine topicName, rfl,
    CallProgram.run_bind_eq_some_iff.mpr ⟨true, storedMachine topicName, rfl,
    CallProgram.run_bind_eq_some_iff.mpr ⟨true, _, rfl,
    CallProgram.run_bind_eq_some_iff.mpr ⟨0, s', hload, rfl⟩⟩⟩⟩⟩

/-- What a publish opens is on the cut path. -/
theorem take_testedPath_of_publishOpens (h : PublishOpens topicName path) :
    (testedPath topicName).take 511 = path := by
  obtain ⟨s', hrun⟩ := getOrCreateTopic_storedMachine topicName
  exact (h _ _ s' hrun).1 _ rfl

/-- A fresh session on the machine. -/
def storedSession (topicName : Bytes) : SessionState :=
  ⟨⟨(storedMachine topicName).fs, [], .empty, .empty⟩, .fresh, ⟨[], [], []⟩⟩

theorem take_testedPath_of_sessionOpens (h : SessionOpens topicName path) :
    (testedPath topicName).take 511 = path := by
  obtain ⟨r, st', hrun⟩ := SessionState.total_setTopic topicName (storedSession topicName)
  obtain ⟨result, m, hselect, hselects⟩ := SessionState.selects_handleSetTopic hrun
  obtain ⟨s', hselect'⟩ := selectTopic_storedMachine topicName
  obtain ⟨rfl, -⟩ := Prod.mk.inj (Option.some.inj (hselect'.symm.trans hselect))
  obtain ⟨th, hth, ht⟩ := hselects.of_some _ rfl
  exact (h _ r st' th _ hrun hth ht).1 _ rfl

/-- A publish and a session open the file whose existence has been tested exactly for a name of at
most 496 bytes. For a longer name this takes a file that exists, so that each part of the name must
be one that the file system can hold. -/
theorem opens_tested_iff (topicName : Bytes) :
    (PublishOpens topicName (testedPath topicName) ↔ topicName.length ≤ 496) ∧
      (SessionOpens topicName (testedPath topicName) ↔ topicName.length ≤ 496) :=
  ⟨⟨fun h => take_testedPath_eq_iff.mp (take_testedPath_of_publishOpens h),
      publishOpens_of_length⟩,
    ⟨fun h => take_testedPath_eq_iff.mp (take_testedPath_of_sessionOpens h),
      sessionOpens_of_length⟩⟩

/-- A directory and a topic in it, both with names of 248 bytes, so that the name of the file has
254 bytes. -/
def nestedName : Bytes := List.replicate 248 97 ++ ascii "/" ++ List.replicate 248 98

theorem not_opens_nestedName : ¬ PublishOpens nestedName (testedPath nestedName) ∧
    ¬ SessionOpens nestedName (testedPath nestedName) := by
  have hlen : nestedName.length = 497 := by
    simp only [nestedName, List.length_append, List.length_replicate]
    rfl
  have hlong : ¬ nestedName.length ≤ 496 := by omega
  exact ⟨fun h => hlong (take_testedPath_eq_iff.mp (take_testedPath_of_publishOpens h)),
    fun h => hlong (take_testedPath_eq_iff.mp (take_testedPath_of_sessionOpens h))⟩

end SuparnaD
