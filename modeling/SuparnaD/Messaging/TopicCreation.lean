import SuparnaD.Foundation.Interleaving
import SuparnaD.Messaging.TopicWriting

/-!
# New topics

What `create_topic` leaves behind: the file holds `initialData` after what was there before, and the
chunk of the new topic shows these two bytes and has nothing to save. Directories are made on the
way, and no other file changes.

## Main definitions

* `Machine.SameFiles` : a program has changed directories and used up outcomes only.
* `Broker.OnDirectories` : the calls of a program are such that it does no more.
* `Machine.Grew` : a program has added to one file and changed no other.
* `Machine.ReachesSetup` : how far `create_topic` gets.

## Main results

* `exec_createTopic_cases`, `exec_createTopic`.
-/

namespace SuparnaD

open Broker

/-- The second state differs from the first in directories and used up outcomes only. -/
structure Machine.SameFiles (s s' : Machine) : Prop where
  files : s'.fs.files = s.fs.files
  client : s'.client = s.client
  chunk : s'.chunk = s.chunk
  faults : s.faults = [] → s'.faults = []

namespace Machine.SameFiles

theorem refl (s : Machine) : s.SameFiles s := ⟨rfl, rfl, rfl, id⟩

theorem trans {s t u : Machine} (h : s.SameFiles t) (h' : t.SameFiles u) : s.SameFiles u :=
  ⟨h'.files.trans h.files, h'.client.trans h.client, h'.chunk.trans h.chunk,
    fun hs => h'.faults (h.faults hs)⟩

theorem next (s : Machine) : s.SameFiles s.next := ⟨rfl, rfl, rfl, (Machine.kept_next s).faults⟩

theorem read {s s' : Machine} (h : s.SameFiles s') (path : Bytes) :
    s'.fs.read path = s.fs.read path := congrFun h.files (resolve path)

end Machine.SameFiles

/-- A program that changes directories and uses up outcomes only. -/
abbrev KeepsFiles {α : Type} (p : Broker α) : Prop :=
  CallProgram.Keeps perform Machine.SameFiles p

theorem FileSystem.files_mkdir (fs : FileSystem) (path : Bytes) :
    (fs.mkdir path).2.files = fs.files := by
  simp only [FileSystem.mkdir]
  split_ifs <;> rfl

/-- Allocation, the calls that make directories and the test whether a file exists. -/
def BrokerCall.OnDirectories : BrokerCall → Prop
  | .malloc | .stat _ | .mkdir _ | .fopenRead _ => True
  | _ => False

/-- The program issues such calls only. -/
abbrev Broker.OnDirectories {α : Type} (p : Broker α) : Prop :=
  p.Within BrokerCall.OnDirectories fun _ => True

theorem sameFiles_of_perform {c : BrokerCall} (h : c.OnDirectories) {s s' : Machine}
    {r : brokerCalls.Answer c} (hcall : perform c s = some (r, s')) : s.SameFiles s' := by
  cases c with
  | malloc | stat _ | fopenRead _ =>
    obtain ⟨-, rfl⟩ := Prod.mk.inj (Option.some.inj hcall)
    exact .next s
  | mkdir path =>
    rw [perform] at hcall
    split_ifs at hcall
    · obtain ⟨-, rfl⟩ := Prod.mk.inj (Option.some.inj hcall)
      exact ⟨FileSystem.files_mkdir s.fs path, rfl, rfl, (Machine.kept_next s).faults⟩
    · obtain ⟨-, rfl⟩ := Prod.mk.inj (Option.some.inj hcall)
      exact .next s
  | _ => exact h.elim

theorem Broker.OnDirectories.keepsFiles {α : Type} {p : Broker α} (hp : p.OnDirectories) :
    KeepsFiles p := fun s _ _ hrun =>
  CallProgram.Within.invariant (J := s.SameFiles) hp
    (fun _ _ _ _ hc hcall ht => ht.trans (sameFiles_of_perform hc hcall)) hrun (.refl s)

theorem onDirectories_issue {c : BrokerCall} (h : c.OnDirectories) :
    Broker.OnDirectories (CallProgram.issue c : CallProgram brokerCalls _) :=
  ⟨h, fun _ => trivial⟩

theorem onDirectories_ensureDirectory (path : Bytes) : (ensureDirectory path).OnDirectories := by
  refine (onDirectories_issue (c := .stat path) trivial).bind fun found _ =>
    .ite (fun _ => trivial) fun _ => ?_
  refine (onDirectories_issue (c := .mkdir path) trivial).bind fun result _ => ?_
  cases result <;> trivial

theorem onDirectories_ensurePrefixes (before rest : Bytes) :
    (ensurePrefixes before rest).OnDirectories := by
  induction rest generalizing before with
  | nil => exact onDirectories_ensureDirectory before
  | cons b rest ih =>
    rw [ensurePrefixes]
    split
    · exact (onDirectories_ensureDirectory before).bind fun _ _ =>
        .ite (fun _ => trivial) fun _ => ih _
    · exact ih _

theorem onDirectories_ensureDirectoryExists (path : Bytes) :
    (ensureDirectoryExists path).OnDirectories :=
  (onDirectories_issue (c := .malloc) trivial).bind fun _ _ =>
    .ite (fun _ => trivial) fun _ => onDirectories_ensurePrefixes [] path

theorem onDirectories_buildTopicPath (topicName basePath : Bytes) :
    (buildTopicPath topicName basePath).OnDirectories :=
  (onDirectories_issue (c := .malloc) trivial).bind fun _ _ =>
    .ite (fun _ => trivial) fun _ => trivial

theorem onDirectories_topicExists (topicName basePath : Bytes) :
    (topicExists topicName basePath).OnDirectories := by
  refine (onDirectories_buildTopicPath topicName basePath).bind fun path _ => ?_
  cases path with
  | none => trivial
  | some path => exact onDirectories_issue (c := .fopenRead path) trivial

theorem onDirectories_createGroup (groupId : Option Bytes) (topic : ℕ) :
    (createGroup groupId topic).OnDirectories := by
  cases groupId with
  | none => trivial
  | some groupId =>
    refine .ite (fun _ => trivial) fun _ => ?_
    refine (onDirectories_issue (c := .malloc) trivial).bind fun _ _ =>
      .ite (fun _ => trivial) fun _ => ?_
    exact (onDirectories_issue (c := .malloc) trivial).bind fun _ _ =>
      .ite (fun _ => trivial) fun _ => trivial

/-! ### The new file -/

/-- The second state differs from the first in the chunk and in used up outcomes only. -/
structure Machine.SameDisk (s s' : Machine) : Prop where
  fs : s'.fs = s.fs
  client : s'.client = s.client
  faults : s.faults = [] → s'.faults = []

/-- From the first state to the second only the file at the path has changed, and has only grown. -/
structure Machine.Grew (s s' : Machine) (path : Bytes) : Prop where
  client : s'.client = s.client
  faults : s.faults = [] → s'.faults = []
  others : ∀ p, resolve p ≠ resolve path → s'.fs.read p = s.fs.read p
  file : ∃ written, s'.file path = s.file path ++ written

namespace Machine

variable {s t u : Machine} {path : Bytes}

theorem SameFiles.grew (h : s.SameFiles t) (path : Bytes) : s.Grew t path :=
  ⟨h.client, h.faults, fun p _ => h.read p, [],
    by rw [Machine.file, Machine.file, h.read, List.append_nil]⟩

theorem Kept.sameDisk (h : s.Kept t) : s.SameDisk t := ⟨h.fs, h.client, h.faults⟩

theorem SameDisk.trans (h : s.SameDisk t) (h' : t.SameDisk u) : s.SameDisk u :=
  ⟨h'.fs.trans h.fs, h'.client.trans h.client, fun hs => h'.faults (h.faults hs)⟩

theorem SameDisk.file (h : s.SameDisk t) (path : Bytes) : t.file path = s.file path := by
  rw [Machine.file, h.fs, Machine.file]

theorem SameDisk.grew (h : s.SameDisk t) (path : Bytes) : s.Grew t path :=
  ⟨h.client, h.faults, fun _ _ => by rw [h.fs], [], by rw [h.file, List.append_nil]⟩

theorem Grew.trans (h : s.Grew t path) (h' : t.Grew u path) : s.Grew u path := by
  obtain ⟨a, ha⟩ := h.file
  obtain ⟨b, hb⟩ := h'.file
  exact ⟨h'.client.trans h.client, fun hs => h'.faults (h.faults hs),
    fun p hp => (h'.others p hp).trans (h.others p hp), a ++ b,
    by rw [hb, ha, List.append_assoc]⟩

end Machine

/-- The part of `create_topic` that sets up the chunk and the file. -/
def setUpTopic (topicName filePath : Bytes) : Broker (Option Topic) := do
  if !(← chunkInit filePath) then
    return none
  if (← chunkAppend initialData) ≠ 0 then
    chunkFree
    return none
  if (← chunkSaveDelta) ≠ 0 then
    chunkFree
    return none
  if !(← malloc) then
    chunkFree
    return none
  if !(← malloc) then
    chunkFree
    return none
  return some ⟨some topicName, some filePath⟩

theorem createTopic_eq (topicName basePath : Bytes) : createTopic topicName basePath =
    (if topicName.length = 0 then pure none
    else do
      if ← topicExists topicName basePath then
        return none
      if (← ensureDirectoryExists basePath) ≠ 0 then
        return none
      match ← buildTopicPath topicName basePath with
      | none => return none
      | some filePath => setUpTopic topicName filePath) := rfl

/-- No files, no chunk, and no faults to come. -/
def emptyMachine : Machine := ⟨⟨fun _ => none, fun _ => false⟩, [], none, ⟨[], [], []⟩⟩

variable {s s' : Machine} {path : Bytes}

/-- Giving the chunk up ends the setup. -/
theorem exec_giveUp {r : Option Topic} (hrun : (do
    chunkFree
    return none : Broker (Option Topic)).exec s = some (r, s')) :
    r = none ∧ s.SameDisk s' := by
  simp only [CallProgram.run_bind, exec_chunkFree, Option.bind_some, CallProgram.pure_eq_ret,
    CallProgram.run_ret, Option.some.injEq, Prod.mk.injEq] at hrun
  obtain ⟨rfl, rfl⟩ := hrun
  exact ⟨rfl, rfl, rfl, id⟩

/-- The end of the setup, where the topic and its name are allocated. -/
def nameTopic (topic : Topic) : Broker (Option Topic) := do
  if !(← malloc) then
    chunkFree
    return none
  if !(← malloc) then
    chunkFree
    return none
  return some topic

/-- The two last allocations keep what has been set up. -/
theorem exec_nameTopic {topic : Topic} {r : Option Topic}
    (hrun : (nameTopic topic).exec s = some (r, s')) :
    s.SameDisk s' ∧ (r.isSome → s'.chunk = s.chunk) := by
  obtain ⟨a, s₁, ha, hrun⟩ := CallProgram.run_bind_eq_some_iff.mp hrun
  obtain ⟨rfl, rfl⟩ := Prod.mk.inj (Option.some.inj ha)
  split at hrun
  · obtain ⟨rfl, hkept⟩ := exec_giveUp hrun
    exact ⟨(Machine.kept_next s).sameDisk.trans hkept, fun h => nomatch h⟩
  obtain ⟨b, s₂, hb, hrun⟩ := CallProgram.run_bind_eq_some_iff.mp hrun
  obtain ⟨rfl, rfl⟩ := Prod.mk.inj (Option.some.inj hb)
  have hkept₂ := ((Machine.kept_next s).trans (Machine.kept_next s.next)).sameDisk
  split at hrun
  · obtain ⟨rfl, hkept⟩ := exec_giveUp hrun
    exact ⟨hkept₂.trans hkept, fun h => nomatch h⟩
  · obtain ⟨rfl, rfl⟩ := CallProgram.run_pure_eq_some_iff.mp hrun
    exact ⟨hkept₂, fun _ => rfl⟩

/-- The setup adds to the file only, and a topic shows the initial data. -/
theorem exec_setUpTopic {topicName : Bytes} {r : Option Topic}
    (hrun : (setUpTopic topicName path).exec s = some (r, s')) :
    s.Grew s' path ∧ ∀ topic, r = some topic →
      s'.Shows path initialData ∧ s'.fs.read path = some (s.file path ++ initialData) := by
  obtain ⟨a, s₁, ha, hrun⟩ := CallProgram.run_bind_eq_some_iff.mp hrun
  obtain ⟨rfl, rfl⟩ := Prod.mk.inj (Option.some.inj ha)
  have hkept₁ : s.SameDisk { s.next with chunk := Writer.chunkInit s.outcome path } :=
    ⟨rfl, rfl, (Machine.kept_next s).faults⟩
  cases hinit : Writer.chunkInit s.outcome path with
  | none =>
    simp only [hinit] at hrun hkept₁
    obtain ⟨rfl, rfl⟩ := CallProgram.run_pure_eq_some_iff.mp hrun
    exact ⟨hkept₁.grew path, fun _ h => nomatch h⟩
  | some c =>
  simp only [hinit] at hrun hkept₁
  obtain ⟨hp, hc⟩ := Writer.chunkInit_represents hinit
  have hlog : ({ s.next with chunk := some c } : Machine).Logs path (.load []) := ⟨c, rfl, hp, hc⟩
  obtain ⟨r₂, s₂, happend, hrun⟩ := CallProgram.run_bind_eq_some_iff.mp hrun
  obtain ⟨hkept₂, hcases⟩ := hlog.exec_chunkAppend (by decide) (by decide) happend
  have hdisk₂ := hkept₁.trans hkept₂.sameDisk
  have hgrew₂ := hdisk₂.grew path
  rcases hcases with ⟨rfl, hlog₂⟩ | ⟨rfl, -, -⟩
  swap
  · obtain ⟨rfl, hkept⟩ := exec_giveUp hrun
    exact ⟨hgrew₂.trans (hkept.grew path), fun _ h => nomatch h⟩
  obtain ⟨r₃, s₃, hsave', hrun⟩ := CallProgram.run_bind_eq_some_iff.mp hrun
  obtain ⟨r₃', s₃', count, hsave, hclient, hwrote, hothers, hcases⟩ := hlog₂.exec_chunkSaveDelta
  obtain ⟨rfl, rfl⟩ := Prod.mk.inj (Option.some.inj (hsave.symm.trans hsave'))
  have hgrew₃ : s₂.Grew s₃' path := ⟨hclient, hwrote.faults, hothers, _, hwrote.file⟩
  rcases hcases with ⟨rfl, hdone, hsome, hlog₃⟩ | ⟨rfl, -, -⟩
  swap
  · obtain ⟨rfl, hkept⟩ := exec_giveUp hrun
    exact ⟨(hgrew₂.trans hgrew₃).trans (hkept.grew path), fun _ h => nomatch h⟩
  obtain ⟨hkept₄, hchunk⟩ := exec_nameTopic hrun
  refine ⟨(hgrew₂.trans hgrew₃).trans (hkept₄.grew path), fun topic ht => ?_⟩
  have hfile : s₃'.file path = s.file path ++ initialData := by
    rw [hwrote.file, List.take_of_length_le hdone, hdisk₂.file, DeltaLog.pending_append,
      DeltaLog.pending_load, List.nil_append]
  obtain ⟨content, hcontent⟩ := Option.isSome_iff_exists.mp (hsome (by
    rw [DeltaLog.pending_append, DeltaLog.pending_load]
    decide))
  rw [DeltaLog.commit_append_load, List.nil_append] at hlog₃
  obtain ⟨c', hs', hp', hc'⟩ := hlog₃
  refine ⟨⟨c', ?_, hp', hc'⟩, ?_⟩
  · rw [hchunk (by rw [ht]; rfl), hs']
  · rw [hkept₄.fs, hcontent, ← hfile, Machine.file, hcontent, Option.getD_some]

theorem exec_buildTopicPath {topicName basePath : Bytes} {r : Option Bytes}
    (hrun : (buildTopicPath topicName basePath).exec s = some (r, s')) :
    ∀ filePath, r = some filePath → filePath = topicPath topicName basePath := by
  obtain ⟨a, s₁, -, hrun⟩ := CallProgram.run_bind_eq_some_iff.mp hrun
  split at hrun <;> obtain ⟨rfl, -⟩ := CallProgram.run_pure_eq_some_iff.mp hrun
  · exact fun _ h => (Option.some.inj h).symm
  · exact fun _ h => nomatch h

/-- Without faults the check finds the file exactly when it is there. -/
theorem exec_topicExists {topicName basePath : Bytes} {found : Bool} (hfaults : s.faults = [])
    (hrun : (topicExists topicName basePath).exec s = some (found, s')) :
    found = (s.fs.read (topicPath topicName basePath)).isSome := by
  have hout := Machine.outcome_of_faults hfaults
  have hout' := Machine.outcome_of_faults ((Machine.kept_next s).faults hfaults)
  simp only [topicExists, buildTopicPath, CallProgram.run_bind, exec_malloc, hout,
    IoOutcome.ok_alloc, Option.bind_some, ↓reduceIte, CallProgram.pure_eq_ret, CallProgram.run_ret,
    exec_fopenRead, hout', IoOutcome.ok_opens, Bool.true_and, Option.some.injEq,
    Prod.mk.injEq] at hrun
  exact hrun.1.symm

/-! ### The whole function -/

namespace Machine

/-- `create_topic` gets as far as the setup of the chunk: the topic has not been found, its
directory is there and its path has been built. -/
def ReachesSetup (s t : Machine) (topicName basePath : Bytes) : Prop :=
  topicName.length ≠ 0 ∧ ∃ s₁ s₂, (topicExists topicName basePath).exec s = some (false, s₁) ∧
    (ensureDirectoryExists basePath).exec s₁ = some (0, s₂) ∧
    (buildTopicPath topicName basePath).exec s₂ = some (some (topicPath topicName basePath), t)

variable {t : Machine} {topicName basePath : Bytes}

/-- Before the setup no file is touched. -/
theorem ReachesSetup.sameFiles (h : s.ReachesSetup t topicName basePath) : s.SameFiles t := by
  obtain ⟨-, s₁, s₂, hfound, hmade, hbuild⟩ := h
  have hsame₁ : s.SameFiles s₁ := (onDirectories_topicExists topicName basePath).keepsFiles hfound
  have hsame₂ := hsame₁.trans ((onDirectories_ensureDirectoryExists basePath).keepsFiles hmade)
  exact hsame₂.trans ((onDirectories_buildTopicPath topicName basePath).keepsFiles hbuild)

/-- The setup is all that is left. -/
theorem ReachesSetup.exec_createTopic (h : s.ReachesSetup t topicName basePath) :
    (createTopic topicName basePath).exec s =
      (setUpTopic topicName (topicPath topicName basePath)).exec t := by
  obtain ⟨hname, s₁, s₂, hfound, hmade, hbuild⟩ := h
  rw [createTopic_eq, if_neg hname]
  simp only [CallProgram.run_bind, hfound, hmade, hbuild, Option.bind_some, Bool.false_eq_true,
    ↓reduceIte, ne_eq, not_true_eq_false]

end Machine

/-- `create_topic` gives up before it touches a file, or gets as far as the setup. -/
theorem exec_createTopic_cases {topicName basePath : Bytes} {r : Option Topic}
    (hrun : (createTopic topicName basePath).exec s = some (r, s')) :
    (r = none ∧ s.SameFiles s') ∨ ∃ t, s.ReachesSetup t topicName basePath ∧
      (setUpTopic topicName (topicPath topicName basePath)).exec t = some (r, s') := by
  have hend {t : Machine} (h : s.SameFiles t)
      (hpure : (pure none : Broker (Option Topic)).exec t = some (r, s')) :
      r = none ∧ s.SameFiles s' := by
    obtain ⟨rfl, rfl⟩ := CallProgram.run_pure_eq_some_iff.mp hpure
    exact ⟨rfl, h⟩
  rw [createTopic_eq] at hrun
  split_ifs at hrun with hname
  · exact .inl (hend (.refl s) hrun)
  obtain ⟨found, s₁, hfound, hrun⟩ := CallProgram.run_bind_eq_some_iff.mp hrun
  have hsame₁ : s.SameFiles s₁ := (onDirectories_topicExists topicName basePath).keepsFiles hfound
  cases found with
  | true => exact .inl (hend hsame₁ hrun)
  | false =>
  obtain ⟨made, s₂, hmade, hrun⟩ := CallProgram.run_bind_eq_some_iff.mp hrun
  have hsame₂ := hsame₁.trans ((onDirectories_ensureDirectoryExists basePath).keepsFiles hmade)
  by_cases hzero : made = 0
  swap
  · rw [if_pos hzero] at hrun
    exact .inl (hend hsame₂ hrun)
  subst hzero
  obtain ⟨filePath, t, hbuild, hrun⟩ := CallProgram.run_bind_eq_some_iff.mp hrun
  cases filePath with
  | none =>
    exact .inl (hend
      (hsame₂.trans ((onDirectories_buildTopicPath topicName basePath).keepsFiles hbuild)) hrun)
  | some filePath =>
    obtain rfl := exec_buildTopicPath hbuild filePath rfl
    exact .inr ⟨t, ⟨hname, s₁, s₂, hfound, hmade, hbuild⟩, hrun⟩

/-- `create_topic` adds to the file of the topic only. When it returns a topic, the check has not
found the file, and now the file ends with the initial data. -/
theorem exec_createTopic {topicName basePath : Bytes} {r : Option Topic}
    (hrun : (createTopic topicName basePath).exec s = some (r, s')) :
    s.Grew s' (topicPath topicName basePath) ∧
      ∀ topic, r = some topic → s'.Shows (topicPath topicName basePath) initialData ∧
        s'.fs.read (topicPath topicName basePath) =
          some (s.file (topicPath topicName basePath) ++ initialData) ∧
        (s.faults = [] → s.fs.read (topicPath topicName basePath) = none) := by
  rcases exec_createTopic_cases hrun with ⟨rfl, hsame⟩ | ⟨t, hreach, hsetup⟩
  · exact ⟨hsame.grew _, fun _ h => nomatch h⟩
  have hsame := hreach.sameFiles
  obtain ⟨hgrew, hset⟩ := exec_setUpTopic hsetup
  refine ⟨(hsame.grew _).trans hgrew, fun topic ht => ?_⟩
  obtain ⟨hshow, hfile⟩ := hset topic ht
  refine ⟨hshow, ?_, fun hfaults => ?_⟩
  · rw [hfile, Machine.file, Machine.file, hsame.read]
  · obtain ⟨-, s₁, -, hfound, -⟩ := hreach
    have := exec_topicExists hfaults hfound
    exact Option.not_isSome_iff_eq_none.mp (by rw [← this]; decide)

end SuparnaD
