import SuparnaD.Foundation.Runs
import SuparnaD.Socket.Ownership

/-!
# The sessions of the server

The server runs one session for each client. All sessions work on one world, and they take turns
command by command. A session that ends frees its group and its topic, and its place may be taken by
a new session.

No two sessions hold the same group, and what one session does leaves the groups of the others as
they were.

## Main definitions

* `SessionState.selection` : the topic and the group that a session has selected.
* `Server`, `ServerOp`, `Server.step`.
* `Server.Owned` : each group belongs to one session.

## Main results

* `Server.Owned.update`, `Server.Owned.selection_of_ne`.
* `SessionState.recordedCommand_cases` : what one command does.
-/

namespace SuparnaD

open SessionM

namespace SessionState

variable {st st' : SessionState} {gh th : ℕ} {g : Group}

/-- The name of the topic and the id of the group that the session has selected, and the group. -/
def selection (st : SessionState) : Option ((Bytes × Bytes) × Group) := do
  let gh ← st.session.group
  let th ← st.session.topic
  let g ← st.world.groups.get gh
  let topicName ← st.session.topicName
  if g.attachedTopic = th then some ((topicName, g.groupId), g) else none

theorem selection_eq_some_iff {k : Bytes × Bytes} : st.selection = some (k, g) ↔
    ∃ gh th, st.HasGroup gh th g ∧ st.session.topicName = some k.1 ∧ g.groupId = k.2 := by
  constructor
  · intro h
    obtain ⟨gh, hgh, h⟩ := Option.bind_eq_some_iff.mp h
    obtain ⟨th, hth, h⟩ := Option.bind_eq_some_iff.mp h
    obtain ⟨g', hg, h⟩ := Option.bind_eq_some_iff.mp h
    obtain ⟨topicName, hname, h⟩ := Option.bind_eq_some_iff.mp h
    split_ifs at h with hattached
    obtain ⟨rfl, rfl⟩ := Prod.mk.inj (Option.some.inj h)
    exact ⟨gh, th, ⟨hgh, hth, hg, hattached⟩, hname, rfl⟩
  · rintro ⟨gh, th, hhas, hname, hid⟩
    rw [selection, hhas.group, hhas.topic]
    simp only [Option.bind_eq_bind, Option.bind_some, hhas.object, hname, hhas.attached,
      ↓reduceIte, hid]

/-- Sessions that hold the same object under the same names have selected the same. -/
theorem selection_congr (hsession : st'.session = st.session)
    (hobject : ∀ gh, st.session.group = some gh →
      st'.world.groups.get gh = st.world.groups.get gh) : st'.selection = st.selection := by
  rw [selection, selection, hsession]
  cases hgh : st.session.group with
  | none => rfl
  | some gh => simp only [Option.bind_eq_bind, Option.bind_some, hobject gh hgh]

end SessionState

/-! ### Commands on record -/

/-- `process_client_command` with a record of the packets handed out. -/
def recordedCommand (text : Bytes) : SessionM (List Attempt × ℤ) :=
  if startsWith commandConsume text then recordedConsumeCommand
  else (fun r => ([], r)) <$> processClientCommand text

theorem snd_recordedCommand (text : Bytes) :
    Prod.snd <$> recordedCommand text = processClientCommand text := by
  rw [recordedCommand]
  split_ifs with hconsume
  · rw [snd_recordedConsumeCommand, processClientCommand_consume hconsume]
  · rw [← comp_map]
    exact id_map _

namespace SessionState

variable {st st' : SessionState} {gh th : ℕ} {g g' : Group}

/-- The topic and the group that the command selects, if it succeeds. -/
def selects (st : SessionState) (text : Bytes) : Option (Bytes × Bytes) :=
  if startsWith commandSetGroup text then
    st.session.topic.bind fun _ => st.session.topicName.map fun topicName =>
      (topicName, commandArgument commandSetGroup text)
  else if startsWith commandSetTopic text then
    st.session.groupId.map fun groupId => (commandArgument commandSetTopic text, groupId)
  else none

/-- The session has touched its own and fresh objects only, and holds no other group. -/
structure KeepsToOwn (st st' : SessionState) : Prop where
  confined : st.Confined st'
  bounded : st'.Bounded
  group : ∀ gh, st'.session.group = some gh →
    st.session.group = some gh ∨ st.world.groups.fresh ≤ gh ∧ gh < st'.world.groups.fresh

/-- The session has no group any more, its old one without its topic, or a new one of a topic and a
group id that the command selects. -/
structure SelectsAnew (st st' : SessionState) (text : Bytes) : Prop extends KeepsToOwn st st' where
  selection : ∀ k g, st'.selection = some (k, g) → st.selects text = some k ∧ g.readPointer = 0

/-- `SET_GROUP` keeps the topic of the session. -/
theorem topic_setGroup {groupName : Bytes} {r : ℤ}
    (hrun : handleSetGroup groupName st = some (r, st')) :
    st'.session.topic = st.session.topic := by
  rcases handleSetGroup_cases hrun with ⟨-, rfl⟩ | ⟨th, st₁, -, hrenew, rfl⟩
  · rfl
  · have htopic := congrArg ClientSession.topic (renewed_renewGroup hrenew).session
    exact htopic

theorem Reselected.selectsAnew {text : Bytes} {topicName groupId : Option Bytes}
    (hbounded : st.Bounded) (h : st.Reselected st' topicName groupId)
    (hselects : ∀ th k, st'.session.topic = some th → topicName = some k.1 → groupId = some k.2 →
      st.selects text = some k) : st.SelectsAnew st' text := by
  refine ⟨⟨h.confined, hbounded.of_reselected h, fun gh hgh => ?_⟩, fun k g hk => ?_⟩
  · rcases h.group with hnone | ⟨hsame, -⟩ | ⟨gh', th, name, hgh', -, hfresh, -, -, hnew⟩
    · cases hnone.symm.trans hgh
    · exact .inl (hsame.symm.trans hgh)
    · cases hgh'.symm.trans hgh
      exact .inr ⟨hfresh, HandleHeap.lt_fresh_of_get hnew⟩
  · obtain ⟨gh, th, hhas, hname, hid⟩ := selection_eq_some_iff.mp hk
    rcases h.group with hnone | ⟨hsame, hgroups, hfresh⟩ |
      ⟨gh', th', name, hgh', hth', -, hgroupId, htopicName, hnew⟩
    · cases hnone.symm.trans hhas.group
    · -- The old group is attached to a topic that was there before.
      have hobject := (hgroups gh).symm.trans hhas.object
      have hlt := hbounded.attached gh g (hsame.symm.trans hhas.group) hobject
      have hge := hfresh th hhas.topic
      rw [hhas.attached] at hlt
      omega
    · cases hgh'.symm.trans hhas.group
      cases hnew.symm.trans hhas.object
      refine ⟨hselects th k hhas.topic (htopicName.symm.trans hname) ?_, rfl⟩
      rw [hgroupId, ← hid]

theorem selectsAnew_clientSessionFree (text : Bytes) {r : Unit}
    (hrun : clientSessionFree st = some (r, st')) : st.SelectsAnew st' text := by
  obtain ⟨st'', hrun', hconfined, hfresh⟩ := run_clientSessionFree st
  obtain ⟨-, rfl⟩ := Prod.mk.inj (Option.some.inj (hrun.symm.trans hrun'))
  have hgroup : st'.session.group = none := congrArg ClientSession.group hfresh
  have htopic : st'.session.topic = none := congrArg ClientSession.topic hfresh
  refine ⟨⟨hconfined, ⟨fun th hth => ?_, fun gh g hgh => ?_⟩, fun gh hgh => ?_⟩,
    fun k g hk => ?_⟩
  · cases htopic.symm.trans hth
  · cases hgroup.symm.trans hgh
  · cases hgroup.symm.trans hgh
  · obtain ⟨gh, th, hhas, -⟩ := selection_eq_some_iff.mp hk
    cases hgroup.symm.trans hhas.group

theorem Idle.selection (h : st.Idle st') : st'.selection = st.selection :=
  selection_congr h.session fun gh _ => h.groups gh

/-- What the session has selected, if it has a group on its topic. -/
theorem HasGroup.selection (h : st.HasGroup gh th g) :
    st.selection = st.session.topicName.map fun topicName => ((topicName, g.groupId), g) := by
  rw [SessionState.selection, h.group, h.topic]
  cases hname : st.session.topicName <;>
    simp only [Option.bind_eq_bind, Option.bind_some, Option.bind_none, h.object, h.attached,
      ↓reduceIte, Option.map_none, Option.map_some]

theorem HandsOut.selection {record : List Attempt} {d : Bytes}
    (h : st.HandsOut st' record gh th g d) : st'.selection =
      st.session.topicName.map fun topicName => ((topicName, g.groupId), afterPacket g d) := by
  have hhas : st'.HasGroup gh th (afterPacket g d) :=
    ⟨h.session ▸ h.has.group, h.session ▸ h.has.topic, h.object', h.has.attached⟩
  rw [hhas.selection, h.session]
  rfl

/-- What a command other than `ACK` does: it changes no group, it hands out a packet of the group of
the session, or it selects. -/
theorem recordedCommand_cases (hs : st.world.Sound) (hbounded : st.Bounded) {text : Bytes}
    (hack : startsWith commandAck text = false) {record : List Attempt} {r : ℤ}
    (hrun : recordedCommand text st = some ((record, r), st')) :
    record = [] ∧ st.Idle st' ∨
      startsWith commandConsume text = true ∧ (∃ gh th g d, st.HandsOut st' record gh th g d) ∨
      record = [] ∧ startsWith commandConsume text = false ∧ st.SelectsAnew st' text := by
  rw [recordedCommand] at hrun
  by_cases hconsume : startsWith commandConsume text = true
  · rw [if_pos hconsume] at hrun
    rcases consume_cases hs hrun with ⟨hidle, hrecord⟩ | hout
    · exact .inl ⟨hrecord, hidle⟩
    · exact .inr (.inl ⟨hconsume, hout⟩)
  rw [if_neg hconsume] at hrun
  obtain ⟨r', hcommand, heq⟩ := SessionM.map_eq_some_iff.mp hrun
  obtain ⟨rfl, rfl⟩ := Prod.mk.inj heq
  rw [processClientCommand, if_neg hconsume, hack, if_neg Bool.false_ne_true] at hcommand
  rw [Bool.not_eq_true] at hconsume
  split_ifs at hcommand with hsetGroup hsetTopic
  · refine .inr (.inr ⟨rfl, hconsume, (reselected_setGroup hcommand).selectsAnew hbounded ?_⟩)
    intro th k hth hname hid
    rw [selects, if_pos hsetGroup, ← topic_setGroup hcommand, hth, hname, Option.some.inj hid]
    rfl
  · refine .inr (.inr ⟨rfl, hconsume, (reselected_setTopic hcommand).selectsAnew hbounded ?_⟩)
    intro th k _ hname hid
    rw [selects, if_neg hsetGroup, if_pos hsetTopic, hid, Option.some.inj hname]
    rfl
  · rw [reply_return] at hcommand
    obtain ⟨-, rfl⟩ := Prod.mk.inj (Option.some.inj hcommand)
    exact .inl ⟨rfl, idle_replied st unknownCommand⟩

theorem Idle.keepsToOwn (hbounded : st.Bounded) (h : st.Idle st') : st.KeepsToOwn st' :=
  ⟨h.confined, hbounded.of_idle h, fun _ hgh => .inl (h.session ▸ hgh)⟩

/-- The session has moved its group. -/
theorem keepsToOwn_of_moved (hbounded : st.Bounded) (hsession : st'.session = st.session)
    (hconfined : st.Confined st') (hhas : st.HasGroup gh th g)
    (hobject : st'.world.groups.get gh = some g') (hattached : g'.attachedTopic = g.attachedTopic) :
    st.KeepsToOwn st' :=
  ⟨hconfined, hbounded.of_moved hsession hconfined hhas hobject hattached,
    fun _ hgh => .inl (hsession ▸ hgh)⟩

/-- A command touches the objects of its session and fresh objects only. -/
theorem keepsToOwn_recordedCommand (hs : st.world.Sound) (hbounded : st.Bounded) {text : Bytes}
    {r : List Attempt × ℤ} (hrun : recordedCommand text st = some (r, st')) :
    st.KeepsToOwn st' := by
  by_cases hack : startsWith commandAck text = true
  · rw [recordedCommand, if_neg (not_startsWith_consume_of_ack hack)] at hrun
    obtain ⟨r', hcommand, -⟩ := SessionM.map_eq_some_iff.mp hrun
    rw [processClientCommand_ack hack] at hcommand
    rcases ack_cases hs hcommand with ⟨h, -⟩ | ⟨gh, th, g, g', h⟩
    · exact h.keepsToOwn hbounded
    · exact keepsToOwn_of_moved hbounded h.session h.confined h.has h.object' h.same.attachedTopic
  rw [Bool.not_eq_true] at hack
  rcases recordedCommand_cases hs hbounded hack hrun with
    ⟨-, h⟩ | ⟨-, gh, th, g, d, h⟩ | ⟨-, -, h⟩
  · exact h.keepsToOwn hbounded
  · exact keepsToOwn_of_moved hbounded h.session h.confined h.has h.object' rfl
  · exact h.toKeepsToOwn

end SessionState

/-! ### All sessions -/

/-- The world and the sessions with their clients. -/
structure Server where
  /-- The world. -/
  world : World
  /-- The sessions. A session that has not begun is fresh. -/
  sessions : ℕ → ClientSession
  /-- The clients of the sessions. -/
  clients : ℕ → Client

/-- What can happen at the server. -/
inductive ServerOp where
  /-- A session processes a command. -/
  | command (i : ℕ) (text : Bytes)
  /-- A session ends. -/
  | disconnect (i : ℕ)
  deriving DecidableEq, Repr

/-- The session that takes its turn. -/
def ServerOp.session : ServerOp → ℕ
  | .command i _ => i
  | .disconnect i => i

namespace Server

/-- The server as one session sees it. -/
def view (s : Server) (i : ℕ) : SessionState := ⟨s.world, s.sessions i, s.clients i⟩

/-- The server after one session has come to a new state. -/
def update (s : Server) (i : ℕ) (st : SessionState) : Server where
  world := st.world
  sessions := Function.update s.sessions i st.session
  clients := Function.update s.clients i st.client

/-- One turn of one session. -/
def step (s : Server) : ServerOp → Option ((List Attempt × ℤ) × Server)
  | .command i text => (recordedCommand text (s.view i)).map fun r => (r.1, s.update i r.2)
  | .disconnect i => (clientSessionFree (s.view i)).map fun r => (([], 0), s.update i r.2)

/-- Each group belongs to one session. -/
structure Owned (s : Server) : Prop where
  sound : s.world.Sound
  bounded : ∀ i, (s.view i).Bounded
  made : ∀ i gh, (s.sessions i).group = some gh → gh < s.world.groups.fresh
  apart : ∀ i j gh, (s.sessions i).group = some gh → (s.sessions j).group = some gh → i = j

variable {s : Server} {i j : ℕ} {st' : SessionState}

@[simp] theorem view_update_self (s : Server) (i : ℕ) (st' : SessionState) :
    (s.update i st').view i = st' := by
  simp only [view, update, Function.update_self]

theorem view_update_of_ne (h : j ≠ i) (s : Server) (st' : SessionState) :
    (s.update i st').view j = ⟨st'.world, s.sessions j, s.clients j⟩ := by
  simp only [view, update, Function.update_of_ne h]

/-- The groups of the other sessions are as they were. -/
theorem Owned.get_of_ne (h : s.Owned) (hconfined : (s.view i).Confined st') (hne : j ≠ i) {gh : ℕ}
    (hgh : (s.sessions j).group = some gh) :
    st'.world.groups.get gh = s.world.groups.get gh :=
  hconfined.groups gh (fun hi => hne (h.apart j i gh hgh hi)) (h.made j gh hgh)

theorem Owned.selection_of_ne (h : s.Owned) (hconfined : (s.view i).Confined st') (hne : j ≠ i) :
    ((s.update i st').view j).selection = (s.view j).selection := by
  rw [view_update_of_ne hne]
  exact SessionState.selection_congr rfl fun gh hgh => h.get_of_ne hconfined hne hgh

/-- A session that has touched its own and fresh objects only leaves each group to one session. -/
theorem Owned.update (h : s.Owned) (hkeeps : (s.view i).KeepsToOwn st') :
    (s.update i st').Owned := by
  obtain ⟨hconfined, hbounded, hgroup⟩ := hkeeps
  have hself : (s.update i st').sessions i = st'.session := Function.update_self ..
  have hother {j : ℕ} (hne : j ≠ i) : (s.update i st').sessions j = s.sessions j :=
    Function.update_of_ne hne ..
  -- A group of another session is not the group that this session now holds.
  have hapart {j gh : ℕ} (hne : j ≠ i) (hj : (s.sessions j).group = some gh) :
      st'.session.group ≠ some gh := by
    intro hi
    rcases hgroup gh hi with hold | ⟨hfresh, -⟩
    · exact hne (h.apart j i gh hj hold)
    · exact absurd (h.made j gh hj) (Nat.not_lt.mpr hfresh)
  refine ⟨hconfined.keepsSound h.sound, fun j => ?_, fun j gh hj => ?_, fun j k gh hj hk => ?_⟩
  · by_cases hne : j = i
    · rw [hne, view_update_self]
      exact hbounded
    · rw [view_update_of_ne hne]
      refine ⟨fun th hth => ?_, fun gh g hgh hg => ?_⟩
      · exact Nat.lt_of_lt_of_le ((h.bounded j).topic th hth) hconfined.topicsFresh
      · have hg' : s.world.groups.get gh = some g := (h.get_of_ne hconfined hne hgh).symm.trans hg
        exact Nat.lt_of_lt_of_le ((h.bounded j).attached gh g hgh hg') hconfined.topicsFresh
  · by_cases hne : j = i
    · rw [hne, hself] at hj
      rcases hgroup gh hj with hold | ⟨-, hlt⟩
      · exact Nat.lt_of_lt_of_le (h.made i gh hold) hconfined.groupsFresh
      · exact hlt
    · rw [hother hne] at hj
      exact Nat.lt_of_lt_of_le (h.made j gh hj) hconfined.groupsFresh
  · by_cases hji : j = i <;> by_cases hki : k = i
    · rw [hji, hki]
    · rw [hji, hself] at hj
      rw [hother hki] at hk
      exact absurd hj (hapart hki hk)
    · rw [hother hji] at hj
      rw [hki, hself] at hk
      exact absurd hk (hapart hji hj)
    · rw [hother hji] at hj
      rw [hother hki] at hk
      exact h.apart j k gh hj hk

/-- A turn keeps the groups apart, and the other sessions keep what they have selected. -/
theorem Owned.step (h : s.Owned) {op : ServerOp} {r : List Attempt × ℤ} {s' : Server}
    (hstep : s.step op = some (r, s')) :
    s'.Owned ∧ ∀ j, j ≠ op.session → (s'.view j).selection = (s.view j).selection := by
  have hkeeps {st' : SessionState} (hs' : s.update op.session st' = s')
      (hkeeps : (s.view op.session).KeepsToOwn st') :
      s'.Owned ∧ ∀ j, j ≠ op.session → (s'.view j).selection = (s.view j).selection := by
    rw [← hs']
    exact ⟨h.update hkeeps, fun j hne => h.selection_of_ne hkeeps.confined hne⟩
  cases op with
  | command i text =>
    obtain ⟨⟨_, st'⟩, hrun, heq⟩ := Option.map_eq_some_iff.mp hstep
    exact hkeeps (Prod.mk.inj heq).2
      (SessionState.keepsToOwn_recordedCommand h.sound (h.bounded i) hrun)
  | disconnect i =>
    obtain ⟨⟨_, st'⟩, hrun, heq⟩ := Option.map_eq_some_iff.mp hstep
    exact hkeeps (Prod.mk.inj heq).2
      (SessionState.selectsAnew_clientSessionFree [] hrun).toKeepsToOwn

/-- A server without sessions. -/
def start (fs : FileSystem) (faults : List IoOutcome) (clients : ℕ → Client) : Server where
  world := ⟨fs, faults, .empty, .empty⟩
  sessions := fun _ => .fresh
  clients := clients

theorem owned_start (fs : FileSystem) (faults : List IoOutcome) (clients : ℕ → Client) :
    (start fs faults clients).Owned := by
  refine ⟨fun h t ht => ?_, fun i => ⟨fun th hth => ?_, fun gh g hgh => ?_⟩, fun i gh hgh => ?_,
    fun i j gh hgh => ?_⟩
  · cases HandleHeap.get_empty.symm.trans ht
  · cases hth
  · cases hgh
  · cases hgh
  · cases hgh

end Server

end SuparnaD
