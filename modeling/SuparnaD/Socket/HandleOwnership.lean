import SuparnaD.Foundation.Runs
import SuparnaD.Socket.Ownership

/-!
# Who frees the handles of a session

A session makes topic and group objects and should account for each of them: after every command
the only live objects that it has made are the topic and the group that it holds, none has been
freed twice, and `client_session_free` leaves none of them live.

`SET_TOPIC` frees the old topic only in the branch for a topic that exists. When the topic is to be
created, the new one, or null, is stored over the old one, which nobody can free any more.

## Main definitions

* `SessionM.Keeps`, `SessionM.Respected` : relations that the computations of a session respect.
* `SessionState.SameHandles` : no object has been made or freed.
* `SessionState.Owns`, `SessionState.Disposes`, `SessionState.Accounts` : what the session should
  account for.
* `SessionState.LosesNoTopic` : the command is no `SET_TOPIC` of a topic that is not found, in a
  session that has a topic.

## Main results

* `SessionState.Owns.command_iff` : a command keeps the account exactly when it loses no topic.
* `SessionState.accounts_iff`.
-/

namespace SuparnaD

open SessionM

/-! ### Relations that a computation respects -/

namespace SessionM

variable {α β : Type} {R : SessionState → SessionState → Prop}

/-- Every completed execution relates its initial state to its final state by `R`. -/
def Keeps (m : SessionM α) (R : SessionState → SessionState → Prop) : Prop :=
  ∀ ⦃st a st'⦄, m st = some (a, st') → R st st'

theorem Keeps.ite {b : Prop} [Decidable b] {m m' : SessionM α} (hm : m.Keeps R)
    (hm' : m'.Keeps R) : (if b then m else m').Keeps R := by
  split
  · exact hm
  · exact hm'

/-- A relation that programs of the broker respect, alone and on a topic and a group. -/
structure Respected (R : SessionState → SessionState → Prop) : Prop where
  refl : ∀ st, R st st
  trans : ∀ st t u, R st t → R t u → R st u
  detached : ∀ {α : Type} (p : Broker α), (SessionM.detached p).Keeps R
  onTopic : ∀ {α : Type} h (p : Broker α), (SessionM.onTopic h p).Keeps R
  onGroup : ∀ {α : Type} group topic (f : Group → Broker (α × Group)),
    (SessionM.onGroup group topic f).Keeps R

namespace Respected

variable (hR : Respected R)

include hR

theorem pure (a : α) : (pure a : SessionM α).Keeps R := by
  intro st b st' hrun
  obtain ⟨-, rfl⟩ := Prod.mk.inj (Option.some.inj hrun)
  exact hR.refl st

theorem bind {m : SessionM α} {f : α → SessionM β} (hm : m.Keeps R)
    (hf : ∀ a, (f a).Keeps R) : (m >>= f).Keeps R := by
  intro st b st' hrun
  obtain ⟨a, t, hrun₁, hrun₂⟩ := bind_eq_some_iff.mp hrun
  exact hR.trans _ _ _ (hm hrun₁) (hf a hrun₂)

theorem getSession : SessionM.getSession.Keeps R := by
  intro st a st' hrun
  obtain ⟨-, rfl⟩ := Prod.mk.inj (Option.some.inj hrun)
  exact hR.refl st

theorem getGroup (h : ℕ) : (SessionM.getGroup h).Keeps R := by
  intro st a st' hrun
  obtain ⟨-, rfl⟩ := getGroup_eq_some_iff.mp hrun
  exact hR.refl st

theorem malloc : SessionM.malloc.Keeps R := hR.bind (hR.detached _) fun _ => hR.pure _

/-- A reply and a result. -/
theorem answer (text : Bytes) (r : ℤ) : Keeps (do reply text; return r) R :=
  hR.bind (hR.bind (hR.detached _) fun _ => hR.pure _) fun _ => hR.pure r

theorem extractJsonValue (json key : Bytes) : (SuparnaD.extractJsonValue json key).Keeps R := by
  rw [SuparnaD.extractJsonValue]
  cases findJsonValue json key with
  | none => exact hR.pure _
  | some value => exact hR.bind hR.malloc fun _ => .ite (hR.pure _) (hR.pure _)

theorem handleConsumeCommand : SuparnaD.handleConsumeCommand.Keeps R := by
  refine hR.bind hR.getSession ?_
  rintro ⟨group, topic, groupId, topicName⟩
  cases group with
  | none => exact hR.answer _ _
  | some group =>
  cases topic with
  | none => exact hR.answer _ _
  | some topic =>
  refine hR.bind (hR.getGroup group) fun g => ?_
  refine hR.bind (hR.onTopic _ _) fun more => .ite (hR.answer _ _) ?_
  refine hR.bind (hR.onGroup _ _ _) fun packet => ?_
  cases packet with
  | none => exact hR.answer _ _
  | some packet => exact hR.bind (hR.detached _) fun _ => hR.pure _

theorem handleAckCommand (commandData : Bytes) :
    (SuparnaD.handleAckCommand commandData).Keeps R := by
  refine hR.bind hR.getSession ?_
  rintro ⟨group, topic, groupId, topicName⟩
  cases group with
  | none => exact hR.answer _ _
  | some group =>
  cases topic with
  | none => exact hR.answer _ _
  | some topic =>
  have hnext : (SessionState.ackNextPacket group topic).Keeps R :=
    hR.bind (hR.onGroup _ _ _) fun _ => .ite (hR.answer _ _) (hR.answer _ _)
  refine .ite (hR.bind (hR.extractJsonValue _ _) fun value => ?_) hnext
  cases value with
  | none => exact hnext
  | some packetSizeStr => exact hR.bind (hR.onGroup _ _ _) fun _ => .ite (hR.answer _ _) hnext

end Respected

end SessionM

/-! ### Computations that make and free no object -/

namespace SessionState

/-- The session holds the handles it held, and the same objects are live. -/
structure SameHandles (st st' : SessionState) : Prop where
  session : st'.session = st.session
  topics : ∀ h, (st'.world.topics.get h).isSome = (st.world.topics.get h).isSome
  topicsFresh : st'.world.topics.fresh = st.world.topics.fresh
  topicsFreed : st'.world.topics.freed = st.world.topics.freed
  groups : ∀ h, (st'.world.groups.get h).isSome = (st.world.groups.get h).isSome
  groupsFresh : st'.world.groups.fresh = st.world.groups.fresh
  groupsFreed : st'.world.groups.freed = st.world.groups.freed

theorem SameHandles.refl (st : SessionState) : st.SameHandles st :=
  ⟨rfl, fun _ => rfl, rfl, rfl, fun _ => rfl, rfl, rfl⟩

theorem SameHandles.trans {st st' st'' : SessionState} (h : st.SameHandles st')
    (h' : st'.SameHandles st'') : st.SameHandles st'' :=
  ⟨h'.session.trans h.session, fun k => (h'.topics k).trans (h.topics k),
    h'.topicsFresh.trans h.topicsFresh, h'.topicsFreed.trans h.topicsFreed,
    fun k => (h'.groups k).trans (h.groups k), h'.groupsFresh.trans h.groupsFresh,
    h'.groupsFreed.trans h.groupsFreed⟩

/-- Programs of the broker make and free no object. -/
theorem respected_sameHandles : Respected SameHandles where
  refl := .refl
  trans _ _ _ h h' := h.trans h'
  detached p := by
    rintro st ⟨a, chunk⟩ st' hrun
    obtain ⟨m, -, -, rfl⟩ := detached_eq_some_iff.mp hrun
    exact ⟨rfl, fun _ => rfl, rfl, rfl, fun _ => rfl, rfl, rfl⟩
  onTopic h p := by
    intro st a st' hrun
    obtain ⟨t, m, ht, -, rfl⟩ := onTopic_eq_some_iff.mp hrun
    have hlive : (st.world.topics.get h).isSome := by rw [ht, Option.isSome_some]
    exact ⟨rfl, HandleHeap.isSome_get_set hlive, HandleHeap.fresh_set, rfl, fun _ => rfl, rfl,
      rfl⟩
  onGroup group topic f := by
    intro st a st' hrun
    obtain ⟨g, t, m, g', hg, ht, -, rfl⟩ := onGroup_eq_some_iff.mp hrun
    have hlive : (st.world.topics.get topic).isSome := by rw [ht, Option.isSome_some]
    have hlive' : (st.world.groups.get group).isSome := by rw [hg, Option.isSome_some]
    exact ⟨rfl, HandleHeap.isSome_get_set hlive, HandleHeap.fresh_set, rfl,
      HandleHeap.isSome_get_set hlive', HandleHeap.fresh_set, rfl⟩

end SessionState

/-! ### The account of a session -/

namespace SessionState

variable {st₀ st st' : SessionState} {th : ℕ}

/-- Of the objects made since the first state the topic and the group of the session are live, and
no other, and none has been freed twice. -/
structure Owns (st₀ st : SessionState) : Prop where
  topics : HandleHeap.OwnedSince st₀.world.topics st.world.topics st.session.topic
  groups : HandleHeap.OwnedSince st₀.world.groups st.world.groups st.session.group

/-- `client_session_free` leaves none of the objects made since the first state live, and frees none
twice. -/
def Disposes (st₀ st : SessionState) : Prop :=
  ∃ st', clientSessionFree st = some ((), st') ∧
    HandleHeap.OwnedSince st₀.world.topics st'.world.topics none ∧
    HandleHeap.OwnedSince st₀.world.groups st'.world.groups none

/-- The session accounts for the objects made since the first state. -/
def Accounts (st₀ st : SessionState) : Prop := Owns st₀ st ∧ Disposes st₀ st

theorem Owns.congr (h : Owns st₀ st) (hsame : st.SameHandles st') : Owns st₀ st' := by
  refine ⟨?_, ?_⟩
  · rw [hsame.session]
    exact h.topics.congr hsame.topics hsame.topicsFresh hsame.topicsFreed
  · rw [hsame.session]
    exact h.groups.congr hsame.groups hsame.groupsFresh hsame.groupsFreed

theorem owns_self (h : st.session = .fresh) : Owns st st := by
  refine ⟨?_, ?_⟩
  · rw [h]
    exact .refl _
  · rw [h]
    exact .refl _

/-- The session frees the group that it holds. -/
theorem ownedSince_freeGroup {H₀ : HandleHeap Group} {group : Option ℕ}
    (h : HandleHeap.OwnedSince H₀ st.world.groups group) :
    ∃ st', freeGroup group st = some ((), st') ∧ st'.session = st.session ∧
      st'.world.topics = st.world.topics ∧ HandleHeap.OwnedSince H₀ st'.world.groups none := by
  cases group with
  | none => exact ⟨st, rfl, rfl, rfl, h⟩
  | some gh => exact ⟨_, rfl, rfl, rfl, h.free⟩

/-- The session frees the topic that it holds. -/
theorem ownedSince_freeTopic {H₀ : HandleHeap TopicObject} {topic : Option ℕ}
    (h : HandleHeap.OwnedSince H₀ st.world.topics topic) :
    ∃ st', freeTopic topic st = some ((), st') ∧ st'.session = st.session ∧
      st'.world.groups = st.world.groups ∧ HandleHeap.OwnedSince H₀ st'.world.topics none := by
  cases topic with
  | none => exact ⟨st, rfl, rfl, rfl, h⟩
  | some th => exact ⟨_, rfl, rfl, rfl, h.free⟩

/-- `client_session_free` frees what the session holds. -/
theorem Owns.disposes (h : Owns st₀ st) : Disposes st₀ st := by
  obtain ⟨st₁, hfree₁, -, htopics, hgroups₁⟩ := ownedSince_freeGroup h.groups
  obtain ⟨st₂, hfree₂, -, hgroups, htopics₂⟩ := ownedSince_freeTopic (htopics ▸ h.topics)
  refine ⟨{ st₂ with session := .fresh }, ?_, htopics₂, hgroups ▸ hgroups₁⟩
  rw [clientSessionFree_eq, getSession_bind, bind_of_eq_some hfree₁, bind_of_eq_some hfree₂]
  rfl

theorem accounts_iff_owns : Accounts st₀ st ↔ Owns st₀ st :=
  ⟨fun h => h.1, fun h => ⟨h, h.disposes⟩⟩

/-- A new group replaces the old one, which has been freed. -/
theorem Owns.renewGroup (h : Owns st₀ st) (hrun : SuparnaD.renewGroup th st = some ((), st')) :
    Owns st₀ st' := by
  rw [renewGroup_eq, getSession_bind] at hrun
  obtain ⟨st₁, hfree, hsession, htopics, hgroups⟩ := ownedSince_freeGroup h.groups
  rw [bind_of_eq_some hfree] at hrun
  obtain ⟨⟨r, chunk⟩, st₂, hcreate, hrun⟩ := bind_eq_some_iff.mp hrun
  obtain ⟨m, -, -, rfl⟩ := detached_eq_some_iff.mp hcreate
  obtain ⟨group, st₃, hnew, hrun⟩ := bind_eq_some_iff.mp hrun
  obtain ⟨-, rfl⟩ := Prod.mk.inj (Option.some.inj hrun)
  have htopic : HandleHeap.OwnedSince st₀.world.topics st₁.world.topics st₁.session.topic := by
    rw [htopics, hsession]
    exact h.topics
  cases r with
  | none =>
    obtain ⟨rfl, rfl⟩ := Prod.mk.inj (Option.some.inj hnew)
    exact ⟨htopic, hgroups⟩
  | some g =>
    obtain ⟨rfl, rfl⟩ := Prod.mk.inj (Option.some.inj hnew)
    exact ⟨htopic, hgroups.alloc g⟩

theorem Owns.setGroup {groupName : Bytes} {r : ℤ} (h : Owns st₀ st)
    (hrun : handleSetGroup groupName st = some (r, st')) : Owns st₀ st' := by
  have h' : Owns st₀ (st.withGroupId groupName) := ⟨h.topics, h.groups⟩
  rcases handleSetGroup_cases hrun with ⟨-, rfl⟩ | ⟨th, st₁, -, hrenew, rfl⟩
  · exact h'.congr (respected_sameHandles.answer _ _ (reply_return groupSet 0 _))
  · exact (h'.renewGroup hrenew).congr
      (respected_sameHandles.answer _ _ (reply_return groupSet 0 _))

theorem Owns.finishSelection {r : ℤ} (h : Owns st₀ st)
    (hrun : SessionState.finishSelection st = some (r, st')) : Owns st₀ st' := by
  rcases finishSelection_cases hrun with ⟨-, rfl⟩ | ⟨th, name, st₁, -, -, hrenew, rfl⟩
  · exact h.congr (respected_sameHandles.answer _ _ (reply_return topicSet 0 _))
  · exact (h.renewGroup hrenew).congr
      (respected_sameHandles.answer _ _ (reply_return topicSet 0 _))

/-- The rest of `SET_TOPIC` leaves the topics alone. -/
theorem topics_finishSelection {r : ℤ} (hrun : SessionState.finishSelection st = some (r, st')) :
    st'.world.topics = st.world.topics ∧ st'.session.topic = st.session.topic := by
  rcases finishSelection_cases hrun with ⟨-, rfl⟩ | ⟨th, name, st₁, -, -, hrenew, rfl⟩
  · exact ⟨rfl, rfl⟩
  · have hrenewed := renewed_renewGroup hrenew
    have htopic := congrArg ClientSession.topic hrenewed.session
    exact ⟨hrenewed.topics, htopic⟩

/-- `topic_exists` finds the topic. It is asked after the name has been copied. -/
def finds (st : SessionState) (topicName : Bytes) : Bool :=
  (st.machine none).outcome.alloc &&
    (((topicExists topicName defaultTopicBasePath).exec
      ((st.withTopicName topicName).machine none)).map Prod.fst).getD false

/-- The topics when `SET_TOPIC` makes the new one: the old one is freed only if the new one is
found. -/
def topicsForNew (st : SessionState) (topicName : Bytes) : HandleHeap TopicObject :=
  if st.finds topicName then
    match st.session.topic with
    | some th => st.world.topics.free th
    | none => st.world.topics
  else st.world.topics

/-- The session has stored a new topic, or null, and is otherwise as it was. -/
structure StoresTopic (st st' : SessionState) (topics : HandleHeap TopicObject) : Prop where
  groups : st'.world.groups = st.world.groups
  group : st'.session.group = st.session.group
  groupId : st'.session.groupId = st.session.groupId
  topic : st'.session.topic = none ∧ st'.world.topics = topics ∨
    ∃ t, st'.session.topic = some topics.fresh ∧ st'.world.topics = topics.alloc t

theorem storesTopic_withNewTopic {p : Broker (Option Topic)}
    (hrun : withNewTopic p st = some ((), st')) : StoresTopic st st' st.world.topics := by
  obtain ⟨⟨r, chunk⟩, st₁, hsetup, hrun⟩ := bind_eq_some_iff.mp hrun
  obtain ⟨m, -, -, rfl⟩ := detached_eq_some_iff.mp hsetup
  obtain ⟨topic, st₂, hnew, hrun⟩ := bind_eq_some_iff.mp hrun
  obtain ⟨-, rfl⟩ := Prod.mk.inj (Option.some.inj hrun)
  cases r with
  | none =>
    obtain ⟨rfl, rfl⟩ := Prod.mk.inj (Option.some.inj hnew)
    exact ⟨rfl, rfl, rfl, .inl ⟨rfl, rfl⟩⟩
  | some t =>
    obtain ⟨rfl, rfl⟩ := Prod.mk.inj (Option.some.inj hnew)
    exact ⟨rfl, rfl, rfl, .inr ⟨_, rfl, rfl⟩⟩

/-- `SET_TOPIC` stores a new topic and then renews the group. -/
theorem storesTopic_setTopic {topicName : Bytes} {r : ℤ}
    (hrun : handleSetTopic topicName st = some (r, st')) :
    ∃ st₁, StoresTopic st st₁ (st.topicsForNew topicName) ∧
      SessionState.finishSelection st₁ = some (r, st') := by
  rw [handleSetTopic_eq] at hrun
  cases halloc : (st.machine none).outcome.alloc with
  | false =>
    rw [halloc] at hrun
    have hfinds : st.finds topicName = false := by rw [finds, halloc, Bool.false_and]
    obtain ⟨⟨⟩, st₁, hnull, hrun⟩ := bind_eq_some_iff.mp hrun
    obtain ⟨-, rfl⟩ := Prod.mk.inj (Option.some.inj hnull)
    refine ⟨_, ?_, hrun⟩
    rw [topicsForNew, hfinds]
    exact ⟨rfl, rfl, rfl, .inl ⟨rfl, rfl⟩⟩
  | true =>
  rw [halloc, if_pos rfl] at hrun
  obtain ⟨found, st₁, hfound, hrun⟩ := bind_eq_some_iff.mp hrun
  obtain ⟨⟨_, _⟩, hdetached, rfl⟩ := map_eq_some_iff.mp hfound
  obtain ⟨m, hexec, -, rfl⟩ := detached_eq_some_iff.mp hdetached
  rename_i found _
  have hfinds : st.finds topicName = found := by
    rw [finds, halloc, hexec, Bool.true_and, Option.map_some, Option.getD_some]
  dsimp only at hrun
  rw [topicsForNew, hfinds]
  cases found with
  | true =>
    rw [if_pos rfl, getSession_bind] at hrun
    obtain ⟨⟨⟩, st₂, hfree, hrun₂⟩ := bind_eq_some_iff.mp hrun
    obtain ⟨⟨⟩, st₃, hset, hrun₃⟩ := bind_eq_some_iff.mp hrun₂
    have hstores := storesTopic_withNewTopic hset
    refine ⟨st₃, ?_, hrun₃⟩
    have htopic : ((st.withTopicName topicName).after m).session.topic = st.session.topic := rfl
    rw [htopic] at hfree
    cases htopic : st.session.topic with
    | none =>
      rw [htopic] at hfree
      obtain ⟨-, rfl⟩ := Prod.mk.inj (Option.some.inj hfree)
      exact ⟨hstores.groups, hstores.group, hstores.groupId, hstores.topic⟩
    | some th =>
      rw [htopic] at hfree
      obtain ⟨-, rfl⟩ := Prod.mk.inj (Option.some.inj hfree)
      exact ⟨hstores.groups, hstores.group, hstores.groupId, hstores.topic⟩
  | false =>
    obtain ⟨⟨⟩, st₃, hset, hrun⟩ := bind_eq_some_iff.mp hrun
    have hstores := storesTopic_withNewTopic hset
    exact ⟨st₃, ⟨hstores.groups, hstores.group, hstores.groupId, hstores.topic⟩, hrun⟩

theorem StoresTopic.owns {topics : HandleHeap TopicObject} (h : StoresTopic st st' topics)
    (htopics : HandleHeap.OwnedSince st₀.world.topics topics none)
    (hgroups : HandleHeap.OwnedSince st₀.world.groups st.world.groups st.session.group) :
    Owns st₀ st' := by
  refine ⟨?_, ?_⟩
  · rcases h.topic with ⟨htopic, hheap⟩ | ⟨t, htopic, hheap⟩
    · rw [htopic, hheap]
      exact htopics
    · rw [htopic, hheap]
      exact htopics.alloc t
  · rw [h.groups, h.group]
    exact hgroups

/-- `SET_TOPIC` keeps the account if it finds the topic or has none to lose. -/
theorem Owns.setTopic {topicName : Bytes} {r : ℤ} (h : Owns st₀ st)
    (hrun : handleSetTopic topicName st = some (r, st'))
    (hkeeps : st.session.topic = none ∨ st.finds topicName = true) : Owns st₀ st' := by
  obtain ⟨st₁, hstores, hfinish⟩ := storesTopic_setTopic hrun
  have htopics : HandleHeap.OwnedSince st₀.world.topics (st.topicsForNew topicName) none := by
    have hown := h.topics
    rw [topicsForNew]
    cases htopic : st.session.topic with
    | none =>
      rw [htopic] at hown
      rw [ite_self]
      exact hown
    | some th =>
      rw [htopic] at hown hkeeps
      rw [if_pos (hkeeps.resolve_left (Option.some_ne_none th))]
      exact hown.free
  exact (hstores.owns htopics h.groups).finishSelection hfinish

/-- `SET_TOPIC` of a topic that is not found loses the old topic. -/
theorem Owns.not_setTopic {topicName : Bytes} {r : ℤ} (h : Owns st₀ st)
    (hrun : handleSetTopic topicName st = some (r, st')) (htopic : st.session.topic = some th)
    (hfinds : st.finds topicName = false) : ¬ Owns st₀ st' := by
  intro h'
  obtain ⟨st₁, hstores, hfinish⟩ := storesTopic_setTopic hrun
  obtain ⟨hheap, hsession⟩ := topics_finishSelection hfinish
  have hkept : st.topicsForNew topicName = st.world.topics := by
    rw [topicsForNew, hfinds]
    rfl
  rw [hkept] at hstores
  have hge := h.topics.le th htopic
  have hlive := (h.topics.live_iff th hge).mpr htopic
  obtain ⟨t, ht⟩ := Option.isSome_iff_exists.mp hlive
  have hne : th ≠ st.world.topics.fresh := Nat.ne_of_lt (HandleHeap.lt_fresh_of_get ht)
  -- The old topic is live and is not the topic of the session.
  have hlost : (st₁.world.topics.get th).isSome ∧ st₁.session.topic ≠ some th := by
    rcases hstores.topic with ⟨hnone, hsame⟩ | ⟨t', hnew, halloc⟩
    · rw [hsame, hnone]
      exact ⟨hlive, (Option.some_ne_none th).symm⟩
    · rw [halloc, hnew, HandleHeap.get_alloc_of_ne hne]
      exact ⟨hlive, fun heq => hne (Option.some.inj heq).symm⟩
  rw [← hheap, ← hsession] at hlost
  exact hlost.2 ((h'.topics.live_iff th hge).mp hlost.1)

/-! ### Commands and runs -/

/-- If the command is a `SET_TOPIC`, the session has no topic yet or `topic_exists` finds the new
one. -/
def LosesNoTopic (st : SessionState) (text : Bytes) : Prop :=
  startsWith commandSetTopic text = true →
    st.session.topic = none ∨ st.finds (commandArgument commandSetTopic text) = true

instance (st : SessionState) (text : Bytes) : Decidable (st.LosesNoTopic text) :=
  inferInstanceAs (Decidable (_ → _))

/-- One command. -/
def command (st : SessionState) (text : Bytes) : Option (ℤ × SessionState) :=
  processClientCommand text st

/-- Two keywords, of which none begins with the other, do not begin the same command. -/
theorem not_startsWith_of_startsWith {a b text : Bytes} (ha : startsWith a text = true)
    (hab : startsWith a b = false) (hba : startsWith b a = false) :
    startsWith b text = false := by
  refine Bool.eq_false_iff.mpr fun hb => ?_
  have ha' := List.isPrefixOf_iff_prefix.mp ha
  have hb' := List.isPrefixOf_iff_prefix.mp hb
  rcases Nat.le_total a.length b.length with hle | hle
  · exact Bool.eq_false_iff.mp hab (List.isPrefixOf_iff_prefix.mpr
      (List.prefix_of_prefix_length_le ha' hb' hle))
  · exact Bool.eq_false_iff.mp hba (List.isPrefixOf_iff_prefix.mpr
      (List.prefix_of_prefix_length_le hb' ha' hle))

theorem processClientCommand_setTopic {text : Bytes}
    (h : startsWith commandSetTopic text = true) :
    processClientCommand text = handleSetTopic (commandArgument commandSetTopic text) := by
  rw [processClientCommand, not_startsWith_of_startsWith h rfl rfl,
    not_startsWith_of_startsWith h rfl rfl, not_startsWith_of_startsWith h rfl rfl, h]
  rfl

/-- A command keeps the account exactly when it loses no topic. -/
theorem Owns.command_iff {text : Bytes} {r : ℤ} (h : Owns st₀ st)
    (hrun : st.command text = some (r, st')) : Owns st₀ st' ↔ st.LosesNoTopic text := by
  by_cases hset : startsWith commandSetTopic text = true
  · rw [command, processClientCommand_setTopic hset] at hrun
    constructor
    · intro h' _
      by_contra hloses
      obtain ⟨htopic, hfinds⟩ := not_or.mp hloses
      obtain ⟨th, hth⟩ := Option.ne_none_iff_exists'.mp htopic
      exact h.not_setTopic hrun hth (Bool.eq_false_iff.mpr hfinds) h'
    · exact fun hkeeps => h.setTopic hrun (hkeeps hset)
  refine iff_of_true ?_ fun hset' => absurd hset' hset
  rw [command, processClientCommand] at hrun
  split_ifs at hrun
  · exact h.congr (respected_sameHandles.handleConsumeCommand hrun)
  · exact h.congr (respected_sameHandles.handleAckCommand _ hrun)
  · exact h.setGroup hrun
  · exact h.congr (respected_sameHandles.answer _ _ hrun)

/-- The session accounts for its objects after every command exactly when no command loses a
topic. -/
theorem accounts_iff (h : st₀.session = .fresh) (commands : List Bytes) :
    (Accounts st₀ st₀ ∧ ∀ e ∈ trace command st₀ commands, Accounts st₀ e.after) ↔
      ∀ e ∈ trace command st₀ commands, e.before.LosesNoTopic e.op := by
  rw [and_iff_right (accounts_iff_owns.mpr (owns_self h))]
  refine trace_iff (Owns st₀) (fun _ => True) (fun st text r st' hst hrun _ => ?_) (owns_self h)
    fun _ _ => trivial
  have hiff := hst.command_iff hrun
  exact ⟨accounts_iff_owns.trans hiff, hiff.mpr⟩

/-- A server that has just started, with a fresh session. -/
def started : SessionState :=
  ⟨⟨⟨fun _ => none, fun _ => false⟩, [], .empty, .empty⟩, .fresh, ⟨[], [], []⟩⟩

/-- Two topics, neither of which exists. -/
def sampleCommands : List Bytes := [ascii "SET_TOPIC a", ascii "SET_TOPIC b"]

theorem accounts_iff_sample :
    (Accounts started started ∧
        ∀ e ∈ trace command started sampleCommands, Accounts started e.after) ↔
      ∀ e ∈ trace command started sampleCommands, e.before.LosesNoTopic e.op :=
  accounts_iff rfl sampleCommands

/-- After the two commands the first topic is live, and the session holds the second. -/
theorem not_accounts_sample :
    ¬ ∀ e ∈ trace command started sampleCommands, Accounts started e.after := by
  intro h
  obtain ⟨e, he, hlive, htopic⟩ : ∃ e ∈ trace command started sampleCommands,
      (e.after.world.topics.get 0).isSome = true ∧ e.after.session.topic ≠ some 0 := by
    decide +kernel
  exact htopic (((h e he).1.topics.live_iff 0 (Nat.zero_le _)).mp hlive)

end SessionState

end SuparnaD
