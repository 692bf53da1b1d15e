import SuparnaD.Socket.Server
import SuparnaD.Socket.SessionCoherence

/-!
# Sessions leave each other's topics alone

All sessions make their topics and groups in one memory. With enough of it, a command of one session
leaves the topics of the others as they are, and the topic that it selects is new. So every session
of the server keeps a coherent selection of live objects, whatever the others do, and no command of
any of them uses an object that has been freed.

## Main definitions

* `SessionState.SparesTopics` : what a command does to the topics of others.
* `Server.Steadfast` : the invariant of the server.

## Main results

* `SessionState.Steadfast.spares_command`.
* `Server.Steadfast.step` : a turn comes to an end and keeps the invariant.
-/

namespace SuparnaD

open Broker SessionM

namespace SessionState

variable {st st' st'' : SessionState} {gh th : ℕ}

/-- Only the topic of the session and new topics have changed, and a topic that the session has got
is new. -/
structure SparesTopics (st st' : SessionState) : Prop where
  topics : ∀ h, st.session.topic ≠ some h → h < st.world.topics.fresh →
    st'.world.topics.get h = st.world.topics.get h
  topic : ∀ th, st'.session.topic = some th →
    st.session.topic = some th ∨ st.world.topics.fresh ≤ th

theorem sparesTopics_of_topics (htopic : st'.session.topic = st.session.topic)
    (htopics : st'.world.topics = st.world.topics) : st.SparesTopics st' :=
  ⟨fun _ _ _ => by rw [htopics], fun _ hth => .inl (htopic ▸ hth)⟩

/-- A command that works on the topic of the session. -/
theorem Touched.sparesTopics (h : st.Touched st' gh th) (htopic : st.session.topic = some th) :
    st.SparesTopics st' :=
  ⟨fun k hk _ => h.topics k fun heq => hk (heq ▸ htopic), fun _ hth => .inl (h.session ▸ hth)⟩

theorem Steadfast.spares_consume (h : st.Steadfast) {r : ℤ}
    (hrun : handleConsumeCommand st = some (r, st')) : st.SparesTopics st' := by
  have hreply (hhint : handleConsumeCommand st =
      some (-1, st.replied groupOrTopicNotSetHint)) : st.SparesTopics st' := by
    obtain ⟨-, rfl⟩ := Prod.mk.inj (Option.some.inj (hhint.symm.trans hrun))
    exact sparesTopics_of_topics rfl rfl
  cases hgroup : st.session.group with
  | none =>
    refine hreply ?_
    rw [handleConsumeCommand, getSession_bind]
    simp only [hgroup]
    rfl
  | some gh =>
  cases htopic : st.session.topic with
  | none =>
    refine hreply ?_
    rw [handleConsumeCommand, getSession_bind]
    simp only [hgroup, htopic]
    rfl
  | some th =>
    obtain ⟨g, path, hsel⟩ := h.selected hgroup htopic
    obtain ⟨record, r', st'', hrun', htouch, -⟩ := hsel.run_consume
    obtain ⟨-, rfl⟩ := Prod.mk.inj (Option.some.inj (hrun'.symm.trans hrun))
    exact htouch.sparesTopics htopic

theorem Steadfast.spares_ack (h : st.Steadfast) {commandData : Bytes} {r : ℤ}
    (hrun : handleAckCommand commandData st = some (r, st')) : st.SparesTopics st' := by
  have hreply (hhint : handleAckCommand commandData st =
      some (-1, st.replied groupOrTopicNotSet)) : st.SparesTopics st' := by
    obtain ⟨-, rfl⟩ := Prod.mk.inj (Option.some.inj (hhint.symm.trans hrun))
    exact sparesTopics_of_topics rfl rfl
  cases hgroup : st.session.group with
  | none =>
    refine hreply ?_
    rw [handleAckCommand, getSession_bind]
    simp only [hgroup]
    rfl
  | some gh =>
  cases htopic : st.session.topic with
  | none =>
    refine hreply ?_
    rw [handleAckCommand, getSession_bind]
    simp only [hgroup, htopic]
    rfl
  | some th =>
    obtain ⟨g, path, hsel⟩ := h.selected hgroup htopic
    obtain ⟨r', st'', g', hrun', hacked⟩ := hsel.run_ack commandData
    obtain ⟨-, rfl⟩ := Prod.mk.inj (Option.some.inj (hrun'.symm.trans hrun))
    exact hacked.touched.sparesTopics htopic

theorem sparesTopics_setGroup {groupName : Bytes} {r : ℤ}
    (hrun : handleSetGroup groupName st = some (r, st')) : st.SparesTopics st' := by
  refine sparesTopics_of_topics (topic_setGroup hrun) ?_
  rcases handleSetGroup_cases hrun with ⟨-, rfl⟩ | ⟨th, st₁, -, hrenew, rfl⟩
  · rfl
  · exact (renewed_renewGroup hrenew).topics

/-- `SET_TOPIC` frees at most the topic of the session and makes a new one. -/
theorem sparesTopics_setTopic {topicName : Bytes} {r : ℤ}
    (hrun : handleSetTopic topicName st = some (r, st')) : st.SparesTopics st' := by
  obtain ⟨st₁, hstores, hfinish⟩ := storesTopic_setTopic hrun
  obtain ⟨htopics, htopic⟩ := topics_finishSelection hfinish
  have hfresh : (st.topicsForNew topicName).fresh = st.world.topics.fresh := by
    rw [topicsForNew]
    split
    · split
      · exact HandleHeap.fresh_free
      · rfl
    · rfl
  have hfreed (h : ℕ) (hh : st.session.topic ≠ some h) :
      (st.topicsForNew topicName).get h = st.world.topics.get h := by
    rw [topicsForNew]
    split
    · split
      · rename_i th hth
        exact HandleHeap.get_free_of_ne fun heq => hh (heq ▸ hth)
      · rfl
    · rfl
  refine ⟨fun h hh hlt => ?_, fun th hth => ?_⟩
  · rw [htopics, ← hfreed h hh]
    rcases hstores.topic with ⟨-, hheap⟩ | ⟨t, -, hheap⟩
    · rw [hheap]
    · rw [hheap]
      exact HandleHeap.get_alloc_of_ne (Nat.ne_of_lt (hfresh ▸ hlt))
  · rw [htopic] at hth
    rcases hstores.topic with ⟨hnone, -⟩ | ⟨t, hnew, -⟩
    · cases hnone.symm.trans hth
    · cases hnew.symm.trans hth
      exact .inr (Nat.le_of_eq hfresh.symm)

/-- A command leaves the topics of others as they are. -/
theorem Steadfast.spares_command (h : st.Steadfast) {text : Bytes} {r : ℤ}
    (hrun : st.command text = some (r, st')) : st.SparesTopics st' := by
  rw [SessionState.command, processClientCommand] at hrun
  split_ifs at hrun
  · exact h.spares_consume hrun
  · exact h.spares_ack hrun
  · exact sparesTopics_setGroup hrun
  · exact sparesTopics_setTopic hrun
  · obtain ⟨-, rfl⟩ := Prod.mk.inj (Option.some.inj hrun)
    exact sparesTopics_of_topics rfl rfl

/-- The end of a session frees its topic only. -/
theorem sparesTopics_clientSessionFree (hrun : clientSessionFree st = some ((), st')) :
    st.SparesTopics st' ∧ st'.world.faults = st.world.faults := by
  rw [clientSessionFree_eq, getSession_bind] at hrun
  obtain ⟨⟨⟩, st₁, hgroup, hrun⟩ := bind_eq_some_iff.mp hrun
  obtain ⟨⟨⟩, st₂, htopic, hrun⟩ := bind_eq_some_iff.mp hrun
  obtain ⟨-, rfl⟩ := Prod.mk.inj (Option.some.inj hrun)
  have hfirst : st₁.world.topics = st.world.topics ∧ st₁.world.faults = st.world.faults := by
    cases hg : st.session.group <;> rw [hg] at hgroup <;>
      obtain ⟨-, rfl⟩ := Prod.mk.inj (Option.some.inj hgroup) <;> exact ⟨rfl, rfl⟩
  refine ⟨⟨fun h hh _ => ?_, fun th hth => nomatch hth⟩, ?_⟩
  · rw [← hfirst.1]
    cases ht : st.session.topic with
    | none =>
      rw [ht] at htopic
      obtain ⟨-, rfl⟩ := Prod.mk.inj (Option.some.inj htopic)
      rfl
    | some th =>
      rw [ht] at htopic hh
      obtain ⟨-, rfl⟩ := Prod.mk.inj (Option.some.inj htopic)
      exact HandleHeap.get_free_of_ne fun heq => hh (heq ▸ rfl)
  · rw [← hfirst.2]
    cases ht : st.session.topic <;> rw [ht] at htopic <;>
      obtain ⟨-, rfl⟩ := Prod.mk.inj (Option.some.inj htopic) <;> rfl

end SessionState

/-! ### All sessions -/

namespace Server

/-- Every session has a coherent selection of its own, live topic and group. -/
structure Steadfast (s : Server) : Prop where
  owned : s.Owned
  sessions : ∀ i, (s.view i).Steadfast
  apart : ∀ i j th, (s.sessions i).topic = some th → (s.sessions j).topic = some th → i = j

variable {s : Server} {i j : ℕ} {st' : SessionState}

/-- A session that has spared the topics of the others leaves their selections coherent. -/
theorem Steadfast.view_of_ne (h : s.Steadfast) (hconfined : (s.view i).Confined st')
    (hspares : (s.view i).SparesTopics st') (halloc : ∀ o ∈ st'.world.faults, o.alloc = true)
    (hne : j ≠ i) : ((s.update i st').view j).Steadfast := by
  rw [view_update_of_ne hne]
  have hj := h.sessions j
  have htopic {th : ℕ} (hth : (s.sessions j).topic = some th) :
      st'.world.topics.get th = s.world.topics.get th :=
    hspares.topics th (fun hi => hne (h.apart j i th hth hi)) ((h.owned.bounded j).topic th hth)
  refine ⟨hconfined.keepsSound h.owned.sound, halloc, fun th hth => ?_, hj.groupId,
    fun gh th hgh hth => ?_⟩
  · obtain ⟨t, ht⟩ := hj.topic th hth
    exact ⟨t, (htopic hth).trans ht⟩
  · obtain ⟨g, t, hg, ht, hattached, hid⟩ := hj.coherent gh th hgh hth
    exact ⟨g, t, (h.owned.get_of_ne hconfined hne hgh).trans hg, (htopic hth).trans ht, hattached,
      hid⟩

/-- The server after a turn of one session that keeps to its own objects. -/
theorem Steadfast.update (h : s.Steadfast) (hkeeps : (s.view i).KeepsToOwn st')
    (hspares : (s.view i).SparesTopics st') (hst' : st'.Steadfast) :
    (s.update i st').Steadfast := by
  refine ⟨h.owned.update hkeeps, fun j => ?_, fun j k th hj hk => ?_⟩
  · by_cases hne : j = i
    · rw [hne, view_update_self]
      exact hst'
    · exact h.view_of_ne hkeeps.confined hspares hst'.alloc hne
  -- A topic of another session is not the topic that this session now has.
  have hself : (s.update i st').sessions i = st'.session := Function.update_self ..
  have hother {j : ℕ} (hne : j ≠ i) : (s.update i st').sessions j = s.sessions j :=
    Function.update_of_ne hne ..
  have hdiffer {j : ℕ} (hne : j ≠ i) (hj : (s.sessions j).topic = some th)
      (hi : st'.session.topic = some th) : False := by
    rcases hspares.topic th hi with hold | hnew
    · exact hne (h.apart j i th hj hold)
    · exact absurd ((h.owned.bounded j).topic th hj) (Nat.not_lt.mpr hnew)
  by_cases hji : j = i <;> by_cases hki : k = i
  · rw [hji, hki]
  · rw [hji, hself] at hj
    rw [hother hki] at hk
    exact (hdiffer hki hk hj).elim
  · rw [hother hji] at hj
    rw [hki, hself] at hk
    exact (hdiffer hji hj hk).elim
  · rw [hother hji] at hj
    rw [hother hki] at hk
    exact h.apart j k th hj hk

/-- A turn leaves the topics of the other sessions as they are. -/
theorem Steadfast.topic_step_of_ne (h : s.Steadfast) {op : ServerOp} {r : List Attempt × ℤ}
    {s' : Server} (hstep : s.step op = some (r, s')) {th : ℕ} (hne : j ≠ op.session)
    (hth : (s.sessions j).topic = some th) :
    s'.world.topics.get th = s.world.topics.get th := by
  have hspared {st' : SessionState} (hs' : s.update op.session st' = s')
      (hspares : (s.view op.session).SparesTopics st') :
      s'.world.topics.get th = s.world.topics.get th := by
    rw [← hs']
    exact hspares.topics th (fun hi => hne (h.apart j op.session th hth hi))
      ((h.owned.bounded j).topic th hth)
  cases op with
  | command i text =>
    obtain ⟨⟨r', st'⟩, hrun, heq⟩ := Option.map_eq_some_iff.mp hstep
    have hcommand : (s.view i).command text = some (r'.2, st') := by
      rw [SessionState.command, ← snd_recordedCommand]
      exact map_eq_some_iff.mpr ⟨r', hrun, rfl⟩
    exact hspared (Prod.mk.inj heq).2 ((h.sessions i).spares_command hcommand)
  | disconnect i =>
    obtain ⟨⟨_, st'⟩, hrun, heq⟩ := Option.map_eq_some_iff.mp hstep
    exact hspared (Prod.mk.inj heq).2 (SessionState.sparesTopics_clientSessionFree hrun).1

/-- With enough memory a turn comes to an end and leaves all selections coherent. -/
theorem Steadfast.step (h : s.Steadfast) (op : ServerOp) :
    ∃ r s', s.step op = some (r, s') ∧ s'.Steadfast := by
  cases op with
  | command i text =>
    obtain ⟨r, st', hcommand, hst'⟩ := (h.sessions i).command text
    have hrecorded : (Prod.snd <$> recordedCommand text) (s.view i) = some (r, st') := by
      rw [snd_recordedCommand]
      exact hcommand
    obtain ⟨⟨record, r'⟩, hrun, -⟩ := map_eq_some_iff.mp hrecorded
    exact ⟨_, _, congrArg (Option.map _) hrun, h.update
      (SessionState.keepsToOwn_recordedCommand h.owned.sound (h.owned.bounded i) hrun)
      ((h.sessions i).spares_command hcommand) hst'⟩
  | disconnect i =>
    obtain ⟨st', hrun, hconfined, hfresh⟩ := SessionState.run_clientSessionFree (s.view i)
    obtain ⟨hspares, hfaults⟩ := SessionState.sparesTopics_clientSessionFree hrun
    have hst' : st'.Steadfast := SessionState.steadfast_of_fresh hfresh
      (hconfined.keepsSound h.owned.sound) (hfaults ▸ (h.sessions i).alloc)
    exact ⟨_, _, congrArg (Option.map _) hrun, h.update
      (SessionState.selectsAnew_clientSessionFree [] hrun).toKeepsToOwn hspares hst'⟩

theorem steadfast_start (fs : FileSystem) {faults : List IoOutcome}
    (halloc : ∀ o ∈ faults, o.alloc = true) (clients : ℕ → Client) :
    (start fs faults clients).Steadfast :=
  ⟨owned_start fs faults clients,
    fun _ => SessionState.steadfast_of_fresh rfl (owned_start fs faults clients).sound halloc,
    fun _ _ _ hi => nomatch hi⟩

end Server

end SuparnaD
