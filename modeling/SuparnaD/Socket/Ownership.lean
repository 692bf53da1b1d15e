import SuparnaD.Messaging.RoundTrip
import SuparnaD.Socket.SessionSteps

/-!
# Which objects a command touches

A session works on the group and the topic whose handles it holds. A command leaves the groups of
all other handles as they were, never moves the chunk of a topic to another file, and finds the
objects that it makes under fresh handles. So what holds of the groups of one session is not
disturbed by the commands of another.

## Main definitions

* `TopicObject.On`, `World.Sound` : the chunk of every topic is well formed.
* `SessionState.Idle` : a command has changed no group and has not reselected.
* `SessionState.Confined` : a command has touched its own and fresh objects only.
* `SessionState.Renewed`, `SessionState.Reselected` : the session has a new group, or none, or its
  old one without its topic.

## Main results

* `SessionState.consume_cases`, `SessionState.ack_cases`.
* `SessionState.reselected_setGroup`, `SessionState.reselected_setTopic`.
-/

namespace SuparnaD

open Broker

/-- The chunk of the topic, if there is one, is well formed and belongs to the file at the path. -/
def TopicObject.On (t : TopicObject) (path : Bytes) : Prop :=
  ∀ c, t.chunkHandle = some c → c.filePath = path ∧ c.WellFormed

/-- The chunk of every topic is well formed. -/
def World.Sound (w : World) : Prop := ∀ h t, w.topics.get h = some t → ∃ path, t.On path

namespace SessionState

/-- No group has changed, and the session holds the handles it held. -/
structure Idle (st st' : SessionState) : Prop where
  session : st'.session = st.session
  groups : ∀ h, st'.world.groups.get h = st.world.groups.get h
  groupsFresh : st'.world.groups.fresh = st.world.groups.fresh
  topicsFresh : st'.world.topics.fresh = st.world.topics.fresh
  topics : ∀ h t', st'.world.topics.get h = some t' →
    ∃ t, st.world.topics.get h = some t ∧ ∀ path, t.On path → t'.On path

/-- Only the group of the session and fresh objects have changed, and no topic has moved to another
file. -/
structure Confined (st st' : SessionState) : Prop where
  groups : ∀ h, st.session.group ≠ some h → h < st.world.groups.fresh →
    st'.world.groups.get h = st.world.groups.get h
  groupsFresh : st.world.groups.fresh ≤ st'.world.groups.fresh
  topicsFresh : st.world.topics.fresh ≤ st'.world.topics.fresh
  topics : ∀ h t', st'.world.topics.get h = some t' →
    (∃ t, st.world.topics.get h = some t ∧ ∀ path, t.On path → t'.On path) ∨
      st.world.topics.fresh ≤ h ∧ ∃ path, t'.On path

variable {α : Type} {st st' st'' : SessionState} {gh th : ℕ} {g g' : Group} {path : Bytes}

theorem Idle.refl (st : SessionState) : st.Idle st :=
  ⟨rfl, fun _ => rfl, rfl, rfl, fun _ t ht => ⟨t, ht, fun _ => id⟩⟩

theorem Idle.trans (h : st.Idle st') (h' : st'.Idle st'') : st.Idle st'' := by
  refine ⟨h'.session.trans h.session, fun k => (h'.groups k).trans (h.groups k),
    h'.groupsFresh.trans h.groupsFresh, h'.topicsFresh.trans h.topicsFresh, fun k t'' ht'' => ?_⟩
  obtain ⟨t', ht', hon'⟩ := h'.topics k t'' ht''
  obtain ⟨t, ht, hon⟩ := h.topics k t' ht'
  exact ⟨t, ht, fun path hpath => hon' path (hon path hpath)⟩

theorem Idle.confined (h : st.Idle st') : st.Confined st' :=
  ⟨fun k _ _ => h.groups k, Nat.le_of_eq h.groupsFresh.symm, Nat.le_of_eq h.topicsFresh.symm,
    fun k t' ht' => .inl (h.topics k t' ht')⟩

/-- A change of the client or of the script of outcomes. -/
theorem idle_after (st : SessionState) (m : Machine) : st.Idle (st.after m) :=
  ⟨rfl, fun _ => rfl, rfl, rfl, fun _ t ht => ⟨t, ht, fun _ => id⟩⟩

theorem idle_replied (st : SessionState) (text : Bytes) : st.Idle (st.replied text) :=
  ⟨rfl, fun _ => rfl, rfl, rfl, fun _ t ht => ⟨t, ht, fun _ => id⟩⟩

theorem Confined.keepsSound (h : st.Confined st') (hs : st.world.Sound) : st'.world.Sound := by
  intro k t' ht'
  rcases h.topics k t' ht' with ⟨t, ht, hon⟩ | ⟨-, hon⟩
  · obtain ⟨path, hpath⟩ := hs k t ht
    exact ⟨path, hon path hpath⟩
  · exact hon

/-- A program on one topic that computes something from what its load shows. -/
theorem idle_onTopic {h : ℕ} {p : Broker α} {f : Option Bytes → α}
    (hp : ∀ (s : Machine) path, s.OnTopic path → s.Computes path p f) {a : α}
    (hrun : SessionM.onTopic h p st = some (a, st')) : st.Idle st' := by
  obtain ⟨t, m, ht, hexec, rfl⟩ := SessionM.onTopic_eq_some_iff.mp hrun
  refine ⟨rfl, fun _ => rfl, rfl, HandleHeap.fresh_set, fun k t' ht' => ?_⟩
  by_cases hk : k = h
  · subst hk
    have hset := (HandleHeap.get_set_self ht).symm.trans ht'
    refine ⟨t, ht, fun path hpath => ?_⟩
    obtain ⟨m', -, hm', hexec'⟩ := hp (st.machine t.chunkHandle) path hpath
    obtain ⟨-, rfl⟩ := Prod.mk.inj (Option.some.inj (hexec.symm.trans hexec'))
    cases hset
    exact hm'
  · exact ⟨t', (HandleHeap.get_set_of_ne hk).symm.trans ht', fun _ => id⟩

/-- A function of the broker on a group that it leaves as it was. -/
theorem idle_onGroup (hs : st.world.Sound) (hg : st.world.groups.get gh = some g)
    {f : Group → Broker (α × Group)} {result : Option Bytes → α}
    (hf : ∀ (s : Machine) path, s.OnTopic path →
      s.Computes path (f g) fun view => (result view, g))
    {a : α} (hrun : SessionM.onGroup gh th f st = some (a, st')) :
    st.Idle st' ∧ ∃ view, a = result view := by
  obtain ⟨g₀, t, m, g', hg₀, ht, hexec, rfl⟩ := SessionM.onGroup_eq_some_iff.mp hrun
  cases hg.symm.trans hg₀
  have hidle := idle_onTopic hf (SessionM.onTopic_eq_some_iff.mpr ⟨t, m, ht, hexec, rfl⟩)
  obtain ⟨path, hpath⟩ := hs th t ht
  obtain ⟨m', -, -, hexec'⟩ := hf (st.machine t.chunkHandle) path hpath
  obtain ⟨heq, rfl⟩ := Prod.mk.inj (Option.some.inj (hexec.symm.trans hexec'))
  obtain ⟨ha, rfl⟩ := Prod.mk.inj heq
  refine ⟨hidle.trans ⟨rfl, fun k => ?_, HandleHeap.fresh_set, rfl,
    fun _ t ht => ⟨t, ht, fun _ => id⟩⟩, _, ha⟩
  by_cases hk : k = gh
  · subst hk
    exact (HandleHeap.get_set_self hg).trans hg.symm
  · exact HandleHeap.get_set_of_ne hk

/-- A command that works on a selected group only. -/
theorem Touched.confined (htouch : st.Touched st' gh th) (hgroup : st.session.group = some gh)
    (hlive : ∃ t, st.world.topics.get th = some t)
    (hon : ∀ t t', st.world.topics.get th = some t → st'.world.topics.get th = some t' →
      ∀ path, t.On path → t'.On path) : st.Confined st' := by
  refine ⟨fun k hk _ => htouch.groups k fun heq => hk (heq ▸ hgroup),
    Nat.le_of_eq htouch.groupsFresh.symm, Nat.le_of_eq htouch.topicsFresh.symm,
    fun k t' ht' => .inl ?_⟩
  by_cases hk : k = th
  · subst hk
    obtain ⟨t, ht⟩ := hlive
    exact ⟨t, ht, hon t t' ht ht'⟩
  · exact ⟨t', (htouch.topics k hk).symm.trans ht', fun _ => id⟩

/-! ### `CONSUME` -/

/-- The session has a topic and a group on it. -/
structure HasGroup (st : SessionState) (gh th : ℕ) (g : Group) : Prop where
  group : st.session.group = some gh
  topic : st.session.topic = some th
  object : st.world.groups.get gh = some g
  attached : g.attachedTopic = th

/-- `CONSUME` has handed out a packet of the group of the session. -/
structure HandsOut (st st' : SessionState) (record : List Attempt) (gh th : ℕ) (g : Group)
    (d : Bytes) : Prop where
  has : st.HasGroup gh th g
  session : st'.session = st.session
  object' : st'.world.groups.get gh = some (afterPacket g d)
  confined : st.Confined st'
  record : ∃ r, record = [⟨packetAt g d, r, none⟩]
  live : ∃ t, st.world.topics.get th = some t
  packet : ∀ t, st.world.topics.get th = some t → ∀ path, t.On path →
    topicFormat.parseAt (st.file path) g.readPointer.toNat = some d ∧
      (st.file path).length < 2 ^ 63

/-- `CONSUME` on a group that is attached to the topic of the session. -/
theorem consume_cases_of_attached (hs : st.world.Sound) (hhas : st.HasGroup gh th g)
    {t : TopicObject} (ht : st.world.topics.get th = some t) {record : List Attempt} {r : ℤ}
    (hrun : recordedConsumeCommand st = some ((record, r), st')) :
    st.Idle st' ∧ record = [] ∨ ∃ d, st.HandsOut st' record gh th g d := by
  have hcase (path : Bytes) (hpath : t.On path) :
      st.Touched st' gh th ∧ st.Consumed st' gh th g path record r := by
    obtain ⟨record', r', st'', hrun', hrest⟩ := Selected.run_recordedConsume
      ⟨hhas.group, hhas.topic, hhas.object, hhas.attached, t, ht, hpath⟩
    obtain ⟨heq, rfl⟩ := Prod.mk.inj (Option.some.inj (hrun.symm.trans hrun'))
    obtain ⟨rfl, rfl⟩ := Prod.mk.inj heq
    exact hrest
  have hlive (t₀ t' : TopicObject) (ht₀ : st.world.topics.get th = some t₀)
      (ht' : st'.world.topics.get th = some t') (path : Bytes) (hpath : t₀.On path) :
      t'.On path := by
    cases ht.symm.trans ht₀
    obtain ⟨-, hconsumed⟩ := hcase path hpath
    rcases hconsumed with ⟨-, hsel, -⟩ | ⟨d, s, -, hsel, -⟩ <;> exact hsel.onTopic ht'
  obtain ⟨path, hpath⟩ := hs th t ht
  obtain ⟨htouch, hconsumed⟩ := hcase path hpath
  have hconfined := htouch.confined hhas.group ⟨t, ht⟩ hlive
  rcases hconsumed with ⟨rfl, hsel, -⟩ | ⟨d, s, hrecord, hsel, -⟩
  · refine .inl ⟨⟨htouch.session, fun k => ?_, htouch.groupsFresh, htouch.topicsFresh,
      fun k t' ht' => ?_⟩, rfl⟩
    · by_cases hk : k = gh
      · rw [hk, hsel.object, hhas.object]
      · exact htouch.groups k hk
    · rcases hconfined.topics k t' ht' with hold | ⟨hfresh, -⟩
      · exact hold
      · have := HandleHeap.lt_fresh_of_get ht'
        rw [htouch.topicsFresh] at this
        omega
  · refine .inr ⟨d, hhas, htouch.session, hsel.object, hconfined,
      ⟨r, hrecord⟩, ⟨t, ht⟩, fun t₀ ht₀ path₀ hpath₀ => ?_⟩
    cases ht.symm.trans ht₀
    rcases (hcase path₀ hpath₀).2 with ⟨hnil, -⟩ | ⟨d', s', hrecord', -, hd, hlt, -⟩
    · rw [hrecord] at hnil
      cases hnil
    · obtain ⟨heq, -⟩ := List.cons.inj (hrecord.symm.trans hrecord')
      have hdata : d = d' := congrArg (fun a => a.packet.data) heq
      exact hdata ▸ ⟨hd, hlt⟩

/-- `CONSUME` hands out a packet of the group of the session, or changes no group. -/
theorem consume_cases (hs : st.world.Sound) {record : List Attempt} {r : ℤ}
    (hrun : recordedConsumeCommand st = some ((record, r), st')) :
    st.Idle st' ∧ record = [] ∨ ∃ gh th g d, st.HandsOut st' record gh th g d := by
  have hreply {st₁ : SessionState} {text : Bytes} {r₁ : ℤ} (hidle : st.Idle st₁)
      (hend : (do SessionM.reply text; return (([] : List Attempt), r₁) : SessionM _) st₁ =
        some ((record, r), st')) : st.Idle st' ∧ record = [] := by
    obtain ⟨heq, rfl⟩ := Prod.mk.inj (Option.some.inj hend)
    exact ⟨hidle.trans (idle_replied st₁ text), (Prod.mk.inj heq).1.symm⟩
  cases hgroup : st.session.group with
  | none =>
    rw [recordedConsumeCommand, getSession_bind] at hrun
    simp only [hgroup] at hrun
    exact .inl (hreply (.refl st) hrun)
  | some gh =>
  cases htopic : st.session.topic with
  | none =>
    rw [recordedConsumeCommand, getSession_bind] at hrun
    simp only [hgroup, htopic] at hrun
    exact .inl (hreply (.refl st) hrun)
  | some th =>
  have hrun' := hrun
  rw [recordedConsumeCommand, getSession_bind] at hrun
  simp only [hgroup, htopic] at hrun
  obtain ⟨g, st₁, hget, hrun⟩ := SessionM.bind_eq_some_iff.mp hrun
  obtain ⟨hobject, rfl⟩ := SessionM.getGroup_eq_some_iff.mp hget
  obtain ⟨more, st₁, hmore, hrun⟩ := SessionM.bind_eq_some_iff.mp hrun
  by_cases hattached : g.attachedTopic = th
  · obtain ⟨t, m, ht, -⟩ := SessionM.onTopic_eq_some_iff.mp hmore
    rw [hattached] at ht
    rcases consume_cases_of_attached hs ⟨hgroup, htopic, hobject, hattached⟩ ht hrun' with
      hidle | ⟨d, hd⟩
    · exact .inl hidle
    · exact .inr ⟨gh, th, g, d, hd⟩
  -- A group on another topic: `consume_packet` refuses it.
  have hidle := idle_onTopic (fun s path h => h.computes_groupHasMoreData g) hmore
  split at hrun
  · exact .inl (hreply hidle hrun)
  obtain ⟨packet, st₂, hconsume, hrun⟩ := SessionM.bind_eq_some_iff.mp hrun
  have hrefused (s : Machine) (path : Bytes) (h : s.OnTopic path) :
      s.Computes path (consumePacket g th) fun _ => (none, g) := by
    rw [consumePacket, if_pos hattached]
    exact h.computes_pure _
  have hobject₁ : st₁.world.groups.get gh = some g := (hidle.groups gh).trans hobject
  obtain ⟨hidle₂, -, rfl⟩ :=
    idle_onGroup (hidle.confined.keepsSound hs) hobject₁ hrefused hconsume
  exact .inl (hreply (hidle.trans hidle₂) hrun)

/-! ### `ACK` -/

/-- `ACK` has moved the group of the session. -/
structure Acks (st st' : SessionState) (gh th : ℕ) (g g' : Group) (commandData : Bytes) :
    Prop where
  has : st.HasGroup gh th g
  session : st'.session = st.session
  fs : st'.world.fs = st.world.fs
  object' : st'.world.groups.get gh = some g'
  same : g.Same g'
  confined : st.Confined st'
  chunk : (st'.world.topics.get th).map (·.chunkHandle.isSome) =
    (st.world.topics.get th).map (·.chunkHandle.isSome)
  moves : ∀ t, st.world.topics.get th = some t → ∀ path, t.On path →
    st.AckMoves gh th g path commandData g'

theorem live_of_onGroup {f : Group → Broker (α × Group)} {a : α}
    (hrun : SessionM.onGroup gh th f st = some (a, st')) :
    ∃ g t, st.world.groups.get gh = some g ∧ st.world.topics.get th = some t := by
  obtain ⟨g, t, -, -, hg, ht, -⟩ := SessionM.onGroup_eq_some_iff.mp hrun
  exact ⟨g, t, hg, ht⟩

theorem live_of_ackNextPacket {r : ℤ} (hrun : ackNextPacket gh th st = some (r, st')) :
    ∃ g t, st.world.groups.get gh = some g ∧ st.world.topics.get th = some t := by
  obtain ⟨_, _, hgroup, -⟩ := SessionM.bind_eq_some_iff.mp hrun
  exact live_of_onGroup hgroup

/-- `ACK` uses the group and the topic of the session. -/
theorem live_of_ack (hgroup : st.session.group = some gh) (htopic : st.session.topic = some th)
    {commandData : Bytes} {r : ℤ} (hrun : handleAckCommand commandData st = some (r, st')) :
    ∃ g t, st.world.groups.get gh = some g ∧ st.world.topics.get th = some t := by
  rw [handleAckCommand_eq hgroup htopic] at hrun
  split at hrun
  swap
  · exact live_of_ackNextPacket hrun
  obtain ⟨value, st₁, hvalue, hrun⟩ := SessionM.bind_eq_some_iff.mp hrun
  have hworld : st₁.world.groups = st.world.groups ∧ st₁.world.topics = st.world.topics := by
    rw [extractJsonValue_eq] at hvalue
    cases hfind : findJsonValue commandData (ascii "packet_size") <;> rw [hfind] at hvalue <;>
      obtain ⟨-, rfl⟩ := Prod.mk.inj (Option.some.inj hvalue) <;> exact ⟨rfl, rfl⟩
  rw [← hworld.1, ← hworld.2]
  cases value with
  | none => exact live_of_ackNextPacket hrun
  | some packetSizeStr =>
    obtain ⟨_, _, hsize, -⟩ := SessionM.bind_eq_some_iff.mp hrun
    exact live_of_onGroup hsize

theorem acks_of_attached (hs : st.world.Sound) (hhas : st.HasGroup gh th g) {t : TopicObject}
    (ht : st.world.topics.get th = some t) {commandData : Bytes} {r : ℤ}
    (hrun : handleAckCommand commandData st = some (r, st')) :
    ∃ g', st.Acks st' gh th g g' commandData := by
  have hcase (path : Bytes) (hpath : t.On path) :
      ∃ g', st.Acked st' gh th g g' path commandData := by
    obtain ⟨r', st'', g', hrun', hacked⟩ := Selected.run_ack
      ⟨hhas.group, hhas.topic, hhas.object, hhas.attached, t, ht, hpath⟩ commandData
    obtain ⟨-, rfl⟩ := Prod.mk.inj (Option.some.inj (hrun.symm.trans hrun'))
    exact ⟨g', hacked⟩
  obtain ⟨path, hpath⟩ := hs th t ht
  obtain ⟨g', hacked⟩ := hcase path hpath
  refine ⟨g', hhas, hacked.touched.session, hacked.touched.fs,
    hacked.selected.object, hacked.moves.same,
    hacked.touched.confined hhas.group ⟨t, ht⟩ fun t₀ t' ht₀ ht' path₀ hpath₀ => ?_,
    hacked.touched.chunk, fun t₀ ht₀ path₀ hpath₀ => ?_⟩ <;> cases ht.symm.trans ht₀
  · obtain ⟨_, hacked₀⟩ := hcase path₀ hpath₀
    exact hacked₀.selected.onTopic ht'
  · obtain ⟨g'', hacked₀⟩ := hcase path₀ hpath₀
    cases hacked.selected.object.symm.trans hacked₀.selected.object
    exact hacked₀.moves

/-- A group on another topic is not acknowledged. -/
theorem idle_ackNextPacket (hs : st.world.Sound) (hobject : st.world.groups.get gh = some g)
    (hattached : g.attachedTopic ≠ th) {r : ℤ} (hrun : ackNextPacket gh th st = some (r, st')) :
    st.Idle st' := by
  have hrefused (s : Machine) (path : Bytes) (h : s.OnTopic path) :
      s.Computes path (ackPacketBatch g th 1) fun _ => (-1, g) := by
    simpa only [hattached, ne_eq, not_false_eq_true, or_true, ↓reduceIte] using
      h.computes_ackPacketBatch g th 1
  obtain ⟨result, st₁, hbatch, hrun⟩ := SessionM.bind_eq_some_iff.mp hrun
  obtain ⟨hidle, -, rfl⟩ := idle_onGroup hs hobject hrefused hbatch
  obtain ⟨-, rfl⟩ := Prod.mk.inj (Option.some.inj hrun)
  exact hidle.trans (idle_replied st₁ acknowledgeFailed)

theorem idle_ack_of_ne (hs : st.world.Sound) (hgroup : st.session.group = some gh)
    (htopic : st.session.topic = some th) (hobject : st.world.groups.get gh = some g)
    (hattached : g.attachedTopic ≠ th) {commandData : Bytes} {r : ℤ}
    (hrun : handleAckCommand commandData st = some (r, st')) : st.Idle st' := by
  rw [handleAckCommand_eq hgroup htopic] at hrun
  split at hrun
  swap
  · exact idle_ackNextPacket hs hobject hattached hrun
  obtain ⟨value, st₁, hvalue, hrun⟩ := SessionM.bind_eq_some_iff.mp hrun
  have hidle : st.Idle st₁ := by
    rw [extractJsonValue_eq] at hvalue
    cases hfind : findJsonValue commandData (ascii "packet_size") <;> rw [hfind] at hvalue <;>
      obtain ⟨-, rfl⟩ := Prod.mk.inj (Option.some.inj hvalue)
    · exact .refl st
    · exact idle_after st _
  have hs₁ := hidle.confined.keepsSound hs
  have hobject₁ := (hidle.groups gh).trans hobject
  cases value with
  | none => exact hidle.trans (idle_ackNextPacket hs₁ hobject₁ hattached hrun)
  | some packetSizeStr =>
    obtain ⟨result, st₂, hsize, hrun⟩ := SessionM.bind_eq_some_iff.mp hrun
    have hrefused (s : Machine) (path : Bytes) (h : s.OnTopic path) : s.Computes path
        (ackPacketBySize g th (sizeOfInt (atoi packetSizeStr))) fun _ => (-1, g) := by
      simpa only [hattached, ne_eq, not_false_eq_true, or_true, ↓reduceIte] using
        h.computes_ackPacketBySize g th (sizeOfInt (atoi packetSizeStr))
    obtain ⟨hidle₂, -, rfl⟩ := idle_onGroup hs₁ hobject₁ hrefused hsize
    exact (hidle.trans hidle₂).trans (idle_ackNextPacket (hidle₂.confined.keepsSound hs₁)
      ((hidle₂.groups gh).trans hobject₁) hattached hrun)

/-- `ACK` moves the group of the session. Without a group on the topic of the session it changes no
group. -/
theorem ack_cases (hs : st.world.Sound) {commandData : Bytes} {r : ℤ}
    (hrun : handleAckCommand commandData st = some (r, st')) :
    st.Idle st' ∧ (∀ gh th g, ¬ st.HasGroup gh th g) ∨
      ∃ gh th g g', st.Acks st' gh th g g' commandData := by
  have hunset (hend : handleAckCommand commandData st =
      (do SessionM.reply groupOrTopicNotSet; return (-1) : SessionM ℤ) st) : st.Idle st' := by
    obtain ⟨-, rfl⟩ := Prod.mk.inj (Option.some.inj (hend.symm.trans hrun))
    exact idle_replied st groupOrTopicNotSet
  cases hgroup : st.session.group with
  | none =>
    refine .inl ⟨hunset ?_, fun gh th g hhas => nomatch hgroup.symm.trans hhas.group⟩
    rw [handleAckCommand, getSession_bind]
    simp only [hgroup]
  | some gh =>
  cases htopic : st.session.topic with
  | none =>
    refine .inl ⟨hunset ?_, fun gh th g hhas => nomatch htopic.symm.trans hhas.topic⟩
    rw [handleAckCommand, getSession_bind]
    simp only [hgroup, htopic]
  | some th =>
  obtain ⟨g, t, hobject, ht⟩ := live_of_ack hgroup htopic hrun
  by_cases hattached : g.attachedTopic = th
  · obtain ⟨g', hacks⟩ := acks_of_attached hs ⟨hgroup, htopic, hobject, hattached⟩ ht hrun
    exact .inr ⟨gh, th, g, g', hacks⟩
  · refine .inl ⟨idle_ack_of_ne hs hgroup htopic hobject hattached hrun, ?_⟩
    rintro gh' th' g' ⟨hgroup', htopic', hobject', hattached'⟩
    cases hgroup.symm.trans hgroup'
    cases htopic.symm.trans htopic'
    cases hobject.symm.trans hobject'
    exact hattached hattached'

/-! ### `SET_GROUP` and `SET_TOPIC` -/

/-- The group of the session has been replaced by a new one on its topic, or by none. -/
structure Renewed (st st' : SessionState) (th : ℕ) : Prop where
  topics : st'.world.topics = st.world.topics
  session : st'.session = { st.session with group := st'.session.group }
  groups : ∀ h, st.session.group ≠ some h → h < st.world.groups.fresh →
    st'.world.groups.get h = st.world.groups.get h
  groupsFresh : st.world.groups.fresh ≤ st'.world.groups.fresh
  group : st'.session.group = none ∨ ∃ h groupId, st'.session.group = some h ∧
    st.world.groups.fresh ≤ h ∧ st.session.groupId = some groupId ∧
    st'.world.groups.get h = some ⟨groupId, th, 0, 0⟩

/-- The session has selected the topic and the group of the given names, or its old group is left
without its topic. -/
structure Reselected (st st' : SessionState) (topicName groupId : Option Bytes) : Prop where
  confined : st.Confined st'
  topic : ∀ th, st'.session.topic = some th →
    st.session.topic = some th ∨ th < st'.world.topics.fresh
  group : st'.session.group = none ∨
    (st'.session.group = st.session.group ∧
      (∀ h, st'.world.groups.get h = st.world.groups.get h) ∧
      ∀ th, st'.session.topic = some th → st.world.topics.fresh ≤ th) ∨
    ∃ gh th name, st'.session.group = some gh ∧ st'.session.topic = some th ∧
      st.world.groups.fresh ≤ gh ∧ groupId = some name ∧ st'.session.topicName = topicName ∧
      st'.world.groups.get gh = some ⟨name, th, 0, 0⟩

/-- `create_group` makes a group at the start of the topic, or none. -/
theorem exec_createGroup_cases {groupId : Option Bytes} {topic : ℕ} {r : Option Group}
    {s s' : Machine} (hrun : (createGroup groupId topic).exec s = some (r, s')) :
    r = none ∨ ∃ name, groupId = some name ∧ r = some ⟨name, topic, 0, 0⟩ := by
  cases r with
  | none => exact .inl rfl
  | some g =>
    cases groupId with
    | none => exact absurd (CallProgram.run_pure_eq_some_iff.mp hrun).1 (by simp)
    | some name => exact .inr ⟨name, rfl, congrArg some (exec_createGroup hrun).1⟩

/-- `group_free` unless there is no group. -/
def freeGroup : Option ℕ → SessionM Unit
  | some h => SessionM.groupFree h
  | none => return ()

theorem renewGroup_eq (th : ℕ) : renewGroup th = (do
    let session ← SessionM.getSession
    freeGroup session.group
    let group ← SessionM.newGroup (← SessionM.detached (createGroup session.groupId th)).1
    SessionM.modifySession fun s => { s with group := group }) := by
  refine congrArg _ (funext ?_)
  rintro ⟨group, topic, groupId, topicName⟩
  cases group <;> rfl

/-- Freeing a group leaves the others. -/
theorem run_freeGroup (group : Option ℕ) (st : SessionState) :
    ∃ st', freeGroup group st = some ((), st') ∧ st'.session = st.session ∧
      st'.world.topics = st.world.topics ∧ st'.world.groups.fresh = st.world.groups.fresh ∧
      ∀ h, group ≠ some h → st'.world.groups.get h = st.world.groups.get h := by
  cases group with
  | none => exact ⟨st, rfl, rfl, rfl, rfl, fun _ _ => rfl⟩
  | some gh =>
    exact ⟨_, rfl, rfl, rfl, HandleHeap.fresh_free,
      fun h hne => HandleHeap.get_free_of_ne fun heq => hne (heq ▸ rfl)⟩

theorem renewed_renewGroup (hrun : renewGroup th st = some ((), st')) : st.Renewed st' th := by
  rw [renewGroup_eq, getSession_bind] at hrun
  obtain ⟨st₁, hfree, hsession, htopics, hfresh, hothers⟩ := run_freeGroup st.session.group st
  rw [SessionM.bind_of_eq_some hfree] at hrun
  obtain ⟨⟨r, chunk⟩, st₂, hcreate, hrun⟩ := SessionM.bind_eq_some_iff.mp hrun
  obtain ⟨m, hexec, -, rfl⟩ := SessionM.detached_eq_some_iff.mp hcreate
  obtain ⟨group, st₃, hnew, hrun⟩ := SessionM.bind_eq_some_iff.mp hrun
  obtain ⟨-, rfl⟩ := Prod.mk.inj (Option.some.inj hrun)
  rcases exec_createGroup_cases hexec with rfl | ⟨name, hname, rfl⟩
  · obtain ⟨rfl, rfl⟩ := Prod.mk.inj (Option.some.inj hnew)
    exact ⟨htopics, by rw [← hsession]; rfl, fun h hne _ => hothers h hne,
      Nat.le_of_eq hfresh.symm, .inl rfl⟩
  · obtain ⟨rfl, rfl⟩ := Prod.mk.inj (Option.some.inj hnew)
    refine ⟨htopics, by rw [← hsession]; rfl, fun h hne hlt => ?_, ?_,
      .inr ⟨_, name, rfl, Nat.le_of_eq hfresh.symm, hname, HandleHeap.get_alloc_self⟩⟩
    · refine (HandleHeap.get_alloc_of_ne ?_).trans (hothers h hne)
      exact Nat.ne_of_lt (Nat.lt_of_lt_of_eq hlt hfresh.symm)
    · rw [← hfresh]
      exact Nat.le_trans (Nat.le_succ _) (Nat.le_of_eq HandleHeap.fresh_alloc.symm)

theorem reply_return (text : Bytes) (r : ℤ) (st : SessionState) :
    (do SessionM.reply text; return r : SessionM ℤ) st = some (r, st.replied text) := rfl

/-- The reply at the end of a selection. -/
theorem Reselected.reply {topicName groupId : Option Bytes}
    (h : st.Reselected st' topicName groupId) (text : Bytes) :
    st.Reselected (st'.replied text) topicName groupId :=
  ⟨⟨h.confined.groups, h.confined.groupsFresh, h.confined.topicsFresh, h.confined.topics⟩, h.topic,
    h.group⟩

/-- The state after `SET_GROUP` has stored the group id. -/
def withGroupId (st : SessionState) (groupName : Bytes) : SessionState :=
  { st.allocated with session := { st.session with
      groupId := if (st.machine none).outcome.alloc then some groupName else none } }

theorem handleSetGroup_eq (groupName : Bytes) (st : SessionState) :
    handleSetGroup groupName st = (match st.session.topic with
      | some th => (do renewGroup th; SessionM.reply groupSet; return 0 : SessionM ℤ)
      | none => (do SessionM.reply groupSet; return 0 : SessionM ℤ))
        (st.withGroupId groupName) := by
  obtain ⟨world, ⟨group, topic, groupId, topicName⟩, client⟩ := st
  cases topic <;> rfl

/-- `SET_GROUP` makes a new group when the session has a topic. -/
theorem handleSetGroup_cases {groupName : Bytes} {r : ℤ}
    (hrun : handleSetGroup groupName st = some (r, st')) :
    (st.session.topic = none ∧ st' = (st.withGroupId groupName).replied groupSet) ∨
      ∃ th st₁, st.session.topic = some th ∧
        renewGroup th (st.withGroupId groupName) = some ((), st₁) ∧ st' = st₁.replied groupSet := by
  rw [handleSetGroup_eq] at hrun
  cases htopic : st.session.topic with
  | none =>
    rw [htopic] at hrun
    obtain ⟨-, rfl⟩ := Prod.mk.inj (Option.some.inj hrun)
    exact .inl ⟨rfl, rfl⟩
  | some th =>
    rw [htopic] at hrun
    obtain ⟨⟨⟩, st₁, hrenew, hrun⟩ := SessionM.bind_eq_some_iff.mp hrun
    obtain ⟨-, rfl⟩ := Prod.mk.inj (Option.some.inj hrun)
    exact .inr ⟨th, st₁, rfl, hrenew, rfl⟩

theorem reselected_setGroup {groupName : Bytes} {r : ℤ}
    (hrun : handleSetGroup groupName st = some (r, st')) :
    st.Reselected st' st.session.topicName (some groupName) := by
  rcases handleSetGroup_cases hrun with ⟨htopic, rfl⟩ | ⟨th, st₁, htopic, hrenew, rfl⟩
  · have hkept : st.Reselected (st.withGroupId groupName) st.session.topicName (some groupName) :=
      ⟨⟨fun _ _ _ => rfl, Nat.le_refl _, Nat.le_refl _, fun h t ht => .inl ⟨t, ht, fun _ => id⟩⟩,
        fun _ hth => .inl hth,
        .inr (.inl ⟨rfl, fun _ => rfl, fun th hth => nomatch htopic.symm.trans hth⟩)⟩
    exact hkept.reply groupSet
  · have hrenewed := renewed_renewGroup hrenew
    have htopics : st₁.world.topics = st.world.topics := hrenewed.topics
    suffices hkept : st.Reselected st₁ st.session.topicName (some groupName) from
      hkept.reply groupSet
    refine ⟨⟨hrenewed.groups, hrenewed.groupsFresh,
      Nat.le_of_eq (congrArg HandleHeap.fresh htopics).symm,
      fun h t ht => .inl ⟨t, htopics ▸ ht, fun _ => id⟩⟩, fun th' hth' => .inl ?_, ?_⟩
    · rw [hrenewed.session] at hth'
      exact hth'
    rcases hrenewed.group with hnone | ⟨gh, name, hgroup, hfresh, hname, hget⟩
    · exact .inl hnone
    · refine .inr (.inr ⟨gh, th, name, hgroup, ?_, hfresh, ?_, ?_, hget⟩)
      · rw [hrenewed.session]
        exact htopic
      · change (if (st.machine none).outcome.alloc then some groupName else none) = some name
          at hname
        split at hname
        · exact hname
        · cases hname
      · rw [hrenewed.session]
        rfl

/-- The session has kept its group and no topic has moved to another file. -/
structure KeepsGroups (st st' : SessionState) : Prop where
  group : st'.session.group = st.session.group
  groupId : st'.session.groupId = st.session.groupId
  groups : st'.world.groups = st.world.groups
  topicsFresh : st.world.topics.fresh ≤ st'.world.topics.fresh
  topics : ∀ h t', st'.world.topics.get h = some t' →
    (∃ t, st.world.topics.get h = some t ∧ ∀ path, t.On path → t'.On path) ∨
      st.world.topics.fresh ≤ h ∧ ∃ path, t'.On path

/-- The topic of the session, if it has one, is new. -/
def NewTopic (st st' : SessionState) (topicName : Option Bytes) : Prop :=
  ∀ th, st'.session.topic = some th →
    st.world.topics.fresh ≤ th ∧ th < st'.world.topics.fresh ∧ st'.session.topicName = topicName

/-- Give the session the topic that a program sets up. -/
def withNewTopic (p : Broker (Option Topic)) : SessionM Unit := do
  let topic ← SessionM.newTopic (← SessionM.detached p)
  SessionM.modifySession fun s => { s with topic := topic }

/-- The end of `SET_TOPIC`: a new group on the new topic. -/
def finishSelection : SessionM ℤ := do
  let session ← SessionM.getSession
  match session.topic, session.groupId with
  | some topic, some _ => renewGroup topic
  | _, _ => pure ()
  SessionM.reply topicSet
  return 0

/-- A new group is made when the session has a topic and a group id. -/
theorem finishSelection_cases {r : ℤ} (hrun : finishSelection st = some (r, st')) :
    ((st.session.topic = none ∨ st.session.groupId = none) ∧ st' = st.replied topicSet) ∨
      ∃ th name st₁, st.session.topic = some th ∧ st.session.groupId = some name ∧
        renewGroup th st = some ((), st₁) ∧ st' = st₁.replied topicSet := by
  rw [finishSelection, getSession_bind] at hrun
  cases htopic : st.session.topic with
  | none =>
    simp only [htopic] at hrun
    obtain ⟨-, rfl⟩ := Prod.mk.inj (Option.some.inj hrun)
    exact .inl ⟨.inl rfl, rfl⟩
  | some th =>
    cases hid : st.session.groupId with
    | none =>
      simp only [htopic, hid] at hrun
      obtain ⟨-, rfl⟩ := Prod.mk.inj (Option.some.inj hrun)
      exact .inl ⟨.inr rfl, rfl⟩
    | some name =>
      simp only [htopic, hid] at hrun
      obtain ⟨⟨⟩, st₁, hrenew, hrun⟩ := SessionM.bind_eq_some_iff.mp hrun
      obtain ⟨-, rfl⟩ := Prod.mk.inj (Option.some.inj hrun)
      exact .inr ⟨th, name, st₁, rfl, rfl, hrenew, rfl⟩

/-- The state after `SET_TOPIC` has stored the name of the topic. -/
def withTopicName (st : SessionState) (topicName : Bytes) : SessionState :=
  { st.allocated with session := { st.session with
      topicName := if (st.machine none).outcome.alloc then some topicName else none } }

/-- `topic_free` unless there is no topic. -/
def freeTopic : Option ℕ → SessionM Unit
  | some h => SessionM.topicFree h
  | none => return ()

theorem handleSetTopic_eq (topicName : Bytes) (st : SessionState) :
    handleSetTopic topicName st = (if (st.machine none).outcome.alloc then (do
        if ← Prod.fst <$> SessionM.detached (topicExists topicName defaultTopicBasePath) then
          freeTopic (← SessionM.getSession).topic
          withNewTopic (openTopic topicName)
          finishSelection
        else
          withNewTopic (createTopic topicName defaultTopicBasePath)
          finishSelection)
      else (do
        SessionM.modifySession fun s => { s with topic := none }
        finishSelection)) (st.withTopicName topicName) := by
  rw [handleSetTopic, SessionM.bind_of_eq_some (SessionM.malloc_eq st), withTopicName]
  cases (st.machine none).outcome.alloc with
  | false => rfl
  | true =>
    simp only [↓reduceIte]
    refine (SessionM.bind_of_eq_some rfl).trans (congrFun (congrArg _ (funext fun found => ?_)) _)
    cases found with
    | false => simp only [withNewTopic, finishSelection, bind_assoc]; rfl
    | true =>
      rw [if_pos rfl, if_pos rfl]
      refine congrArg _ (funext ?_)
      rintro ⟨group, topic, groupId, topicName⟩
      cases topic <;> simp only [withNewTopic, finishSelection, bind_assoc] <;> rfl

theorem KeepsGroups.withNewTopic {topicName : Option Bytes} {p : Broker (Option Topic)}
    (h : st.KeepsGroups st') (hname : st'.session.topicName = topicName)
    (hp : ∀ (s : Machine) t s', p.exec s = some (some t, s') → ∃ path, s'.OnTopic path)
    (hrun : SessionState.withNewTopic p st' = some ((), st'')) :
    st.KeepsGroups st'' ∧ st.NewTopic st'' topicName := by
  obtain ⟨⟨r, chunk⟩, st₁, hsetup, hrun⟩ := SessionM.bind_eq_some_iff.mp hrun
  obtain ⟨m, hexec, rfl, rfl⟩ := SessionM.detached_eq_some_iff.mp hsetup
  obtain ⟨topic, st₂, hnew, hrun⟩ := SessionM.bind_eq_some_iff.mp hrun
  obtain ⟨-, rfl⟩ := Prod.mk.inj (Option.some.inj hrun)
  cases r with
  | none =>
    obtain ⟨rfl, rfl⟩ := Prod.mk.inj (Option.some.inj hnew)
    exact ⟨⟨h.group, h.groupId, h.groups, h.topicsFresh, h.topics⟩, fun th hth => nomatch hth⟩
  | some t =>
    obtain ⟨rfl, rfl⟩ := Prod.mk.inj (Option.some.inj hnew)
    refine ⟨⟨h.group, h.groupId, h.groups, ?_, fun k t' ht' => ?_⟩, fun th hth => ?_⟩
    · exact Nat.le_trans (Nat.le_trans h.topicsFresh (Nat.le_succ _))
        (Nat.le_of_eq HandleHeap.fresh_alloc.symm)
    · by_cases hk : k = st'.world.topics.fresh
      · subst hk
        cases HandleHeap.get_alloc_self.symm.trans ht'
        exact .inr ⟨h.topicsFresh, hp _ t m hexec⟩
      · exact h.topics k t' ((HandleHeap.get_alloc_of_ne hk).symm.trans ht')
    · cases hth
      exact ⟨h.topicsFresh, HandleHeap.lt_fresh_of_get HandleHeap.get_alloc_self, hname⟩

/-- Freeing the topic keeps the groups, also those that are attached to it. -/
theorem KeepsGroups.freeTopic (h : st.KeepsGroups st') (topic : Option ℕ) :
    ∃ st'', SessionState.freeTopic topic st' = some ((), st'') ∧ st.KeepsGroups st'' ∧
      st''.session = st'.session := by
  cases topic with
  | none => exact ⟨st', rfl, h, rfl⟩
  | some th =>
    refine ⟨_, rfl, ⟨h.group, h.groupId, h.groups, ?_, fun k t' ht' => ?_⟩, rfl⟩
    · exact Nat.le_trans h.topicsFresh (Nat.le_of_eq HandleHeap.fresh_free.symm)
    · by_cases hk : k = th
      · subst hk
        cases HandleHeap.get_free_self.symm.trans ht'
      · exact h.topics k t' ((HandleHeap.get_free_of_ne hk).symm.trans ht')

theorem onTopic_of_chunkInit {s s' : Machine} {b : Bool}
    (hrun : (chunkInit path).exec s = some (b, s')) : s'.OnTopic path := by
  obtain ⟨-, rfl⟩ := Prod.mk.inj (Option.some.inj hrun)
  intro c hc
  obtain ⟨hpath, hrep⟩ := Writer.chunkInit_represents hc
  exact ⟨hpath, hrep.wellFormed⟩

theorem onTopic_of_chunkLoad {s s' : Machine} {r : ℤ} (h : s.OnTopic path)
    (hrun : chunkLoad.exec s = some (r, s')) : s'.OnTopic path := by
  obtain ⟨s₁, -, h₁, hcases⟩ := h.exec_chunkLoad
  rcases hcases with ⟨-, hload⟩ | ⟨-, -, -, hload⟩ <;>
    obtain ⟨-, rfl⟩ := Prod.mk.inj (Option.some.inj (hrun.symm.trans hload)) <;> exact h₁

theorem onTopic_of_openTopic {topicName : Bytes} {s s' : Machine} {t : Topic}
    (hrun : (openTopic topicName).exec s = some (some t, s')) :
    s'.OnTopic ((topicPath topicName defaultTopicBasePath).take 511) := by
  obtain ⟨granted, s₁, -, hrun⟩ := CallProgram.run_bind_eq_some_iff.mp hrun
  cases granted with
  | false => cases (CallProgram.run_pure_eq_some_iff.mp hrun).1
  | true =>
  obtain ⟨name, s₂, -, hrun⟩ := CallProgram.run_bind_eq_some_iff.mp hrun
  obtain ⟨copied, s₃, -, hrun⟩ := CallProgram.run_bind_eq_some_iff.mp hrun
  obtain ⟨made, s₄, hinit, hrun⟩ := CallProgram.run_bind_eq_some_iff.mp hrun
  have hon := onTopic_of_chunkInit hinit
  cases made with
  | false =>
    obtain ⟨-, rfl⟩ := CallProgram.run_pure_eq_some_iff.mp hrun
    exact hon
  | true =>
    obtain ⟨loaded, s₅, hload, hrun⟩ := CallProgram.run_bind_eq_some_iff.mp hrun
    obtain ⟨-, rfl⟩ := CallProgram.run_pure_eq_some_iff.mp hrun
    exact onTopic_of_chunkLoad hon hload

/-- A new topic gets a new group if the session has a group id. -/
theorem KeepsGroups.finishSelection {topicName : Option Bytes} (h : st.KeepsGroups st')
    (hnew : st.NewTopic st' topicName) {r : ℤ}
    (hrun : SessionState.finishSelection st' = some (r, st'')) :
    st.Reselected st'' topicName st.session.groupId := by
  have hconfined : st.Confined st' :=
    ⟨fun k _ _ => congrArg (HandleHeap.get · k) h.groups,
      Nat.le_of_eq (congrArg HandleHeap.fresh h.groups).symm, h.topicsFresh, h.topics⟩
  rcases finishSelection_cases hrun with ⟨-, rfl⟩ | ⟨th, name, st₁, htopic, hid, hrenew, rfl⟩
  · -- Without a topic or a group id the session keeps its group.
    exact Reselected.reply ⟨hconfined, fun th hth => .inr (hnew th hth).2.1, .inr (.inl
      ⟨h.group, fun k => congrArg (HandleHeap.get · k) h.groups, fun th hth => (hnew th hth).1⟩)⟩
      topicSet
  have hrenewed := renewed_renewGroup hrenew
  suffices hsel : st.Reselected st₁ topicName st.session.groupId from hsel.reply topicSet
  have hfresh := congrArg HandleHeap.fresh h.groups
  refine ⟨⟨fun k hne hlt => ?_, Nat.le_trans (Nat.le_of_eq hfresh.symm) hrenewed.groupsFresh,
    ?_, fun k t ht => ?_⟩, fun th' hth' => .inr ?_, ?_⟩
  · rw [hrenewed.groups k (h.group ▸ hne) (Nat.lt_of_lt_of_eq hlt hfresh.symm), h.groups]
  · rw [hrenewed.topics]
    exact h.topicsFresh
  · rw [hrenewed.topics] at ht
    exact h.topics k t ht
  · rw [hrenewed.session] at hth'
    rw [hrenewed.topics]
    exact (hnew th' hth').2.1
  · rcases hrenewed.group with hnone | ⟨gh, name', hgroup, hge, hname', hget⟩
    · exact .inl hnone
    · refine .inr (.inr ⟨gh, th, name', hgroup, ?_, Nat.le_trans (Nat.le_of_eq hfresh.symm) hge,
        h.groupId ▸ hname', ?_, hget⟩)
      · rw [hrenewed.session]
        exact htopic
      · rw [hrenewed.session]
        exact (hnew th htopic).2.2

theorem reselected_setTopic {topicName : Bytes} {r : ℤ}
    (hrun : handleSetTopic topicName st = some (r, st')) :
    st.Reselected st' (some topicName) st.session.groupId := by
  have hkept (m : Machine) : st.KeepsGroups ((st.withTopicName topicName).after m) :=
    ⟨rfl, rfl, rfl, Nat.le_refl _, fun k t ht => .inl ⟨t, ht, fun _ => id⟩⟩
  rw [handleSetTopic_eq] at hrun
  cases halloc : (st.machine none).outcome.alloc with
  | false =>
    rw [halloc] at hrun
    have hnone : st.KeepsGroups { st.withTopicName topicName with
        session := { (st.withTopicName topicName).session with topic := none } } :=
      ⟨rfl, rfl, rfl, Nat.le_refl _, fun k t ht => .inl ⟨t, ht, fun _ => id⟩⟩
    exact hnone.finishSelection (fun th hth => by cases hth) hrun
  | true =>
  rw [halloc, if_pos rfl] at hrun
  obtain ⟨found, st₁, hfound, hrun⟩ := SessionM.bind_eq_some_iff.mp hrun
  obtain ⟨_, hdetached, -⟩ := SessionM.map_eq_some_iff.mp hfound
  obtain ⟨m, -, -, rfl⟩ := SessionM.detached_eq_some_iff.mp hdetached
  have hname : ((st.withTopicName topicName).after m).session.topicName = some topicName := by
    change (if (st.machine none).outcome.alloc then some topicName else none) = _
    rw [halloc, if_pos rfl]
  cases found with
  | true =>
    rw [if_pos rfl, getSession_bind] at hrun
    obtain ⟨st₂, hfree, hkept₂, hsession⟩ :=
      (hkept m).freeTopic ((st.withTopicName topicName).after m).session.topic
    rw [SessionM.bind_of_eq_some hfree] at hrun
    obtain ⟨⟨⟩, st₃, hset, hrun⟩ := SessionM.bind_eq_some_iff.mp hrun
    obtain ⟨hkept₃, hnew⟩ := hkept₂.withNewTopic (hsession ▸ hname)
      (fun s t s' hopen => ⟨_, onTopic_of_openTopic hopen⟩) hset
    exact hkept₃.finishSelection hnew hrun
  | false =>
    obtain ⟨⟨⟩, st₃, hset, hrun⟩ := SessionM.bind_eq_some_iff.mp hrun
    obtain ⟨hkept₃, hnew⟩ := (hkept m).withNewTopic hname
      (fun s t s' hcreate => ⟨_, ((exec_createTopic hcreate).2 t rfl).1.onTopic⟩) hset
    exact hkept₃.finishSelection hnew hrun

/-! ### The end of a session -/

theorem clientSessionFree_eq : clientSessionFree = (do
    let session ← SessionM.getSession
    freeGroup session.group
    freeTopic session.topic
    SessionM.modifySession fun _ => .fresh) := by
  refine congrArg _ (funext ?_)
  rintro ⟨group, topic, groupId, topicName⟩
  cases group <;> cases topic <;> rfl

theorem run_clientSessionFree (st : SessionState) :
    ∃ st', clientSessionFree st = some ((), st') ∧ st.Confined st' ∧ st'.session = .fresh := by
  obtain ⟨st₁, hfree, hsession, htopics, hfresh, hothers⟩ := run_freeGroup st.session.group st
  have hkept : st₁.KeepsGroups st₁ :=
    ⟨rfl, rfl, rfl, Nat.le_refl _, fun k t ht => .inl ⟨t, ht, fun _ => id⟩⟩
  obtain ⟨st₂, hfree₂, hkept₂, -⟩ := hkept.freeTopic st.session.topic
  refine ⟨{ st₂ with session := .fresh }, ?_, ⟨fun k hk _ => ?_, ?_, ?_, fun k t ht => ?_⟩, rfl⟩
  · rw [clientSessionFree_eq, getSession_bind, SessionM.bind_of_eq_some hfree,
      SessionM.bind_of_eq_some hfree₂]
    rfl
  · exact (congrArg (HandleHeap.get · k) hkept₂.groups).trans (hothers k hk)
  · exact Nat.le_of_eq (hfresh.symm.trans (congrArg HandleHeap.fresh hkept₂.groups).symm)
  · rw [← htopics]
    exact hkept₂.topicsFresh
  · rw [← htopics]
    exact hkept₂.topics k t ht

/-! ### Handles in use -/

/-- The topics that the session knows of have been made. -/
structure Bounded (st : SessionState) : Prop where
  topic : ∀ th, st.session.topic = some th → th < st.world.topics.fresh
  attached : ∀ gh g, st.session.group = some gh → st.world.groups.get gh = some g →
    g.attachedTopic < st.world.topics.fresh

theorem Bounded.of_idle (h : st.Bounded) (hidle : st.Idle st') : st'.Bounded := by
  refine ⟨fun th hth => ?_, fun gh g hgh hg => ?_⟩
  · rw [hidle.session] at hth
    rw [hidle.topicsFresh]
    exact h.topic th hth
  · rw [hidle.session] at hgh
    rw [hidle.groups] at hg
    rw [hidle.topicsFresh]
    exact h.attached gh g hgh hg

/-- The group of the session has moved on its topic. -/
theorem Bounded.of_moved (h : st.Bounded) (hsession : st'.session = st.session)
    (hconfined : st.Confined st') (hhas : st.HasGroup gh th g)
    (hobject : st'.world.groups.get gh = some g') (hattached : g'.attachedTopic = g.attachedTopic) :
    st'.Bounded := by
  refine ⟨fun th' hth' => ?_, fun gh₁ g₁ hgh hg => ?_⟩
  · rw [hsession] at hth'
    exact Nat.lt_of_lt_of_le (h.topic th' hth') hconfined.topicsFresh
  · rw [hsession, hhas.group] at hgh
    cases hgh
    cases hobject.symm.trans hg
    rw [hattached]
    exact Nat.lt_of_lt_of_le (h.attached gh g hhas.group hhas.object) hconfined.topicsFresh

theorem Bounded.of_reselected (h : st.Bounded) {topicName groupId : Option Bytes}
    (hsel : st.Reselected st' topicName groupId) : st'.Bounded := by
  have htopic (th : ℕ) (hth : st'.session.topic = some th) : th < st'.world.topics.fresh := by
    rcases hsel.topic th hth with hold | hlt
    · exact Nat.lt_of_lt_of_le (h.topic th hold) hsel.confined.topicsFresh
    · exact hlt
  refine ⟨htopic, fun gh g hgh hg => ?_⟩
  rcases hsel.group with hnone | ⟨hsame, hgroups, -⟩ | ⟨gh', th, name, hgh', hth, -, -, -, hnew⟩
  · cases hnone.symm.trans hgh
  · rw [hsame] at hgh
    rw [hgroups] at hg
    exact Nat.lt_of_lt_of_le (h.attached gh g hgh hg) hsel.confined.topicsFresh
  · cases hgh'.symm.trans hgh
    cases hnew.symm.trans hg
    exact htopic th hth

end SessionState

end SuparnaD
