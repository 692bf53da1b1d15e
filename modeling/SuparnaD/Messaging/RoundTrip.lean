import SuparnaD.Messaging.TopicCreation

/-!
# From publishing to consuming

The whole way of the events of a topic: `create_topic`, calls of the publishing functions that all
return `0`, `create_group`, and `consume_packet` until it returns `NULL`. The frames of the events
are in the file, in order, but after the two bytes that `create_topic` has written there. A new
group starts before these two bytes, so the first length header that it reads is made of them and of
the first half of the real one.

## Main definitions

* `publishAll`, `ConsumesExactly`.

## Main results

* `exec_publishAll` : the frames of all events follow the initial data.
* `parseAt_initialData` : no event is read back from the start of the file.
* `consumesExactly_iff` : the events come back exactly when there are none.
-/

namespace SuparnaD

open Broker

/-- Publish with each call in turn, as long as they return `0`. -/
def publishAll : List PublishCall → Broker Bool
  | [] => return true
  | p :: ps => do
    if (← p.run) ≠ 0 then
      return false
    publishAll ps

/-- Calling `consume_packet` again and again returns packets with exactly these data and then
`NULL`. -/
def ConsumesExactly (topic : ℕ) : List Bytes → Group → Machine → Prop
  | [], g, s => ∃ g' s', (consumePacket g topic).exec s = some ((none, g'), s')
  | e :: es, g, s => ∃ p g' s', (consumePacket g topic).exec s = some ((some p, g'), s') ∧
      p.data = e ∧ ConsumesExactly topic es g' s'

/-- Storage and allocation succeed, the file has the given content, and the chunk shows it. -/
structure Machine.Settled (s : Machine) (path content : Bytes) : Prop where
  shows : s.Shows path content
  file : s.fs.read path = some content
  faults : s.faults = []

variable {s s' : Machine} {path content : Bytes}

theorem Machine.Settled.ready (h : s.Settled path content) : s.Ready path content := by
  obtain ⟨c, hs, -, -⟩ := h.shows
  exact ⟨h.shows.onTopic, by rw [hs, Option.isSome_some], h.faults, h.file, h.shows.length_lt⟩

/-- A call that returns `0` adds the frames of its events to the file. -/
theorem Machine.Settled.exec_publish (h : s.Settled path content) {p : PublishCall}
    (hrun : p.run.exec s = some (0, s')) :
    s'.Settled path (content ++ topicFormat.stream p.events) := by
  rcases PublishCall.exec_run_cases hrun with
    ⟨hne, -⟩ | ⟨item, items, faults, hpay, -, hfaults, hloop, -⟩
  · exact absurd rfl hne
  have hsame : s.withFaults faults = s := by rw [hfaults h.faults, ← h.faults]; rfl
  rw [hsame] at hloop
  rcases Machine.Logs.exec_publishBatchLoop h.shows hloop with
    ⟨-, ds, hds, -, hwrote, hlog⟩ | ⟨hne, -⟩
  swap
  · cases hne
  have hevents : p.events = ds := by
    rw [PublishCall.events, hpay, hds, List.filterMap_map]
    exact List.filterMap_some
  rw [DeltaLog.commit_append_load] at hlog
  obtain ⟨content', hcontent⟩ := Option.isSome_iff_exists.mp (hwrote.isSome (by rw [h.file]; rfl))
  have hfile := hwrote.file
  rw [Machine.file, Machine.file, hcontent, h.file, DeltaLog.pending_load, List.nil_append] at hfile
  rw [hevents]
  exact ⟨hlog, hcontent.trans (congrArg some hfile), hwrote.faults h.faults⟩

/-- After calls that all return `0` the frames of their events follow what was in the file. -/
theorem Machine.Settled.exec_publishAll (h : s.Settled path content) {calls : List PublishCall}
    (hrun : (publishAll calls).exec s = some (true, s')) :
    s'.Settled path (content ++ topicFormat.stream (calls.flatMap PublishCall.events)) := by
  induction calls generalizing s content with
  | nil =>
    obtain ⟨-, rfl⟩ := CallProgram.run_pure_eq_some_iff.mp hrun
    simpa using h
  | cons p ps ih =>
    obtain ⟨r, t, hpublish, hrun⟩ := CallProgram.run_bind_eq_some_iff.mp hrun
    obtain ⟨hr, hrun⟩ := (CallProgram.run_unless_eq_some_iff Bool.false_ne_true).mp hrun
    rw [not_not.mp hr] at hpublish
    have := ih (h.exec_publish hpublish) hrun
    rwa [List.append_assoc, ← FrameFormat.stream_append, ← List.flatMap_cons] at this

/-- A new group starts at offset `0`, and making it touches nothing but the allocator. -/
theorem exec_createGroup {groupId : Bytes} {topic : ℕ} {g : Group}
    (hrun : (createGroup (some groupId) topic).exec s = some (some g, s')) :
    g = ⟨groupId, topic, 0, 0⟩ ∧ s' = s.next.next := by
  have hsome : none ≠ some g := (Option.some_ne_none g).symm
  obtain ⟨-, hrun⟩ := (CallProgram.run_unless_eq_some_iff hsome).mp hrun
  obtain ⟨a, s₁, ha, hrun⟩ := CallProgram.run_bind_eq_some_iff.mp hrun
  obtain ⟨rfl, rfl⟩ := Prod.mk.inj (Option.some.inj ha)
  obtain ⟨-, hrun⟩ := (CallProgram.run_unless_eq_some_iff hsome).mp hrun
  obtain ⟨b, s₂, hb, hrun⟩ := CallProgram.run_bind_eq_some_iff.mp hrun
  obtain ⟨rfl, rfl⟩ := Prod.mk.inj (Option.some.inj hb)
  obtain ⟨-, hrun⟩ := (CallProgram.run_unless_eq_some_iff hsome).mp hrun
  obtain ⟨hg, rfl⟩ := CallProgram.run_pure_eq_some_iff.mp hrun
  exact ⟨(Option.some.inj hg).symm, rfl⟩

theorem Machine.Settled.next (h : s.Settled path content) : s.next.Settled path content :=
  ⟨h.shows, h.file, (Machine.kept_next s).faults h.faults⟩

/-- The header at the start of the file is made of the initial data and of the lower half of the
length of the first event. It never states that length. -/
theorem parseAt_initialData (e rest : Bytes) :
    topicFormat.parseAt (initialData ++ (topicFormat.frame e ++ rest)) 0 ≠ some e := by
  intro h
  obtain ⟨hvalue, hvalid, -, -⟩ := FrameFormat.parseAt_eq_some_iff.mp h
  have hmax : e.length ≤ 10485760 := hvalid.2
  have hhead : ((initialData ++ (topicFormat.frame e ++ rest)).drop 0).take 4 =
      [123, 125, e.length.toUInt32.toNat.toUInt8, (e.length.toUInt32.toNat / 256).toUInt8] := rfl
  have hlow : leNat [123, 125, e.length.toUInt32.toNat.toUInt8,
      (e.length.toUInt32.toNat / 256).toUInt8] =
      32123 + 65536 * (e.length % 256) + 16777216 * (e.length / 256 % 256) := by
    rw [toNat_toUInt32 (by omega)]
    simp only [leNat, List.getD_cons_zero, List.getD_cons_succ, Nat.toUInt8, UInt8.toNat_ofNat',
      UInt8.reduceToNat]
  rw [topicFormat_headerLen, topicFormat_value, hhead, hlow] at hvalue
  omega

/-- The first consumption from a new group of a settled topic. -/
theorem Machine.Settled.exec_consumePacket (h : s.Settled path content) (groupId : Bytes)
    (topic : ℕ) :
    ∃ r s', (consumePacket ⟨groupId, topic, 0, 0⟩ topic).exec s = some (r, s') ∧
      (r.1 = none ∧ topicFormat.parseAt content 0 = none ∨
        ∃ d p, topicFormat.parseAt content 0 = some d ∧ r.1 = some p ∧ p.data = d) := by
  obtain ⟨r, s', hrun, -, -, hcases⟩ := h.shows.onTopic.exec_consumePacket
    (g := ⟨groupId, topic, 0, 0⟩) rfl
  refine ⟨r, s', hrun, ?_⟩
  rcases hcases with ⟨rfl, hnone⟩ | ⟨d, hd, -, rfl⟩
  · exact .inl ⟨rfl, hnone content h.ready⟩
  · rw [h.file, Option.getD_some] at hd
    exact .inr ⟨d, _, hd, rfl, rfl⟩

/-- The events that were published on a new topic come back from a new group, in order and followed
by `NULL`, exactly when no event was published. -/
theorem consumesExactly_iff {topicName basePath groupId : Bytes} {calls : List PublishCall}
    {s₀ s₁ s₂ s₃ : Machine} {t : Topic} {handle : ℕ} {g : Group} (hfaults : s₀.faults = [])
    (hcreate : (createTopic topicName basePath).exec s₀ = some (some t, s₁))
    (hpublish : (publishAll calls).exec s₁ = some (true, s₂))
    (hgroup : (createGroup (some groupId) handle).exec s₂ = some (some g, s₃)) :
    ConsumesExactly handle (calls.flatMap PublishCall.events) g s₃ ↔
      calls.flatMap PublishCall.events = [] := by
  obtain ⟨hgrew, hset⟩ := exec_createTopic hcreate
  obtain ⟨hshow, hfile, hfree⟩ := hset t rfl
  rw [Machine.file, hfree hfaults, Option.getD_none, List.nil_append] at hfile
  have hsettled : s₁.Settled (topicPath topicName basePath) initialData :=
    ⟨hshow, hfile, hgrew.faults hfaults⟩
  obtain ⟨rfl, rfl⟩ := exec_createGroup hgroup
  obtain ⟨r, s', hrun, hcases⟩ :=
    (hsettled.exec_publishAll hpublish).next.next.exec_consumePacket groupId handle
  cases hevents : calls.flatMap PublishCall.events with
  | nil =>
    have hnone : topicFormat.parseAt initialData 0 = none := by decide
    refine iff_of_true ?_ rfl
    rw [hevents, FrameFormat.stream_nil, List.append_nil, hnone] at hcases
    rcases hcases with ⟨hr, -⟩ | ⟨d, p, hd, -⟩
    · exact ⟨r.2, s', by rw [hrun, ← hr]⟩
    · cases hd
  | cons e es =>
    refine iff_of_false ?_ (List.cons_ne_nil e es)
    rintro ⟨p, g', s'', hrun', rfl, -⟩
    obtain ⟨rfl, rfl⟩ := Prod.mk.inj (Option.some.inj (hrun.symm.trans hrun'))
    rcases hcases with ⟨hr, -⟩ | ⟨d, p', hd, hp, rfl⟩
    · cases hr
    · rw [hevents, FrameFormat.stream_cons] at hd
      cases hp
      exact parseAt_initialData _ _ hd

/-- `emptyMachine` after the topic `t` has been made. -/
def sampleCreated : Machine :=
  ((createTopic (ascii "t") (ascii "b")).exec emptyMachine).elim emptyMachine Prod.snd

/-- The event `a` is published. -/
def sampleCalls : List PublishCall := [.event (some (ascii "a"))]

/-- `sampleCreated` after the event has been published. -/
def samplePublished : Machine :=
  ((publishAll sampleCalls).exec sampleCreated).elim emptyMachine Prod.snd

/-- A new group. -/
def sampleGroup : Group := ⟨ascii "g", 0, 0, 0⟩

theorem consumesExactly_iff_sample :
    ConsumesExactly 0 (sampleCalls.flatMap PublishCall.events) sampleGroup
        samplePublished.next.next ↔ sampleCalls.flatMap PublishCall.events = [] := by
  have hcreate : (createTopic (ascii "t") (ascii "b")).exec emptyMachine =
      some (some ⟨some (ascii "t"), some (topicPath (ascii "t") (ascii "b"))⟩, sampleCreated) := rfl
  have hgroup : (createGroup (some (ascii "g")) 0).exec samplePublished =
      some (some sampleGroup, samplePublished.next.next) := rfl
  exact consumesExactly_iff rfl hcreate rfl hgroup

/-- The event does not come back: the first header states 97659 bytes, so that there is no whole
frame. -/
theorem not_consumesExactly_sample :
    (createTopic (ascii "t") (ascii "b")).exec emptyMachine =
        some (some ⟨some (ascii "t"), some (topicPath (ascii "t") (ascii "b"))⟩, sampleCreated) ∧
      (publishAll sampleCalls).exec sampleCreated = some (true, samplePublished) ∧
      (createGroup (some (ascii "g")) 0).exec samplePublished =
        some (some sampleGroup, samplePublished.next.next) ∧
      ¬ ConsumesExactly 0 [ascii "a"] sampleGroup samplePublished.next.next := by
  refine ⟨rfl, rfl, rfl, ?_⟩
  rintro ⟨p, g', s', hrun, -⟩
  have hnull : ((consumePacket sampleGroup 0).exec samplePublished.next.next).map
      (fun r => r.1.1) = some none := by decide
  rw [hrun] at hnull
  cases hnull

end SuparnaD
