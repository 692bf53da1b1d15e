import SuparnaD.Messaging.ReadOnly
import SuparnaD.Socket.HandleOwnership
import SuparnaD.Socket.Server

/-!
# Sessions and the files

What the commands of a session do to the files and to the script of outcomes. The programs that they
run never save a chunk, except for the setup of a new topic. So a relation that holds for every
program without a save and for `create_topic` holds for every command.

## Main definitions

* `Broker.Unsaving` : the program saves no chunk.
* `SessionRelation` : a relation that the programs of a session keep.

## Main results

* `SessionRelation.recordedCommand`, `SessionRelation.clientSessionFree`.
-/

namespace SuparnaD

open Broker CallProgram SessionM

/-- The files and the script of outcomes. -/
abbrev Storage : Type := FileSystem × List IoOutcome

/-- The files and the script of a machine. -/
abbrev Machine.storage (s : Machine) : Storage := (s.fs, s.faults)

/-- The files and the script of a world. -/
abbrev World.storage (w : World) : Storage := (w.fs, w.faults)

/-! ### Programs that save nothing -/

/-- All calls but `chunk_save_delta`. -/
def BrokerCall.Unsaving : BrokerCall → Prop
  | .chunkSaveDelta => False
  | _ => True

/-- The program saves no chunk. -/
abbrev Broker.Unsaving {α : Type} (p : Broker α) : Prop :=
  p.Within BrokerCall.Unsaving fun _ => True

section

variable {α : Type}

theorem Broker.ReadsOnly.unsaving {p : Broker α} (hp : p.ReadsOnly) : p.Unsaving :=
  Within.weaken hp fun c hc => by cases c <;> trivial

theorem Broker.Looks.unsaving {p : Broker α} (hp : p.Looks) : p.Unsaving := hp.readsOnly.unsaving

theorem Broker.OnDirectories.unsaving {p : Broker α} (hp : p.OnDirectories) : p.Unsaving :=
  Within.weaken hp fun c hc => by cases c <;> trivial

theorem unsaving_issue {c : BrokerCall} (h : c.Unsaving) :
    Broker.Unsaving (CallProgram.issue c : CallProgram brokerCalls _) := ⟨h, fun _ => trivial⟩

theorem unsaving_malloc : malloc.Unsaving := unsaving_issue (c := .malloc) trivial

theorem unsaving_send (data : Bytes) : (send data).Unsaving :=
  unsaving_issue (c := .send data) trivial

theorem unsaving_sendLoop (fuel : ℕ) (data : Bytes) : (sendLoop fuel data).Unsaving := by
  induction fuel generalizing data with
  | zero => cases data <;> exact trivial
  | succ fuel ih =>
    cases data with
    | nil => exact trivial
    | cons b rest =>
      exact (unsaving_send _).bind fun sent _ => .ite (fun _ => trivial) fun _ =>
        .ite (fun _ => trivial) fun _ => ih _

theorem unsaving_sendPacketToConsumer (data : Bytes) : (sendPacketToConsumer data).Unsaving := by
  refine .ite (fun _ => trivial) fun _ => .ite (fun _ => trivial) fun _ => ?_
  refine Within.bind (Q := fun _ => True) ((unsaving_send _).bind fun sent _ =>
    .ite (fun _ => trivial) fun _ => trivial) fun r _ => ?_
  exact .ite (fun _ => trivial) fun _ => unsaving_sendLoop _ _

theorem unsaving_openTopic (topicName : Bytes) : (openTopic topicName).Unsaving := by
  refine unsaving_malloc.bind fun _ _ => .ite (fun _ => trivial) fun _ => ?_
  refine unsaving_malloc.bind fun _ _ => unsaving_malloc.bind fun _ _ => ?_
  refine (unsaving_issue (c := .chunkInit _) trivial).bind fun _ _ =>
    .ite (fun _ => ?_) fun _ => trivial
  exact looks_chunkLoad.unsaving.bind fun _ _ => trivial

/-- A call that saves nothing changes no file. -/
theorem read_perform_unsaving {c : BrokerCall} (hc : c.Unsaving) {s s' : Machine}
    {r : brokerCalls.Answer c} (hcall : perform c s = some (r, s')) (path : Bytes) :
    s'.fs.read path = s.fs.read path := by
  cases c with
  | chunkSaveDelta => exact hc.elim
  | mkdir p =>
    have hdirs : (BrokerCall.mkdir p).OnDirectories := trivial
    exact (sameFiles_of_perform hdirs hcall).read path
  | chunkAppend data =>
    cases hs : s.chunk with
    | none =>
      rw [perform, hs] at hcall
      obtain ⟨-, rfl⟩ := Prod.mk.inj (Option.some.inj hcall)
      rfl
    | some c =>
      rw [perform, hs] at hcall
      obtain ⟨r', -, heq⟩ := Option.map_eq_some_iff.mp hcall
      obtain ⟨-, rfl⟩ := Prod.mk.inj heq
      rfl
  | chunkInit path | chunkFree =>
    obtain ⟨-, rfl⟩ := Prod.mk.inj (Option.some.inj hcall)
    rfl
  | _ => rw [Machine.perform_reads_fs hcall trivial]

theorem Broker.Unsaving.read_exec {p : Broker α} (hp : p.Unsaving) {s s' : Machine} {a : α}
    (hrun : p.exec s = some (a, s')) (path : Bytes) : s'.fs.read path = s.fs.read path :=
  hp.invariant (J := fun t => t.fs.read path = s.fs.read path)
    (fun _ _ _ _ hc hcall ht => (read_perform_unsaving hc hcall path).trans ht) hrun rfl

end

/-! ### Relations that sessions keep -/

/-- A relation that every program without a save keeps, and `create_topic`. -/
structure SessionRelation (Rel : Storage → Storage → Prop) : Prop where
  refl : ∀ x, Rel x x
  trans : ∀ x y z, Rel x y → Rel y z → Rel x z
  unsaving : ∀ {α : Type} {p : Broker α} {s s' : Machine} {a : α}, p.Unsaving →
    p.exec s = some (a, s') → Rel s.storage s'.storage
  createTopic : ∀ {topicName : Bytes} {s s' : Machine} {r : Option Topic},
    (SuparnaD.createTopic topicName defaultTopicBasePath).exec s = some (r, s') →
      Rel s.storage s'.storage

namespace SessionRelation

/-- The relation between the worlds before and after a computation of a session. -/
abbrev OnWorld (Rel : Storage → Storage → Prop) (st st' : SessionState) : Prop :=
  Rel st.world.storage st'.world.storage

variable {Rel : Storage → Storage → Prop} (h : SessionRelation Rel) {α β : Type}

include h

theorem keeps_pure (a : α) : (pure a : SessionM α).Keeps (OnWorld Rel) := by
  intro st b st' hrun
  obtain ⟨-, rfl⟩ := Prod.mk.inj (Option.some.inj hrun)
  exact h.refl _

theorem keeps_bind {m : SessionM α} {f : α → SessionM β} (hm : m.Keeps (OnWorld Rel))
    (hf : ∀ a, (f a).Keeps (OnWorld Rel)) : (m >>= f).Keeps (OnWorld Rel) := by
  intro st b st' hrun
  obtain ⟨a, t, hrun₁, hrun₂⟩ := SessionM.bind_eq_some_iff.mp hrun
  exact h.trans _ _ _ (hm hrun₁) (hf a hrun₂)

theorem keeps_detached {p : Broker α} (hp : p.Unsaving) :
    (detached p).Keeps (OnWorld Rel) := by
  intro st a st' hrun
  obtain ⟨m, hexec, -, rfl⟩ := detached_eq_some_iff.mp hrun
  exact h.unsaving hp hexec

theorem keeps_onTopic (th : ℕ) {p : Broker α} (hp : p.Unsaving) :
    (onTopic th p).Keeps (OnWorld Rel) := by
  intro st a st' hrun
  obtain ⟨t, m, -, hexec, rfl⟩ := onTopic_eq_some_iff.mp hrun
  exact h.unsaving hp hexec

theorem keeps_onGroup (gh th : ℕ) {f : Group → Broker (α × Group)} (hf : ∀ g, (f g).Unsaving) :
    (onGroup gh th f).Keeps (OnWorld Rel) := by
  intro st a st' hrun
  obtain ⟨g, t, m, g', -, -, hexec, rfl⟩ := onGroup_eq_some_iff.mp hrun
  exact h.unsaving (hf g) hexec

theorem keeps_getSession : getSession.Keeps (OnWorld Rel) := by
  intro st a st' hrun
  obtain ⟨-, rfl⟩ := Prod.mk.inj (Option.some.inj hrun)
  exact h.refl _

theorem keeps_getGroup (gh : ℕ) : (getGroup gh).Keeps (OnWorld Rel) := by
  intro st a st' hrun
  obtain ⟨-, rfl⟩ := getGroup_eq_some_iff.mp hrun
  exact h.refl _

/-- A computation that changes objects only. -/
theorem keeps_modify {f : SessionState → SessionState}
    (hf : ∀ st, (f st).world.storage = st.world.storage) :
    (modify f : SessionM Unit).Keeps (OnWorld Rel) := by
  intro st a st' hrun
  obtain ⟨-, rfl⟩ := Prod.mk.inj (Option.some.inj hrun)
  rw [OnWorld, hf]
  exact h.refl _

theorem keeps_newTopic (r : Option Topic × Option Chunk) :
    (newTopic r).Keeps (OnWorld Rel) := by
  intro st a st' hrun
  obtain ⟨topic, chunk⟩ := r
  cases topic <;> obtain ⟨-, rfl⟩ := Prod.mk.inj (Option.some.inj hrun) <;> exact h.refl _

theorem keeps_newGroup (r : Option Group) : (newGroup r).Keeps (OnWorld Rel) := by
  intro st a st' hrun
  cases r <;> obtain ⟨-, rfl⟩ := Prod.mk.inj (Option.some.inj hrun) <;> exact h.refl _

theorem keeps_freeGroup (group : Option ℕ) :
    (SessionState.freeGroup group).Keeps (OnWorld Rel) := by
  cases group with
  | none => exact h.keeps_pure _
  | some gh => exact h.keeps_modify fun _ => rfl

theorem keeps_freeTopic (topic : Option ℕ) :
    (SessionState.freeTopic topic).Keeps (OnWorld Rel) := by
  cases topic with
  | none => exact h.keeps_pure _
  | some th => exact h.keeps_modify fun _ => rfl

theorem keeps_malloc : SessionM.malloc.Keeps (OnWorld Rel) :=
  h.keeps_bind (h.keeps_detached unsaving_malloc) fun _ => h.keeps_pure _

/-- A reply and a result. -/
theorem keeps_answer (text : Bytes) (r : ℤ) : Keeps (do reply text; return r) (OnWorld Rel) :=
  h.keeps_bind (h.keeps_bind (h.keeps_detached (unsaving_send text)) fun _ => h.keeps_pure _)
    fun _ => h.keeps_pure r

/-! ### Commands -/

theorem handleConsumeCommand : SuparnaD.handleConsumeCommand.Keeps (OnWorld Rel) := by
  refine h.keeps_bind h.keeps_getSession ?_
  rintro ⟨group, topic, groupId, topicName⟩
  cases group with
  | none => exact h.keeps_answer _ _
  | some gh =>
  cases topic with
  | none => exact h.keeps_answer _ _
  | some th =>
  refine h.keeps_bind (h.keeps_getGroup gh) fun g => ?_
  refine h.keeps_bind (h.keeps_onTopic _ (looks_groupHasMoreData g).unsaving) fun more =>
    .ite (h.keeps_answer _ _) ?_
  refine h.keeps_bind (h.keeps_onGroup gh th fun g => (looks_consumePacket g th).unsaving)
    fun packet => ?_
  cases packet with
  | none => exact h.keeps_answer _ _
  | some packet =>
    exact h.keeps_bind (h.keeps_detached (unsaving_sendPacketToConsumer _)) fun _ =>
      h.keeps_pure _

theorem extractJsonValue (json key : Bytes) :
    (SuparnaD.extractJsonValue json key).Keeps (OnWorld Rel) := by
  rw [SuparnaD.extractJsonValue]
  cases findJsonValue json key with
  | none => exact h.keeps_pure _
  | some value =>
    exact h.keeps_bind h.keeps_malloc fun _ => .ite (h.keeps_pure _) (h.keeps_pure _)

theorem handleAckCommand (commandData : Bytes) :
    (SuparnaD.handleAckCommand commandData).Keeps (OnWorld Rel) := by
  refine h.keeps_bind h.keeps_getSession ?_
  rintro ⟨group, topic, groupId, topicName⟩
  cases group with
  | none => exact h.keeps_answer _ _
  | some gh =>
  cases topic with
  | none => exact h.keeps_answer _ _
  | some th =>
  have hnext : (SessionState.ackNextPacket gh th).Keeps (OnWorld Rel) :=
    h.keeps_bind (h.keeps_onGroup gh th fun g => (looks_ackPacketBatch g th 1).unsaving) fun _ =>
      .ite (h.keeps_answer _ _) (h.keeps_answer _ _)
  refine .ite (h.keeps_bind (h.extractJsonValue _ _) fun value => ?_) hnext
  cases value with
  | none => exact hnext
  | some packetSizeStr =>
    exact h.keeps_bind (h.keeps_onGroup gh th fun g => (looks_ackPacketBySize g th _).unsaving)
      fun _ => .ite (h.keeps_answer _ _) hnext

theorem renewGroup (th : ℕ) : (SuparnaD.renewGroup th).Keeps (OnWorld Rel) := by
  rw [SessionState.renewGroup_eq]
  refine h.keeps_bind h.keeps_getSession fun session => h.keeps_bind (h.keeps_freeGroup _) fun _ =>
    h.keeps_bind (h.keeps_detached ?_) fun r => h.keeps_bind (h.keeps_newGroup _) fun _ =>
      h.keeps_modify fun _ => rfl
  exact (onDirectories_createGroup session.groupId th).unsaving

theorem handleSetGroup (groupName : Bytes) :
    (SuparnaD.handleSetGroup groupName).Keeps (OnWorld Rel) := by
  refine h.keeps_bind h.keeps_malloc fun _ => h.keeps_bind (h.keeps_modify fun _ => rfl) fun _ =>
    h.keeps_bind h.keeps_getSession ?_
  rintro ⟨group, topic, groupId, topicName⟩
  cases topic with
  | none => exact h.keeps_answer _ _
  | some th => exact h.keeps_bind (h.renewGroup th) fun _ => h.keeps_answer _ _

theorem finishSelection : SessionState.finishSelection.Keeps (OnWorld Rel) := by
  refine h.keeps_bind h.keeps_getSession ?_
  rintro ⟨group, topic, groupId, topicName⟩
  cases topic with
  | none => exact h.keeps_answer _ _
  | some th =>
    cases groupId with
    | none => exact h.keeps_answer _ _
    | some name => exact h.keeps_bind (h.renewGroup th) fun _ => h.keeps_answer _ _

theorem withNewTopic {p : Broker (Option Topic)}
    (hp : (detached p).Keeps (OnWorld Rel)) : (SessionState.withNewTopic p).Keeps (OnWorld Rel) :=
  h.keeps_bind hp fun _ => h.keeps_bind (h.keeps_newTopic _) fun _ => h.keeps_modify fun _ => rfl

theorem handleSetTopic (topicName : Bytes) :
    (SuparnaD.handleSetTopic topicName).Keeps (OnWorld Rel) := by
  have hcreate : (detached (SuparnaD.createTopic topicName defaultTopicBasePath)).Keeps
      (OnWorld Rel) := by
    intro st a st' hrun
    obtain ⟨m, hexec, -, rfl⟩ := detached_eq_some_iff.mp hrun
    exact h.createTopic hexec
  have hexists := (onDirectories_topicExists topicName defaultTopicBasePath).unsaving
  intro st r st' hrun
  rw [SessionState.handleSetTopic_eq] at hrun
  have hnamed : OnWorld Rel st (st.withTopicName topicName) := h.unsaving unsaving_malloc
    (exec_malloc (s := st.machine none))
  refine h.trans _ _ _ hnamed ?_
  split at hrun
  · refine h.keeps_bind (m := Prod.fst <$> detached _) ?_ (fun found => .ite ?_ ?_) hrun
    · exact h.keeps_bind (h.keeps_detached hexists) fun _ => h.keeps_pure _
    · exact h.keeps_bind h.keeps_getSession fun session =>
        h.keeps_bind (h.keeps_freeTopic _) fun _ =>
          h.keeps_bind (h.withNewTopic (h.keeps_detached (unsaving_openTopic topicName))) fun _ =>
            h.finishSelection
    · exact h.keeps_bind (h.withNewTopic hcreate) fun _ => h.finishSelection
  · exact h.keeps_bind (m := modifySession _) (h.keeps_modify fun _ => rfl)
      (fun _ => h.finishSelection) hrun

/-- Every command of a session keeps the relation. -/
theorem processClientCommand (command : Bytes) :
    (SuparnaD.processClientCommand command).Keeps (OnWorld Rel) :=
  .ite h.handleConsumeCommand <| .ite (h.handleAckCommand _) <|
    .ite (h.handleSetGroup _) <| .ite (h.handleSetTopic _) (h.keeps_answer _ _)

theorem recordedCommand (text : Bytes) :
    (SuparnaD.recordedCommand text).Keeps (OnWorld Rel) := by
  intro st r st' hrun
  refine h.processClientCommand text (a := r.2) ?_
  rw [← snd_recordedCommand]
  exact SessionM.map_eq_some_iff.mpr ⟨r, hrun, rfl⟩

theorem clientSessionFree : SuparnaD.clientSessionFree.Keeps (OnWorld Rel) := by
  rw [SessionState.clientSessionFree_eq]
  exact h.keeps_bind h.keeps_getSession fun session => h.keeps_bind (h.keeps_freeGroup _) fun _ =>
    h.keeps_bind (h.keeps_freeTopic _) fun _ => h.keeps_modify fun _ => rfl

/-- Every turn of a session keeps the relation. -/
theorem serverStep {s s' : Server} {op : ServerOp} {r : List Attempt × ℤ}
    (hstep : s.step op = some (r, s')) : Rel s.world.storage s'.world.storage := by
  cases op with
  | command i text =>
    obtain ⟨⟨r', st'⟩, hrun, heq⟩ := Option.map_eq_some_iff.mp hstep
    obtain ⟨-, rfl⟩ := Prod.mk.inj heq
    exact h.recordedCommand text hrun
  | disconnect i =>
    obtain ⟨⟨r', st'⟩, hrun, heq⟩ := Option.map_eq_some_iff.mp hstep
    obtain ⟨-, rfl⟩ := Prod.mk.inj heq
    exact h.clientSessionFree hrun

end SessionRelation

end SuparnaD
