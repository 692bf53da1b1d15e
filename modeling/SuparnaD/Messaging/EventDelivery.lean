import SuparnaD.Foundation.Simulation
import SuparnaD.Messaging.LogRefinement

/-!
# What a topic delivers

Whole runs on a topic that several groups share, when storage and allocation succeed and the file is
one of whole frames at the start: the topic simulates the event log. From the log it follows what
the file holds at the end of a run and what each group gets. A file that `create_topic` has begun
with its initial data is not of this kind.

## Main definitions

* `TopicGroups.Presents` : the topic presents a log and has room for more.
* `TopicGroups.acknowledged`, `TopicGroups.received` : the events of a step that returned `0`, and
  the payload that a step gives to a group.

## Main results

* `TopicGroups.simulates_eventLog` : a run goes as the run on the log.
* `TopicGroups.delivers_events` : every event that is published is stored once and in order, and a
  group that only consumes gets the stored events once and in order.
-/

namespace SuparnaD

open Broker

/-- The payloads that an operation is to store. -/
def TopicGroupsOp.events {ι : Type*} : TopicGroupsOp ι → List Bytes
  | .publishEvent data => data.toList
  | .publishEventBatch dataArray => dataArray.filterMap id
  | .flushTopic | .group _ _ => []

namespace TopicGroups

variable {ι : Type*}

/-- The topic presents the log, storage and allocation succeed, and there is room for `n` more
bytes. -/
def Presents (s : TopicGroups ι) (path : Bytes) (topic : ℕ) (e : EventLog ι Bytes) (n : ℕ) : Prop :=
  ∃ a : GroupStore ι, s.Holds path a n ∧ a.Presents topic e

variable {s : TopicGroups ι} {path : Bytes} {topic : ℕ} {e : EventLog ι Bytes} {n : ℕ}

/-- A topic of whole frames on which nothing waits to be saved, with groups at boundaries. -/
theorem presents_of_stream {ds : List Bytes} {position : ι → ℕ}
    (hds : ∀ d ∈ ds, topicFormat.Valid d) (hposition : ∀ i, position i ≤ ds.length)
    (hmachine : s.machine.Holds path ⟨some (topicFormat.stream ds), []⟩ n)
    (hgroups : ∀ i, (s.groups i).attachedTopic = topic ∧
      (s.groups i).readPointer.toNat = topicFormat.start ds (position i)) :
    s.Presents path topic ⟨ds, [], position, hposition⟩ n :=
  ⟨⟨⟨some (topicFormat.stream ds), []⟩, s.groups⟩, ⟨hmachine, rfl⟩, rfl, rfl,
    fun d hd => hds d ((List.append_nil ds).subst (motive := fun l => d ∈ l) hd),
    fun i => (hgroups i).1, fun i => (hgroups i).2⟩

theorem Presents.file_eq (h : s.Presents path topic e n) :
    s.machine.file path = topicFormat.stream e.events := by
  obtain ⟨a, hholds, hpresents⟩ := h
  rw [hholds.machine.file_eq, hpresents.content]

variable [DecidableEq ι]

/-- An operation on the topic goes as the one on the log that it names. -/
theorem Presents.step {op : TopicGroupsOp ι} {op' : EventOp ι Bytes}
    (h : s.Presents path topic e (op.bytes + n)) (hname : op.Names topic e op') :
    ∃ r s', s.step op = some (r, s') ∧ r.Tells e.events (e.step op').1 ∧
      s'.Presents path topic (e.step op').2 n := by
  obtain ⟨a, hholds, hpresents⟩ := h
  have hroom := hholds.machine.room
  obtain ⟨htells, hpresents'⟩ := hpresents.step (by omega) hname
  obtain ⟨s', hstep, hholds'⟩ := hholds.step
  exact ⟨_, s', hstep, htells, _, hholds', hpresents'⟩

/-- A named run goes as the run on the log. The room that is left after a step is what the
operations to come need. -/
theorem Presents.run {ops : List (TopicGroupsOp ι)} {ops' : List (EventOp ι Bytes)}
    (h : s.Presents path topic e (ops.map TopicGroupsOp.bytes).sum)
    (hnamed : NamedRun (TopicGroupsOp.Names topic) EventLog.perform e ops ops') :
    List.Forall₂ (fun x x' => x.op.Names topic x'.before x'.op ∧
        x.result.Tells x'.before.events x'.result ∧
        ∃ rest : List (TopicGroupsOp ι),
          x.after.Presents path topic x'.after (rest.map TopicGroupsOp.bytes).sum)
      (trace TopicGroups.step s ops) (trace EventLog.perform e ops') ∧
    (runEnd TopicGroups.step s ops).Presents path topic (runEnd EventLog.perform e ops') 0 :=
  simulation
    (fun ops (s : TopicGroups ι) (e : EventLog ι Bytes) =>
      s.Presents path topic e (ops.map TopicGroupsOp.bytes).sum)
    (fun e (r : GroupResult) r' => r.Tells e.events r')
    (fun s e op op' ops r' e' hrel hname hop' => by
      obtain ⟨rfl, rfl⟩ := Prod.mk.inj (Option.some.inj hop')
      rw [List.map_cons, List.sum_cons] at hrel
      exact hrel.step hname) h hnamed

/-- A run of operations on whole packets, from a file of whole frames on and without faults, goes as
the run on the log that they name. -/
theorem simulates_eventLog {ops : List (TopicGroupsOp ι)} {ops' : List (EventOp ι Bytes)}
    (h : s.Presents path topic e (ops.map TopicGroupsOp.bytes).sum)
    (hnamed : NamedRun (TopicGroupsOp.Names topic) EventLog.perform e ops ops') :
    List.Forall₂ (fun x x' => x.op.Names topic x'.before x'.op ∧
        x.result.Tells x'.before.events x'.result ∧ ∃ n, x.after.Presents path topic x'.after n)
      (trace TopicGroups.step s ops) (trace EventLog.perform e ops') ∧
    (runEnd TopicGroups.step s ops).Presents path topic (runEnd EventLog.perform e ops') 0 := by
  obtain ⟨hsteps, hend⟩ := h.run hnamed
  refine ⟨hsteps.imp ?_, hend⟩
  rintro x x' ⟨hname, htells, rest, hrel⟩
  exact ⟨hname, htells, _, hrel⟩

/-- An event, a batch that fails after its first item, a flush, and what two groups get of them. -/
def sampleCalls : List (TopicGroupsOp Bool) :=
  [.publishEvent (some (ascii "a")), .publishEventBatch [some (ascii "b"), none], .flushTopic,
    .group false (.consumePacket 0), .group true (.cursor (.ackPacketBatch 0 1)),
    .group true (.consumePacket 0)]

/-- What these calls do to the log. -/
def sampleNames : List (EventOp Bool Bytes) :=
  [.publish (ascii "a"), .batch [ascii "b"] false, .flush, .next false, .pass true 1, .next true]

/-- An empty log. -/
def sampleLog : EventLog Bool Bytes := ⟨[], [], fun _ => 0, fun _ => Nat.zero_le _⟩

theorem presents_sampleShared :
    sampleShared.Presents (ascii "t") 0 sampleLog (sampleCalls.map TopicGroupsOp.bytes).sum :=
  presents_of_stream (List.forall_mem_nil _) (fun _ => Nat.zero_le _)
    (Machine.holds_ofFile (by decide)) fun i => by cases i <;> exact ⟨rfl, rfl⟩

theorem namedRun_sampleCalls : NamedRun (TopicGroupsOp.Names 0) EventLog.perform sampleLog
    sampleCalls sampleNames :=
  .cons (.publish (by decide)) rfl <| .cons (.batch (List.cons_ne_nil _ _)) rfl <|
    .cons .flush rfl <| .cons (.consume false) rfl <| .cons (.ackBatch true (by decide)) rfl <|
    .cons (.consume true) rfl <| .nil _

theorem simulates_eventLog_sample :
    (runEnd TopicGroups.step sampleShared sampleCalls).Presents (ascii "t") 0
      (runEnd EventLog.perform sampleLog sampleNames) 0 :=
  (simulates_eventLog presents_sampleShared namedRun_sampleCalls).2

/-! ### What is published and what is delivered -/

/-- The events of a step that returned `0`. -/
def acknowledged (x : RunStep (TopicGroups ι) (TopicGroupsOp ι) GroupResult) : List Bytes :=
  if x.result = .code 0 then x.op.events else []

/-- The payload that a step gives to a group. -/
def received (i : ι) (x : RunStep (TopicGroups ι) (TopicGroupsOp ι) GroupResult) : Option Bytes :=
  match x.op, x.result with
  | .group j (.consumePacket _), .packet p => if j = i then p.map Packet.data else none
  | _, _ => none

theorem validItems_of_all {items : List (Option Bytes)} (h : ∀ item ∈ items, ValidItem item) :
    validItems items = items.filterMap id := by
  induction items with
  | nil => rfl
  | cons item items ih =>
    obtain ⟨hitem, hitems⟩ := List.forall_mem_cons.mp h
    cases item with
    | none => exact absurd hitem not_validItem_none
    | some d => rw [validItems, if_pos ((validItem_some d).mp hitem), ih hitems]; rfl

theorem validItems_sublist (items : List (Option Bytes)) :
    (validItems items).Sublist (items.filterMap id) := by
  induction items with
  | nil => exact List.Sublist.refl _
  | cons item items ih =>
    cases item with
    | none => exact List.nil_sublist _
    | some d =>
      rw [validItems]
      split_ifs
      · exact ih.cons_cons d
      · exact List.nil_sublist _

theorem refusal_ne_zero (data : Option Bytes) : refusal data ≠ 0 := by
  rw [refusal]
  split_ifs <;> decide

/-- The events of a step that returned `0` are those that the log accepts. -/
theorem acknowledged_eq {x : RunStep (TopicGroups ι) (TopicGroupsOp ι) GroupResult}
    {e : EventLog ι Bytes} {op' : EventOp ι Bytes} (hname : x.op.Names topic e op')
    (htells : x.result.Tells e.events (e.step op').1) :
    acknowledged x = EventLog.accepted op' := by
  obtain ⟨s, op, r, s'⟩ := x
  cases hname with
  | publish hd =>
    obtain rfl := htells.eq_code
    exact if_pos rfl
  | @refused data hdata =>
    obtain rfl := htells.eq_code
    exact if_neg fun hcode => refusal_ne_zero data (GroupResult.code.inj hcode)
  | @batch items hne =>
    by_cases hall : ∀ item ∈ items, ValidItem item
    · rw [decide_eq_true hall] at htells ⊢
      obtain rfl := htells.eq_code
      exact (if_pos rfl).trans (validItems_of_all hall).symm
    · rw [decide_eq_false hall] at htells ⊢
      obtain rfl := htells.eq_code
      exact if_neg fun hcode => absurd (GroupResult.code.inj hcode) (by decide)
  | _ => exact ite_self _

omit [DecidableEq ι] in
/-- The log is offered no more than the payloads of the operation. -/
theorem offered_sublist {op : TopicGroupsOp ι} {e : EventLog ι Bytes} {op' : EventOp ι Bytes}
    (hname : op.Names topic e op') : (EventLog.offered op').Sublist op.events := by
  cases hname with
  | publish hd => exact List.Sublist.refl _
  | @batch items hne => exact validItems_sublist items
  | _ => exact List.nil_sublist _

/-- A group receives the payload of the event that its reader takes. -/
theorem received_eq {i : ι} {x : RunStep (TopicGroups ι) (TopicGroupsOp ι) GroupResult}
    {x' : RunStep (EventLog ι Bytes) (EventOp ι Bytes) (EventResult Bytes)}
    (hresult : x'.result = (x'.before.step x'.op).1) (hname : x.op.Names topic x'.before x'.op)
    (htells : x.result.Tells x'.before.events x'.result) :
    received i x = (EventLog.takes i x').map Prod.snd := by
  obtain ⟨s, op, r, s'⟩ := x
  obtain ⟨e, op', r', e'⟩ := x'
  dsimp only at hresult hname htells
  subst hresult
  cases hname with
  | consume j =>
    obtain ⟨p, rfl, hp⟩ := htells.eq_packet
    simp only [received, EventLog.takes, EventLog.step]
    split_ifs
    · exact hp
    · rfl
  | _ => rfl

/-- The steps of the two runs publish and deliver the same. -/
theorem steps_alike {ops : List (TopicGroupsOp ι)} {ops' : List (EventOp ι Bytes)}
    (h : s.Presents path topic e (ops.map TopicGroupsOp.bytes).sum)
    (hnamed : NamedRun (TopicGroupsOp.Names topic) EventLog.perform e ops ops') :
    List.Forall₂ (fun x x' => acknowledged x = EventLog.accepted x'.op ∧
        ∀ i, received i x = (EventLog.takes i x').map Prod.snd)
      (trace TopicGroups.step s ops) (trace EventLog.perform e ops') := by
  refine (forall₂_trace_step (h.run hnamed).1).imp ?_
  rintro x x' ⟨hstep, hname, htells, -⟩
  have hresult : x'.result = (x'.before.step x'.op).1 :=
    (Prod.mk.inj (Option.some.inj hstep)).1.symm
  exact ⟨acknowledged_eq hname (hresult ▸ htells), fun i => received_eq hresult hname htells⟩

/-- In such a run of operations on whole packets the file stays a stream of events. Those of the
calls that returned `0` are in it, once and in order, nothing else than what was to be published,
and a group whose reader does not turn gets the events from its position on, once and in order. -/
theorem delivers_events {ops : List (TopicGroupsOp ι)} {ops' : List (EventOp ι Bytes)}
    (h : s.Presents path topic e (ops.map TopicGroupsOp.bytes).sum)
    (hnamed : NamedRun (TopicGroupsOp.Names topic) EventLog.perform e ops ops') :
    ∃ log, (runEnd TopicGroups.step s ops).machine.file path = topicFormat.stream log ∧
      (e.events ++ (trace TopicGroups.step s ops).flatMap acknowledged).Sublist log ∧
      log.Sublist (e.all ++ ops.flatMap TopicGroupsOp.events) ∧
      ∀ i, (∀ op' ∈ ops', EventLog.Turns i op' = false) →
        (trace TopicGroups.step s ops).filterMap (received i) =
          (log.drop (e.position i)).take
            ((trace TopicGroups.step s ops).filterMap (received i)).length := by
  have hend := (h.run hnamed).2
  have halike := steps_alike h hnamed
  have hacked : (trace TopicGroups.step s ops).flatMap acknowledged =
      ops'.flatMap EventLog.accepted := by
    rw [← EventLog.map_op_trace e ops', List.flatMap_map]
    exact flatMap_eq_of_forall₂ halike fun x x' hx => hx.1
  have hoffered : (ops'.flatMap EventLog.offered).Sublist (ops.flatMap TopicGroupsOp.events) := by
    clear h hend halike hacked
    induction hnamed with
    | nil e => exact List.Sublist.refl _
    | cons hname _ _ ih =>
      rw [List.flatMap_cons, List.flatMap_cons]
      exact (offered_sublist hname).append ih
  have hreceived (i : ι) : (trace TopicGroups.step s ops).filterMap (received i) =
      (EventLog.taken i e ops').map Prod.snd := by
    rw [EventLog.taken, List.map_filterMap]
    exact filterMap_eq_of_forall₂ halike fun x x' hx => hx.2 i
  refine ⟨(runEnd EventLog.perform e ops').events, hend.file_eq, ?_, ?_, fun i hi => ?_⟩
  · exact hacked ▸ e.accepted_sublist ops'
  · refine (List.sublist_append_left _ _).trans ((e.all_runEnd_sublist ops').trans ?_)
    exact (List.Sublist.refl _).append hoffered
  · rw [hreceived, List.length_map]
    exact (e.taken_eq hi).2.1

theorem delivers_events_sample :
    ∃ log, (runEnd TopicGroups.step sampleShared sampleCalls).machine.file (ascii "t") =
        topicFormat.stream log ∧
      (sampleLog.events ++
        (trace TopicGroups.step sampleShared sampleCalls).flatMap acknowledged).Sublist log ∧
      log.Sublist (sampleLog.all ++ sampleCalls.flatMap TopicGroupsOp.events) ∧
      ∀ i, (∀ op' ∈ sampleNames, EventLog.Turns i op' = false) →
        (trace TopicGroups.step sampleShared sampleCalls).filterMap (received i) =
          (log.drop (sampleLog.position i)).take
            ((trace TopicGroups.step sampleShared sampleCalls).filterMap (received i)).length :=
  delivers_events presents_sampleShared namedRun_sampleCalls

end TopicGroups

end SuparnaD
