import Mathlib.Data.Int.Notation
import Mathlib.Data.List.TakeDrop
import Mathlib.Logic.Function.Basic
import SuparnaD.Foundation.Runs

/-!
# A log of events with its readers

What a persistent topic is for. Events are added at the end of a log and stay there. Each reader has
a position in the log, which it moves by taking the next event, by passing over events and by naming
an event or a position. Events of a batch that was given up are *staged*: the next event or the next
flush brings them into the log, and a look at the log by any reader drops them.

## Main definitions

* `EventLog`, `EventOp`, `EventLog.step`.
* `EventLog.taken` : the events that a reader has taken in a run.

## Main results

* `EventLog.events_isPrefix_runEnd` : events stay where they are.
* `EventLog.accepted_sublist`, `EventLog.all_runEnd_sublist` : what is in the log after a run.
* `EventLog.taken_eq` : a reader that does not turn takes every event, once and in order.
-/

/-- A log of events with one position for each reader. -/
structure EventLog (ι α : Type*) where
  /-- The events, in the order in which they were added. -/
  events : List α
  /-- The events of a batch that was given up. -/
  staged : List α
  /-- The number of events that a reader has behind it. -/
  position : ι → ℕ
  position_le : ∀ i, position i ≤ events.length

/-- An operation on a log. -/
inductive EventOp (ι α : Type*) where
  /-- Add an event. -/
  | publish (d : α)
  /-- Add events, or stage them when the batch is given up. -/
  | batch (ds : List α) (whole : Bool)
  /-- Bring the staged events into the log. -/
  | flush
  /-- A request that is refused with a code. -/
  | refuse (code : ℤ)
  /-- The reader takes the next event. -/
  | next (i : ι)
  /-- The reader asks whether there is a next event. -/
  | more (i : ι)
  /-- The reader goes to a position, or to the end. -/
  | seek (i : ι) (k : ℕ)
  /-- The reader passes over events, up to the end. -/
  | pass (i : ι) (count : ℕ)
  /-- The reader goes behind an event, unless it is there already. -/
  | acknowledge (i : ι) (k : ℕ)

/-- What an operation on a log returns. -/
inductive EventResult (α : Type*) where
  | code (r : ℤ)
  /-- An event with its number. -/
  | event (e : Option (ℕ × α))
  | more (b : Bool)

namespace EventLog

variable {ι α : Type*}

/-- All events, the staged ones last. -/
def all (e : EventLog ι α) : List α := e.events ++ e.staged

/-- Add events to the log, after the staged ones. -/
def add (e : EventLog ι α) (ds : List α) : EventLog ι α where
  events := e.all ++ ds
  staged := []
  position := e.position
  position_le i := by
    rw [all, List.append_assoc, List.length_append]
    exact Nat.le_add_right_of_le (e.position_le i)

/-- Stage events. -/
def stage (e : EventLog ι α) (ds : List α) : EventLog ι α := { e with staged := e.staged ++ ds }

@[simp] theorem events_add (e : EventLog ι α) (ds : List α) : (e.add ds).events = e.all ++ ds := rfl

@[simp] theorem all_add (e : EventLog ι α) (ds : List α) : (e.add ds).all = e.all ++ ds :=
  List.append_nil _

@[simp] theorem events_stage (e : EventLog ι α) (ds : List α) : (e.stage ds).events = e.events :=
  rfl

@[simp] theorem all_stage (e : EventLog ι α) (ds : List α) : (e.stage ds).all = e.all ++ ds :=
  (List.append_assoc _ _ _).symm

variable [DecidableEq ι]

/-- A reader looks at the log and moves to a position, at most to the end. -/
def move (e : EventLog ι α) (i : ι) (k : ℕ) : EventLog ι α where
  events := e.events
  staged := []
  position := Function.update e.position i (min k e.events.length)
  position_le j := by
    rw [Function.update_apply]
    split_ifs
    · exact Nat.min_le_right _ _
    · exact e.position_le j

/-- The result of an operation and what it leaves. -/
def step (e : EventLog ι α) : EventOp ι α → EventResult α × EventLog ι α
  | .publish d => (.code 0, e.add [d])
  | .batch ds true => (.code 0, e.add ds)
  | .batch ds false => (.code (-1), e.stage ds)
  | .flush => (.code 0, e.add [])
  | .refuse code => (.code code, e)
  | .next i =>
    (.event (e.events[e.position i]?.map fun d => (e.position i, d)),
      e.move i (e.position i + 1))
  | .more i => (.more (decide (e.position i < e.events.length)), e.move i (e.position i))
  | .seek i k => (.code 0, e.move i k)
  | .pass i count =>
    (.code (if e.position i + count ≤ e.events.length then 0 else -1),
      e.move i (e.position i + count))
  | .acknowledge i k =>
    if k < e.events.length then (.code 0, e.move i (max (e.position i) (k + 1)))
    else (.code (-1), e.move i (e.position i))

@[simp] theorem events_move (e : EventLog ι α) (i : ι) (k : ℕ) :
    (e.move i k).events = e.events := rfl

@[simp] theorem all_move (e : EventLog ι α) (i : ι) (k : ℕ) : (e.move i k).all = e.events :=
  List.append_nil _

/-! ### What is published -/

/-- The events that an operation is to add. -/
def offered : EventOp ι α → List α
  | .publish d => [d]
  | .batch ds _ => ds
  | _ => []

/-- The events that an operation adds for certain. -/
def accepted : EventOp ι α → List α
  | .publish d => [d]
  | .batch ds true => ds
  | _ => []

/-- Events stay, and those that are accepted follow them. -/
theorem events_accepted_sublist (e : EventLog ι α) (op : EventOp ι α) :
    (e.events ++ accepted op).Sublist (e.step op).2.events := by
  have hadd (ds : List α) : (e.events ++ ds).Sublist (e.add ds).events :=
    (List.sublist_append_left e.events e.staged).append (List.Sublist.refl ds)
  have hkept : (e.events ++ []).Sublist e.events := by rw [List.append_nil]
  cases op with
  | publish d => exact hadd [d]
  | batch ds whole => cases whole with
    | true => exact hadd ds
    | false => exact hkept
  | flush => exact hadd []
  | acknowledge i k =>
    simp only [step]
    split_ifs <;> exact hkept
  | _ => exact hkept

/-- Nothing gets into the log but what is offered. -/
theorem all_step_sublist (e : EventLog ι α) (op : EventOp ι α) :
    (e.step op).2.all.Sublist (e.all ++ offered op) := by
  have hdropped : e.events.Sublist (e.all ++ []) := by
    rw [List.append_nil]
    exact List.sublist_append_left _ _
  cases op with
  | publish d => exact (all_add e [d]).symm ▸ List.Sublist.refl _
  | batch ds whole => cases whole with
    | true => exact (all_add e ds).symm ▸ List.Sublist.refl _
    | false => exact (all_stage e ds).symm ▸ List.Sublist.refl _
  | flush => exact (all_add e []).symm ▸ List.Sublist.refl _
  | refuse code => exact (List.append_nil e.all).symm ▸ List.Sublist.refl _
  | acknowledge i k =>
    simp only [step]
    split_ifs <;> simpa only [all_move, offered] using hdropped
  | _ => simpa only [step, all_move, offered] using hdropped

/-- Events stay where they are. -/
theorem events_isPrefix_step (e : EventLog ι α) (op : EventOp ι α) :
    e.events <+: (e.step op).2.events := by
  have hadd (ds : List α) : e.events <+: (e.add ds).events := by
    rw [events_add, all, List.append_assoc]
    exact List.prefix_append _ _
  cases op with
  | publish d => exact hadd [d]
  | batch ds whole => cases whole with
    | true => exact hadd ds
    | false => exact List.prefix_refl _
  | flush => exact hadd []
  | acknowledge i k =>
    simp only [step]
    split_ifs <;> exact List.prefix_refl _
  | _ => exact List.prefix_refl _

/-! ### What a reader takes -/

/-- The operation is the given reader's, and is neither a look nor the next event. -/
def Turns (i : ι) : EventOp ι α → Bool
  | .seek j _ | .pass j _ | .acknowledge j _ => decide (j = i)
  | _ => false

/-- The event that a step gives to a reader. -/
def takes (i : ι) (x : RunStep (EventLog ι α) (EventOp ι α) (EventResult α)) : Option (ℕ × α) :=
  match x.op, x.result with
  | .next j, .event e => if j = i then e else none
  | _, _ => none

/-- A reader that does not turn takes the event at its position, or stays there. -/
theorem position_step {i : ι} (e : EventLog ι α) {op : EventOp ι α} (hop : Turns i op = false) :
    match takes i ⟨e, op, (e.step op).1, (e.step op).2⟩ with
    | none => (e.step op).2.position i = e.position i
    | some (k, d) =>
      k = e.position i ∧ e.events[k]? = some d ∧ (e.step op).2.position i = k + 1 := by
  have hle := e.position_le i
  have hother (j : ι) (k : ℕ) (hj : j ≠ i) : (e.move j k).position i = e.position i :=
    Function.update_of_ne hj.symm ..
  have hself (k : ℕ) : (e.move i k).position i = min k e.events.length :=
    Function.update_self ..
  cases op with
  | next j =>
    by_cases hj : j = i
    · subst hj
      simp only [takes, step, ↓reduceIte]
      cases hnext : e.events[e.position j]? with
      | none =>
        have := List.getElem?_eq_none_iff.mp hnext
        simp only [Option.map_none, hself]
        omega
      | some d =>
        have := (List.getElem?_eq_some_iff.mp hnext).1
        simp only [Option.map_some, hself]
        exact ⟨trivial, hnext, by omega⟩
    · simpa only [takes, step, hj, ↓reduceIte] using hother j _ hj
  | more j =>
    simp only [takes, step]
    by_cases hj : j = i
    · subst hj
      rw [hself]
      omega
    · exact hother j _ hj
  | seek j k | pass j k => exact hother j _ (of_decide_eq_false hop)
  | acknowledge j k =>
    have hj : j ≠ i := of_decide_eq_false hop
    simp only [takes, step]
    split_ifs <;> exact hother j _ hj
  | batch ds whole => cases whole <;> rfl
  | _ => rfl

/-! ### Runs -/

/-- Every operation on a log comes to an end. -/
def perform (e : EventLog ι α) (op : EventOp ι α) : Option (EventResult α × EventLog ι α) :=
  some (e.step op)

theorem trace_perform_cons (e : EventLog ι α) (op : EventOp ι α) (ops : List (EventOp ι α)) :
    trace perform e (op :: ops) =
      ⟨e, op, (e.step op).1, (e.step op).2⟩ :: trace perform (e.step op).2 ops := rfl

theorem runEnd_perform_cons (e : EventLog ι α) (op : EventOp ι α) (ops : List (EventOp ι α)) :
    runEnd perform e (op :: ops) = runEnd perform (e.step op).2 ops := rfl

/-- The steps of a run perform its operations. -/
theorem map_op_trace (e : EventLog ι α) (ops : List (EventOp ι α)) :
    (trace perform e ops).map RunStep.op = ops := by
  induction ops generalizing e with
  | nil => rfl
  | cons op ops ih => rw [trace_perform_cons, List.map_cons, ih]

/-- Events stay where they are. -/
theorem events_isPrefix_runEnd (e : EventLog ι α) (ops : List (EventOp ι α)) :
    e.events <+: (runEnd perform e ops).events := by
  induction ops generalizing e with
  | nil => exact List.prefix_refl _
  | cons op ops ih => exact (e.events_isPrefix_step op).trans (ih _)

/-- The events that are accepted are in the log at the end, once and in order. -/
theorem accepted_sublist (e : EventLog ι α) (ops : List (EventOp ι α)) :
    (e.events ++ ops.flatMap accepted).Sublist (runEnd perform e ops).events := by
  induction ops generalizing e with
  | nil => exact (List.append_nil e.events).symm ▸ List.Sublist.refl _
  | cons op ops ih =>
    rw [List.flatMap_cons, ← List.append_assoc]
    exact ((e.events_accepted_sublist op).append (List.Sublist.refl _)).trans (ih _)

/-- What is in the log at the end was there or was offered, once and in order. -/
theorem all_runEnd_sublist (e : EventLog ι α) (ops : List (EventOp ι α)) :
    (runEnd perform e ops).all.Sublist (e.all ++ ops.flatMap offered) := by
  induction ops generalizing e with
  | nil => exact (List.append_nil e.all).symm ▸ List.Sublist.refl _
  | cons op ops ih =>
    rw [List.flatMap_cons, ← List.append_assoc]
    exact (ih _).trans ((e.all_step_sublist op).append (List.Sublist.refl _))

/-- The events that a reader takes in a run, each with its number. -/
def taken (i : ι) (e : EventLog ι α) (ops : List (EventOp ι α)) : List (ℕ × α) :=
  (trace perform e ops).filterMap (takes i)

/-- A reader that does not turn takes the events from its position on, once and in order. -/
theorem taken_eq {i : ι} (e : EventLog ι α) {ops : List (EventOp ι α)}
    (hops : ∀ op ∈ ops, Turns i op = false) :
    (taken i e ops).map Prod.fst = List.range' (e.position i) (taken i e ops).length ∧
      (taken i e ops).map Prod.snd =
        ((runEnd perform e ops).events.drop (e.position i)).take (taken i e ops).length ∧
      (runEnd perform e ops).position i = e.position i + (taken i e ops).length := by
  induction ops generalizing e with
  | nil => exact ⟨rfl, rfl, rfl⟩
  | cons op ops ih =>
    rw [List.forall_mem_cons] at hops
    have hstep := e.position_step hops.1
    obtain ⟨hnumbers, hevents, hend⟩ := ih (e.step op).2 hops.2
    rw [taken, trace_perform_cons, runEnd_perform_cons, List.filterMap_cons]
    cases htakes : takes i ⟨e, op, (e.step op).1, (e.step op).2⟩ with
    | none =>
      rw [htakes] at hstep
      rw [hstep] at hnumbers hevents hend
      exact ⟨hnumbers, hevents, hend⟩
    | some x =>
      obtain ⟨k, d⟩ := x
      rw [htakes] at hstep
      obtain ⟨rfl, hd, hpos⟩ := hstep
      rw [hpos] at hnumbers hevents hend
      obtain ⟨rest, hrest⟩ :=
        (e.events_isPrefix_step op).trans (events_isPrefix_runEnd (e.step op).2 ops)
      have hlast : (runEnd perform (e.step op).2 ops).events[e.position i]? = some d := by
        rw [← hrest, List.getElem?_append_left (List.getElem?_eq_some_iff.mp hd).1, hd]
      obtain ⟨hlt, hget⟩ := List.getElem?_eq_some_iff.mp hlast
      simp only [List.map_cons, List.length_cons]
      refine ⟨?_, ?_, ?_⟩
      · exact congrArg _ hnumbers
      · rw [List.drop_eq_getElem_cons hlt, List.take_succ_cons, hget]
        exact congrArg _ hevents
      · exact hend.trans (by rw [taken]; omega)

end EventLog
