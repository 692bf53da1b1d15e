import SuparnaD.Foundation.Runs
import SuparnaD.Messaging.GroupOps
import SuparnaD.Messaging.RoundTrip

/-!
# The read pointer stays within the file

The read pointer of a group never passes the end of the topic file, whatever operations are called
with whatever arguments, as long as the file only grows. Every operation compares what it is going
to set with the length that its own load has shown, and a comparison that a wrapped sum passes still
bounds the sum.

## Main definitions

* `GroupLog` : a topic with one of its groups, and `GroupLog.step`.

## Main results

* `GroupLog.Bounded.step` : what one operation keeps.
* `GroupLog.readPointer_le_length`.
-/

namespace SuparnaD

open Broker

/-- A topic with one of its groups. -/
structure GroupLog where
  /-- The topic. -/
  machine : Machine
  /-- The group. -/
  group : Group

/-- What can happen to a topic and a group. -/
inductive GroupLogOp where
  | group (op : GroupOp)
  | publish (call : PublishCall)
  | flushTopic
  /-- Another handle appends to the file. -/
  | grow (bytes : Bytes)

namespace GroupLog

/-- One operation on the topic at the path. -/
def step (path : Bytes) (l : GroupLog) : GroupLogOp → Option (GroupResult × GroupLog)
  | .group op => ((op.run l.group).exec l.machine).map fun r => (r.1.1, ⟨r.2, r.1.2⟩)
  | .publish call => (call.run.exec l.machine).map fun r => (.code r.1, ⟨r.2, l.group⟩)
  | .flushTopic => (SuparnaD.flushTopic.exec l.machine).map fun r => (.code r.1, ⟨r.2, l.group⟩)
  | .grow bytes => some (.code 0, ⟨l.machine.grown path bytes, l.group⟩)

/-- The invariant: the read pointer stands within the file that the chunk belongs to. -/
structure Bounded (path : Bytes) (l : GroupLog) : Prop where
  onTopic : l.machine.OnTopic path
  le : l.group.readPointer.toNat ≤ (l.machine.file path).length

variable {path : Bytes} {l l' : GroupLog}

/-- The file has grown, and the group is as it was. -/
theorem Bounded.of_grown (h : l.Bounded path) (ht : l'.machine.OnTopic path)
    (hfile : ∃ written, l'.machine.file path = l.machine.file path ++ written)
    (hgroup : l'.group = l.group) : l'.Bounded path := by
  obtain ⟨written, hwritten⟩ := hfile
  refine ⟨ht, ?_⟩
  rw [hgroup, hwritten, List.length_append]
  exact Nat.le_add_right_of_le h.le

/-- What one operation keeps. -/
theorem Bounded.step (h : l.Bounded path) {op : GroupLogOp} {r : GroupResult}
    (hstep : l.step path op = some (r, l')) : l'.Bounded path := by
  cases op with
  | group op =>
    obtain ⟨a, g', s', hrun, hkept, ht, hreach⟩ := GroupOp.exec_run h.onTopic l.group op
    rw [GroupLog.step, hrun] at hstep
    obtain ⟨-, rfl⟩ := Prod.mk.inj (Option.some.inj hstep)
    have hfile : s'.file path = l.machine.file path := by
      rw [Machine.file, hkept.fs, Machine.file]
    refine ⟨ht, ?_⟩
    show g'.readPointer.toNat ≤ (s'.file path).length
    rw [hfile]
    rcases hreach with heq | hle
    · exact heq ▸ h.le
    · exact hle
  | publish call =>
    obtain ⟨⟨a, s'⟩, hrun, heq⟩ := Option.map_eq_some_iff.mp hstep
    obtain ⟨-, rfl⟩ := Prod.mk.inj heq
    obtain ⟨ht, hfile⟩ := PublishCall.exec_run_wrote h.onTopic hrun
    exact h.of_grown ht hfile rfl
  | flushTopic =>
    obtain ⟨⟨a, s'⟩, hrun, heq⟩ := Option.map_eq_some_iff.mp hstep
    obtain ⟨-, rfl⟩ := Prod.mk.inj heq
    obtain ⟨ht, hfile⟩ := exec_flushTopic_wrote h.onTopic hrun
    exact h.of_grown ht hfile rfl
  | grow bytes =>
    obtain ⟨-, rfl⟩ := Prod.mk.inj (Option.some.inj hstep)
    exact h.of_grown (h.onTopic.grown bytes) ⟨bytes, l.machine.file_grown path bytes⟩ rfl

/-- From `create_group` on, the read pointer never passes the end of the file. -/
theorem readPointer_le_length {s₀ s : Machine} (h : s₀.OnTopic path) {groupId : Option Bytes}
    {topic : ℕ} {g : Group} (hgroup : (createGroup groupId topic).exec s₀ = some (some g, s))
    (ops : List GroupLogOp) : ∀ e ∈ trace (step path) ⟨s, g⟩ ops,
      e.after.group.readPointer.toNat ≤ (e.after.machine.file path).length := by
  have hstart : Bounded path ⟨s, g⟩ := by
    cases groupId with
    | none => cases (CallProgram.run_pure_eq_some_iff.mp hgroup).1
    | some groupId =>
      obtain ⟨rfl, rfl⟩ := exec_createGroup hgroup
      exact ⟨h, Nat.zero_le _⟩
  refine trace_always (Bounded path) ?_ hstart ops
  intro l op r l' hl hstep
  exact ⟨hl.step hstep, (hl.step hstep).le⟩

/-- A topic file of 20 bytes. -/
def sampleTopic : Machine := .ofFile (ascii "t") (List.replicate 20 65)

/-- A negative size moves the group back, another handle appends, and a read goes to the end. -/
def sampleOps : List GroupLogOp :=
  [.group (.setGroupPointer 10), .grow [65],
    .group (.cursor (.ackPacketBySize 0 (sizeOfInt (-5)))), .group (.readFromGroup 100)]

theorem readPointer_le_length_sample :
    (createGroup (some (ascii "g")) 0).exec sampleTopic =
        some (some ⟨ascii "g", 0, 0, 0⟩, sampleTopic) ∧
      ∀ e ∈ trace (step (ascii "t")) ⟨sampleTopic, ⟨ascii "g", 0, 0, 0⟩⟩ sampleOps,
        e.after.group.readPointer.toNat ≤ (e.after.machine.file (ascii "t")).length := by
  have hgroup : (createGroup (some (ascii "g")) 0).exec sampleTopic =
      some (some ⟨ascii "g", 0, 0, 0⟩, sampleTopic) := rfl
  exact ⟨hgroup, readPointer_le_length (Machine.onTopic_ofFile _ _) hgroup sampleOps⟩

end GroupLog

end SuparnaD
