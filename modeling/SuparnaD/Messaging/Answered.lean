import SuparnaD.Foundation.Interleaving
import SuparnaD.Messaging.TopicCreation

/-!
# Programs that come to an end

Most calls are answered in every state, and a program of such calls comes to an end wherever it
starts. Appending to a chunk may not, since the loop that doubles the capacity may go on for ever;
it ends where `create_topic` appends to a new chunk.

## Main definitions

* `BrokerCall.Answered`, `Broker.Answered`.

## Main results

* `Broker.Answered.exec` : a program of such calls comes to an end.
* `exec_createTopic_some` : so does `create_topic`.
-/

namespace SuparnaD

open Broker CallProgram

/-- The calls that are answered in every state. -/
def BrokerCall.Answered : BrokerCall → Prop
  | .chunkAppend _ | .chunkSize => False
  | _ => True

theorem perform_of_answered {c : BrokerCall} (h : c.Answered) (s : Machine) :
    ∃ r, perform c s = some r := by
  cases c with
  | chunkAppend | chunkSize => exact h.elim
  | chunkLoad | chunkRead | chunkSaveDelta =>
    cases hs : s.chunk <;> simp only [perform, hs] <;> exact ⟨_, rfl⟩
  | mkdir path =>
    rw [perform]
    split <;> exact ⟨_, rfl⟩
  | _ => exact ⟨_, rfl⟩

/-- The program issues such calls only. -/
def Broker.Answered {α : Type} (p : Broker α) : Prop :=
  p.Within BrokerCall.Answered fun _ => True

section

variable {α β : Type}

theorem Broker.Answered.bind {p : Broker α} {f : α → Broker β} (hp : p.Answered)
    (hf : ∀ a, (f a).Answered) : (p >>= f).Answered := Within.bind hp fun a _ => hf a

theorem Broker.Answered.ite {b : Prop} [Decidable b] {p q : Broker α} (hp : p.Answered)
    (hq : q.Answered) : (if b then p else q).Answered := Within.ite (fun _ => hp) fun _ => hq

theorem answered_pure (a : α) : (pure a : Broker α).Answered := trivial

theorem answered_issue {c : BrokerCall} (h : c.Answered) :
    Broker.Answered (CallProgram.issue c : CallProgram brokerCalls _) := ⟨h, fun _ => trivial⟩

theorem answered_malloc : Broker.Answered Broker.malloc := answered_issue trivial

theorem answered_chunkFree : Broker.Answered Broker.chunkFree := answered_issue trivial

/-- A program of such calls comes to an end in every state. -/
theorem Broker.Answered.exec {p : Broker α} (hp : p.Answered) (s : Machine) :
    ∃ a s', p.exec s = some (a, s') := by
  induction p generalizing s with
  | ret a => exact ⟨a, s, rfl⟩
  | call c k ih =>
    obtain ⟨⟨r, t⟩, hcall⟩ := perform_of_answered hp.1 s
    obtain ⟨a, s', hrest⟩ := ih r (hp.2 r) t
    exact ⟨a, s', Option.bind_eq_some_iff.mpr ⟨(r, t), hcall, hrest⟩⟩

theorem Broker.OnDirectories.answered {p : Broker α} (hp : p.OnDirectories) : p.Answered := by
  refine hp.weaken fun c hc => ?_
  cases c <;> trivial

/-- The first append to a new chunk comes to an end. -/
theorem chunkAppend_new (o : IoOutcome) (path : Bytes) :
    ∃ r, Writer.chunkAppend o ⟨path, [], 0, 0, 0⟩ initialData = some r := by
  have hgrow : Writer.growCapacity 64 initialCapacity (0 + initialData.length.toUInt64) =
      some initialCapacity := rfl
  rw [← Option.isSome_iff_exists, Writer.chunkAppend, if_neg (by decide)]
  simp only [↓reduceIte, hgrow]
  split
  · split <;> rfl
  · rfl

/-- Giving up the setup of a topic. -/
theorem answered_giveUp :
    (do chunkFree; return none : Broker (Option Topic)).Answered :=
  answered_chunkFree.bind fun _ => answered_pure _

theorem answered_nameTopic (topic : Topic) : (nameTopic topic).Answered := by
  refine answered_malloc.bind fun _ => .ite answered_giveUp ?_
  exact answered_malloc.bind fun _ => .ite answered_giveUp (answered_pure _)

/-- What follows the first append to the file of a new topic. -/
theorem answered_saveTopic (topic : Topic) (r : ℤ) : (do
    if r ≠ 0 then
      chunkFree
      return none
    if (← chunkSaveDelta) ≠ 0 then
      chunkFree
      return none
    nameTopic topic : Broker (Option Topic)).Answered := by
  refine .ite answered_giveUp ?_
  refine (answered_issue trivial : chunkSaveDelta.Answered).bind fun _ => .ite answered_giveUp ?_
  exact answered_nameTopic topic

theorem exec_setUpTopic_some (topicName path : Bytes) (s : Machine) :
    ∃ r s', (setUpTopic topicName path).exec s = some (r, s') := by
  have hinit : (chunkInit path).exec s = some ((Writer.chunkInit s.outcome path).isSome,
      { s.next with chunk := Writer.chunkInit s.outcome path }) := rfl
  rw [Writer.chunkInit] at hinit
  split_ifs at hinit
  · obtain ⟨⟨r, c⟩, happend⟩ := chunkAppend_new s.next.outcome path
    have hrun := Broker.exec_chunkAppend
      (s := { s.next with chunk := some ⟨path, [], 0, 0, 0⟩ }) rfl initialData
    obtain ⟨r', s', hrest⟩ := (answered_saveTopic ⟨some topicName, some path⟩ r).exec
      { s.next.next with chunk := some c }
    refine ⟨r', s', CallProgram.run_bind_eq_some_iff.mpr ⟨_, _, hinit, ?_⟩⟩
    refine CallProgram.run_bind_eq_some_iff.mpr ⟨r, _, hrun.trans ?_, hrest⟩
    exact congrArg (Option.map _) happend
  · exact ⟨none, _, CallProgram.run_bind_eq_some_iff.mpr ⟨_, _, hinit, rfl⟩⟩

/-- `create_topic` comes to an end. -/
theorem exec_createTopic_some (topicName basePath : Bytes) (s : Machine) :
    ∃ r s', (createTopic topicName basePath).exec s = some (r, s') := by
  rw [createTopic_eq]
  split_ifs
  · exact ⟨none, s, rfl⟩
  obtain ⟨found, s₁, hfound⟩ := (onDirectories_topicExists topicName basePath).answered.exec s
  cases found with
  | true => exact ⟨none, s₁, CallProgram.run_bind_eq_some_iff.mpr ⟨_, _, hfound, rfl⟩⟩
  | false =>
  obtain ⟨made, s₂, hmade⟩ := (onDirectories_ensureDirectoryExists basePath).answered.exec s₁
  by_cases hzero : made ≠ 0
  · refine ⟨none, s₂, CallProgram.run_bind_eq_some_iff.mpr ⟨_, _, hfound, ?_⟩⟩
    refine CallProgram.run_bind_eq_some_iff.mpr ⟨_, _, hmade, ?_⟩
    rw [if_pos hzero]
    rfl
  obtain ⟨path, s₃, hpath⟩ := (onDirectories_buildTopicPath topicName basePath).answered.exec s₂
  cases path with
  | none =>
    refine ⟨none, s₃, CallProgram.run_bind_eq_some_iff.mpr ⟨_, _, hfound, ?_⟩⟩
    refine CallProgram.run_bind_eq_some_iff.mpr ⟨_, _, hmade, ?_⟩
    rw [if_neg hzero]
    exact CallProgram.run_bind_eq_some_iff.mpr ⟨_, _, hpath, rfl⟩
  | some filePath =>
    obtain ⟨r, s', hsetup⟩ := exec_setUpTopic_some topicName filePath s₃
    refine ⟨r, s', CallProgram.run_bind_eq_some_iff.mpr ⟨_, _, hfound, ?_⟩⟩
    refine CallProgram.run_bind_eq_some_iff.mpr ⟨_, _, hmade, ?_⟩
    rw [if_neg hzero]
    exact CallProgram.run_bind_eq_some_iff.mpr ⟨_, _, hpath, hsetup⟩

end

end SuparnaD
