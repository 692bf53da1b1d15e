import SuparnaD.Messaging.TopicCreation
import SuparnaD.Messaging.TopicReaders

/-!
# Programs that leave the client alone

The functions of `messaging/` that a session calls neither send to the client nor read from it, so
the client sees the replies of the session and nothing else.

## Main definitions

* `BrokerCall.Silent`, `Broker.Silent`.

## Main results

* `exec_silent` : such a program keeps the client.
* `Broker.Looks.silent`, `Broker.OnDirectories.silent`, `silent_createTopic`.
-/

namespace SuparnaD

open Broker CallProgram

/-- The call does not concern the client. -/
def BrokerCall.Silent : BrokerCall → Prop
  | .send _ | .read _ => False
  | _ => True

/-- The program does not concern the client. -/
def Broker.Silent {α : Type} (p : Broker α) : Prop := p.Within BrokerCall.Silent fun _ => True

variable {α β : Type}

theorem perform_silent {c : BrokerCall} (hc : c.Silent) {s s' : Machine} {r : brokerCalls.Answer c}
    (hcall : perform c s = some (r, s')) : s'.client = s.client := by
  cases c with
  | send | read => exact hc.elim
  | chunkLoad | chunkRead | chunkSaveDelta =>
    simp only [perform] at hcall
    split at hcall <;> obtain ⟨-, rfl⟩ := Prod.mk.inj (Option.some.inj hcall) <;> rfl
  | chunkAppend =>
    simp only [perform] at hcall
    split at hcall
    · obtain ⟨-, rfl⟩ := Prod.mk.inj (Option.some.inj hcall)
      rfl
    · obtain ⟨_, -, heq⟩ := Option.map_eq_some_iff.mp hcall
      obtain ⟨-, rfl⟩ := Prod.mk.inj heq
      rfl
  | chunkSize =>
    obtain ⟨_, -, heq⟩ := Option.map_eq_some_iff.mp hcall
    obtain ⟨-, rfl⟩ := Prod.mk.inj heq
    rfl
  | mkdir =>
    simp only [perform] at hcall
    split at hcall <;> obtain ⟨-, rfl⟩ := Prod.mk.inj (Option.some.inj hcall) <;> rfl
  | hasChunk | chunkInit | chunkFree | malloc | fopenRead | stat =>
    obtain ⟨-, rfl⟩ := Prod.mk.inj (Option.some.inj hcall)
    rfl

/-- A silent program keeps the client. -/
theorem exec_silent {p : Broker α} (hp : p.Silent) {s s' : Machine} {a : α}
    (hrun : p.exec s = some (a, s')) : s'.client = s.client :=
  Within.invariant (J := fun t => t.client = s.client) hp
    (fun _ _ _ _ hc hcall ht => (perform_silent hc hcall).trans ht) hrun rfl

/-! ### How programs are put together -/

theorem silent_pure (a : α) : (pure a : Broker α).Silent := trivial

theorem silent_issue {c : BrokerCall} (h : c.Silent) :
    Broker.Silent (CallProgram.issue c : CallProgram brokerCalls _) := ⟨h, fun _ => trivial⟩

theorem Broker.Silent.bind {p : Broker α} {f : α → Broker β} (hp : p.Silent)
    (hf : ∀ a, (f a).Silent) : (p >>= f).Silent := Within.bind hp fun a _ => hf a

theorem Broker.Silent.ite {b : Prop} [Decidable b] {p q : Broker α} (hp : p.Silent)
    (hq : q.Silent) : (if b then p else q).Silent := Within.ite (fun _ => hp) fun _ => hq

/-- A function that may give up at this point. -/
theorem Broker.Silent.unless {b : Prop} [Decidable b] {p : Broker α} (a : α) (hp : p.Silent) :
    (if b then pure a else p).Silent := .ite (silent_pure a) hp

theorem silent_malloc : malloc.Silent := silent_issue trivial

theorem silent_chunkFree : chunkFree.Silent := silent_issue trivial

/-! ### Kinds of programs -/

/-- The functions on a group do not concern the client. -/
theorem Broker.Looks.silent {p : Broker α} (hp : p.Looks) : p.Silent :=
  Within.weaken hp fun c hc => by cases c <;> trivial

/-- Nor do those on the directories of the topics. -/
theorem Broker.OnDirectories.silent {p : Broker α} (hp : p.OnDirectories) : p.Silent :=
  Within.weaken hp fun c hc => by cases c <;> trivial

/-- A setup that gives the new chunk back at this point if it fails. -/
theorem Broker.Silent.orFree {b : Prop} [Decidable b] {p : Broker α} (a : α) (hp : p.Silent) :
    (if b then do chunkFree; pure a else p).Silent :=
  .ite (silent_chunkFree.bind fun _ => silent_pure a) hp

theorem silent_createTopic (topicName basePath : Bytes) :
    (createTopic topicName basePath).Silent := by
  refine .unless _ ((onDirectories_topicExists _ _).silent.bind fun _ => .unless _ ?_)
  refine (onDirectories_ensureDirectoryExists _).silent.bind fun _ => .unless _ ?_
  refine (onDirectories_buildTopicPath _ _).silent.bind fun filePath => ?_
  cases filePath with
  | none => exact silent_pure _
  | some filePath =>
    refine Silent.bind (p := chunkInit filePath) (silent_issue trivial) fun _ => .unless _ ?_
    refine Silent.bind (p := chunkAppend initialData) (silent_issue trivial) fun _ => .orFree _ ?_
    refine Silent.bind (p := chunkSaveDelta) (silent_issue trivial) fun _ => .orFree _ ?_
    refine silent_malloc.bind fun _ => .orFree _ ?_
    exact silent_malloc.bind fun _ => .orFree _ (silent_pure _)

end SuparnaD
