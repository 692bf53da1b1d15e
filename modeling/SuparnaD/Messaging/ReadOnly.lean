import SuparnaD.Messaging.TopicReaders
import SuparnaD.Messaging.TopicWriting

/-!
# Programs that only read a topic

A program that issues no call of the writer but `chunk_load`, `chunk_read` and the size of the chunk
changes no file. It can still replace what the chunk holds in memory, since every function on a
group loads the chunk again.

## Main definitions

* `BrokerCall.Reads`, `Broker.ReadsOnly`.
* `Machine.Steady` : storage and allocation succeed on a topic.

## Main results

* `Broker.Looks.readsOnly` : a reader is such a program.
* `Machine.Steady.exec_readsOnly` : after a load, a program that only reads leaves the chunk with
  the content of the file.
-/

namespace SuparnaD

open Broker CallProgram

/-- The calls that change neither the file nor what is there to save, but for `chunk_load`. -/
def BrokerCall.Reads : BrokerCall → Prop
  | .hasChunk | .chunkLoad | .chunkRead _ _ | .chunkSize | .malloc | .fopenRead _ | .stat _
  | .send _ | .read _ => True
  | .chunkInit _ | .chunkFree | .chunkAppend _ | .chunkSaveDelta | .mkdir _ => False

/-- The program reads the topic, and may load its chunk again. -/
def Broker.ReadsOnly {α : Type} (p : Broker α) : Prop := p.Within BrokerCall.Reads fun _ => True

section

variable {α β : Type}

theorem Broker.Looks.readsOnly {p : Broker α} (hp : p.Looks) : p.ReadsOnly :=
  Within.weaken hp fun c hc => by cases c <;> trivial

theorem readsOnly_hasChunk : hasChunk.ReadsOnly := quiet_hasChunk.looks.readsOnly

theorem readsOnly_chunkLoad : chunkLoad.ReadsOnly := looks_chunkLoad.readsOnly

/-- `consume_packet` is a reader. -/
theorem readsOnly_consumePacket (g : Group) (topic : ℕ) : (consumePacket g topic).ReadsOnly :=
  (looks_consumePacket g topic).readsOnly

/-- The program loads the chunk first and then only reads. -/
def Broker.LoadsFirst (p : Broker α) : Prop :=
  ∃ failure body, p = whenLoaded failure body ∧ body.ReadsOnly

theorem loadsFirst_whenLoaded {failure : α} {body : Broker α} (h : body.Looks) :
    (whenLoaded failure body).LoadsFirst := ⟨failure, body, rfl, h.readsOnly⟩

/-- A function whose two checks before the load do not make it give up. -/
theorem Broker.LoadsFirst.checked {b c : Prop} [Decidable b] [Decidable c] {p : Broker α} {a : α}
    (hp : p.LoadsFirst) (hb : ¬ b) (hc : ¬ c) :
    (if b then pure a else if c then pure a else p).LoadsFirst := by
  rwa [if_neg hb, if_neg hc]

/-- `get_topic_size` is a reader. -/
theorem readsOnly_getTopicSize : getTopicSize.ReadsOnly :=
  (looks_whenLoaded quiet_chunkSize.looks).readsOnly

end

/-! ### Outcomes that are used up -/

theorem Machine.faults_next (s : Machine) : s.next.faults <:+ s.faults := List.tail_suffix _

/-- A call uses up at most one outcome. -/
theorem faults_perform {c : BrokerCall} {s s' : Machine} {r : brokerCalls.Answer c}
    (hcall : perform c s = some (r, s')) : s'.faults <:+ s.faults := by
  cases c with
  | chunkLoad | chunkRead | chunkSaveDelta =>
    cases hs : s.chunk <;> simp only [perform, hs, Option.some.injEq, Prod.mk.injEq] at hcall <;>
      rw [← hcall.2] <;> first | exact List.suffix_refl _ | exact s.faults_next
  | chunkAppend data =>
    cases hs : s.chunk with
    | none =>
      simp only [perform, hs, Option.some.injEq, Prod.mk.injEq] at hcall
      exact hcall.2 ▸ List.suffix_refl _
    | some c =>
      simp only [perform, hs] at hcall
      obtain ⟨r', -, heq⟩ := Option.map_eq_some_iff.mp hcall
      obtain ⟨-, rfl⟩ := Prod.mk.inj heq
      exact s.faults_next
  | chunkSize =>
    obtain ⟨c, -, heq⟩ := Option.map_eq_some_iff.mp hcall
    obtain ⟨-, rfl⟩ := Prod.mk.inj heq
    exact List.suffix_refl _
  | mkdir path =>
    rw [perform] at hcall
    split_ifs at hcall <;> obtain ⟨-, rfl⟩ := Prod.mk.inj (Option.some.inj hcall) <;>
      exact s.faults_next
  | hasChunk | chunkFree | send | read =>
    obtain ⟨-, rfl⟩ := Prod.mk.inj (Option.some.inj hcall)
    exact List.suffix_refl _
  | chunkInit | malloc | fopenRead | stat =>
    obtain ⟨-, rfl⟩ := Prod.mk.inj (Option.some.inj hcall)
    exact s.faults_next

theorem faults_exec {α : Type} {p : Broker α} {s s' : Machine} {a : α}
    (hrun : p.exec s = some (a, s')) : s'.faults <:+ s.faults :=
  (CallProgram.within_true p).invariant (J := fun t => t.faults <:+ s.faults)
    (fun _ _ _ _ _ hcall ht => (faults_perform hcall).trans ht) hrun (List.suffix_refl _)

/-! ### Runs of programs that read -/

namespace Machine

variable {s s' : Machine} {path : Bytes}

/-- The calls that read, but for `chunk_load`, change neither the files nor the chunk. -/
theorem perform_reads_eq {c : BrokerCall} {r : brokerCalls.Answer c}
    (hcall : perform c s = some (r, s')) (hreads : c.Reads) (hload : c ≠ .chunkLoad) :
    s'.fs = s.fs ∧ s'.chunk = s.chunk := by
  cases c with
  | chunkLoad => exact absurd rfl hload
  | chunkRead size offset =>
    cases hs : s.chunk <;> simp only [perform, hs, Option.some.injEq, Prod.mk.injEq] at hcall <;>
      rw [← hcall.2] <;> exact ⟨rfl, hs⟩
  | chunkSize =>
    obtain ⟨c, hs, heq⟩ := Option.map_eq_some_iff.mp hcall
    obtain ⟨-, rfl⟩ := Prod.mk.inj heq
    exact ⟨rfl, rfl⟩
  | chunkInit | chunkFree | chunkAppend | chunkSaveDelta | mkdir => exact hreads.elim
  | _ =>
    obtain ⟨-, rfl⟩ := Prod.mk.inj (Option.some.inj hcall)
    exact ⟨rfl, rfl⟩

/-- A call that reads changes no file. -/
theorem perform_reads_fs {c : BrokerCall} {r : brokerCalls.Answer c}
    (hcall : perform c s = some (r, s')) (hreads : c.Reads) : s'.fs = s.fs := by
  by_cases hload : c = .chunkLoad
  · subst hload
    simp only [perform] at hcall
    split at hcall <;> obtain ⟨-, rfl⟩ := Prod.mk.inj (Option.some.inj hcall) <;> rfl
  · exact (perform_reads_eq hcall hreads hload).1

/-- A program that only reads changes no file. -/
theorem exec_readsOnly_fs {α : Type} {p : Broker α} (hp : p.ReadsOnly) {a : α}
    (hrun : p.exec s = some (a, s')) : s'.fs = s.fs :=
  CallProgram.Within.invariant (J := fun t => t.fs = s.fs) hp
    (fun _ _ _ _ hc hcall ht => (perform_reads_fs hcall hc).trans ht) hrun rfl

/-- Storage and allocation succeed on a topic whose file is not too long to be loaded. -/
structure Steady (s : Machine) (path : Bytes) : Prop where
  onTopic : s.OnTopic path
  chunk : s.chunk.isSome = true
  faults : s.faults = []
  small : (s.file path).length < 2 ^ 63

theorem Steady.view_eq (h : s.Steady path) : s.view = some (s.file path) := by
  obtain ⟨c, hs⟩ := Option.isSome_iff_exists.mp h.chunk
  obtain ⟨rfl, -⟩ := h.onTopic c hs
  simp only [view, hs, outcome_of_faults h.faults, Writer.chunkLoad_ok c _ h.small,
    Writer.seenFile_ok, ↓reduceIte, file]

/-- A step that keeps the file leaves the topic steady. -/
theorem Steady.of_kept (h : s.Steady path) (hkept : s.Kept s') (ht : s'.OnTopic path) :
    s'.Steady path ∧ s'.file path = s.file path := by
  have hfile : s'.file path = s.file path := by rw [file, hkept.fs, file]
  exact ⟨⟨ht, hkept.chunk.trans h.chunk, hkept.faults h.faults, hfile ▸ h.small⟩, hfile⟩

theorem Steady.of_shows (h : s.Steady path) (hkept : s.Kept s') {v : Bytes}
    (hshow : s'.Shows path v) : s'.Steady path :=
  ⟨hshow.onTopic, hkept.chunk.trans h.chunk, hkept.faults h.faults,
    by rw [file, hkept.fs]; exact h.small⟩

/-- A function goes on with the content of the file. -/
theorem Steady.exec_whenLoaded (h : s.Steady path) {α : Type} (failure : α) (body : Broker α) :
    ∃ s', s.Kept s' ∧ s'.Shows path (s.file path) ∧
      (whenLoaded failure body).exec s = body.exec s' := by
  obtain ⟨s', hkept, -, ⟨hv, -⟩ | ⟨v, hv, hshow, hrun⟩⟩ :=
    h.onTopic.exec_whenLoaded failure body
  · cases h.view_eq.symm.trans hv
  · obtain rfl := Option.some.inj (h.view_eq.symm.trans hv)
    exact ⟨s', hkept, hshow, hrun⟩

/-- The chunk keeps the content of the file under a call that reads. -/
theorem Steady.perform_reads (h : s.Steady path) (hshow : s.Shows path (s.file path))
    {c : BrokerCall} {r : brokerCalls.Answer c} (hcall : perform c s = some (r, s'))
    (hreads : c.Reads) : s'.Shows path (s.file path) ∧ s'.Steady path := by
  have hfile : s'.file path = s.file path := by rw [file, perform_reads_fs hcall hreads, file]
  have hshow' : s'.Shows path (s.file path) := by
    by_cases hload : c = .chunkLoad
    · subst hload
      have hrun : chunkLoad.exec s = some (r, s') :=
        (CallProgram.run_issue perform BrokerCall.chunkLoad s).trans hcall
      obtain ⟨t, -, -, ⟨hv, -⟩ | ⟨v, hv, hshow', hload'⟩⟩ := h.onTopic.exec_chunkLoad
      · cases h.view_eq.symm.trans hv
      · obtain rfl := Option.some.inj (h.view_eq.symm.trans hv)
        obtain ⟨-, rfl⟩ := Prod.mk.inj (Option.some.inj (hload'.symm.trans hrun))
        exact hshow'
    · obtain ⟨c', hs, hlog⟩ := hshow
      exact ⟨c', (perform_reads_eq hcall hreads hload).2.trans hs, hlog⟩
  have hfaults : s'.faults <:+ [] := h.faults ▸ faults_perform hcall
  refine ⟨hshow', hshow'.onTopic, ?_, List.suffix_nil.mp hfaults, ?_⟩
  · obtain ⟨c', hs, -⟩ := hshow'
    rw [hs, Option.isSome_some]
  · rw [hfile]
    exact h.small

/-- The chunk keeps the content of the file while a program only reads. -/
theorem Steady.exec_readsOnly (h : s.Steady path) (hshow : s.Shows path (s.file path)) {α : Type}
    {p : Broker α} (hp : p.ReadsOnly) {a : α} (hrun : p.exec s = some (a, s')) :
    s'.Shows path (s.file path) ∧ s'.Steady path := by
  have hkept := CallProgram.Within.invariant
    (J := fun t => t.file path = s.file path ∧ t.Shows path (s.file path) ∧ t.Steady path) hp
    (fun c r t t' hc hcall ht => ?_) hrun ⟨rfl, hshow, h⟩
  · exact hkept.2
  obtain ⟨hfile, hshow, hsteady⟩ := ht
  have hfile' : t'.file path = t.file path := by rw [file, perform_reads_fs hcall hc, file]
  refine ⟨hfile'.trans hfile, ?_⟩
  rw [← hfile] at hshow ⊢
  exact hsteady.perform_reads hshow hcall hc

/-- A program that loads first leaves the chunk with the content of the file. -/
theorem Steady.exec_loadsFirst (h : s.Steady path) {α : Type} {p : Broker α} (hp : p.LoadsFirst)
    {a : α} (hrun : p.exec s = some (a, s')) : s'.Shows path (s.file path) := by
  obtain ⟨failure, body, rfl, hbody⟩ := hp
  obtain ⟨s₁, hkept, hshow, hrun₁⟩ := h.exec_whenLoaded failure body
  have hfile : s₁.file path = s.file path := by rw [file, hkept.fs, file]
  rw [hrun₁] at hrun
  rw [← hfile] at hshow ⊢
  exact ((h.of_shows hkept hshow).exec_readsOnly hshow hbody hrun).1

end Machine

end SuparnaD
