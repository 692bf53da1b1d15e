import SuparnaD.Messaging.Answered

/-!
# Topics that are not made or not deleted

`create_topic` writes the file before it allocates the topic, and on a failure it frees what is in
memory and leaves the file. `delete_topic` frees the chunk before it removes the file, and on a
failure the chunk is gone.

## Main definitions

* `Machine.SetsUpWhole` : the outcomes with which the setup of a topic does all or nothing.
* `CreatesWhole`, `DeletesWhole`.

## Main results

* `setUpTopic_iff` : what the setup of a topic leaves behind when it fails.
* `createsWhole_iff`, `deletesWhole_iff`, and both in `lifecycle_iff`.
-/

namespace SuparnaD

open Broker

namespace Machine

/-- The next outcomes are such that the setup of a topic does not get as far as the file (the chunk
and its buffer are refused, or the file is not opened), or goes through (both bytes are written and
the two allocations after that succeed). -/
def SetsUpWhole (t : Machine) : Prop :=
  t.outcome.alloc = false ∨ t.next.outcome.alloc = false ∨ t.next.next.outcome.opens = false ∨
    t.next.next.outcome.missing = 0 ∧ t.next.next.next.outcome.alloc = true ∧
      t.next.next.next.next.outcome.alloc = true

/-- `topic_exists` finds the topic when storage and allocation work. -/
def Finds (s : Machine) (topicName basePath : Bytes) : Prop :=
  ∃ s', (topicExists topicName basePath).exec { s with faults := [] } = some (true, s')

end Machine

/-- If `create_topic` returns nothing, the topic is not there afterwards. -/
def CreatesWhole (s : Machine) (topicName basePath : Bytes) : Prop :=
  ∀ s', (createTopic topicName basePath).exec s = some (none, s') → ¬ s'.Finds topicName basePath

/-- If `delete_topic` fails, the topic has its chunk and every program does with it what it would do
without the call. -/
def DeletesWhole (s : Machine) (topic : Topic) : Prop :=
  (deleteTopic topic s).1 = -1 → (deleteTopic topic s).2.chunk = s.chunk ∧
    ∀ (α : Type) (p : Broker α), p.exec (deleteTopic topic s).2 = p.exec s.next

variable {s s' t : Machine} {topicName basePath path : Bytes} {topic : Topic}

/-- With working storage `topic_exists` says whether the file is there. -/
theorem Machine.finds_iff :
    s.Finds topicName basePath ↔ (s.fs.read (topicPath topicName basePath)).isSome = true := by
  have hrun : ∃ s', (topicExists topicName basePath).exec { s with faults := [] } =
      some ((s.fs.read (topicPath topicName basePath)).isSome, s') := by
    refine ⟨{ s with faults := [] }, CallProgram.run_bind_eq_some_iff.mpr
      ⟨some (topicPath topicName basePath), { s with faults := [] }, rfl, ?_⟩⟩
    refine (exec_fopenRead _).trans ?_
    rfl
  obtain ⟨s', hrun⟩ := hrun
  constructor
  · rintro ⟨s'', hfound⟩
    exact (Prod.mk.inj (Option.some.inj (hrun.symm.trans hfound))).1
  · intro hsome
    exact ⟨s', hsome ▸ hrun⟩

/-! ### The setup -/

/-- The chunk of a new topic before it is saved. -/
def initialChunk (path : Bytes) : Chunk :=
  ⟨path, writeAt (List.replicate 1024 0) 0 initialData, 2, initialCapacity, 0⟩

theorem chunkAppend_initialData (o : IoOutcome) (path : Bytes) :
    Writer.chunkAppend o ⟨path, [], 0, 0, 0⟩ initialData =
      some (if o.alloc then (0, initialChunk path) else (-1, ⟨path, [], 0, 0, 0⟩)) := by
  have hgrow : Writer.growCapacity 64 initialCapacity (0 + initialData.length.toUInt64) =
      some initialCapacity := rfl
  have hgrant : Writer.reallocGrants o initialCapacity.toNat = o.alloc := by
    rw [Writer.reallocGrants, decide_eq_true (by decide), Bool.and_true]
  rw [Writer.chunkAppend, if_neg (by decide)]
  simp only [↓reduceIte, hgrow, hgrant]
  rw [if_pos (by decide)]
  cases o.alloc <;> rfl

/-- A save of the initial data opens the file, and then the file is there. -/
theorem chunkSaveDelta_initialChunk (o : IoOutcome) (file : Option Bytes) (path : Bytes) :
    ((Writer.chunkSaveDelta o file (initialChunk path)).1 = 0 ↔ o.opens = true ∧ o.missing = 0) ∧
      (Writer.chunkSaveDelta o file (initialChunk path)).2.2.isSome = (o.opens || file.isSome) := by
  have hpending : ¬ (initialChunk path).size ≤ (initialChunk path).persistedSize :=
    (by decide : ¬ (2 : UInt64) ≤ 0)
  have hdelta : ((initialChunk path).size - (initialChunk path).persistedSize).toNat = 2 :=
    (by decide : ((2 : UInt64) - 0).toNat = 2)
  rw [Writer.chunkSaveDelta, if_neg hpending]
  simp only [hdelta]
  cases hopen : o.opens with
  | false =>
    simp only [Bool.false_eq_true, not_false_eq_true, ↓reduceIte, false_and, iff_false,
      Bool.false_or, and_true]
    decide
  | true =>
    have hwhole : o.transferred 2 = 2 ↔ o.missing = 0 := by
      rw [IoOutcome.transferred]
      omega
    rw [if_neg (not_not.mpr rfl)]
    by_cases hmissing : o.missing = 0
    · rw [if_neg (not_not.mpr (hwhole.mpr hmissing))]
      exact ⟨iff_of_true rfl ⟨rfl, hmissing⟩, rfl⟩
    · rw [if_pos fun h => hmissing (hwhole.mp h)]
      exact ⟨iff_of_false (by omega : (-1 : ℤ) ≠ 0) fun h => hmissing h.2, rfl⟩

/-- The two allocations at the end keep the file, and give a topic when both succeed. -/
theorem exec_nameTopic_isSome {topic : Topic} {r : Option Topic}
    (hrun : (nameTopic topic).exec s = some (r, s')) :
    s'.fs = s.fs ∧ (r = none ↔ ¬ (s.outcome.alloc = true ∧ s.next.outcome.alloc = true)) := by
  refine ⟨(exec_nameTopic hrun).1.fs, ?_⟩
  obtain ⟨a, s₁, ha, hrun⟩ := CallProgram.run_bind_eq_some_iff.mp hrun
  obtain ⟨rfl, rfl⟩ := Prod.mk.inj (Option.some.inj ha)
  cases hfirst : s.outcome.alloc with
  | false =>
    rw [hfirst] at hrun
    exact iff_of_true (exec_giveUp hrun).1 fun h => Bool.noConfusion h.1
  | true =>
  rw [hfirst] at hrun
  obtain ⟨b, s₂, hb, hrun⟩ := CallProgram.run_bind_eq_some_iff.mp hrun
  obtain ⟨rfl, rfl⟩ := Prod.mk.inj (Option.some.inj hb)
  cases hsecond : s.next.outcome.alloc with
  | false =>
    rw [hsecond] at hrun
    exact iff_of_true (exec_giveUp hrun).1 fun h => Bool.noConfusion h.2
  | true =>
    rw [hsecond] at hrun
    obtain ⟨rfl, -⟩ := CallProgram.run_pure_eq_some_iff.mp hrun
    exact iff_of_false (Option.some_ne_none topic) (not_not.mpr ⟨rfl, rfl⟩)

/-- The part of the setup after the append. -/
def saveTopic (topicName path : Bytes) : Broker (Option Topic) := do
  if (← chunkSaveDelta) ≠ 0 then
    chunkFree
    return none
  nameTopic ⟨some topicName, some path⟩

/-- The file is there once it has been opened, so all must go well from then on. -/
theorem saveTopic_iff (hchunk : s.chunk = some (initialChunk path))
    (habsent : s.fs.read path = none) {r : Option Topic}
    (hrun : (saveTopic topicName path).exec s = some (r, s')) :
    (r = none → s'.fs.read path = none) ↔ s.outcome.opens = false ∨ s.outcome.missing = 0 ∧
      s.next.outcome.alloc = true ∧ s.next.next.outcome.alloc = true := by
  obtain ⟨saved, s₁, hsave, hrun⟩ := CallProgram.run_bind_eq_some_iff.mp hrun
  obtain ⟨rfl, rfl⟩ := Prod.mk.inj (Option.some.inj ((exec_chunkSaveDelta hchunk).symm.trans hsave))
  obtain ⟨hzero, hfile⟩ :=
    chunkSaveDelta_initialChunk s.outcome (s.fs.read (initialChunk path).filePath) path
  have hread (file : Option Bytes) : (s.fs.write (initialChunk path).filePath file).read path =
      file := FileSystem.read_write s.fs path file
  have habsent' : s.fs.read (initialChunk path).filePath = none := habsent
  rw [habsent', Option.isSome_none, Bool.or_false] at hfile
  have hgone : (Writer.chunkSaveDelta s.outcome (s.fs.read (initialChunk path).filePath)
      (initialChunk path)).2.2 = none ↔ s.outcome.opens = false := by
    rw [← Option.not_isSome_iff_eq_none, habsent', hfile, Bool.not_eq_true]
  split at hrun
  next hfailed =>
    obtain ⟨rfl, hkept⟩ := exec_giveUp hrun
    rw [hkept.fs, hread, hgone]
    constructor
    · exact fun h => .inl (h rfl)
    · rintro (hclosed | hwhole) -
      · exact hclosed
      · by_contra hopens
        exact hfailed (hzero.mpr ⟨Bool.not_eq_false _ ▸ hopens, hwhole.1⟩)
  next hdone =>
    obtain ⟨hopens, hmissing⟩ := hzero.mp (not_not.mp hdone)
    obtain ⟨hfs, hnone⟩ := exec_nameTopic_isSome hrun
    rw [hfs, hread, hgone, hopens, hnone]
    simp only [Bool.true_eq_false, imp_false, not_not, false_or]
    exact ⟨fun halloc => ⟨hmissing, halloc⟩, fun h => h.2⟩

/-- A setup that fails leaves no file exactly when it has not opened it. -/
theorem setUpTopic_iff (habsent : t.fs.read path = none) {r : Option Topic}
    (hrun : (setUpTopic topicName path).exec t = some (r, s')) :
    (r = none → s'.fs.read path = none) ↔ t.SetsUpWhole := by
  obtain ⟨made, s₁, hinit, hrun⟩ := CallProgram.run_bind_eq_some_iff.mp hrun
  obtain ⟨rfl, rfl⟩ := Prod.mk.inj (Option.some.inj hinit)
  rw [Writer.chunkInit] at hrun
  cases halloc : t.outcome.alloc with
  | false =>
    rw [halloc] at hrun
    obtain ⟨rfl, rfl⟩ := CallProgram.run_pure_eq_some_iff.mp hrun
    exact iff_of_true (fun _ => habsent) (.inl halloc)
  | true =>
  have hrun₁ : (do
      if (← chunkAppend initialData) ≠ 0 then
        chunkFree
        return none
      saveTopic topicName path : Broker (Option Topic)).exec
        { t.next with chunk := some ⟨path, [], 0, 0, 0⟩ } = some (r, s') := by
    rw [halloc] at hrun
    exact hrun
  obtain ⟨appended, s₂, happend, hrun⟩ := CallProgram.run_bind_eq_some_iff.mp hrun₁
  have happend' := (exec_chunkAppend rfl initialData).symm.trans happend
  rw [chunkAppend_initialData, Option.map_some] at happend'
  obtain ⟨rfl, rfl⟩ := Prod.mk.inj (Option.some.inj happend')
  rw [Machine.SetsUpWhole, halloc]
  cases hgrow : t.next.outcome.alloc with
  | false =>
    have hfailed : ({ t.next with chunk := some ⟨path, [], 0, 0, 0⟩ } : Machine).outcome.alloc =
        false := hgrow
    rw [hfailed] at hrun
    obtain ⟨rfl, hkept⟩ := exec_giveUp hrun
    rw [hkept.fs]
    exact iff_of_true (fun _ => habsent) (.inr (.inl rfl))
  | true =>
    have hgrown : ({ t.next with chunk := some ⟨path, [], 0, 0, 0⟩ } : Machine).outcome.alloc =
        true := hgrow
    rw [hgrown] at hrun
    have hrun₂ : (saveTopic topicName path).exec
        { t.next.next with chunk := some (initialChunk path) } = some (r, s') := hrun
    have habsent₂ : ({ t.next.next with chunk := some (initialChunk path) } : Machine).fs.read
        path = none := habsent
    refine (saveTopic_iff rfl habsent₂ hrun₂).trans ?_
    simp only [Bool.true_eq_false, false_or]
    exact Iff.rfl

/-! ### Both operations -/

/-- Before its setup `create_topic` writes no file, so that a topic that is not there stays away. -/
theorem createsWhole_iff (habsent : s.fs.read (topicPath topicName basePath) = none) :
    CreatesWhole s topicName basePath ↔
      ∀ t, s.ReachesSetup t topicName basePath → t.SetsUpWhole := by
  constructor
  · intro hwhole t hreach
    have habsent' : t.fs.read (topicPath topicName basePath) = none := by
      rw [hreach.sameFiles.read, habsent]
    obtain ⟨r, s', hset⟩ := exec_setUpTopic_some topicName (topicPath topicName basePath) t
    refine (setUpTopic_iff habsent' hset).mp fun hnone => ?_
    subst hnone
    rw [← Option.not_isSome_iff_eq_none, ← Machine.finds_iff]
    exact hwhole s' (hreach.exec_createTopic.trans hset)
  · intro hwhole s' hrun
    rw [Machine.finds_iff, Option.not_isSome_iff_eq_none]
    rcases exec_createTopic_cases hrun with ⟨-, hsame⟩ | ⟨t, hreach, hset⟩
    · rw [hsame.read, habsent]
    · have habsent' : t.fs.read (topicPath topicName basePath) = none := by
        rw [hreach.sameFiles.read, habsent]
      exact (setUpTopic_iff habsent' hset).mpr (hwhole t hreach) rfl

/-- A refused removal leaves the topic without its chunk. -/
theorem deleteTopic_refused (hpath : topic.filePath = some path)
    (hrefused : (s.outcome.opens && (s.fs.read path).isSome) = false) :
    deleteTopic topic s = (-1, { s.next with chunk := none }) := by
  have hremove : removeFile path { s with chunk := none } = (-1, { s.next with chunk := none }) :=
    if_neg (by rw [← Bool.not_eq_true] at hrefused; exact hrefused)
  rw [deleteTopic, hpath]
  simp only [hremove]
  rfl

theorem deleteTopic_removed (hpath : topic.filePath = some path)
    (hremoved : (s.outcome.opens && (s.fs.read path).isSome) = true) :
    (deleteTopic topic s).1 = 0 := by
  have hremove : (removeFile path { s with chunk := none }).1 = 0 :=
    congrArg Prod.fst (if_pos hremoved)
  rw [deleteTopic, hpath]
  simp only [hremove]
  rfl

/-- A topic without chunk loses nothing, and otherwise the file must be removed. -/
theorem deletesWhole_iff : DeletesWhole s topic ↔ s.chunk = none ∨ topic.filePath = none ∨
    ∃ path, topic.filePath = some path ∧ s.outcome.opens = true ∧
      (s.fs.read path).isSome = true := by
  cases hpath : topic.filePath with
  | none =>
    have hdone : (deleteTopic topic s).1 = 0 := by rw [deleteTopic, hpath]
    refine iff_of_true (fun hfailed => ?_) (.inr (.inl rfl))
    rw [hdone] at hfailed
    exact absurd hfailed (by omega)
  | some path =>
    simp only [reduceCtorEq, Option.some.injEq, exists_eq_left', false_or]
    rw [← Bool.and_eq_true]
    cases hremoved : s.outcome.opens && (s.fs.read path).isSome with
    | true =>
      refine iff_of_true (fun hfailed => ?_) (.inr rfl)
      rw [deleteTopic_removed hpath hremoved] at hfailed
      exact absurd hfailed (by omega)
    | false =>
      rw [DeletesWhole, deleteTopic_refused hpath hremoved]
      constructor
      · exact fun hwhole => .inl (hwhole rfl).1.symm
      · rintro (hnone | hremoved') -
        · refine ⟨hnone.symm, fun α p => ?_⟩
          have hnext : s.next.chunk = none := hnone
          rw [← hnext]
        · cases hremoved'

/-- The lifecycle operations are all or nothing exactly when the setup of a topic stops before its
file or goes through, and the file of a topic with a chunk can be removed. -/
theorem lifecycle_iff (habsent : s.fs.read (topicPath topicName basePath) = none) :
    CreatesWhole s topicName basePath ∧ DeletesWhole s' topic ↔
      (∀ t, s.ReachesSetup t topicName basePath → t.SetsUpWhole) ∧
        (s'.chunk = none ∨ topic.filePath = none ∨ ∃ path, topic.filePath = some path ∧
          s'.outcome.opens = true ∧ (s'.fs.read path).isSome = true) :=
  and_congr (createsWhole_iff habsent) deletesWhole_iff

/-- An empty working directory, and no memory for the `Topic` once the new file is saved. -/
def noTopicMemory : Machine := ⟨⟨fun _ => none, fun _ => false⟩,
  List.replicate 8 .ok ++ [{ alloc := false }], none, ⟨[], [], []⟩⟩

/-- A topic with its chunk, whose file may not be removed. -/
def keptFile : Machine := { Machine.ofFile (ascii "t") initialData with
  faults := [{ opens := false }] }

/-- The topic of `keptFile`. -/
def keptTopic : Topic := ⟨some (ascii "t"), some (ascii "t")⟩

/-- The file of the new topic stays, with the initial data, when the `Topic` is not allocated, and
the chunk is lost when the file may not be removed. -/
theorem not_lifecycle_whole : ¬ CreatesWhole noTopicMemory (ascii "t") (ascii ".") ∧
    ¬ DeletesWhole keptFile keptTopic := by
  constructor
  · intro hwhole
    refine hwhole _ rfl (Machine.finds_iff.mpr ?_)
    rfl
  · intro hwhole
    exact absurd (hwhole rfl).1 (Option.some_ne_none _).symm

theorem lifecycle_iff_sample :
    CreatesWhole noTopicMemory (ascii "t") (ascii ".") ∧ DeletesWhole keptFile keptTopic ↔
      (∀ t, noTopicMemory.ReachesSetup t (ascii "t") (ascii ".") → t.SetsUpWhole) ∧
        (keptFile.chunk = none ∨ keptTopic.filePath = none ∨
          ∃ path, keptTopic.filePath = some path ∧ keptFile.outcome.opens = true ∧
            (keptFile.fs.read path).isSome = true) :=
  lifecycle_iff rfl

end SuparnaD
