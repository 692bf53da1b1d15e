import Mathlib.Algebra.GroupWithZero.Nat
import Mathlib.Data.List.Forall2
import SuparnaD.Foundation.Runs
import SuparnaD.Messaging.GroupOps

/-!
# Groups on one topic

Several groups read from one topic while events are published to it. What matters of the topic for
anything that comes later is its `Backlog`: the file, and the bytes in memory that wait to be saved.
Publishing adds to the backlog and saves it; an operation of a group computes its result from the
file and, since it loads the chunk again, drops what waits to be saved.

When storage and allocation succeed the topic refines this description. The operations of one group
can then be removed from a run without effect on the rest, provided that none of them loads the
chunk while bytes wait to be saved. Such bytes are there after a batch that failed.

## Main definitions

* `Backlog`, `GroupStore`, `GroupStore.step` : the description.
* `TopicGroups`, `TopicGroups.step` : the topic and its groups.
* `TopicGroups.Isolated` : the operations of a group have no effect on the rest of a run.

## Main results

* `TopicGroups.Holds.step` : the topic refines the description.
* `TopicGroups.isolated_of_undisturbing`.
-/

namespace SuparnaD

open Broker

/-! ### The description -/

/-- What matters of a topic for anything that comes later. -/
structure Backlog where
  /-- The file. -/
  file : Option Bytes
  /-- The bytes in memory that wait to be saved. -/
  pending : Bytes

namespace Backlog

/-- The content of the file. -/
def content (b : Backlog) : Bytes := b.file.getD []

/-- Bytes are added in memory. -/
def append (b : Backlog) (bytes : Bytes) : Backlog := { b with pending := b.pending ++ bytes }

/-- All that waits is saved. A file is made only for bytes to save. -/
def save (b : Backlog) : Backlog := ⟨Writer.savedFile .ok b.file b.pending, []⟩

/-- The chunk is loaded again. -/
def load (b : Backlog) : Backlog := { b with pending := [] }

/-- An event is checked, appended and saved. -/
def publishEvent (b : Backlog) : Option Bytes → ℤ × Backlog
  | none => (-1, b)
  | some d =>
    if d.length = 0 then (-1, b)
    else if maxEventSize < d.length then (-2, b)
    else (0, (b.append (topicFormat.frame d)).save)

/-- The items are appended up to the first invalid one, and saved when there is none. -/
def publishBatch (b : Backlog) : List (Option Bytes) → ℤ × Backlog
  | [] => (0, b.save)
  | none :: _ => (-1, b)
  | some d :: rest =>
    if topicFormat.Valid d then (b.append (topicFormat.frame d)).publishBatch rest else (-1, b)

end Backlog

/-- An operation on a topic that several groups share. -/
inductive TopicGroupsOp (ι : Type*) where
  | publishEvent (data : Option Bytes)
  | publishEventBatch (dataArray : List (Option Bytes))
  | flushTopic
  | group (i : ι) (op : GroupOp)

namespace TopicGroupsOp

variable {ι : Type*} [DecidableEq ι]

/-- The operation is one of a group other than `j`, or of none. -/
def NotOf (j : ι) : TopicGroupsOp ι → Bool
  | .group i _ => decide (i ≠ j)
  | _ => true

/-- The number of bytes that the operation appends at most. -/
def bytes : TopicGroupsOp ι → ℕ
  | .publishEvent data => (topicFormat.stream data.toList).length
  | .publishEventBatch dataArray => (topicFormat.stream (dataArray.filterMap id)).length
  | .flushTopic | .group _ _ => 0

end TopicGroupsOp

/-- A backlog with the groups of the topic. -/
structure GroupStore (ι : Type*) where
  /-- The file, and what waits to be saved. -/
  backlog : Backlog
  /-- The groups. -/
  groups : ι → Group

namespace GroupStore

variable {ι : Type*} [DecidableEq ι]

/-- The result of an operation and what it leaves. -/
def step (a : GroupStore ι) : TopicGroupsOp ι → GroupResult × GroupStore ι
  | .publishEvent data =>
    (.code (a.backlog.publishEvent data).1, ⟨(a.backlog.publishEvent data).2, a.groups⟩)
  | .publishEventBatch dataArray =>
    if dataArray.length = 0 then (.code (-1), a)
    else (.code (a.backlog.publishBatch dataArray).1,
      ⟨(a.backlog.publishBatch dataArray).2, a.groups⟩)
  | .flushTopic => (.code 0, ⟨a.backlog.save, a.groups⟩)
  | .group i op =>
    let r := op.result (a.groups i) a.backlog.content
    (r.1, ⟨if op.loads (a.groups i) then a.backlog.load else a.backlog,
      Function.update a.groups i r.2⟩)

/-- The two differ in the group `j` only. -/
structure Agree (j : ι) (a b : GroupStore ι) : Prop where
  backlog : a.backlog = b.backlog
  groups : ∀ i, i ≠ j → a.groups i = b.groups i

variable {j : ι} {a b : GroupStore ι}

/-- An operation of another group does not see the group `j`. -/
theorem Agree.step (h : a.Agree j b) {op : TopicGroupsOp ι} (hop : op.NotOf j = true) :
    (a.step op).1 = (b.step op).1 ∧ (a.step op).2.Agree j (b.step op).2 := by
  have hbacklog := h.backlog
  cases op with
  | publishEvent data =>
    simp only [GroupStore.step, hbacklog]
    exact ⟨trivial, rfl, h.groups⟩
  | publishEventBatch dataArray =>
    simp only [GroupStore.step, hbacklog]
    split_ifs
    · exact ⟨rfl, h⟩
    · exact ⟨rfl, rfl, h.groups⟩
  | flushTopic =>
    simp only [GroupStore.step, hbacklog]
    exact ⟨trivial, rfl, h.groups⟩
  | group i op =>
    simp only [GroupStore.step, hbacklog, h.groups i (of_decide_eq_true hop)]
    refine ⟨trivial, rfl, fun k hk => ?_⟩
    by_cases hik : k = i
    · subst hik
      simp only [Function.update_self]
    · simp only [Function.update_of_ne hik, h.groups k hk]

/-- An operation of the group `j` changes nothing else when nothing waits to be saved or it does not
get to its load. -/
theorem Agree.step_dropped (h : a.Agree j b) {op : GroupOp}
    (hquiet : op.loads (a.groups j) = true → a.backlog.pending = []) :
    (a.step (.group j op)).2.Agree j b := by
  refine ⟨?_, fun i hi => ?_⟩
  · rw [← h.backlog]
    show (if op.loads (a.groups j) = true then a.backlog.load else a.backlog) = a.backlog
    split_ifs with hloads
    · rw [Backlog.load, ← hquiet hloads]
    · rfl
  · exact (Function.update_of_ne hi ..).trans (h.groups i hi)

end GroupStore

/-! ### A topic and its backlog -/

namespace Machine

/-- Storage and allocation succeed, the topic has the given backlog, and there is room for `n` more
bytes. -/
structure Holds (s : Machine) (path : Bytes) (b : Backlog) (n : ℕ) : Prop where
  faults : s.faults = []
  file : s.fs.read path = b.file
  logs : ∃ l, s.Logs path l ∧ l.pending = b.pending ∧ l.shown.length + n < 2 ^ 62
  room : b.content.length + b.pending.length + n < 2 ^ 62

variable {s s' : Machine} {path : Bytes} {b : Backlog} {n : ℕ}

theorem Holds.mono {m : ℕ} (h : s.Holds path b m) (hnm : n ≤ m) : s.Holds path b n := by
  obtain ⟨l, hlog, hpending, hlen⟩ := h.logs
  have hroom := h.room
  exact ⟨h.faults, h.file, ⟨l, hlog, hpending, by omega⟩, by omega⟩

/-- A topic that nothing has been done with yet. -/
theorem holds_ofFile {content : Bytes} (h : content.length + n < 2 ^ 62) :
    (ofFile path content).Holds path ⟨some content, []⟩ n := by
  have hlog : Chunk.Represents ⟨path, [], 0, 0, 0⟩ (.load []) :=
    (Writer.chunkInit_represents (o := .ok) rfl).2
  refine ⟨rfl, FileSystem.read_ofFile path content, ⟨_, ⟨_, rfl, rfl, hlog⟩, rfl, ?_⟩, h⟩
  show 0 + n < 2 ^ 62
  omega

theorem Holds.file_eq (h : s.Holds path b n) : s.file path = b.content := by
  rw [Machine.file, h.file, Backlog.content]

theorem Holds.steady (h : s.Holds path b n) : s.Steady path := by
  obtain ⟨l, hlog, -, -⟩ := h.logs
  have hroom := h.room
  refine ⟨hlog.onTopic, ?_, h.faults, ?_⟩
  · obtain ⟨c, hs, -⟩ := hlog
    rw [hs, Option.isSome_some]
  · rw [h.file_eq]
    omega

/-- With room an append succeeds. -/
theorem Holds.exec_chunkAppend {data : Bytes} (h : s.Holds path b (data.length + n))
    (hdata : data ≠ []) :
    ∃ s', (chunkAppend data).exec s = some (0, s') ∧ s'.Holds path (b.append data) n := by
  obtain ⟨l, ⟨c, hs, rfl, hc⟩, hpending, hlen⟩ := h.logs
  have hroom := h.room
  have hok : s.outcome = .ok := outcome_of_faults h.faults
  obtain ⟨c', hrun, hpath, hc'⟩ := Writer.chunkAppend_ok hc (o := s.outcome)
    (by rw [hok, IoOutcome.ok_alloc]) hdata (by omega)
  refine ⟨{ s.next with chunk := some c' }, ?_, (kept_next s).faults h.faults, h.file,
    ⟨_, ⟨c', rfl, hpath, hc'⟩, ?_, ?_⟩, ?_⟩
  · rw [Broker.exec_chunkAppend hs, hrun]
    rfl
  · rw [DeltaLog.pending_append, hpending, Backlog.append]
  · rw [DeltaLog.shown_append, List.length_append]
    omega
  · show b.content.length + (b.pending ++ data).length + n < 2 ^ 62
    rw [List.length_append]
    omega

/-- A save succeeds and leaves nothing to save. -/
theorem Holds.exec_chunkSaveDelta (h : s.Holds path b n) :
    ∃ s', chunkSaveDelta.exec s = some (0, s') ∧ s'.Holds path b.save n := by
  obtain ⟨l, ⟨c, hs, rfl, hc⟩, hpending, hlen⟩ := h.logs
  have hroom := h.room
  have hok : s.outcome = .ok := outcome_of_faults h.faults
  obtain ⟨hpath, hfile, hcases⟩ :=
    Writer.chunkSaveDelta_cases hc s.outcome (s.fs.read c.filePath)
  rcases hcases with ⟨hzero, -, hrep⟩ | ⟨-, hshort, -⟩
  swap
  · rw [hok, Writer.saveCount_ok] at hshort
    exact absurd hshort (Nat.lt_irrefl _)
  have hrun := Broker.exec_chunkSaveDelta hs
  rw [hzero] at hrun
  have hfaults : s.next.faults = [] := (kept_next s).faults h.faults
  refine ⟨_, hrun, hfaults, ?_, ⟨l.commit, ⟨_, rfl, hpath, hrep⟩, l.pending_commit, hlen⟩, ?_⟩
  · rw [hok, h.file, hpending] at hfile
    simp only [FileSystem.read_write, hok, h.file, hfile, Backlog.save]
  · show ((Writer.savedFile .ok b.file b.pending).getD []).length + 0 + n < 2 ^ 62
    rw [Writer.getD_savedFile, Writer.saveCount_ok, List.take_length, List.length_append]
    exact hroom

/-- With room an event is appended whole. -/
theorem Holds.exec_appendEvent {d : Bytes} (hd : topicFormat.Valid d)
    (h : s.Holds path b ((topicFormat.frame d).length + n)) :
    ∃ s', (appendEvent d).exec s = some (0, s') ∧
      s'.Holds path (b.append (topicFormat.frame d)) n := by
  have hsplit : (topicFormat.frame d).length + n = (eventHeader d).length + (d.length + n) := by
    rw [FrameFormat.length_frame, length_eventHeader, topicFormat_headerLen]
    omega
  rw [hsplit] at h
  obtain ⟨s₁, hhead, h₁⟩ := h.exec_chunkAppend (eventHeader_ne_nil d)
  obtain ⟨s₂, hbody, h₂⟩ := h₁.exec_chunkAppend (List.length_pos_iff.mp hd.1)
  refine ⟨s₂, ?_, ?_⟩
  · simp only [appendEvent, CallProgram.run_bind, hhead, hbody, Option.bind_some, ne_eq,
      not_true_eq_false, ↓reduceIte, CallProgram.pure_eq_ret, CallProgram.run_ret]
  · rwa [Backlog.append, Backlog.append, List.append_assoc] at h₂

/-- A batch goes as it is described. -/
theorem Holds.exec_publishBatchLoop {items : List (Option Bytes)}
    (h : s.Holds path b ((topicFormat.stream (items.filterMap id)).length + n)) :
    ∃ s', (publishBatchLoop items).exec s = some ((b.publishBatch items).1, s') ∧
      s'.Holds path (b.publishBatch items).2 n := by
  induction items generalizing s b with
  | nil =>
    obtain ⟨s', hsave, h'⟩ := h.exec_chunkSaveDelta
    refine ⟨s', ?_, h'.mono (Nat.le_add_left _ _)⟩
    simp only [publishBatchLoop, CallProgram.run_bind, hsave, Option.bind_some, ne_eq,
      not_true_eq_false, ↓reduceIte, CallProgram.pure_eq_ret, CallProgram.run_ret,
      Backlog.publishBatch]
  | cons item items ih =>
    cases item with
    | none => exact ⟨s, rfl, h.mono (Nat.le_add_left _ _)⟩
    | some d =>
      by_cases hd : topicFormat.Valid d
      swap
      · refine ⟨s, ?_, ?_⟩
        · rw [publishBatchLoop, if_pos (not_not.mp fun hgood => hd (valid_iff.mpr hgood)),
            Backlog.publishBatch, if_neg hd]
          rfl
        · rw [Backlog.publishBatch, if_neg hd]
          exact h.mono (Nat.le_add_left _ _)
      have hsplit : (topicFormat.stream ((some d :: items).filterMap id)).length + n =
          (topicFormat.frame d).length +
            ((topicFormat.stream (items.filterMap id)).length + n) := by
        simp only [List.filterMap_cons, id, FrameFormat.stream_cons, List.length_append,
          Nat.add_assoc]
      rw [hsplit] at h
      obtain ⟨s₁, happend, h₁⟩ := h.exec_appendEvent hd
      obtain ⟨s₂, hrest, h₂⟩ := ih h₁
      rw [Backlog.publishBatch, if_pos hd]
      refine ⟨s₂, ?_, h₂⟩
      rw [publishBatchLoop, if_neg (valid_iff.mp hd)]
      simp only [CallProgram.run_bind, happend, Option.bind_some, ne_eq, not_true_eq_false,
        ↓reduceIte, hrest]

/-- `publish_event` goes as it is described. -/
theorem Holds.exec_publishEvent {data : Option Bytes}
    (h : s.Holds path b ((topicFormat.stream data.toList).length + n)) :
    ∃ s', (publishEvent data).exec s = some ((b.publishEvent data).1, s') ∧
      s'.Holds path (b.publishEvent data).2 n := by
  cases data with
  | none => exact ⟨s, rfl, h.mono (Nat.le_add_left _ _)⟩
  | some d =>
    have hless := h.mono (Nat.le_add_left n _)
    rw [SuparnaD.publishEvent, Backlog.publishEvent]
    split_ifs with hzero hlong
    · exact ⟨s, rfl, hless⟩
    · exact ⟨s, rfl, hless⟩
    have hd := valid_iff.mpr (not_or.mpr ⟨hzero, hlong⟩)
    rw [Option.toList_some, FrameFormat.stream_cons, FrameFormat.stream_nil,
      List.append_nil] at h
    obtain ⟨s₁, happend, h₁⟩ := h.exec_appendEvent hd
    obtain ⟨s₂, hsave, h₂⟩ := h₁.exec_chunkSaveDelta
    refine ⟨s₂, ?_, h₂⟩
    simp only [CallProgram.run_bind, exec_hasChunk, h.steady.chunk, happend, hsave,
      Option.bind_some, Bool.not_true, Bool.false_eq_true, ne_eq, not_true_eq_false, ↓reduceIte,
      CallProgram.pure_eq_ret, CallProgram.run_ret]

/-- `publish_event_batch` goes as it is described. -/
theorem Holds.exec_publishEventBatch {items : List (Option Bytes)}
    (h : s.Holds path b ((topicFormat.stream (items.filterMap id)).length + n))
    (hne : items.length ≠ 0) :
    ∃ s', (publishEventBatch items).exec s = some ((b.publishBatch items).1, s') ∧
      s'.Holds path (b.publishBatch items).2 n := by
  obtain ⟨s', hloop, h'⟩ := h.exec_publishBatchLoop
  refine ⟨s', ?_, h'⟩
  rw [publishEventBatch, if_neg hne]
  simp only [CallProgram.run_bind, exec_hasChunk, h.steady.chunk, Option.bind_some,
    Bool.not_true, Bool.false_eq_true, ↓reduceIte, hloop]

/-- `flush_topic` saves. -/
theorem Holds.exec_flushTopic (h : s.Holds path b n) :
    ∃ s', flushTopic.exec s = some (0, s') ∧ s'.Holds path b.save n := by
  obtain ⟨s', hsave, h'⟩ := h.exec_chunkSaveDelta
  refine ⟨s', ?_, h'⟩
  simp only [flushTopic, CallProgram.run_bind, exec_hasChunk, h.steady.chunk, Option.bind_some,
    Bool.not_true, Bool.false_eq_true, ↓reduceIte, hsave]

/-- An operation of a group computes from the file, and drops what waits to be saved when it gets to
its load. -/
theorem Holds.exec_groupOp (h : s.Holds path b n) (g : Group) (op : GroupOp) :
    ∃ s', (op.run g).exec s = some (op.result g b.content, s') ∧
      s'.Holds path (if op.loads g then b.load else b) n := by
  obtain ⟨s', hrun, hsteady, hfs, hshow⟩ := GroupOp.exec_run_of_steady h.steady g op
  have hroom := h.room
  rw [h.file_eq] at hrun hshow
  refine ⟨s', hrun, ?_⟩
  split_ifs at hshow ⊢
  · refine ⟨hsteady.faults, by rw [hfs, h.file, Backlog.load],
      ⟨_, hshow, DeltaLog.pending_load _, ?_⟩, ?_⟩
    · rw [DeltaLog.shown_load]
      omega
    · show b.content.length + 0 + n < 2 ^ 62
      omega
  · rw [hshow]
    exact h

end Machine

/-! ### A topic and its groups -/

/-- A topic that several groups share. -/
structure TopicGroups (ι : Type*) where
  /-- The topic. -/
  machine : Machine
  /-- The groups. -/
  groups : ι → Group

namespace TopicGroups

variable {ι : Type*} [DecidableEq ι]

/-- One operation on the topic. -/
def step (s : TopicGroups ι) : TopicGroupsOp ι → Option (GroupResult × TopicGroups ι)
  | .publishEvent data =>
    ((SuparnaD.publishEvent data).exec s.machine).map fun r => (.code r.1, ⟨r.2, s.groups⟩)
  | .publishEventBatch dataArray =>
    ((SuparnaD.publishEventBatch dataArray).exec s.machine).map fun r =>
      (.code r.1, ⟨r.2, s.groups⟩)
  | .flushTopic => (SuparnaD.flushTopic.exec s.machine).map fun r => (.code r.1, ⟨r.2, s.groups⟩)
  | .group i op =>
    ((op.run (s.groups i)).exec s.machine).map fun r =>
      (r.1.1, ⟨r.2, Function.update s.groups i r.1.2⟩)

/-- The topic has the given backlog and room for `n` more bytes, and its groups are the given
ones. -/
structure Holds (s : TopicGroups ι) (path : Bytes) (a : GroupStore ι) (n : ℕ) : Prop where
  machine : s.machine.Holds path a.backlog n
  groups : s.groups = a.groups

variable {s : TopicGroups ι} {path : Bytes} {a : GroupStore ι} {n : ℕ}

omit [DecidableEq ι] in
theorem Holds.mono {m : ℕ} (h : s.Holds path a m) (hnm : n ≤ m) : s.Holds path a n :=
  ⟨h.machine.mono hnm, h.groups⟩

/-- The topic with its groups refines the description. -/
theorem Holds.step {op : TopicGroupsOp ι} (h : s.Holds path a (op.bytes + n)) :
    ∃ s', s.step op = some ((a.step op).1, s') ∧ s'.Holds path (a.step op).2 n := by
  cases op with
  | publishEvent data =>
    obtain ⟨t, hrun, ht⟩ := h.machine.exec_publishEvent
    exact ⟨⟨t, s.groups⟩, by rw [TopicGroups.step, hrun]; rfl, ht, h.groups⟩
  | publishEventBatch dataArray =>
    by_cases hzero : dataArray.length = 0
    · refine ⟨s, ?_, ?_⟩
      · simp only [TopicGroups.step, SuparnaD.publishEventBatch, hzero, ↓reduceIte,
          GroupStore.step]
        rfl
      · simp only [GroupStore.step, hzero, ↓reduceIte]
        exact ⟨h.machine.mono (Nat.le_add_left _ _), h.groups⟩
    · obtain ⟨t, hrun, ht⟩ := h.machine.exec_publishEventBatch hzero
      simp only [GroupStore.step, hzero, ↓reduceIte]
      exact ⟨⟨t, s.groups⟩, by rw [TopicGroups.step, hrun]; rfl, ht, h.groups⟩
  | flushTopic =>
    obtain ⟨t, hrun, ht⟩ := (h.machine.mono (Nat.le_add_left n _)).exec_flushTopic
    exact ⟨⟨t, s.groups⟩, by rw [TopicGroups.step, hrun]; rfl, ht, h.groups⟩
  | group i op =>
    obtain ⟨t, hrun, ht⟩ :=
      (h.machine.mono (Nat.le_add_left n _)).exec_groupOp (s.groups i) op
    rw [h.groups] at hrun ht
    refine ⟨⟨t, _⟩, ?_, ht, rfl⟩
    rw [TopicGroups.step, h.groups, hrun]
    rfl

/-! ### Removing the operations of a group -/

/-- The two have the same file, and differ in the group `j` only. -/
structure Agree (path : Bytes) (j : ι) (s t : TopicGroups ι) : Prop where
  file : s.machine.fs.read path = t.machine.fs.read path
  groups : ∀ i, i ≠ j → s.groups i = t.groups i

/-- Without the operations of the group `j` the run has the same steps, with the same results, the
same file and the same other groups after each of them and at the end. -/
def Isolated (path : Bytes) (j : ι) (s : TopicGroups ι) (ops : List (TopicGroupsOp ι)) : Prop :=
  List.Forall₂ (fun e e' => e.op = e'.op ∧ e.result = e'.result ∧ Agree path j e.after e'.after)
    ((trace step s ops).filter fun e => e.op.NotOf j)
    (trace step s (ops.filter fun op => op.NotOf j)) ∧
  Agree path j (runEnd step s ops) (runEnd step s (ops.filter fun op => op.NotOf j))

/-- The operation is none of the group `j`, gives up before its load, or comes when nothing waits to
be saved. -/
def Undisturbing (j : ι) (s : TopicGroups ι) : TopicGroupsOp ι → Prop
  | .group i op => i = j → op.loads (s.groups i) = true →
      ∀ c ∈ s.machine.chunk, c.size ≤ c.persistedSize
  | _ => True

instance (j : ι) (s : TopicGroups ι) : (op : TopicGroupsOp ι) → Decidable (Undisturbing j s op)
  | .group _ _ => inferInstanceAs (Decidable (_ → _ → _))
  | .publishEvent _ | .publishEventBatch _ | .flushTopic => isTrue trivial

/-- Storage and allocation succeed on the topic of the path, and `n` more bytes do not change
that. -/
structure Roomy (path : Bytes) (n : ℕ) (s : Machine) : Prop where
  onTopic : s.OnTopic path
  chunk : s.chunk.isSome = true
  faults : s.faults = []
  room : ∀ c ∈ s.chunk, (s.file path).length + c.size.toNat + n < 2 ^ 62

theorem Roomy.holds {s : Machine} (h : Roomy path n s) : ∃ b, s.Holds path b n := by
  obtain ⟨c, hs⟩ := Option.isSome_iff_exists.mp h.chunk
  have hlog := h.onTopic.logs hs
  have hroom := h.room c hs
  have hsize := (h.onTopic c hs).2.represents.size_eq
  have hpending := (c.log (h.onTopic c hs).2).length_pending
  refine ⟨⟨s.fs.read path, _⟩, h.faults, rfl, ⟨_, hlog, rfl, by omega⟩, ?_⟩
  show (s.file path).length + (c.log (h.onTopic c hs).2).pending.length + n < 2 ^ 62
  omega

omit [DecidableEq ι] in
theorem Holds.pending_eq_nil (h : s.Holds path a n)
    (hsaved : ∀ c ∈ s.machine.chunk, c.size ≤ c.persistedSize) :
    a.backlog.pending = [] := by
  obtain ⟨l, ⟨c, hs, -, hc⟩, hpending, -⟩ := h.machine.logs
  rw [← hpending, ← hc.size_le_persistedSize_iff]
  exact hsaved c hs

/-- Both topics refine descriptions that differ in the group `j` only, and have room for the
operations to come. -/
def Beside (path : Bytes) (j : ι) (ops : List (TopicGroupsOp ι)) (s t : TopicGroups ι) : Prop :=
  ∃ a b : GroupStore ι, a.Agree j b ∧ s.Holds path a (ops.map TopicGroupsOp.bytes).sum ∧
    t.Holds path b (ops.map TopicGroupsOp.bytes).sum

variable {j : ι} {t : TopicGroups ι} {op : TopicGroupsOp ι} {ops : List (TopicGroupsOp ι)}

omit [DecidableEq ι] in
theorem Beside.agree (h : Beside path j ops s t) : Agree path j s t := by
  obtain ⟨a, b, hagree, hs, ht⟩ := h
  refine ⟨?_, fun i hi => ?_⟩
  · rw [hs.machine.file, ht.machine.file, hagree.backlog]
  · rw [hs.groups, ht.groups, hagree.groups i hi]

/-- An operation comes to an end. Both topics perform it alike, and an operation of the group `j`
that disturbs nothing can be left out on one side. -/
theorem Beside.step (h : Beside path j (op :: ops) s t) :
    ∃ r s', s.step op = some (r, s') ∧ (Undisturbing j s op →
      if op.NotOf j then ∃ t', t.step op = some (r, t') ∧ Beside path j ops s' t'
      else Beside path j ops s' t) := by
  obtain ⟨a, b, hagree, hs, ht⟩ := h
  rw [List.map_cons, List.sum_cons] at hs ht
  obtain ⟨s', hstep, hs'⟩ := hs.step
  refine ⟨_, s', hstep, fun hquiet => ?_⟩
  split_ifs with hop
  · obtain ⟨t', hstep', ht'⟩ := ht.step
    obtain ⟨hresult, hagree'⟩ := hagree.step hop
    exact ⟨t', by rw [hstep', hresult], _, _, hagree', hs', ht'⟩
  · cases op with
    | group i op =>
      obtain rfl := not_not.mp (of_decide_eq_false (Bool.not_eq_true _ ▸ hop))
      refine ⟨_, b, hagree.step_dropped fun hloads => ?_, hs', ht.mono (Nat.le_add_left _ _)⟩
      exact hs.pending_eq_nil (hquiet rfl (hs.groups ▸ hloads))
    | _ => exact absurd rfl hop

/-- If no operation of the group `j` loads the chunk while bytes wait to be saved, these operations
have no effect on the rest of the run. -/
theorem isolated_of_undisturbing
    (h : Roomy path (ops.map TopicGroupsOp.bytes).sum s.machine)
    (hquiet : ∀ e ∈ trace TopicGroups.step s ops, Undisturbing j e.before e.op) :
    Isolated path j s ops := by
  obtain ⟨b, hb⟩ := h.holds
  have hstart : Beside path j ops s s :=
    ⟨⟨b, s.groups⟩, ⟨b, s.groups⟩, ⟨rfl, fun _ _ => rfl⟩, ⟨hb, rfl⟩, ⟨hb, rfl⟩⟩
  obtain ⟨hsteps, hend⟩ := trace_filter_rule (Undisturbing j) (Beside path j)
    (fun op => op.NotOf j) (fun s t op ops hst => hst.step) hstart hquiet
  refine ⟨hsteps.imp ?_, hend.agree⟩
  rintro e e' ⟨hop, hresult, rest, hrel⟩
  exact ⟨hop, hresult, hrel.agree⟩

/-- An empty topic. -/
def sampleShared : TopicGroups Bool :=
  ⟨.ofFile (ascii "t") [], fun i => ⟨ascii (if i then "g1" else "g2"), 0, 0, 0⟩⟩

/-- A batch fails after its first item, one group looks for data, and the topic is flushed. -/
def sampleRun : List (TopicGroupsOp Bool) :=
  [.publishEventBatch [some (ascii "a"), none], .group false .groupHasMoreData, .flushTopic]

/-- Without the look for data the flush writes what the batch has left. -/
theorem not_isolated_sampleRun : ¬ Isolated (ascii "t") false sampleShared sampleRun := by
  intro h
  exact absurd h.2.file (by decide +kernel)

/-- An event is published before one group consumes it. -/
def samplePublished : List (TopicGroupsOp Bool) :=
  [.publishEvent (some (ascii "a")), .group false (.consumePacket 0), .flushTopic,
    .group true (.consumePacket 0)]

theorem isolated_of_undisturbing_sample :
    Isolated (ascii "t") false sampleShared samplePublished := by
  refine isolated_of_undisturbing ⟨Machine.onTopic_ofFile _ _, rfl, rfl, ?_⟩ ?_
  · decide
  · decide +kernel

end TopicGroups

end SuparnaD
