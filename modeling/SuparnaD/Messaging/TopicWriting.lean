import SuparnaD.Messaging.PublishEvent
import SuparnaD.Messaging.TopicReading

/-!
# Writing a topic file

What the functions of `messaging/publish_event.c` do to the chunk and to the file of a topic. All of
them append to the chunk in memory first, the length header before the payload, and save at the end.
A call that fails in between leaves in memory what it has appended, and the next save on the topic
writes it out.

## Main definitions

* `Machine.Wrote` : what a program has written to the file.
* `Machine.grown` : what another handle has written to the file.
* `PublishCall`, with `PublishCall.run` and `PublishCall.events`.
* `PublishCall.RejectedAtStart` : the call fails before it has appended anything.

## Main results

* `Machine.Logs.exec_publishBatchLoop` : a batch that succeeds writes the frames of its events.
* `Machine.Logs.exec_publishBatchLoop_failed` : a batch that fails appends nothing only when its
  first event is rejected.
* `PublishCall.exec_run_cases` : every call works as a batch or is rejected at its start.
-/

namespace SuparnaD

open Broker

namespace Machine

/-- The content of the file at a path; a file that does not exist counts as empty. -/
def file (s : Machine) (path : Bytes) : Bytes := (s.fs.read path).getD []

/-- The machine with another script of storage and allocation. -/
def withFaults (s : Machine) (faults : List IoOutcome) : Machine := { s with faults := faults }

/-- From the first state to the second the bytes have been added to the file at the path. -/
structure Wrote (s s' : Machine) (path written : Bytes) : Prop where
  file : s'.file path = s.file path ++ written
  isSome : (s.fs.read path).isSome → (s'.fs.read path).isSome
  faults : s.faults = [] → s'.faults = []

theorem Kept.wrote {s s' : Machine} (h : s.Kept s') (path : Bytes) : s.Wrote s' path [] :=
  ⟨by rw [Machine.file, h.fs, Machine.file, List.append_nil], by rw [h.fs]; exact id, h.faults⟩

theorem Wrote.trans {s t u : Machine} {path a b : Bytes} (h : s.Wrote t path a)
    (h' : t.Wrote u path b) : s.Wrote u path (a ++ b) :=
  ⟨by rw [h'.file, h.file, List.append_assoc], fun hs => h'.isSome (h.isSome hs),
    fun hs => h'.faults (h.faults hs)⟩

theorem Kept.trans_wrote {s t u : Machine} {path b : Bytes} (h : s.Kept t)
    (h' : t.Wrote u path b) : s.Wrote u path b := (h.wrote path).trans h'

/-- Another handle has appended bytes to the file. -/
def grown (s : Machine) (path bytes : Bytes) : Machine :=
  { s with fs := s.fs.write path (some (s.file path ++ bytes)) }

@[simp] theorem file_grown (s : Machine) (path bytes : Bytes) :
    (s.grown path bytes).file path = s.file path ++ bytes := by
  simp only [file, grown, FileSystem.read_write, Option.getD_some]

theorem OnTopic.grown {s : Machine} {path : Bytes} (h : s.OnTopic path) (bytes : Bytes) :
    (s.grown path bytes).OnTopic path := h

/-- The next append of `n` bytes is refused by `realloc`. -/
def Refuses (s : Machine) (n : ℕ) : Prop :=
  ∃ c, s.chunk = some c ∧ Writer.AppendRefused s.outcome c n

/-- The next event is rejected before anything is appended for it: it is no event, there is no
chunk, or `realloc` refuses to make room for its length header. -/
def Rejects (s : Machine) : Option Bytes → Prop
  | none => True
  | some d => ¬ topicFormat.Valid d ∨ s.chunk = none ∨ s.Refuses 4

variable {s s' : Machine} {path : Bytes} {l : DeltaLog UInt8} {r : ℤ}

/-! ### Appending and saving -/

theorem Logs.exec_chunkAppend (h : s.Logs path l) {data : Bytes} (hdata : data.length < 2 ^ 63)
    (hne : data ≠ []) (hrun : (chunkAppend data).exec s = some (r, s')) :
    s.Kept s' ∧ (r = 0 ∧ s'.Logs path (l.append data) ∨
      r = -1 ∧ s' = s.next ∧ s.Refuses data.length) := by
  obtain ⟨c, hs, hp, hc⟩ := h
  rw [Broker.exec_chunkAppend hs, Option.map_eq_some_iff] at hrun
  obtain ⟨rc, hrc, heq⟩ := hrun
  obtain ⟨rfl, rfl⟩ := Prod.mk.inj heq
  refine ⟨⟨rfl, rfl, (kept_next s).faults, by rw [hs]; rfl⟩, ?_⟩
  obtain ⟨hpath, ⟨hzero, -, hrep⟩ | ⟨hneg, hsame⟩⟩ := Writer.chunkAppend_cases hc _ hdata hrc
  · exact .inl ⟨hzero, _, rfl, hpath.trans hp, hrep⟩
  · refine .inr ⟨hneg, ?_, c, hs, Writer.appendRefused_of_ne_zero hne hrc (by rw [hneg]; decide)⟩
    rw [hsame, ← hs]
    rfl

theorem Logs.exec_chunkSaveDelta (h : s.Logs path l) :
    ∃ r s' count, chunkSaveDelta.exec s = some (r, s') ∧ s'.client = s.client ∧
      s.Wrote s' path (l.pending.take count) ∧
      (∀ p, resolve p ≠ resolve path → s'.fs.read p = s.fs.read p) ∧
      (r = 0 ∧ l.pending.length ≤ count ∧ (l.pending ≠ [] → (s'.fs.read path).isSome) ∧
          s'.Logs path l.commit ∨
        r = -1 ∧ s.faults ≠ [] ∧ s'.Logs path l) := by
  obtain ⟨c, hs, rfl, hc⟩ := h
  obtain ⟨hpath, hfile, hcases⟩ :=
    Writer.chunkSaveDelta_cases hc s.outcome (s.fs.read c.filePath)
  refine ⟨_, _, Writer.saveCount s.outcome l.pending.length, Broker.exec_chunkSaveDelta hs, rfl,
    ⟨?_, ?_, (kept_next s).faults⟩, fun p hp => ?_, ?_⟩
  · simp only [file, FileSystem.read_write, hfile, Writer.getD_savedFile]
  · simp only [FileSystem.read_write, hfile]
    intro hsome
    obtain ⟨content, hcontent⟩ := Option.isSome_iff_exists.mp hsome
    rw [hcontent, Writer.savedFile_some, Option.isSome_some]
  · exact FileSystem.read_write_of_ne _ hp _
  · rcases hcases with ⟨hzero, hdone, hrep⟩ | ⟨hneg, hshort, hsame⟩
    · refine .inl ⟨hzero, hdone, fun hne => ?_, _, rfl, hpath, hrep⟩
      have hpos := List.length_pos_iff.mpr hne
      have hopen : s.outcome.opens = true := by
        by_contra hopen
        rw [Writer.saveCount, if_neg hopen] at hdone
        omega
      simp [FileSystem.read_write, hfile, Writer.savedFile, hne, hopen]
    · refine .inr ⟨hneg, fun hf => ?_, _, rfl, hpath, by rw [hsame]; exact hc⟩
      rw [outcome_of_faults hf, Writer.saveCount_ok] at hshort
      exact Nat.lt_irrefl _ hshort

end Machine

theorem eventHeader_ne_nil (d : Bytes) : eventHeader d ≠ [] := List.cons_ne_nil _ _

@[simp] theorem length_eventHeader (d : Bytes) : (eventHeader d).length = 4 := rfl

theorem append_eventHeader (l : DeltaLog UInt8) (d : Bytes) :
    (l.append (eventHeader d)).append d = l.append (topicFormat.frame d) :=
  l.append_append (eventHeader d) d

theorem valid_iff {d : Bytes} :
    topicFormat.Valid d ↔ ¬ (d.length = 0 ∨ maxEventSize < d.length) := by
  rw [not_or, Nat.not_lt, ← ne_eq, ← Nat.pos_iff_ne_zero]
  exact Iff.rfl

theorem length_lt_of_valid {d : Bytes} (hd : topicFormat.Valid d) : d.length < 2 ^ 63 :=
  Nat.lt_trans (lt_of_le_maxPacketSize hd.2) (by omega)

namespace Machine

variable {s s' : Machine} {path : Bytes} {l : DeltaLog UInt8} {r : ℤ}

/-- An event is appended whole, with its header only, or not at all. -/
theorem Logs.exec_appendEvent (h : s.Logs path l) {d : Bytes} (hd : topicFormat.Valid d)
    (hrun : (appendEvent d).exec s = some (r, s')) :
    s.Kept s' ∧ (r = 0 ∧ s'.Logs path (l.append (topicFormat.frame d)) ∨
      r = -1 ∧ s'.Logs path (l.append (eventHeader d)) ∨
      r = -1 ∧ s' = s.next ∧ s.Refuses 4) := by
  obtain ⟨r₁, s₁, hhead, hrun⟩ := CallProgram.run_bind_eq_some_iff.mp hrun
  obtain ⟨hkept₁, ⟨rfl, hlog₁⟩ | ⟨rfl, rfl, hrefuse⟩⟩ :=
    h.exec_chunkAppend (by rw [length_eventHeader]; decide) (eventHeader_ne_nil d) hhead
  · obtain ⟨r₂, s₂, hbody, hrun⟩ := CallProgram.run_bind_eq_some_iff.mp hrun
    obtain ⟨hkept₂, ⟨rfl, hlog₂⟩ | ⟨rfl, rfl, -⟩⟩ := hlog₁.exec_chunkAppend
      (length_lt_of_valid hd) (List.length_pos_iff.mp hd.1) hbody
    · obtain ⟨rfl, rfl⟩ := CallProgram.run_pure_eq_some_iff.mp hrun
      exact ⟨hkept₁.trans hkept₂, .inl ⟨rfl, append_eventHeader l d ▸ hlog₂⟩⟩
    · obtain ⟨rfl, rfl⟩ := CallProgram.run_pure_eq_some_iff.mp hrun
      exact ⟨hkept₁.trans hkept₂, .inr (.inl ⟨rfl, hlog₁⟩)⟩
  · obtain ⟨rfl, rfl⟩ := CallProgram.run_pure_eq_some_iff.mp hrun
    exact ⟨hkept₁, .inr (.inr ⟨rfl, rfl, hrefuse⟩)⟩

/-- The first round of a batch: the event is rejected, only its header is appended, or the batch
goes on with the rest. -/
theorem Logs.exec_publishBatchLoop_cons {item : Option Bytes} {items : List (Option Bytes)}
    (h : s.Logs path l) (hrun : (publishBatchLoop (item :: items)).exec s = some (r, s')) :
    (r = -1 ∧ s.Rejects item ∧ s.Kept s' ∧ ∃ faults, s' = s.withFaults faults) ∨
      ∃ d, item = some d ∧ topicFormat.Valid d ∧
        (r = -1 ∧ s.Kept s' ∧ s'.Logs path (l.append (eventHeader d)) ∨
          ∃ t, s.Kept t ∧ t.Logs path (l.append (topicFormat.frame d)) ∧
            (publishBatchLoop items).exec t = some (r, s')) := by
  cases item with
  | none =>
    obtain ⟨rfl, rfl⟩ := CallProgram.run_pure_eq_some_iff.mp hrun
    exact .inl ⟨rfl, trivial, .refl s, s.faults, rfl⟩
  | some d =>
    rw [publishBatchLoop] at hrun
    split at hrun
    · rename_i hbad
      obtain ⟨rfl, rfl⟩ := CallProgram.run_pure_eq_some_iff.mp hrun
      exact .inl ⟨rfl, .inl (fun hd => valid_iff.mp hd hbad), .refl s, s.faults, rfl⟩
    rename_i hgood
    have hd := valid_iff.mpr hgood
    obtain ⟨r₁, t, happend, hrun⟩ := CallProgram.run_bind_eq_some_iff.mp hrun
    obtain ⟨hkept, ⟨rfl, hlog⟩ | ⟨rfl, hlog⟩ | ⟨rfl, rfl, hrefuse⟩⟩ := h.exec_appendEvent hd happend
    · exact .inr ⟨d, rfl, hd, .inr ⟨t, hkept, hlog, hrun⟩⟩
    · obtain ⟨rfl, rfl⟩ := CallProgram.run_pure_eq_some_iff.mp hrun
      exact .inr ⟨d, rfl, hd, .inl ⟨rfl, hkept, hlog⟩⟩
    · obtain ⟨rfl, rfl⟩ := CallProgram.run_pure_eq_some_iff.mp hrun
      exact .inl ⟨rfl, .inr (.inr hrefuse), hkept, s.faults.tail, rfl⟩

/-- A batch that succeeds has written the frames of its events after what was pending. A batch that
fails leaves what it has appended in memory. -/
theorem Logs.exec_publishBatchLoop {items : List (Option Bytes)} (h : s.Logs path l)
    (hrun : (publishBatchLoop items).exec s = some (r, s')) :
    (r = 0 ∧ ∃ ds, items = ds.map some ∧ (∀ d ∈ ds, topicFormat.Valid d) ∧
        s.Wrote s' path (l.pending ++ topicFormat.stream ds) ∧
        s'.Logs path (l.append (topicFormat.stream ds)).commit) ∨
      (r = -1 ∧ ∃ appended written, s.Wrote s' path written ∧
        s'.Logs path (l.append appended)) := by
  induction items generalizing s l with
  | nil =>
    obtain ⟨r₁, s₁, count, hsave, -, hwrote, -, hcases⟩ := h.exec_chunkSaveDelta
    obtain ⟨r₂, s₂, hsave', hrun⟩ := CallProgram.run_bind_eq_some_iff.mp hrun
    obtain ⟨rfl, rfl⟩ := Prod.mk.inj (Option.some.inj (hsave.symm.trans hsave'))
    rcases hcases with ⟨rfl, hdone, -, hlog⟩ | ⟨rfl, -, hlog⟩
    · obtain ⟨rfl, rfl⟩ := CallProgram.run_pure_eq_some_iff.mp hrun
      refine .inl ⟨rfl, [], rfl, by simp, ?_, ?_⟩
      · rwa [List.take_of_length_le hdone, ← List.append_nil l.pending] at hwrote
      · rwa [FrameFormat.stream_nil, DeltaLog.append_nil]
    · obtain ⟨rfl, rfl⟩ := CallProgram.run_pure_eq_some_iff.mp hrun
      exact .inr ⟨rfl, [], _, hwrote, l.append_nil.symm ▸ hlog⟩
  | cons item items ih =>
    rcases h.exec_publishBatchLoop_cons hrun with
      ⟨rfl, -, hkept, faults, rfl⟩ | ⟨d, rfl, hd, ⟨rfl, hkept, hlog⟩ | ⟨t, hkept, hlog, hrest⟩⟩
    · exact .inr ⟨rfl, [], [], hkept.wrote path, l.append_nil.symm ▸ h⟩
    · exact .inr ⟨rfl, _, _, hkept.wrote path, hlog⟩
    · rcases ih hlog hrest with
        ⟨rfl, ds, rfl, hds, hwrote, hlog'⟩ | ⟨rfl, appended, written, hwrote, hlog'⟩
      · refine .inl ⟨rfl, d :: ds, rfl, ?_, ?_, ?_⟩
        · rw [List.forall_mem_cons]
          exact ⟨hd, hds⟩
        · have := hkept.trans_wrote hwrote
          rwa [DeltaLog.pending_append, List.append_assoc, ← FrameFormat.stream_cons] at this
        · rwa [DeltaLog.append_append, ← FrameFormat.stream_cons] at hlog'
      · rw [DeltaLog.append_append] at hlog'
        exact .inr ⟨rfl, _, written, hkept.trans_wrote hwrote, hlog'⟩

/-- A batch that fails appends nothing only when its first event is rejected. -/
theorem Logs.exec_publishBatchLoop_failed {item : Option Bytes} {items : List (Option Bytes)}
    (h : s.Logs path l) (hrun : (publishBatchLoop (item :: items)).exec s = some (r, s'))
    (hr : r ≠ 0) :
    s.Rejects item ∧ (∃ faults, s' = s.withFaults faults) ∨
      ∃ appended written, appended ≠ [] ∧ s.Wrote s' path written ∧
        s'.Logs path (l.append appended) := by
  rcases h.exec_publishBatchLoop_cons hrun with
    ⟨-, hreject, -, hsame⟩ | ⟨d, -, -, ⟨-, hkept, hlog⟩ | ⟨t, hkept, hlog, hrest⟩⟩
  · exact .inl ⟨hreject, hsame⟩
  · exact .inr ⟨_, [], eventHeader_ne_nil d, hkept.wrote path, hlog⟩
  · rcases hlog.exec_publishBatchLoop hrest with ⟨hzero, -⟩ | ⟨-, appended, written, hwrote, hlog'⟩
    · exact absurd hzero hr
    · rw [DeltaLog.append_append] at hlog'
      refine .inr ⟨_, written, ?_, hkept.trans_wrote hwrote, hlog'⟩
      rw [topicFormat_frame]
      exact List.append_ne_nil_of_left_ne_nil (List.append_ne_nil_of_left_ne_nil
        (List.cons_ne_nil _ _) _) _

/-- A rejected event ends the batch at once. -/
theorem exec_publishBatchLoop_of_rejects (hchunk : s.chunk.isSome) {item : Option Bytes}
    (hreject : s.Rejects item) (items : List (Option Bytes)) :
    ∃ faults, (publishBatchLoop (item :: items)).exec s = some (-1, s.withFaults faults) := by
  cases item with
  | none => exact ⟨s.faults, rfl⟩
  | some d =>
    by_cases hd : topicFormat.Valid d
    swap
    · refine ⟨s.faults, ?_⟩
      rw [publishBatchLoop, if_pos (not_not.mp fun h => hd (valid_iff.mpr h))]
      rfl
    obtain ⟨c, hs⟩ := Option.isSome_iff_exists.mp hchunk
    obtain ⟨c', hs', hrefuse⟩ := (hreject.resolve_left (not_not.mpr hd)).resolve_left
      (by rw [hs]; exact Option.some_ne_none c)
    cases hs.symm.trans hs'
    refine ⟨s.faults.tail, ?_⟩
    have hfail : Writer.chunkAppend s.outcome c (eventHeader d) = some (-1, c) :=
      Writer.chunkAppend_of_refused hrefuse
    have happend :
        (chunkAppend (eventHeader d)).exec s = some (-1, s.withFaults s.faults.tail) := by
      rw [Broker.exec_chunkAppend hs, hfail, Option.map_some, ← hs]
      rfl
    rw [publishBatchLoop, if_neg (valid_iff.mp hd), appendEvent]
    simp only [CallProgram.run_bind, happend, Option.bind_some]
    rfl

end Machine

/-! ### The publishing functions -/

/-- What compression with enough memory gives. -/
def Zstd.encode (zstd : Zstd) (data : Bytes) (compressionLevel : ℤ) : Option Bytes :=
  zstd.compress (zstd.compressBound data.length) data (zstd.levelFor compressionLevel)

/-- A call of a publishing function. -/
inductive PublishCall where
  | event (data : Option Bytes)
  | string (data : Option Bytes)
  | compressed (zstd : Zstd) (data : Option Bytes) (compressionLevel : ℤ)
  | batch (dataArray : List (Option Bytes))

namespace PublishCall

/-- The function of the source. -/
def run : PublishCall → Broker ℤ
  | .event data => publishEvent data
  | .string data => publishEventString data
  | .compressed zstd data compressionLevel => publishEventCompressed zstd data compressionLevel
  | .batch dataArray => publishEventBatch dataArray

/-- The payloads that the call hands to `publish_event`, or the items of the batch. -/
def payloads : PublishCall → List (Option Bytes)
  | .event data => [data]
  | .string data => [data.map cString]
  | .compressed zstd data compressionLevel =>
    [data.bind fun d => zstd.encode d compressionLevel]
  | .batch dataArray => dataArray

/-- The events that a call stores when it succeeds. -/
def events (p : PublishCall) : List Bytes := p.payloads.filterMap id

/-- The call fails before it has appended anything. -/
def RejectedAtStart (s : Machine) : PublishCall → Prop
  | .event data => s.Rejects data
  | .string data => s.Rejects (data.map cString)
  | .compressed zstd data compressionLevel => ∀ d, data = some d → topicFormat.Valid d →
      s.outcome.alloc = true → s.next.Rejects (zstd.encode d compressionLevel)
  | .batch dataArray => s.chunk = none ∨ s.Rejects dataArray.head?.join

end PublishCall

variable {s s' : Machine} {r : ℤ}

/-- The check for a chunk at the start of a publishing function. -/
theorem exec_ifChunk {p : Broker ℤ} (hrun : (do
      if !(← hasChunk) then
        return -1
      p : Broker ℤ).exec s = some (r, s')) :
    (r ≠ 0 ∧ s.chunk = none ∧ s' = s) ∨ s.chunk.isSome ∧ p.exec s = some (r, s') := by
  cases hs : s.chunk with
  | none =>
    simp only [CallProgram.run_bind, exec_hasChunk, Option.bind_some, hs, Option.isSome_none,
      Bool.not_false, ↓reduceIte] at hrun
    obtain ⟨rfl, rfl⟩ := CallProgram.run_pure_eq_some_iff.mp hrun
    exact .inl ⟨by omega, rfl, rfl⟩
  | some c =>
    simp only [CallProgram.run_bind, exec_hasChunk, Option.bind_some, hs, Option.isSome_some,
      Bool.not_true, Bool.false_eq_true, ↓reduceIte] at hrun
    exact .inr ⟨rfl, hrun⟩

/-- `publish_event` refuses what is no event, and otherwise works as a batch of one event. -/
theorem exec_publishEvent {data : Option Bytes} (hrun : (publishEvent data).exec s = some (r, s')) :
    (r ≠ 0 ∧ s.Rejects data ∧ s' = s) ∨
      s.chunk.isSome ∧ (publishBatchLoop [data]).exec s = some (r, s') := by
  cases data with
  | none =>
    obtain ⟨rfl, rfl⟩ := CallProgram.run_pure_eq_some_iff.mp hrun
    exact .inl ⟨by omega, trivial, rfl⟩
  | some d =>
    by_cases hd : topicFormat.Valid d
    swap
    · have hbad := not_not.mp fun h => hd (valid_iff.mpr h)
      have hne : r ≠ 0 ∧ s' = s := by
        rw [publishEvent] at hrun
        split_ifs at hrun with hzero hlong
        · obtain ⟨rfl, rfl⟩ := CallProgram.run_pure_eq_some_iff.mp hrun
          exact ⟨by omega, rfl⟩
        · obtain ⟨rfl, rfl⟩ := CallProgram.run_pure_eq_some_iff.mp hrun
          exact ⟨by omega, rfl⟩
        · exact absurd hbad (not_or.mpr ⟨hzero, hlong⟩)
      exact .inl ⟨hne.1, .inl hd, hne.2⟩
    have hgood := valid_iff.mp hd
    rw [publishEvent, if_neg (not_or.mp hgood).1, if_neg (not_or.mp hgood).2] at hrun
    rcases exec_ifChunk hrun with ⟨hr, hnone, hs'⟩ | ⟨hchunk, hloop⟩
    · exact .inl ⟨hr, .inr (.inl hnone), hs'⟩
    · refine .inr ⟨hchunk, ?_⟩
      rw [publishBatchLoop, if_neg hgood]
      simpa only [CallProgram.run_bind, publishBatchLoop] using hloop

theorem encodeString_eq (zstd : Zstd) {d : Bytes} (hd : d.length ≠ 0) (compressionLevel : ℤ) :
    encodeString zstd d compressionLevel = do
      if !(← malloc) then
        return (-2, [])
      match zstd.encode d compressionLevel with
      | none => return (-3, [])
      | some compressed => return (0, compressed) := by
  rw [encodeString, if_neg hd]
  rfl

/-- Compression either ends the call or leaves `publish_event` to be called. -/
theorem exec_publishEventCompressed {zstd : Zstd} {data : Option Bytes} {compressionLevel : ℤ}
    (hrun : (publishEventCompressed zstd data compressionLevel).exec s = some (r, s')) :
    (r ≠ 0 ∧ (PublishCall.compressed zstd data compressionLevel).RejectedAtStart s ∧
        ∃ faults, s' = s.withFaults faults) ∨
      ∃ d compressed, data = some d ∧ topicFormat.Valid d ∧ s.outcome.alloc = true ∧
        zstd.encode d compressionLevel = some compressed ∧
        (publishEvent (some compressed)).exec s.next = some (r, s') := by
  cases data with
  | none =>
    obtain ⟨rfl, rfl⟩ := CallProgram.run_pure_eq_some_iff.mp hrun
    exact .inl ⟨by omega, fun _ hd => (nomatch hd), s.faults, rfl⟩
  | some d =>
    rw [publishEventCompressed] at hrun
    split_ifs at hrun with hzero hlong
    · obtain ⟨rfl, rfl⟩ := CallProgram.run_pure_eq_some_iff.mp hrun
      refine .inl ⟨by omega, fun d' hd hvalid => ?_, s.faults, rfl⟩
      cases hd
      exact absurd (.inl hzero) (valid_iff.mp hvalid)
    · obtain ⟨rfl, rfl⟩ := CallProgram.run_pure_eq_some_iff.mp hrun
      refine .inl ⟨by omega, fun d' hd hvalid => ?_, s.faults, rfl⟩
      cases hd
      exact absurd (.inr hlong) (valid_iff.mp hvalid)
    rw [encodeString_eq zstd hzero] at hrun
    cases halloc : s.outcome.alloc with
    | false =>
      simp only [CallProgram.run_bind, exec_malloc, Option.bind_some, halloc, Bool.not_false,
        ↓reduceIte, CallProgram.pure_eq_ret, CallProgram.run_ret, ne_eq, Int.reduceNeg,
        reduceCtorEq, not_false_eq_true, Option.some.injEq, Prod.mk.injEq] at hrun
      obtain ⟨rfl, rfl⟩ := hrun
      exact .inl ⟨by omega, fun _ _ _ h => absurd (halloc.symm.trans h) (by decide),
        s.faults.tail, rfl⟩
    | true =>
      cases hcode : zstd.encode d compressionLevel with
      | none =>
        simp only [CallProgram.run_bind, exec_malloc, Option.bind_some, halloc, Bool.not_true,
          Bool.false_eq_true, ↓reduceIte, hcode, CallProgram.pure_eq_ret, CallProgram.run_ret,
          ne_eq, Int.reduceNeg, reduceCtorEq, not_false_eq_true, Option.some.injEq,
          Prod.mk.injEq] at hrun
        obtain ⟨rfl, rfl⟩ := hrun
        refine .inl ⟨by omega, fun d' hd _ _ => ?_, s.faults.tail, rfl⟩
        cases hd
        rw [hcode]
        trivial
      | some compressed =>
        simp only [CallProgram.run_bind, exec_malloc, Option.bind_some, halloc, Bool.not_true,
          Bool.false_eq_true, ↓reduceIte, hcode, CallProgram.pure_eq_ret, CallProgram.run_ret,
          ne_eq, not_true_eq_false] at hrun
        exact .inr ⟨d, compressed, rfl, valid_iff.mpr (not_or.mpr ⟨hzero, hlong⟩), rfl, hcode,
          hrun⟩

theorem publishEventBatch_cons (item : Option Bytes) (items : List (Option Bytes)) :
    publishEventBatch (item :: items) = (do
      if !(← hasChunk) then
        return -1
      publishBatchLoop (item :: items)) := by
  rw [publishEventBatch, List.length_cons, if_neg (Nat.succ_ne_zero _)]

/-- Every call is rejected at its start or works as a batch of its payloads. -/
theorem PublishCall.exec_run_cases {p : PublishCall} (hrun : p.run.exec s = some (r, s')) :
    (r ≠ 0 ∧ p.RejectedAtStart s ∧ ∃ faults, s' = s.withFaults faults) ∨
      ∃ item items faults, p.payloads = item :: items ∧ s.chunk.isSome ∧
        (s.faults = [] → faults = []) ∧
        (publishBatchLoop (item :: items)).exec (s.withFaults faults) = some (r, s') ∧
        (p.RejectedAtStart s ↔ (s.withFaults faults).Rejects item) := by
  cases p with
  | event data =>
    rcases exec_publishEvent hrun with ⟨hr, hreject, rfl⟩ | ⟨hchunk, hloop⟩
    · exact .inl ⟨hr, hreject, s'.faults, rfl⟩
    · exact .inr ⟨data, [], s.faults, rfl, hchunk, id, hloop, Iff.rfl⟩
  | string data =>
    cases data with
    | none =>
      obtain ⟨rfl, rfl⟩ := CallProgram.run_pure_eq_some_iff.mp hrun
      exact .inl ⟨by omega, trivial, s.faults, rfl⟩
    | some d =>
      simp only [PublishCall.run, publishEventString] at hrun
      split_ifs at hrun with hzero
      · obtain ⟨rfl, rfl⟩ := CallProgram.run_pure_eq_some_iff.mp hrun
        refine .inl ⟨by omega, .inl fun hd => ?_, s.faults, rfl⟩
        exact absurd (.inl hzero) (valid_iff.mp hd)
      rcases exec_publishEvent hrun with ⟨hr, hreject, rfl⟩ | ⟨hchunk, hloop⟩
      · exact .inl ⟨hr, hreject, s'.faults, rfl⟩
      · exact .inr ⟨some (cString d), [], s.faults, rfl, hchunk, id, hloop, Iff.rfl⟩
  | compressed zstd data compressionLevel =>
    rcases exec_publishEventCompressed hrun with h | ⟨d, compressed, rfl, hd, halloc, hcode, hrun⟩
    · exact .inl h
    have hstart : (PublishCall.compressed zstd (some d) compressionLevel).RejectedAtStart s ↔
        s.next.Rejects (some compressed) := by
      rw [← hcode]
      exact ⟨fun h => h d rfl hd halloc, fun h d' hd' _ _ => Option.some.inj hd' ▸ h⟩
    rcases exec_publishEvent hrun with ⟨hr, hreject, rfl⟩ | ⟨hchunk, hloop⟩
    · exact .inl ⟨hr, hstart.mpr hreject, s.faults.tail, rfl⟩
    · refine .inr ⟨some compressed, [], s.faults.tail, ?_, hchunk, fun h => ?_, hloop, hstart⟩
      · simp only [PublishCall.payloads, Option.bind_some, hcode]
      · rw [h, List.tail_nil]
  | batch dataArray =>
    cases dataArray with
    | nil =>
      obtain ⟨rfl, rfl⟩ := CallProgram.run_pure_eq_some_iff.mp hrun
      exact .inl ⟨by omega, .inr trivial, s.faults, rfl⟩
    | cons item items =>
      rw [PublishCall.run, publishEventBatch_cons] at hrun
      rcases exec_ifChunk hrun with ⟨hr, hnone, rfl⟩ | ⟨hchunk, hloop⟩
      · exact .inl ⟨hr, .inl hnone, s'.faults, rfl⟩
      · refine .inr ⟨item, items, s.faults, rfl, hchunk, id, hloop, or_iff_right fun hnone => ?_⟩
        rw [hnone] at hchunk
        cases hchunk

/-- A publishing call leaves the chunk with its file and only adds to the file. -/
theorem PublishCall.exec_run_wrote {path : Bytes} (h : s.OnTopic path) {p : PublishCall}
    (hrun : p.run.exec s = some (r, s')) :
    s'.OnTopic path ∧ ∃ written, s'.file path = s.file path ++ written := by
  rcases PublishCall.exec_run_cases hrun with
    ⟨-, -, faults, rfl⟩ | ⟨item, items, faults, -, hchunk, -, hloop, -⟩
  · exact ⟨h, [], (List.append_nil _).symm⟩
  obtain ⟨c, hs⟩ := Option.isSome_iff_exists.mp hchunk
  have hlog : (s.withFaults faults).Logs path (c.log (h c hs).2) := h.logs hs
  rcases hlog.exec_publishBatchLoop hloop with
    ⟨-, ds, -, -, hwrote, hlog'⟩ | ⟨-, appended, written, hwrote, hlog'⟩
  · exact ⟨hlog'.onTopic, _, hwrote.file⟩
  · exact ⟨hlog'.onTopic, written, hwrote.file⟩

/-- `flush_topic` leaves the chunk with its file and only adds to the file. -/
theorem exec_flushTopic_wrote {path : Bytes} (h : s.OnTopic path)
    (hrun : flushTopic.exec s = some (r, s')) :
    s'.OnTopic path ∧ ∃ written, s'.file path = s.file path ++ written := by
  rcases exec_ifChunk hrun with ⟨-, -, rfl⟩ | ⟨hchunk, hsave⟩
  · exact ⟨h, [], (List.append_nil _).symm⟩
  obtain ⟨c, hs⟩ := Option.isSome_iff_exists.mp hchunk
  obtain ⟨r₁, s₁, count, hsave', -, hwrote, -, hcases⟩ := (h.logs hs).exec_chunkSaveDelta
  obtain ⟨-, rfl⟩ := Prod.mk.inj (Option.some.inj (hsave'.symm.trans hsave))
  rcases hcases with ⟨-, -, -, hlog⟩ | ⟨-, -, hlog⟩
  · exact ⟨hlog.onTopic, _, hwrote.file⟩
  · exact ⟨hlog.onTopic, _, hwrote.file⟩

end SuparnaD
