import SuparnaD.Foundation.EventLog
import SuparnaD.Messaging.BatchAck
import SuparnaD.Messaging.GroupIsolation
import SuparnaD.Messaging.SizedBatchAck

/-!
# A topic is an event log

The topic file with the bytes that wait to be saved and the offsets of the groups present an
`EventLog`: the file is the stream of its events, what waits is the stream of the staged ones, and
the read pointer of a group is the offset of the event at its position. Every operation that works
on whole packets names an operation on the log, and goes as that operation.

## Main definitions

* `Packet.IsEvent` : the packet is an event of the log.
* `TopicGroupsOp.Names` : what an operation does to the log.
* `GroupStore.Presents` : the file, what waits and the read pointers are those of the log.

## Main results

* `GroupStore.Presents.step` : an operation goes as the one that it names.
-/

namespace SuparnaD

open Broker

/-- The packet is the `k`-th event of the log, at its offset in the file. -/
structure Packet.IsEvent (p : Packet) (events : List Bytes) (k : ℕ) : Prop where
  data : events[k]? = some p.data
  size : p.packetSize.toNat = p.data.length
  offset : p.offsetInTopic.toNat = topicFormat.start events k

/-- The code with which `publish_event` refuses an event. -/
def refusal (data : Option Bytes) : ℤ := if (data.getD []).length = 0 then -1 else -2

/-- The items of a batch before the first that is refused. -/
def validItems : List (Option Bytes) → List Bytes
  | some d :: rest => if topicFormat.Valid d then d :: validItems rest else []
  | _ => []

/-- An item of a batch that is not refused. -/
def ValidItem (item : Option Bytes) : Prop := item.elim False topicFormat.Valid

instance (item : Option Bytes) : Decidable (ValidItem item) :=
  match item with
  | none => inferInstanceAs (Decidable False)
  | some d => inferInstanceAs (Decidable (topicFormat.Valid d))

@[simp] theorem validItem_some (d : Bytes) : ValidItem (some d) ↔ topicFormat.Valid d := Iff.rfl

@[simp] theorem not_validItem_none : ¬ ValidItem none := id

theorem valid_of_mem_validItems {items : List (Option Bytes)} {d : Bytes}
    (h : d ∈ validItems items) : topicFormat.Valid d := by
  induction items with
  | nil => cases h
  | cons item items ih =>
    cases item with
    | none => cases h
    | some d' =>
      rw [validItems] at h
      split_ifs at h with hd
      · rcases List.mem_cons.mp h with rfl | h
        · exact hd
        · exact ih h
      · cases h

/-- The operation of the topic names the operation on the log. -/
inductive TopicGroupsOp.Names {ι : Type*} (topic : ℕ) (e : EventLog ι Bytes) :
    TopicGroupsOp ι → EventOp ι Bytes → Prop
  | publish {d : Bytes} (hd : topicFormat.Valid d) : Names topic e (.publishEvent (some d))
      (.publish d)
  | refused {data : Option Bytes} (hdata : ¬ ValidItem data) : Names topic e (.publishEvent data)
      (.refuse (refusal data))
  | batch {items : List (Option Bytes)} (hne : items ≠ []) : Names topic e
      (.publishEventBatch items) (.batch (validItems items) (decide (∀ i ∈ items, ValidItem i)))
  | noBatch : Names topic e (.publishEventBatch []) (.refuse (-1))
  | flush : Names topic e .flushTopic .flush
  | consume (i : ι) : Names topic e (.group i (.consumePacket topic)) (.next i)
  | hasMore (i : ι) : Names topic e (.group i .groupHasMoreData) (.more i)
  | reset (i : ι) : Names topic e (.group i .resetGroupPointer) (.seek i 0)
  | set (i : ι) {offset : UInt64} {k : ℕ} (hk : offset.toNat = topicFormat.start e.events k) :
      Names topic e (.group i (.setGroupPointer offset)) (.seek i k)
  | advance (i : ι) {bytes : UInt64} {k : ℕ} (hk : topicFormat.start e.events (e.position i) +
      bytes.toNat = topicFormat.start e.events k) :
      Names topic e (.group i (.cursor (.advanceGroupPointer bytes))) (.seek i k)
  | ack (i : ι) {p : Packet} {k : ℕ} (hp : p.IsEvent e.events k) :
      Names topic e (.group i (.cursor (.ackPacket p))) (.acknowledge i k)
  | ackByOffset (i : ι) {p : Packet} {k : ℕ} (hp : p.IsEvent e.events k) :
      Names topic e (.group i (.cursor (.ackPacketByOffset topic p.offsetInTopic
        p.packetSize.toUInt64))) (.acknowledge i k)
  | ackBatch (i : ι) {count : UInt64} (hcount : count ≠ 0) :
      Names topic e (.group i (.cursor (.ackPacketBatch topic count))) (.pass i count.toNat)
  | ackSizes (i : ι) {sizes : List UInt64} (hne : sizes ≠ [])
      (hsizes : sizes.map UInt64.toNat =
        ((e.events.drop (e.position i)).take sizes.length).map List.length) :
      Names topic e (.group i (.cursor (.ackPacketBatchBySize topic sizes))) (.pass i sizes.length)
  | ackSize (i : ι) {size : UInt64}
      (hsize : (e.events[e.position i]?).map List.length = some size.toNat) :
      Names topic e (.group i (.cursor (.ackPacketBySize topic size))) (.pass i 1)

/-- The result of an operation is the one on the log. -/
def GroupResult.Tells (events : List Bytes) : GroupResult → EventResult Bytes → Prop
  | .code r, .code r' => r = r'
  | .more b, .more b' => b = b'
  | .packet none, .event none => True
  | .packet (some p), .event (some (k, d)) => p.IsEvent events k ∧ p.data = d
  | _, _ => False

namespace Backlog

theorem publishBatch_eq (b : Backlog) (items : List (Option Bytes)) :
    b.publishBatch items = if ∀ i ∈ items, ValidItem i then
      (0, (b.append (topicFormat.stream (validItems items))).save)
    else (-1, b.append (topicFormat.stream (validItems items))) := by
  have hnil (b : Backlog) : b.append [] = b := by rw [Backlog.append, List.append_nil]
  induction items generalizing b with
  | nil => simp [Backlog.publishBatch, validItems, hnil]
  | cons item items ih =>
    cases item with
    | none => simp [Backlog.publishBatch, validItems, hnil]
    | some d =>
      by_cases hd : topicFormat.Valid d
      · simp [Backlog.publishBatch, validItems, hd, ih, Backlog.append]
      · simp [Backlog.publishBatch, validItems, hd, hnil]

theorem publishEvent_eq_save (b : Backlog) {d : Bytes} (hd : topicFormat.Valid d) :
    b.publishEvent (some d) = (0, (b.append (topicFormat.stream [d])).save) := by
  obtain ⟨hzero, hlong⟩ := not_or.mp (valid_iff.mp hd)
  rw [Backlog.publishEvent, if_neg hzero, if_neg hlong, FrameFormat.stream_cons,
    FrameFormat.stream_nil, List.append_nil]

theorem publishEvent_of_refused (b : Backlog) {data : Option Bytes} (hdata : ¬ ValidItem data) :
    b.publishEvent data = (refusal data, b) := by
  cases data with
  | none => rfl
  | some d =>
    rw [validItem_some, valid_iff, not_not] at hdata
    rw [Backlog.publishEvent, refusal, Option.getD_some]
    split_ifs with hzero hlong
    · rfl
    · rfl
    · exact absurd hdata (not_or.mpr ⟨hzero, hlong⟩)

@[simp] theorem content_append (b : Backlog) (bytes : Bytes) :
    (b.append bytes).content = b.content := rfl

theorem content_save (b : Backlog) : b.save.content = b.content ++ b.pending := by
  rw [Backlog.save, Backlog.content, Writer.getD_savedFile, Writer.saveCount_ok, List.take_length,
    Backlog.content]

end Backlog

theorem GroupResult.Tells.eq_code {events : List Bytes} {r : GroupResult} {code : ℤ}
    (h : r.Tells events (.code code)) : r = .code code := by
  cases r with
  | code r => exact congrArg _ h
  | packet p => cases p <;> exact h.elim
  | _ => exact h.elim

theorem GroupResult.Tells.eq_packet {events : List Bytes} {r : GroupResult}
    {next : Option (ℕ × Bytes)} (h : r.Tells events (.event next)) :
    ∃ p, r = .packet p ∧ p.map Packet.data = next.map Prod.snd := by
  cases r with
  | packet p =>
    refine ⟨p, rfl, ?_⟩
    cases p <;> cases next
    · rfl
    · exact h.elim
    · exact h.elim
    · exact congrArg some h.2
  | _ => exact h.elim

namespace GroupStore

variable {ι : Type*}

/-- The file, what waits to be saved and the read pointers present the log. -/
structure Presents (a : GroupStore ι) (topic : ℕ) (e : EventLog ι Bytes) : Prop where
  content : a.backlog.content = topicFormat.stream e.events
  pending : a.backlog.pending = topicFormat.stream e.staged
  valid : ∀ d ∈ e.all, topicFormat.Valid d
  attached : ∀ i, (a.groups i).attachedTopic = topic
  position : ∀ i, (a.groups i).readPointer.toNat = topicFormat.start e.events (e.position i)

variable {a : GroupStore ι} {topic : ℕ} {e : EventLog ι Bytes}

theorem Presents.valid_events (h : a.Presents topic e) : ∀ d ∈ e.events, topicFormat.Valid d :=
  fun d hd => h.valid d (List.mem_append_left _ hd)

/-! ### Publishing -/

/-- Saved bytes are whole frames behind the log. -/
theorem Presents.add (h : a.Presents topic e) {ds : List Bytes}
    (hds : ∀ d ∈ ds, topicFormat.Valid d) :
    GroupStore.Presents ⟨(a.backlog.append (topicFormat.stream ds)).save, a.groups⟩ topic
      (e.add ds) where
  content := by
    rw [Backlog.content_save, Backlog.content_append, Backlog.append, h.content, h.pending,
      EventLog.events_add, EventLog.all, FrameFormat.stream_append, FrameFormat.stream_append,
      List.append_assoc]
  pending := rfl
  valid d hd := by
    rw [EventLog.all_add] at hd
    exact (List.mem_append.mp hd).elim (h.valid d) (hds d)
  attached := h.attached
  position i := by
    rw [EventLog.events_add, EventLog.all, List.append_assoc]
    exact (h.position i).trans (FrameFormat.start_append_of_le (e.position_le i)).symm

/-- A batch that is given up leaves whole frames that wait to be saved. -/
theorem Presents.stage (h : a.Presents topic e) {ds : List Bytes}
    (hds : ∀ d ∈ ds, topicFormat.Valid d) :
    GroupStore.Presents ⟨a.backlog.append (topicFormat.stream ds), a.groups⟩ topic
      (e.stage ds) where
  content := h.content
  pending := by
    rw [Backlog.append, h.pending, EventLog.stage, FrameFormat.stream_append]
  valid d hd := by
    rw [EventLog.all_stage] at hd
    exact (List.mem_append.mp hd).elim (h.valid d) (hds d)
  attached := h.attached
  position := h.position

/-! ### Moving the read pointer -/

/-- A position behind the end is the end. -/
theorem start_min (ds : List Bytes) (k : ℕ) :
    topicFormat.start ds (min k ds.length) = topicFormat.start ds k := by
  rcases Nat.le_total k ds.length with hle | hle
  · rw [Nat.min_eq_left hle]
  · rw [Nat.min_eq_right hle, FrameFormat.start_length, FrameFormat.start,
      List.take_of_length_le hle]

/-- No offset of an event is behind the file. -/
theorem start_le_length (ds : List Bytes) (k : ℕ) :
    topicFormat.start ds k ≤ (topicFormat.stream ds).length := by
  rw [← start_min, ← FrameFormat.start_length]
  exact topicFormat.start_mono ds (Nat.min_le_right _ _)

/-- Reading at the read pointer gives the event at the position. -/
theorem Presents.parseAt_eq (h : a.Presents topic e) (i : ι) :
    topicFormat.parseAt a.backlog.content (a.groups i).readPointer.toNat =
      e.events[e.position i]? := by
  rw [h.content, h.position, FrameFormat.parseAt_start_eq h.valid_events (e.position_le i)]

/-- At the end of the log there is nowhere further to go. -/
theorem Presents.start_of_none (h : a.Presents topic e) (hnone : e.events[e.position i]? = none)
    (n : ℕ) : (a.groups i).readPointer.toNat = topicFormat.start e.events (e.position i + n) := by
  have hend : e.position i = e.events.length :=
    Nat.le_antisymm (e.position_le i) (List.getElem?_eq_none_iff.mp hnone)
  rw [h.position, ← start_min _ (e.position i + n), Nat.min_eq_right (by omega), hend]

/-- The frames between two offsets. -/
theorem start_add (ds : List Bytes) (k n : ℕ) : topicFormat.start ds (k + n) =
    topicFormat.start ds k + (topicFormat.stream ((ds.drop k).take n)).length := by
  rw [FrameFormat.start, List.take_add, FrameFormat.stream_append, List.length_append,
    FrameFormat.start]

/-- The packets of the given sizes take the bytes of their frames. -/
theorem frameBytes_eq {sizes : List UInt64} {ds : List Bytes}
    (h : sizes.map UInt64.toNat = ds.map List.length) :
    frameBytes sizes = (topicFormat.stream ds).length := by
  induction sizes generalizing ds with
  | nil =>
    rw [List.map_nil, eq_comm, List.map_eq_nil_iff] at h
    rw [h]
    rfl
  | cons size sizes ih =>
    cases ds with
    | nil => cases h
    | cons d ds =>
      rw [List.map_cons, List.map_cons, List.cons.injEq] at h
      rw [frameBytes, ih h.2, h.1, FrameFormat.stream_cons, List.length_append,
        FrameFormat.length_frame, topicFormat_headerLen]

/-- No packet of the log is empty. -/
theorem Presents.zero_notMem (h : a.Presents topic e) {sizes : List UInt64} {k n : ℕ}
    (hsizes : sizes.map UInt64.toNat = ((e.events.drop k).take n).map List.length) :
    0 ∉ sizes := by
  intro hmem
  have hzero := List.mem_map_of_mem (f := UInt64.toNat) hmem
  rw [hsizes, List.mem_map] at hzero
  obtain ⟨d, hd, hlen⟩ := hzero
  have hvalid := h.valid_events d (List.mem_of_mem_drop (List.mem_of_mem_take hd))
  exact absurd hvalid.1 (Nat.not_lt.mpr (Nat.le_of_eq hlen))

variable [DecidableEq ι] {i : ι}

/-- An operation of a group that gets to its load and sets the read pointer to the offset of an
event. -/
theorem Presents.move (h : a.Presents topic e) (op : GroupOp)
    (hloads : op.loads (a.groups i) = true) {k : ℕ}
    (hattached : (op.result (a.groups i) a.backlog.content).2.attachedTopic = topic)
    (hk : (op.result (a.groups i) a.backlog.content).2.readPointer.toNat =
      topicFormat.start e.events k) :
    (a.step (.group i op)).2.Presents topic (e.move i k) := by
  simp only [GroupStore.step, hloads, ↓reduceIte]
  refine ⟨h.content, rfl, fun d hd => ?_, fun j => ?_, fun j => ?_⟩
  · rw [EventLog.all_move] at hd
    exact h.valid_events d hd
  · by_cases hj : j = i
    · subst hj
      simpa only [Function.update_self] using hattached
    · simpa only [Function.update_of_ne hj] using h.attached j
  · by_cases hj : j = i
    · subst hj
      simpa only [EventLog.move, Function.update_self, start_min] using hk
    · simpa only [EventLog.move, Function.update_of_ne hj] using h.position j

theorem Presents.consume (h : a.Presents topic e) (hsmall : a.backlog.content.length < 2 ^ 62)
    (i : ι) :
    (a.step (.group i (.consumePacket topic))).1.Tells e.events (e.step (.next i)).1 ∧
      (a.step (.group i (.consumePacket topic))).2.Presents topic (e.step (.next i)).2 := by
  have hparse := h.parseAt_eq i
  have hresult : GroupOp.result (a.groups i) a.backlog.content (.consumePacket topic) =
      match e.events[e.position i]? with
      | none => (.packet none, a.groups i)
      | some d => (.packet (some (packetAt (a.groups i) d)), afterPacket (a.groups i) d) := by
    rw [GroupOp.result, if_neg (not_not.mpr (h.attached i)), hparse]
    cases e.events[e.position i]? <;> rfl
  have hmove := h.move (i := i) (.consumePacket topic) (k := e.position i + 1)
    (decide_eq_true (h.attached i))
  cases hnext : e.events[e.position i]? with
  | none =>
    rw [hnext] at hresult
    refine ⟨?_, hmove ?_ ?_⟩
    · simp only [GroupStore.step, hresult, EventLog.step, hnext, Option.map_none,
        GroupResult.Tells]
    · rw [hresult]
      exact h.attached i
    · rw [hresult]
      exact h.start_of_none hnext 1
  | some d =>
    rw [hnext] at hresult hparse
    obtain ⟨hlt, rfl⟩ := List.getElem?_eq_some_iff.mp hnext
    have hlen := lt_of_le_maxPacketSize (h.valid_events _ (List.getElem_mem hlt)).2
    refine ⟨?_, hmove ?_ ?_⟩
    · simp only [GroupStore.step, hresult, EventLog.step, hnext, Option.map_some,
        GroupResult.Tells, packetAt]
      exact ⟨⟨hnext, toNat_toUInt32 (by omega), h.position i⟩, trivial⟩
    · rw [hresult]
      exact h.attached i
    · rw [hresult, FrameFormat.start_succ hlt, ← h.position]
      exact toNat_readPointer_afterPacket (by omega) hparse

theorem Presents.hasMore (h : a.Presents topic e) (i : ι) :
    (a.step (.group i .groupHasMoreData)).1.Tells e.events (e.step (.more i)).1 ∧
      (a.step (.group i .groupHasMoreData)).2.Presents topic (e.step (.more i)).2 := by
  refine ⟨?_, h.move (i := i) .groupHasMoreData rfl (h.attached i) (h.position i)⟩
  refine decide_eq_decide.mpr ?_
  rw [h.content, h.position, ← FrameFormat.start_length, FrameFormat.start_lt_start_iff
    h.valid_events (e.position_le i) (Nat.le_refl _)]

/-- A read pointer that is set to the offset of an event is not clamped. -/
theorem clampTo_of_le {g : Group} {target : UInt64} {v : Bytes} (hv : v.length < 2 ^ 63)
    (htarget : target.toNat ≤ v.length) :
    clampTo g target v = (0, { g with readPointer := target }) := by
  have hlen : v.length.toUInt64.toNat = v.length := toNat_toUInt64 (by omega)
  have hfits : ¬ v.length.toUInt64 < target := by
    rw [UInt64.lt_iff_toNat_lt, hlen]
    omega
  rw [clampTo, if_neg hfits]

theorem Presents.seek (h : a.Presents topic e) (hsmall : a.backlog.content.length < 2 ^ 62)
    {op : GroupOp} (target : UInt64) {k : ℕ} (hloads : op.loads (a.groups i) = true)
    (hop : op.result (a.groups i) a.backlog.content =
      (clampTo (a.groups i) target a.backlog.content).map .code id)
    (hk : target.toNat = topicFormat.start e.events k) :
    (a.step (.group i op)).1.Tells e.events (e.step (.seek i k)).1 ∧
      (a.step (.group i op)).2.Presents topic (e.step (.seek i k)).2 := by
  have hfits : target.toNat ≤ a.backlog.content.length := by
    rw [hk, h.content]
    exact start_le_length _ _
  rw [clampTo_of_le (by omega) hfits] at hop
  refine ⟨?_, h.move op hloads ?_ ?_⟩
  · simp only [GroupStore.step, hop, Prod.map, EventLog.step, GroupResult.Tells]
  · rw [hop]
    exact h.attached i
  · rw [hop]
    exact hk

/-- A group moves over whole packets that are there. -/
theorem Presents.passSizes (h : a.Presents topic e) (hsmall : a.backlog.content.length < 2 ^ 62)
    {op : GroupOp} (count : UInt64) {n : ℕ} (hloads : op.loads (a.groups i) = true)
    (hop : op.result (a.groups i) a.backlog.content =
      (moveOn (a.groups i) count a.backlog.content).map .code id)
    (hn : e.position i + n ≤ e.events.length)
    (hcount : topicFormat.start e.events (e.position i) + count.toNat =
      topicFormat.start e.events (e.position i + n)) :
    (a.step (.group i op)).1.Tells e.events (e.step (.pass i n)).1 ∧
      (a.step (.group i op)).2.Presents topic (e.step (.pass i n)).2 := by
  have hend := start_le_length e.events (e.position i + n)
  rw [← h.content] at hend
  rw [← h.position] at hcount
  rw [moveOn_eq _ (by omega), if_pos (by omega)] at hop
  refine ⟨?_, h.move op hloads ?_ ?_⟩
  · simp only [GroupStore.step, hop, Prod.map, EventLog.step, GroupResult.Tells, if_pos hn]
  · rw [hop]
    exact h.attached i
  · rw [hop]
    show ((a.groups i).readPointer + count).toNat = _
    rw [UInt64.toNat_add]
    omega

/-- The walk of `ack_packet_batch` over a file of whole frames. -/
theorem batchWalk_stream {ds : List Bytes} (hds : ∀ d ∈ ds, topicFormat.Valid d)
    (hsmall : (topicFormat.stream ds).length < 2 ^ 62) (count : ℕ) {k : ℕ} {off : UInt64}
    (passed : UInt64) (hk : k ≤ ds.length) (hoff : off.toNat = topicFormat.start ds k) :
    (batchWalk (topicFormat.stream ds) count off passed).1.toNat =
        topicFormat.start ds (k + count) ∧
      (batchWalk (topicFormat.stream ds) count off passed).2 =
        passed + UInt64.ofNat (min count (ds.length - k)) := by
  induction count generalizing k off passed with
  | zero => exact ⟨hoff, by simp [batchWalk]⟩
  | succ count ih =>
    rw [batchWalk_succ (by omega), hoff]
    rcases Nat.lt_or_eq_of_le hk with hlt | rfl
    · have hlen := lt_of_le_maxPacketSize (hds _ (List.getElem_mem hlt)).2
      have hstart := start_le_length ds (k + 1)
      rw [FrameFormat.start_succ hlt, topicFormat_headerLen] at hstart
      rw [wholeAt_of_parseAt (FrameFormat.parseAt_start hds hlt)]
      have hnext : (off + (packetSizeHeaderSize + ds[k].length.toUInt32.toUInt64)).toNat =
          topicFormat.start ds (k + 1) := by
        rw [UInt64.toNat_add, toNat_frameSize (hds _ (List.getElem_mem hlt)).2,
          FrameFormat.start_succ hlt, topicFormat_headerLen]
        omega
      obtain ⟨hstop, hpassed⟩ := ih (passed + 1) hlt hnext
      refine ⟨by rw [hstop, Nat.succ_add_eq_add_succ], hpassed.trans ?_⟩
      have hcount : min (count + 1) (ds.length - k) = 1 + min count (ds.length - (k + 1)) := by
        omega
      rw [hcount, UInt64.ofNat_add, UInt64.add_assoc]
      rfl
    · have hwhole : wholeAt (topicFormat.stream ds) (topicFormat.start ds ds.length) = none := by
        rw [wholeAt, headerAt, if_neg, Option.filter_none]
        rw [FrameFormat.start_length]
        omega
      rw [hwhole]
      refine ⟨?_, ?_⟩
      · rw [hoff, ← start_min _ (ds.length + _), Nat.min_eq_right (by omega)]
      · rw [Nat.sub_self, Nat.min_zero]
        exact (UInt64.add_zero passed).symm

theorem Presents.ackBatch (h : a.Presents topic e) (hsmall : a.backlog.content.length < 2 ^ 62)
    (i : ι) {count : UInt64} (hcount : count ≠ 0) :
    (a.step (.group i (.cursor (.ackPacketBatch topic count)))).1.Tells e.events
        (e.step (.pass i count.toNat)).1 ∧
      (a.step (.group i (.cursor (.ackPacketBatch topic count)))).2.Presents topic
        (e.step (.pass i count.toNat)).2 := by
  have hallowed : ¬ (count = 0 ∨ (a.groups i).attachedTopic ≠ topic) :=
    not_or.mpr ⟨hcount, not_not.mpr (h.attached i)⟩
  have hresult : GroupOp.result (a.groups i) a.backlog.content (.cursor (.ackPacketBatch topic
      count)) = (passOver (a.groups i) count a.backlog.content).map .code id := by
    rw [GroupOp.result, CursorOp.result, if_neg hallowed]
    rfl
  have hle := e.position_le i
  have hlt := count.toNat_lt
  obtain ⟨hstop, hpassed⟩ := batchWalk_stream h.valid_events (h.content ▸ hsmall) count.toNat 0
    hle (h.position i)
  rw [← h.content] at hstop hpassed
  rw [UInt64.zero_add] at hpassed
  have hnumber : (UInt64.ofNat (min count.toNat (e.events.length - e.position i))).toNat =
      min count.toNat (e.events.length - e.position i) :=
    UInt64.toNat_ofNat_of_lt' (Nat.lt_of_le_of_lt (Nat.min_le_left _ _) hlt)
  refine ⟨?_, h.move (.cursor (.ackPacketBatch topic count)) (decide_eq_true hallowed) ?_ ?_⟩
  · simp only [GroupStore.step, hresult, Prod.map, EventLog.step, GroupResult.Tells, passOver,
      hpassed]
    refine if_congr ?_ rfl rfl
    rw [← UInt64.toNat_inj, hnumber]
    omega
  · rw [hresult]
    exact (same_passOver (a.groups i) count _).attachedTopic.trans (h.attached i)
  · rw [hresult]
    show (passOver (a.groups i) count a.backlog.content).2.readPointer.toNat = _
    simp only [passOver, hpassed, UInt64.lt_iff_toNat_lt, hnumber]
    split_ifs with hmoved
    · exact hstop
    · have hnone : e.events[e.position i]? = none := by
        rw [List.getElem?_eq_none_iff]
        have : count.toNat ≠ 0 := fun hzero => hcount (UInt64.toNat_inj.mp hzero)
        simp only [UInt64.toNat_zero] at hmoved
        omega
      exact h.start_of_none hnone _

/-- A packet that is an event of the log is acknowledged by the end of its frame. -/
theorem Presents.acknowledge (h : a.Presents topic e)
    (hsmall : a.backlog.content.length < 2 ^ 62) {op : GroupOp} {p : Packet} {k : ℕ}
    (hloads : op.loads (a.groups i) = true)
    (hop : op.result (a.groups i) a.backlog.content = (raiseTo (a.groups i) (p.offsetInTopic +
      (packetSizeHeaderSize + p.packetSize.toUInt64)) a.backlog.content).map .code id)
    (hp : p.IsEvent e.events k) :
    (a.step (.group i op)).1.Tells e.events (e.step (.acknowledge i k)).1 ∧
      (a.step (.group i op)).2.Presents topic (e.step (.acknowledge i k)).2 := by
  obtain ⟨hlt, hdata⟩ := List.getElem?_eq_some_iff.mp hp.data
  have hfits := start_le_length e.events (k + 1)
  rw [← h.content] at hfits
  have hfour : packetSizeHeaderSize.toNat = 4 := rfl
  have hsize := p.packetSize.toNat_lt
  have hstop : (p.offsetInTopic + (packetSizeHeaderSize + p.packetSize.toUInt64)).toNat =
      topicFormat.start e.events (k + 1) := by
    have hend := FrameFormat.start_succ (F := topicFormat) hlt
    rw [hdata, ← hp.size, ← hp.offset, topicFormat_headerLen] at hend
    rw [UInt64.toNat_add, UInt64.toNat_add, UInt32.toNat_toUInt64, hfour]
    omega
  have hraise : (a.groups i).readPointer <
      p.offsetInTopic + (packetSizeHeaderSize + p.packetSize.toUInt64) ↔ e.position i < k + 1 := by
    rw [UInt64.lt_iff_toNat_lt, hstop, h.position,
      FrameFormat.start_lt_start_iff h.valid_events (e.position_le i) hlt]
  rw [raiseTo, hstop, if_neg (Nat.not_lt.mpr hfits)] at hop
  simp only [EventLog.step, if_pos hlt]
  by_cases hmoves : e.position i < k + 1
  · rw [if_pos (hraise.mpr hmoves)] at hop
    refine ⟨?_, h.move op hloads ?_ ?_⟩
    · simp only [GroupStore.step, hop, Prod.map, GroupResult.Tells]
    · rw [hop]
      exact h.attached i
    · rw [hop, Nat.max_eq_right (Nat.le_of_lt hmoves)]
      exact hstop
  · rw [if_neg (mt hraise.mp hmoves)] at hop
    refine ⟨?_, h.move op hloads ?_ ?_⟩
    · simp only [GroupStore.step, hop, Prod.map, GroupResult.Tells]
    · rw [hop]
      exact h.attached i
    · rw [hop, Nat.max_eq_left (Nat.le_of_not_lt hmoves)]
      exact h.position i

/-! ### Every operation -/

/-- An operation goes as the one that it names. -/
theorem Presents.step (h : a.Presents topic e) (hsmall : a.backlog.content.length < 2 ^ 62)
    {op : TopicGroupsOp ι} {op' : EventOp ι Bytes} (hname : op.Names topic e op') :
    (a.step op).1.Tells e.events (e.step op').1 ∧
      (a.step op).2.Presents topic (e.step op').2 := by
  cases hname with
  | publish hd =>
    simp only [GroupStore.step, Backlog.publishEvent_eq_save _ hd]
    exact ⟨rfl, h.add (by simpa using hd)⟩
  | refused hdata =>
    simp only [GroupStore.step, Backlog.publishEvent_of_refused _ hdata]
    exact ⟨rfl, h⟩
  | @batch items hne =>
    have hvalid (d : Bytes) (hd : d ∈ validItems items) := valid_of_mem_validItems hd
    have hlen : items.length ≠ 0 := mt List.length_eq_zero_iff.mp hne
    simp only [GroupStore.step, if_neg hlen, Backlog.publishBatch_eq]
    by_cases hall : ∀ item ∈ items, ValidItem item
    · rw [if_pos hall, decide_eq_true hall]
      exact ⟨rfl, h.add hvalid⟩
    · rw [if_neg hall, decide_eq_false hall]
      exact ⟨rfl, h.stage hvalid⟩
  | noBatch => exact ⟨rfl, h⟩
  | flush =>
    have hsaved := h.add (List.forall_mem_nil topicFormat.Valid)
    rw [FrameFormat.stream_nil, Backlog.append, List.append_nil] at hsaved
    exact ⟨rfl, hsaved⟩
  | consume i => exact h.consume hsmall i
  | hasMore i => exact h.hasMore i
  | reset i => exact h.seek hsmall 0 rfl rfl rfl
  | set i hk => exact h.seek hsmall _ rfl rfl hk
  | @advance i bytes k hk =>
    have hend := start_le_length e.events k
    rw [← h.content] at hend
    refine h.seek hsmall ((a.groups i).readPointer + bytes) rfl rfl ?_
    rw [UInt64.toNat_add, h.position]
    omega
  | ack i hp => exact h.acknowledge hsmall rfl rfl hp
  | @ackByOffset i p k hp =>
    obtain ⟨hlt, hdata⟩ := List.getElem?_eq_some_iff.mp hp.data
    have hvalid := hdata ▸ h.valid_events _ (List.getElem_mem hlt)
    have hallowed : ¬ (p.packetSize.toUInt64 = 0 ∨ (a.groups i).attachedTopic ≠ topic) := by
      refine not_or.mpr ⟨fun hzero => ?_, not_not.mpr (h.attached i)⟩
      have hsize := congrArg UInt64.toNat hzero
      rw [UInt32.toNat_toUInt64, hp.size] at hsize
      exact absurd hvalid.1 (Nat.not_lt.mpr (Nat.le_of_eq hsize))
    refine h.acknowledge hsmall (decide_eq_true hallowed) ?_ hp
    rw [GroupOp.result, CursorOp.result, if_neg hallowed]
    rfl
  | ackBatch i hcount => exact h.ackBatch hsmall i hcount
  | @ackSizes i sizes hne hsizes =>
    have hallowed : ¬ (sizes.length = 0 ∨ (a.groups i).attachedTopic ≠ topic) :=
      not_or.mpr ⟨mt List.length_eq_zero_iff.mp hne, not_not.mpr (h.attached i)⟩
    have hlen := congrArg List.length hsizes
    rw [List.length_map, List.length_map, List.length_take, List.length_drop] at hlen
    have hpos : 0 < sizes.length := List.length_pos_iff.mpr hne
    have hend := start_le_length e.events (e.position i + sizes.length)
    have hadd := start_add e.events (e.position i) sizes.length
    have hbytes := frameBytes_eq hsizes
    rw [← h.content] at hend
    refine h.passSizes hsmall (CursorOp.frameTotal sizes) (decide_eq_true hallowed) ?_
      (by omega) ?_
    · rw [GroupOp.result, CursorOp.result, if_neg hallowed, Option.elim_some,
        CursorOp.sumPacketSizes_eq,
        if_neg (h.zero_notMem hsizes), Option.elim_some, UInt64.zero_add]
    · rw [toNat_frameTotal (by omega)]
      omega
  | @ackSize i size hsize =>
    obtain ⟨d, hd, hlen⟩ := Option.map_eq_some_iff.mp hsize
    obtain ⟨hlt, rfl⟩ := List.getElem?_eq_some_iff.mp hd
    have hvalid := h.valid_events _ (List.getElem_mem hlt)
    have hmax := lt_of_le_maxPacketSize hvalid.2
    have hallowed : ¬ (size = 0 ∨ (a.groups i).attachedTopic ≠ topic) := by
      refine not_or.mpr ⟨fun hzero => ?_, not_not.mpr (h.attached i)⟩
      rw [hzero] at hlen
      exact absurd hvalid.1 (Nat.not_lt.mpr (Nat.le_of_eq hlen))
    refine h.passSizes hsmall (packetSizeHeaderSize + size) (decide_eq_true hallowed) ?_
      hlt ?_
    · rw [GroupOp.result, CursorOp.result, if_neg hallowed]
      rfl
    · have hfour : packetSizeHeaderSize.toNat = 4 := rfl
      rw [FrameFormat.start_succ hlt, UInt64.toNat_add, hfour, topicFormat_headerLen, hlen]
      omega

end GroupStore

end SuparnaD
