import SuparnaD.Foundation.LengthFraming
import SuparnaD.Messaging.AckPacket
import SuparnaD.Writer.ChunkLog

/-!
# Reading a topic file

What the functions on groups compute, in terms of the content of the topic file. Each of them loads
the chunk first, so the bytes that the chunk held before do not matter; `Machine.view` is what the
next load will show. When storage and allocation succeed this is the content of the file.

## Main definitions

* `topicFormat` : the frames of a topic file.
* `Machine.OnTopic`, `Machine.Logs`, `Machine.Shows`, `Machine.Ready` : a machine whose chunk
  belongs to a file.
* `Machine.view`, `whenLoaded` : the load at the start of every function.
* `packetAt`, `afterPacket` : the packet at a read pointer and the group after it.

## Main results

* `Machine.OnTopic.exec_whenLoaded` : a function goes on with the bytes that its load shows.
* `Machine.OnTopic.computes_groupHasMoreData`, `Machine.OnTopic.exec_consumePacket`.
-/

namespace SuparnaD

open Broker

/-- The frames of a topic file. -/
def topicFormat : FrameFormat UInt8 where
  headerLen := 4
  header n := u32Bytes n.toUInt32
  value := leNat
  maxLen := maxPacketSize
  length_header _ := rfl
  value_header n hn := by
    have h : n < 2 ^ 32 := by
      have : maxPacketSize < 2 ^ 32 := by decide
      omega
    rw [← List.append_nil (u32Bytes _), leNat_u32Bytes, Nat.toUInt32, UInt32.toNat_ofNat']
    exact Nat.mod_eq_of_lt h

@[simp] theorem topicFormat_headerLen : topicFormat.headerLen = 4 := rfl

@[simp] theorem topicFormat_maxLen : topicFormat.maxLen = maxPacketSize := rfl

@[simp] theorem topicFormat_value : topicFormat.value = leNat := rfl

theorem topicFormat_frame (d : Bytes) : topicFormat.frame d = u32Bytes d.length.toUInt32 ++ d := rfl

namespace Machine

/-! ### Machines whose chunk belongs to a file -/

/-- The chunk of the topic, if there is one, is well formed and belongs to the file at the path. -/
def OnTopic (s : Machine) (path : Bytes) : Prop :=
  ∀ c, s.chunk = some c → c.filePath = path ∧ c.WellFormed

/-- The chunk of the topic belongs to the file at the path and represents the log. -/
def Logs (s : Machine) (path : Bytes) (l : DeltaLog UInt8) : Prop :=
  ∃ c, s.chunk = some c ∧ c.filePath = path ∧ c.Represents l

/-- The chunk of the topic shows the given bytes and has nothing to save. -/
def Shows (s : Machine) (path content : Bytes) : Prop := s.Logs path (.load content)

/-- The second state differs from the first in the content of the chunk and in used up outcomes
only. -/
structure Kept (s s' : Machine) : Prop where
  fs : s'.fs = s.fs
  client : s'.client = s.client
  faults : s.faults = [] → s'.faults = []
  chunk : s'.chunk.isSome = s.chunk.isSome

/-- Storage and allocation succeed, and the chunk belongs to a file with the given content. -/
structure Ready (s : Machine) (path content : Bytes) : Prop where
  onTopic : s.OnTopic path
  chunk : s.chunk.isSome = true
  faults : s.faults = []
  file : s.fs.read path = some content
  small : content.length < 2 ^ 63

theorem Kept.refl (s : Machine) : s.Kept s := ⟨rfl, rfl, id, rfl⟩

theorem Kept.trans {s t u : Machine} (h : s.Kept t) (h' : t.Kept u) : s.Kept u :=
  ⟨h'.fs.trans h.fs, h'.client.trans h.client, fun hs => h'.faults (h.faults hs),
    h'.chunk.trans h.chunk⟩

theorem kept_next (s : Machine) : s.Kept s.next :=
  ⟨rfl, rfl, fun h => by simp only [next, h, List.tail_nil], rfl⟩

theorem Logs.onTopic {s : Machine} {path : Bytes} {l : DeltaLog UInt8} (h : s.Logs path l) :
    s.OnTopic path := by
  obtain ⟨c, hs, hp, hc⟩ := h
  intro c' hs'
  cases hs.symm.trans hs'
  exact ⟨hp, hc.wellFormed⟩

theorem Shows.onTopic {s : Machine} {path content : Bytes} (h : s.Shows path content) :
    s.OnTopic path := Logs.onTopic h

theorem OnTopic.logs {s : Machine} {path : Bytes} (h : s.OnTopic path) {c : Chunk}
    (hs : s.chunk = some c) : s.Logs path (c.log (h c hs).2) :=
  ⟨c, hs, (h c hs).1, (h c hs).2.represents⟩

theorem onTopic_of_some {s : Machine} {path : Bytes} {c : Chunk} (hs : s.chunk = some c)
    (hp : c.filePath = path) (hc : c.WellFormed) : s.OnTopic path := by
  intro c' hs'
  cases hs.symm.trans hs'
  exact ⟨hp, hc⟩

theorem onTopic_ofFile (path content : Bytes) : (ofFile path content).OnTopic path :=
  onTopic_of_some rfl rfl (Writer.chunkInit_represents (o := .ok) rfl).2.wellFormed

theorem OnTopic.next {s : Machine} {path : Bytes} (h : s.OnTopic path) : s.next.OnTopic path := h

theorem Shows.next {s : Machine} {path content : Bytes} (h : s.Shows path content) :
    s.next.Shows path content := h

theorem Ready.of_shows {s s' : Machine} {path content v : Bytes} (h : s.Ready path content)
    (hkept : s.Kept s') (ht : s'.Shows path v) : s'.Ready path content :=
  ⟨ht.onTopic, by obtain ⟨c, hs, -⟩ := ht; rw [hs, Option.isSome_some], hkept.faults h.faults,
    by rw [hkept.fs, h.file], h.small⟩

theorem outcome_of_faults {s : Machine} (h : s.faults = []) : s.outcome = .ok := by
  rw [outcome, h, List.headD_nil]

theorem exec_malloc_ok {s : Machine} (h : s.faults = []) :
    Broker.malloc.exec s = some (true, s.next) := by
  rw [Broker.exec_malloc, outcome_of_faults h]
  rfl

/-! ### Loading -/

/-- What the next load will show; `none` when it will fail or there is no chunk. -/
def view (s : Machine) : Option Bytes :=
  match s.chunk with
  | none => none
  | some c =>
    if (Writer.chunkLoad s.outcome (s.fs.read c.filePath) c).1 = 0 then
      some ((Writer.seenFile s.outcome (s.fs.read c.filePath)).getD [])
    else none

variable {s : Machine} {path content : Bytes}

/-- A load shows the file or, when the file cannot be opened, nothing. -/
theorem OnTopic.view_eq (h : s.OnTopic path) (hv : s.view = some content) :
    content = (s.fs.read path).getD [] ∨ content = [] ∧ s.faults ≠ [] := by
  rw [view] at hv
  split at hv
  · cases hv
  rename_i c hs
  obtain ⟨rfl, -⟩ := h c hs
  split at hv
  · rw [← Option.some.inj hv, Writer.seenFile]
    split
    · exact .inl rfl
    · rename_i hopen
      refine .inr ⟨rfl, fun hf => hopen ?_⟩
      rw [outcome_of_faults hf, IoOutcome.ok_opens]
  · cases hv

theorem Ready.view_eq (h : s.Ready path content) : s.view = some content := by
  obtain ⟨c, hs⟩ := Option.isSome_iff_exists.mp h.chunk
  obtain ⟨hp, hc⟩ := h.onTopic c hs
  have hfile : s.fs.read c.filePath = some content := by rw [hp, h.file]
  simp only [view, hs, outcome_of_faults h.faults, hfile,
    Writer.chunkLoad_ok c (some content) h.small, Writer.seenFile_ok, ↓reduceIte,
    Option.getD_some]

theorem OnTopic.exec_chunkLoad (h : s.OnTopic path) :
    ∃ s', s.Kept s' ∧ s'.OnTopic path ∧
      (s.view = none ∧ chunkLoad.exec s = some (-1, s') ∨
        ∃ v, s.view = some v ∧ s'.Shows path v ∧ chunkLoad.exec s = some (0, s')) := by
  cases hs : s.chunk with
  | none =>
    refine ⟨s, .refl s, h, .inl ⟨by simp only [view, hs], ?_⟩⟩
    exact (CallProgram.run_issue perform BrokerCall.chunkLoad s).trans (by simp only [perform, hs])
  | some c =>
  obtain ⟨rfl, hc⟩ := h c hs
  obtain ⟨hpath, hcases⟩ := Writer.chunkLoad_cases hc s.outcome (s.fs.read c.filePath)
  refine ⟨{ s.next with
    chunk := some (Writer.chunkLoad s.outcome (s.fs.read c.filePath) c).2 },
    ⟨rfl, rfl, (kept_next s).faults, by rw [hs]; rfl⟩, ?_⟩
  rw [Broker.exec_chunkLoad hs]
  rcases hcases with ⟨hzero, hrep⟩ | ⟨hneg, hwf, -⟩
  · refine ⟨onTopic_of_some rfl hpath hrep.wellFormed,
      .inr ⟨_, ?_, ⟨_, rfl, hpath, hrep⟩, by rw [hzero]⟩⟩
    simp only [view, hs, hzero, ↓reduceIte]
  · refine ⟨onTopic_of_some rfl hpath hwf, .inl ⟨?_, by rw [hneg]⟩⟩
    simp [view, hs, hneg]

theorem Shows.length_lt (h : s.Shows path content) : content.length < 2 ^ 63 := by
  obtain ⟨c, -, -, hc⟩ := h
  exact hc.shown_length_lt

theorem OnTopic.length_view_lt (h : s.OnTopic path) (hv : s.view = some content) :
    content.length < 2 ^ 63 := by
  obtain ⟨s', -, -, ⟨hnone, -⟩ | ⟨v, hsome, hshow, -⟩⟩ := h.exec_chunkLoad
  · rw [hnone] at hv
    cases hv
  · rw [hsome] at hv
    exact Option.some.inj hv ▸ hshow.length_lt

theorem Shows.exec_chunkSize (h : s.Shows path content) :
    chunkSize.exec s = some (content.length.toUInt64, s) := by
  have hlt := h.length_lt
  obtain ⟨c, hs, -, hc⟩ := h
  have hsize : c.size = content.length.toUInt64 := by
    rw [← UInt64.toNat_inj, hc.size_eq, DeltaLog.shown_load, toNat_toUInt64 (by omega)]
  rw [Broker.exec_chunkSize hs, hsize]

theorem Shows.exec_chunkRead (h : s.Shows path content) (size offset : UInt64) :
    (chunkRead size offset).exec s =
      some ((content.drop offset.toNat).take size.toNat, s) := by
  obtain ⟨c, hs, -, hc⟩ := h
  rw [Broker.exec_chunkRead hs, Writer.chunkRead_eq hc, DeltaLog.shown_load]

theorem Shows.lt_size_iff (h : s.Shows path content) (n : UInt64) :
    content.length.toUInt64 < n ↔ content.length < n.toNat := by
  have := h.length_lt
  rw [UInt64.lt_iff_toNat_lt, toNat_toUInt64 (by omega)]

end Machine

/-- The start of every function on a group: give up without a chunk or after a failed load. -/
def whenLoaded {α : Type} (failure : α) (body : Broker α) : Broker α := do
  if !(← hasChunk) then
    return failure
  if (← chunkLoad) ≠ 0 then
    return failure
  body

/-- A function goes on with the bytes that its load shows. -/
theorem Machine.OnTopic.exec_whenLoaded {s : Machine} {path : Bytes} (h : s.OnTopic path)
    {α : Type} (failure : α) (body : Broker α) :
    ∃ s', s.Kept s' ∧ s'.OnTopic path ∧
      (s.view = none ∧ (whenLoaded failure body).exec s = some (failure, s') ∨
        ∃ v, s.view = some v ∧ s'.Shows path v ∧
          (whenLoaded failure body).exec s = body.exec s') := by
  by_cases hchunk : s.chunk.isSome = true
  swap
  · refine ⟨s, .refl s, h, .inl ⟨?_, ?_⟩⟩
    · rw [Option.not_isSome_iff_eq_none] at hchunk
      simp only [Machine.view, hchunk]
    · simp [whenLoaded, hchunk]
  obtain ⟨s', hkept, ht, hload⟩ := h.exec_chunkLoad
  refine ⟨s', hkept, ht, ?_⟩
  rcases hload with ⟨hv, hload⟩ | ⟨v, hv, hshow, hload⟩
  · refine .inl ⟨hv, ?_⟩
    simp [whenLoaded, hchunk, hload]
  · refine .inr ⟨v, hv, hshow, ?_⟩
    simp [whenLoaded, hchunk, hload]

/-- The program computes a value from what the next load shows, and touches nothing but the
chunk. -/
def Machine.Computes (s : Machine) (path : Bytes) {α : Type} (p : Broker α)
    (f : Option Bytes → α) : Prop :=
  ∃ s', s.Kept s' ∧ s'.OnTopic path ∧ p.exec s = some (f s.view, s')

theorem Machine.OnTopic.computes_pure {s : Machine} {path : Bytes} (h : s.OnTopic path) {α : Type}
    (a : α) : s.Computes path (pure a) fun _ => a :=
  ⟨s, .refl s, h, rfl⟩

/-- A program that computes a value from the bytes that it finds loaded. -/
theorem Machine.OnTopic.computes_whenLoaded {s : Machine} {path : Bytes} (h : s.OnTopic path)
    {α : Type} {failure : α} {body : Broker α} {f : Bytes → α}
    (hbody : ∀ s' v, s'.Shows path v → body.exec s' = some (f v, s')) :
    s.Computes path (whenLoaded failure body) fun view => view.elim failure f := by
  obtain ⟨s', hkept, ht, hload⟩ := h.exec_whenLoaded failure body
  refine ⟨s', hkept, ht, ?_⟩
  rcases hload with ⟨hv, hrun⟩ | ⟨v, hv, hshow, hrun⟩
  · simp only [hrun, hv, Option.elim_none]
  · simp only [hrun, hv, Option.elim_some, hbody s' v hshow]

/-! ### The functions on groups -/

theorem groupHasMoreData_eq (g : Group) : groupHasMoreData g =
    whenLoaded false (do return decide (g.readPointer < (← chunkSize))) := rfl

/-- `group_has_more_data` compares the read pointer with the length that the load shows. -/
theorem Machine.OnTopic.computes_groupHasMoreData {s : Machine} {path : Bytes} (h : s.OnTopic path)
    (g : Group) : s.Computes path (groupHasMoreData g) fun view =>
      view.elim false fun v => decide (g.readPointer.toNat < v.length) := by
  rw [groupHasMoreData_eq]
  refine h.computes_whenLoaded fun s' v hshow => ?_
  have hlt := hshow.length_lt
  simp only [CallProgram.run_bind, hshow.exec_chunkSize, Option.bind_some,
    CallProgram.pure_eq_ret, CallProgram.run_ret, UInt64.lt_iff_toNat_lt,
    toNat_toUInt64 (Nat.lt_trans hlt (by omega))]

/-- The length header at an offset, as far as the bytes reach. -/
def headerAt (content : Bytes) (off : ℕ) : Option UInt32 :=
  if off + 4 ≤ content.length then some (u32OfBytes ((content.drop off).take 4)) else none

/-- What `read_packet_size_header` does when the chunk is loaded. -/
def readHeaderBody (g : Group) : Broker (Option UInt32) := do
  if (← chunkSize) < g.readPointer + packetSizeHeaderSize then
    return none
  let sizeBuffer ← chunkRead packetSizeHeaderSize g.readPointer
  if sizeBuffer.length ≠ packetSizeHeaderSize.toNat then
    return none
  return some (u32OfBytes sizeBuffer)

theorem readPacketSizeHeader_eq (g : Group) :
    readPacketSizeHeader g = whenLoaded none (readHeaderBody g) := rfl

/-- The sum `offset + 4` may wrap, but then the offset lies after the end and nothing is read. -/
theorem Machine.Shows.exec_readHeader {s : Machine} {path v : Bytes} (h : s.Shows path v)
    (off : UInt64) {α : Type} (failure : α) (body : Bytes → Broker α) :
    (do
      if (← chunkSize) < off + packetSizeHeaderSize then
        return failure
      let buffer ← chunkRead packetSizeHeaderSize off
      if buffer.length ≠ packetSizeHeaderSize.toNat then
        return failure
      body buffer : Broker α).exec s =
      if off.toNat + 4 ≤ v.length then (body ((v.drop off.toNat).take 4)).exec s
      else some (failure, s) := by
  have hlt := h.length_lt
  have hsum : (off + packetSizeHeaderSize).toNat = (off.toNat + 4) % 2 ^ 64 := UInt64.toNat_add ..
  have hfour : packetSizeHeaderSize.toNat = 4 := rfl
  simp only [CallProgram.run_bind, h.exec_chunkSize, Option.bind_some, h.lt_size_iff, hsum, hfour]
  have hoff := off.toNat_lt
  by_cases hfit : off.toNat + 4 ≤ v.length
  · have hlen : ((v.drop off.toNat).take 4).length = 4 := by
      rw [List.length_take, List.length_drop]
      omega
    rw [if_pos hfit, if_neg (by omega)]
    simp only [CallProgram.run_bind, h.exec_chunkRead, Option.bind_some, hfour, hlen, ne_eq,
      not_true_eq_false, ↓reduceIte]
  · rw [if_neg hfit]
    split
    · rfl
    · have hlen : ((v.drop off.toNat).take 4).length ≠ 4 := by
        rw [List.length_take, List.length_drop]
        omega
      simp only [CallProgram.run_bind, h.exec_chunkRead, Option.bind_some, hfour, hlen, ne_eq,
        not_false_eq_true, ↓reduceIte, CallProgram.pure_eq_ret, CallProgram.run_ret]

theorem Machine.Shows.exec_readHeaderBody {s : Machine} {path v : Bytes} (h : s.Shows path v)
    (g : Group) :
    (readHeaderBody g).exec s = some (headerAt v g.readPointer.toNat, s) := by
  refine (h.exec_readHeader g.readPointer none fun buffer =>
    (return some (u32OfBytes buffer))).trans ?_
  rw [headerAt]
  split <;> rfl

theorem Machine.OnTopic.exec_readPacketSizeHeader {s : Machine} {path : Bytes}
    (h : s.OnTopic path) (g : Group) :
    ∃ s', s.Kept s' ∧ s'.OnTopic path ∧
      (readPacketSizeHeader g).exec s =
        some (s.view.bind fun v => headerAt v g.readPointer.toNat, s') ∧
      ∀ v, s.view = some v → s'.Shows path v := by
  rw [readPacketSizeHeader_eq]
  obtain ⟨s', hkept, ht, hload⟩ := h.exec_whenLoaded none (readHeaderBody g)
  refine ⟨s', hkept, ht, ?_⟩
  rcases hload with ⟨hv, hrun⟩ | ⟨v, hv, hshow, hrun⟩
  · refine ⟨by rw [hrun, hv, Option.bind_none], fun v hv' => ?_⟩
    rw [hv] at hv'
    cases hv'
  · refine ⟨?_, fun v' hv' => ?_⟩
    · rw [hrun, hv, Option.bind_some, hshow.exec_readHeaderBody]
    · rw [hv] at hv'
      cases hv'
      exact hshow

/-- The packet with the given payload at the read pointer of a group. -/
def packetAt (g : Group) (d : Bytes) : Packet := ⟨d.length.toUInt32, d, g.readPointer⟩

/-- The group after it has consumed a payload. -/
def afterPacket (g : Group) (d : Bytes) : Group :=
  { g with
    readPointer := g.readPointer + (packetSizeHeaderSize + d.length.toUInt32.toUInt64)
    lastReadSize := packetSizeHeaderSize + d.length.toUInt32.toUInt64 }

theorem toNat_toUInt32 {n : ℕ} (h : n < 2 ^ 32) : n.toUInt32.toNat = n := by
  rw [Nat.toUInt32, UInt32.toNat_ofNat']
  exact Nat.mod_eq_of_lt h

theorem lt_of_le_maxPacketSize {n : ℕ} (h : n ≤ maxPacketSize) : n < 2 ^ 24 := by
  have : maxPacketSize < 2 ^ 24 := by decide
  omega

/-- The frame length that the source computes for a payload. -/
theorem toNat_frameSize {n : ℕ} (h : n ≤ maxPacketSize) :
    (packetSizeHeaderSize + n.toUInt32.toUInt64).toNat = 4 + n := by
  have hn := lt_of_le_maxPacketSize h
  have hfour : packetSizeHeaderSize.toNat = 4 := rfl
  rw [UInt64.toNat_add, UInt32.toNat_toUInt64, toNat_toUInt32 (by omega), hfour]
  omega

/-- The read pointer after a packet is the end of its frame. -/
theorem toNat_readPointer_afterPacket {content d : Bytes} {g : Group}
    (hsmall : content.length < 2 ^ 63)
    (h : topicFormat.parseAt content g.readPointer.toNat = some d) :
    (afterPacket g d).readPointer.toNat = g.readPointer.toNat + (4 + d.length) := by
  obtain ⟨-, hvalid, -, hfits⟩ := FrameFormat.parseAt_eq_some_iff.mp h
  rw [topicFormat_headerLen] at hfits
  rw [afterPacket, UInt64.toNat_add, toNat_frameSize hvalid.2]
  omega

/-- Consuming a packet moves the read pointer on. -/
theorem readPointer_lt_afterPacket {content d : Bytes} {g : Group} (hlt : content.length < 2 ^ 63)
    (h : topicFormat.parseAt content g.readPointer.toNat = some d) :
    g.readPointer < (afterPacket g d).readPointer := by
  rw [UInt64.lt_iff_toNat_lt, toNat_readPointer_afterPacket hlt h]
  omega

/-- What `consume_packet` does with the length header. -/
def consumeBody (g : Group) (packetSize : UInt32) : Broker (Option Packet × Group) := do
  if packetSize = 0 ∨ maxPacketSize < packetSize.toNat then
    return (none, g)
  if (← chunkSize) < g.readPointer + packetSizeHeaderSize + packetSize.toUInt64 then
    return (none, g)
  if !(← malloc) then
    return (none, g)
  if !(← malloc) then
    return (none, g)
  let data ← chunkRead packetSize.toUInt64 (g.readPointer + packetSizeHeaderSize)
  if data.length ≠ packetSize.toNat then
    return (none, g)
  return (some ⟨packetSize, data, g.readPointer⟩, { g with
    readPointer := g.readPointer + (packetSizeHeaderSize + packetSize.toUInt64)
    lastReadSize := packetSizeHeaderSize + packetSize.toUInt64 })

/-- What `consume_packet` does when the chunk is loaded for the first time. -/
def consumeLoaded (g : Group) : Broker (Option Packet × Group) := do
  if (← chunkSize) ≤ g.readPointer then
    return (none, g)
  match ← readPacketSizeHeader g with
  | none => return (none, g)
  | some packetSize => consumeBody g packetSize

theorem consumePacket_eq (g : Group) (topic : ℕ) : consumePacket g topic =
    if g.attachedTopic ≠ topic then pure (none, g)
    else whenLoaded (none, g) (consumeLoaded g) := rfl

theorem le_length_of_headerAt {v : Bytes} {off : ℕ} {packetSize : UInt32}
    (h : headerAt v off = some packetSize) : off + 4 ≤ v.length := by
  rw [headerAt] at h
  split at h
  · assumption
  · cases h

/-- Reading a frame whose header has been read. -/
theorem parseAt_of_headerAt {v : Bytes} {off : ℕ} {packetSize : UInt32}
    (h : headerAt v off = some packetSize) : topicFormat.parseAt v off =
      if off + 4 + packetSize.toNat ≤ v.length ∧ 0 < packetSize.toNat ∧
          packetSize.toNat ≤ maxPacketSize then
        some ((v.drop (off + 4)).take packetSize.toNat)
      else none := by
  rw [headerAt] at h
  split at h
  · have hvalue : leNat ((v.drop off).take 4) = packetSize.toNat := by
      rw [← toNat_u32OfBytes, Option.some.inj h]
    simp only [FrameFormat.parseAt, topicFormat_headerLen, topicFormat_value, topicFormat_maxLen,
      hvalue]
  · cases h

/-- Without a header there is no frame. -/
theorem parseAt_of_headerAt_none {v : Bytes} {off : ℕ} (h : headerAt v off = none) :
    topicFormat.parseAt v off = none := by
  rw [headerAt] at h
  split at h
  · cases h
  · rename_i hshort
    rw [FrameFormat.parseAt, topicFormat_headerLen, if_neg]
    omega

/-- A packet and its buffer are allocated, and a program gives up when one of the two fails. -/
theorem Machine.exec_allocations {α : Type} (s : Machine) (failure : α) (body : Broker α) :
    ∃ s', s.Kept s' ∧ (∀ path v, s.Shows path v → s'.Shows path v) ∧
      ((do
          if !(← malloc) then
            return failure
          if !(← malloc) then
            return failure
          body : Broker α).exec s = some (failure, s') ∧ s.faults ≠ [] ∨
        (do
          if !(← malloc) then
            return failure
          if !(← malloc) then
            return failure
          body : Broker α).exec s = body.exec s') := by
  cases ha : s.outcome.alloc with
  | false =>
    refine ⟨s.next, kept_next s, fun _ _ h => h.next, .inl ⟨?_, fun hf => ?_⟩⟩
    · simp only [CallProgram.run_bind, Broker.exec_malloc, ha, Option.bind_some, Bool.not_false,
        ↓reduceIte, CallProgram.pure_eq_ret, CallProgram.run_ret]
    · rw [outcome_of_faults hf] at ha
      cases ha
  | true =>
    cases hb : s.next.outcome.alloc with
    | false =>
      refine ⟨s.next.next, (kept_next s).trans (kept_next _), fun _ _ h => h.next.next,
        .inl ⟨?_, fun hf => ?_⟩⟩
      · simp only [CallProgram.run_bind, Broker.exec_malloc, ha, hb, Option.bind_some,
          Bool.not_true, Bool.not_false, Bool.false_eq_true, ↓reduceIte, CallProgram.pure_eq_ret,
          CallProgram.run_ret]
      · rw [outcome_of_faults ((kept_next s).faults hf)] at hb
        cases hb
    | true =>
      refine ⟨s.next.next, (kept_next s).trans (kept_next _), fun _ _ h => h.next.next, .inr ?_⟩
      simp only [CallProgram.run_bind, Broker.exec_malloc, ha, hb, Option.bind_some,
        Bool.not_true, Bool.false_eq_true, ↓reduceIte]

/-- With the length header in hand, a packet is returned exactly when the data holds the frame. -/
theorem Machine.Shows.exec_consumeBody {s : Machine} {path v : Bytes} (h : s.Shows path v)
    (g : Group) {packetSize : UInt32}
    (hhead : headerAt v g.readPointer.toNat = some packetSize) :
    ∃ r s', (consumeBody g packetSize).exec s = some (r, s') ∧ s.Kept s' ∧ s'.OnTopic path ∧
      (r = (none, g) ∧
          (s.faults = [] → topicFormat.parseAt v g.readPointer.toNat = none) ∨
        ∃ d, topicFormat.parseAt v g.readPointer.toNat = some d ∧
          r = (some (packetAt g d), afterPacket g d)) := by
  have hlt := h.length_lt
  rw [parseAt_of_headerAt hhead, consumeBody]
  by_cases hsize : packetSize = 0 ∨ maxPacketSize < packetSize.toNat
  · refine ⟨(none, g), s, ?_, .refl s, h.onTopic, .inl ⟨rfl, fun _ => if_neg ?_⟩⟩
    · simp only [hsize, ↓reduceIte, CallProgram.pure_eq_ret, CallProgram.run_ret]
    · rintro ⟨-, hpos, hmax⟩
      rcases hsize with rfl | hsize
      · exact Nat.lt_irrefl 0 hpos
      · omega
  obtain ⟨hzero, hmax⟩ := not_or.mp hsize
  have hpos : 0 < packetSize.toNat := Nat.pos_iff_ne_zero.mpr fun h0 =>
    hzero (UInt32.toNat_inj.mp h0)
  have hsmall := lt_of_le_maxPacketSize (Nat.le_of_not_lt hmax)
  have hfour : packetSizeHeaderSize.toNat = 4 := rfl
  have hfit := le_length_of_headerAt hhead
  have hoff : (g.readPointer + packetSizeHeaderSize).toNat = g.readPointer.toNat + 4 := by
    rw [UInt64.toNat_add, hfour]
    omega
  have hend : (g.readPointer + packetSizeHeaderSize + packetSize.toUInt64).toNat =
      g.readPointer.toNat + 4 + packetSize.toNat := by
    rw [UInt64.toNat_add, hoff, UInt32.toNat_toUInt64]
    omega
  rw [if_neg hsize]
  simp only [CallProgram.run_bind perform chunkSize, h.exec_chunkSize, Option.bind_some,
    h.lt_size_iff, hend]
  by_cases hfull : v.length < g.readPointer.toNat + 4 + packetSize.toNat
  · refine ⟨(none, g), s, ?_, .refl s, h.onTopic, .inl ⟨rfl, fun _ => if_neg fun hall => ?_⟩⟩
    · simp only [hfull, ↓reduceIte, CallProgram.pure_eq_ret, CallProgram.run_ret]
    · exact Nat.not_le_of_lt hfull hall.1
  rw [if_neg hfull, if_pos ⟨Nat.le_of_not_lt hfull, hpos, Nat.le_of_not_lt hmax⟩]
  -- The allocations come after the checks, and the read cannot fall short.
  obtain ⟨s₁, hkept, hshow, ⟨hrun, hfaults⟩ | hrun⟩ := s.exec_allocations (none, g) (do
    let data ← chunkRead packetSize.toUInt64 (g.readPointer + packetSizeHeaderSize)
    if data.length ≠ packetSize.toNat then
      return (none, g)
    return (some (⟨packetSize, data, g.readPointer⟩ : Packet), { g with
      readPointer := g.readPointer + (packetSizeHeaderSize + packetSize.toUInt64)
      lastReadSize := packetSizeHeaderSize + packetSize.toUInt64 }))
  · exact ⟨_, s₁, hrun, hkept, (hshow path v h).onTopic,
      .inl ⟨rfl, fun hf => absurd hf hfaults⟩⟩
  refine ⟨_, s₁, hrun.trans ?_, hkept, (hshow path v h).onTopic, .inr ⟨_, rfl, rfl⟩⟩
  have hlen : ((v.drop (g.readPointer.toNat + 4)).take packetSize.toNat).length =
      packetSize.toNat := by
    rw [List.length_take, List.length_drop]
    omega
  have hback : packetSize.toNat.toUInt32 = packetSize := UInt32.ofNat_toNat
  simp only [CallProgram.run_bind, (hshow path v h).exec_chunkRead, Option.bind_some, hoff,
    UInt32.toNat_toUInt64, hlen, ne_eq, not_true_eq_false, ↓reduceIte, CallProgram.pure_eq_ret,
    CallProgram.run_ret, packetAt, afterPacket, hback]

/-- `consume_packet` returns the packet at the read pointer and moves past it, or returns nothing
and leaves the group as it was. Without faults it returns a packet whenever there is one. -/
theorem Machine.OnTopic.exec_consumePacket {s : Machine} {path : Bytes} (h : s.OnTopic path)
    {g : Group} {topic : ℕ} (htopic : g.attachedTopic = topic) :
    ∃ r s', (consumePacket g topic).exec s = some (r, s') ∧ s.Kept s' ∧ s'.OnTopic path ∧
      (r = (none, g) ∧ (∀ content, s.Ready path content →
          topicFormat.parseAt content g.readPointer.toNat = none) ∨
        ∃ d, topicFormat.parseAt ((s.fs.read path).getD []) g.readPointer.toNat = some d ∧
          ((s.fs.read path).getD []).length < 2 ^ 63 ∧
          r = (some (packetAt g d), afterPacket g d)) := by
  rw [consumePacket_eq, if_neg (not_not.mpr htopic)]
  obtain ⟨s₁, hkept₁, ht₁, hload⟩ := h.exec_whenLoaded (none, g) (consumeLoaded g)
  rcases hload with ⟨hv, hrun⟩ | ⟨v, hv, hshow, hrun⟩
  · refine ⟨_, s₁, hrun, hkept₁, ht₁, .inl ⟨rfl, fun content hready => ?_⟩⟩
    rw [hready.view_eq] at hv
    cases hv
  rw [hrun, consumeLoaded]
  have hlt := hshow.length_lt
  have hready (content : Bytes) (hs : s.Ready path content) : v = content := by
    rw [hs.view_eq] at hv
    exact (Option.some.inj hv).symm
  by_cases hend : v.length ≤ g.readPointer.toNat
  · refine ⟨(none, g), s₁, ?_, hkept₁, ht₁, .inl ⟨rfl, fun content hs => ?_⟩⟩
    · simp only [CallProgram.run_bind, hshow.exec_chunkSize, Option.bind_some,
        UInt64.le_iff_toNat_le, toNat_toUInt64 (Nat.lt_trans hlt (by omega)), hend, ↓reduceIte,
        CallProgram.pure_eq_ret, CallProgram.run_ret]
    · rw [← hready content hs]
      exact FrameFormat.parseAt_of_length_le hend
  simp only [CallProgram.run_bind, hshow.exec_chunkSize, Option.bind_some, UInt64.le_iff_toNat_le,
    toNat_toUInt64 (Nat.lt_trans hlt (by omega)), hend, ↓reduceIte]
  -- The header is read after a second load, which may show less than the first.
  obtain ⟨s₂, hkept₂, ht₂, hhead, hshow₂⟩ := ht₁.exec_readPacketSizeHeader g
  simp only [hhead, Option.bind_some]
  have hready₂ (content : Bytes) (hs : s.Ready path content) : s₁.view = some content :=
    (hs.of_shows hkept₁ hshow).view_eq
  cases hsize : s₁.view.bind fun v => headerAt v g.readPointer.toNat with
  | none =>
    refine ⟨(none, g), s₂, rfl, hkept₁.trans hkept₂, ht₂, .inl ⟨rfl, fun content hs => ?_⟩⟩
    rw [hready₂ content hs, Option.bind_some] at hsize
    exact parseAt_of_headerAt_none hsize
  | some packetSize =>
    obtain ⟨w, hw, hpacket⟩ := Option.bind_eq_some_iff.mp hsize
    obtain ⟨r, s₃, hbody, hkept₃, ht₃, hcases⟩ := (hshow₂ w hw).exec_consumeBody g hpacket
    refine ⟨r, s₃, hbody, (hkept₁.trans hkept₂).trans hkept₃, ht₃, ?_⟩
    rcases hcases with ⟨rfl, hnone⟩ | ⟨d, hd, rfl⟩
    · refine .inl ⟨rfl, fun content hs => ?_⟩
      have := hready₂ content hs
      rw [hw] at this
      rw [← Option.some.inj this]
      exact hnone ((hkept₁.trans hkept₂).faults hs.faults)
    · have hw' : w = (s.fs.read path).getD [] := by
        rcases ht₁.view_eq hw with rfl | ⟨rfl, -⟩
        · rw [hkept₁.fs]
        · rw [FrameFormat.parseAt_of_length_le (by simp)] at hd
          cases hd
      exact .inr ⟨d, hw' ▸ hd, hw' ▸ (hshow₂ w hw).length_lt, rfl⟩

end SuparnaD
