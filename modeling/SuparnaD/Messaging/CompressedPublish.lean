import SuparnaD.Messaging.AckAgreement
import SuparnaD.Messaging.DecoderAgreement
import SuparnaD.Messaging.TopicWriting
import SuparnaD.Writer.ChunkGrowth

/-!
# From compressed publishing to decoding

`publish_event_compressed` checks the length of the data, and `publish_event` checks the length of
what compression makes of them against the same limit. An event that fits is stored, consumed and
decoded as it was; but compression may lengthen an event, and then the second check may refuse what
the first has let through.

## Main definitions

* `Machine.CanHold` : the chunk has room for a number of bytes.
* `ZstdDecoder.Undoes` : what is known of the library.
* `CompressedTransparent`.

## Main results

* `Machine.Logs.exec_publishEvent_iff` : when `publish_event` succeeds.
* `compressedTransparent_iff`.
-/

namespace SuparnaD

open Broker

/-! ### When publishing succeeds -/

namespace Machine

/-- The chunk of the topic can grow to a number of bytes. -/
def CanHold (s : Machine) (n : ℕ) : Prop := ∃ c, s.chunk = some c ∧ c.CanHold n

variable {s s' : Machine} {path content : Bytes} {l : DeltaLog UInt8} {d data : Bytes}

theorem canHold_iff {c : Chunk} (hs : s.chunk = some c) (n : ℕ) : s.CanHold n ↔ c.CanHold n := by
  rw [CanHold, hs]
  simp only [Option.some.injEq, exists_eq_left']

theorem Logs.exec_chunkAppend_iff (h : s.Logs path l) (hfaults : s.faults = []) (hne : data ≠ [])
    (hdata : data.length < 2 ^ 63) :
    (∃ s', (chunkAppend data).exec s = some (0, s')) ↔
      s.CanHold (l.shown.length + data.length) := by
  obtain ⟨c, hs, -, hc⟩ := h
  have halloc : s.outcome.alloc = true := by
    rw [outcome_of_faults hfaults]
    rfl
  rw [canHold_iff hs, ← hc.size_eq, ← Writer.chunkAppend_iff hc halloc hne hdata,
    Broker.exec_chunkAppend hs]
  simp only [Option.map_eq_some_iff, Prod.mk.injEq, Prod.exists]
  constructor
  · rintro ⟨s', r, c', hrun, rfl, -⟩
    exact ⟨c', hrun⟩
  · rintro ⟨c', hrun⟩
    exact ⟨_, 0, c', hrun, rfl, rfl⟩

/-- An append does not change what the chunk can hold. -/
theorem Logs.canHold_append (h : s.Logs path l) (hdata : data.length < 2 ^ 63)
    (hrun : (chunkAppend data).exec s = some (0, s')) (n : ℕ) : s'.CanHold n ↔ s.CanHold n := by
  obtain ⟨c, hs, -, hc⟩ := h
  rw [Broker.exec_chunkAppend hs, Option.map_eq_some_iff] at hrun
  obtain ⟨⟨r, c'⟩, hrun, heq⟩ := hrun
  obtain ⟨rfl, rfl⟩ := Prod.mk.inj heq
  rw [canHold_iff hs, ← Writer.canHold_append hc hdata hrun n]
  exact canHold_iff rfl n

theorem CanHold.mono {m n : ℕ} (h : s.CanHold n) (hmn : m ≤ n) : s.CanHold m := by
  obtain ⟨c, hs, hc⟩ := h
  exact ⟨c, hs, hc.mono hmn⟩

/-- Without faults an event is appended exactly when its frame fits. -/
theorem Logs.exec_appendEvent_iff (h : s.Logs path l) (hfaults : s.faults = [])
    (hd : topicFormat.Valid d) :
    (∃ s', (appendEvent d).exec s = some (0, s')) ↔
      s.CanHold (l.shown.length + (4 + d.length)) := by
  have hheader : (eventHeader d).length < 2 ^ 63 := by
    rw [length_eventHeader]
    decide
  have hnil : d ≠ [] := List.length_pos_iff.mp hd.1
  have hbody (s₁ : Machine) (hhead : (chunkAppend (eventHeader d)).exec s = some (0, s₁)) :
      (∃ s', (chunkAppend d).exec s₁ = some (0, s')) ↔
        s.CanHold (l.shown.length + (4 + d.length)) := by
    obtain ⟨hkept, ⟨-, hlog⟩ | ⟨hneg, -⟩⟩ :=
      h.exec_chunkAppend hheader (eventHeader_ne_nil d) hhead
    swap
    · cases hneg
    rw [hlog.exec_chunkAppend_iff (hkept.faults hfaults) hnil (length_lt_of_valid hd),
      h.canHold_append hheader hhead, DeltaLog.shown_append, List.length_append,
      length_eventHeader, Nat.add_assoc]
  constructor
  · rintro ⟨s', hrun⟩
    obtain ⟨r₁, s₁, hhead, hrun⟩ := CallProgram.run_bind_eq_some_iff.mp hrun
    obtain ⟨hr₁, hrun⟩ := (CallProgram.run_unless_eq_some_iff (by omega)).mp hrun
    obtain rfl := not_not.mp hr₁
    obtain ⟨r₂, s₂, hlast, hrun⟩ := CallProgram.run_bind_eq_some_iff.mp hrun
    obtain ⟨hr₂, -⟩ := (CallProgram.run_unless_eq_some_iff (by omega)).mp hrun
    obtain rfl := not_not.mp hr₂
    exact (hbody s₁ hhead).mp ⟨s₂, hlast⟩
  · intro hfits
    obtain ⟨s₁, hhead⟩ := (h.exec_chunkAppend_iff hfaults (eventHeader_ne_nil d) hheader).mpr
      (hfits.mono (by rw [length_eventHeader]; omega))
    obtain ⟨s₂, hlast⟩ := (hbody s₁ hhead).mpr hfits
    refine ⟨s₂, CallProgram.run_bind_eq_some_iff.mpr ⟨0, s₁, hhead, ?_⟩⟩
    exact CallProgram.run_bind_eq_some_iff.mpr ⟨0, s₂, hlast, rfl⟩

/-- Without faults `publish_event` succeeds exactly for the events whose frames fit. -/
theorem Logs.exec_publishEvent_iff (h : s.Logs path l) (hfaults : s.faults = []) :
    (∃ s', (publishEvent (some d)).exec s = some (0, s')) ↔
      topicFormat.Valid d ∧ s.CanHold (l.shown.length + (4 + d.length)) := by
  have hchunk : hasChunk.exec s = some (true, s) := by
    obtain ⟨c, hs, -⟩ := h
    rw [exec_hasChunk, hs, Option.isSome_some]
  rw [publishEvent]
  by_cases hd : topicFormat.Valid d
  swap
  · refine iff_of_false ?_ fun h => hd h.1
    rintro ⟨s', hrun⟩
    obtain ⟨hzero, hrun⟩ := (CallProgram.run_unless_eq_some_iff (by omega)).mp hrun
    obtain ⟨hlong, -⟩ := (CallProgram.run_unless_eq_some_iff (by omega)).mp hrun
    exact hd (valid_iff.mpr (not_or.mpr ⟨hzero, hlong⟩))
  obtain ⟨hzero, hlong⟩ := not_or.mp (valid_iff.mp hd)
  rw [if_neg hzero, if_neg hlong, and_iff_right hd, ← h.exec_appendEvent_iff hfaults hd]
  constructor
  · rintro ⟨s', hrun⟩
    obtain ⟨b, s₀, hb, hrun⟩ := CallProgram.run_bind_eq_some_iff.mp hrun
    obtain ⟨rfl, rfl⟩ := Prod.mk.inj (Option.some.inj (hchunk.symm.trans hb))
    obtain ⟨r₁, s₁, happend, hrun⟩ := CallProgram.run_bind_eq_some_iff.mp hrun
    obtain ⟨hr₁, -⟩ := (CallProgram.run_unless_eq_some_iff (by omega)).mp hrun
    exact ⟨s₁, not_not.mp hr₁ ▸ happend⟩
  · rintro ⟨s₁, happend⟩
    obtain ⟨hkept, ⟨-, hlog⟩ | ⟨hneg, -⟩ | ⟨hneg, -⟩⟩ := h.exec_appendEvent hd happend
    · obtain ⟨r, s₂, count, hsave, -, -, -, ⟨rfl, -⟩ | ⟨-, hfaulty, -⟩⟩ := hlog.exec_chunkSaveDelta
      · refine ⟨s₂, CallProgram.run_bind_eq_some_iff.mpr ⟨true, s, hchunk, ?_⟩⟩
        refine CallProgram.run_bind_eq_some_iff.mpr ⟨0, s₁, happend, ?_⟩
        exact CallProgram.run_bind_eq_some_iff.mpr ⟨0, s₂, hsave, rfl⟩
      · exact absurd (hkept.faults hfaults) hfaulty
    · cases hneg
    · cases hneg

/-- A published event follows what was in the file. -/
theorem Logs.exec_publishEvent_file (h : s.Logs path l) (hsaved : l.pending = [])
    (hfile : s.fs.read path = some content) (hfaults : s.faults = [])
    (hrun : (publishEvent (some d)).exec s = some (0, s')) :
    s'.OnTopic path ∧ s'.chunk.isSome = true ∧ s'.faults = [] ∧
      s'.fs.read path = some (content ++ topicFormat.frame d) := by
  rcases exec_publishEvent hrun with ⟨hne, -⟩ | ⟨-, hloop⟩
  · exact absurd rfl hne
  rcases h.exec_publishBatchLoop hloop with ⟨-, ds, hds, -, hwrote, hlog⟩ | ⟨hneg, -⟩
  swap
  · cases hneg
  obtain rfl : ds = [d] := by
    cases ds with
    | nil => cases hds
    | cons e es =>
      obtain ⟨he, hes⟩ := List.cons.inj hds
      rw [← Option.some.inj he, List.map_eq_nil_iff.mp hes.symm]
  obtain ⟨content', hcontent⟩ := Option.isSome_iff_exists.mp (hwrote.isSome (by rw [hfile]; rfl))
  have hwritten := hwrote.file
  rw [Machine.file, Machine.file, hcontent, hfile, hsaved, List.nil_append,
    FrameFormat.stream_cons, FrameFormat.stream_nil, List.append_nil] at hwritten
  refine ⟨hlog.onTopic, ?_, hwrote.faults hfaults, hcontent.trans (congrArg some hwritten)⟩
  obtain ⟨c, hs, -⟩ := hlog
  rw [hs, Option.isSome_some]

end Machine

/-! ### The whole way -/

/-- What is known of the library: compression into a buffer of `ZSTD_compressBound` bytes does not
fail, and it makes a frame that records the size of its content and is decompressed into it. -/
structure ZstdDecoder.Undoes (decoder : ZstdDecoder) (zstd : Zstd) : Prop where
  compresses : ∀ (d : Bytes) (level : ℤ), d.length ≤ maxEventSize →
    (zstd.compress (zstd.compressBound d.length) d level).isSome = true
  ne_nil : ∀ (d : Bytes) (level : ℤ) (c : Bytes), d.length ≤ maxEventSize →
    zstd.compress (zstd.compressBound d.length) d level = some c → c ≠ []
  recorded : ∀ (d : Bytes) (level : ℤ) (c : Bytes), d.length ≤ maxEventSize →
    zstd.compress (zstd.compressBound d.length) d level = some c →
    decoder.getFrameContentSize c = d.length.toUInt64
  decompresses : ∀ (d : Bytes) (level : ℤ) (c : Bytes), d.length ≤ maxEventSize →
    zstd.compress (zstd.compressBound d.length) d level = some c →
    decoder.decompress d.length.toUInt64 c = some d

/-- `publish_event_compressed` returns `0`, and then `consume_packet` and `decode_string` give the
data back, with a zero after them. -/
def CompressedTransparent (zstd : Zstd) (decoder : ZstdDecoder) (memory : FreshMemory)
    (s : Machine) (data : Bytes) (compressionLevel : ℤ) (g : Group) (topic : ℕ) : Prop :=
  ∃ s₁ p g' s₂ r s₃,
    (publishEventCompressed zstd (some data) compressionLevel).exec s = some (0, s₁) ∧
      (consumePacket g topic).exec s₁ = some ((some p, g'), s₂) ∧
      (decodeString decoder memory p.data).exec s₂ = some (r, s₃) ∧ r.Gives data

variable {zstd : Zstd} {decoder : ZstdDecoder} {memory : FreshMemory} {s s' : Machine}
  {path content data compressed : Bytes} {l : DeltaLog UInt8} {compressionLevel : ℤ} {g : Group}
  {topic : ℕ}

/-- With memory, compressed publishing is publishing of the compressed data. -/
theorem exec_publishEventCompressed_eq (hfaults : s.faults = []) (hdata : topicFormat.Valid data)
    (hcode : zstd.encode data compressionLevel = some compressed) :
    (publishEventCompressed zstd (some data) compressionLevel).exec s =
      (publishEvent (some compressed)).exec s := by
  obtain ⟨hzero, hlong⟩ := not_or.mp (valid_iff.mp hdata)
  have hnext : s.next = s := by rw [Machine.next, hfaults, List.tail_nil, ← hfaults]
  rw [publishEventCompressed, if_neg hzero, if_neg hlong, encodeString_eq zstd hzero]
  simp only [CallProgram.run_bind, Machine.exec_malloc_ok hfaults, Option.bind_some, Bool.not_true,
    Bool.false_eq_true, ↓reduceIte, hcode, CallProgram.pure_eq_ret, CallProgram.run_ret, ne_eq,
    not_true_eq_false, hnext]

/-- A packet with compressed data is decoded into the data. -/
theorem ZstdDecoder.Undoes.exec_decodeString (hzstd : decoder.Undoes zstd)
    (hdata : data.length ≤ maxEventSize)
    (hcode : zstd.encode data compressionLevel = some compressed) (hfaults : s.faults = []) :
    ∃ r s', (decodeString decoder memory compressed).exec s = some (r, s') ∧ r.Gives data := by
  have hmax : maxEventSize = 10485760 := rfl
  have hsize : data.length.toUInt64.toNat = data.length := toNat_toUInt64 (by omega)
  have hcontent := hzstd.recorded data _ compressed hdata hcode
  have hknown : data.length.toUInt64 ≠ contentSizeUnknown := by
    intro h
    have := congrArg UInt64.toNat h
    rw [hsize, contentSizeUnknown_toNat] at this
    omega
  have herror : data.length.toUInt64 ≠ contentSizeError := by
    intro h
    have herr : contentSizeError.toNat = 2 ^ 64 - 2 := rfl
    have := congrArg UInt64.toNat h
    rw [hsize, herr] at this
    omega
  refine ⟨_, _, exec_decodeString_known memory hfaults (hzstd.ne_nil data _ compressed hdata hcode)
    (hcontent ▸ herror) (hcontent ▸ hknown), ?_⟩
  rw [hcontent, hzstd.decompresses data _ compressed hdata hcode]
  exact gives_terminated_block memory hknown (Nat.le_of_eq hsize.symm)

/-- Compressed publishing on a topic that could take the data themselves is transparent exactly when
the compressed data are no longer than an event may be, and chunk and file have room for them. -/
theorem compressedTransparent_iff (hzstd : decoder.Undoes zstd) (hlog : s.Logs path l)
    (hsaved : l.pending = []) (hfile : s.fs.read path = some content) (hfaults : s.faults = [])
    (htopic : g.attachedTopic = topic) (hend : g.readPointer.toNat = content.length)
    (hpublish : ∃ s', (publishEvent (some data)).exec s = some (0, s')) :
    CompressedTransparent zstd decoder memory s data compressionLevel g topic ↔
      ∃ compressed, zstd.encode data compressionLevel = some compressed ∧
        compressed.length ≤ maxEventSize ∧
        s.CanHold (l.shown.length + (4 + compressed.length)) ∧
        content.length + (4 + compressed.length) < 2 ^ 63 := by
  have hvalid := ((hlog.exec_publishEvent_iff hfaults).mp hpublish).1
  obtain ⟨compressed, hcode⟩ := Option.isSome_iff_exists.mp
    (hzstd.compresses data (zstd.levelFor compressionLevel) hvalid.2)
  have hcode' : zstd.encode data compressionLevel = some compressed := hcode
  have hpos := List.length_pos_iff.mpr (hzstd.ne_nil data _ compressed hvalid.2 hcode)
  have hiff := hlog.exec_publishEvent_iff (d := compressed) hfaults
  have hlength : (content ++ topicFormat.frame compressed).length =
      content.length + (4 + compressed.length) := by
    rw [List.length_append, FrameFormat.length_frame, topicFormat_headerLen]
  rw [CompressedTransparent, exec_publishEventCompressed_eq hfaults hvalid hcode', hcode']
  simp only [Option.some.injEq, exists_eq_left']
  constructor
  · rintro ⟨s₁, p, g', s₂, r, s₃, hrun, hconsume, -⟩
    obtain ⟨hvalid', hfits⟩ := hiff.mp ⟨s₁, hrun⟩
    refine ⟨hvalid'.2, hfits, ?_⟩
    obtain ⟨honTopic, -, -, hread⟩ := hlog.exec_publishEvent_file hsaved hfile hfaults hrun
    obtain ⟨r', s₂', hconsume', -, -, ⟨rfl, -⟩ | ⟨d, -, hsmall, -⟩⟩ :=
      honTopic.exec_consumePacket htopic
    · cases hconsume.symm.trans hconsume'
    · rw [hread, Option.getD_some, hlength] at hsmall
      exact hsmall
  · rintro ⟨hle, hfits, hsmall⟩
    obtain ⟨s₁, hrun⟩ := hiff.mpr ⟨⟨hpos, hle⟩, hfits⟩
    obtain ⟨honTopic, hchunk, hfaults₁, hread⟩ :=
      hlog.exec_publishEvent_file hsaved hfile hfaults hrun
    have hcontent : s₁.file path = content ++ topicFormat.frame compressed := by
      rw [Machine.file, hread, Option.getD_some]
    have hsteady : s₁.Steady path :=
      ⟨honTopic, hchunk, hfaults₁, by rw [hcontent, hlength]; exact hsmall⟩
    have hparse : topicFormat.parseAt (s₁.file path) g.readPointer.toNat = some compressed := by
      rw [hcontent, hend, ← List.append_nil (content ++ topicFormat.frame compressed)]
      exact FrameFormat.parseAt_append ⟨hpos, hle⟩ content []
    obtain ⟨s₂, hsteady₂, -, -, hconsume⟩ := hsteady.exec_consumePacket htopic
    rw [hparse] at hconsume
    obtain ⟨r, s₃, hdecode, hgives⟩ :=
      hzstd.exec_decodeString hvalid.2 hcode' hsteady₂.faults
    exact ⟨s₁, _, _, s₂, r, s₃, hrun, hconsume, hdecode, hgives⟩

/-! ### Data that cannot be compressed -/

/-- A library that stores the data as they are. -/
def rawZstd : Zstd where
  maxCLevel := 22
  compressBound n := n + n / 256 + (131072 - n) / 2048
  compress n d _ :=
    if (rawHeader d.length ++ rawBlock d).length ≤ n then some (rawHeader d.length ++ rawBlock d)
    else none

theorem length_rawFrame (d : Bytes) : (rawHeader d.length ++ rawBlock d).length =
    if d.length < 256 then d.length + 9 else d.length + 12 := by
  simp only [rawHeader, rawBlock, frameMagic, List.length_append, List.length_take,
    length_u32Bytes]
  split <;> simp <;> omega

theorem rawZstd_compress (d : Bytes) (level : ℤ) : rawZstd.compress
    (rawZstd.compressBound d.length) d level = some (rawHeader d.length ++ rawBlock d) := by
  refine if_pos ?_
  rw [length_rawFrame, rawZstd]
  dsimp only
  split <;> omega

theorem rawContent_frame (d : Bytes) : rawContent (rawHeader d.length ++ rawBlock d) = d := by
  rw [rawHeader]
  split
  · rfl
  · rfl

theorem rawDecoder_decompress {n : UInt64} {d : Bytes} (hfits : (rawContent d).length ≤ n.toNat) :
    rawDecoder.decompress n d = some (rawContent d) :=
  if_pos hfits

theorem rawDecoder_recorded {d : Bytes} (hd : d.length ≤ maxEventSize) :
    rawDecoder.getFrameContentSize (rawHeader d.length ++ rawBlock d) = d.length.toUInt64 := by
  have hmax : maxEventSize = 10485760 := rfl
  rw [← UInt64.toNat_inj, toNat_toUInt64 (by omega)]
  by_cases hshort : d.length < 256
  · have hsize : rawDecoder.getFrameContentSize (rawHeader d.length ++ rawBlock d) =
        d.length.toUInt8.toUInt64 := by
      rw [rawHeader, if_pos hshort]
      rfl
    rw [hsize, UInt8.toNat_toUInt64, Nat.toUInt8, UInt8.toNat_ofNat']
    omega
  · have hsize : rawDecoder.getFrameContentSize (rawHeader d.length ++ rawBlock d) =
        (u32OfBytes (u32Bytes d.length.toUInt32 ++ [])).toUInt64 := by
      rw [rawHeader, if_neg hshort]
      rfl
    rw [hsize, UInt32.toNat_toUInt64, toNat_u32OfBytes, leNat_u32Bytes, toNat_toUInt32 (by omega)]

theorem rawDecoder_undoes : rawDecoder.Undoes rawZstd where
  compresses d level _ := by rw [rawZstd_compress, Option.isSome_some]
  ne_nil d level c _ hc := by
    rw [rawZstd_compress] at hc
    obtain rfl := Option.some.inj hc
    exact List.cons_ne_nil _ _
  recorded d level c hd hc := by
    rw [rawZstd_compress] at hc
    obtain rfl := Option.some.inj hc
    exact rawDecoder_recorded hd
  decompresses d level c hd hc := by
    rw [rawZstd_compress] at hc
    obtain rfl := Option.some.inj hc
    have hmax : maxEventSize = 10485760 := rfl
    have hsize : d.length.toUInt64.toNat = d.length := toNat_toUInt64 (by omega)
    have hfits : (rawContent (rawHeader d.length ++ rawBlock d)).length ≤
        d.length.toUInt64.toNat := by
      rw [rawContent_frame]
      exact Nat.le_of_eq hsize.symm
    rw [rawDecoder_decompress hfits, rawContent_frame]

/-- An empty topic. -/
def emptyTopic : Machine := Machine.ofFile (ascii "t") []

theorem emptyTopic_logs : emptyTopic.Logs (ascii "t") (.load []) :=
  ⟨_, rfl, rfl, (Writer.chunkInit_represents (o := .ok) rfl).2⟩

theorem emptyTopic_canHold {n : ℕ} (hn : n ≤ 2 ^ 62) : emptyTopic.CanHold n :=
  ⟨_, rfl, 52, hn, by decide⟩

theorem compressedTransparent_iff_sample :
    CompressedTransparent rawZstd rawDecoder .ones emptyTopic [97] (-5) ⟨ascii "g", 0, 0, 0⟩ 0 ↔
      ∃ compressed, rawZstd.encode [97] (-5) = some compressed ∧
        compressed.length ≤ maxEventSize ∧ emptyTopic.CanHold (0 + (4 + compressed.length)) ∧
        0 + (4 + compressed.length) < 2 ^ 63 :=
  compressedTransparent_iff rawDecoder_undoes emptyTopic_logs rfl
    (FileSystem.read_ofFile (ascii "t") []) rfl rfl rfl ⟨_, rfl⟩

/-- An event of the greatest length. -/
def longEvent : Bytes := List.replicate maxEventSize 0

/-- It can be published, but stored as a frame it is longer than an event may be. -/
theorem not_compressedTransparent_longEvent :
    (∃ s', (publishEvent (some longEvent)).exec emptyTopic = some (0, s')) ∧
      ¬ CompressedTransparent rawZstd rawDecoder .ones emptyTopic longEvent 3
        ⟨ascii "g", 0, 0, 0⟩ 0 := by
  have hlen : longEvent.length = maxEventSize := List.length_replicate
  have hmax : maxEventSize = 10485760 := rfl
  have hvalid : topicFormat.Valid longEvent := ⟨by omega, Nat.le_of_eq hlen⟩
  constructor
  · refine (emptyTopic_logs.exec_publishEvent_iff rfl).mpr ⟨hvalid, emptyTopic_canHold ?_⟩
    rw [hlen, DeltaLog.shown_load, List.length_nil]
    decide
  · rintro ⟨s₁, p, g', s₂, r, s₃, hrun, -⟩
    rw [exec_publishEventCompressed_eq rfl hvalid (rawZstd_compress longEvent _)] at hrun
    have hfits := ((emptyTopic_logs.exec_publishEvent_iff rfl).mp ⟨s₁, hrun⟩).1.2
    rw [length_rawFrame, hlen, if_neg (by omega)] at hfits
    exact absurd hfits (by decide)

end SuparnaD
