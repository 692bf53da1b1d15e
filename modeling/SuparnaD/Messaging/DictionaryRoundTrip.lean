import SuparnaD.Messaging.CompressedPublish
import SuparnaD.Messaging.DictionaryRuns

/-!
# Dictionaries shared through a file

A producer saves a dictionary and compresses with it. A consumer fetches the dictionary and decodes
with `decode_string_with_dict`. What is known of the Zstd library is that a context with the
dictionary undoes what a context with the same dictionary has done. A dictionary that is only loaded
for compression may still be one that the library refuses, so nothing is known of it.

## Main definitions

* `ZstdDecoder.UndoesWith` : what is known of the library.
* `ZstdDecoder.DecodesTo` : what a frame is decoded to.

## Main results

* `decodesTo_of_encodes` : decoding with the dictionary of the encoder.
* `EncoderState.decodes_fetched` : decoding with the dictionary from the file.
-/

namespace SuparnaD

open Broker CallProgram

/-- What is known of the library: what a context with a dictionary has compressed is a frame that
records the size of its content, and a context with the same dictionary decompresses it into any
buffer that is long enough. A dictionary with which a context has compressed can be loaded for
decompression. -/
structure ZstdDecoder.UndoesWith (decoder : ZstdDecoder) (zstd : ZstdContexts) : Prop where
  loads : ∀ {d level data out}, zstd.compress2 (some d) level
    (zstd.compressBound data.length) data = some out → decoder.loadDictionary d = true
  ne_nil : ∀ {dictionary level data out}, zstd.compress2 dictionary level
    (zstd.compressBound data.length) data = some out → out ≠ []
  recorded : ∀ {dictionary level data out}, zstd.compress2 dictionary level
    (zstd.compressBound data.length) data = some out → data.length < 2 ^ 63 →
      decoder.getFrameContentSize out = data.length.toUInt64
  decompresses : ∀ {dictionary level data out}, zstd.compress2 dictionary level
    (zstd.compressBound data.length) data = some out → ∀ n : UInt64, data.length ≤ n.toNat →
      decoder.decompressDCtx dictionary n out = some data

variable {decoder : ZstdDecoder} {zstd : ZstdContexts}

theorem toUInt64_ne_contentSizes {n : ℕ} (hn : n < 2 ^ 63) :
    n.toUInt64 ≠ contentSizeError ∧ n.toUInt64 ≠ contentSizeUnknown := by
  have hnat : n.toUInt64.toNat = n := toNat_toUInt64 (by omega)
  have herror : contentSizeError.toNat = 2 ^ 64 - 2 := rfl
  constructor
  · intro h
    rw [h, herror] at hnat
    omega
  · intro h
    rw [h, contentSizeUnknown_toNat] at hnat
    omega

theorem ZstdDecoder.UndoesWith.loads_given (hundoes : decoder.UndoesWith zstd)
    {dictionary : Option Bytes} {level : Option ℤ} {data out : Bytes}
    (hout : zstd.compress2 dictionary level (zstd.compressBound data.length) data = some out) :
    (dictionary.any fun d => !decoder.loadDictionary d) = false := by
  cases dictionary with
  | none => rfl
  | some d =>
    rw [Option.any_some, hundoes.loads hout]
    rfl

/-- The two allocations decide how the frame is decoded. -/
theorem exec_decodeStringWithDict_encoded (hundoes : decoder.UndoesWith zstd) {json out : Bytes}
    {dictionary : Option Bytes} {level : ℤ} (hencodes : zstd.Encodes json dictionary level out)
    (hjson : json.length < 2 ^ 63) (memory : FreshMemory) (m : Machine) :
    (decodeStringWithDict decoder memory out dictionary).exec m =
      some (if m.outcome.alloc then
          if m.next.outcome.alloc then
            (.terminated (memory.block (json.length.toUInt64 + 1)) json, m.next.next)
          else (.failed (-5), m.next.next)
        else (.failed (-2), m.next)) := by
  obtain ⟨-, hout⟩ := hencodes
  have hlen : out.length ≠ 0 := fun h => hundoes.ne_nil hout (List.length_eq_zero_iff.mp h)
  have hloaded : ((dictionary.filter fun d => d.length ≠ 0).any fun d =>
      !decoder.loadDictionary d) = false := hundoes.loads_given hout
  obtain ⟨herror, hknown⟩ := toUInt64_ne_contentSizes hjson
  have hnat : json.length.toUInt64.toNat = json.length := toNat_toUInt64 (by omega)
  have hcontent : decoder.decompressDCtx (dictionary.filter fun d => d.length ≠ 0)
      json.length.toUInt64 out = some json := hundoes.decompresses hout _ (Nat.le_of_eq hnat.symm)
  rw [decodeStringWithDict, if_neg hlen]
  simp only [hloaded, hundoes.recorded hout hjson, herror, hknown, hcontent, run_bind, exec_malloc,
    Option.bind_some, Bool.false_eq_true, ↓reduceIte]
  cases m.outcome.alloc with
  | false => rfl
  | true =>
    simp only [run_bind, exec_malloc, Option.bind_some, Bool.not_true, Bool.false_eq_true,
      ↓reduceIte]
    cases m.next.outcome.alloc <;> rfl

/-- The frame is decoded to the text unless the memory for it is refused. -/
def ZstdDecoder.DecodesTo (decoder : ZstdDecoder) (memory : FreshMemory) (out : Bytes)
    (dictionary : Option Bytes) (json : Bytes) : Prop :=
  ∀ m : Machine, ∃ r m',
    (decodeStringWithDict decoder memory out dictionary).exec m = some (r, m') ∧
    (r.Failed ∨ r.Gives json) ∧ (m.faults = [] → r.Gives json)

theorem decodesTo_of_encodes (hundoes : decoder.UndoesWith zstd) {json out : Bytes}
    {dictionary : Option Bytes} {level : ℤ} (hencodes : zstd.Encodes json dictionary level out)
    (hjson : json.length < 2 ^ 63) (memory : FreshMemory) :
    decoder.DecodesTo memory out dictionary json := by
  intro m
  have hnat : json.length.toUInt64.toNat = json.length := toNat_toUInt64 (by omega)
  have hgives := gives_terminated_block memory (toUInt64_ne_contentSizes hjson).2
    (Nat.le_of_eq hnat.symm)
  have hrun := exec_decodeStringWithDict_encoded hundoes hencodes hjson memory m
  refine ⟨_, _, hrun, ?_, fun hf => ?_⟩
  · cases m.outcome.alloc with
    | false => exact .inl ⟨(by omega : (-2 : ℤ) ≠ 0), rfl⟩
    | true =>
      cases m.next.outcome.alloc with
      | false => exact .inl ⟨(by omega : (-5 : ℤ) ≠ 0), rfl⟩
      | true => exact .inr hgives
  · rw [Machine.outcome_of_faults hf, Machine.outcome_of_faults ((Machine.kept_next m).faults hf)]
    exact hgives

/-! ### Frames of one raw block -/

/-- The library whose frames consist of one raw block, with a dictionary or without one. -/
def rawContexts : ZstdContexts where
  toZstd := rawZstd
  loadDictionary _ := true
  setCompressionLevel _ := true
  compress2 _ _ n data := if data.length ≤ maxEventSize then rawZstd.compress n data 0 else none
  length_compress2 hout := by
    split_ifs at hout with hdata
    rw [rawZstd] at hout
    dsimp only at hout
    split_ifs at hout with hfits
    obtain rfl := Option.some.inj hout
    exact hfits
  trainFromBuffer _ _ := none
  length_trainFromBuffer hout := by cases hout

theorem rawContexts_compress2 {dictionary : Option Bytes} {level : Option ℤ} {data out : Bytes}
    (hout : rawContexts.compress2 dictionary level (rawContexts.compressBound data.length) data =
      some out) : data.length ≤ maxEventSize ∧ out = rawHeader data.length ++ rawBlock data := by
  rw [rawContexts] at hout
  dsimp only at hout
  split_ifs at hout with hdata
  rw [rawZstd_compress] at hout
  exact ⟨hdata, (Option.some.inj hout).symm⟩

theorem rawDecoder_undoesWith : rawDecoder.UndoesWith rawContexts where
  loads _ := rfl
  ne_nil hout := by
    rw [(rawContexts_compress2 hout).2]
    exact List.cons_ne_nil _ _
  recorded hout _ := by
    obtain ⟨hdata, rfl⟩ := rawContexts_compress2 hout
    exact rawDecoder_recorded hdata
  decompresses hout n hn := by
    obtain ⟨hdata, rfl⟩ := rawContexts_compress2 hout
    refine (if_pos ?_).trans (congrArg some (rawContent_frame _))
    rwa [rawContent_frame]

/-! ### The way through the file -/

namespace EncoderState

/-- What `encode_string_with_dict` hands out. -/
theorem encodes_of_step {memory : FreshMemory} {s s' : EncoderState} {r : Handed} {json : Bytes}
    {dictionary : Option Bytes} {level : ℤ}
    (hstep : s.step zstd memory (.encode (some json) dictionary level) = some (r, s'))
    (hresult : r.result = 0) :
    ∃ out, s'.HandedOut r out ∧ zstd.Encodes json dictionary level out := by
  obtain ⟨r₁, s₁, m, hrun, hheld, hends⟩ : ∃ r₁ s₁ m,
      s.step zstd memory (.encode (some json) dictionary level) = some (r₁, s₁) ∧
        s₁.held = m + s.held ∧ HandsOut s.fs (s.faults = []) _ _ r₁ s₁ m :=
    (encodeStringWithDict_spec json dictionary level).run ⟨rfl, id, rfl⟩
  obtain ⟨rfl, rfl⟩ := Prod.mk.inj (Option.some.inj (hstep.symm.trans hrun))
  exact exists_handedOut hends hheld hresult

/-- In any run of calls, with any faults, let a call have compressed a text with the dictionary that
is the last to be saved to the file in the run. When `fetch_dictionary` succeeds it hands out that
dictionary or a part of it from its start on, and with the whole of it the frame is decoded to the
text. While nothing fails, it succeeds and hands out the whole. -/
theorem decodes_fetched (hundoes : decoder.UndoesWith zstd) (memory memory' : FreshMemory)
    {s : EncoderState} {ops : List EncoderOp} {e : RunStep EncoderState EncoderOp Handed}
    (he : e ∈ trace (step zstd memory) s ops) {json d : Bytes} {level : ℤ}
    (hop : e.op = .encode (some json) (some d) level) (hresult : e.result.result = 0)
    (hjson : json.length < 2 ^ 63) {path : Bytes}
    (hstored : stored path (s.fs.read path) (trace (step zstd memory) s ops) = some d) :
    ∃ out r s', e.after.HandedOut e.result out ∧
      (runEnd (step zstd memory) s ops).step zstd memory (.fetch (some path)) = some (r, s') ∧
      (r.result = 0 → ∃ fetched, s'.HandedOut r fetched ∧ fetched <+: d ∧
        (s.faults = [] → fetched = d) ∧
        (fetched = d → decoder.DecodesTo memory' out (some fetched) json)) ∧
      (s.faults = [] → d ≠ [] → d.length < 2 ^ 63 → r.result = 0) := by
  have hstep := step_of_mem_trace he
  rw [hop] at hstep
  obtain ⟨out, hout, hencodes⟩ := encodes_of_step hstep hresult
  obtain ⟨r, s', hrun, hgives, hfinds⟩ :=
    ((shows_read s path).run zstd memory ops).exists_fetch zstd memory
  refine ⟨out, r, s', hout, hrun, fun hzero => ?_, fun hf => hfinds hf d hstored⟩
  obtain ⟨fetched, _, hfetched, hd, hpart, -, hall⟩ := hgives hzero
  obtain rfl := Option.some.inj (hd.symm.trans hstored)
  refine ⟨fetched, hfetched, hpart, hall, fun hwhole => ?_⟩
  rw [hwhole]
  exact decodesTo_of_encodes hundoes hencodes hjson memory'

/-- No files, and nothing is allocated. -/
def sampleStart : EncoderState := ⟨⟨fun _ => none, fun _ => false⟩, [], .empty⟩

/-- A dictionary is saved and used. -/
def sampleShared : List EncoderOp :=
  [.save (some (ascii "dictionary")) (some (ascii "d")),
    .encode (some (ascii "\x7b\x7d")) (some (ascii "dictionary")) 3]

theorem decodes_fetched_sample :
    ∃ e ∈ trace (step rawContexts .ones) sampleStart sampleShared, ∃ out r s',
      e.after.HandedOut e.result out ∧
      (runEnd (step rawContexts .ones) sampleStart sampleShared).step rawContexts .ones
        (.fetch (some (ascii "d"))) = some (r, s') ∧
      s'.HandedOut r (ascii "dictionary") ∧
      rawDecoder.DecodesTo .ones out (some (ascii "dictionary")) (ascii "\x7b\x7d") := by
  have he : (trace (step rawContexts .ones) sampleStart sampleShared)[1] ∈
      trace (step rawContexts .ones) sampleStart sampleShared := List.getElem_mem (by decide)
  have hstored : stored (ascii "d") none
      (trace (step rawContexts .ones) sampleStart sampleShared) = some (ascii "dictionary") := rfl
  obtain ⟨out, r, s', hout, hfetch, hgives, hfinds⟩ :=
    decodes_fetched rawDecoder_undoesWith .ones .ones he rfl rfl (by decide) hstored
  obtain ⟨fetched, hfetched, -, hall, hdecodes⟩ := hgives (hfinds rfl (by decide) (by decide))
  obtain rfl := hall rfl
  exact ⟨_, he, out, r, s', hout, hfetch, hfetched, hdecodes rfl⟩

end EncoderState

end SuparnaD
