import SuparnaD.Messaging.Encoder
import SuparnaD.Messaging.TopicReading

/-!
# The two decoders

`decode_string` and `decode_string_with_dict` without a dictionary, with enough memory. Both end the
string with a zero in a buffer that has one byte to spare, except that `decode_string` does neither
when the frame does not record the size of its content.

## Main definitions

* `Decoded.Failed`, `Decoded.Gives` : how a call of a decoder ends.
* `DecodersAgree`.

## Main results

* `exec_decodeString_known`, `exec_decodeString_unknown`, `exec_decodeStringWithDict` : what the
  decoders leave behind.
* `decodersAgree_iff`.
-/

namespace SuparnaD

open Broker

namespace Decoded

/-- The call has failed and leaves no buffer. -/
def Failed (r : Decoded) : Prop := r.result ≠ 0 ∧ r.decompressedString = none

/-- The call has succeeded: its buffer holds the bytes and after them a zero. -/
def Gives (r : Decoded) (out : Bytes) : Prop :=
  r.result = 0 ∧ r.decompressedSize.toNat = out.length ∧
    ∃ block, r.decompressedString = some block ∧ block.take out.length = out ∧
      block[out.length]? = some 0

/-- A buffer into which the bytes have been written, and a zero after them. -/
def terminated (block out : Bytes) : Decoded :=
  ⟨0, some ((writeAt block 0 out).set out.length 0), out.length.toUInt64⟩

/-- A buffer into which the bytes have been written. -/
def unterminated (block out : Bytes) : Decoded :=
  ⟨0, some (writeAt block 0 out), out.length.toUInt64⟩

variable {block out : Bytes}

theorem writeAt_zero (block out : Bytes) : writeAt block 0 out = out ++ block.drop out.length := by
  rw [writeAt, List.take_zero, List.nil_append, Nat.zero_add]

/-- The buffer has room for the zero. -/
theorem gives_terminated (hout : out.length < 2 ^ 64) (hroom : out.length < block.length) :
    (terminated block out).Gives out := by
  refine ⟨rfl, toNat_toUInt64 hout, _, rfl, ?_, ?_⟩
  · rw [List.take_set_of_le (Nat.le_refl _), writeAt_zero, List.take_left]
  · rw [List.getElem?_set_self]
    rw [length_writeAt (by omega)]
    exact hroom

/-- Without the zero, what follows the bytes is what the memory held before. -/
theorem not_gives_unterminated (hout : out.length < 2 ^ 64)
    (hblock : block[out.length]? ≠ some 0) (out' : Bytes) :
    ¬ (unterminated block out).Gives out' := by
  rintro ⟨-, hsize, block', hblock', -, hzero⟩
  obtain rfl := Option.some.inj hblock'
  have hlen : out'.length = out.length := by rw [← hsize, unterminated, toNat_toUInt64 hout]
  rw [hlen, writeAt_zero, List.getElem?_append_right (Nat.le_refl _), Nat.sub_self,
    List.getElem?_drop, Nat.add_zero] at hzero
  exact hblock hzero

end Decoded

variable {zstd : ZstdDecoder} {data : Bytes} {s : Machine} (memory : FreshMemory)

/-- With memory, a frame that records the size of its content is decoded into a buffer that is one
byte longer. -/
theorem exec_decodeString_known (hfaults : s.faults = []) (hdata : data ≠ [])
    (herror : zstd.getFrameContentSize data ≠ contentSizeError)
    (hknown : zstd.getFrameContentSize data ≠ contentSizeUnknown) :
    (decodeString zstd memory data).exec s =
      some ((zstd.decompress (zstd.getFrameContentSize data) data).elim (.failed (-4))
        (.terminated (memory.block (zstd.getFrameContentSize data + 1))), s.next) := by
  have hlen : data.length ≠ 0 := fun h => hdata (List.length_eq_zero_iff.mp h)
  rw [decodeString, if_neg hlen]
  simp only [herror, hknown, ↓reduceIte]
  refine CallProgram.run_bind_eq_some_iff.mpr ⟨true, s.next, Machine.exec_malloc_ok hfaults, ?_⟩
  cases zstd.decompress (zstd.getFrameContentSize data) data <;> rfl

/-- Otherwise the buffer has four times the length of the input. -/
theorem exec_decodeString_unknown (hfaults : s.faults = []) (hdata : data ≠ [])
    (hunknown : zstd.getFrameContentSize data = contentSizeUnknown) :
    (decodeString zstd memory data).exec s =
      some ((zstd.decompress (data.length.toUInt64 * 4) data).elim (.failed (-4))
        (.unterminated (memory.block (data.length.toUInt64 * 4))), s.next) := by
  have hlen : data.length ≠ 0 := fun h => hdata (List.length_eq_zero_iff.mp h)
  have herror : contentSizeUnknown ≠ contentSizeError := by decide
  rw [decodeString, if_neg hlen]
  simp only [hunknown, herror, ↓reduceIte]
  refine CallProgram.run_bind_eq_some_iff.mpr ⟨true, s.next, Machine.exec_malloc_ok hfaults, ?_⟩
  cases zstd.decompress (data.length.toUInt64 * 4) data <;> rfl

/-- The length of the buffer in `decode_string_with_dict`, without the byte for the zero. -/
def dictBufferSize (zstd : ZstdDecoder) (data : Bytes) : UInt64 :=
  if zstd.getFrameContentSize data = contentSizeUnknown then data.length.toUInt64 * 4
  else zstd.getFrameContentSize data

/-- A dictionary without bytes is not loaded. -/
theorem filter_dictionary {dictionary : Option Bytes} (hdict : dictionary.getD [] = []) :
    (dictionary.filter fun d => d.length ≠ 0) = none := by
  cases dictionary with
  | none => rfl
  | some d =>
    obtain rfl : d = [] := hdict
    rfl

/-- Without a dictionary the other decoder always has one byte to spare. -/
theorem exec_decodeStringWithDict (hfaults : s.faults = []) (hdata : data ≠ [])
    {dictionary : Option Bytes} (hdict : dictionary.getD [] = [])
    (herror : zstd.getFrameContentSize data ≠ contentSizeError) :
    (decodeStringWithDict zstd memory data dictionary).exec s =
      some ((zstd.decompressDCtx none (dictBufferSize zstd data) data).elim (.failed (-6))
        (.terminated (memory.block (dictBufferSize zstd data + 1))), s.next.next) := by
  have hlen : data.length ≠ 0 := fun h => hdata (List.length_eq_zero_iff.mp h)
  have hfaults' := (Machine.kept_next s).faults hfaults
  rw [decodeStringWithDict, if_neg hlen]
  refine CallProgram.run_bind_eq_some_iff.mpr ⟨true, s.next, Machine.exec_malloc_ok hfaults, ?_⟩
  simp only [filter_dictionary hdict, herror, Option.any_none, Bool.not_true, Bool.false_eq_true,
    ↓reduceIte]
  refine CallProgram.run_bind_eq_some_iff.mpr
    ⟨true, s.next.next, Machine.exec_malloc_ok hfaults', ?_⟩
  rw [← dictBufferSize]
  cases zstd.decompressDCtx none (dictBufferSize zstd data) data <;> rfl

theorem exec_decodeString_error (hdata : data ≠ [])
    (herror : zstd.getFrameContentSize data = contentSizeError) :
    (decodeString zstd memory data).exec s = some (.failed (-2), s) := by
  have hlen : data.length ≠ 0 := fun h => hdata (List.length_eq_zero_iff.mp h)
  rw [decodeString, if_neg hlen]
  simp only [herror, ↓reduceIte]
  rfl

theorem exec_decodeStringWithDict_error (hfaults : s.faults = []) (hdata : data ≠ [])
    {dictionary : Option Bytes} (hdict : dictionary.getD [] = [])
    (herror : zstd.getFrameContentSize data = contentSizeError) :
    (decodeStringWithDict zstd memory data dictionary).exec s =
      some (.failed (-4), s.next) := by
  have hlen : data.length ≠ 0 := fun h => hdata (List.length_eq_zero_iff.mp h)
  rw [decodeStringWithDict, if_neg hlen]
  refine CallProgram.run_bind_eq_some_iff.mpr ⟨true, s.next, Machine.exec_malloc_ok hfaults, ?_⟩
  simp only [filter_dictionary hdict, herror, Option.any_none, Bool.not_true, Bool.false_eq_true,
    ↓reduceIte]
  rfl

/-- Both decoders fail, or both give the same bytes, whatever their memory holds before. -/
def DecodersAgree (zstd : ZstdDecoder) (data : Bytes) (dictionary : Option Bytes) (s : Machine) :
    Prop :=
  ∀ memory memory' : FreshMemory, ∃ r s₁ r' s₂,
    (decodeString zstd memory data).exec s = some (r, s₁) ∧
      (decodeStringWithDict zstd memory' data dictionary).exec s = some (r', s₂) ∧
      (r.Failed ∧ r'.Failed ∨ ∃ out, r.Gives out ∧ r'.Gives out)

/-- Memory in which every byte is `1`. -/
def FreshMemory.ones : FreshMemory where
  block n := List.replicate n.toNat 1
  length_block _ := List.length_replicate

theorem contentSizeUnknown_toNat : contentSizeUnknown.toNat = 2 ^ 64 - 1 := rfl

theorem dictBufferSize_ne_unknown (zstd : ZstdDecoder) (data : Bytes) :
    dictBufferSize zstd data ≠ contentSizeUnknown := by
  rw [dictBufferSize]
  split_ifs with hunknown
  · intro h
    have hfour : (4 : UInt64).toNat = 4 := rfl
    have hmul := congrArg UInt64.toNat h
    rw [UInt64.toNat_mul, hfour, contentSizeUnknown_toNat] at hmul
    omega
  · exact hunknown

/-- The sum for the length of the buffer does not wrap. -/
theorem gives_terminated_block {n : UInt64} (hn : n ≠ contentSizeUnknown) {out : Bytes}
    (hfit : out.length ≤ n.toNat) : (Decoded.terminated (memory.block (n + 1)) out).Gives out := by
  have hone : (1 : UInt64).toNat = 1 := rfl
  have hmax : n.toNat ≠ 2 ^ 64 - 1 := fun h => hn (UInt64.toNat_inj.mp h)
  have hlt := n.toNat_lt
  refine Decoded.gives_terminated (by omega) ?_
  rw [memory.length_block, UInt64.toNat_add, hone]
  omega

/-- A buffer of four times the length of the input may hold anything after the content. -/
theorem not_decodersAgree (hfaults : s.faults = []) (hdata : data ≠ [])
    {dictionary : Option Bytes} (hunknown : zstd.getFrameContentSize data = contentSizeUnknown)
    {out : Bytes} (hout : zstd.decompress (data.length.toUInt64 * 4) data = some out)
    (hfit : out.length ≤ (data.length.toUInt64 * 4).toNat) :
    ¬ DecodersAgree zstd data dictionary s := by
  intro hagree
  obtain ⟨r, s₁, r', s₂, hrun, -, hcases⟩ := hagree .ones .ones
  have hrun' := (exec_decodeString_unknown .ones hfaults hdata hunknown).symm.trans hrun
  rw [hout] at hrun'
  obtain ⟨rfl, rfl⟩ := Prod.mk.inj (Option.some.inj hrun')
  rcases hcases with ⟨hfailed, -⟩ | ⟨out', hgives, -⟩
  · exact hfailed.1 rfl
  · have hlt := (data.length.toUInt64 * 4).toNat_lt
    refine Decoded.not_gives_unterminated (by omega) (fun hzero => ?_) out' hgives
    have hone := List.eq_of_mem_replicate (List.mem_of_getElem? hzero)
    exact absurd hone (by decide)

section

variable (hsame : zstd.decompressDCtx none = zstd.decompress)
  (hfit : ∀ n d out, zstd.decompress n d = some out → out.length ≤ n.toNat)

include hsame hfit

/-- Without an error in the header the decoder with a context fails or ends the string, as the
library does. -/
theorem decodeStringWithDict_cases (hfaults : s.faults = []) (hdata : data ≠ [])
    {dictionary : Option Bytes} (hdict : dictionary.getD [] = [])
    (herror : zstd.getFrameContentSize data ≠ contentSizeError) :
    ∃ r s', (decodeStringWithDict zstd memory data dictionary).exec s = some (r, s') ∧
      (zstd.decompress (dictBufferSize zstd data) data = none ∧ r.Failed ∨
        ∃ out, zstd.decompress (dictBufferSize zstd data) data = some out ∧ r.Gives out) := by
  refine ⟨_, _, exec_decodeStringWithDict memory hfaults hdata hdict herror, ?_⟩
  rw [hsame]
  cases hout : zstd.decompress (dictBufferSize zstd data) data with
  | none => exact .inl ⟨rfl, (by omega : (-6 : ℤ) ≠ 0), rfl⟩
  | some out =>
    exact .inr ⟨out, rfl, gives_terminated_block memory (dictBufferSize_ne_unknown zstd data)
      (hfit _ _ _ hout)⟩

/-- A frame that records the size of its content, or whose header cannot be read, is decoded alike.
-/
theorem decodersAgree_of_known (hfaults : s.faults = []) (hdata : data ≠ [])
    {dictionary : Option Bytes} (hdict : dictionary.getD [] = [])
    (hknown : zstd.getFrameContentSize data ≠ contentSizeUnknown) :
    DecodersAgree zstd data dictionary s := by
  intro memory memory'
  by_cases herror : zstd.getFrameContentSize data = contentSizeError
  · exact ⟨_, _, _, _, exec_decodeString_error memory hdata herror,
      exec_decodeStringWithDict_error memory' hfaults hdata hdict herror,
      .inl ⟨⟨(by omega : (-2 : ℤ) ≠ 0), rfl⟩, (by omega : (-4 : ℤ) ≠ 0), rfl⟩⟩
  have hsize : dictBufferSize zstd data = zstd.getFrameContentSize data := if_neg hknown
  obtain ⟨r', s₂, hrun', hcases⟩ :=
    decodeStringWithDict_cases memory' hsame hfit hfaults hdata hdict herror
  refine ⟨_, _, r', s₂, exec_decodeString_known memory hfaults hdata herror hknown, hrun', ?_⟩
  rw [hsize] at hcases
  rcases hcases with ⟨hnone, hfailed⟩ | ⟨out, hout, hgives⟩
  · rw [hnone]
    exact .inl ⟨⟨(by omega : (-4 : ℤ) ≠ 0), rfl⟩, hfailed⟩
  · rw [hout]
    exact .inr ⟨out, gives_terminated_block memory hknown (hfit _ _ _ hout), hgives⟩

/-- The decoders agree on an input unless its frame does not record the size of its content and the
content fits into four times the length of the input. -/
theorem decodersAgree_iff (hfaults : s.faults = []) (hdata : data ≠ [])
    {dictionary : Option Bytes} (hdict : dictionary.getD [] = []) :
    DecodersAgree zstd data dictionary s ↔ zstd.getFrameContentSize data ≠ contentSizeUnknown ∨
      zstd.decompress (data.length.toUInt64 * 4) data = none := by
  by_cases hknown : zstd.getFrameContentSize data = contentSizeUnknown
  swap
  · exact iff_of_true (decodersAgree_of_known hsame hfit hfaults hdata hdict hknown) (.inl hknown)
  have hsize : dictBufferSize zstd data = data.length.toUInt64 * 4 := if_pos hknown
  have herror : zstd.getFrameContentSize data ≠ contentSizeError := by
    rw [hknown]
    decide
  constructor
  · intro hagree
    refine .inr (Option.eq_none_iff_forall_ne_some.mpr fun out hout => ?_)
    exact not_decodersAgree hfaults hdata hknown hout (hfit _ _ _ hout) hagree
  · rintro (hknown' | hnone) memory memory'
    · exact absurd hknown hknown'
    obtain ⟨r', s₂, hrun', hcases⟩ :=
      decodeStringWithDict_cases memory' hsame hfit hfaults hdata hdict herror
    refine ⟨_, _, r', s₂, exec_decodeString_unknown memory hfaults hdata hknown, hrun', ?_⟩
    rw [hsize, hnone] at hcases
    rcases hcases with ⟨-, hfailed⟩ | ⟨out, hout, -⟩
    · rw [hnone]
      exact .inl ⟨⟨(by omega : (-4 : ℤ) ≠ 0), rfl⟩, hfailed⟩
    · cases hout

end

/-! ### Frames of one raw block -/

/-- The magic number of a frame. -/
def frameMagic : Bytes := [40, 181, 47, 253]

/-- A frame header with the size of the content in one byte or in four. -/
def rawHeader (n : ℕ) : Bytes :=
  frameMagic ++ if n < 256 then [32, n.toUInt8] else 160 :: u32Bytes n.toUInt32

/-- The content as one raw block after its header. -/
def rawBlock (data : Bytes) : Bytes := (u32Bytes (data.length * 8 + 1).toUInt32).take 3 ++ data

/-- The content of such a frame. -/
def rawContent (d : Bytes) : Bytes := d.drop (if d.getD 4 0 = 160 then 12 else 9)

/-- A library whose frames consist of one raw block. -/
def rawDecoder : ZstdDecoder where
  getFrameContentSize d :=
    if d.take 4 ≠ frameMagic then contentSizeError
    else if d.getD 4 0 = 0 then contentSizeUnknown
    else if d.getD 4 0 = 32 then (d.getD 5 0).toUInt64
    else (u32OfBytes ((d.drop 5).take 4)).toUInt64
  decompress n d := if (rawContent d).length ≤ n.toNat then some (rawContent d) else none
  loadDictionary _ := true
  decompressDCtx _ n d := if (rawContent d).length ≤ n.toNat then some (rawContent d) else none

theorem rawDecoder_fits (n : UInt64) (d out : Bytes) (hout : rawDecoder.decompress n d = some out) :
    out.length ≤ n.toNat := by
  rw [rawDecoder] at hout
  dsimp only at hout
  split_ifs at hout with hfits
  obtain rfl := Option.some.inj hout
  exact hfits

/-- The frame of a single byte. -/
def knownFrame : Bytes := rawHeader 1 ++ rawBlock [97]

/-- The same frame with a window descriptor in place of the size of its content. -/
def unknownFrame : Bytes := frameMagic ++ [0, 88] ++ rawBlock [97]

theorem decodersAgree_iff_sample :
    DecodersAgree rawDecoder knownFrame none (Machine.ofFile [] []) ↔
      rawDecoder.getFrameContentSize knownFrame ≠ contentSizeUnknown ∨
        rawDecoder.decompress (knownFrame.length.toUInt64 * 4) knownFrame = none :=
  decodersAgree_iff rfl rawDecoder_fits rfl (List.cons_ne_nil _ _) rfl

/-- The second decoder ends the string, and the first returns a buffer without the zero. -/
theorem not_decodersAgree_unknownFrame :
    ¬ DecodersAgree rawDecoder unknownFrame none (Machine.ofFile [] []) :=
  not_decodersAgree rfl (List.cons_ne_nil _ _) rfl rfl (by decide)

end SuparnaD
