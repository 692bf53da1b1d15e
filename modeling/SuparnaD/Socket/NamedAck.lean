import SuparnaD.Api.JsonLookup
import SuparnaD.Messaging.BatchAck
import SuparnaD.Socket.SessionSteps

/-!
# Acknowledgements that name a size

`ACK` reads a size out of its payload and tries `ack_packet_by_size`, which checks that the size
fits behind the read pointer and does not look at the header there. When there is no size in the
payload, or when it does not fit, the next packet is passed over whatever its size.

## Main definitions

* `readSize` : the size that `ACK` reads in its payload.
* `SessionState.SteadyOn` : a session with a group, while storage and allocation succeed.
* `SessionState.AcksNamed` : the packet of the size is acknowledged, or nothing.

## Main results

* `readSize_string`, `readSize_number` : a size in quotes is read, a number is not.
* `SessionState.SteadyOn.run_ack_cases` : what `ACK` does.
* `SessionState.acksNamed_iff`.
-/

namespace SuparnaD

/-- The size that `ACK` reads in its payload. -/
def readSize (commandData : Bytes) : Option UInt64 :=
  (findJsonValue commandData (ascii "packet_size")).map fun str => sizeOfInt (atoi str)

/-- `ack_packet_by_size` accepts a size: it is not zero, and the sum that sets the read pointer does
not exceed the length of the file. -/
def SizePasses (content : Bytes) (off packetSize : UInt64) : Prop :=
  packetSize ≠ 0 ∧ (off + (packetSizeHeaderSize + packetSize)).toNat ≤ content.length

instance (content : Bytes) (off packetSize : UInt64) :
    Decidable (SizePasses content off packetSize) := inferInstanceAs (Decidable (_ ∧ _))

/-! ### Sizes in a payload -/

/-- A payload whose first member is `packet_size`: `u` and `w` stand before and after the name, and
`value` is everything after the colon. -/
def sizePayload (u w value : Bytes) : Bytes := u ++ (ascii "\"packet_size\"" ++ (w ++ 58 :: value))

/-- The text between the quotes behind a colon. -/
def quotedText (value : Bytes) : Option Bytes :=
  match value.dropWhile isBlank with
  | 34 :: rest => scanString rest
  | _ => none

/-- `extract_json_value` goes to the value of a first member `packet_size`. -/
theorem findJsonValue_sizePayload {u w : Bytes} (hu : 34 ∉ u) (hw : 58 ∉ w) (value : Bytes) :
    findJsonValue (sizePayload u w value) (ascii "packet_size") = quotedText value := by
  have hkey : (ascii "\"" ++ ascii "packet_size" ++ ascii "\"").take 255 =
      34 :: ascii "packet_size\"" := by decide
  have hcolon : 58 ∉ 34 :: ascii "packet_size\"" := by decide
  have hfound (rest : Bytes) : strstr (34 :: ascii "packet_size\"" ++ rest)
      (34 :: ascii "packet_size\"") = some (34 :: ascii "packet_size\"" ++ rest) := by
    rw [strstr.eq_def]
    exact if_pos (List.isPrefixOf_iff_prefix.mpr (List.prefix_append _ _))
  have hquoted : ascii "\"packet_size\"" = 34 :: ascii "packet_size\"" := by decide
  have hskip : strchr (34 :: ascii "packet_size\"" ++ (w ++ 58 :: value)) 58 =
      some (58 :: value) := by
    rw [strchr_skip hcolon, strchr_skip hw, strchr_cons_self]
  rw [findJsonValue, hkey, sizePayload, strstr_skip hu, hquoted, hfound]
  simp only [Option.bind_eq_bind, Option.bind_some]
  rw [hskip, Option.bind_some, quotedText]
  rfl

theorem atoi_digits {digits : Bytes} (hdigits : ∀ b ∈ digits, 48 ≤ b ∧ b ≤ 57)
    (hsmall : digitsValue 0 digits < 2 ^ 31) : atoi digits = digitsValue 0 digits := by
  have hvalue : strtol digits = max (-2 ^ 63) (min (digitsValue 0 digits : ℤ) (2 ^ 63 - 1)) := by
    cases digits with
    | nil => rfl
    | cons b rest =>
      have hge := UInt8.le_iff_toNat_le.mp (hdigits b List.mem_cons_self).1
      have hspace : isSpace b = false := by
        rw [isSpace, Bool.or_eq_false_iff, Bool.and_eq_false_iff]
        refine ⟨decide_eq_false ?_, .inr (decide_eq_false ?_)⟩
        · rintro rfl
          exact absurd hge (by decide)
        · rw [UInt8.le_iff_toNat_le]
          exact fun hle => absurd (Nat.le_trans hge hle) (by decide)
      rw [strtol, List.dropWhile_cons_of_neg (by rw [hspace]; decide)]
      split
      · rename_i heq
        obtain ⟨rfl, -⟩ := List.cons.inj heq
        exact absurd hge (by decide)
      · rename_i heq
        obtain ⟨rfl, -⟩ := List.cons.inj heq
        exact absurd hge (by decide)
      · rfl
  rw [atoi, hvalue, Int.min_eq_left (by omega), Int.max_eq_right (by omega)]
  exact Int.bmod_eq_of_le (by omega) (by omega)

theorem sizeOfInt_natCast {n : ℕ} (h : n < 2 ^ 64) : sizeOfInt n = n.toUInt64 := by
  have hmod : ((n : ℤ) % 2 ^ 64).toNat = n := by omega
  rw [sizeOfInt, UInt64.ofInt, hmod]

/-- A number in quotes is read. -/
theorem readSize_string {u w w' digits rest : Bytes} (hu : 34 ∉ u) (hw : 58 ∉ w)
    (hw' : ∀ b ∈ w', isBlank b = true) (hdigits : ∀ b ∈ digits, 48 ≤ b ∧ b ≤ 57)
    (hsmall : digitsValue 0 digits < 2 ^ 31) :
    readSize (sizePayload u w (w' ++ 34 :: (digits ++ 34 :: rest))) =
      some (digitsValue 0 digits).toUInt64 := by
  have hquote : 34 ∉ digits := fun hmem => absurd (hdigits 34 hmem).1 (by decide)
  have hbackslash : 92 ∉ digits := fun hmem => absurd (hdigits 92 hmem).2 (by decide)
  have hvalue : (w' ++ 34 :: (digits ++ 34 :: rest)).dropWhile isBlank =
      34 :: (digits ++ 34 :: rest) := List.dropWhile_append_of_pos hw'
  have hscan : scanString (digits ++ 34 :: rest) = some digits := by
    rw [scanString_append hquote hbackslash, scanString_quote, Option.map_some, List.append_nil]
  have htext : quotedText (w' ++ 34 :: (digits ++ 34 :: rest)) = some digits := by
    rw [quotedText, hvalue]
    exact hscan
  rw [readSize, findJsonValue_sizePayload hu hw, htext, Option.map_some,
    atoi_digits hdigits hsmall]
  exact congrArg some (sizeOfInt_natCast (by omega))

/-- A number without quotes is not read. -/
theorem readSize_number {u w w' rest : Bytes} {b : UInt8} (hu : 34 ∉ u) (hw : 58 ∉ w)
    (hw' : ∀ b ∈ w', isBlank b = true) (hb : isBlank b = false) (hquote : b ≠ 34) :
    readSize (sizePayload u w (w' ++ b :: rest)) = none := by
  have hvalue : (w' ++ b :: rest).dropWhile isBlank = b :: rest := by
    rw [List.dropWhile_append_of_pos hw', List.dropWhile_cons_of_neg (by simp [hb])]
  rw [readSize, findJsonValue_sizePayload hu hw, quotedText, hvalue]
  split
  · rename_i heq
    exact absurd (List.cons.inj heq).1 hquote
  · rfl

namespace SessionState

/-- The session has selected a group on a topic, and storage and allocation succeed. -/
structure SteadyOn (st : SessionState) (gh th : ℕ) (g : Group) (path : Bytes) : Prop
    extends st.Selected gh th g path where
  steady : ∃ t, st.world.topics.get th = some t ∧ (st.machine t.chunkHandle).Steady path

/-- `ACK` answers with success and has moved the cursor over a frame whose header states the size,
or it answers with an error and has left the group alone. -/
def AcksNamed (st : SessionState) (gh : ℕ) (g : Group) (path commandData : Bytes) (n : ℕ) : Prop :=
  ∃ r st' g', handleAckCommand commandData st = some (r, st') ∧
    st'.world.groups.get gh = some g' ∧
    (r = 0 ∧ st'.client = (st.client.send packetAcknowledged).2 ∧
        g'.readPointer.toNat = g.readPointer.toNat + (4 + n) ∧
        (wholeAt (st.file path) g.readPointer.toNat).map UInt32.toNat = some n ∨
      r = -1 ∧ st'.client = (st.client.send acknowledgeFailed).2 ∧ g' = g)

variable {st : SessionState} {gh th : ℕ} {g : Group} {path commandData : Bytes}

/-! ### The two ways to acknowledge -/

/-- Passing over one packet, well-formed or not. -/
theorem passOver_one_of_wholeAt {v : Bytes} {size : UInt32} (hv : v.length < 2 ^ 63)
    (h : wholeAt v g.readPointer.toNat = some size) :
    passOver g 1 v = (0, movedBy g size.toUInt64) := by
  have hwalk : batchWalk v (1 : UInt64).toNat g.readPointer 0 =
      (g.readPointer + (packetSizeHeaderSize + size.toUInt64), 1) := by
    change batchWalk v (0 + 1) g.readPointer 0 = _
    rw [batchWalk_succ hv, h]
    rfl
  have hsub : g.readPointer + (packetSizeHeaderSize + size.toUInt64) - g.readPointer =
      packetSizeHeaderSize + size.toUInt64 := by
    rw [UInt64.add_comm, UInt64.add_sub_cancel]
  rw [passOver, hwalk]
  dsimp only
  rw [if_pos rfl, if_pos (by decide), hsub, movedBy]

theorem SteadyOn.small (h : st.SteadyOn gh th g path) : (st.file path).length < 2 ^ 63 := by
  obtain ⟨t, -, hsteady⟩ := h.steady
  exact hsteady.small

/-- An operation on the read pointer of the selected group sees the file. -/
theorem SteadyOn.run_cursor (h : st.SteadyOn gh th g path) (op : CursorOp) :
    ∃ st', SessionM.onGroup gh th (fun g => op.run g) st =
        some ((op.result g (some (st.file path))).1, st') ∧
      st'.SteadyOn gh th (op.result g (some (st.file path))).2 path ∧
      st'.file path = st.file path ∧ st'.client = st.client := by
  obtain ⟨t, ht, hsteady⟩ := h.steady
  obtain ⟨m, hkept, hm, hexec⟩ := op.computes_run hsteady.onTopic g
  obtain ⟨hsteady', hfile⟩ := hsteady.of_kept hkept hm
  rw [hsteady.view_eq] at hexec
  obtain ⟨hsel, -⟩ := h.setTopic ht hm hkept.fs hkept.chunk
  obtain ⟨hsel', -⟩ := hsel.setGroup
    ((op.sameGroup_result g (some (st.file path))).attachedTopic.trans h.attached)
  exact ⟨_, SessionM.onGroup_eq_some_iff.mpr ⟨g, t, m, _, h.object, ht, hexec, rfl⟩,
    ⟨hsel', _, HandleHeap.get_set_self ht, hsteady'⟩, hfile, hkept.client⟩

/-- The part of `ACK` that passes over the next packet succeeds exactly where there is one. -/
theorem SteadyOn.run_ackNextPacket (h : st.SteadyOn gh th g path) :
    ∃ r st' g', ackNextPacket gh th st = some (r, st') ∧
      st'.world.groups.get gh = some g' ∧
      ((∃ size, wholeAt (st.file path) g.readPointer.toNat = some size ∧ r = 0 ∧
          st'.client = (st.client.send packetAcknowledged).2 ∧ g' = movedBy g size.toUInt64) ∨
        wholeAt (st.file path) g.readPointer.toNat = none ∧ r = -1 ∧
          st'.client = (st.client.send acknowledgeFailed).2 ∧ g' = g) := by
  obtain ⟨st₁, hrun, hsteady, -, hclient⟩ := h.run_cursor (.ackPacketBatch th 1)
  have hguard : ¬ ((1 : UInt64) = 0 ∨ g.attachedTopic ≠ th) := by
    rw [h.attached, ne_self_iff_false, or_false]
    decide
  have hresult : (CursorOp.ackPacketBatch th 1).result g (some (st.file path)) =
      passOver g 1 (st.file path) := by
    rw [CursorOp.result, if_neg hguard, Option.elim_some]
  rw [hresult] at hrun hsteady
  rw [ackNextPacket]
  cases hwhole : wholeAt (st.file path) g.readPointer.toNat with
  | none =>
    rw [passOver_of_wholeAt_none h.small (by decide) hwhole] at hrun hsteady
    refine ⟨-1, st₁.replied acknowledgeFailed, g, ?_, hsteady.object, .inr ⟨rfl, rfl, ?_, rfl⟩⟩
    · have hcode : ¬ (-1 : ℤ) = 0 := by omega
      exact (SessionM.bind_of_eq_some hrun).trans (congrFun (if_neg hcode) st₁)
    · rw [replied, hclient]
  | some size =>
    rw [passOver_one_of_wholeAt h.small hwhole] at hrun hsteady
    refine ⟨0, st₁.replied packetAcknowledged, _, ?_, hsteady.object,
      .inl ⟨size, rfl, rfl, ?_, rfl⟩⟩
    · exact (SessionM.bind_of_eq_some hrun).trans (congrFun (if_pos rfl) st₁)
    · rw [replied, hclient]

theorem SteadyOn.faults (h : st.SteadyOn gh th g path) : st.world.faults = [] := by
  obtain ⟨t, -, hsteady⟩ := h.steady
  exact hsteady.faults

/-- When nothing fails, `ACK` finds the size that is written in its payload. -/
theorem SteadyOn.extractJsonValue_eq (h : st.SteadyOn gh th g path) (commandData key : Bytes) :
    extractJsonValue commandData key st = some (findJsonValue commandData key, st) := by
  have hfaults : (st.machine none).faults = [] := h.faults
  have hnext : st.allocated = st := by
    rw [allocated, Machine.next, hfaults]
    exact congrArg (fun f => { st with world := { st.world with faults := f } }) h.faults.symm
  rw [SessionState.extractJsonValue_eq, hnext, Machine.outcome_of_faults hfaults]
  cases findJsonValue commandData key <;> rfl

/-- What `ACK` does when nothing fails: it moves on by a size that passes, or it acknowledges the
next packet whatever its size. -/
theorem SteadyOn.run_ack_cases (h : st.SteadyOn gh th g path) (commandData : Bytes) :
    ∃ r st' g', handleAckCommand commandData st = some (r, st') ∧
      st'.world.groups.get gh = some g' ∧
      ((∃ packetSize, readSize commandData = some packetSize ∧
          SizePasses (st.file path) g.readPointer packetSize ∧ r = 0 ∧
          st'.client = (st.client.send packetAcknowledged).2 ∧ g' = movedBy g packetSize) ∨
        (∀ packetSize, readSize commandData = some packetSize →
            ¬ SizePasses (st.file path) g.readPointer packetSize) ∧
          ((∃ size, wholeAt (st.file path) g.readPointer.toNat = some size ∧ r = 0 ∧
              st'.client = (st.client.send packetAcknowledged).2 ∧
              g' = movedBy g size.toUInt64) ∨
            wholeAt (st.file path) g.readPointer.toNat = none ∧ r = -1 ∧
              st'.client = (st.client.send acknowledgeFailed).2 ∧ g' = g)) := by
  have heq := handleAckCommand_eq h.group h.topic commandData
  have hextract := h.extractJsonValue_eq commandData (ascii "packet_size")
  rw [readSize]
  cases hfind : findJsonValue commandData (ascii "packet_size") with
  | none =>
    obtain ⟨r, st', g', hrun, hg', hcases⟩ := h.run_ackNextPacket
    refine ⟨r, st', g', ?_, hg', .inr ⟨fun _ hread => (Option.not_mem_none _ hread).elim, hcases⟩⟩
    rw [heq]
    split
    · rw [hfind] at hextract
      exact (SessionM.bind_of_eq_some hextract).trans hrun
    · exact hrun
  | some str =>
    have hlen : 0 < commandData.length := by
      refine List.length_pos_iff.mpr ?_
      rintro rfl
      have hnone : findJsonValue [] (ascii "packet_size") = none := by decide
      cases hnone.symm.trans hfind
    rw [if_pos hlen] at heq
    rw [hfind] at hextract
    obtain ⟨st₁, hrun, hsteady, hfile, hclient⟩ :=
      h.run_cursor (.ackPacketBySize th (sizeOfInt (atoi str)))
    have heq' := heq.trans ((SessionM.bind_of_eq_some hextract).trans
      (SessionM.bind_of_eq_some hrun))
    rw [Option.map_some]
    rcases result_ackPacketBySize h.attached (sizeOfInt (atoi str)) (some (st.file path)) with
      ⟨hzero, ⟨hne, v, hv, hfits⟩, hmoved⟩ | ⟨hfail, hrefused, hsame⟩
    · obtain rfl := Option.some.inj hv
      rw [hmoved] at hsteady
      refine ⟨0, st₁.replied packetAcknowledged, _, ?_, hsteady.object,
        .inl ⟨_, rfl, ⟨hne, hfits⟩, rfl, by rw [replied, hclient], rfl⟩⟩
      rw [heq', if_pos hzero]
      rfl
    · rw [hsame] at hsteady
      obtain ⟨r, st', g', hrest, hg', hcases⟩ := hsteady.run_ackNextPacket
      rw [hfile, hclient] at hcases
      refine ⟨r, st', g', ?_, hg', .inr ⟨?_, hcases⟩⟩
      · rw [heq', if_neg hfail]
        exact hrest
      · rintro packetSize hread ⟨hne, hfits⟩
        obtain rfl := Option.some.inj hread
        exact hrefused ⟨hne, _, rfl, hfits⟩

theorem toNat_readPointer_movedBy (g : Group) (packetSize : UInt64) :
    (movedBy g packetSize).readPointer.toNat =
      (g.readPointer.toNat + (4 + packetSize.toNat)) % 2 ^ 64 := by
  have hfour : packetSizeHeaderSize.toNat = 4 := rfl
  rw [movedBy, UInt64.toNat_add, UInt64.toNat_add, hfour]
  omega

/-- The group is moved over the frame at its cursor. -/
theorem toNat_readPointer_of_wholeAt {v : Bytes} {size : UInt32} (hv : v.length < 2 ^ 63)
    (h : wholeAt v g.readPointer.toNat = some size) {packetSize : UInt64}
    (hsize : packetSize.toNat = size.toNat) :
    (movedBy g packetSize).readPointer.toNat = g.readPointer.toNat + (4 + size.toNat) := by
  obtain ⟨-, hfits⟩ := wholeAt_eq_some_iff.mp h
  rw [toNat_readPointer_movedBy, hsize]
  omega

/-- After an error nothing is left to be said, and after a success the cursor counts. -/
theorem acksNamed_iff_of_run {st' : SessionState} {g' : Group} {r : ℤ} {n : ℕ}
    (hrun : handleAckCommand commandData st = some (r, st'))
    (hg' : st'.world.groups.get gh = some g')
    (hanswer : r = 0 ∧ st'.client = (st.client.send packetAcknowledged).2 ∨
      r = -1 ∧ st'.client = (st.client.send acknowledgeFailed).2 ∧ g' = g) :
    st.AcksNamed gh g path commandData n ↔
      (r = 0 ∧ g'.readPointer.toNat = g.readPointer.toNat + (4 + n) ∧
          (wholeAt (st.file path) g.readPointer.toNat).map UInt32.toNat = some n ∨
        r = -1) := by
  constructor
  · rintro ⟨r', st'', g'', hrun', hg'', hend⟩
    obtain ⟨rfl, rfl⟩ := Prod.mk.inj (Option.some.inj (hrun.symm.trans hrun'))
    obtain rfl := Option.some.inj (hg'.symm.trans hg'')
    exact hend.imp (And.imp_right And.right) And.left
  · intro hend
    refine ⟨r, st', g', hrun, hg', ?_⟩
    rcases hanswer with ⟨rfl, hclient⟩ | herror
    · exact .inl ⟨rfl, hclient, (hend.resolve_right (by omega)).2⟩
    · exact .inr herror

/-- The packet of the size is acknowledged, or nothing, exactly when a size that passes is `n`, and
a whole frame at the cursor has the size `n`, or there is none and no size passes. -/
theorem acksNamed_iff (h : st.SteadyOn gh th g path) (commandData : Bytes) (n : ℕ) :
    st.AcksNamed gh g path commandData n ↔
      (∀ packetSize, readSize commandData = some packetSize →
          SizePasses (st.file path) g.readPointer packetSize → packetSize.toNat = n) ∧
        ((wholeAt (st.file path) g.readPointer.toNat).map UInt32.toNat = some n ∨
          wholeAt (st.file path) g.readPointer.toNat = none ∧
            ∀ packetSize, readSize commandData = some packetSize →
              ¬ SizePasses (st.file path) g.readPointer packetSize) := by
  obtain ⟨r, st', g', hrun, hg', hcases⟩ := h.run_ack_cases commandData
  have hsmall := h.small
  have hanswer : r = 0 ∧ st'.client = (st.client.send packetAcknowledged).2 ∨
      r = -1 ∧ st'.client = (st.client.send acknowledgeFailed).2 ∧ g' = g := by
    rcases hcases with ⟨-, -, -, hr, hclient, -⟩ | ⟨-, ⟨-, -, hr, hclient, -⟩ | ⟨-, herror⟩⟩
    · exact .inl ⟨hr, hclient⟩
    · exact .inl ⟨hr, hclient⟩
    · exact .inr herror
  rw [acksNamed_iff_of_run hrun hg' hanswer]
  rcases hcases with ⟨packetSize, hread, hpasses, rfl, -, rfl⟩ |
    ⟨hrefused, ⟨size, hwhole, rfl, -, rfl⟩ | ⟨hwhole, rfl, -, rfl⟩⟩
  · -- A size passes: it decides where the cursor goes.
    have hcode : ¬ (0 : ℤ) = -1 := by decide
    simp only [hread, Option.some.injEq, forall_eq', hpasses, true_implies, not_true_eq_false,
      and_false, or_false, hcode, true_and]
    refine and_congr_left fun hframe => ?_
    obtain ⟨size, hwhole, rfl⟩ := Option.map_eq_some_iff.mp hframe
    obtain ⟨-, hfits⟩ := wholeAt_eq_some_iff.mp hwhole
    have hlt := packetSize.toNat_lt
    rw [toNat_readPointer_movedBy]
    omega
  · -- No size passes: the frame at the cursor is acknowledged.
    have hcode : ¬ (0 : ℤ) = -1 := by decide
    have hmoved := toNat_readPointer_of_wholeAt h.small hwhole (UInt32.toNat_toUInt64 size)
    simp only [hmoved, hwhole, Option.map_some, Option.some.injEq, hcode, or_false, true_and,
      reduceCtorEq, false_and]
    constructor
    · rintro ⟨-, rfl⟩
      exact ⟨fun packetSize hread hpasses => absurd hpasses (hrefused packetSize hread), rfl⟩
    · rintro ⟨-, rfl⟩
      exact ⟨rfl, rfl⟩
  · refine iff_of_true (.inr rfl) ⟨fun packetSize hread hpasses => ?_, .inr ⟨hwhole, hrefused⟩⟩
    exact absurd hpasses (hrefused packetSize hread)

/-- A session with a new group on a topic whose file has the content. -/
def ofFile (content : Bytes) : SessionState where
  world :=
    { fs := .ofFile (ascii "t") content
      faults := []
      topics := HandleHeap.empty.alloc
        ⟨⟨some (ascii "t"), some (ascii "t")⟩, some ⟨ascii "t", [], 0, 0, 0⟩⟩
      groups := HandleHeap.empty.alloc ⟨ascii "g", 0, 0, 0⟩ }
  session := ⟨some 0, some 0, some (ascii "g"), some (ascii "t")⟩
  client := ⟨[], [], []⟩

theorem steadyOn_ofFile {content : Bytes} (h : content.length < 2 ^ 63) :
    (ofFile content).SteadyOn 0 0 ⟨ascii "g", 0, 0, 0⟩ (ascii "t") := by
  have hon := Machine.onTopic_ofFile (ascii "t") content
  exact ⟨⟨rfl, rfl, rfl, rfl, _, rfl, hon⟩, _, rfl, hon, rfl, rfl, h⟩

theorem acksNamed_iff_sample :
    (ofFile (topicFormat.stream [ascii "a"])).AcksNamed 0 ⟨ascii "g", 0, 0, 0⟩ (ascii "t")
        (ascii "\x7b\"packet_size\":\"1\"\x7d") 1 ↔
      (∀ packetSize, readSize (ascii "\x7b\"packet_size\":\"1\"\x7d") = some packetSize →
          SizePasses ((ofFile (topicFormat.stream [ascii "a"])).file (ascii "t")) 0 packetSize →
            packetSize.toNat = 1) ∧
        ((wholeAt ((ofFile (topicFormat.stream [ascii "a"])).file (ascii "t"))
            (0 : UInt64).toNat).map UInt32.toNat = some 1 ∨
          wholeAt ((ofFile (topicFormat.stream [ascii "a"])).file (ascii "t"))
              (0 : UInt64).toNat = none ∧
            ∀ packetSize, readSize (ascii "\x7b\"packet_size\":\"1\"\x7d") = some packetSize →
              ¬ SizePasses ((ofFile (topicFormat.stream [ascii "a"])).file (ascii "t")) 0
                packetSize) :=
  acksNamed_iff (steadyOn_ofFile (by decide)) _ 1

/-- The payload names a size of three bytes, and the packet of one byte is acknowledged. -/
theorem not_acksNamed_sample :
    ¬ (ofFile (topicFormat.stream [ascii "a"])).AcksNamed 0 ⟨ascii "g", 0, 0, 0⟩ (ascii "t")
      (ascii "\x7b\"packet_size\":\"3\"\x7d") 3 := by
  rintro ⟨r, st', g', hrun, -, ⟨-, -, -, hwhole⟩ | ⟨hr, -⟩⟩
  · exact absurd hwhole (by decide)
  · have hcode : (handleAckCommand (ascii "\x7b\"packet_size\":\"3\"\x7d")
        (ofFile (topicFormat.stream [ascii "a"]))).map Prod.fst = some 0 := by decide +kernel
    have hne : ¬ (-1 : ℤ) = 0 := by decide
    rw [hrun, hr] at hcode
    exact hne (Option.some.inj hcode)

end SessionState

end SuparnaD
