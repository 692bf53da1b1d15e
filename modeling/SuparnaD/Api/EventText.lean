import SuparnaD.Api.JsonLookup
import SuparnaD.Api.PublishEvent
import SuparnaD.Messaging.GroupIsolation

/-!
# From the text of an event to its frame

An event is sent as a JSON object with a topic and data. The handler looks up both strings and
publishes the data as a string. The lookups take the text of a value as it is written and recognize
a name only as it is written, so an event is stored as it was sent only when escapes do not matter.

## Main definitions

* `storeEvent` : the lookups and the publication of a request.
* `StoresEvent` : the event stored is the event sent.
* `ReadBack` : the members that are read back.

## Main results

* `lookups_eq_iff` : when both lookups give the values.
* `publishBody_of_storeEvent` : the handler stores an event in the topic that it opens or creates.
* `storesEvent_iff` : when the event stored is the event sent.
-/

namespace SuparnaD

open JsonText ApiM

/-! ### The lookups of both members -/

/-- Members that are read back. The values are plain, and so is the first name, and the second name
is plain or stands as the first value already; or the second name is plain and both values are the
first name. -/
def ReadBack : List Member → Prop
  | [m₁, m₂] => 92 ∉ m₁.valueText ∧ 92 ∉ m₂.valueText ∧
      (92 ∉ m₁.nameText ∧ (92 ∉ m₂.nameText ∨ m₁.value = m₂.name) ∨
        92 ∉ m₂.nameText ∧ m₁.value = m₁.name ∧ m₂.value = m₁.name)
  | _ => False

section

variable {m m₁ m₂ : Member}

theorem lastPart_nameText (hname : PlainKey (utf8 m.name)) : lastPart m.nameText = m.nameText :=
  lastPart_of_not_mem fun hquote => hname.quote (m.spells_name.of_mem_quote hquote).1

theorem lastPart_valueText (hvalue : 92 ∉ m.valueText) : lastPart m.valueText = utf8 m.value := by
  rw [lastPart_of_not_mem fun hquote => hvalue (m.spells_value.of_mem_quote hquote).2]
  exact m.spells_value.eq_utf8_iff.mpr hvalue

/-- A name is not taken for another plain one. -/
theorem nameText_ne {key : Bytes} (hkey : PlainKey key) (hne : utf8 m.name ≠ key) :
    m.nameText ≠ key := by
  intro heq
  have hplain : 92 ∉ m.nameText := heq ▸ hkey.backslash
  exact hne ((m.spells_name.eq_utf8_iff.mpr hplain).symm.trans heq)

variable {x : Object} (hx : x.members = [m₁, m₂]) (h₁ : PlainKey (utf8 m₁.name))
  (h₂ : PlainKey (utf8 m₂.name)) (hne : m₁.name ≠ m₂.name)

include hx h₁ h₂

/-- The lookup of a first name that is spelled plainly gives the first value. -/
theorem lookup_first_of_plain (hplain : 92 ∉ m₁.nameText) :
    findJsonString x.text (utf8 m₁.name) = some m₁.valueText := by
  rw [findJsonString_pair h₁ hx h₂.colon, lastPart_nameText h₁,
    if_pos (m₁.spells_name.eq_utf8_iff.mpr hplain)]

include hne

/-- The lookup of a first name with an escape can only find the first value, if that ends like the
name, and then gives the second value. -/
theorem lookup_first_of_escape (hescape : 92 ∈ m₁.nameText) :
    findJsonString x.text (utf8 m₁.name) =
      if lastPart m₁.valueText = utf8 m₁.name then some m₂.valueText else none := by
  have hother : m₂.nameText ≠ utf8 m₁.name :=
    nameText_ne h₁ fun h => hne (utf8_injective h).symm
  rw [findJsonString_pair h₁ hx h₂.colon, lastPart_nameText h₁, lastPart_nameText h₂,
    if_neg fun h => m₁.spells_name.eq_utf8_iff.mp h hescape]
  simp only [hother, or_false]

/-- The lookup of the second name. -/
theorem lookup_second :
    findJsonString x.text (utf8 m₂.name) =
      if lastPart m₁.valueText = utf8 m₂.name ∨ 92 ∉ m₂.nameText then some m₂.valueText
      else none := by
  have hother : m₁.nameText ≠ utf8 m₂.name := nameText_ne h₂ fun h => hne (utf8_injective h)
  rw [findJsonString_pair h₂ hx h₂.colon, lastPart_nameText h₁, lastPart_nameText h₂,
    if_neg hother]
  simp only [m₂.spells_name.eq_utf8_iff]

/-- When both lookups give the values. -/
theorem lookups_eq_iff :
    findJsonString x.text (utf8 m₁.name) = some (utf8 m₁.value) ∧
        findJsonString x.text (utf8 m₂.name) = some (utf8 m₂.value) ↔
      ReadBack x.members := by
  have hvalue₁ := m₁.spells_value.eq_utf8_iff
  have hvalue₂ := m₂.spells_value.eq_utf8_iff
  rw [lookup_second hx h₁ h₂ hne, Option.ite_none_right_eq_some, Option.some_inj, hvalue₂, hx,
    ReadBack]
  by_cases hescape : 92 ∈ m₁.nameText
  · rw [lookup_first_of_escape hx h₁ h₂ hne hescape, Option.ite_none_right_eq_some,
      Option.some_inj]
    constructor
    · rintro ⟨⟨hlast, heq⟩, hname, hplain₂⟩
      -- A quote in the first value would be one in the second, and that has no escapes.
      have hquote : 34 ∉ m₁.valueText := fun hmem =>
        hplain₂ (m₂.spells_value.of_mem_quote (heq ▸ (m₁.spells_value.of_mem_quote hmem).1)).2
      have hsame : m₁.valueText = utf8 m₁.name := by rwa [lastPart_of_not_mem hquote] at hlast
      have hplain₁ : 92 ∉ m₁.valueText := hsame ▸ h₁.backslash
      have hfirst : m₁.value = m₁.name := utf8_injective ((hvalue₁.mpr hplain₁).symm.trans hsame)
      have hsecond : m₂.value = m₁.value := utf8_injective ((hvalue₂.mpr hplain₂).symm.trans heq)
      refine ⟨hplain₁, hplain₂, .inr ⟨hname.resolve_left ?_, hfirst, hsecond.trans hfirst⟩⟩
      exact fun h => hne (utf8_injective (hlast.symm.trans h))
    · rintro ⟨hplain₁, hplain₂, ⟨hplain, -⟩ | ⟨hname, hfirst, hsecond⟩⟩
      · exact absurd hescape hplain
      refine ⟨⟨?_, ?_⟩, .inr hname, hplain₂⟩
      · rw [lastPart_valueText hplain₁, hfirst]
      · rw [hvalue₂.mpr hplain₂, hsecond, hfirst]
  · rw [lookup_first_of_plain hx h₁ h₂ hescape, Option.some_inj, hvalue₁]
    refine and_congr_right fun hplain₁ => ?_
    rw [lastPart_valueText hplain₁, utf8_injective.eq_iff]
    tauto

end

/-! ### Storing an event -/

/-- The lookups of `handle_publish_request` and its call of `publish_event_string`, on the topic at
hand. The result is the topic name with the result of the call. -/
def storeEvent (json : Bytes) : ApiM (Option (Bytes × ℤ)) := do
  let topicName ← extractJsonString json (ascii "topic")
  let data ← extractJsonString json (ascii "data")
  match topicName, data with
  | some topicName, some data => return some (topicName, ← broker (publishEventString (some data)))
  | _, _ => return none

/-- The event stored is the event sent: the topic name is `t`, the call returns `0`, and the frame
of `d` is at the end of the file. -/
def StoresEvent (path : Bytes) (b : Backlog) (t d : List Char) (x : Object)
    (st : ApiState) : Prop :=
  ∃ st', storeEvent (cString x.text) st = some (some (utf8 t, 0), st') ∧
    st'.machine.fs.read path = some (b.content ++ b.pending ++ topicFormat.frame (utf8 d))

theorem frame_injective : Function.Injective topicFormat.frame := by
  intro d e h
  have hlen := congrArg List.length h
  rw [FrameFormat.length_frame, FrameFormat.length_frame] at hlen
  exact (List.append_inj' h (by omega)).2

section

variable {st : ApiState} {path : Bytes} {b : Backlog}

theorem extractJsonString_of_faults (h : st.machine.faults = []) (json key : Bytes) :
    extractJsonString json key st = some (findJsonString json key, st) := by
  have hnext : st.machine.next = st.machine := by
    rw [Machine.next, h]
    exact congrArg (fun f => { st.machine with faults := f }) h.symm
  rw [extractJsonString]
  cases findJsonString json key with
  | none => rfl
  | some value =>
    show (broker Broker.malloc >>= fun granted => if granted then pure _ else pure none) st = _
    rw [broker_bind, Broker.exec_malloc, Machine.outcome_of_faults h, hnext, Option.bind_some]
    rfl

/-- On a text without zero bytes `publish_event_string` is `publish_event`. -/
theorem publishEventString_of_not_mem {d : Bytes} (hzero : 0 ∉ d) :
    publishEventString (some d) = publishEvent (some d) := by
  rw [publishEventString, cString_of_not_mem hzero]
  by_cases hempty : d.length = 0
  · rw [if_pos hempty, publishEvent, if_pos hempty]
  · rw [if_neg hempty]

namespace Backlog

theorem publishEvent_of_valid {d : Bytes} (hd : topicFormat.Valid d) :
    b.publishEvent (some d) = (0, ⟨some (b.content ++ b.pending ++ topicFormat.frame d), []⟩) := by
  obtain ⟨hpos, hsmall⟩ := not_or.mp (valid_iff.mp hd)
  have hne : b.pending ++ topicFormat.frame d ≠ [] := by
    refine List.append_ne_nil_of_right_ne_nil _ (List.length_pos_iff.mp ?_)
    rw [FrameFormat.length_frame]
    exact Nat.add_pos_right _ hd.1
  have hsaved : Writer.savedFile .ok b.file (b.pending ++ topicFormat.frame d) =
      some (b.content ++ b.pending ++ topicFormat.frame d) := by
    rw [Writer.savedFile, if_neg (not_or.mpr ⟨hne, fun hopens => hopens rfl⟩), Writer.saveCount_ok,
      List.take_length, ← List.append_assoc]
    rfl
  rw [publishEvent, if_neg hpos, if_neg hsmall, save, append, hsaved]

theorem valid_of_publishEvent {d : Bytes} (h : (b.publishEvent (some d)).1 = 0) :
    topicFormat.Valid d := by
  rw [publishEvent] at h
  split_ifs at h with hempty hlong
  · cases h
  · cases h
  · exact valid_iff.mpr (not_or.mpr ⟨hempty, hlong⟩)

end Backlog

/-- `publish_event_string` on a part of a text that there is room for. -/
theorem Machine.Holds.exec_publishEventString {s : Machine} {text d : Bytes}
    (h : s.Holds path b (text.length + 4)) (hzero : 0 ∉ text) (hpart : d <:+: text) :
    ∃ s', (publishEventString (some d)).exec s = some ((b.publishEvent (some d)).1, s') ∧
      s'.Holds path (b.publishEvent (some d)).2 0 := by
  rw [publishEventString_of_not_mem fun hmem => hzero (hpart.subset hmem)]
  refine Machine.Holds.exec_publishEvent (h.mono ?_)
  rw [Option.toList_some, FrameFormat.stream_cons, FrameFormat.stream_nil, List.append_nil,
    FrameFormat.length_frame, topicFormat_headerLen, Nat.add_comm 4]
  exact Nat.add_le_add_right hpart.length_le 4

theorem storeEvent_of_faults (h : st.machine.faults = []) (json : Bytes) :
    storeEvent json st =
      match findJsonString json (ascii "topic"), findJsonString json (ascii "data") with
      | some topicName, some data =>
        ((publishEventString (some data)).exec st.machine).map fun r =>
          (some (topicName, r.1), { st with machine := r.2 })
      | _, _ => some (none, st) := by
  rw [storeEvent, bind_of_eq_some (extractJsonString_of_faults h json _),
    bind_of_eq_some (extractJsonString_of_faults h json _)]
  cases findJsonString json (ascii "topic") with
  | none => rfl
  | some topicName =>
    cases findJsonString json (ascii "data") with
    | none => rfl
    | some data =>
      show (broker _ >>= _) st = _
      rw [broker_bind]
      exact Option.map_eq_bind.symm

/-- The treatment of a body stores the event in the topic that it opens or creates. -/
theorem publishBody_of_storeEvent {json topicName data : Bytes} {topic : Topic} {m : Machine}
    {r : ℤ} {st' : ApiState} (h : st.machine.faults = [])
    (htopic : findJsonString json (ascii "topic") = some topicName)
    (hdata : findJsonString json (ascii "data") = some data)
    (hopen : (getOrCreateTopic topicName).exec st.machine = some (some topic, m))
    (hm : m.faults = [])
    (hstore : storeEvent json { st with machine := m } = some (some (topicName, r), st')) :
    ∃ result st'', publishBody json st = some (result, st'') ∧
      st''.machine.fs = st'.machine.fs ∧
      st''.actions = st.actions ++ [.publish topicName data] := by
  rw [storeEvent_of_faults hm, htopic, hdata] at hstore
  obtain ⟨⟨r', m'⟩, hpublish, heq⟩ := Option.map_eq_some_iff.mp hstore
  obtain ⟨-, rfl⟩ := Prod.mk.inj heq
  rw [publishBody, bind_of_eq_some (extractJsonString_of_faults h json _),
    bind_of_eq_some (extractJsonString_of_faults h json _), htopic, hdata]
  show ∃ result st'', (broker (getOrCreateTopic topicName) >>= _) st = _ ∧ _
  rw [broker_bind, hopen, Option.bind_some]
  have hrecord : record (.publish topicName data) { st with machine := m } =
      some ((), { st with machine := m, actions := st.actions ++ [.publish topicName data] }) := rfl
  dsimp only
  rw [bind_of_eq_some hrecord, broker_bind, hpublish, Option.bind_some]
  dsimp only
  split
  all_goals
    obtain ⟨result, st₂, hreply, hmachine, hactions⟩ := ApiM.reply_eq_some _ _ _ _
    rw [bind_of_eq_some hreply, broker_bind, Broker.exec_chunkFree, Option.bind_some]
    have hfs := congrArg Machine.fs hmachine
    exact ⟨_, _, rfl, hfs, hactions⟩

/-- The event is stored as it was sent when both lookups give its strings and the data are not too
long. -/
theorem storesEvent_iff_lookups {t d : List Char} {x : Object} (hd : d ≠ [])
    (h : st.machine.Holds path b (x.text.length + 4)) :
    StoresEvent path b t d x st ↔
      (utf8 d).length ≤ maxEventSize ∧ findJsonString x.text (ascii "topic") = some (utf8 t) ∧
        findJsonString x.text (ascii "data") = some (utf8 d) := by
  have hpublish {v : Bytes} (hv : findJsonString x.text (ascii "data") = some v) :=
    h.exec_publishEventString x.not_mem_zero (infix_of_findJsonString hv)
  have hpos : 0 < (utf8 d).length :=
    List.length_pos_iff.mpr fun hnil => hd (utf8_injective hnil)
  rw [StoresEvent, cString_of_not_mem x.not_mem_zero, storeEvent_of_faults h.faults]
  constructor
  · rintro ⟨st', hrun, hfile⟩
    split at hrun
    · rename_i topicName data htopic hdata
      obtain ⟨s', hexec, hholds⟩ := hpublish hdata
      rw [hexec, Option.map_some] at hrun
      obtain ⟨hresult, rfl⟩ := Prod.mk.inj (Option.some.inj hrun)
      obtain ⟨rfl, hzero⟩ := Prod.mk.inj (Option.some.inj hresult)
      have hvalid := Backlog.valid_of_publishEvent hzero
      rw [Backlog.publishEvent_of_valid hvalid] at hholds
      have hframe := List.append_cancel_left (Option.some.inj (hholds.file.symm.trans hfile))
      obtain rfl := frame_injective hframe
      exact ⟨hvalid.2, htopic, hdata⟩
    · cases Option.some.inj hrun
  · rintro ⟨hsmall, htopic, hdata⟩
    obtain ⟨s', hexec, hholds⟩ := hpublish hdata
    rw [Backlog.publishEvent_of_valid ⟨hpos, hsmall⟩] at hexec hholds
    simp only [htopic, hdata, hexec]
    exact ⟨_, rfl, hholds.file⟩

end

/-! ### Events -/

/-- An object with the topic and the data of an event, in either order. -/
def IsEventObject (x : Object) (t d : List Char) : Prop :=
  x.fields = [("topic".toList, t), ("data".toList, d)] ∨
    x.fields = [("data".toList, d), ("topic".toList, t)]

theorem plainKey_topic : PlainKey (utf8 "topic".toList) :=
  ⟨by decide, by decide, by decide, by decide, by decide⟩

theorem plainKey_data : PlainKey (utf8 "data".toList) :=
  ⟨by decide, by decide, by decide, by decide, by decide⟩

/-- An object with two fields has two members. -/
theorem members_of_fields {x : Object} {n₁ v₁ n₂ v₂ : List Char}
    (h : x.fields = [(n₁, v₁), (n₂, v₂)]) :
    ∃ m₁ m₂, x.members = [m₁, m₂] ∧
      m₁.name = n₁ ∧ m₁.value = v₁ ∧ m₂.name = n₂ ∧ m₂.value = v₂ := by
  obtain ⟨m₁, ms, hms, hm₁, h⟩ := List.map_eq_cons_iff.mp h
  obtain ⟨m₂, ms, rfl, hm₂, h⟩ := List.map_eq_cons_iff.mp h
  obtain rfl := List.map_eq_nil_iff.mp h
  exact ⟨m₁, m₂, hms, congrArg Prod.fst hm₁, congrArg Prod.snd hm₁, congrArg Prod.fst hm₂,
    congrArg Prod.snd hm₂⟩

theorem lookups_event {x : Object} {t d : List Char} (hx : IsEventObject x t d) :
    findJsonString x.text (ascii "topic") = some (utf8 t) ∧
        findJsonString x.text (ascii "data") = some (utf8 d) ↔
      ReadBack x.members := by
  rw [show ascii "topic" = utf8 "topic".toList by decide,
    show ascii "data" = utf8 "data".toList by decide]
  rcases hx with hx | hx
  · obtain ⟨m₁, m₂, hm, hn₁, rfl, hn₂, rfl⟩ := members_of_fields hx
    rw [← hn₁, ← hn₂]
    exact lookups_eq_iff hm (hn₁ ▸ plainKey_topic) (hn₂ ▸ plainKey_data) (by rw [hn₁, hn₂]; decide)
  · obtain ⟨m₁, m₂, hm, hn₁, rfl, hn₂, rfl⟩ := members_of_fields hx
    rw [← hn₁, ← hn₂, and_comm]
    exact lookups_eq_iff hm (hn₁ ▸ plainKey_data) (hn₂ ▸ plainKey_topic) (by rw [hn₁, hn₂]; decide)

/-- While storage and allocation succeed, the event stored is the event sent exactly when its
members are read back and the data are not longer than an event may be. -/
theorem storesEvent_iff {st : ApiState} {path : Bytes} {b : Backlog} {x : Object} {t d : List Char}
    (hx : IsEventObject x t d) (hd : d ≠ []) (h : st.machine.Holds path b (x.text.length + 4)) :
    StoresEvent path b t d x st ↔ (utf8 d).length ≤ maxEventSize ∧ ReadBack x.members := by
  rw [storesEvent_iff_lookups hd h, lookups_event hx]

/-! ### Two events -/

/-- A new topic. -/
def sampleStore : ApiState := ⟨.ofFile (ascii "events.dat") (ascii "\x7b\x7d"), [], [], []⟩

/-- What matters of it. -/
def sampleBacklog : Backlog := ⟨some (ascii "\x7b\x7d"), []⟩

/-- An event with escapes where they are needed. -/
def eventText (data : List Char) : Object :=
  .ofFields [("topic".toList, "events".toList), ("data".toList, data)]

theorem isEventObject_eventText (data : List Char) :
    IsEventObject (eventText data) "events".toList data := .inl (Object.fields_ofFields _)

theorem storesEvent_iff_plain :
    StoresEvent (ascii "events.dat") sampleBacklog "events".toList "hello".toList
      (eventText "hello".toList) sampleStore :=
  (storesEvent_iff (isEventObject_eventText _) (by decide) (Machine.holds_ofFile (by decide))).mpr
    ⟨by decide, by decide, by decide, .inl ⟨by decide, .inl (by decide)⟩⟩

/-- Data that are JSON themselves. -/
def jsonData : List Char := "\x7b\"key\":\"value\"\x7d".toList

/-- Data with quotes are stored with the backslashes of their escapes. -/
theorem not_storesEvent_jsonData :
    IsEventObject (eventText jsonData) "events".toList jsonData ∧
      ¬ StoresEvent (ascii "events.dat") sampleBacklog "events".toList jsonData
        (eventText jsonData) sampleStore := by
  have hevent := isEventObject_eventText jsonData
  refine ⟨hevent, fun h => ?_⟩
  rw [storesEvent_iff_lookups (by decide) (Machine.holds_ofFile (by decide)),
    lookups_event hevent] at h
  obtain ⟨-, -, hdata, -⟩ := h
  exact hdata (by decide)

end SuparnaD
