import SuparnaD.Foundation.Interleaving
import SuparnaD.Foundation.Runs
import SuparnaD.Messaging.ReadOnly
import SuparnaD.Messaging.TopicWriting

/-!
# Publishing on a shared topic

Threads publish on one topic while others read from it, and take turns call by call: each function
of the writer holds the mutex of the chunk, but no lock spans the calls of one publishing function.
So the length header and the payload of an event can be torn apart, and a reload between an append
and the save drops what was appended. If neither happens, every event of a call that succeeds is in
the file exactly once, in a frame of its own.

## Main definitions

* `TopicCall` : the calls of the threads.
* `SharedTopic`, `SharedTopic.step` : the topic, the threads and how often each has appended.
* `SharedTopic.Meets` : appends do not come between a header and its payload, and reloads find
  nothing to save.
* `SharedTopic.WholeFrames` : what the file should hold in the end.

## Main results

* `TopicCall.threadAt_run` : the calls that a publishing thread issues.
* `SharedTopic.Tracked.step` : what one turn keeps.
* `SharedTopic.wholeFrames_of_meets`.
-/

namespace SuparnaD

open Broker CallProgram

/-! ### The calls of the threads -/

/-- The call is `chunk_append`. -/
def BrokerCall.isAppend : BrokerCall → Bool
  | .chunkAppend _ => true
  | _ => false

theorem BrokerCall.Reads.isAppend_eq {c : BrokerCall} (h : c.Reads) : c.isAppend = false := by
  cases c with
  | chunkAppend data => exact h.elim
  | _ => rfl

/-- What a thread does with the topic. -/
inductive TopicCall where
  | publishEvent (data : Option Bytes)
  | publishEventBatch (dataArray : List (Option Bytes))
  /-- `consume_packet`, or another function that reads. -/
  | reader (program : Broker ℤ) (h : program.ReadsOnly)

/-- The item is an event that can be published. -/
def IsEvent (item : Option Bytes) : Prop := ∃ d, item = some d ∧ topicFormat.Valid d

namespace TopicCall

/-- The program of the thread. -/
def run : TopicCall → Broker ℤ
  | .publishEvent data => SuparnaD.publishEvent data
  | .publishEventBatch dataArray => SuparnaD.publishEventBatch dataArray
  | .reader program _ => program

/-- What the call is given to publish. -/
def items : TopicCall → List (Option Bytes)
  | .publishEvent data => [data]
  | .publishEventBatch dataArray => dataArray
  | .reader _ _ => []

/-- The events that the call has published when it has returned the result. -/
def published (call : TopicCall) (result : ℤ) : List Bytes :=
  if result = 0 then call.items.filterMap id else []

/-- No item that is not an event comes after an event. -/
def Uniform (call : TopicCall) : Prop :=
  ∀ item items, call.items = item :: items → IsEvent item → ∀ item ∈ items, IsEvent item

end TopicCall

/-! ### The course of a publishing call -/

/-- The chunk has been found. -/
def chunkFound : CallEvent brokerCalls := ⟨.hasChunk, true⟩

/-- An append has succeeded. -/
def appended (data : Bytes) : CallEvent brokerCalls := ⟨.chunkAppend data, (0 : ℤ)⟩

/-- A save has succeeded. -/
def saved : CallEvent brokerCalls := ⟨.chunkSaveDelta, (0 : ℤ)⟩

/-- Publishing events: the two appends for each, and one save. -/
def publishScript (events : List Bytes) : List (CallEvent brokerCalls) :=
  (events.flatMap fun d => [appended (eventHeader d), appended d]) ++ [saved]

theorem publishScript_cons (d : Bytes) (events : List Bytes) : publishScript (d :: events) =
    appended (eventHeader d) :: appended d :: publishScript events := rfl

theorem follows_appendEvent (d : Bytes) :
    (appendEvent d).Follows [appended (eventHeader d), appended d] 0 := by
  refine (follows_issue (I := brokerCalls) (.chunkAppend (eventHeader d)) (0 : ℤ)).bind ?_
  rw [if_neg (not_not.mpr rfl)]
  exact (follows_issue (I := brokerCalls) (.chunkAppend d) (0 : ℤ)).bind (follows_ret _)

theorem follows_publishBatchLoop {events : List Bytes} (h : ∀ d ∈ events, topicFormat.Valid d) :
    (publishBatchLoop (events.map some)).Follows (publishScript events) 0 := by
  induction events with
  | nil => exact (follows_issue (I := brokerCalls) .chunkSaveDelta (0 : ℤ)).bind (follows_ret _)
  | cons d events ih =>
    obtain ⟨hd, hrest⟩ := List.forall_mem_cons.mp h
    rw [List.map_cons, publishBatchLoop, if_neg (valid_iff.mp hd), publishScript_cons]
    refine (follows_appendEvent d).bind ?_
    rw [if_neg (not_not.mpr rfl)]
    exact ih hrest

namespace TopicCall

/-- How far the thread of a call has come: which events it has appended, how often it has called
`chunk_append`, and what remains of its program. -/
inductive ThreadAt (call : TopicCall) : List Bytes → ℕ → Broker ℤ → Prop
  /-- It publishes nothing. -/
  | quiet {p : Broker ℤ} (h : p.Within BrokerCall.Reads fun r => call.published r = []) :
    ThreadAt call [] 0 p
  /-- It is about to look for the chunk. -/
  | opening {events : List Bytes} {p : Broker ℤ} (hitems : call.items = events.map some)
    (hvalid : ∀ d ∈ events, topicFormat.Valid d)
    (h : p.Follows (chunkFound :: publishScript events) 0) : ThreadAt call [] 0 p
  /-- It stands between two events, or before the save. -/
  | between {done rest : List Bytes} {p : Broker ℤ} (hitems : call.items = (done ++ rest).map some)
    (hvalid : ∀ d ∈ rest, topicFormat.Valid d)
    (h : p.Follows (publishScript rest) 0) : ThreadAt call done (2 * done.length) p
  /-- It stands between the header of an event and its payload. -/
  | middle {done rest : List Bytes} {d : Bytes} {p : Broker ℤ}
    (hitems : call.items = (done ++ d :: rest).map some)
    (hvalid : ∀ e ∈ d :: rest, topicFormat.Valid e)
    (h : p.Follows (appended d :: publishScript rest) 0) :
    ThreadAt call done (2 * done.length + 1) p
  /-- It has returned. -/
  | finished {done : List Bytes} (hitems : call.items = done.map some) :
    ThreadAt call done (2 * done.length) (.ret 0)

theorem published_of_ne_zero (call : TopicCall) {r : ℤ} (h : r ≠ 0) : call.published r = [] :=
  if_neg h

theorem published_zero {call : TopicCall} {events : List Bytes}
    (h : call.items = events.map some) : call.published 0 = events := by
  rw [published, if_pos rfl, h, List.filterMap_map]
  exact List.filterMap_some

/-- What a thread does next: it has returned, it reads, it saves, or it appends the header or the
payload of an event. -/
theorem ThreadAt.cases {call : TopicCall} {done : List Bytes} {n : ℕ} {p : Broker ℤ}
    (h : call.ThreadAt done n p) :
    (∃ r, p = .ret r ∧ done = call.published r) ∨
      (∃ c k, p = .call c k ∧ n = 0 ∧ c.Reads ∧ ∀ r : brokerCalls.Answer c,
        (∀ b : Bool, (⟨c, r⟩ : CallEvent brokerCalls) = ⟨.hasChunk, b⟩ → b = true) →
          call.ThreadAt done n (k r)) ∨
      (∃ k, p = .call .chunkSaveDelta k ∧ n % 2 = 0 ∧ call.ThreadAt done n (k (0 : ℤ))) ∨
      (∃ d k, p = .call (.chunkAppend (eventHeader d)) k ∧ n % 2 = 0 ∧
        (k (0 : ℤ)).next = some (.chunkAppend d) ∧ call.ThreadAt done (n + 1) (k (0 : ℤ))) ∨
      ∃ d k, p = .call (.chunkAppend d) k ∧ n % 2 = 1 ∧ topicFormat.Valid d ∧
        (k (0 : ℤ)).next ≠ none ∧ call.ThreadAt (done ++ [d]) (n + 1) (k (0 : ℤ)) := by
  cases h with
  | quiet h =>
    cases p with
    | ret r => exact .inl ⟨r, rfl, h.symm⟩
    | call c k => exact .inr (.inl ⟨c, k, rfl, rfl, h.1, fun r _ => .quiet (h.2 r)⟩)
  | opening hitems hvalid h =>
    obtain ⟨k, rfl, hrest⟩ := h.eq_call
    refine .inr (.inl ⟨.hasChunk, k, rfl, rfl, trivial, fun r hr => ?_⟩)
    obtain rfl : r = true := hr r rfl
    exact .between hitems hvalid hrest
  | @between _ rest _ hitems hvalid h =>
    have heven : 2 * done.length % 2 = 0 := Nat.mul_mod_right 2 _
    cases rest with
    | nil =>
      obtain ⟨k, rfl, hrest⟩ := h.eq_call
      refine .inr (.inr (.inl ⟨k, rfl, heven, ?_⟩))
      rw [List.append_nil] at hitems
      exact hrest.eq_ret ▸ .finished hitems
    | cons d rest =>
      obtain ⟨k, rfl, hrest⟩ := h.eq_call
      obtain ⟨k', hk', -⟩ := hrest.eq_call
      exact .inr (.inr (.inr (.inl ⟨d, k, rfl, heven, congrArg next hk',
        .middle hitems hvalid hrest⟩)))
  | @middle _ rest d _ hitems hvalid h =>
    obtain ⟨k, rfl, hrest⟩ := h.eq_call
    obtain ⟨hd, hvalid'⟩ := List.forall_mem_cons.mp hvalid
    have hnext : (k (0 : ℤ)).next ≠ none := by
      cases rest <;> obtain ⟨k', hk', -⟩ := hrest.eq_call <;>
        exact fun hnone => nomatch (congrArg next hk').symm.trans hnone
    have hlength : 2 * done.length + 1 + 1 = 2 * (done ++ [d]).length := by
      rw [List.length_append, List.length_singleton]
      omega
    refine .inr (.inr (.inr (.inr ⟨d, k, rfl, by omega, hd, hnext, ?_⟩)))
    rw [hlength]
    exact .between (by rwa [List.append_assoc, List.singleton_append]) hvalid' hrest
  | finished hitems => exact .inl ⟨0, rfl, (published_zero hitems).symm⟩

/-- The thread of a call that returns a failure at once. -/
theorem threadAt_of_ne_zero (call : TopicCall) {r : ℤ} (h : r ≠ 0) :
    call.ThreadAt [] 0 (pure r) :=
  .quiet (within_pure (call.published_of_ne_zero h))

theorem exists_events {items : List (Option Bytes)} (h : ∀ item ∈ items, IsEvent item) :
    ∃ events : List Bytes, items = events.map some ∧ ∀ d ∈ events, topicFormat.Valid d := by
  induction items with
  | nil => exact ⟨[], rfl, fun d hd => absurd hd List.not_mem_nil⟩
  | cons item items ih =>
    obtain ⟨⟨d, rfl, hd⟩, hrest⟩ := List.forall_mem_cons.mp h
    obtain ⟨events, rfl, hevents⟩ := ih hrest
    exact ⟨d :: events, rfl, List.forall_mem_cons.mpr ⟨hd, hevents⟩⟩

/-- A thread that looks for the chunk and then publishes. -/
theorem threadAt_opening {call : TopicCall} {events : List Bytes}
    (hitems : call.items = events.map some) (hvalid : ∀ d ∈ events, topicFormat.Valid d)
    {p : Broker ℤ} (h : p.Follows (publishScript events) 0) : call.ThreadAt [] 0 (do
      if !(← hasChunk) then
        return -1
      p) := by
  refine .opening hitems hvalid ?_
  exact (follows_issue (I := brokerCalls) .hasChunk true).bind h

theorem publishEvent_of_valid {d : Bytes} (hd : topicFormat.Valid d) :
    SuparnaD.publishEvent (some d) = (do
      if !(← hasChunk) then
        return -1
      publishBatchLoop [some d]) := by
  have hgood := not_or.mp (valid_iff.mp hd)
  rw [SuparnaD.publishEvent, if_neg hgood.1, if_neg hgood.2, publishBatchLoop,
    if_neg (valid_iff.mp hd), publishBatchLoop]

/-- Every call is at its start before its first step. -/
theorem threadAt_run {call : TopicCall} (h : call.Uniform) : call.ThreadAt [] 0 call.run := by
  cases call with
  | publishEvent data =>
    cases data with
    | none => exact threadAt_of_ne_zero _ (by omega)
    | some d =>
      by_cases hd : topicFormat.Valid d
      · rw [run, publishEvent_of_valid hd]
        have hvalid := List.forall_mem_singleton.mpr hd
        exact threadAt_opening rfl hvalid (follows_publishBatchLoop hvalid)
      · rw [run, SuparnaD.publishEvent]
        split_ifs with hzero hlong
        · exact threadAt_of_ne_zero _ (by omega)
        · exact threadAt_of_ne_zero _ (by omega)
        · exact absurd (valid_iff.mpr (not_or.mpr ⟨hzero, hlong⟩)) hd
  | publishEventBatch dataArray =>
    cases dataArray with
    | nil => exact threadAt_of_ne_zero _ (by omega)
    | cons item items =>
      rw [run, publishEventBatch_cons]
      by_cases hitem : IsEvent item
      · obtain ⟨events, hevents, hvalid⟩ := exists_events
          (List.forall_mem_cons.mpr ⟨hitem, h item items rfl hitem⟩)
        rw [hevents]
        exact threadAt_opening rfl hvalid (follows_publishBatchLoop hvalid)
      · have hfail : publishBatchLoop (item :: items) = pure (-1) := by
          cases item with
          | none => rfl
          | some d =>
            rw [publishBatchLoop, if_pos (not_not.mp fun hgood => ?_)]
            exact hitem ⟨d, rfl, valid_iff.mpr hgood⟩
        rw [hfail]
        refine .quiet (Within.bind readsOnly_hasChunk fun found _ => Within.ite ?_ ?_) <;>
          exact fun _ => within_pure (published_of_ne_zero _ (by omega))
  | reader program hreads =>
    refine .quiet (Within.mono hreads fun r _ => ?_)
    rw [published]
    split <;> rfl

end TopicCall

/-! ### Single calls -/

/-- The result of a function of the writer that can fail. -/
def writerResult : CallEvent brokerCalls → ℤ
  | ⟨.chunkLoad, r⟩ => r
  | ⟨.chunkAppend _, r⟩ => r
  | ⟨.chunkSaveDelta, r⟩ => r
  | _ => 0

/-- If the event is a call of the writer that can fail, it has succeeded. -/
def Succeeds (event : Option (CallEvent brokerCalls)) : Prop :=
  (event.map writerResult).getD 0 = 0

instance : DecidablePred Succeeds := fun _ => inferInstanceAs (Decidable (_ = _))

namespace Machine

variable {s s' : Machine} {path : Bytes} {l : DeltaLog UInt8}

theorem Logs.perform_chunkAppend (h : s.Logs path l) {data : Bytes} (hdata : data.length < 2 ^ 63)
    (hne : data ≠ []) (hcall : perform (.chunkAppend data) s = some ((0 : ℤ), s')) :
    s'.Logs path (l.append data) ∧ s'.file path = s.file path := by
  have hrun : (chunkAppend data).exec s = some ((0 : ℤ), s') :=
    (CallProgram.run_issue perform (BrokerCall.chunkAppend data) s).trans hcall
  obtain ⟨hkept, ⟨-, hlog⟩ | ⟨hneg, -⟩⟩ := h.exec_chunkAppend hdata hne hrun
  · exact ⟨hlog, congrArg (fun fs => (FileSystem.read fs path).getD []) hkept.fs⟩
  · cases hneg

theorem Logs.perform_chunkSaveDelta (h : s.Logs path l)
    (hcall : perform .chunkSaveDelta s = some ((0 : ℤ), s')) :
    s'.Logs path l.commit ∧ s'.file path = s.file path ++ l.pending := by
  have hrun : chunkSaveDelta.exec s = some ((0 : ℤ), s') :=
    (CallProgram.run_issue perform BrokerCall.chunkSaveDelta s).trans hcall
  obtain ⟨r, s₁, count, hsave, -, hwrote, -, hcases⟩ := h.exec_chunkSaveDelta
  obtain ⟨rfl, rfl⟩ := Prod.mk.inj (Option.some.inj (hsave.symm.trans hrun))
  rcases hcases with ⟨-, hdone, -, hlog⟩ | ⟨hneg, -⟩
  · exact ⟨hlog, by rw [hwrote.file, List.take_of_length_le hdone]⟩
  · cases hneg

/-- A load that succeeds leaves nothing to save, and the other calls that read change nothing. -/
theorem Logs.perform_reads (h : s.Logs path l) {c : BrokerCall} {r : brokerCalls.Answer c}
    (hcall : perform c s = some (r, s')) (hreads : c.Reads) (hok : Succeeds (some ⟨c, r⟩))
    (hload : c = .chunkLoad → l.pending = []) :
    ∃ l', s'.Logs path l' ∧ l'.pending = l.pending ∧ s'.file path = s.file path := by
  have hfile (hfs : s'.fs = s.fs) : s'.file path = s.file path :=
    congrArg (fun fs => (FileSystem.read fs path).getD []) hfs
  by_cases hc : c = .chunkLoad
  · subst hc
    have hrun : chunkLoad.exec s = some (r, s') :=
      (CallProgram.run_issue perform BrokerCall.chunkLoad s).trans hcall
    obtain ⟨s₁, hkept, -, ⟨-, hfail⟩ | ⟨v, -, hshow, hload'⟩⟩ := h.onTopic.exec_chunkLoad
    · obtain ⟨hneg, -⟩ := Prod.mk.inj (Option.some.inj (hfail.symm.trans hrun))
      cases hneg.trans hok
    · obtain ⟨-, rfl⟩ := Prod.mk.inj (Option.some.inj (hload'.symm.trans hrun))
      exact ⟨.load v, hshow, (DeltaLog.pending_load v).trans (hload rfl).symm, hfile hkept.fs⟩
  · obtain ⟨hfs, hchunk⟩ := perform_reads_eq hcall hreads hc
    obtain ⟨c, hs, hlog⟩ := h
    exact ⟨l, ⟨c, hchunk.trans hs, hlog⟩, rfl, hfile hfs⟩

end Machine

/-! ### Threads that share a topic -/

/-- A topic with the threads that work on it. -/
structure SharedTopic (ι : Type) where
  /-- The topic and what remains of the programs of the threads. -/
  pool : CallPool brokerCalls ι ℤ Machine
  /-- How often each thread has called `chunk_append`. -/
  appends : ι → ℕ

namespace SharedTopic

variable {ι : Type} [DecidableEq ι]

/-- One turn of one thread. -/
def step (t : SharedTopic ι) (i : ι) : Option (Option (CallEvent brokerCalls) × SharedTopic ι) :=
  (t.pool.step perform i).map fun r => (r.1, {
    pool := r.2
    appends := if r.1.any fun event => event.1.isAppend then
        Function.update t.appends i (t.appends i + 1)
      else t.appends })

/-- The threads before their first steps. -/
def start (calls : ι → TopicCall) (s : Machine) : SharedTopic ι :=
  ⟨⟨s, fun i => (calls i).run⟩, fun _ => 0⟩

/-- `chunk_save_delta` would find nothing to save. -/
def Saved (s : Machine) : Prop := ∀ c ∈ s.chunk, c.size ≤ c.persistedSize

instance : DecidablePred Saved := fun _ => inferInstanceAs (Decidable (∀ c ∈ _, _))

/-- A thread does not append while another one stands between the header and the payload of an
event, and does not load the chunk while there is something to save. -/
structure Meets (t : SharedTopic ι) (i : ι) : Prop where
  apart : (t.pool.threads i).next.any BrokerCall.isAppend = true → ∀ j, j ≠ i → t.appends j % 2 = 0
  settled : (t.pool.threads i).next = some .chunkLoad → Saved t.pool.state

/-- All calls have returned. -/
def AllReturned (t : SharedTopic ι) : Prop := ∀ i, (t.pool.threads i).returned.isSome

instance {n : ℕ} (t : SharedTopic (Fin n)) : Decidable t.AllReturned :=
  inferInstanceAs (Decidable (∀ i, (t.pool.threads i).returned.isSome = true))

/-- The events that a thread has published when it has returned. -/
def published (t : SharedTopic ι) (calls : ι → TopicCall) (i : ι) : List Bytes :=
  (t.pool.threads i).returned.elim [] (calls i).published

/-- The events of a thread in a list of events with the threads that have written them. -/
def eventsOf (log : List (ι × Bytes)) (i : ι) : List Bytes :=
  (log.filter fun e => e.1 = i).map Prod.snd

/-- The file is the content followed by one frame for each event that has been published. -/
def WholeFrames (t : SharedTopic ι) (calls : ι → TopicCall) (path content : Bytes) : Prop :=
  ∃ log : List (ι × Bytes),
    t.pool.state.file path = content ++ topicFormat.stream (log.map Prod.snd) ∧
      ∀ i, eventsOf log i = t.published calls i

variable {calls : ι → TopicCall} {path content : Bytes} {t t' : SharedTopic ι}
  {l l' : DeltaLog UInt8} {log : List (ι × Bytes)} {head : Bytes} {i j : ι}

theorem eventsOf_append_self (log : List (ι × Bytes)) (i : ι) (d : Bytes) :
    eventsOf (log ++ [(i, d)]) i = eventsOf log i ++ [d] := by
  simp only [eventsOf, List.filter_append, List.filter_cons, decide_true, ↓reduceIte,
    List.filter_nil, List.map_append, List.map_cons, List.map_nil]

theorem eventsOf_append_of_ne (h : j ≠ i) (log : List (ι × Bytes)) (d : Bytes) :
    eventsOf (log ++ [(i, d)]) j = eventsOf log j := by
  simp only [eventsOf, List.filter_append, List.filter_cons, h.symm, decide_false,
    Bool.false_eq_true, ↓reduceIte, List.filter_nil, List.append_nil]

/-- The invariant: the file with what is there to save is the content, the frames of the events that
have been appended, and the header of an event whose payload is still to come. -/
structure Tracked (t : SharedTopic ι) (calls : ι → TopicCall) (path content : Bytes)
    (l : DeltaLog UInt8) (log : List (ι × Bytes)) (head : Bytes) : Prop where
  logs : t.pool.state.Logs path l
  threads : ∀ j, (calls j).ThreadAt (eventsOf log j) (t.appends j) (t.pool.threads j)
  bytes : t.pool.state.file path ++ l.pending =
    content ++ topicFormat.stream (log.map Prod.snd) ++ head
  open_head : ∀ j, t.appends j % 2 = 1 →
    (∀ k, k ≠ j → t.appends k % 2 = 0) ∧
      ∃ d, (t.pool.threads j).next = some (.chunkAppend d) ∧ head = eventHeader d
  no_head : (∀ j, t.appends j % 2 = 0) → head = []
  unsaved : l.pending ≠ [] → ∃ j, 0 < t.appends j ∧ (t.pool.threads j).next ≠ none

/-- A thread takes a turn without appending. -/
theorem Tracked.quiet (h : t.Tracked calls path content l log head) {s' : Machine} {p : Broker ℤ}
    (hlogs : s'.Logs path l') (hthread : (calls i).ThreadAt (eventsOf log i) (t.appends i) p)
    (hbytes : s'.file path ++ l'.pending = t.pool.state.file path ++ l.pending)
    (heven : t.appends i % 2 = 0)
    (hunsaved : l'.pending ≠ [] → l.pending ≠ [] ∧ t.appends i = 0) :
    Tracked ⟨⟨s', Function.update t.pool.threads i p⟩, t.appends⟩ calls path content l' log
      head := by
  have hother {j : ι} (hne : j ≠ i) :
      Function.update t.pool.threads i p j = t.pool.threads j := Function.update_of_ne hne ..
  refine ⟨hlogs, fun j => ?_, hbytes.trans h.bytes, fun j hj => ?_, h.no_head, fun hpending => ?_⟩
  · by_cases hne : j = i
    · subst hne
      simpa only [Function.update_self] using hthread
    · simpa only [hother hne] using h.threads j
  · have hodd : t.appends j % 2 = 1 := hj
    have hne : j ≠ i := by
      rintro rfl
      omega
    simpa only [hother hne] using h.open_head j hodd
  · obtain ⟨hold, hzero⟩ := hunsaved hpending
    obtain ⟨j, hpos, hnext⟩ := h.unsaved hold
    have hne : j ≠ i := by
      rintro rfl
      omega
    exact ⟨j, hpos, by simpa only [hother hne] using hnext⟩

/-- A thread appends the header of an event while no other thread stands in the middle of one. -/
theorem Tracked.header (h : t.Tracked calls path content l log head)
    {s' : Machine} {p : Broker ℤ} {d : Bytes}
    (hlogs : s'.Logs path (l.append (eventHeader d)))
    (hthread : (calls i).ThreadAt (eventsOf log i) (t.appends i + 1) p)
    (hnext : p.next = some (.chunkAppend d)) (hfile : s'.file path = t.pool.state.file path)
    (heven : ∀ j, t.appends j % 2 = 0) :
    Tracked ⟨⟨s', Function.update t.pool.threads i p⟩,
      Function.update t.appends i (t.appends i + 1)⟩ calls path content
      (l.append (eventHeader d)) log (eventHeader d) := by
  refine ⟨hlogs, fun j => ?_, ?_, fun j hj => ?_, fun hall => ?_, fun _ => ⟨i, ?_, ?_⟩⟩
  · by_cases hne : j = i
    · subst hne
      simpa only [Function.update_self] using hthread
    · simpa only [Function.update_of_ne hne] using h.threads j
  · rw [hfile, DeltaLog.pending_append, ← List.append_assoc, h.bytes, h.no_head heven,
      List.append_nil]
  · have hji : j = i := by
      by_contra hne
      simp only [Function.update_of_ne hne] at hj
      have := heven j
      omega
    subst hji
    refine ⟨fun k hk => ?_, d, ?_, rfl⟩
    · simpa only [Function.update_of_ne hk] using heven k
    · simpa only [Function.update_self] using hnext
  · have hi := hall i
    have := heven i
    simp only [Function.update_self] at hi
    omega
  · simp only [Function.update_self]
    omega
  · simp only [Function.update_self, hnext]
    exact Option.some_ne_none _

/-- A thread appends the payload of an event. -/
theorem Tracked.payload (h : t.Tracked calls path content l log head)
    {s' : Machine} {p : Broker ℤ} {d : Bytes} (hlogs : s'.Logs path (l.append d))
    (hthread : (calls i).ThreadAt (eventsOf log i ++ [d]) (t.appends i + 1) p)
    (hnext : p.next ≠ none) (hfile : s'.file path = t.pool.state.file path)
    (hodd : t.appends i % 2 = 1) (hcall : (t.pool.threads i).next = some (.chunkAppend d)) :
    Tracked ⟨⟨s', Function.update t.pool.threads i p⟩,
      Function.update t.appends i (t.appends i + 1)⟩ calls path content
      (l.append d) (log ++ [(i, d)]) [] := by
  obtain ⟨hothers, d', hd', rfl⟩ := h.open_head i hodd
  obtain rfl : d = d' := by
    rw [hcall] at hd'
    exact BrokerCall.chunkAppend.inj (Option.some.inj hd')
  have heven (j : ι) : Function.update t.appends i (t.appends i + 1) j % 2 = 0 := by
    by_cases hne : j = i
    · rw [hne, Function.update_self]
      omega
    · rw [Function.update_of_ne hne]
      exact hothers j hne
  refine ⟨hlogs, fun j => ?_, ?_, fun j hj => ?_, fun _ => rfl, fun _ => ⟨i, ?_, ?_⟩⟩
  · by_cases hne : j = i
    · subst hne
      simpa only [Function.update_self, eventsOf_append_self] using hthread
    · simpa only [Function.update_of_ne hne, eventsOf_append_of_ne hne] using h.threads j
  · rw [hfile, DeltaLog.pending_append, ← List.append_assoc, h.bytes, List.append_nil,
      List.map_append, FrameFormat.stream_append, List.append_assoc, List.append_assoc]
    simp only [List.map_cons, List.map_nil, FrameFormat.stream_cons, FrameFormat.stream_nil,
      List.append_nil, topicFormat_frame, eventHeader]
  · exact absurd ((heven j).symm.trans hj) (by omega)
  · simp only [Function.update_self]
    omega
  · simpa only [Function.update_self] using hnext

/-- What one turn keeps. -/
theorem Tracked.step (h : t.Tracked calls path content l log head)
    {event : Option (CallEvent brokerCalls)} (hmeets : t.Meets i) (hok : Succeeds event)
    (hstep : t.step i = some (event, t')) :
    ∃ l' log' head', t'.Tracked calls path content l' log' head' := by
  obtain ⟨⟨event', pool'⟩, hpool, heq⟩ := Option.map_eq_some_iff.mp hstep
  obtain ⟨rfl, rfl⟩ := Prod.mk.inj heq
  rcases CallPool.step_eq_some_iff.mp hpool with
    ⟨a, -, rfl, rfl⟩ | ⟨c, k, r, s', hthread, hcall, rfl, rfl⟩
  · exact ⟨l, log, head, h⟩
  rcases (h.threads i).cases with ⟨r', hret, -⟩ | ⟨c', k', hthread', hzero, hreads, hnext⟩ |
    ⟨k', hthread', heven, hnext⟩ | ⟨d, k', hthread', heven, hpayload, hnext⟩ |
    ⟨d, k', hthread', hodd, hd, hgoes, hnext⟩
  · cases hthread.symm.trans hret
  · cases hthread.symm.trans hthread'
    have hload (hc : c = .chunkLoad) : l.pending = [] := by
      subst hc
      obtain ⟨c, hs, -, hc⟩ := h.logs
      exact hc.size_le_persistedSize_iff.mp (hmeets.settled (congrArg next hthread) c hs)
    have hfound (b : Bool) (heq : (⟨c, r⟩ : CallEvent brokerCalls) = ⟨.hasChunk, b⟩) :
        b = true := by
      cases heq
      obtain ⟨hchunk, -⟩ := Prod.mk.inj (Option.some.inj hcall)
      obtain ⟨c, hs, -⟩ := h.logs
      rw [← hchunk, hs, Option.isSome_some]
    obtain ⟨l', hlogs, hpending, hfile⟩ := h.logs.perform_reads hcall hreads hok hload
    rw [Option.any_some, hreads.isAppend_eq, if_neg Bool.false_ne_true]
    exact ⟨l', log, head, h.quiet hlogs (hnext r hfound) (by rw [hfile, hpending]) (by omega)
      fun hne => ⟨hpending ▸ hne, hzero⟩⟩
  · cases hthread.symm.trans hthread'
    obtain rfl : r = (0 : ℤ) := hok
    obtain ⟨hlogs, hfile⟩ := h.logs.perform_chunkSaveDelta hcall
    refine ⟨l.commit, log, head, h.quiet hlogs hnext ?_ heven fun hne => ?_⟩
    · rw [hfile, DeltaLog.pending_commit, List.append_nil]
    · exact absurd (DeltaLog.pending_commit l) hne
  · cases hthread.symm.trans hthread'
    obtain rfl : r = (0 : ℤ) := hok
    obtain ⟨hlogs, hfile⟩ := h.logs.perform_chunkAppend
      (by rw [length_eventHeader]; decide) (eventHeader_ne_nil d) hcall
    refine ⟨_, log, eventHeader d, h.header hlogs hnext hpayload hfile fun j => ?_⟩
    by_cases hne : j = i
    · rw [hne, heven]
    · exact hmeets.apart (by rw [hthread]; rfl) j hne
  · cases hthread.symm.trans hthread'
    obtain rfl : r = (0 : ℤ) := hok
    obtain ⟨hlogs, hfile⟩ := h.logs.perform_chunkAppend (length_lt_of_valid hd)
      (List.length_pos_iff.mp hd.1) hcall
    exact ⟨_, _, [], h.payload hlogs hnext hgoes hfile hodd (congrArg next hthread)⟩

theorem tracked_start (calls : ι → TopicCall) {s : Machine} (hlogs : s.Logs path l)
    (hsaved : Saved s) (huniform : ∀ i, (calls i).Uniform) :
    (start calls s).Tracked calls path (s.file path) l [] [] := by
  have hpending : l.pending = [] := by
    obtain ⟨c, hs, -, hc⟩ := hlogs
    exact hc.size_le_persistedSize_iff.mp (hsaved c hs)
  refine ⟨hlogs, fun i => TopicCall.threadAt_run (huniform i), ?_, fun j hj => ?_, fun _ => rfl,
    fun hne => absurd hpending hne⟩
  · rw [hpending, List.map_nil, FrameFormat.stream_nil, List.append_nil, List.append_nil,
      List.append_nil]
    rfl
  · cases hj

/-- When all calls have returned, everything is in the file. -/
theorem Tracked.wholeFrames (h : t.Tracked calls path content l log head)
    (hreturned : t.AllReturned) : t.WholeFrames calls path content := by
  have hret (i : ι) : ∃ r, t.pool.threads i = .ret r := by
    obtain ⟨r, hr⟩ := Option.isSome_iff_exists.mp (hreturned i)
    exact ⟨r, returned_eq_some_iff.mp hr⟩
  have hpending : l.pending = [] := by
    by_contra hne
    obtain ⟨i, -, hnext⟩ := h.unsaved hne
    obtain ⟨r, hr⟩ := hret i
    rw [hr] at hnext
    exact hnext rfl
  have hhead : head = [] := by
    refine h.no_head fun j => ?_
    by_contra hodd
    obtain ⟨-, d, hnext, -⟩ := h.open_head j (by omega)
    obtain ⟨r, hr⟩ := hret j
    rw [hr] at hnext
    cases hnext
  refine ⟨log, ?_, fun i => ?_⟩
  · have hbytes := h.bytes
    rwa [hpending, hhead, List.append_nil, List.append_nil] at hbytes
  obtain ⟨r, hr⟩ := hret i
  rw [published, hr, returned_ret, Option.elim_some]
  rcases (h.threads i).cases with ⟨r', hret', hdone⟩ | ⟨_, _, hthread, -⟩ | ⟨_, hthread, -⟩ |
    ⟨_, _, hthread, -⟩ | ⟨_, _, hthread, -⟩
  · cases hr.symm.trans hret'
    exact hdone
  all_goals cases hr.symm.trans hthread

/-- In a run whose calls of the writer succeed and whose turns meet the condition, the file holds
one frame for each event of a call that has returned `0`, when all calls have returned. -/
theorem wholeFrames_of_meets (calls : ι → TopicCall) {s : Machine} (hlogs : s.Logs path l)
    (hsaved : Saved s) (huniform : ∀ i, (calls i).Uniform) {turns : List ι}
    (hok : ∀ e ∈ trace step (start calls s) turns, Succeeds e.result)
    (hmeets : ∀ e ∈ trace step (start calls s) turns, e.before.Meets e.op) :
    ∀ e ∈ trace step (start calls s) turns, e.after.AllReturned →
      e.after.WholeFrames calls path (s.file path) := by
  refine trace_rule
    (fun t : SharedTopic ι => ∃ l log head, t.Tracked calls path (s.file path) l log head)
    (fun (t : SharedTopic ι) i => t.Meets i ∧
      ∀ event t', t.step i = some (event, t') → Succeeds event) ?_
    ⟨l, [], [], tracked_start calls hlogs hsaved huniform⟩ fun e he => ⟨hmeets e he, ?_⟩
  · rintro t i event t' ⟨l, log, head, h⟩ ⟨hmeets, hok⟩ hstep
    obtain ⟨l', log', head', h'⟩ := h.step hmeets (hok event t' hstep) hstep
    exact ⟨⟨l', log', head', h'⟩, h'.wholeFrames⟩
  · intro event t' hstep
    obtain ⟨heq, -⟩ := Prod.mk.inj (Option.some.inj ((step_of_mem_trace he).symm.trans hstep))
    exact heq ▸ hok e he

/-- Two threads publish on a new topic and a third one consumes. -/
def sampleCalls : Fin 3 → TopicCall
  | 0 => .publishEvent (some (ascii "a"))
  | 1 => .publishEventBatch [some (ascii "b"), some (ascii "c")]
  | 2 => .reader ((fun _ => 0) <$> consumePacket ⟨ascii "g", 0, 0, 0⟩ 0)
    ((readsOnly_consumePacket _ _).map fun _ _ => trivial)

/-- The topic, with an empty file. -/
def sampleTopic : Machine := .ofFile (ascii "t") []

/-- The chunk of the topic. -/
theorem logs_sampleTopic : sampleTopic.Logs (ascii "t") (.load []) :=
  ⟨_, rfl, rfl, (Writer.chunkInit_represents (o := .ok) rfl).2⟩

/-- One call after the other. -/
def sampleTurns : List (Fin 3) :=
  List.replicate 4 0 ++ List.replicate 6 1 ++ List.replicate 12 2

theorem wholeFrames_of_meets_sample :
    (∃ e ∈ trace step (start sampleCalls sampleTopic) sampleTurns, e.after.AllReturned) ∧
      ∀ e ∈ trace step (start sampleCalls sampleTopic) sampleTurns, e.after.AllReturned →
        e.after.WholeFrames sampleCalls (ascii "t") (sampleTopic.file (ascii "t")) := by
  refine ⟨by decide +kernel, wholeFrames_of_meets sampleCalls logs_sampleTopic (by decide) ?_
    (by decide +kernel) fun e he => ⟨?_, ?_⟩⟩
  · intro i item items hitems hevent
    match i with
    | 0 | 2 => cases hitems <;> simp
    | 1 =>
      cases hitems
      exact List.forall_mem_singleton.mpr ⟨ascii "c", rfl, by decide⟩
  · revert e
    decide +kernel
  · revert e
    decide +kernel

/-- The consumer loads the chunk when the others have appended and not yet saved. -/
def sampleRace : List (Fin 3) :=
  List.replicate 3 0 ++ List.replicate 5 1 ++ List.replicate 5 2 ++ [0, 1]

/-- The load drops all three events, the saves find nothing to save, and all calls succeed. -/
theorem not_wholeFrames_sample :
    (∀ e ∈ trace step (start sampleCalls sampleTopic) sampleRace, Succeeds e.result) ∧
      ∃ e ∈ trace step (start sampleCalls sampleTopic) sampleRace, e.after.AllReturned ∧
        ¬e.after.WholeFrames sampleCalls (ascii "t") (sampleTopic.file (ascii "t")) := by
  have hlost : ∃ e ∈ trace step (start sampleCalls sampleTopic) sampleRace, e.after.AllReturned ∧
      e.after.published sampleCalls 0 = [ascii "a"] ∧
      e.after.pool.state.file (ascii "t") = [] := by decide +kernel
  refine ⟨by decide +kernel, ?_⟩
  obtain ⟨e, he, hreturned, hpublished, hfile⟩ := hlost
  refine ⟨e, he, hreturned, ?_⟩
  rintro ⟨log, hbytes, hevents⟩
  have hlog : log = [] := by
    cases log with
    | nil => rfl
    | cons entry log =>
      rw [hfile, List.map_cons, FrameFormat.stream_cons] at hbytes
      have hlength := congrArg List.length hbytes
      simp only [List.length_append, FrameFormat.length_frame, topicFormat_headerLen,
        List.length_nil] at hlength
      omega
  rw [← hevents 0, hlog] at hpublished
  cases hpublished

end SharedTopic

end SuparnaD
