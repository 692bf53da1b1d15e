import SuparnaD.Foundation.Disturbance
import SuparnaD.Foundation.FrameParsing
import SuparnaD.Foundation.Runs
import SuparnaD.Messaging.ReadOnly

/-!
# Consuming a log that grows

Other handles may append to the topic file between two calls of `consume_packet` and at any moment
inside a call, so also between its two loads. What a load shows is a prefix of what any later load
shows, and a frame that a prefix holds is a frame of the whole. So a group that consumes packet by
packet parses the final file incrementally.

## Main definitions

* `Broker.execGrowing` : execution while others append to the topic file.
* `LogReader`, `LogReader.step`, `LogReader.packets` : a group that consumes from a growing log.

## Main results

* `Machine.OnTopic.growing_consumePacket` : what one call does.
* `LogReader.consumes_frames`.
-/

namespace SuparnaD

open Broker CallProgram

/-- Execute a program of the broker while others append the scheduled pieces to the topic file, one
before each call as long as there is one. -/
def Broker.execGrowing {α : Type} (path : Bytes) (p : Broker α) (x : Machine × List Bytes) :
    Option (α × Machine × List Bytes) :=
  p.run (CallHandler.disturbed perform fun s bytes => s.grown path bytes) x

/-- The first state has become the second: some of the scheduled pieces have been appended to the
file, and otherwise only the content of the chunk has changed and outcomes have been used up. -/
structure GrowsTo (path : Bytes) (x y : Machine × List Bytes) : Prop where
  file : ∃ done, x.2 = done ++ y.2 ∧ y.1.file path = x.1.file path ++ done.flatten
  chunk : y.1.chunk.isSome = x.1.chunk.isSome
  faults : x.1.faults = [] → y.1.faults = []

namespace GrowsTo

variable {path : Bytes} {x y z : Machine × List Bytes}

theorem refl (path : Bytes) (x : Machine × List Bytes) : GrowsTo path x x :=
  ⟨⟨[], rfl, (List.append_nil _).symm⟩, rfl, id⟩

theorem trans (h : GrowsTo path x y) (h' : GrowsTo path y z) : GrowsTo path x z := by
  obtain ⟨done, hes, hfile⟩ := h.file
  obtain ⟨done', hes', hfile'⟩ := h'.file
  refine ⟨⟨done ++ done', ?_, ?_⟩, h'.chunk.trans h.chunk, fun hx => h'.faults (h.faults hx)⟩
  · rw [hes, hes', List.append_assoc]
  · rw [hfile', hfile, List.flatten_append, List.append_assoc]

theorem grows (h : GrowsTo path x y) : x.1.file path <+: y.1.file path := by
  obtain ⟨done, -, hfile⟩ := h.file
  exact ⟨done.flatten, hfile.symm⟩

/-- What is in the file and what will be appended to it. -/
theorem total (h : GrowsTo path x y) :
    y.1.file path ++ y.2.flatten = x.1.file path ++ x.2.flatten := by
  obtain ⟨done, hes, hfile⟩ := h.file
  rw [hfile, hes, List.flatten_append, List.append_assoc]

/-- A step on the machine that keeps the file. -/
theorem of_kept (path : Bytes) {s s' : Machine} (h : s.Kept s') (es : List Bytes) :
    GrowsTo path (s, es) (s', es) :=
  ⟨⟨[], rfl, by rw [List.flatten_nil, List.append_nil, Machine.file, h.fs, Machine.file]⟩,
    h.chunk, h.faults⟩

end GrowsTo

variable {path : Bytes}

/-- The pieces are appended one after the other. -/
theorem foldl_grown (path : Bytes) (done : List Bytes) (s : Machine) :
    (done.foldl (fun s bytes => s.grown path bytes) s).file path =
        s.file path ++ done.flatten ∧
      (done.foldl (fun s bytes => s.grown path bytes) s).chunk = s.chunk ∧
      (done.foldl (fun s bytes => s.grown path bytes) s).faults = s.faults := by
  induction done generalizing s with
  | nil => exact ⟨(List.append_nil _).symm, rfl, rfl⟩
  | cons e done ih =>
    obtain ⟨hfile, hchunk, hfaults⟩ := ih (s.grown path e)
    refine ⟨?_, hchunk, hfaults⟩
    rw [List.foldl_cons, hfile, Machine.file_grown, List.flatten_cons, List.append_assoc]

theorem growsTo_afterAction (path : Bytes) (x : Machine × List Bytes) :
    GrowsTo path x (CallHandler.afterAction (fun s bytes => s.grown path bytes) x) := by
  obtain ⟨s, es⟩ := x
  cases es with
  | nil => exact .refl path _
  | cons e es =>
    refine ⟨⟨[e], rfl, ?_⟩, rfl, id⟩
    rw [List.flatten_singleton]
    exact s.file_grown path e

/-! ### Calls that do not look at the file -/

/-- It makes no difference to a call that looks at the chunk in memory only whether the file grows
before or after it. -/
theorem perform_quiet_grown (c : BrokerCall) (r : brokerCalls.Answer c) (s s' : Machine)
    (bytes : Bytes) (hc : c.Quiet) (hcall : perform c s = some (r, s')) :
    perform c (s.grown path bytes) = some (r, s'.grown path bytes) := by
  cases c with
  | hasChunk | malloc =>
    obtain ⟨rfl, rfl⟩ := Prod.mk.inj (Option.some.inj hcall)
    rfl
  | chunkSize =>
    obtain ⟨c, hs, heq⟩ := Option.map_eq_some_iff.mp hcall
    obtain ⟨rfl, rfl⟩ := Prod.mk.inj heq
    exact Option.map_eq_some_iff.mpr ⟨c, hs, rfl⟩
  | chunkRead size offset =>
    have hsame : (s.grown path bytes).chunk = s.chunk := rfl
    cases hs : s.chunk <;> simp only [perform, hs, hsame, Option.some.injEq, Prod.mk.injEq]
      at hcall ⊢ <;> exact ⟨hcall.1, hcall.2 ▸ rfl⟩
  | _ => exact hc.elim

section

variable {α β : Type}

/-- A quiet program returns what it returns on a file that does not grow. -/
theorem execGrowing_of_quiet (path : Bytes) {p : Broker α} (hp : p.Quiet) {s s' : Machine} {a : α}
    (hrun : p.exec s = some (a, s')) (hkept : s.Kept s') (es : List Bytes) :
    ∃ y, p.execGrowing path (s, es) = some (a, y) ∧ GrowsTo path (s, es) y ∧
      y.1.chunk = s'.chunk := by
  obtain ⟨done, rest, rfl, hrun'⟩ := run_disturbed
    (fun s bytes => s.grown path bytes)
    (fun c r s s' bytes => perform_quiet_grown c r s s' bytes) hp hrun es
  obtain ⟨hfile, hchunk, hfaults⟩ := foldl_grown path done s'
  refine ⟨_, hrun', ⟨⟨done, rfl, ?_⟩, ?_, fun hs => hfaults.trans (hkept.faults hs)⟩, hchunk⟩
  · rw [hfile, Machine.file, hkept.fs, Machine.file]
  · rw [hchunk, hkept.chunk]

theorem execGrowing_bind (p : Broker α) (f : α → Broker β) (x : Machine × List Bytes) :
    (p >>= f).execGrowing path x =
      (p.execGrowing path x).bind fun r => (f r.1).execGrowing path r.2 :=
  run_bind _ p f x

end

/-! ### Loading a file that grows -/

namespace Machine

variable {x y : Machine × List Bytes} {α : Type}

theorem Shows.of_chunk {s s' : Machine} {v : Bytes} (h : s.Shows path v)
    (hchunk : s'.chunk = s.chunk) : s'.Shows path v := by
  obtain ⟨c, hs, hc⟩ := h
  exact ⟨c, hchunk.trans hs, hc⟩

theorem OnTopic.afterAction (h : x.1.OnTopic path) :
    (CallHandler.afterAction (fun s bytes => s.grown path bytes) x).1.OnTopic path := by
  obtain ⟨s, es⟩ := x
  cases es <;> exact h

/-- A function on a group goes on with the content that the file has at its load. -/
theorem OnTopic.growing_whenLoaded (h : x.1.OnTopic path) (failure : α) (body : Broker α) :
    ∃ y, GrowsTo path x y ∧ y.1.OnTopic path ∧
      ((whenLoaded failure body).execGrowing path x = some (failure, y) ∧
          ¬ (x.1.chunk.isSome = true ∧ x.1.faults = [] ∧ (y.1.file path).length < 2 ^ 63) ∨
        ∃ v, y.1.Shows path v ∧ v <+: y.1.file path ∧
          (x.1.faults = [] → x.1.file path <+: v) ∧
          (whenLoaded failure body).execGrowing path x = body.execGrowing path y) := by
  have hact₁ := growsTo_afterAction path x
  have h₁ := h.afterAction
  generalize hx₁ : CallHandler.afterAction (fun s bytes => s.grown path bytes) x = x₁ at *
  have hhas : hasChunk.execGrowing path x = some (x₁.1.chunk.isSome, x₁) := by
    rw [← hx₁]
    rfl
  by_cases hchunk : x₁.1.chunk.isSome = true
  swap
  · refine ⟨x₁, hact₁, h₁, .inl ⟨?_, fun hready => hchunk (hact₁.chunk.trans hready.1)⟩⟩
    rw [whenLoaded, execGrowing_bind, hhas, Option.bind_some, if_pos (by simpa using hchunk)]
    rfl
  have hact₂ := growsTo_afterAction path x₁
  have h₂ := OnTopic.afterAction h₁
  generalize hx₂ : CallHandler.afterAction (fun s bytes => s.grown path bytes) x₁ = x₂ at *
  obtain ⟨s₂, es₂⟩ := x₂
  have hact := hact₁.trans hact₂
  obtain ⟨s', hkept, ht, hload⟩ := OnTopic.exec_chunkLoad h₂
  have hgrowing (r : ℤ) (hrun : chunkLoad.exec s₂ = some (r, s')) :
      chunkLoad.execGrowing path x₁ = some (r, s', es₂) := by
    have hcall : perform .chunkLoad s₂ = some (r, s') :=
      (CallProgram.run_issue perform BrokerCall.chunkLoad s₂).symm.trans hrun
    refine (CallProgram.run_issue (I := brokerCalls) _ BrokerCall.chunkLoad x₁).trans ?_
    rw [CallHandler.disturbed, hx₂, hcall]
    rfl
  have hlast := GrowsTo.of_kept path hkept es₂
  refine ⟨(s', es₂), hact.trans hlast, ht, ?_⟩
  have hfile : s'.file path = s₂.file path := by rw [file, hkept.fs, file]
  rw [whenLoaded, execGrowing_bind, hhas, Option.bind_some, if_neg (by simp [hchunk]),
    execGrowing_bind]
  rcases hload with ⟨hv, hrun⟩ | ⟨v, hv, hshow, hrun⟩
  · refine .inl ⟨?_, ?_⟩
    · rw [hgrowing _ hrun]
      rfl
    · rintro ⟨hsome, hfaults, hsmall⟩
      have hsteady : s₂.Steady path :=
        ⟨h₂, hact.chunk.trans hsome, hact.faults hfaults, hfile ▸ hsmall⟩
      cases hv.symm.trans hsteady.view_eq
  · refine .inr ⟨v, hshow, ?_, fun hfaults => ?_, ?_⟩
    · rw [hfile]
      rcases OnTopic.view_eq h₂ hv with rfl | ⟨rfl, -⟩
      · exact List.prefix_refl _
      · exact List.nil_prefix
    · rcases OnTopic.view_eq h₂ hv with rfl | ⟨-, hne⟩
      · exact hact.grows
      · exact absurd (hact.faults hfaults) hne
    · rw [hgrowing _ hrun]
      rfl

/-- `read_packet_size_header` reads from the content that the file has at its load. -/
theorem OnTopic.growing_readPacketSizeHeader (h : x.1.OnTopic path) (g : Group) :
    ∃ size y, (readPacketSizeHeader g).execGrowing path x = some (size, y) ∧ GrowsTo path x y ∧
      (y.1.OnTopic path ∧ size = none ∧
          ¬ (x.1.chunk.isSome = true ∧ x.1.faults = [] ∧ (y.1.file path).length < 2 ^ 63) ∨
        ∃ v, y.1.Shows path v ∧ v <+: y.1.file path ∧
          (x.1.faults = [] → x.1.file path <+: v) ∧ size = headerAt v g.readPointer.toNat) := by
  rw [readPacketSizeHeader_eq]
  obtain ⟨⟨s₁, es₁⟩, hact₁, h₁, ⟨hrun, hnot⟩ | ⟨v, hshow, hv, hold, hrun⟩⟩ :=
    h.growing_whenLoaded none (readHeaderBody g)
  · exact ⟨_, _, hrun, hact₁, .inl ⟨h₁, rfl, hnot⟩⟩
  obtain ⟨y, hread, hact, hchunk⟩ := execGrowing_of_quiet path (quiet_readHeaderBody g)
    (hshow.exec_readHeaderBody g) (.refl s₁) es₁
  exact ⟨_, y, hrun.trans hread, hact₁.trans hact,
    .inr ⟨v, hshow.of_chunk hchunk, hv.trans hact.grows, hold, rfl⟩⟩

/-- `consume_packet` returns a packet of the file as it is in the end and moves past it, or returns
nothing and leaves the group as it was. If the file held a whole packet when the call began and
nothing fails, the call returns it. -/
theorem OnTopic.growing_consumePacket (h : x.1.OnTopic path) (g : Group) (topic : ℕ) :
    ∃ r y, (consumePacket g topic).execGrowing path x = some (r, y) ∧ GrowsTo path x y ∧
      y.1.OnTopic path ∧
      (r = (none, g) ∧ (g.attachedTopic = topic → x.1.chunk.isSome = true → x.1.faults = [] →
          (y.1.file path).length < 2 ^ 63 →
          topicFormat.parseAt (x.1.file path) g.readPointer.toNat = none) ∨
        ∃ d, topicFormat.parseAt (y.1.file path) g.readPointer.toNat = some d ∧
          r = (some (packetAt g d), afterPacket g d) ∧
          (afterPacket g d).readPointer.toNat = g.readPointer.toNat + (4 + d.length)) := by
  rw [consumePacket_eq]
  by_cases htopic : g.attachedTopic ≠ topic
  · rw [if_pos htopic]
    exact ⟨_, x, rfl, .refl path x, h, .inl ⟨rfl, fun heq => absurd heq htopic⟩⟩
  rw [if_neg htopic]
  -- The first load, with the comparison of the read pointer.
  obtain ⟨⟨s₁, es₁⟩, hact₁, h₁, hload₁⟩ := h.growing_whenLoaded (none, g) (consumeLoaded g)
  rcases hload₁ with ⟨hrun, hnot⟩ | ⟨v, hshow, hv, hold, hrun⟩
  · exact ⟨_, _, hrun, hact₁, h₁,
      .inl ⟨rfl, fun _ hsome hfaults hsmall => absurd ⟨hsome, hfaults, hsmall⟩ hnot⟩⟩
  rw [hrun, consumeLoaded]
  have hlt := hshow.length_lt
  obtain ⟨⟨s₂, es₂⟩, hsize, hact₂, hchunk₂⟩ :=
    execGrowing_of_quiet path quiet_chunkSize hshow.exec_chunkSize (.refl s₁) es₁
  rw [execGrowing_bind, hsize, Option.bind_some]
  have h₂ : s₂.OnTopic path := (hshow.of_chunk hchunk₂).onTopic
  by_cases hend : v.length ≤ g.readPointer.toNat
  · rw [if_pos (by rwa [UInt64.le_iff_toNat_le, toNat_toUInt64 (by omega)])]
    refine ⟨_, _, rfl, hact₁.trans hact₂, h₂, .inl ⟨rfl, fun _ _ hfaults _ => ?_⟩⟩
    exact FrameFormat.parseAt_eq_none_of_isPrefix (FrameFormat.parseAt_of_length_le hend)
      (hold hfaults)
  rw [if_neg (by rwa [UInt64.le_iff_toNat_le, toNat_toUInt64 (by omega)])]
  -- The second load, which may show more than the first.
  have hact := hact₁.trans hact₂
  obtain ⟨size, ⟨s₃, es₃⟩, hread, hact₃, hsecond⟩ :=
    OnTopic.growing_readPacketSizeHeader (x := (s₂, es₂)) h₂ g
  have hact' := hact.trans hact₃
  rw [execGrowing_bind, hread, Option.bind_some]
  rcases hsecond with ⟨h₃, rfl, hnot⟩ | ⟨w, hshow₃, hw, hold₃, rfl⟩
  · refine ⟨_, _, rfl, hact', h₃, .inl ⟨rfl, fun _ hsome hfaults hsmall => ?_⟩⟩
    exact absurd ⟨hact.chunk.trans hsome, hact.faults hfaults, hsmall⟩ hnot
  -- What was in the file at the beginning is still there at the second load.
  have hnone (hparse : topicFormat.parseAt w g.readPointer.toNat = none)
      (hfaults : x.1.faults = []) :
      topicFormat.parseAt (x.1.file path) g.readPointer.toNat = none :=
    FrameFormat.parseAt_eq_none_of_isPrefix hparse
      (hact.grows.trans (hold₃ (hact.faults hfaults)))
  cases hpacket : headerAt w g.readPointer.toNat with
  | none =>
    exact ⟨_, _, rfl, hact', hshow₃.onTopic,
      .inl ⟨rfl, fun _ _ hfaults _ => hnone (parseAt_of_headerAt_none hpacket) hfaults⟩⟩
  | some packetSize =>
    obtain ⟨r, s', hconsume, hkept, ht, hcases⟩ := hshow₃.exec_consumeBody g hpacket
    obtain ⟨⟨s₄, es₄⟩, hrun₄, hact₄, hchunk₄⟩ :=
      execGrowing_of_quiet path (quiet_consumeBody g packetSize) hconsume hkept es₃
    have h₄ : s₄.OnTopic path := fun c hc => ht c (hchunk₄.symm.trans hc)
    refine ⟨r, _, hrun₄, hact'.trans hact₄, h₄, ?_⟩
    rcases hcases with ⟨rfl, hparse⟩ | ⟨d, hd, rfl⟩
    · exact .inl ⟨rfl, fun _ _ hfaults _ => hnone (hparse (hact'.faults hfaults)) hfaults⟩
    · refine .inr ⟨d, ?_, rfl, toNat_readPointer_afterPacket hshow₃.length_lt hd⟩
      exact FrameFormat.parseAt_of_isPrefix hd (hw.trans hact₄.grows)

end Machine

/-! ### A group that consumes packet by packet -/

/-- A topic with a group. -/
structure LogReader where
  /-- The topic. -/
  machine : Machine
  /-- The group. -/
  group : Group

namespace LogReader

/-- One call of `consume_packet` while others append the scheduled pieces to the file at the path.
Pieces that are left over are appended after the call. -/
def step (path : Bytes) (topic : ℕ) (l : LogReader) (pieces : List Bytes) :
    Option (Option Packet × LogReader) :=
  ((consumePacket l.group topic).execGrowing path (l.machine, pieces)).map fun r =>
    (r.1.1, ⟨r.2.1.grown path r.2.2.flatten, r.1.2⟩)

/-- The packets of a run, each with its offset. -/
def packets (steps : List (RunStep LogReader (List Bytes) (Option Packet))) :
    List (ℕ × Bytes) :=
  steps.filterMap fun e => e.result.map fun p => (p.offsetInTopic.toNat, p.data)

/-- A call returns a packet that starts at the read pointer and moves past it, or leaves the group
as it was. -/
def Consistent (e : RunStep LogReader (List Bytes) (Option Packet)) : Prop :=
  match e.result with
  | none => e.after.group = e.before.group
  | some p => p.offsetInTopic = e.before.group.readPointer ∧
      p.packetSize.toNat = p.data.length ∧
      e.after.group.readPointer.toNat = e.before.group.readPointer.toNat + (4 + p.data.length)

/-- Storage and allocation succeed on the group's own topic. -/
structure Healthy (path : Bytes) (topic : ℕ) (l : LogReader) : Prop where
  attached : l.group.attachedTopic = topic
  chunk : l.machine.chunk.isSome = true
  faults : l.machine.faults = []

variable {path : Bytes} {topic : ℕ} {l l' : LogReader} {pieces : List Bytes}

/-- What one call does. -/
theorem run_step (h : l.machine.OnTopic path) (topic : ℕ) (pieces : List Bytes) :
    ∃ r l', l.step path topic pieces = some (r, l') ∧ l'.machine.OnTopic path ∧
      l'.machine.file path = l.machine.file path ++ pieces.flatten ∧
      (Healthy path topic l → Healthy path topic l') ∧
      (r = none ∧ l'.group = l.group ∧ (Healthy path topic l →
          (l'.machine.file path).length < 2 ^ 63 →
          topicFormat.parseAt (l.machine.file path) l.group.readPointer.toNat = none) ∨
        ∃ d, topicFormat.parseAt (l'.machine.file path) l.group.readPointer.toNat = some d ∧
          r = some (packetAt l.group d) ∧ l'.group = afterPacket l.group d ∧
          l'.group.readPointer.toNat = l.group.readPointer.toNat + (4 + d.length)) := by
  obtain ⟨⟨p, g'⟩, ⟨s', es⟩, hrun, hact, ht, hcases⟩ :=
    Machine.OnTopic.growing_consumePacket (x := (l.machine, pieces)) h l.group topic
  have hfile : (s'.grown path es.flatten).file path =
      l.machine.file path ++ pieces.flatten := by
    rw [Machine.file_grown]
    exact hact.total
  refine ⟨p, ⟨s'.grown path es.flatten, g'⟩, Option.map_eq_some_iff.mpr ⟨_, hrun, rfl⟩, ht, hfile,
    fun hhealthy => ⟨?_, hact.chunk.trans hhealthy.chunk, hact.faults hhealthy.faults⟩, ?_⟩
  · rcases hcases with ⟨heq, -⟩ | ⟨d, -, heq, -⟩ <;> obtain ⟨-, rfl⟩ := Prod.mk.inj heq <;>
      exact hhealthy.attached
  rcases hcases with ⟨heq, hnone⟩ | ⟨d, hd, heq, hpointer⟩
  · obtain ⟨rfl, rfl⟩ := Prod.mk.inj heq
    refine .inl ⟨rfl, rfl, fun hhealthy hsmall => hnone hhealthy.attached hhealthy.chunk
      hhealthy.faults (Nat.lt_of_le_of_lt ?_ hsmall)⟩
    rw [Machine.file_grown, List.length_append]
    exact Nat.le_add_right _ _
  · obtain ⟨rfl, rfl⟩ := Prod.mk.inj heq
    refine .inr ⟨d, FrameFormat.parseAt_of_isPrefix hd ⟨es.flatten, ?_⟩, rfl, rfl, hpointer⟩
    exact (s'.file_grown path es.flatten).symm

theorem packets_cons_none {e : RunStep LogReader (List Bytes) (Option Packet)}
    (h : e.result = none) (steps) : packets (e :: steps) = packets steps := by
  rw [packets, List.filterMap_cons_none (by rw [h]; rfl), packets]

theorem packets_cons_some {e : RunStep LogReader (List Bytes) (Option Packet)} {p : Packet}
    (h : e.result = some p) (steps) :
    packets (e :: steps) = (p.offsetInTopic.toNat, p.data) :: packets steps := by
  rw [packets, List.filterMap_cons_some (by rw [h]; rfl), packets]

/-- The topic file after everything scheduled has been appended. -/
def finalFile (path : Bytes) (l : LogReader) (schedule : List (List Bytes)) : Bytes :=
  l.machine.file path ++ schedule.flatten.flatten

theorem finalFile_cons (hfile : l'.machine.file path = l.machine.file path ++ pieces.flatten)
    (schedule : List (List Bytes)) :
    l'.finalFile path schedule = l.finalFile path (pieces :: schedule) := by
  rw [finalFile, hfile, finalFile, List.flatten_cons, List.flatten_append, List.append_assoc]

/-- The packets that have been returned are the first frames of the final file. -/
theorem packets_isPrefix (h : l.machine.OnTopic path) (topic : ℕ) (schedule : List (List Bytes)) :
    packets (trace (step path topic) l schedule) <+:
      topicFormat.frames (l.finalFile path schedule) l.group.readPointer.toNat := by
  induction schedule generalizing l with
  | nil => exact List.nil_prefix
  | cons pieces schedule ih =>
    obtain ⟨r, l', hstep, h', hfile, -, hcases⟩ := run_step h topic pieces
    have hrest := ih h'
    rw [finalFile_cons hfile] at hrest
    rw [trace_cons_of_some hstep]
    rcases hcases with ⟨rfl, hgroup, -⟩ | ⟨d, hd, rfl, -, hpointer⟩
    · rw [packets_cons_none rfl]
      rwa [hgroup] at hrest
    · have hparse : topicFormat.parseAt (l.finalFile path (pieces :: schedule))
          l.group.readPointer.toNat = some d := by
        rw [← finalFile_cons hfile]
        exact FrameFormat.parseAt_of_isPrefix hd (List.prefix_append _ _)
      rw [packets_cons_some rfl, FrameFormat.frames_of_some hparse]
      rw [hpointer] at hrest
      exact List.cons_prefix_cons.mpr ⟨rfl, hrest⟩

/-- When the file has stopped growing, every call returns the next frame, to the last one. -/
theorem packets_replicate (h : l.machine.OnTopic path) (hhealthy : Healthy path topic l)
    (hsmall : (l.machine.file path).length < 2 ^ 63) (k : ℕ) :
    packets (trace (step path topic) l (List.replicate k [])) =
      (topicFormat.frames (l.machine.file path) l.group.readPointer.toNat).take k := by
  induction k generalizing l with
  | zero => rfl
  | succ k ih =>
    obtain ⟨r, l', hstep, h', hfile, hkeep, hcases⟩ := run_step h topic []
    rw [List.flatten_nil, List.append_nil] at hfile
    have hrest := ih h' (hkeep hhealthy) (hfile ▸ hsmall)
    rw [List.replicate_succ, trace_cons_of_some hstep]
    rw [hfile] at hrest hcases
    rcases hcases with ⟨rfl, hgroup, hnone⟩ | ⟨d, hd, rfl, -, hpointer⟩
    · rw [packets_cons_none rfl, hrest, hgroup,
        FrameFormat.frames_of_none (hnone hhealthy hsmall), List.take_nil, List.take_nil]
    · rw [packets_cons_some rfl, hrest, hpointer, FrameFormat.frames_of_some hd,
        List.take_succ_cons]
      rfl

/-- After enough further calls all frames of the final file have been returned. -/
theorem packets_append_replicate (h : l.machine.OnTopic path) (hhealthy : Healthy path topic l)
    (schedule : List (List Bytes)) (hsmall : (l.finalFile path schedule).length < 2 ^ 63) :
    ∃ n, ∀ k, n ≤ k →
      packets (trace (step path topic) l (schedule ++ List.replicate k [])) =
        topicFormat.frames (l.finalFile path schedule) l.group.readPointer.toNat := by
  induction schedule generalizing l with
  | nil =>
    have hfinal : l.finalFile path [] = l.machine.file path := List.append_nil _
    rw [hfinal] at hsmall ⊢
    refine ⟨(topicFormat.frames (l.machine.file path) l.group.readPointer.toNat).length,
      fun k hk => ?_⟩
    rw [List.nil_append, packets_replicate h hhealthy hsmall, List.take_of_length_le hk]
  | cons pieces schedule ih =>
    obtain ⟨r, l', hstep, h', hfile, hkeep, hcases⟩ := run_step h topic pieces
    rw [← finalFile_cons hfile] at hsmall ⊢
    obtain ⟨n, hn⟩ := ih h' (hkeep hhealthy) hsmall
    refine ⟨n, fun k hk => ?_⟩
    rw [List.cons_append, trace_cons_of_some hstep]
    rcases hcases with ⟨rfl, hgroup, -⟩ | ⟨d, hd, rfl, -, hpointer⟩
    · rw [packets_cons_none rfl, hn k hk, hgroup]
    · have hparse : topicFormat.parseAt (l'.finalFile path schedule)
          l.group.readPointer.toNat = some d :=
        FrameFormat.parseAt_of_isPrefix hd (List.prefix_append _ _)
      rw [packets_cons_some rfl, hn k hk, hpointer, FrameFormat.frames_of_some hparse]
      rfl

theorem consistent_step (h : l.machine.OnTopic path) {r : Option Packet}
    (hstep : l.step path topic pieces = some (r, l')) :
    l'.machine.OnTopic path ∧ Consistent ⟨l, pieces, r, l'⟩ := by
  obtain ⟨r', l'', hstep', h', -, -, hcases⟩ := run_step h topic pieces
  obtain ⟨rfl, rfl⟩ := Prod.mk.inj (Option.some.inj (hstep.symm.trans hstep'))
  refine ⟨h', ?_⟩
  rcases hcases with ⟨rfl, hgroup, -⟩ | ⟨d, hd, rfl, -, hpointer⟩
  · exact hgroup
  · obtain ⟨-, hvalid, -⟩ := FrameFormat.parseAt_eq_some_iff.mp hd
    have hlt := lt_of_le_maxPacketSize hvalid.2
    exact ⟨rfl, toNat_toUInt32 (by omega), hpointer⟩

/-- Whatever is appended to the file between the calls and inside them, every call returns, the
packets are the first frames of the final file from the read pointer on, each call moves past the
packet that it returns, and once the file has stopped growing enough further calls return all
frames. -/
theorem consumes_frames (h : l.machine.OnTopic path) (topic : ℕ) (schedule : List (List Bytes)) :
    (trace (step path topic) l schedule).length = schedule.length ∧
      packets (trace (step path topic) l schedule) <+:
        topicFormat.frames (l.finalFile path schedule) l.group.readPointer.toNat ∧
      (∀ e ∈ trace (step path topic) l schedule, Consistent e) ∧
      (Healthy path topic l → (l.finalFile path schedule).length < 2 ^ 63 →
        ∃ n, ∀ k, n ≤ k →
          packets (trace (step path topic) l (schedule ++ List.replicate k [])) =
            topicFormat.frames (l.finalFile path schedule) l.group.readPointer.toNat) := by
  refine ⟨?_, packets_isPrefix h topic schedule, ?_, fun hhealthy hsmall =>
    packets_append_replicate h hhealthy schedule hsmall⟩
  · refine length_trace (fun l => l.machine.OnTopic path) (fun _ => True) (fun l pieces hl _ => ?_)
      h fun _ _ => trivial
    obtain ⟨r, l', hstep, hl', -⟩ := run_step hl topic pieces
    exact ⟨r, l', hstep, hl'⟩
  · exact trace_always (fun l => l.machine.OnTopic path)
      (fun l pieces r l' hl hstep => consistent_step hl hstep) h schedule

/-- A group at the start of a file that holds one byte of a frame. -/
def sampleReader : LogReader := ⟨.ofFile (ascii "t") [1], ⟨ascii "g", 0, 0, 0⟩⟩

/-- The frame is completed during the first call, and half of another one follows. -/
def sampleSchedule : List (List Bytes) := [[[], [], [0, 0, 0, 65], [], [2, 0]], []]

theorem consumes_frames_sample :
    (trace (step (ascii "t") 0) sampleReader sampleSchedule).length = 2 ∧
      packets (trace (step (ascii "t") 0) sampleReader sampleSchedule) <+:
        topicFormat.frames [1, 0, 0, 0, 65, 2, 0] 0 ∧
      (∀ e ∈ trace (step (ascii "t") 0) sampleReader sampleSchedule, Consistent e) ∧
      (Healthy (ascii "t") 0 sampleReader →
        (sampleReader.finalFile (ascii "t") sampleSchedule).length < 2 ^ 63 →
        ∃ n, ∀ k, n ≤ k →
          packets (trace (step (ascii "t") 0) sampleReader
            (sampleSchedule ++ List.replicate k [])) =
              topicFormat.frames [1, 0, 0, 0, 65, 2, 0] 0) :=
  consumes_frames (Machine.onTopic_ofFile _ _) 0 sampleSchedule

end LogReader

end SuparnaD
