import SuparnaD.Foundation.Interleaving
import SuparnaD.Messaging.TopicReading

/-!
# The calls of a reader

A function on a group loads the chunk, asks for its size, copies bytes out of it and allocates.
Between two loads it looks at the chunk in memory only. The bounds on the calls of the functions are
proved here once, and each use of them weakens the bound to the kind of calls that it is about.

## Main definitions

* `BrokerCall.Quiet`, `Broker.Quiet` : calls that look at the chunk in memory only.
* `BrokerCall.Looks`, `Broker.Looks` : these calls and `chunk_load`.

## Main results

* `looks_consumePacket`, `looks_ackPacketBySize`, `looks_ackPacketBatch`.
-/

namespace SuparnaD

open Broker CallProgram

variable {α β : Type}

/-! ### The chunk in memory -/

/-- The calls of a reader that look at the chunk in memory only. -/
def BrokerCall.Quiet : BrokerCall → Prop
  | .hasChunk | .chunkRead _ _ | .chunkSize | .malloc => True
  | _ => False

/-- The program looks at the chunk in memory only. -/
def Broker.Quiet {α : Type} (p : Broker α) : Prop := p.Within BrokerCall.Quiet fun _ => True

theorem quiet_pure (a : α) : (pure a : Broker α).Quiet := trivial

theorem Broker.Quiet.bind {p : Broker α} {f : α → Broker β} (hp : p.Quiet)
    (hf : ∀ a, (f a).Quiet) : (p >>= f).Quiet := Within.bind hp fun a _ => hf a

theorem Broker.Quiet.unless {b : Prop} [Decidable b] {p : Broker α} (a : α) (hp : p.Quiet) :
    (if b then pure a else p).Quiet := Within.ite (fun _ => quiet_pure a) fun _ => hp

theorem quiet_issue {c : BrokerCall} (h : c.Quiet) :
    Broker.Quiet (CallProgram.issue c : CallProgram brokerCalls _) := ⟨h, fun _ => trivial⟩

theorem quiet_hasChunk : hasChunk.Quiet := quiet_issue trivial

theorem quiet_chunkSize : chunkSize.Quiet := quiet_issue trivial

theorem quiet_malloc : malloc.Quiet := quiet_issue trivial

theorem quiet_chunkRead (size offset : UInt64) : (chunkRead size offset).Quiet :=
  quiet_issue trivial

theorem quiet_readHeaderBody (g : Group) : (readHeaderBody g).Quiet :=
  quiet_chunkSize.bind fun _ => .unless _ ((quiet_chunkRead _ _).bind fun _ => .unless _
    (quiet_pure _))

theorem quiet_consumeBody (g : Group) (packetSize : UInt32) :
    (consumeBody g packetSize).Quiet := by
  refine .unless _ (quiet_chunkSize.bind fun _ => .unless _ ?_)
  refine quiet_malloc.bind fun _ => .unless _ (quiet_malloc.bind fun _ => .unless _ ?_)
  exact (quiet_chunkRead _ _).bind fun _ => .unless _ (quiet_pure _)

/-- Each round of the loop over a batch looks at one header. -/
theorem quiet_ackBatchLoop (count : ℕ) (currentOffset packetsAcked : UInt64) :
    (ackBatchLoop count currentOffset packetsAcked).Quiet := by
  induction count generalizing currentOffset packetsAcked with
  | zero => exact quiet_pure _
  | succ count ih =>
    refine quiet_chunkSize.bind fun _ => .unless _ ?_
    refine (quiet_chunkRead _ _).bind fun _ => .unless _ ?_
    exact quiet_chunkSize.bind fun _ => .unless _ (ih _ _)

/-! ### Loads -/

/-- The calls that look at the chunk, and `chunk_load`. -/
def BrokerCall.Looks : BrokerCall → Prop
  | .hasChunk | .chunkLoad | .chunkRead _ _ | .chunkSize | .malloc => True
  | _ => False

/-- The program looks at the chunk and may load it. -/
def Broker.Looks {α : Type} (p : Broker α) : Prop := p.Within BrokerCall.Looks fun _ => True

theorem Broker.Quiet.looks {p : Broker α} (hp : p.Quiet) : p.Looks :=
  Within.weaken hp fun c hc => by cases c <;> trivial

theorem looks_chunkLoad : chunkLoad.Looks := ⟨trivial, fun _ => trivial⟩

theorem Broker.Looks.bind {p : Broker α} {f : α → Broker β} (hp : p.Looks)
    (hf : ∀ a, (f a).Looks) : (p >>= f).Looks := Within.bind hp fun a _ => hf a

theorem Broker.Looks.unless {b : Prop} [Decidable b] {p : Broker α} (a : α) (hp : p.Looks) :
    (if b then pure a else p).Looks := Within.ite (fun _ => (quiet_pure a).looks) fun _ => hp

theorem looks_whenLoaded {failure : α} {body : Broker α} (h : body.Looks) :
    (whenLoaded failure body).Looks :=
  quiet_hasChunk.looks.bind fun _ => .unless failure
    (looks_chunkLoad.bind fun _ => .unless failure h)

theorem looks_groupHasMoreData (g : Group) : (groupHasMoreData g).Looks := by
  rw [groupHasMoreData_eq]
  exact looks_whenLoaded (quiet_chunkSize.bind fun _ => quiet_pure _).looks

theorem looks_consumeLoaded (g : Group) : (consumeLoaded g).Looks := by
  refine quiet_chunkSize.looks.bind fun _ => .unless _ ?_
  -- the second load is that of `read_packet_size_header`
  refine (looks_whenLoaded (quiet_readHeaderBody g).looks).bind fun packetSize => ?_
  cases packetSize with
  | none => exact (quiet_pure _).looks
  | some packetSize => exact (quiet_consumeBody g packetSize).looks

theorem looks_consumePacket (g : Group) (topic : ℕ) : (consumePacket g topic).Looks := by
  rw [consumePacket_eq]
  exact .unless _ (looks_whenLoaded (looks_consumeLoaded g))

theorem looks_ackPacketBySize (g : Group) (topic : ℕ) (packetSize : UInt64) :
    (ackPacketBySize g topic packetSize).Looks :=
  .unless _ (.unless _ (looks_whenLoaded
    (quiet_chunkSize.bind fun _ => .unless _ (quiet_pure _)).looks))

theorem looks_ackPacketBatch (g : Group) (topic : ℕ) (count : UInt64) :
    (ackPacketBatch g topic count).Looks :=
  .unless _ (.unless _ (looks_whenLoaded
    ((quiet_ackBatchLoop _ _ _).bind fun _ => quiet_pure _).looks))

end SuparnaD
