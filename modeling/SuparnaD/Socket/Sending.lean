import SuparnaD.Messaging.TopicReading
import SuparnaD.Socket.ConsumerHandler

/-!
# Sending to the client

What the functions of `socket/consumer_handler.c` that talk to the client do. They change nothing
but the client, and when the socket takes all bytes of every `send` the client receives the eight
header bytes and the payload.

## Main definitions

* `Machine.withClient`, `Broker.OnlyTalks`.
* `Client.Reliable` : the socket takes all bytes of every `send`.

## Main results

* `onlyTalks_sendPacketToConsumer`, `onlyTalks_waitForAck`.
* `exec_sendPacketToConsumer_of_reliable` : what the client receives.
-/

namespace SuparnaD

open Broker

/-- The machine with another client. -/
def Machine.withClient (s : Machine) (client : Client) : Machine := { s with client := client }

/-- The program always comes to an end and changes nothing but the client. -/
def Broker.OnlyTalks {α : Type} (p : Broker α) : Prop :=
  ∀ s : Machine, ∃ a client, p.exec s = some (a, s.withClient client)

theorem onlyTalks_pure {α : Type} (a : α) : OnlyTalks (pure a) := fun s => ⟨a, s.client, rfl⟩

theorem onlyTalks_bind {α β : Type} {p : Broker α} {f : α → Broker β} (hp : p.OnlyTalks)
    (hf : ∀ a, (f a).OnlyTalks) : (p >>= f).OnlyTalks := by
  intro s
  obtain ⟨a, client, hrun⟩ := hp s
  obtain ⟨b, client', hrun'⟩ := hf a (s.withClient client)
  refine ⟨b, client', ?_⟩
  simp only [CallProgram.run_bind, hrun, Option.bind_some]
  exact hrun'

theorem onlyTalks_send (data : Bytes) : (send data).OnlyTalks := fun _ => ⟨_, _, rfl⟩

theorem onlyTalks_read (n : ℕ) : (read n).OnlyTalks := fun _ => ⟨_, _, rfl⟩

theorem onlyTalks_sendPacketHeader (packetSize : ℕ) : (sendPacketHeader packetSize).OnlyTalks := by
  refine onlyTalks_bind (onlyTalks_send _) fun sent => ?_
  split <;> exact onlyTalks_pure _

theorem onlyTalks_sendLoop (fuel : ℕ) (data : Bytes) : (sendLoop fuel data).OnlyTalks := by
  induction fuel generalizing data with
  | zero => cases data <;> exact onlyTalks_pure _
  | succ fuel ih =>
    cases data with
    | nil => exact onlyTalks_pure _
    | cons b rest =>
      refine onlyTalks_bind (onlyTalks_send _) fun sent => ?_
      split_ifs
      · exact onlyTalks_pure _
      · exact onlyTalks_pure _
      · exact ih _

theorem onlyTalks_sendPacketToConsumer (data : Bytes) :
    (sendPacketToConsumer data).OnlyTalks := by
  rw [sendPacketToConsumer]
  split_ifs
  · exact onlyTalks_pure _
  · exact onlyTalks_pure _
  · refine onlyTalks_bind (onlyTalks_sendPacketHeader _) fun r => ?_
    split_ifs
    · exact onlyTalks_pure _
    · exact onlyTalks_sendLoop _ _

theorem onlyTalks_waitForAck : waitForAck.OnlyTalks := by
  refine onlyTalks_bind (onlyTalks_read _) fun answer => ?_
  cases answer with
  | none => exact onlyTalks_pure _
  | some buffer =>
    dsimp only
    split_ifs <;> exact onlyTalks_pure _

/-! ### A socket that takes everything -/

/-- The socket takes all bytes of every `send`. -/
def Client.Reliable (c : Client) : Prop := ∀ o ∈ c.sends, o = .accepts 0

/-- The client after it has received some bytes. -/
def Client.receive (c : Client) (data : Bytes) : Client :=
  { c with sends := c.sends.tail, wire := c.wire ++ data }

theorem Client.Reliable.receive {c : Client} (h : c.Reliable) (data : Bytes) :
    (c.receive data).Reliable := fun o ho => h o (List.mem_of_mem_tail ho)

theorem Client.Reliable.send {c : Client} (h : c.Reliable) (data : Bytes) :
    c.send data = ((data.length : ℤ), c.receive data) := by
  have hhead : c.sends.headD (.accepts 0) = .accepts 0 := by
    cases hs : c.sends with
    | nil => rfl
    | cons o rest => exact h o (hs ▸ List.mem_cons_self)
  simp only [Client.send, hhead, Nat.sub_zero, List.take_length, Client.receive]

theorem exec_sendPacketHeader_of_reliable {s : Machine} (h : s.client.Reliable) (n : ℕ) :
    (sendPacketHeader n).exec s = some (0, s.withClient (s.client.receive (packetHeader n))) := by
  have hsend : (send (packetHeader n)).exec s =
      some ((packetHeaderSize : ℤ), s.withClient (s.client.receive (packetHeader n))) := by
    rw [exec_send, h.send]
    rfl
  simp only [sendPacketHeader, CallProgram.run_bind, hsend, Option.bind_some, ne_eq,
    not_true_eq_false, ↓reduceIte, CallProgram.pure_eq_ret, CallProgram.run_ret]

/-- A reliable client takes the payload in one round. -/
theorem exec_sendLoop_of_reliable {s : Machine} (h : s.client.Reliable) {d : Bytes} (hd : d ≠ []) :
    (sendLoop d.length d).exec s = some (0, s.withClient (s.client.receive d)) := by
  obtain ⟨b, rest, rfl⟩ := List.exists_cons_of_ne_nil hd
  have hsend : (send (b :: rest)).exec s =
      some (((b :: rest).length : ℤ), s.withClient (s.client.receive (b :: rest))) := by
    rw [exec_send, h.send]
    rfl
  have hpos : ¬ ((b :: rest).length : ℤ) < 0 := Int.not_lt.mpr (Int.natCast_nonneg _)
  have hne : ¬ ((b :: rest).length : ℤ) = 0 :=
    Int.natCast_ne_zero.mpr (Nat.ne_of_gt (List.length_pos_iff.mpr hd))
  have hdone : (b :: rest).drop ((b :: rest).length : ℤ).toNat = [] := by simp
  rw [List.length_cons, sendLoop]
  simp only [CallProgram.run_bind, hsend, Option.bind_some, hpos, hne, ↓reduceIte, hdone]
  cases rest.length <;> rfl

/-- A reliable client receives the header and the payload. -/
theorem exec_sendPacketToConsumer_of_reliable {s : Machine} (h : s.client.Reliable) {d : Bytes}
    (hd : topicFormat.Valid d) :
    (sendPacketToConsumer d).exec s =
      some (0, s.withClient ((s.client.receive (packetHeader d.length)).receive d)) := by
  have hloop := exec_sendLoop_of_reliable
    (s := s.withClient (s.client.receive (packetHeader d.length))) (h.receive _)
    (List.length_pos_iff.mp hd.1)
  have hmax : ¬ maxPacketSize < d.length := Nat.not_lt.mpr hd.2
  rw [sendPacketToConsumer, if_neg (Nat.ne_of_gt hd.1), if_neg hmax]
  simp only [CallProgram.run_bind, exec_sendPacketHeader_of_reliable h, Option.bind_some, ne_eq,
    not_true_eq_false, ↓reduceIte]
  exact hloop

end SuparnaD
