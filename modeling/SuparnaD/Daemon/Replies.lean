import SuparnaD.Daemon.AppendOnly
import SuparnaD.Socket.OneReply

/-!
# What the clients receive

Whatever the sessions and the requests do to each other, a client that takes all bytes receives the
replies to its own commands, one for each, of its kind and in their order, and can tell them apart.

## Main definitions

* `DaemonOp.commandOf`, `DaemonOp.requestOf` : the turn is a command of a session.
* `DaemonResult.packets` : the packets that a turn hands out.
* `Daemon.Answers` : a reply to the command of a turn.

## Main results

* `Daemon.client_step`, `Daemon.client_run` : what is sent to a client.
* `Daemon.replies_in_order`.
-/

namespace SuparnaD

/-- The turn is a command of the session, `QUIT` included. -/
def DaemonOp.commandOf (i : ℕ) : DaemonOp → Bool
  | .socket (.command j _) | .goodbye j => decide (j = i)
  | _ => false

/-- What the turn asks of the session. -/
def DaemonOp.requestOf (i : ℕ) : DaemonOp → Option Request
  | .socket (.command j text) => if j = i then some (commandRequest text) else none
  | .goodbye j => if j = i then some .quit else none
  | _ => none

/-- The packets that a turn hands out. -/
def DaemonResult.packets : DaemonResult → List Packet
  | .socket record _ => record.map Attempt.packet
  | .http _ _ _ => []

namespace Daemon

variable {d d' : Daemon} {i : ℕ} {op : DaemonOp} {r : DaemonResult}

/-- A command is answered with one reply that fits it, and nothing else is sent. -/
theorem client_step (howned : d.server.Owned) (hstep : d.step op = some (r, d')) :
    if op.commandOf i then
      (d.server.clients i).Reliable → (d'.server.clients i).Reliable ∧ ∃ request reply,
        op.requestOf i = some request ∧ request.Fits reply ∧
          (d'.server.clients i).wire = (d.server.clients i).wire ++ reply.bytes ∧
          r.packets.map Packet.data = reply.payload.toList
    else d'.server.clients i = d.server.clients i := by
  cases op with
  | http request url method uploadData =>
    obtain ⟨ret, st, -, -, rfl⟩ := step_http_eq_some_iff.mp hstep
    rfl
  | goodbye j =>
    obtain ⟨rfl, rfl⟩ := Prod.mk.inj (Option.some.inj hstep)
    by_cases hj : j = i
    · subst hj
      have hreplied : (d.server.view j).RepliesOnce
          ((d.server.update j ((d.server.view j).replied goodbye)).view j) .quit [] := by
        rw [Server.view_update_self]
        exact SessionState.repliesOnce_replied _ (l := .goodbye) (List.mem_singleton_self _)
      rw [DaemonOp.commandOf, if_pos (decide_eq_true rfl)]
      intro hreliable
      obtain ⟨hreliable', reply, hsent⟩ := hreplied hreliable
      exact ⟨hreliable', .quit, reply, if_pos rfl, hsent⟩
    · rw [DaemonOp.commandOf, decide_eq_false hj, if_neg Bool.false_ne_true]
      exact Function.update_of_ne (Ne.symm hj) ..
  | socket op =>
    obtain ⟨⟨r', s'⟩, hrun, heq⟩ := Option.map_eq_some_iff.mp hstep
    obtain ⟨rfl, rfl⟩ := Prod.mk.inj heq
    cases op with
    | disconnect j => exact Server.clients_disconnect hrun i
    | command j text =>
      by_cases hj : j = i
      · subst hj
        rw [DaemonOp.commandOf, if_pos (decide_eq_true rfl)]
        intro hreliable
        obtain ⟨hreliable', reply, hsent⟩ := Server.repliesOnce_step howned.sound hrun hreliable
        exact ⟨hreliable', commandRequest text, reply, if_pos rfl, hsent⟩
      · rw [DaemonOp.commandOf, decide_eq_false hj, if_neg Bool.false_ne_true]
        exact Server.clients_step_of_ne hrun fun heq => hj heq.symm

/-- A reply to the command of a turn: it fits the command, and it has the packet that the turn hands
out. -/
def Answers (i : ℕ) (reply : SessionReply) (x : RunStep Daemon DaemonOp DaemonResult) : Prop :=
  (∃ request, x.op.requestOf i = some request ∧ request.Fits reply) ∧
    x.result.packets.map Packet.data = reply.payload.toList

/-- What a client that takes all bytes has received after a run. -/
theorem client_run (howned : d.server.Owned) (hreliable : (d.server.clients i).Reliable)
    (ops : List DaemonOp) : ∃ replies : List SessionReply,
      ((runEnd Daemon.step d ops).server.clients i).wire =
        (d.server.clients i).wire ++ SessionReply.stream replies ∧
      List.Forall₂ (Answers i) replies
        ((trace Daemon.step d ops).filter fun x => x.op.commandOf i) := by
  induction ops generalizing d with
  | nil => exact ⟨[], (List.append_nil _).symm, .nil⟩
  | cons op ops ih =>
    cases hstep : d.step op with
    | none =>
      simp only [trace, runEnd, hstep]
      exact ⟨[], (List.append_nil _).symm, .nil⟩
    | some rd =>
      obtain ⟨r, d'⟩ := rd
      have howned' := owned_step howned hstep
      have hclient := client_step (i := i) howned hstep
      rw [trace_cons_of_some hstep, runEnd_cons_of_some hstep, List.filter_cons]
      split_ifs at hclient with hcommand
      · obtain ⟨hreliable', request, reply, hrequest, hfits, hwire, hpayload⟩ := hclient hreliable
        obtain ⟨replies, hwires, halike⟩ := ih howned' hreliable'
        refine ⟨reply :: replies, ?_, ?_⟩
        · rw [hwires, hwire, List.append_assoc]
          rfl
        · rw [if_pos hcommand]
          exact .cons ⟨⟨request, hrequest, hfits⟩, hpayload⟩ halike
      · obtain ⟨replies, hwires, halike⟩ := ih howned' (hclient ▸ hreliable)
        refine ⟨replies, ?_, ?_⟩
        · rw [hwires, hclient]
        · rw [if_neg hcommand]
          exact halike

/-- A client that takes all bytes has received one reply to each command of its session that has
come to an end, in their order: the packet that the command has handed out, or a status line that
fits the command. What it has received cannot be taken apart into replies in another way. -/
theorem replies_in_order (howned : d.server.Owned) (hreliable : (d.server.clients i).Reliable)
    (ops : List DaemonOp) : ∃ replies : List SessionReply,
      ((runEnd Daemon.step d ops).server.clients i).wire =
        (d.server.clients i).wire ++ SessionReply.stream replies ∧
      List.Forall₂ (Answers i) replies
        ((trace Daemon.step d ops).filter fun x => x.op.commandOf i) ∧
      ∀ replies', SessionReply.stream replies' = SessionReply.stream replies →
        replies' = replies := by
  obtain ⟨replies, hwire, halike⟩ := client_run howned hreliable ops
  exact ⟨replies, hwire, halike, fun replies' heq => isPrefixCode_reply.flatMap_injective heq⟩

theorem replies_in_order_sample : ∃ replies : List SessionReply,
    ((runEnd Daemon.step sampleTopic sampleTurns).server.clients 0).wire =
      (sampleTopic.server.clients 0).wire ++ SessionReply.stream replies ∧
    List.Forall₂ (Answers 0) replies
      ((trace Daemon.step sampleTopic sampleTurns).filter fun x => x.op.commandOf 0) ∧
    ∀ replies', SessionReply.stream replies' = SessionReply.stream replies → replies' = replies :=
  replies_in_order (Server.owned_start _ _ _) (fun _ ho => absurd ho List.not_mem_nil) sampleTurns

end Daemon

end SuparnaD
