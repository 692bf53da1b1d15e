import SuparnaD.Daemon.HostedSessions
import SuparnaD.Daemon.Replies

/-!
# From the bytes of a client to its replies

What a connected client may rely on, from the pieces that it sends to the bytes that it receives:
one reply to each request that the session reads off the pieces, in the order of the requests and of
their kinds. It holds for every connection of the hosted program, whatever the other connections and
the HTTP requests do in the meantime.

## Main results

* `requests_sessionTurns` : the requests that the turns of a session carry out.
* `Host.answers_connection`.
-/

namespace SuparnaD

/-- The turns of a session carry out the requests of its pieces. -/
theorem requests_sessionTurns (number : ℕ) (pieces : List Bytes) :
    (sessionTurns number pieces).filterMap (DaemonOp.requestOf number) = requests pieces := by
  induction pieces with
  | nil => rfl
  | cons piece pieces ih =>
    rw [sessionTurns, requests]
    split_ifs with hempty hquit
    · exact ih
    · simp [DaemonOp.requestOf]
    · simp [DaemonOp.requestOf, parseCommand_of_not_quit hquit, ih]

namespace DaemonOp

variable {i : ℕ} {op : DaemonOp}

theorem isSome_requestOf (i : ℕ) (op : DaemonOp) : (op.requestOf i).isSome = op.commandOf i := by
  rcases op with (⟨j, text⟩ | j) | j | ⟨j, url, method, uploadData⟩ <;>
    simp only [requestOf, commandOf, Option.isSome_none] <;>
    by_cases hj : j = i <;> simp [hj]

theorem session_of_requestOf {request : Request} (h : op.requestOf i = some request) :
    op.session = some i := by
  rcases op with (⟨j, text⟩ | j) | j | ⟨j, url, method, uploadData⟩ <;>
    simp only [requestOf, session] at h ⊢
  · split_ifs at h with hj
    rw [hj]
  · cases h
  · split_ifs at h with hj
    rw [hj]
  · cases h

end DaemonOp

namespace Host

variable {number : ℕ}

theorem filterMap_sessionOps (h : Host) (number : ℕ) (ops : List HostOp) :
    (h.sessionOps number ops).filterMap (DaemonOp.requestOf number) =
      ((h.turns ops).map Prod.fst).filterMap (DaemonOp.requestOf number) := by
  rw [sessionOps, List.filterMap_filter]
  refine List.filterMap_congr fun op _ => ?_
  cases hrequest : op.requestOf number with
  | none => exact ite_self none
  | some request => rw [if_pos (decide_eq_true (DaemonOp.session_of_requestOf hrequest))]

/-- The replies on record are replies to the requests of the turns. -/
theorem fits_of_answers {replies : List SessionReply}
    {xs : List (RunStep Daemon DaemonOp DaemonResult)}
    (h : List.Forall₂ (Daemon.Answers number) replies
      (xs.filter fun x => x.op.commandOf number)) :
    List.Forall₂ Request.Fits ((xs.map RunStep.op).filterMap (DaemonOp.requestOf number))
      replies := by
  induction xs generalizing replies with
  | nil =>
    cases h
    exact .nil
  | cons x xs ih =>
    rw [List.filter_cons, ← DaemonOp.isSome_requestOf] at h
    rw [List.map_cons, List.filterMap_cons]
    cases hrequest : x.op.requestOf number with
    | none =>
      rw [hrequest, if_neg (by simp)] at h
      exact ih h
    | some request =>
      rw [hrequest, if_pos (by simp)] at h
      cases h with
      | cons hreply hreplies =>
        obtain ⟨⟨request', hrequest', hfits⟩, -⟩ := hreply
        obtain rfl := Option.some.inj (hrequest.symm.trans hrequest')
        exact .cons hfits (ih hreplies)

/-- A client that takes all bytes has received one reply to each of the first requests of its own
pieces, in their order and of their kinds, and to all of them when its session has ended. Nothing
else has been sent to it, and it can take what it has received apart in one way only. -/
theorem answers_connection {daemon : Daemon} (howned : daemon.server.Owned)
    (hreliable : (daemon.server.clients number).Reliable) {ops : List HostOp} {pieces : List Bytes}
    (hpieces : ((start daemon).incoming ops)[number]? = some pieces) :
    ∃ replies : List SessionReply,
      ((runEnd Host.step (start daemon) ops).daemon.server.clients number).wire =
        (daemon.server.clients number).wire ++ SessionReply.stream replies ∧
      List.Forall₂ Request.Fits ((requests pieces).take replies.length) replies ∧
      (((runEnd Host.step (start daemon) ops).threads number).finished = true →
        replies.length = (requests pieces).length) ∧
      ∀ replies', SessionReply.stream replies' = SessionReply.stream replies →
        replies' = replies := by
  obtain ⟨hdaemon, htrace⟩ := daemon_run (sound_start daemon) ops
  obtain ⟨⟨rest, hprefix⟩, hall⟩ := session_run daemon hpieces
  obtain ⟨replies, hwire, hanswers⟩ := Daemon.client_run howned hreliable
    (((start daemon).turns ops).map Prod.fst)
  have hturns := congrArg (List.map Prod.fst) htrace
  rw [List.map_map] at hturns
  -- The requests that have been carried out are the first requests of the pieces.
  have hfits := fits_of_answers hanswers
  have hops : (trace Daemon.step daemon (((start daemon).turns ops).map Prod.fst)).map RunStep.op =
      ((start daemon).turns ops).map Prod.fst := hturns
  rw [hops, ← filterMap_sessionOps] at hfits
  have hrequests := requests_sessionTurns number pieces
  rw [← hprefix, List.filterMap_append] at hrequests
  have hlength := hfits.length_eq
  refine ⟨replies, ?_, ?_, fun hfinished => ?_,
    fun replies' heq => isPrefixCode_reply.flatMap_injective heq⟩
  · rw [hdaemon]
    exact hwire
  · rw [← hrequests, List.take_left' hlength]
    exact hfits
  · rw [← hlength, hall hfinished, requests_sessionTurns]

/-- The program with one topic. -/
def sampleDaemon : Daemon := .onFiles (.ofFile (ascii "./topics/t.topic") [])

/-- A client asks for a packet and leaves; then its descriptor is given out again. -/
def sampleVisit : List HostOp :=
  [.accept 4 [ascii "CONSUME\n", ascii "QUIT\n"], .loop true, .loop true] ++
    List.replicate 7 (.thread 0 true) ++ [.accept 4 [], .loop false, .loop false]

theorem answers_connection_sample : ∃ replies : List SessionReply,
    ((runEnd Host.step (start sampleDaemon) sampleVisit).daemon.server.clients 0).wire =
      (sampleDaemon.server.clients 0).wire ++ SessionReply.stream replies ∧
    List.Forall₂ Request.Fits
      ((requests [ascii "CONSUME\n", ascii "QUIT\n"]).take replies.length) replies ∧
    (((runEnd Host.step (start sampleDaemon) sampleVisit).threads 0).finished = true →
      replies.length = (requests [ascii "CONSUME\n", ascii "QUIT\n"]).length) ∧
    ∀ replies', SessionReply.stream replies' = SessionReply.stream replies → replies' = replies :=
  answers_connection (Server.owned_start _ _ _)
    (fun _ ho => absurd ho List.not_mem_nil) (by decide +kernel)

end Host

end SuparnaD
