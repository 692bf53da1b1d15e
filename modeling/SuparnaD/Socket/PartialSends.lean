import SuparnaD.Socket.Sending

/-!
# Sends that take a part of the bytes

A `send` may take fewer bytes than it is asked to. The loop for the payload goes on with the rest,
so every byte of the payload is put on the socket once and in order. The header is sent by a single
call, and when that call takes a part of the eight bytes the packet is given up: the client has seen
half a header and takes what comes next for the rest of it.

## Main definitions

* `TakesSome` : a `send` takes at least one byte.
* `Transmits` : the header and the payload are put on the socket.

## Main results

* `exec_sendLoop`, `exec_sendPacketToConsumer` : what is put on the socket.
* `transmits_iff` : a packet survives partial sends exactly when the header is taken at once.
-/

namespace SuparnaD

open Broker

/-- A `send` takes at least one byte, and no more than it is asked to. -/
def TakesSome : (c : BrokerCall) → brokerCalls.Answer c → Prop
  | .send data, sent => 1 ≤ (sent : ℤ) ∧ (sent : ℤ) ≤ data.length
  | _, _ => True

instance decidableTakesSome : ∀ c r, Decidable (TakesSome c r)
  | .send data, sent => inferInstanceAs (Decidable (1 ≤ (sent : ℤ) ∧ (sent : ℤ) ≤ data.length))
  | .hasChunk, _ | .chunkInit _, _ | .chunkFree, _ | .chunkLoad, _ | .chunkAppend _, _
  | .chunkRead _ _, _ | .chunkSize, _ | .chunkSaveDelta, _ | .malloc, _ | .fopenRead _, _
  | .stat _, _ | .mkdir _, _ | .read _, _ => isTrue trivial

/-- The call returns `0`, and the socket has taken the header and the payload, each byte once and in
order. -/
def Transmits (s : Machine) (d : Bytes) : Prop :=
  ∃ s', (sendPacketToConsumer d).exec s = some (0, s') ∧
    s'.client.wire = s.client.wire ++ (packetHeader d.length ++ d)

variable {s : Machine} {d data : Bytes}

/-- A `send` fails, or takes the first bytes. -/
theorem exec_send_cases (s : Machine) (data : Bytes) :
    ∃ r c', (send data).exec s = some (r, s.withClient c') ∧
      (r = -1 ∧ c'.wire = s.client.wire ∨
        ∃ n ≤ data.length, r = (n : ℤ) ∧ c'.wire = s.client.wire ++ data.take n) := by
  refine ⟨(s.client.send data).1, (s.client.send data).2, rfl, ?_⟩
  rw [Client.send]
  split
  · exact .inl ⟨rfl, rfl⟩
  · exact .inr ⟨_, Nat.sub_le _ _, rfl, rfl⟩

/-- The loop puts the first bytes of the payload on the socket, and returns `0` when it has put all
of them there. -/
theorem exec_sendLoop {fuel : ℕ} (hfuel : data.length ≤ fuel) (s : Machine) :
    ∃ r c' sent, (sendLoop fuel data).exec s = some (r, s.withClient c') ∧
      c'.wire = s.client.wire ++ sent ∧
      (r = 0 ∧ sent = data ∨ r = -1 ∧ sent.length < data.length) := by
  induction fuel generalizing data s with
  | zero =>
    obtain rfl := List.length_eq_zero_iff.mp (Nat.le_zero.mp hfuel)
    exact ⟨0, s.client, [], rfl, (List.append_nil _).symm, .inl ⟨rfl, rfl⟩⟩
  | succ fuel ih =>
    cases data with
    | nil => exact ⟨0, s.client, [], rfl, (List.append_nil _).symm, .inl ⟨rfl, rfl⟩⟩
    | cons b rest =>
      obtain ⟨r, c', hsend, hcases⟩ := exec_send_cases s (b :: rest)
      rw [sendLoop]
      simp only [CallProgram.run_bind, hsend, Option.bind_some]
      rcases hcases with ⟨rfl, hwire⟩ | ⟨n, hn, rfl, hwire⟩
      · refine ⟨-1, c', [], rfl, ?_, .inr ⟨rfl, Nat.succ_pos _⟩⟩
        rw [hwire, List.append_nil]
      rw [if_neg (Int.not_lt.mpr (Int.natCast_nonneg n))]
      by_cases hzero : n = 0
      · subst hzero
        refine ⟨-1, c', [], rfl, ?_, .inr ⟨rfl, Nat.succ_pos _⟩⟩
        rw [hwire, List.take_zero]
      rw [if_neg (Int.natCast_ne_zero.mpr hzero), Int.toNat_natCast]
      have hrest : ((b :: rest).drop n).length ≤ fuel := by
        rw [List.length_drop]
        omega
      obtain ⟨r, c'', sent, hrun, hwire', hcases⟩ := ih hrest (s.withClient c')
      refine ⟨r, c'', (b :: rest).take n ++ sent, hrun, ?_, ?_⟩
      · rw [hwire', ← List.append_assoc, ← hwire]
        rfl
      · rcases hcases with ⟨hr, hsent⟩ | ⟨hr, hlt⟩
        · refine .inl ⟨hr, ?_⟩
          rw [hsent, List.take_append_drop]
        · refine .inr ⟨hr, ?_⟩
          rw [List.length_drop] at hlt
          rw [List.length_append, List.length_take]
          omega

/-- When every `send` takes some bytes, the loop does not give up. -/
theorem exec_sendLoop_of_takesSome {fuel : ℕ} (hfuel : data.length ≤ fuel)
    (hsome : (sendLoop fuel data).Calls perform TakesSome s) :
    ∃ c', (sendLoop fuel data).exec s = some (0, s.withClient c') := by
  induction fuel generalizing data s with
  | zero =>
    obtain rfl := List.length_eq_zero_iff.mp (Nat.le_zero.mp hfuel)
    exact ⟨s.client, rfl⟩
  | succ fuel ih =>
    cases data with
    | nil => exact ⟨s.client, rfl⟩
    | cons b rest =>
      obtain ⟨r, c', hsend, hcases⟩ := exec_send_cases s (b :: rest)
      rw [sendLoop] at hsome ⊢
      obtain ⟨hfirst, hnext⟩ := CallProgram.Calls.of_bind hsome
      obtain ⟨hone, hle⟩ : 1 ≤ r ∧ r ≤ (b :: rest).length :=
        (hfirst _ ((CallProgram.run_issue ..).symm.trans hsend)).1
      have hnext := hnext r _ hsend
      rw [if_neg (by omega), if_neg (by omega)] at hnext
      have hrest : ((b :: rest).drop r.toNat).length ≤ fuel := by
        rw [List.length_drop]
        omega
      obtain ⟨c'', hrun⟩ := ih hrest hnext
      refine ⟨c'', ?_⟩
      simp only [CallProgram.run_bind, hsend, Option.bind_some]
      rw [if_neg (by omega), if_neg (by omega)]
      exact hrun

/-- The header goes out with one call. -/
theorem exec_sendPacketHeader (s : Machine) (n : ℕ) :
    ∃ r c' sent, (sendPacketHeader n).exec s = some (r, s.withClient c') ∧
      c'.wire = s.client.wire ++ sent ∧
      (r = 0 ∧ sent = packetHeader n ∧ (s.client.send (packetHeader n)).1 = packetHeaderSize ∨
        r = -1 ∧ sent.length ≤ packetHeaderSize ∧
          (s.client.send (packetHeader n)).1 ≠ packetHeaderSize) := by
  obtain ⟨r, c', hsend, hcases⟩ := exec_send_cases s (packetHeader n)
  have hr : (s.client.send (packetHeader n)).1 = r := congrArg (fun x => (x.getD (0, s)).1) hsend
  have hlen : (packetHeader n).length = packetHeaderSize := rfl
  rw [hr]
  by_cases hall : r = packetHeaderSize
  · refine ⟨0, c', packetHeader n, ?_, ?_, .inl ⟨rfl, rfl, hall⟩⟩
    · simp only [sendPacketHeader, CallProgram.run_bind, hsend, Option.bind_some, hall, ne_eq,
        not_true_eq_false, ↓reduceIte, CallProgram.pure_eq_ret, CallProgram.run_ret]
    · rcases hcases with ⟨hneg, -⟩ | ⟨m, -, hm, hwire⟩
      · exact absurd (hneg.symm.trans hall) (by omega)
      · rw [hwire, Int.natCast_inj.mp (hm.symm.trans hall), ← hlen, List.take_length]
  · have hrun : (sendPacketHeader n).exec s = some (-1, s.withClient c') := by
      simp only [sendPacketHeader, CallProgram.run_bind, hsend, Option.bind_some, ne_eq, hall,
        not_false_eq_true, ↓reduceIte, CallProgram.pure_eq_ret, CallProgram.run_ret]
    rcases hcases with ⟨-, hwire⟩ | ⟨m, -, -, hwire⟩
    · exact ⟨-1, c', [], hrun, by rw [hwire, List.append_nil],
        .inr ⟨rfl, Nat.zero_le _, hall⟩⟩
    · exact ⟨-1, c', _, hrun, hwire, .inr ⟨rfl, List.length_take_le' _ _, hall⟩⟩

/-- `send_packet_to_consumer` returns `0` when the header and the payload are on the socket, and
`-1` otherwise. -/
theorem exec_sendPacketToConsumer (hd : topicFormat.Valid d) (s : Machine) :
    ∃ r c', (sendPacketToConsumer d).exec s = some (r, s.withClient c') ∧
      (r = 0 ∧ c'.wire = s.client.wire ++ (packetHeader d.length ++ d) ∨
        r = -1 ∧ c'.wire.length <
          (s.client.wire ++ (packetHeader d.length ++ d)).length) := by
  have hmax : ¬ maxPacketSize < d.length := Nat.not_lt.mpr hd.2
  have hlen : (packetHeader d.length).length = packetHeaderSize := rfl
  have hpos := hd.1
  rw [sendPacketToConsumer, if_neg (Nat.ne_of_gt hd.1), if_neg hmax]
  obtain ⟨r, c₁, sent₁, hheader, hwire₁, ⟨rfl, rfl, -⟩ | ⟨rfl, hle, -⟩⟩ :=
    exec_sendPacketHeader s d.length
  · obtain ⟨r, c₂, sent₂, hloop, hwire₂, hcases⟩ :=
      exec_sendLoop (Nat.le_refl _) (s.withClient c₁)
    refine ⟨r, c₂, ?_, ?_⟩
    · simp only [CallProgram.run_bind, hheader, Option.bind_some, ne_eq, not_true_eq_false,
        ↓reduceIte]
      exact hloop
    · have hwire : c₂.wire = s.client.wire ++ (packetHeader d.length ++ sent₂) := by
        rw [hwire₂, ← List.append_assoc, ← hwire₁]
        rfl
      rw [hwire]
      rcases hcases with ⟨hr, hsent⟩ | ⟨hr, hlt⟩
      · exact .inl ⟨hr, by rw [hsent]⟩
      · refine .inr ⟨hr, ?_⟩
        simp only [List.length_append]
        omega
  · refine ⟨-1, c₁, ?_, .inr ⟨rfl, ?_⟩⟩
    · simp only [CallProgram.run_bind, hheader, Option.bind_some]
      rfl
    · rw [hwire₁]
      simp only [List.length_append, hlen]
      omega

/-- Where every `send` takes at least a byte, a packet is transmitted exactly when the first one
takes all eight bytes of the header. -/
theorem transmits_iff (hd : topicFormat.Valid d)
    (hsome : (sendPacketToConsumer d).Calls perform TakesSome s) :
    Transmits s d ↔ (s.client.send (packetHeader d.length)).1 = packetHeaderSize := by
  have hmax : ¬ maxPacketSize < d.length := Nat.not_lt.mpr hd.2
  rw [sendPacketToConsumer, if_neg (Nat.ne_of_gt hd.1), if_neg hmax] at hsome
  obtain ⟨r, c₁, sent₁, hheader, -, hcases⟩ := exec_sendPacketHeader s d.length
  obtain ⟨r', c', hrun, hsent⟩ := exec_sendPacketToConsumer hd s
  have hbind := hrun
  rw [sendPacketToConsumer, if_neg (Nat.ne_of_gt hd.1), if_neg hmax] at hbind
  simp only [CallProgram.run_bind, hheader, Option.bind_some] at hbind
  constructor
  · rintro ⟨s', hrun', -⟩
    obtain ⟨rfl, -⟩ := Prod.mk.inj (Option.some.inj (hrun.symm.trans hrun'))
    rcases hcases with ⟨-, -, hall⟩ | ⟨rfl, -, -⟩
    · exact hall
    · cases hbind
  · intro hall
    rcases hcases with ⟨rfl, -, -⟩ | ⟨-, -, hne⟩
    swap
    · exact absurd hall hne
    have hnext := (CallProgram.Calls.of_bind hsome).2 0 _ hheader
    rw [if_neg (not_not.mpr rfl)] at hnext hbind
    obtain ⟨c'', hloop⟩ := exec_sendLoop_of_takesSome (Nat.le_refl _) hnext
    obtain ⟨rfl, -⟩ := Prod.mk.inj (Option.some.inj (hbind.symm.trans hloop))
    rcases hsent with ⟨-, hwire⟩ | ⟨hneg, -⟩
    · exact ⟨_, hrun, hwire⟩
    · exact absurd hneg (by decide)

/-- A machine whose client takes the bytes as scheduled. -/
def sampleSender (sends : List SendOutcome) : Machine :=
  { Machine.ofFile (ascii "t") [] with client := ⟨sends, [], []⟩ }

/-- The payload `ab` is taken byte by byte. -/
theorem takesSome_payload : (sendPacketToConsumer (ascii "ab")).Calls perform TakesSome
    (sampleSender [.accepts 0, .accepts 1]) :=
  by decide +kernel

theorem transmits_iff_sample : Transmits (sampleSender [.accepts 0, .accepts 1]) (ascii "ab") ↔
    ((sampleSender [.accepts 0, .accepts 1]).client.send
      (packetHeader (ascii "ab").length)).1 = packetHeaderSize :=
  transmits_iff (by decide) takesSome_payload

/-- The socket takes five bytes of the header first: the call gives up, although every `send` has
taken some bytes. -/
theorem not_transmits_sample : topicFormat.Valid (ascii "ab") ∧
    (sendPacketToConsumer (ascii "ab")).Calls perform TakesSome (sampleSender [.accepts 3]) ∧
      ¬ Transmits (sampleSender [.accepts 3]) (ascii "ab") := by
  refine ⟨by decide, by decide +kernel, ?_⟩
  rintro ⟨s', hrun, -⟩
  have hcode : ((sendPacketToConsumer (ascii "ab")).exec (sampleSender [.accepts 3])).map
      Prod.fst = some 0 := congrArg (Option.map Prod.fst) hrun
  exact absurd hcode (by decide)

end SuparnaD
