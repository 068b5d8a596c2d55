import TcpStack.Resend

/-!
# What a call puts on the wire

A packet leaves either as a stored copy from the retransmission queue, byte
for byte, or it is built during the call. A packet that is built carries the
addresses, RCV.NXT and the timestamps of the state the call leaves behind, and
its sequence number counts from the SND.NXT the call found.
-/
namespace TcpStack
open Tcp TcpStack.Seq

variable {F : Type} [F64 F]

namespace Connection

/-- All that a segment takes from the control block. -/
def letterhead (c : Connection F) : Endpoint × Endpoint × RecvSequence × Bool × U32 × U32 :=
  (c.localEnd, c.remoteEnd, c.recv, c.tsEnabled, c.tsVal, c.tsRecent)

theorem letterhead_inj {c d : Connection F} (h : c.letterhead = d.letterhead) :
    c.localEnd = d.localEnd ∧ c.remoteEnd = d.remoteEnd ∧ c.recv = d.recv ∧ c.tsEnabled = d.tsEnabled ∧
      c.tsVal = d.tsVal ∧ c.tsRecent = d.tsRecent := by
  simpa only [letterhead, Prod.mk.injEq] using h

theorem segment_letterhead {c d : Connection F} (h : c.letterhead = d.letterhead) (seq : U32) (flags : U8)
    (payload : Bytes) : c.segment seq c.recv.nxt flags payload = d.segment seq d.recv.nxt flags payload := by
  obtain ⟨hl, hr, hrecv, hen, hval, hrecent⟩ := letterhead_inj h
  simp only [segment, segmentOpts, hl, hr, hrecv, hen, hval, hrecent]

/-- The sequence number, flags and payload of a packet that is built from `b`. -/
inductive Numbered (b : Connection F) : U32 → U8 → Bytes → Prop where
  | data {n : Nat} {flags : U8} {payload : Bytes} (plain : flags = PSH ||| ACK ∨ flags = ACK)
      (room : n + payload.length ≤ b.sendBuf.length) :
      Numbered b (b.send.nxt + BitVec.ofNat 32 n) flags payload
  | fin : Numbered b b.send.nxt (FIN ||| ACK) []
  | ack : Numbered b b.send.nxt ACK []
  | keepalive (quiet : b.flightSize = 0#32) : Numbered b (b.send.nxt - 1#32) ACK []

/-- A packet built on the way from `b` to `a`. -/
inductive Made (b a : Connection F) : Bytes → Prop where
  | plain {seq : U32} {flags : U8} {payload : Bytes} (numbered : Numbered b seq flags payload) :
      Made b a (a.segment seq a.recv.nxt flags payload)
  | sack : Made b a (a.segmentOpts b.send.nxt a.recv.nxt ACK a.ackOptions [])

theorem Made.reads {b a : Connection F} {p : Bytes} (h : Made b a p) : ∃ s, decode p = some s ∧
    Numbered b s.th.seq s.th.flags s.payload ∧ s.th.ack = a.recv.nxt ∧ s.opts.timestamps = a.stamp := by
  cases h with
  | @plain seq flags payload numbered =>
      obtain ⟨s, hc, ht⟩ := a.segment_reads seq a.recv.nxt flags payload
      refine ⟨s, hc.decode, ?_, hc.ack, ht⟩
      rw [hc.seq, hc.flags, hc.payload]
      exact numbered
  | sack =>
      obtain ⟨s, blocks, hc, -, ht⟩ := a.ackOptions_reads b.send.nxt a.recv.nxt ACK
      refine ⟨s, hc.decode, ?_, hc.ack, ht⟩
      rw [hc.seq, hc.flags, hc.payload]
      exact .ack

theorem Numbered.flags {b : Connection F} {seq : U32} {flags : U8} {payload : Bytes}
    (h : Numbered b seq flags payload) :
    hasFlag flags ACK = true ∧ hasFlag flags SYN = false ∧ hasFlag flags RST = false := by
  cases h with
  | data plain => rcases plain with rfl | rfl <;> decide
  | fin | ack | keepalive => decide

/-- A copy of the packet is in the retransmission queue. -/
def Stored (c : Connection F) (p : Bytes) : Prop := ∃ s ∈ c.retx.segments, s.packet = p

theorem Stored.of_core {c d : Connection F} {p : Bytes} (h : d.Stored p) (hc : d.core = c.core) : c.Stored p := by
  obtain ⟨s, hmem, rfl⟩ := h
  have hq : s.queued ∈ c.core.queue := by
    rw [← hc]
    exact List.mem_map_of_mem hmem
  obtain ⟨s', hmem', heq⟩ := List.mem_map.mp hq
  exact ⟨s', hmem', congrArg Queued.packet heq⟩

/-- The control block `c` is on the way from `b` to a state with the letterhead
of `a`, and `out` has been sent so far: packets of `R`, and packets built on the way. -/
structure Along (R : Bytes → Prop) (b a c : Connection F) (out : List Bytes) : Prop where
  letterhead : c.letterhead = a.letterhead
  una : c.send.una = b.send.una
  sent : ∃ k, c.send.nxt = b.send.nxt + BitVec.ofNat 32 k ∧ k + c.sendBuf.length ≤ b.sendBuf.length
  queue : ∀ p, c.Stored p → b.Stored p ∨ p ∈ out
  kept : ∀ p, b.Stored p → c.Stored p
  out : ∀ p ∈ out, R p ∨ ∃ seq flags payload, Numbered b seq flags payload ∧
    p = a.segment seq a.recv.nxt flags payload

namespace Along

variable {R : Bytes → Prop} {b a c d : Connection F} {out out' : List Bytes}

theorem start (h : c.letterhead = a.letterhead) (hs : c.send = b.send) (hb : c.sendBuf = b.sendBuf)
    (hq : c.retx = b.retx) : Along R b a c [] where
  letterhead := h
  una := by rw [hs]
  sent := ⟨0, by rw [hs]; simp, by rw [hb]; simp⟩
  queue := by
    intro p hp
    rw [Stored, hq] at hp
    exact .inl hp
  kept := by
    intro p hp
    rw [Stored, hq]
    exact hp
  out := fun p hp => nomatch hp

theorem same (h : Along R b a c out) (hl : d.letterhead = c.letterhead) (hs : d.send = c.send)
    (hb : d.sendBuf = c.sendBuf) (hq : d.retx = c.retx) : Along R b a d out where
  letterhead := hl.trans h.letterhead
  una := hs ▸ h.una
  sent := by
    obtain ⟨k, hk, hroom⟩ := h.sent
    exact ⟨k, hs ▸ hk, hb ▸ hroom⟩
  queue := by
    intro p hp
    rw [Stored, hq] at hp
    exact h.queue p hp
  kept := by
    intro p hp
    rw [Stored, hq]
    exact h.kept p hp
  out := h.out

theorem resend (h : Along R b a c out) (hr : c.Resends d out') (hR : ∀ p ∈ out', R p)
    (hl : d.letterhead = c.letterhead) (hs : d.send = c.send) : Along R b a d (out ++ out') where
  letterhead := hl.trans h.letterhead
  una := hs ▸ h.una
  sent := by
    obtain ⟨k, hk, hroom⟩ := h.sent
    have hbuf : d.sendBuf = c.sendBuf := congrArg Core.sendBuf hr.core
    exact ⟨k, hs ▸ hk, hbuf ▸ hroom⟩
  queue := fun p hp => (h.queue p (hp.of_core hr.core)).imp id (List.mem_append_left _)
  kept := fun p hp => (h.kept p hp).of_core hr.core.symm
  out := by
    intro p hp
    rcases List.mem_append.mp hp with hp | hp
    · exact h.out p hp
    · exact .inl (hR p hp)

theorem send (h : Along R b a c out) {seq : U32} {flags : U8} {payload : Bytes}
    (hn : Numbered b seq flags payload) : Along R b a c (out ++ [c.segment seq c.recv.nxt flags payload]) where
  letterhead := h.letterhead
  una := h.una
  sent := h.sent
  queue := fun p hp => (h.queue p hp).imp id (List.mem_append_left _)
  kept := h.kept
  out := by
    intro p hp
    rcases List.mem_append.mp hp with hp | hp
    · exact h.out p hp
    · rw [List.mem_singleton.mp hp]
      exact .inr ⟨_, _, _, hn, segment_letterhead h.letterhead ..⟩

theorem transmit (h : Along R b a c out) {n : Nat} {flags : U8} (hf : flags = PSH ||| ACK ∨ flags = ACK)
    (hle : n ≤ c.sendBuf.length) (now : U64) :
    Along R b a (c.transmit n flags now).1 (out ++ [(c.transmit n flags now).2]) := by
  obtain ⟨k, hk, hroom⟩ := h.sent
  have hn : Numbered b c.send.nxt flags (c.sendBuf.take n) := by
    rw [hk]
    refine .data hf ?_
    rw [List.length_take]
    omega
  obtain ⟨hl, hu, -, hq, hkept, hout⟩ := h.send hn
  refine ⟨hl, hu, ⟨k + n, ?_, ?_⟩, ?_, ?_, hout⟩
  · change c.send.nxt + BitVec.ofNat 32 n = _
    rw [hk, BitVec.add_assoc, BitVec.ofNat_add]
  · change k + n + (c.sendBuf.drop n).length ≤ _
    rw [List.length_drop]
    omega
  · rintro p ⟨s, hmem, rfl⟩
    rcases List.mem_append.mp hmem with hmem | hmem
    · exact hq s.packet ⟨s, hmem, rfl⟩
    · rw [List.mem_singleton.mp hmem]
      exact .inr (List.mem_append_right _ (List.mem_singleton_self _))
  · intro p hp
    obtain ⟨s, hmem, heq⟩ := hkept p hp
    exact ⟨s, List.mem_append_left _ hmem, heq⟩

theorem made (h : Along R b a c out) {p : Bytes} (hp : p ∈ out) : R p ∨ Made b c p := by
  rcases h.out p hp with hold | ⟨seq, flags, payload, hn, rfl⟩
  · exact .inl hold
  · rw [← segment_letterhead h.letterhead]
    exact .inr (.plain hn)

end Along

theorem fillPipe_along {R : Bytes → Prop} {b a : Connection F} (limit : U32) (now : U64) (fuel : Nat) :
    ∀ {c : Connection F} {out : List Bytes}, Along R b a c out →
      Along R b a (fillPipe limit now fuel c).1 (out ++ (fillPipe limit now fuel c).2) := by
  induction fuel with
  | zero =>
      intro c out h
      simpa [fillPipe] using h
  | succ fuel ih =>
      intro c out h
      simp only [fillPipe]
      generalize hn : min (min (limit - c.retx.pipe dupThresh).toNat c.sendMss.toNat) c.sendBuf.length = n
      split_ifs
      · simpa using h
      · simpa using h
      · simpa using h
      · have hle : n ≤ c.sendBuf.length := by omega
        have hone : Along R b a (c.transmit n (PSH ||| ACK) now).1 (out ++ [(c.transmit n (PSH ||| ACK) now).2]) :=
          h.transmit (.inl rfl) hle now
        simpa using ih hone

theorem drain_along {R : Bytes → Prop} {b a : Connection F} (pacing : F) (now : U64) (fuel : Nat) :
    ∀ {c : Connection F} {out : List Bytes}, Along R b a c out →
      Along R b a (drain pacing now fuel c).1 (out ++ (drain pacing now fuel c).2) := by
  induction fuel with
  | zero =>
      intro c out h
      simpa [drain] using h
  | succ fuel ih =>
      intro c out h
      simp only [drain]
      generalize hn : min (min c.usableWindow.toNat c.sendMss.toNat) c.sendBuf.length = n
      split_ifs
      · simpa using h
      · simpa using h
      · simpa using h
      · cases hp : c.pace pacing n now with
        | none => simpa using h
        | some c' =>
            have hc' : Along R b a c' out ∧ c'.sendBuf = c.sendBuf := by
              unfold pace at hp
              split_ifs at hp <;> obtain rfl := Option.some.inj hp <;> exact ⟨h.same rfl rfl rfl rfl, rfl⟩
            have hle : n ≤ c'.sendBuf.length := by
              rw [hc'.2]
              omega
            have hone : Along R b a (c'.transmit n (PSH ||| ACK) now).1
                (out ++ [(c'.transmit n (PSH ||| ACK) now).2]) :=
              hc'.1.transmit (.inl rfl) hle now
            simpa using ih hone

theorem armProbe_along {R : Bytes → Prop} {b a c : Connection F} {out : List Bytes}
    (h : Along R b a c out) (now : U64) :
    Along R b a (c.armProbe now) out := by
  unfold armProbe
  split_ifs <;> exact h.same rfl rfl rfl rfl

def resentPackets (c : Connection F) (x : Call) (p : Bytes) : Prop := ∃ s, c.Resent x s ∧ s.packet = p

theorem resentPackets_stored {c : Connection F} {x : Call} {p : Bytes} (h : c.resentPackets x p) : c.Stored p := by
  obtain ⟨s, hs, rfl⟩ := h
  exact ⟨s, hs.mem, rfl⟩

theorem pollTransmit_along (c : Connection F) (now : U64) :
    (∀ p, c.resentPackets (.pollTransmit now) p → p ∈ (c.pollTransmit now).2) ∧
      (c.pollTransmit now = (c, []) ∨ ((c.pollTransmit now).1.tsVal = now.setWidth 32 ∧
        Along (c.resentPackets (.pollTransmit now)) c { c with tsVal := now.setWidth 32 } (c.pollTransmit now).1
          (c.pollTransmit now).2)) := by
  generalize hR : c.resentPackets (.pollTransmit now) = R
  have hstart : Along R c { c with tsVal := now.setWidth 32 } { c with tsVal := now.setWidth 32 } [] :=
    .start rfl rfl rfl rfl
  have hstamp : ∀ {d : Connection F} {out : List Bytes}, Along R c { c with tsVal := now.setWidth 32 } d out →
      d.tsVal = now.setWidth 32 := fun h => (letterhead_inj h.letterhead).2.2.2.2.1
  have hholes := retransmitHoles_holes (umin c.send.wnd c.cong.window) now c.retx.segments.length c.retx
    (List.length_filter_le _ _)
  unfold pollTransmit
  split_ifs with hs
  · refine ⟨fun p hp => ?_, .inl rfl⟩
    rw [← hR] at hp
    obtain ⟨s, ⟨hopen, -⟩, -⟩ := hp
    rcases hopen with hopen | hopen
    · exact absurd hopen hs.1
    · exact absurd hopen hs.2
  have hopen : c.state.Sending := by
    rw [not_and_or, not_not, not_not] at hs
    exact hs
  dsimp only
  by_cases hrec : (c.sackOk && c.cong.inRecovery) = true
  · rw [if_pos hrec]
    rw [Bool.and_eq_true] at hrec
    have hiff : ∀ p, p ∈ (retransmitHoles (umin c.send.wnd c.cong.window) now c.retx.segments.length c.retx).2 ↔
        R p := by
      intro p
      rw [hholes, List.mem_map, ← hR]
      exact exists_congr fun s => and_congr_left fun _ => ⟨fun h => ⟨hopen, hrec.1, hrec.2, h⟩, fun h => h.2.2.2⟩
    have hfill : Along R c { c with tsVal := now.setWidth 32 } ({ c with tsVal := now.setWidth 32 }.recoverSack now).1
        ({ c with tsVal := now.setWidth 32 }.recoverSack now).2 := by
      unfold recoverSack
      dsimp only
      refine fillPipe_along _ now _ ?_
      exact hstart.resend (retransmitHoles_resends (umin c.send.wnd c.cong.window) now c.retx.segments.length _)
        (fun p hp => (hiff p).mp hp) rfl rfl
    refine ⟨fun p hp => ?_, .inr ⟨hstamp hfill, hfill⟩⟩
    exact List.mem_append_left _ ((hiff p).mpr hp)
  · rw [if_neg hrec]
    have hdrain := armProbe_along (drain_along c.cong.pacingRateBps now c.sendBuf.length hstart) now
    refine ⟨fun p hp => ?_, .inr ⟨hstamp hdrain, hdrain⟩⟩
    rw [← hR] at hp
    obtain ⟨s, ⟨-, hok, hin, -⟩, -⟩ := hp
    exact absurd (by rw [hok, hin]; rfl) hrec

theorem tickPersist_along {R : Bytes → Prop} {b a c : Connection F} {out : List Bytes}
    (h : Along R b a c out) (now : U64) :
    Along R b a (c.tickPersist now).1 (out ++ (c.tickPersist now).2) := by
  unfold tickPersist
  split_ifs with hopen
  · rw [List.append_nil]
    exact h.same rfl rfl rfl rfl
  · have hpos : 1 ≤ c.sendBuf.length := by
      obtain ⟨-, -, hne, -⟩ := hopen
      rw [Bool.not_eq_true', List.isEmpty_eq_false_iff] at hne
      exact List.length_pos_iff.mpr hne
    exact (h.transmit (.inr rfl) hpos now).same rfl rfl rfl rfl
  · simpa using h
  · rw [List.append_nil]
    exact h.same rfl rfl rfl rfl

/-- After a window probe something is in flight; otherwise the numbers are untouched. -/
theorem tickPersist_flight (c : Connection F) (now : U64) :
    (c.tickPersist now).1.flightSize ≠ 0#32 ∨ (c.tickPersist now).1.send = c.send := by
  unfold tickPersist
  split_ifs with hopen
  · exact .inr rfl
  · left
    obtain ⟨-, -, -, hz⟩ := hopen
    change c.send.nxt - c.send.una = 0#32 at hz
    change c.send.nxt + 1#32 - c.send.una ≠ 0#32
    bv_omega
  · exact .inr rfl
  · exact .inr rfl

theorem tickKeepalive_along {R : Bytes → Prop} {b a c : Connection F} {out : List Bytes} (h : Along R b a c out)
    (hs : c.flightSize ≠ 0#32 ∨ c.send = b.send) (now : U64) :
    Along R b a (c.tickKeepalive now).1 (out ++ (c.tickKeepalive now).2) := by
  simp only [tickKeepalive]
  split_ifs with hidle
  · rw [List.append_nil]
    exact h.same rfl rfl rfl rfl
  · -- nothing is in flight, so no window probe came before
    have hsend : c.send = b.send := hs.resolve_left (not_not_intro hidle.2.2.1)
    have hquiet : b.flightSize = 0#32 := by
      rw [flightSize, ← hsend]
      exact hidle.2.2.1
    have hn : Numbered b (c.send.nxt - 1#32) ACK [] := by
      rw [hsend]
      exact .keepalive hquiet
    have hc : Along R b a { c with keepaliveProbesSent := c.keepaliveProbesSent + 1#32 } out :=
      h.same rfl rfl rfl rfl
    exact hc.send hn
  · simpa using h
  · simpa using h

theorem onTick_along (c : Connection F) (now : U64) :
    (∀ p, c.resentPackets (.onTick now) p → p ∈ (c.onTick now).2) ∧
      (c.onTick now).1.tsVal = now.setWidth 32 ∧
      Along (c.resentPackets (.onTick now)) c { c with tsVal := now.setWidth 32 }
        (c.onTick now).1 (c.onTick now).2 := by
  obtain ⟨st, hreap⟩ := reap_eq { c with tsVal := now.setWidth 32 } now
  have hstart : Along (c.resentPackets (.onTick now)) c { c with tsVal := now.setWidth 32 }
      (reap { c with tsVal := now.setWidth 32 } now) [] := by
    rw [hreap]
    exact .start rfl rfl rfl rfl
  have hsend : (reap { c with tsVal := now.setWidth 32 } now).send = c.send := by rw [hreap]
  have htakes : ∀ p, c.resentPackets (.onTick now) p ↔
      ∃ s, TimerTakes (reap { c with tsVal := now.setWidth 32 } now) now s ∧ s.packet = p := by
    rw [hreap]
    exact fun p => Iff.rfl
  have htick : (∀ p, c.resentPackets (.onTick now) p → p ∈ (c.onTick now).2) ∧
      Along (c.resentPackets (.onTick now)) c { c with tsVal := now.setWidth 32 }
      (c.onTick now).1 (c.onTick now).2 := by
    unfold onTick
    dsimp only
    generalize reap { c with tsVal := now.setWidth 32 } now = d at hstart hsend htakes ⊢
    have hmem := fun p => (@mem_timers F _ d now p).trans (htakes p).symm
    obtain ⟨q, r, g, t, s, heq⟩ := timers_eq d now
    have htimers := hstart.resend (timers_resend d now) (fun p hp => (hmem p).mp hp) (by rw [heq]; rfl) (by rw [heq])
    have hkept : (((d.tickRack now).1.tickProbe now).1.tickDue now).1.send = c.send := by rw [heq, hsend]
    refine ⟨fun p hp => List.mem_append_left _ (List.mem_append_left _ ((hmem p).mpr hp)), ?_⟩
    generalize (((d.tickRack now).1.tickProbe now).1.tickDue now).1 = e at htimers hkept ⊢
    have hpersist := tickPersist_along htimers now
    have hflight := (tickPersist_flight e now).imp id (fun heq => heq.trans hkept)
    exact tickKeepalive_along hpersist hflight now
  exact ⟨htick.1, (letterhead_inj htick.2.letterhead).2.2.2.2.1, htick.2⟩

/-- An update of the segment handler keeps SND.NXT and the clock's stamp, and
stores no new packet. -/
structure Hears (b c : Connection F) : Prop where
  nxt : c.send.nxt = b.send.nxt
  tsVal : c.tsVal = b.tsVal
  queue : ∀ p, c.Stored p → b.Stored p

theorem Hears.of_queue {b c c' : Connection F} (h : Hears b c) (hn : c'.send.nxt = c.send.nxt)
    (hv : c'.tsVal = c.tsVal) (hq : ∀ q' ∈ c'.core.queue, ∃ q ∈ c.core.queue, q.packet = q'.packet) :
    Hears b c' where
  nxt := hn.trans h.nxt
  tsVal := hv.trans h.tsVal
  queue := by
    rintro p ⟨s, hmem, rfl⟩
    obtain ⟨q, hq, heq⟩ := hq s.queued (List.mem_map_of_mem hmem)
    obtain ⟨s', hmem', rfl⟩ := List.mem_map.mp hq
    exact h.queue s.packet ⟨s', hmem', heq⟩

theorem Hears.of_core {b c c' : Connection F} (h : Hears b c) (hn : c'.send.nxt = c.send.nxt)
    (hv : c'.tsVal = c.tsVal) (hq : c'.core.queue = c.core.queue) : Hears b c' :=
  h.of_queue hn hv fun q hmem => ⟨q, hq ▸ hmem, rfl⟩

theorem Hears.dropAcked {b c c' : Connection F} (h : Hears b c) (hn : c'.send.nxt = c.send.nxt)
    (hv : c'.tsVal = c.tsVal) (ack : U32) (now : U64) (hq : c'.retx = (c.retx.ack ack now).1) : Hears b c' := by
  refine h.of_queue hn hv fun q hmem => ⟨q, ?_, rfl⟩
  simp only [core, hq, RetxQueue.ack_queued] at hmem
  exact (List.mem_filter.mp hmem).1

theorem Hears.fastRetransmit {b c : Connection F} (h : Hears b c) (now : U64) :
    Hears b (c.fastRetransmit now).1 := by
  have hr : c.Resends (c.fastRetransmit now).1 _ := resends_one (c.retx.fastRetransmit_resent now) rfl
  exact h.of_core rfl rfl (congrArg Core.queue hr.core)

theorem Update.hears {seg : Segment} {now : U64} {rnd : U32} {b c c' : Connection F}
    (hb : b.tsVal = now.setWidth 32) (hu : Update seg now rnd c c') (h : Hears b c) : Hears b c' := by
  cases hu with
  | arrive => exact h.of_core rfl (hb.symm.trans h.tsVal.symm) rfl
  | challenge =>
      simp only [maybeChallenge]
      split_ifs <;> exact h.of_core rfl rfl rfl
  | dropAcked => exact h.dropAcked rfl rfl seg.th.ack now rfl
  | paws current =>
      unfold Connection.paws at current
      split at current
      · split_ifs at current <;> obtain rfl := Option.some.inj current <;> exact h.of_core rfl rfl rfl
      · obtain rfl := Option.some.inj current
        exact h
  | mark =>
      refine h.of_queue rfl rfl fun q hq => ?_
      simp only [core, RetxQueue.markSacked_queued] at hq
      obtain ⟨r, hr, rfl⟩ := List.mem_map.mp hq
      exact ⟨r, hr, rfl⟩
  | newAck =>
      simp only [onNewAck]
      split_ifs
      · refine Hears.fastRetransmit ?_ now
        exact h.dropAcked rfl rfl seg.th.ack now rfl
      · exact h.dropAcked rfl rfl seg.th.ack now rfl
  | dupAck =>
      simp only [onDupAck]
      split_ifs
      · refine Hears.fastRetransmit ?_ now
        exact h.of_core rfl rfl rfl
      · exact h.of_core rfl rfl rfl
  | deliver =>
      rw [deliver_eq]
      exact h.of_core rfl rfl rfl
  | goto | linger | advance | window | pend | takeFin => exact h.of_core rfl rfl rfl

theorem onSynSent_hears (c : Connection F) (th : TcpHeader) (opts : TcpOptions) (now : U64) :
    Hears c (c.onSynSent th opts now).1 ∧
      ∀ p, (c.onSynSent th opts now).2 = some p → p = (c.onSynSent th opts now).1.bareAck := by
  have hstart : Hears c c := ⟨rfl, rfl, fun _ hp => hp⟩
  unfold onSynSent
  split_ifs
  · refine ⟨?_, fun p hp => (Option.some.inj hp).symm⟩
    exact hstart.dropAcked rfl rfl th.ack now rfl
  · exact ⟨hstart, fun p hp => nomatch hp⟩

theorem onSegment_arrive (c : Connection F) (seg : Segment) (now : U64) (rnd : U32) :
    (c.arrive now).onSegment seg now rnd = c.onSegment seg now rnd := rfl

theorem onSegment_made (c : Connection F) (seg : Segment) (now : U64) (rnd : U32) :
    (c.onSegment seg now rnd).1.tsVal = now.setWidth 32 ∧
      (∀ p, (c.onSegment seg now rnd).1.Stored p → c.Stored p) ∧
      (∀ p, c.resentPackets (.onSegment seg now rnd) p → (c.onSegment seg now rnd).2 = some p) ∧
      ∀ p, (c.onSegment seg now rnd).2 = some p →
        (c.resentPackets (.onSegment seg now rnd) p ∧ (c.onSegment seg now rnd).1.Stored p) ∨
          Made c (c.onSegment seg now rnd).1 p := by
  have hstart : Hears (c.arrive now) (c.arrive now) := ⟨rfl, rfl, fun _ hp => hp⟩
  have hback : ∀ p, c.resentPackets (.onSegment seg now rnd) p → (c.onSegment seg now rnd).2 = some p := by
    rintro p ⟨s, hs, rfl⟩
    rcases onSegment_answers c seg now rnd with ⟨s', hs', heq⟩ | ⟨hnone, -⟩
    · obtain rfl : s' = s := Option.some.inj (hs'.2.2.2.2.2.symm.trans hs.2.2.2.2.2)
      exact heq
    · exact absurd hs (hnone s)
  have hplain : (c.onSegment seg now rnd).1.send.nxt = c.send.nxt → Plain (c.onSegment seg now rnd) →
      ∀ p, (c.onSegment seg now rnd).2 = some p → Made c (c.onSegment seg now rnd).1 p := by
    rintro hnxt (hnone | hack | hsack) p hp
    · cases hnone.symm.trans hp
    · rw [← Option.some.inj (hack.symm.trans hp), bareAck, hnxt]
      exact .plain .ack
    · rw [← Option.some.inj (hsack.symm.trans hp), hnxt]
      exact .sack
  rw [← onSegment_arrive] at hback hplain ⊢
  rcases (c.arrive now).onSegment_reacts seg now rnd with hr | ⟨-, -, heq⟩
  · have hh := hr.preserves (P := Hears (c.arrive now)) (Update.hears rfl) hstart
    refine ⟨hh.tsVal, hh.queue, hback, fun p hp => ?_⟩
    rcases onSegment_answers c seg now rnd with ⟨s, hs, hsp⟩ | ⟨-, hpl⟩
    swap
    · exact .inr (hplain hh.nxt hpl p hp)
    have hres : c.resentPackets (.onSegment seg now rnd) p := ⟨s, hs, Option.some.inj (hsp.symm.trans hp)⟩
    have ha := hr.answer
    rw [hp] at ha
    have hnxt : ((c.arrive now).onSegment seg now rnd).1.send.nxt = c.send.nxt := hh.nxt
    generalize ((c.arrive now).onSegment seg now rnd).1 = d at hh ha hnxt
    cases ha with
    | ack =>
        right
        rw [bareAck, hnxt]
        exact .plain .ack
    | sack =>
        right
        rw [hnxt]
        exact .sack
    | resend mem => exact .inl ⟨hres, _, mem, rfl⟩
  · obtain ⟨hh, hack⟩ := onSynSent_hears ((c.arrive now).arrive now) seg.th seg.opts now
    refine ⟨by rw [heq]; exact hh.tsVal, by rw [heq]; exact hh.queue, hback, fun p hp => ?_⟩
    rw [heq] at hp ⊢
    have hnxt : (((c.arrive now).arrive now).onSynSent seg.th seg.opts now).1.send.nxt = c.send.nxt := hh.nxt
    rw [hack p hp, bareAck, hnxt]
    exact .inr (.plain .ack)

theorem close_made (c : Connection F) (now : U64) :
    c.close now = (c, none) ∨ ∃ fin, (c.close now).2 = some fin ∧ (c.close now).1.tsVal = now.setWidth 32 ∧
      Made c (c.close now).1 fin ∧ ∀ p, (c.close now).1.Stored p → c.Stored p ∨ p = fin := by
  have hfin : ∀ next, ∃ fin, (c.sendFin next now).2 = some fin ∧ (c.sendFin next now).1.tsVal = now.setWidth 32 ∧
      Made c (c.sendFin next now).1 fin ∧ ∀ p, (c.sendFin next now).1.Stored p → c.Stored p ∨ p = fin := by
    intro next
    refine ⟨_, rfl, rfl, .plain .fin, ?_⟩
    rintro p ⟨s, hmem, rfl⟩
    rcases List.mem_append.mp hmem with hmem | hmem
    · exact .inl ⟨s, hmem, rfl⟩
    · rw [List.mem_singleton.mp hmem]
      exact .inr rfl
  unfold close
  split
  · exact .inr (hfin _)
  · exact .inr (hfin _)
  · exact .inl rfl

end Connection

/-- The clock value of a call that can send. -/
def Call.time : Call → Option U64
  | .pollTransmit now | .onTick now | .close now | .onSegment _ now _ => some now
  | _ => none

namespace Host
open Connection

/-- The packets of one call. -/
def packets (h : Host F) (x : Call) : List Bytes := (h.call x).emitted.drop h.emitted.length

theorem packets_eq {h : Host F} {x : Call} {more : List Bytes} (he : (h.call x).emitted = h.emitted ++ more) :
    h.packets x = more := by
  rw [packets, he, List.drop_left]

/-- Every packet of a call is one that the call resends, or was built during the
call and bears its clock value; every packet that the call resends is among
them, and what is stored afterwards was stored before or is new. -/
theorem call_made (h : Host F) (x : Call) : ∃ more, (h.call x).emitted = h.emitted ++ more ∧
    (∀ p ∈ more, (h.conn.resentPackets x p ∧ (h.call x).conn.Stored p) ∨ (Made h.conn (h.call x).conn p ∧
      ∃ now, x.time = some now ∧ (h.call x).conn.tsVal = now.setWidth 32)) ∧
    (∀ p, h.conn.resentPackets x p → p ∈ more) ∧
    ∀ p, (h.call x).conn.Stored p → h.conn.Stored p ∨ p ∈ more := by
  have hquiet : ∀ k : Host F, k.emitted = h.emitted → k.conn.retx = h.conn.retx →
      (∀ p, ¬ h.conn.resentPackets x p) → ∃ more, k.emitted = h.emitted ++ more ∧
      (∀ p ∈ more, (h.conn.resentPackets x p ∧ k.conn.Stored p) ∨ (Made h.conn k.conn p ∧
        ∃ now, x.time = some now ∧ k.conn.tsVal = now.setWidth 32)) ∧
      (∀ p, h.conn.resentPackets x p → p ∈ more) ∧ ∀ p, k.conn.Stored p → h.conn.Stored p ∨ p ∈ more := by
    intro k hem hq hno
    refine ⟨[], by rw [hem, List.append_nil], fun p hp => (nomatch hp), fun p hp => absurd hp (hno p),
      fun p hp => .inl ?_⟩
    rwa [Stored, hq] at hp
  cases x with
  | write | takeReceived | setNodelay | setKeepalive | useBbr => exact hquiet _ rfl rfl fun p hp => hp.choose_spec.1
  | pollTransmit now =>
      obtain ⟨hback, heq | ⟨hval, halong⟩⟩ := pollTransmit_along h.conn now
      · refine hquiet _ ?_ ?_ fun p hp => ?_
        · simp only [call, heq, List.append_nil]
        · simp only [call, heq]
        · have hmem := hback p hp
          rw [heq] at hmem
          cases hmem
      · refine ⟨_, rfl, fun p hp => ?_, hback, halong.queue⟩
        exact (halong.made hp).imp (fun hres => ⟨hres, halong.kept p (resentPackets_stored hres)⟩)
          fun hmade => ⟨hmade, now, rfl, hval⟩
  | onTick now =>
      obtain ⟨hback, hval, halong⟩ := onTick_along h.conn now
      simp only [call]
      generalize h.conn.onTick now = r at hback hval halong
      refine ⟨r.2, rfl, fun p hp => ?_, hback, halong.queue⟩
      exact (halong.made hp).imp (fun hres => ⟨hres, halong.kept p (resentPackets_stored hres)⟩)
        fun hmade => ⟨hmade, now, rfl, hval⟩
  | close now =>
      have hno : ∀ p, ¬ h.conn.resentPackets (.close now) p := fun p hp => hp.choose_spec.1
      rcases close_made h.conn now with heq | ⟨fin, hout, hval, hmade, hq⟩
      · refine hquiet _ ?_ ?_ hno
        · simp only [call, heq]
        · simp only [call, heq]
      · cases hc : h.conn.close now with
        | mk c' out =>
            rw [hc] at hout hval hmade hq
            obtain rfl : out = some fin := hout
            simp only [call, hc]
            refine ⟨[fin], rfl, fun p hp => .inr ?_, fun p hp => absurd hp (hno p),
              fun p hp => (hq p hp).imp id List.mem_singleton.mpr⟩
            rw [List.mem_singleton.mp hp]
            exact ⟨hmade, now, rfl, hval⟩
  | onSegment seg now rnd =>
      obtain ⟨hval, hq, hback, hmade⟩ := onSegment_made h.conn seg now rnd
      refine ⟨_, rfl, fun p hp => ?_, fun p hp => Option.mem_toList.mpr (hback p hp), fun p hp => .inl (hq p hp)⟩
      exact (hmade p (Option.mem_toList.mp hp)).imp id fun hm => ⟨hm, now, rfl, hval⟩

/-- A property of packets that is kept by resending holds of all that is stored
and sent, if it holds of what a call builds. -/
theorem call_packets {P : Bytes → Prop} {h : Host F} {x : Call} (hstored : ∀ p, h.conn.Stored p → P p)
    (hemitted : ∀ p ∈ h.emitted, P p) (hmade : ∀ p ∈ (h.call x).emitted, Made h.conn (h.call x).conn p → P p) :
    (∀ p, (h.call x).conn.Stored p → P p) ∧ ∀ p ∈ (h.call x).emitted, P p := by
  obtain ⟨more, he, hmore, -, hqueue⟩ := call_made h x
  have hnew : ∀ p ∈ more, P p := by
    intro p hp
    rcases hmore p hp with ⟨hres, -⟩ | ⟨hm, -⟩
    · exact hstored p (resentPackets_stored hres)
    · exact hmade p (he ▸ List.mem_append_right _ hp) hm
  refine ⟨fun p hp => ?_, fun p hp => ?_⟩
  · rcases hqueue p hp with hold | hmem
    · exact hstored p hold
    · exact hnew p hmem
  · rw [he] at hp
    rcases List.mem_append.mp hp with hold | hmem
    · exact hemitted p hold
    · exact hnew p hmem

end Host
end TcpStack
