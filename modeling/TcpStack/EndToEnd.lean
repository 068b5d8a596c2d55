import TcpStack.Sack

/-!
# End-to-end guarantees

What the joint invariant says about the two hosts: delivery is a prefix of
what was written, the end of the stream is seen only after all that was sent
before it, no acknowledgement runs ahead of what was consumed, and a segment
marked as selectively acknowledged has arrived.
-/
namespace TcpStack.System
open Tcp TcpStack.Seq TcpStack.Circle Trace Host

variable {F : Type} [F64 F]

theorem follows_delivered {h : Host F} {t : Trace} (hf : Follows h t) : t.delivered = h.delivered := by
  have hbuf : t.recvBuf = h.conn.recvBuf := hf.recvBuf
  rw [Trace.delivered, Host.delivered, hf.taken, hbuf]

theorem sent_written {h : Host F} {t : Trace} (hf : Follows h t) (ho : Own t) : t.sent <+: h.written := by
  rw [← hf.written, ho.stream.written]
  exact List.prefix_append _ _

theorem delivered_sent {ta tb : Trace} (hj : Joint ta tb) : ta.delivered <+: tb.sent := by
  rcases hj.back with ⟨virgin, -⟩ | back
  · rw [virgin.delivered]
    exact List.nil_prefix
  · exact back.pre

/-- A run to evaluate: the handshake, two bytes from the active end, its close. -/
def demo : System Rat :=
  init (Ipv4Addr.new 10#8 0#8 0#8 1#8, 4000#16) (Ipv4Addr.new 10#8 0#8 0#8 2#8, 80#16) 100#32 0#64 0#32

def demoOpening : List Event :=
  [.accept 0 500#32 0#64 0#32, .deliverToA 0 1#64 0#32, .deliverToB 1 2#64 0#32]

def demoTransfer : List Event :=
  demoOpening ++ [.callA (.write [7#8, 8#8]), .callA (.pollTransmit 3#64), .deliverToB 2 4#64 0#32]

def demoClose : List Event := demoTransfer ++ [.callA (.close 5#64), .deliverToB 3 6#64 0#32]

/-- End-to-end prefix safety, in both directions. -/
theorem delivered_is_prefix_of_written (localEnd remoteEnd : Endpoint) (iss : U32) (now : U64) (rnd : U32)
    (events : List Event) (hb : Bounded ((init (F := F) localEnd remoteEnd iss now rnd).run events)) :
    let s := (init (F := F) localEnd remoteEnd iss now rnd).run events
    (∀ b, s.b = some b → b.delivered <+: s.a.written ∧ s.a.delivered <+: b.written) ∧
      (s.b = none → s.a.delivered = []) := by
  intro s
  have ht : Tracked _ Joint s := handshake_kept.run (init_tracked ..) events hb
  constructor
  · intro b hsb
    obtain ⟨ta, tb, hfa, hfb, hj⟩ := ht.both hsb
    rw [← follows_delivered hfa, ← follows_delivered hfb]
    exact ⟨hj.forth.pre.trans (sent_written hfa hj.ownA), (delivered_sent hj).trans (sent_written hfb hj.ownB)⟩
  · intro hsb
    obtain ⟨ta, hfa, hrest⟩ := ht
    simp only [hsb] at hrest
    rw [← follows_delivered hfa]
    exact hrest.2.delivered

theorem delivered_prefix_after_transfer :
    ∃ b, (demo.run demoTransfer).b = some b ∧ b.delivered = [7#8, 8#8] ∧
      b.delivered <+: (demo.run demoTransfer).a.written := by
  have hb : Bounded (demo.run demoTransfer) := by decide +kernel
  have hdel : (demo.run demoTransfer).b.map Host.delivered = some [7#8, 8#8] := by decide +kernel
  obtain ⟨b, hsb, hd⟩ := Option.map_eq_some_iff.mp hdel
  exact ⟨b, hsb, hd, ((delivered_is_prefix_of_written _ _ _ _ _ demoTransfer hb).1 b hsb).1⟩

/-- Once the passive end has consumed the FIN, it has delivered all that was
written before the close exactly if nothing was still queued at the close. -/
theorem eof_complete_iff_drained (localEnd remoteEnd : Endpoint) (iss : U32) (now : U64) (rnd : U32)
    (events : List Event) (hb : Bounded ((init (F := F) localEnd remoteEnd iss now rnd).run events)) :
    let s := (init (F := F) localEnd remoteEnd iss now rnd).run events
    ∀ b, s.b = some b → b.conn.peerClosed = true →
      ∃ r, s.a.closing = some r ∧ (b.delivered = r.written ↔ r.queued = []) := by
  intro s b hsb hfin
  have ht : Tracked _ Joint s := handshake_kept.run (init_tracked ..) events hb
  obtain ⟨ta, tb, hfa, hfb, hj⟩ := ht.both hsb
  have hpf : tb.peerFin = true := (congrArg Core.peerFin hfb.core).trans hfin
  obtain ⟨hcl, hall⟩ := hj.forth.eof hpf
  obtain ⟨r, hr⟩ := Option.isSome_iff_exists.mp hcl
  have hw := hj.ownA.stream.closed r hr
  refine ⟨r, hfa.closing ▸ hr, ?_⟩
  rw [← follows_delivered hfb, hall, hw]
  constructor
  · intro heq
    exact List.append_right_eq_self.mp heq.symm
  · intro hq
    rw [hq, List.append_nil]

theorem eof_complete_after_close : ∃ b r, (demo.run demoClose).b = some b ∧ b.conn.peerClosed = true ∧
    (demo.run demoClose).a.closing = some r ∧ r.queued = [] ∧ b.delivered = r.written := by
  have hb : Bounded (demo.run demoClose) := by decide +kernel
  have hfin : (demo.run demoClose).b.map (fun b => b.conn.peerClosed) = some true := by decide +kernel
  have hrec : (demo.run demoClose).a.closing = some ⟨[7#8, 8#8], []⟩ := by decide +kernel
  obtain ⟨b, hsb, hpc⟩ := Option.map_eq_some_iff.mp hfin
  obtain ⟨r, hr, hiff⟩ := eof_complete_iff_drained _ _ _ _ _ demoClose hb b hsb hpc
  obtain rfl := Option.some.inj (hr.symm.trans hrec)
  exact ⟨b, _, hsb, hpc, hr, rfl, hiff.mpr rfl⟩

/-- A close right after the write: the FIN overtakes both bytes for good. -/
theorem eof_incomplete_after_early_close :
    let s := demo.run (demoOpening ++
      [.callA (.write [7#8, 8#8]), .callA (.close 3#64), .deliverToB 2 4#64 0#32])
    Bounded s ∧ ∃ b r, s.b = some b ∧ b.conn.peerClosed = true ∧ s.a.closing = some r ∧
      b.delivered ≠ r.written := by
  intro s
  have hb : Bounded s := by decide +kernel
  have hfin : s.b.map (fun b => (b.conn.peerClosed, b.delivered)) = some (true, []) := by decide +kernel
  have hrec : s.a.closing = some ⟨[7#8, 8#8], [7#8, 8#8]⟩ := by decide +kernel
  obtain ⟨b, hsb, hpc⟩ := Option.map_eq_some_iff.mp hfin
  obtain ⟨hpc, hdel⟩ := Prod.mk.inj hpc
  refine ⟨hb, b, _, hsb, hpc, hrec, ?_⟩
  rw [hdel]
  decide

/-- The distance of a sequence number from the sender's initial one. -/
def dist (x : Host F) (seq : U32) : Nat := (seq - x.conn.send.iss).toNat

/-- SND.UNA ≤ the receiver's RCV.NXT ≤ SND.NXT, as distances from the ISS. -/
def AckBetween (x y : Host F) : Prop :=
  dist x x.conn.send.una ≤ dist x y.conn.recv.nxt ∧ dist x y.conn.recv.nxt ≤ dist x x.conn.send.nxt

instance (x y : Host F) : Decidable (AckBetween x y) := inferInstanceAs (Decidable (_ ∧ _))

/-- What acknowledgements removed from the queue covers consumed numbers only. -/
def RemovedConsumed (x y : Host F) : Prop :=
  ∀ q ∈ x.removed, dist x q.startSeq < dist x q.endSeq ∧ dist x q.endSeq ≤ dist x y.conn.recv.nxt

theorem dist_point {h : Host F} {t : Trace} (hf : Follows h t) {seq : U32} {n : Nat}
    (hs : seq = point t.iss n) (hn : n < 2 ^ 32) : dist h seq = n := by
  rw [dist, ← hf.iss, hs, point_sub_base, Nat.mod_eq_of_lt hn]

theorem dist_una {h : Host F} {t : Trace} (hf : Follows h t) (ho : Own t) : dist h h.conn.send.una = t.unaPos := by
  have hle := ho.outstanding.le
  have hlt := ho.nxtPos_lt
  rw [← hf.una]
  exact dist_point hf ho.outstanding.una (by omega)

theorem dist_nxt {h : Host F} {t : Trace} (hf : Follows h t) (ho : Own t) : dist h h.conn.send.nxt = t.nxtPos := by
  rw [← hf.nxt]
  exact dist_point hf ho.stream.nxt ho.nxtPos_lt

theorem ackBetween_of_dir {x y : Host F} {tx ty : Trace} (hfx : Follows x tx) (hfy : Follows y ty)
    (hown : Own tx) (hd : Dir tx ty) : AckBetween x y := by
  have hlt := hown.nxtPos_lt
  have hle := hd.rcvPos_le
  unfold AckBetween
  rw [dist_una hfx hown, dist_nxt hfx hown, ← hfy.rcvNxt, dist_point hfx hd.rcv (by omega)]
  exact ⟨hd.una, hle⟩

theorem removedConsumed_of_dir {x y : Host F} {tx ty : Trace} (hfx : Follows x tx) (hfy : Follows y ty)
    (hown : Own tx) (hd : Dir tx ty) : RemovedConsumed x y := by
  intro q hq
  have hlt := hown.nxtPos_lt
  have hle := hd.rcvPos_le
  obtain ⟨r, hmem, hs, he, -⟩ := hfx.removed q hq
  obtain ⟨a, m, hspan, hm⟩ := hd.removed r hmem
  have hpos := hspan.pos
  have hstart : q.startSeq = point tx.iss a := hs.symm.trans hspan.startSeq
  have hend : q.endSeq = point tx.iss m := he.symm.trans hspan.endSeq
  rw [← hfy.rcvNxt, dist_point hfx hstart (by omega), dist_point hfx hend (by omega),
    dist_point hfx hd.rcv (by omega)]
  exact ⟨hpos, hm⟩

/-- Acknowledgement soundness. The bounds on the active opener's RCV.NXT hold
once it has left SYN_SENT, where RCV.NXT is still a placeholder. -/
theorem acknowledgements_are_sound (localEnd remoteEnd : Endpoint) (iss : U32) (now : U64) (rnd : U32)
    (events : List Event) (hb : Bounded ((init (F := F) localEnd remoteEnd iss now rnd).run events)) :
    let s := (init (F := F) localEnd remoteEnd iss now rnd).run events
    ∀ b, s.b = some b → AckBetween s.a b ∧ RemovedConsumed s.a b ∧ RemovedConsumed b s.a ∧
      (s.a.conn.state ≠ .synSent → AckBetween b s.a) := by
  intro s b hsb
  have ht : Tracked _ Joint s := handshake_kept.run (init_tracked ..) events hb
  obtain ⟨ta, tb, hfa, hfb, hj⟩ := ht.both hsb
  refine ⟨ackBetween_of_dir hfa hfb hj.ownA hj.forth, removedConsumed_of_dir hfa hfb hj.ownA hj.forth, ?_⟩
  rcases hj.back with ⟨hv, hw⟩ | hdir
  · constructor
    · intro q hq
      obtain ⟨r, hr, -⟩ := hfb.removed q hq
      rw [hw.removed] at hr
      cases hr
    · intro hst
      exact absurd (hfa.state.symm.trans hv.state) hst
  · exact ⟨removedConsumed_of_dir hfb hfa hj.ownB hdir, fun _ => ackBetween_of_dir hfb hfa hj.ownB hdir⟩

theorem acks_sound_after_transfer : ∃ b, (demo.run demoTransfer).b = some b ∧
    AckBetween (demo.run demoTransfer).a b ∧ AckBetween b (demo.run demoTransfer).a := by
  have hb : Bounded (demo.run demoTransfer) := by decide +kernel
  have hsome : (demo.run demoTransfer).b.isSome = true := by decide +kernel
  have hopen : (demo.run demoTransfer).a.conn.state ≠ .synSent := by decide +kernel
  obtain ⟨b, hsb⟩ := Option.isSome_iff_exists.mp hsome
  obtain ⟨hforth, -, -, hback⟩ := acknowledgements_are_sound _ _ _ _ _ demoTransfer hb b hsb
  exact ⟨b, hsb, hforth, hback hopen⟩

/-- Before the SYN-ACK arrives the active opener's RCV.NXT is the placeholder 0. -/
theorem rcvNxt_is_placeholder_in_synSent :
    let s := demo.run [.accept 0 500#32 0#64 0#32]
    Bounded s ∧ ∃ b, s.b = some b ∧ ¬ AckBetween b s.a := by
  intro s
  have hb : Bounded s := by decide +kernel
  have hbad : s.b.map (fun b => decide (AckBetween b s.a)) = some false := by decide +kernel
  obtain ⟨b, hsb, hno⟩ := Option.map_eq_some_iff.mp hbad
  exact ⟨hb, b, hsb, of_decide_eq_false hno⟩

/-- The receiver has byte `k` of what was written, delivered or held out of order. -/
def Received (x y : Host F) (k : Nat) : Prop :=
  ∃ v, x.written[k]? = some v ∧ (y.delivered[k]? = some v ∨
    y.conn.reasm.base = x.conn.send.iss + 1#32 ∧ ∃ e ∈ y.conn.reasm.frags, e.1 ≤ k ∧ e.2[k - e.1]? = some v)

/-- Every marked segment was received, byte by byte. -/
def SackedReceived (x y : Host F) : Prop :=
  ∀ q ∈ x.conn.retx.segments, q.sacked = true →
    ∀ n, dist x q.startSeq ≤ n → n < dist x q.endSeq → 1 ≤ n ∧ Received x y (n - 1)

/-- The oldest queued segment is not marked, and both retransmissions reach it. -/
def HeadResendable (x : Host F) : Prop :=
  ∀ q rest, x.conn.retx.segments = q :: rest → q.sacked = false ∧
    (∀ now, (x.conn.retx.fastRetransmit now).2 = some q.packet) ∧
    ∀ now rto, rto ≤ saturatingSub now q.sentAtMs → q.packet ∈ (x.conn.retx.due now rto).2

theorem received_of_has {x y : Host F} {tx ty : Trace} (hfx : Follows x tx) (hfy : Follows y ty)
    (hown : Own tx) (hd : Dir tx ty) {k : Nat} (hk : Has ty k) : Received x y k := by
  have hsent := sent_written hfx hown
  rcases hk with hlt | ⟨e, he, hle, hke⟩
  · have hpre : y.delivered <+: x.written := follows_delivered hfy ▸ hd.pre.trans hsent
    rw [follows_delivered hfy] at hlt
    exact ⟨_, List.prefix_iff_getElem?.mp hpre k hlt, .inl (List.getElem?_eq_getElem hlt)⟩
  · have hre : ty.reasm = y.conn.reasm := congrArg Core.reasm hfy.core
    have hiss : tx.iss = x.conn.send.iss := hfx.iss
    have hat : PieceAt x.written e.1 e.2 := (hd.frags e he).1.mono hsent
    have hin : k - e.1 < e.2.length := by omega
    refine ⟨e.2[k - e.1], ?_, .inr ⟨?_, e, hre ▸ he, hle, List.getElem?_eq_getElem hin⟩⟩
    · have hget := List.prefix_iff_getElem?.mp hat _ hin
      rwa [List.getElem?_drop, Nat.add_sub_cancel' hle] at hget
    · rw [← hre, hd.base, hiss]
      rfl

theorem sackedReceived_of_selective {x y : Host F} {tx ty : Trace} (hfx : Follows x tx)
    (hfy : Follows y ty) (hown : Own tx) (hd : Dir tx ty) (hs : Selective tx ty) : SackedReceived x y := by
  intro q hq hsack n hsn hne
  have hmem := hfx.mem_queue hq
  obtain ⟨i, j, s, e, hb, hij, hj, hspan, his, hej⟩ := hs.sacked _ hmem hsack
  have hpos := hspan.pos
  have hstart : q.startSeq = point tx.iss s := hspan.startSeq
  have hend : q.endSeq = point tx.iss e := hspan.endSeq
  rw [dist_point hfx hstart (by omega)] at hsn
  rw [dist_point hfx hend (by omega)] at hne
  have hhas := (hs.has_of_block hown hij hj hb).2
  exact ⟨by omega, received_of_has hfx hfy hown hd (hhas (n - 1) (by omega) (by omega))⟩

theorem headResendable_of_unmarked {x : Host F} {tx : Trace} (hfx : Follows x tx)
    (hs : ∀ q ∈ tx.queue.head?, q.sacked = false) : HeadResendable x := by
  intro q rest hqs
  have hhead : q.sacked = false := by
    refine hs q.queued ?_
    simp [hfx.queue, hqs]
  refine ⟨hhead, fun now => ?_, fun now rto hrto => ?_⟩
  · simp [RetxQueue.fastRetransmit, RetxQueue.resendFirst, hqs, hhead]
  · simp only [RetxQueue.due, RetxQueue.resendWhere, hqs]
    refine List.mem_map_of_mem (List.mem_filter.mpr ⟨List.mem_cons_self .., ?_⟩)
    simpa [hhead] using hrto

/-- Selective acknowledgements are sound and never strand the sender, in both directions. -/
theorem selective_acks_are_sound (localEnd remoteEnd : Endpoint) (iss : U32) (now : U64) (rnd : U32)
    (events : List Event) (hb : Bounded ((init (F := F) localEnd remoteEnd iss now rnd).run events)) :
    let s := (init (F := F) localEnd remoteEnd iss now rnd).run events
    ∀ b, s.b = some b →
      (SackedReceived s.a b ∧ HeadResendable s.a) ∧ SackedReceived b s.a ∧ HeadResendable b := by
  intro s b hsb
  have ht : Tracked _ SackJoint s := sack_kept.run (init_sack_tracked ..) events hb
  obtain ⟨ta, tb, hfa, hfb, hj⟩ := ht.both hsb
  have hforth : SackedReceived s.a b ∧ HeadResendable s.a :=
    ⟨sackedReceived_of_selective hfa hfb hj.joint.ownA hj.joint.forth hj.forth,
      headResendable_of_unmarked hfa hj.forth.head⟩
  refine ⟨hforth, ?_⟩
  rcases hj.joint.back with ⟨hv, -⟩ | hdir
  · -- before the handshake the passive opener has marked nothing
    obtain ⟨-, hum⟩ := hj.waiting hv.state
    constructor
    · intro q hq hsack
      have hno : q.sacked = false := hum q.queued (hfb.mem_queue hq)
      rw [hno] at hsack
      cases hsack
    · exact headResendable_of_unmarked hfb fun q hq => hum q (List.mem_of_mem_head? hq)
  · have hback := hj.back hdir.synced
    exact ⟨sackedReceived_of_selective hfb hfa hj.joint.ownB hdir hback,
      headResendable_of_unmarked hfb hback.head⟩

/-- The first of two segments is lost, and the second is reported. -/
theorem sack_sound_after_gap :
    let s := demo.run (demoOpening ++ [.callA (.setNodelay true), .callA (.write [7#8]),
      .callA (.pollTransmit 3#64), .callA (.write [8#8]), .callA (.pollTransmit 3#64),
      .deliverToB 3 4#64 0#32, .deliverToA 1 5#64 0#32])
    s.a.conn.retx.segments.map (fun q => (q.startSeq, q.sacked)) = [(101#32, false), (102#32, true)] ∧
      ∃ b, s.b = some b ∧ SackedReceived s.a b ∧ HeadResendable s.a := by
  intro s
  have hb : Bounded s := by decide +kernel
  have hsome : s.b.isSome = true := by decide +kernel
  obtain ⟨b, hsb⟩ := Option.isSome_iff_exists.mp hsome
  refine ⟨by decide +kernel, b, hsb, ?_⟩
  exact (selective_acks_are_sound _ _ _ _ _ _ hb b hsb).1

end TcpStack.System
