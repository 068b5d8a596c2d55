import TcpStack.Agreement
import TcpStack.Emission
import TcpStack.Silence

/-!
# Resets in answer to our packets

A host that has lost its state answers a packet with a reset built from the
packet's own header, and the connection takes a reset only at RCV.NXT, or in
SYN_SENT with its SYN acknowledged. The module compares the two for every
packet that one call can send, and follows a restarted peer's SYN into a
connection that still exists.
-/
namespace TcpStack
open Tcp TcpStack.Seq

variable {F : Type} [F64 F]

namespace Trace

/-- The active opener before an answer: it has sent its SYN and nothing else. -/
structure Knocking (t : Trace) : Prop where
  state : t.state = .synSent
  syn : ∀ p ∈ t.emitted, ∃ s, decode p = some s ∧ s.th.flags = SYN ∧ s.payload = [] ∧ s.th.seq + 1#32 = t.nxt
  queued : ∀ q ∈ t.queue, q.packet ∈ t.emitted ∧ q.endSeq = t.nxt

/-- Every packet that can be resent acknowledges something. -/
def Acking (t : Trace) : Prop :=
  t.state ≠ .synSent ∧ ∀ q ∈ t.queue, ∃ s, decode q.packet = some s ∧ hasFlag s.th.flags ACK = true

/-- What a stored packet can be asked about its acknowledgement. -/
def KnockingOrAcking (t : Trace) : Prop := Knocking t ∨ t.state = .closed ∨ Acking t

theorem Knocking.step {t t' : Trace} {inp : Option Segment} (h : Knocking t) (hstep : Step inp t t') :
    KnockingOrAcking t' := by
  rcases hstep.shut_cases (.inl h.state) with ⟨hopen, -⟩ | ⟨q, hq, rfl⟩ | ⟨seg, -, -, -, hexact, rfl⟩ |
    ⟨seg, -, hwait, -⟩ | ⟨-, rfl⟩
  · exact absurd h.state hopen
  · refine .inl ⟨h.state, fun p hp => ?_, fun r hr => ⟨List.mem_append_left _ (h.queued r hr).1, (h.queued r hr).2⟩⟩
    rcases List.mem_append.mp hp with hp | hp
    · exact h.syn p hp
    · rw [List.mem_singleton.mp hp]
      exact h.syn _ (h.queued _ hq).1
  · -- the SYN is the only queued packet, and the acknowledgement covers it
    refine .inr (.inr ⟨fun hs => (nomatch hs), fun q hq => ?_⟩)
    obtain ⟨hmem, hb⟩ := List.mem_filter.mp hq
    rw [(h.queued q hmem).2, hexact, before_self] at hb
    cases hb
  · exact nomatch h.state.symm.trans hwait
  · exact .inr (.inl rfl)

theorem closed_step {t t' : Trace} {inp : Option Segment} (h : t.state = .closed) (hstep : Step inp t t') :
    t'.state = .closed := by
  rcases hstep.shut_cases (.inr (.inr h)) with ⟨-, pkt, rfl⟩ | ⟨q, -, rfl⟩ | ⟨seg, -, hwait, -⟩ |
    ⟨seg, -, hwait, -⟩ | ⟨-, rfl⟩
  · exact h
  · exact h
  · exact nomatch h.symm.trans hwait
  · exact nomatch h.symm.trans hwait
  · rfl

theorem Acking.step {t t' : Trace} {inp : Option Segment} (h : Acking t) (hstep : Step inp t t') : Acking t' := by
  refine ⟨hstep.synSent_only_from h.1, ?_⟩
  have hdrop : ∀ ack, ∀ q ∈ t.queue.filter (fun q => before ack q.endSeq),
      ∃ s, decode q.packet = some s ∧ hasFlag s.th.flags ACK = true :=
    fun ack q hq => h.2 q (List.mem_filter.mp hq).1
  have hnew : ∀ {q : Queued} {s : Segment} {seq ack : U32} {flags : U8} {payload : Bytes},
      Carries q.packet s seq ack flags payload [] → hasFlag flags ACK = true →
      ∀ r ∈ t.queue ++ [q], ∃ s, decode r.packet = some s ∧ hasFlag s.th.flags ACK = true := by
    intro q s seq ack flags payload hc hf r hr
    rcases List.mem_append.mp hr with hr | hr
    · exact h.2 r hr
    · rw [List.mem_singleton.mp hr]
      exact ⟨s, hc.decode, by rw [hc.flags, hf]⟩
  cases hstep with
  | ack | resend | deliver | pendFin | takePending | takeFin | die => exact h.2
  | data _ _ _ _ hplain hc =>
      refine hnew hc ?_
      rcases hplain with rfl | rfl <;> decide
  | fin _ _ hc => exact hnew hc (by decide)
  | ackNew | finAcked | openActive | openPassive => exact hdrop _
  | mark =>
      intro q hq
      obtain ⟨r, hr, rfl⟩ := List.mem_map.mp hq
      exact h.2 r hr

theorem KnockingOrAcking.step {t t' : Trace} {inp : Option Segment} (h : KnockingOrAcking t) (hstep : Step inp t t') :
    KnockingOrAcking t' := by
  rcases h with hk | hc | ha
  · exact hk.step hstep
  · exact .inr (.inl (closed_step hc hstep))
  · exact .inr (.inr (ha.step hstep))

theorem KnockingOrAcking.appCall {t : Trace} (h : KnockingOrAcking t) (x : Call) :
    KnockingOrAcking (t.appCall x) := by
  rcases h with ⟨hs, hsyn, hq⟩ | hc | ⟨hs, hq⟩
  · left
    cases x <;> exact ⟨hs, hsyn, hq⟩
  · right
    left
    cases x <;> exact hc
  · right
    right
    cases x <;> exact ⟨hs, hq⟩

end Trace

namespace Connection

theorem buildRst_reads (ipSrc ipDst : Ipv4Addr) (th : TcpHeader) (payloadLen : Nat) :
    ∃ rst, decode (buildRst ipSrc ipDst th payloadLen) = some rst ∧ hasFlag rst.th.flags RST = true ∧
      (hasFlag th.flags ACK = true → rst.th.seq = th.ack) ∧
      (hasFlag th.flags ACK = false → hasFlag rst.th.flags ACK = true ∧
        rst.th.ack = th.seq + (BitVec.ofNat 32 payloadLen + (if hasFlag th.flags SYN then 1#32 else 0#32) +
          (if hasFlag th.flags FIN then 1#32 else 0#32))) := by
  have hreads : ∀ seq ack flags, decode (buildPacket (ipDst, th.dstPort) (ipSrc, th.srcPort) seq ack flags 0#16
      [] []) = some ⟨⟨th.dstPort, th.srcPort, seq, ack, 20, flags, 0#16⟩, [], {}⟩ := fun seq ack flags =>
    decode_buildPacket rfl (Nat.zero_le _) (parseFrom_nil {})
  have hrst : hasFlag RST RST = true := by decide
  have hboth : hasFlag (RST ||| ACK) RST = true ∧ hasFlag (RST ||| ACK) ACK = true := by decide
  unfold buildRst
  by_cases hack : hasFlag th.flags ACK = true
  · rw [if_pos hack]
    exact ⟨_, hreads _ _ _, hrst, fun _ => rfl, fun hno => absurd hack (by simp [hno])⟩
  · rw [if_neg hack]
    exact ⟨_, hreads _ _ _, hboth.1, fun hyes => absurd hyes hack, fun _ => ⟨hboth.2, rfl⟩⟩

theorem maybeChallenge_state (c : Connection F) (now : U64) (rnd : U32) :
    (c.maybeChallenge now rnd).1.state = c.state := by
  simp only [maybeChallenge]
  split_ifs <;> rfl

theorem onSegment_rst_closes_iff (c : Connection F) {rst : Segment} (hr : hasFlag rst.th.flags RST = true)
    (now : U64) (rnd : U32) : (c.onSegment rst now rnd).1.state = .closed ↔ c.state = .closed ∨
      (if c.state = .synSent then hasFlag rst.th.flags ACK = true ∧ rst.th.ack = c.send.nxt
      else c.state ≠ .timeWait ∧ rst.th.seq = c.recv.nxt) := by
  have harr : (c.arrive now).state = c.state ∧ (c.arrive now).send = c.send ∧ (c.arrive now).recv = c.recv :=
    ⟨rfl, rfl, rfl⟩
  simp only [onSegment, hr, if_true]
  generalize c.arrive now = d at harr
  obtain ⟨hs, hsend, hrecv⟩ := harr
  rw [← hs, ← hsend, ← hrecv, onRst]
  split_ifs with hsent hexact htw hseq hin
  · simp [hexact]
  · simp [hexact]
  · simp [htw]
  · simp [hseq, htw]
  · rw [maybeChallenge_state]
    simp [hseq]
  · simp [hseq]

/-- A stored packet acknowledges what the connection expects next, if anything. -/
def Current (c : Connection F) (s : Unacked) : Prop :=
  ∀ seg, decode s.packet = some seg → hasFlag seg.th.flags ACK = true → seg.th.ack = c.recv.nxt

end Connection

namespace Host
open Connection Trace

theorem Fresh.knockingOrAcking {h : Host F} (hf : Fresh h) : KnockingOrAcking h.start := by
  cases hf with
  | connect localEnd remoteEnd iss now rnd =>
      obtain ⟨s, hc, -⟩ := connectWithIss_syn (F := F) localEnd remoteEnd iss now rnd
      refine .inl ⟨rfl, fun p hp => ?_, fun q hq => ?_⟩
      · rw [List.mem_singleton.mp hp]
        refine ⟨s, hc.decode, hc.flags, hc.payload, ?_⟩
        rw [hc.seq]
        rfl
      · rw [List.mem_singleton.mp hq]
        exact ⟨List.mem_singleton_self _, rfl⟩
  | accept ipSrc ipDst seg iss now rnd heq =>
      obtain ⟨⟨c, synack⟩, hr, rfl⟩ := Option.map_eq_some_iff.mp heq
      obtain ⟨rfl, s, hc, -⟩ := acceptWithIssAt_eq hr
      refine .inr (.inr ⟨fun hs => (nomatch hs), fun q hq => ?_⟩)
      rw [List.mem_singleton.mp hq]
      exact ⟨s, hc.decode, by rw [hc.flags]; decide⟩
  | cookie => exact .inr (.inr ⟨fun hs => (nomatch hs), fun q hq => (nomatch hq)⟩)

theorem run_knockingOrAcking {h : Host F} (hf : Fresh h) (calls : List Call) :
    ∃ t, Follows (h.run calls) t ∧ Stream t ∧ KnockingOrAcking t := by
  refine run_preserves (P := fun h => ∃ t, Follows h t ∧ Stream t ∧ KnockingOrAcking t) ?_
    ⟨_, hf.follows, hf.stream, hf.knockingOrAcking⟩ calls
  rintro k x ⟨t, hfol, hst, ht⟩
  exact call_keeps (P := fun t => Stream t ∧ KnockingOrAcking t) hfol ⟨hst.appCall x, ht.appCall x⟩
    fun _ _ hstep ⟨ha, hk⟩ => ⟨hstep.stream ha, hk.step hstep⟩

/-- The reset for a packet sent in SYN_SENT is accepted: the packet is the SYN,
and its reset acknowledges it. -/
theorem knocking_reset_closes {k : Host F} {t : Trace} {p : Bytes} (h : Knocking t) (hf : Follows k t)
    (hp : p ∈ k.emitted) : ∃ seg, decode p = some seg ∧ hasFlag seg.th.flags ACK = false ∧
      ∀ ipSrc ipDst, ∃ rst, decode (buildRst ipSrc ipDst seg.th seg.payload.length) = some rst ∧
        ∀ now rnd, (k.conn.onSegment rst now rnd).1.state = .closed := by
  obtain ⟨seg, hd, hflags, hnil, hseq⟩ := h.syn p (hf.emitted ▸ hp)
  have hno : hasFlag seg.th.flags ACK = false := by
    rw [hflags]
    decide
  refine ⟨seg, hd, hno, fun ipSrc ipDst => ?_⟩
  obtain ⟨rst, hrst, hflag, -, hsyn⟩ := buildRst_reads ipSrc ipDst seg.th seg.payload.length
  refine ⟨rst, hrst, fun now rnd => ?_⟩
  obtain ⟨hra, hrack⟩ := hsyn hno
  have hexact : rst.th.ack = k.conn.send.nxt := by
    rw [hrack, ← hf.nxt, ← hseq, hnil, hflags]
    rfl
  rw [onSegment_rst_closes_iff _ hflag, if_pos (hf.state.symm.trans h.state)]
  exact .inr ⟨hra, hexact⟩

theorem acks_current_iff {c : Host F} {t : Trace} {x : Call} {p : Bytes} (hf : Follows (c.call x) t)
    (hack : Acking t) (hp : p ∈ c.packets x) : ∃ seg, decode p = some seg ∧ hasFlag seg.th.flags ACK = true ∧
      (seg.th.ack = (c.call x).conn.recv.nxt ↔
        ∀ s ∈ c.conn.retx.segments, s.packet = p → Current (c.call x).conn s) := by
  obtain ⟨more, he, hmore, -, -⟩ := call_made c x
  rw [packets_eq he] at hp
  -- the stored copies of a packet all read back as that packet does
  have hcopies : ∀ {seg : Segment}, decode p = some seg → seg.th.ack = (c.call x).conn.recv.nxt →
      ∀ s ∈ c.conn.retx.segments, s.packet = p → Current (c.call x).conn s := by
    intro seg hd heq s _ hsp seg' hd' _
    rw [hsp, hd] at hd'
    rw [← Option.some.inj hd', heq]
  rcases hmore p hp with ⟨⟨s, hs, hsp⟩, s', hs', hsp'⟩ | ⟨hmade, -⟩
  · obtain ⟨seg, hd, hflag⟩ := hack.2 _ (hf.mem_queue hs')
    rw [show s'.queued.packet = p from hsp'] at hd
    exact ⟨seg, hd, hflag, hcopies hd, fun hall => hall s hs.mem hsp seg (hsp ▸ hd) hflag⟩
  · obtain ⟨seg, hd, hn, hsack, -⟩ := hmade.reads
    exact ⟨seg, hd, hn.flags.1, hcopies hd, fun _ => hsack⟩

/-- For every packet of every call the peer's reset closes the connection, unless
the call has led to TIME_WAIT or the packet is a stored copy that acknowledges
less than the connection has received. -/
theorem reset_closes_iff_ack_current {h : Host F} (hf : Fresh h) (calls : List Call) (x : Call) :
    let c := h.run calls
    let k := c.call x
    ∀ p ∈ c.packets x, ∃ seg, decode p = some seg ∧ ∀ ipSrc ipDst, ∃ rst,
      decode (buildRst ipSrc ipDst seg.th seg.payload.length) = some rst ∧ ∀ now rnd,
        ((k.conn.onSegment rst now rnd).1.state = .closed ↔ k.conn.state = .closed ∨
          (k.conn.state ≠ .timeWait ∧ ∀ s ∈ c.conn.retx.segments, s.packet = p → Current k.conn s)) := by
  intro c k p hp
  have hem : p ∈ k.emitted := by
    obtain ⟨more, he, -⟩ := call_made c x
    rw [packets_eq he] at hp
    exact he ▸ List.mem_append_right _ hp
  have hrun : h.run (calls ++ [x]) = k := run_append ..
  obtain ⟨t, hfol, hst, ht⟩ := run_knockingOrAcking hf (calls ++ [x])
  rw [hrun] at hfol
  have hstate : t.state = k.conn.state := hfol.state
  by_cases hclosed : k.conn.state = .closed
  · obtain ⟨seg, hd, -⟩ := hst.emitted p (hfol.emitted ▸ hem)
    refine ⟨seg, hd, fun ipSrc ipDst => ?_⟩
    obtain ⟨rst, hrst, hflag, -⟩ := buildRst_reads ipSrc ipDst seg.th seg.payload.length
    refine ⟨rst, hrst, fun now rnd => ?_⟩
    rw [onSegment_rst_closes_iff _ hflag]
    simp [hclosed]
  rcases ht with hk | hc | hack
  · obtain ⟨seg, hd, hno, hreset⟩ := knocking_reset_closes hk hfol hem
    refine ⟨seg, hd, fun ipSrc ipDst => ?_⟩
    obtain ⟨rst, hrst, hcloses⟩ := hreset ipSrc ipDst
    -- a SYN acknowledges nothing, so its stored copies ask for nothing
    have hcur : ∀ s ∈ c.conn.retx.segments, s.packet = p → Current k.conn s := by
      intro s _ hsp seg' hd' hflag'
      rw [hsp, hd] at hd'
      rw [← Option.some.inj hd', hno] at hflag'
      cases hflag'
    have hopen : k.conn.state ≠ .timeWait := fun hs => nomatch hk.state.symm.trans (hstate.trans hs)
    exact ⟨rst, hrst, fun now rnd => iff_of_true (hcloses now rnd) (.inr ⟨hopen, hcur⟩)⟩
  · exact absurd (hstate.symm.trans hc) hclosed
  · obtain ⟨seg, hd, hflag', hiff⟩ := acks_current_iff hfol hack hp
    refine ⟨seg, hd, fun ipSrc ipDst => ?_⟩
    obtain ⟨rst, hrst, hflag, hseq, -⟩ := buildRst_reads ipSrc ipDst seg.th seg.payload.length
    refine ⟨rst, hrst, fun now rnd => ?_⟩
    have hsent : k.conn.state ≠ .synSent := hstate ▸ hack.1
    rw [onSegment_rst_closes_iff _ hflag, if_neg hsent, hseq hflag', hiff]

/-- What the resets for the packets of a call find and do: the acknowledgement
of the packet, RCV.NXT, and the state afterwards. -/
def resetOutcomes (c : Host Rat) (x : Call) : List (Option (U32 × U32 × State)) :=
  (c.packets x).map (fun p => (decode p).bind (fun seg =>
    (decode (buildRst c.conn.localEnd.1 c.conn.remoteEnd.1 seg.th seg.payload.length)).map (fun rst =>
      (seg.th.ack, (c.call x).conn.recv.nxt, ((c.call x).conn.onSegment rst 9001#64 0#32).1.state))))

def writing : Host Rat := sample.run [.write [7#8]]

/-- The first transmission of the byte can be answered by a reset. -/
theorem first_transmission_reset_closes : (writing.packets (.pollTransmit 1#64)).length = 1 ∧
    ∀ p ∈ writing.packets (.pollTransmit 1#64), ∃ seg, decode p = some seg ∧
      ∀ ipSrc ipDst, ∃ rst, decode (buildRst ipSrc ipDst seg.th seg.payload.length) = some rst ∧ ∀ now rnd,
        ((writing.call (.pollTransmit 1#64)).conn.onSegment rst now rnd).1.state = .closed := by
  have hiff := reset_closes_iff_ack_current sample_fresh [.write [7#8]] (.pollTransmit 1#64)
  rw [show sample.run [.write [7#8]] = writing from rfl] at hiff
  have hopen : (writing.call (.pollTransmit 1#64)).conn.state ≠ .timeWait := by decide +kernel
  have hempty : writing.conn.retx.segments = [] := by decide +kernel
  dsimp only at hiff
  refine ⟨by decide +kernel, ?_⟩
  generalize writing.call (.pollTransmit 1#64) = k at hiff hopen ⊢
  intro p hp
  obtain ⟨seg, hd, hrst⟩ := hiff p hp
  refine ⟨seg, hd, fun ipSrc ipDst => ?_⟩
  obtain ⟨rst, hdec, hclose⟩ := hrst ipSrc ipDst
  refine ⟨rst, hdec, fun now rnd => (hclose now rnd).mpr (.inr ⟨hopen, fun s hs => ?_⟩)⟩
  rw [hempty] at hs
  cases hs

/-- A byte is sent, the peer's byte is received, and the timer sends ours again
with the old acknowledgement: the reset for that copy is ignored. -/
theorem stale_copy_reset_ignored :
    let c := writing.run [.pollTransmit 1#64, .onSegment (samplePeer ACK 501#32 101#32 [9#8]) 2#64 0#32]
    c.conn.state = .established ∧
      resetOutcomes c (.onTick 9000#64) = [some (501#32, 502#32, .established)] := by
  intro c
  exact ⟨by decide +kernel, by decide +kernel⟩

end Host

namespace Connection

/-- The reply of `a` to `ack` is a reset that closes `b`. -/
def ResetsPeer (a b : Connection F) (ack : Segment) (now now' : U64) (rnd rnd' : U32) : Prop :=
  ∃ rst seg, (a.onSegment ack now rnd).2 = some rst ∧ decode rst = some seg ∧ hasFlag seg.th.flags RST = true ∧
    (b.onSegment seg now' rnd').1.state = .closed

theorem onSegment_syn_answer {b b' : Connection F} (hb : b.isSynchronized = true) {syn : Segment}
    (hsyn : hasFlag syn.th.flags SYN = true) (hrst : hasFlag syn.th.flags RST = false) {now : U64} {rnd : U32}
    {ack : Bytes} (h : b.onSegment syn now rnd = (b', some ack)) {seg : Segment} (hd : decode ack = some seg) :
    seg.th.flags = ACK := by
  have hopen : (b.arrive now).state ≠ .synSent := fun hs => by
    have hs' : b.state = .synSent := hs
    simp [isSynchronized, hs'] at hb
  have hsync : (b.arrive now).isSynchronized = true := hb
  have hbare : ∀ (c : Connection F), c.bareAck = ack → seg.th.flags = ACK := by
    rintro c rfl
    obtain ⟨s, hc⟩ := c.segment_carries c.send.nxt c.recv.nxt ACK []
    have hdec : decode c.bareAck = some s := hc.decode
    rw [Option.some.inj (hd.symm.trans hdec)]
    exact hc.flags
  simp only [onSegment, hrst, Bool.false_eq_true, if_false, hopen, hsyn, hsync, Bool.and_true, if_true,
    maybeChallenge] at h
  split_ifs at h <;> first
    | exact hbare _ (Option.some.inj (Prod.mk.inj h).2)
    | exact absurd (Prod.mk.inj h).2 (by simp)

theorem onSegment_synSent_ack {a : Connection F} (ha : a.state = .synSent) {seg : Segment}
    (hflags : seg.th.flags = ACK) (now : U64) (rnd : U32) : a.onSegment seg now rnd = (a.arrive now, none) := by
  have hs : (a.arrive now).state = .synSent := ha
  have hrst : hasFlag ACK RST = false := by decide
  have hboth : ¬ (ACK &&& (SYN ||| ACK) = SYN ||| ACK) := by decide
  simp only [onSegment, hflags, hrst, Bool.false_eq_true, if_false, hs, if_true, onSynSent, hboth, false_and]

/-- The challenge ACK that a restarted peer's SYN draws is ignored in SYN_SENT,
so no reset ever comes of it. -/
theorem half_open_never_resolves {b : Connection F} (hb : b.state = .established) (iss : U32) (made : U64)
    (draw : U32) :
    let a := connectWithIss (F := F) b.remoteEnd b.localEnd iss made draw
    ∀ syn, decode a.2 = some syn → ∀ now rnd b' ack, b.onSegment syn now rnd = (b', some ack) →
      ∀ seg, decode ack = some seg → ∀ now₁ now₂ rnd₁ rnd₂, ¬ ResetsPeer a.1 b' seg now₁ now₂ rnd₁ rnd₂ := by
  intro a syn hd now rnd b' ack hans seg hack now₁ now₂ rnd₁ rnd₂
  obtain ⟨s, hc, -⟩ := connectWithIss_syn (F := F) b.remoteEnd b.localEnd iss made draw
  obtain rfl : s = syn := Option.some.inj (hc.decode.symm.trans hd)
  have hsync : b.isSynchronized = true := by simp [isSynchronized, hb]
  have hflags := onSegment_syn_answer hsync (by rw [hc.flags]; decide) (by rw [hc.flags]; decide) hans hack
  rintro ⟨rst, seg', hrst, -⟩
  rw [onSegment_synSent_ack (a := a.1) rfl hflags] at hrst
  cases hrst

/-- The SYN of a restarted peer of `sample`. -/
def restarted : Connection Rat × Bytes :=
  connectWithIss Host.sample.conn.remoteEnd Host.sample.conn.localEnd 700#32 0#64 0#32

theorem restarted_challenged : ∃ syn ack seg, decode restarted.2 = some syn ∧
    Host.sample.conn.onSegment syn 5#64 0#32 = ((Host.sample.conn.onSegment syn 5#64 0#32).1, some ack) ∧
    decode ack = some seg ∧ seg.th.flags = ACK ∧
      (Host.sample.conn.onSegment syn 5#64 0#32).1.state = .established := by
  have hall : ((decode restarted.2).bind (fun syn => (Host.sample.conn.onSegment syn 5#64 0#32).2.bind (fun ack =>
      (decode ack).map (fun seg => (seg.th.flags, (Host.sample.conn.onSegment syn 5#64 0#32).1.state))))) =
      some (ACK, .established) := by decide +kernel
  obtain ⟨syn, hsyn, hall⟩ := Option.bind_eq_some_iff.mp hall
  obtain ⟨ack, hack, hall⟩ := Option.bind_eq_some_iff.mp hall
  obtain ⟨seg, hseg, hall⟩ := Option.map_eq_some_iff.mp hall
  obtain ⟨hflags, hstate⟩ := Prod.mk.inj hall
  exact ⟨syn, ack, seg, hsyn, by rw [← hack], hseg, hflags, hstate⟩

theorem restarted_never_resolves : ∃ syn ack seg, decode restarted.2 = some syn ∧ decode ack = some seg ∧
    ∀ now₁ now₂ rnd₁ rnd₂,
      ¬ ResetsPeer restarted.1 (Host.sample.conn.onSegment syn 5#64 0#32).1 seg now₁ now₂ rnd₁ rnd₂ := by
  obtain ⟨syn, ack, seg, hsyn, hack, hseg, -⟩ := restarted_challenged
  exact ⟨syn, ack, seg, hsyn, hseg, half_open_never_resolves (b := Host.sample.conn) rfl 700#32 0#64 0#32 syn hsyn
    5#64 0#32 _ ack hack seg hseg⟩

/-- The restarted peer has nothing to say to the challenge ACK, and the old
connection stays established. -/
theorem restarted_peer_stays_silent :
    Host.Fresh Host.sample ∧ Host.sample.conn.state = .established ∧
      Host.sample.conn.recv.nxt ≠ restarted.1.send.nxt ∧ ∃ syn ack seg, decode restarted.2 = some syn ∧
        (Host.sample.conn.onSegment syn 5#64 0#32).2 = some ack ∧ decode ack = some seg ∧
        (Host.sample.conn.onSegment syn 5#64 0#32).1.state = .established ∧
        restarted.1.onSegment seg 6#64 0#32 = (restarted.1.arrive 6#64, none) := by
  obtain ⟨syn, ack, seg, hsyn, hack, hseg, hflags, hstate⟩ := restarted_challenged
  exact ⟨Host.sample_fresh, rfl, by decide, syn, ack, seg, hsyn, congrArg Prod.snd hack, hseg, hstate,
    onSegment_synSent_ack rfl hflags _ _⟩

end Connection
end TcpStack
