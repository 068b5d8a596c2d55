import TcpStack.Tracking

/-!
# The joint invariant

What holds between a sender and its receiver, whatever the network does. One
direction is a relation between the sender's trace and the receiver's; a step
of either side keeps it. Both directions together, with the phase in which the
active opener has not yet heard from the passive one, are the invariant of the
two-endpoint system.
-/
namespace TcpStack
open Tcp TcpStack.Seq TcpStack.Circle

/-- The states in which the peer's FIN was not consumed yet. -/
def State.Early (s : State) : Prop :=
  s = .synRcvd ∨ s = .established ∨ s = .finWait1 ∨ s = .finWait2

namespace Trace

theorem FinSent.early {s next : State} (h : FinSent s next) (hn : next.Early) : s.Early := by
  cases h <;> simp_all [State.Early]

theorem FinAcked.early {s next : State} (h : FinAcked s next) (hn : next.Early) : s.Early := by
  cases h <;> simp_all [State.Early]

theorem FinTaken.early {s next : State} (h : FinTaken s next) : s.Early ∧ ¬ next.Early := by
  cases h <;> simp [State.Early]

theorem FinSent.synced {s next : State} (h : FinSent s next) : next ≠ .synSent := by
  cases h <;> simp

theorem FinAcked.synced {s next : State} (h : FinAcked s next) : next ≠ .synSent := by
  cases h <;> simp

theorem FinTaken.synced {s next : State} (h : FinTaken s next) : next ≠ .synSent := by
  cases h <;> simp

/-- What an endpoint guarantees by itself, below 2³¹ written bytes. -/
structure Own (t : Trace) : Prop where
  stream : Stream t
  outstanding : Outstanding t
  small : t.written.length < 2 ^ 31

theorem Own.sent_lt {t : Trace} (h : Own t) : t.sent.length < 2 ^ 31 := by
  have hl := h.stream.lengths
  have hs := h.small
  omega

theorem Own.near {t : Trace} (h : Own t) : Near t := by
  have hs := h.sent_lt
  unfold Near
  rcases h.outstanding.begun with h1 | hp
  · omega
  · simp only [sent, hp, List.flatten_nil, List.length_nil]
    omega

theorem Own.nxtPos_lt {t : Trace} (h : Own t) : t.nxtPos < 2 ^ 32 := by
  have hle := t.nxtPos_le
  have hs := h.sent_lt
  omega

theorem Step.pieces_eq_or_sending {inp : Option Segment} {t t' : Trace} (h : Step inp t t') :
    t'.pieces = t.pieces ∨ t.state.Sending := by
  cases h with
  | data _ hsend => exact .inr hsend
  | _ => exact .inl rfl

theorem Own.step {inp : Option Segment} {t t' : Trace} (h : Own t) (hstep : Step inp t t') : Own t' := by
  have hs := hstep.stream h.stream
  have hsmall : t'.written.length < 2 ^ 31 := hstep.written ▸ h.small
  have hlen := hs.lengths
  have hup := hstep.unaPos_le
  refine ⟨hs, hstep.outstanding h.stream h.near ?_ h.outstanding, hsmall⟩
  -- data is only sent after the handshake, so SND.UNA is past our SYN
  have hcase : 1 ≤ t.unaPos ∨ t'.sent = [] := by
    rcases h.outstanding.begun with h1 | hp
    · exact .inl h1
    · rcases hstep.pieces_eq_or_sending with heq | hsend
      · right
        rw [sent, heq, hp]
        rfl
      · exact .inl (h.outstanding.sending hsend)
  unfold Near
  rcases hcase with h1 | hnil
  · omega
  · rw [hnil]
    simp only [List.length_nil]
    omega

/-- The position up to which the receiver has consumed the sender's stream. -/
def rcvPos (y : Trace) : Nat := 1 + y.delivered.length + y.peerFin.toNat

/-- One direction: the sender `x`, the receiver `y`. -/
structure Dir (x y : Trace) : Prop where
  synced : y.state ≠ .synSent
  rcv : y.rcvNxt = point x.iss y.rcvPos
  base : y.reasm.base = point x.iss 1
  pre : y.delivered <+: x.sent
  frags : Reassembler.FromStream x.sent y.reasm.frags
  eof : y.peerFin = true → x.closing.isSome = true ∧ y.delivered = x.sent
  pend : ∀ w, y.pendingFin = some w → x.closing.isSome = true ∧ w = point x.iss (1 + x.sent.length)
  early : y.state.Early → y.peerFin = false
  acks : ∀ p ∈ y.emitted, ∀ s, decode p = some s → hasFlag s.th.flags ACK = true →
    ∃ k ≤ y.rcvPos, s.th.ack = point x.iss k
  una : x.unaPos ≤ y.rcvPos
  removed : ∀ q ∈ x.removed, ∃ s e, Spans x.iss q s e ∧ e ≤ y.rcvPos

theorem Dir.rcvPos_le {x y : Trace} (h : Dir x y) : y.rcvPos ≤ x.nxtPos := by
  have hlen := h.pre.length_le
  unfold rcvPos nxtPos
  cases hf : y.peerFin with
  | false =>
      simp only [Bool.toNat_false]
      omega
  | true =>
      have hc := (h.eof hf).1
      simp only [hc, Bool.toNat_true]
      omega

theorem Dir.heard_ack {x y : Trace} {inp : Option Segment} {seg : Segment} (h : Dir x y)
    (hh : Heard y inp) (hi : inp = some seg) (hf : hasFlag seg.th.flags ACK = true) :
    ∃ k ≤ y.rcvPos, seg.th.ack = point x.iss k := by
  obtain ⟨p, hp, hd⟩ := hh seg hi
  exact h.acks p hp seg hd hf

theorem Dir.heard_nxt {x y : Trace} {inp : Option Segment} {seg : Segment} (h : Dir x y) (hx : Own x)
    (hh : Heard y inp) (hi : inp = some seg) (hf : hasFlag seg.th.flags ACK = true)
    (hexact : seg.th.ack = x.nxt) : x.nxtPos ≤ y.rcvPos := by
  obtain ⟨k, hk, hack⟩ := h.heard_ack hh hi hf
  have hle := h.rcvPos_le
  have hlt := hx.nxtPos_lt
  rw [hexact, hx.stream.nxt] at hack
  have heq := point_inj hlt (by omega) hack
  omega

theorem Dir.frame_sender {x x' y : Trace} (h : Dir x y) (hi : x'.iss = x.iss)
    (hp : x.pieces <+: x'.pieces)
    (hc : x.closing.isSome = true → x'.pieces = x.pieces ∧ x'.closing.isSome = true)
    (hu : x'.unaPos ≤ y.rcvPos)
    (hr : ∀ q ∈ x'.removed, ∃ s e, Spans x.iss q s e ∧ e ≤ y.rcvPos) : Dir x' y := by
  have hsent : x.sent <+: x'.sent := by
    obtain ⟨r, hr⟩ := hp
    exact ⟨r.flatten, by rw [sent, sent, ← hr, List.flatten_append]⟩
  refine ⟨h.synced, ?_, ?_, h.pre.trans hsent, h.frags.mono hsent, ?_, ?_, h.early, ?_, hu, ?_⟩
  · rw [hi]
    exact h.rcv
  · rw [hi]
    exact h.base
  · intro hf
    obtain ⟨hcl, hd⟩ := h.eof hf
    obtain ⟨hpe, hcl'⟩ := hc hcl
    exact ⟨hcl', by rw [hd, sent, sent, hpe]⟩
  · intro w hw
    obtain ⟨hcl, heq⟩ := h.pend w hw
    obtain ⟨hpe, hcl'⟩ := hc hcl
    refine ⟨hcl', ?_⟩
    rw [heq, hi, sent, sent, hpe]
  · rw [hi]
    exact h.acks
  · rw [hi]
    exact hr

theorem Dir.removed_all {x y : Trace} (h : Dir x y) (hx : Own x) (hlive : x.state.Live)
    (hle : x.nxtPos ≤ y.rcvPos) (ack : U32) :
    ∀ q ∈ (x.dropAcked ack).removed, ∃ s e, Spans x.iss q s e ∧ e ≤ y.rcvPos := by
  intro q hq
  rcases List.mem_append.mp hq with hq | hq
  · exact h.removed q hq
  · obtain ⟨s, e, hse, -, hev⟩ := (hx.outstanding.live hlive).spans (List.mem_filter.mp hq).1
    exact ⟨s, e, hse, hev.trans hle⟩

theorem Dir.sender {x x' y : Trace} {inp : Option Segment} (h : Dir x y) (hx : Own x) (hh : Heard y inp)
    (hstep : Step inp x x') : Dir x' y := by
  have hx' := hx.step hstep
  have hsame : x.closing.isSome = true → x.pieces = x.pieces ∧ x.closing.isSome = true :=
    fun hc => ⟨rfl, hc⟩
  have hopen : x.state.Sending → x.closing.isSome = true → False := by
    intro hsend hc
    rw [hx.stream.opened hsend.preFin] at hc
    cases hc
  have hle := hx.outstanding.le
  cases hstep with
  | ack | resend | mark | deliver | pendFin | takePending | takeFin | die =>
      exact h.frame_sender rfl List.prefix_rfl hsame h.una h.removed
  | data _ hsend =>
      exact h.frame_sender rfl (List.prefix_append _ _) (fun hc => (hopen hsend hc).elim) h.una h.removed
  | fin _ hfin =>
      exact h.frame_sender rfl List.prefix_rfl (fun hc => (hopen hfin.sending hc).elim) h.una h.removed
  | @ackNew seg hi hf hsend hnew =>
      obtain ⟨k, hk, hack⟩ := h.heard_ack hh hi hf
      have hkle := h.rcvPos_le
      have hlt := hx.nxtPos_lt
      have hnear := hx.near
      rw [Near, ← nxtPos_open (hx.stream.opened hsend.preFin)] at hnear
      rw [hx.outstanding.una, hx.stream.nxt] at hnew
      obtain ⟨a, hua, hav, heq⟩ := between_point hle hnew
      obtain rfl : a = k := point_inj (by omega) (by omega) (heq.symm.trans hack)
      have hdist : (seg.th.ack - x.una).toNat = a - x.unaPos := by
        rw [heq, hx.outstanding.una, point_sub_point _ (Nat.le_of_lt hua), Nat.mod_eq_of_lt (by omega)]
      refine h.frame_sender rfl List.prefix_rfl hsame ?_ ?_
      · change x.unaPos + (seg.th.ack - x.una).toNat ≤ y.rcvPos
        omega
      · intro q hq
        rcases List.mem_append.mp hq with hq | hq
        · exact h.removed q hq
        · obtain ⟨hq, hgone⟩ := List.mem_filter.mp hq
          obtain ⟨s, e, hse, hue, hev⟩ := (hx.outstanding.live hsend.live).spans hq
          refine ⟨s, e, hse, ?_⟩
          rw [heq, hse.endSeq, before_point (by omega) (by omega), Bool.not_eq_true', decide_eq_false_iff_not]
            at hgone
          omega
  | finAcked hi hf hacked hexact =>
      have hall := h.heard_nxt hx hh hi hf hexact
      exact h.frame_sender rfl List.prefix_rfl hsame h.una (h.removed_all hx hacked.live hall _)
  | openActive hi _ hf hwait hexact =>
      have hall := h.heard_nxt hx hh hi hf hexact
      refine h.frame_sender rfl List.prefix_rfl hsame (hx'.outstanding.le.trans hall) ?_
      exact h.removed_all hx (by simp [hwait, State.Live]) hall _
  | openPassive hi hf hwait hexact =>
      have hall := h.heard_nxt hx hh hi hf hexact
      refine h.frame_sender rfl List.prefix_rfl hsame (hx'.outstanding.le.trans hall) ?_
      exact h.removed_all hx (by simp [hwait, State.Live]) hall _

def recvPart (y : Trace) : U32 × Reassembler × Bytes × Bytes × Bool × Option U32 :=
  (y.rcvNxt, y.reasm, y.taken, y.recvBuf, y.peerFin, y.pendingFin)

/-- What the receiver's packets acknowledge: old packets, and new ones that
carry the current RCV.NXT. -/
def Acks (y y' : Trace) : Prop :=
  ∀ p ∈ y'.emitted, p ∈ y.emitted ∨ ∃ s, decode p = some s ∧ s.th.ack = y.rcvNxt

theorem Acks.same {y y' : Trace} (h : y'.emitted = y.emitted) : Acks y y' := fun _ hp => .inl (h ▸ hp)

theorem Acks.snoc {y y' : Trace} {p : Bytes} {s : Segment} (h : y'.emitted = y.emitted ++ [p])
    (hd : decode p = some s) (ha : s.th.ack = y.rcvNxt) : Acks y y' := by
  intro q hq
  rw [h] at hq
  rcases List.mem_append.mp hq with hq | hq
  · exact .inl hq
  · exact .inr ⟨s, List.mem_singleton.mp hq ▸ hd, ha⟩

theorem Dir.frame_receiver {x y y' : Trace} (h : Dir x y) (hst : y'.state ≠ .synSent)
    (hsame : y'.recvPart = y.recvPart) (hearly : y'.state.Early → y.state.Early) (hem : Acks y y') :
    Dir x y' := by
  simp only [recvPart, Prod.mk.injEq] at hsame
  obtain ⟨hr, hre, ht, hb, hp, hpe⟩ := hsame
  have hdel : y'.delivered = y.delivered := by rw [delivered, delivered, ht, hb]
  have hpos : y'.rcvPos = y.rcvPos := by rw [rcvPos, rcvPos, hdel, hp]
  refine ⟨hst, ?_, ?_, ?_, ?_, ?_, ?_, ?_, ?_, ?_, ?_⟩
  · rw [hr, hpos, h.rcv]
  · rw [hre, h.base]
  · rw [hdel]
    exact h.pre
  · rw [hre]
    exact h.frags
  · rw [hp, hdel]
    exact h.eof
  · rw [hpe]
    exact h.pend
  · rw [hp]
    exact fun he => h.early (hearly he)
  · intro p hp' s hd hf
    rw [hpos]
    rcases hem p hp' with hp' | ⟨s', hd', ha⟩
    · exact h.acks p hp' s hd hf
    · obtain rfl : s' = s := Option.some.inj (hd'.symm.trans hd)
      exact ⟨y.rcvPos, le_rfl, ha.trans h.rcv⟩
  · rw [hpos]
    exact h.una
  · rw [hpos]
    exact h.removed

theorem Dir.advance {x y y' : Trace} (h : Dir x y) (hst : y'.state ≠ .synSent)
    (hrcv : y'.rcvNxt = point x.iss y'.rcvPos) (hbase : y'.reasm.base = y.reasm.base)
    (hpre : y'.delivered <+: x.sent) (hfrags : Reassembler.FromStream x.sent y'.reasm.frags)
    (heof : y'.peerFin = true → x.closing.isSome = true ∧ y'.delivered = x.sent)
    (hpend : ∀ w, y'.pendingFin = some w → y.pendingFin = some w)
    (hearly : y'.state.Early → y'.peerFin = false) (hpos : y.rcvPos ≤ y'.rcvPos)
    (hem : y'.emitted = y.emitted) : Dir x y' := by
  refine ⟨hst, hrcv, hbase.trans h.base, hpre, hfrags, heof, fun w hw => h.pend w (hpend w hw), hearly,
    ?_, h.una.trans hpos, ?_⟩
  · intro p hp s hd hf
    obtain ⟨k, hk, hack⟩ := h.acks p (hem ▸ hp) s hd hf
    exact ⟨k, hk.trans hpos, hack⟩
  · intro q hq
    obtain ⟨s, e, hse, he⟩ := h.removed q hq
    exact ⟨s, e, hse, he.trans hpos⟩

theorem Own.heard {x : Trace} {inp : Option Segment} {seg : Segment} (hx : Own x) (hh : Heard x inp)
    (hi : inp = some seg) : Stamped x.iss x.pieces x.closing.isSome seg := by
  obtain ⟨p, hp, hd⟩ := hh seg hi
  obtain ⟨s, hd', hst⟩ := hx.stream.emitted p hp
  obtain rfl : s = seg := Option.some.inj (hd'.symm.trans hd)
  exact hst

theorem Dir.deliver {x y : Trace} {inp : Option Segment} {seg : Segment} (h : Dir x y) (hx : Own x)
    (hh : Heard x inp) (hi : inp = some seg) : Dir x (y.deliver seg) := by
  have hst := hx.heard hh hi
  have hlt := hx.sent_lt
  have hdlen := h.pre.length_le
  have hnothing : y.reasm.recv seg.th.seq seg.payload y.rcvNxt = (y.reasm, []) → Dir x (y.deliver seg) := by
    intro heq
    refine h.frame_receiver h.synced ?_ id (.same rfl)
    simp [recvPart, Trace.deliver, heq]
  by_cases hne : seg.payload = []
  · exact hnothing (by rw [hne]; exact Reassembler.recv_nil _ _ _)
  obtain ⟨off, hseq, hpiece⟩ := hst.data hne
  have hat : PieceAt x.sent off seg.payload := hpiece.pieceAt
  have hend := hat.end_le hne
  have hseq' : seg.th.seq = point y.reasm.base off := by rw [h.base, point_point, hseq]
  have hrcv' : y.rcvNxt = point y.reasm.base (y.delivered.length + y.peerFin.toNat) := by
    rw [h.base, point_point, h.rcv, rcvPos, Nat.add_assoc]
  cases hpf : y.peerFin with
  | true =>
      -- past the FIN every byte of the stream is old
      have hall := (h.eof hpf).2
      refine hnothing ?_
      rw [hseq', hrcv', hpf, hall]
      exact Reassembler.recv_old (by simp only [Bool.toNat_true]; omega) (by omega)
  | false =>
      rw [hpf, Bool.toNat_false, Nat.add_zero] at hrcv'
      obtain ⟨frags', ext, heq, hfrags, hext, hbound⟩ :=
        Reassembler.recv_fromStream (by omega) h.frags hat hdlen
      rw [← hseq', ← hrcv'] at heq
      have hdel : (y.deliver seg).delivered = y.delivered ++ ext := by
        simp only [Trace.delivered, Trace.deliver, heq, List.append_assoc]
      have hpos : (y.deliver seg).rcvPos = y.rcvPos + ext.length := by
        rw [rcvPos, hdel, rcvPos, List.length_append]
        change 1 + _ + y.peerFin.toNat = _
        omega
      refine h.advance h.synced ?_ ?_ ?_ ?_ ?_ (fun w hw => hw) (fun _ => hpf) ?_ rfl
      · rw [hpos, ← point_add, ← h.rcv]
        simp only [Trace.deliver, heq]
      · simp only [Trace.deliver, heq]
      · have hzero : PieceAt x.sent 0 y.delivered := h.pre
        have happ := hzero.append (by simpa using hext)
        rw [hdel]
        exact happ
      · simp only [Trace.deliver, heq]
        exact hfrags
      · intro hf
        rw [show (y.deliver seg).peerFin = y.peerFin from rfl, hpf] at hf
        cases hf
      · omega

theorem Dir.takeFin {x y y' : Trace} (h : Dir x y) (hx : Own x) (hearly : y.state.Early)
    (hdue : y.rcvNxt = point x.iss (1 + x.sent.length)) (hcl : x.closing.isSome = true)
    (hst : y'.state ≠ .synSent) (hne : ¬ y'.state.Early)
    (hy : y'.rcvNxt = y.rcvNxt + 1#32 ∧ y'.peerFin = true ∧ y'.reasm = y.reasm ∧
      y'.delivered = y.delivered ∧ y'.emitted = y.emitted ∧
      ∀ w, y'.pendingFin = some w → y.pendingFin = some w) : Dir x y' := by
  obtain ⟨hr, hpf, hre, hdel, hem, hpe⟩ := hy
  have hnone := h.early hearly
  have hlen := h.pre.length_le
  have hlt := hx.sent_lt
  have hpos : y.rcvPos = 1 + y.delivered.length := by simp [rcvPos, hnone]
  have hpos' : y'.rcvPos = y.rcvPos + 1 := by
    rw [rcvPos, hpf, hdel, hpos]
    rfl
  have heq : 1 + y.delivered.length = 1 + x.sent.length := by
    have hrcv := h.rcv
    rw [hdue, hpos] at hrcv
    exact (point_inj (by omega) (by omega) hrcv).symm
  have hall : y.delivered = x.sent := h.pre.eq_of_length (by omega)
  refine h.advance hst ?_ ?_ ?_ ?_ ?_ hpe (fun he => absurd he hne) (by omega) hem
  · rw [hr, hpos', ← point_add, ← h.rcv]
  · rw [hre]
  · rw [hdel]
    exact h.pre
  · rw [hre]
    exact h.frags
  · exact fun _ => ⟨hcl, hdel.trans hall⟩

theorem Dir.receiver {x y y' : Trace} {inp : Option Segment} (h : Dir x y) (hx : Own x) (hy : Own y)
    (hh : Heard x inp) (hstep : Step inp y y') : Dir x y' := by
  have hsend : y.state.Sending → y.state ≠ .synSent := by
    rintro (hs | hs) <;> simp [hs]
  cases hstep with
  | ack _ hc _ => exact h.frame_receiver h.synced rfl id (.snoc rfl hc.decode hc.ack)
  | resend hq _ =>
      refine h.frame_receiver h.synced rfl id fun p hp => .inl ?_
      rcases List.mem_append.mp hp with hp | hp
      · exact hp
      · rw [List.mem_singleton.mp hp]
        exact hy.stream.queued _ hq
  | data _ hs _ _ _ hc => exact h.frame_receiver (hsend hs) rfl id (.snoc rfl hc.decode hc.ack)
  | fin _ hfin hc => exact h.frame_receiver hfin.synced rfl hfin.early (.snoc rfl hc.decode hc.ack)
  | ackNew | mark => exact h.frame_receiver h.synced rfl id (.same rfl)
  | deliver hi _ => exact h.deliver hx hh hi
  | @pendFin seg hi hf hest hahead =>
      obtain ⟨hcl, hpay, hseq⟩ := (hx.heard hh hi).fin hf
      refine ⟨h.synced, h.rcv, h.base, h.pre, h.frags, h.eof, ?_, h.early, h.acks, h.una, h.removed⟩
      intro w hw
      obtain rfl : finSeq seg = w := Option.some.inj hw
      refine ⟨hcl, ?_⟩
      simp only [finSeq, hpay, hseq, List.length_nil, BitVec.add_zero]
      rfl
  | takePending hest hdue =>
      obtain ⟨hcl, hw⟩ := h.pend _ hdue
      exact h.takeFin hx (.inr (.inl hest)) hw hcl (by simp [Trace.takeFin])
        (by simp [Trace.takeFin, State.Early]) ⟨rfl, rfl, rfl, rfl, rfl, fun w hw => nomatch hw⟩
  | @takeFin seg next hi hf htaken hdue =>
      obtain ⟨hcl, hpay, hseq⟩ := (hx.heard hh hi).fin hf
      refine h.takeFin hx htaken.early.1 ?_ hcl htaken.synced htaken.early.2
        ⟨rfl, rfl, rfl, rfl, rfl, fun w hw => hw⟩
      rw [← hdue]
      simp only [finSeq, hpay, hseq, List.length_nil, BitVec.add_zero]
      rfl
  | finAcked _ _ hacked _ => exact h.frame_receiver hacked.synced rfl hacked.early (.same rfl)
  | openActive _ _ _ hwait _ => exact absurd hwait h.synced
  | openPassive _ _ hwait _ =>
      exact h.frame_receiver (by simp) rfl (fun _ => .inl hwait) (.same rfl)
  | die => exact h.frame_receiver (by simp) rfl (by simp [State.Early]) (.same rfl)

theorem Dir.appCall_receiver {x y : Trace} (h : Dir x y) (c : Call) : Dir x (y.appCall c) := by
  cases c with
  | takeReceived =>
      have hdel : (y.appCall .takeReceived).delivered = y.delivered := by
        simp [Trace.appCall, Trace.delivered]
      have hpos : (y.appCall .takeReceived).rcvPos = y.rcvPos := by
        rw [rcvPos, hdel]
        rfl
      exact h.advance h.synced (by rw [hpos]; exact h.rcv) rfl (by rw [hdel]; exact h.pre) h.frags
        (by rw [hdel]; exact h.eof) (fun w hw => hw) h.early (Nat.le_of_eq hpos.symm) rfl
  | _ => exact h.frame_receiver h.synced rfl id (.same rfl)

theorem Dir.appCall_sender {x y : Trace} (h : Dir x y) (c : Call) : Dir (x.appCall c) y := by
  cases c <;> exact h.frame_sender rfl List.prefix_rfl (fun hc => ⟨rfl, hc⟩) h.una h.removed

end Trace
end TcpStack
