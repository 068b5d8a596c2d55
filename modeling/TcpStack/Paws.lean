import TcpStack.Emission
import TcpStack.EndToEnd

/-!
# Old timestamps are old news

A segment whose timestamp lies before the recorded one is dropped. Between two
endpoints of this stack that loses nothing: the recorded timestamp came with a
segment at or below RCV.NXT, whatever was built before that segment lies below
it in the stream, and a retransmission keeps the timestamp of its first copy.
-/
namespace TcpStack
open Tcp TcpStack.Seq TcpStack.Circle

variable {F : Type} [F64 F]

namespace Connection

theorem deliver_tsRecent (c : Connection F) (seq : U32) (payload : Bytes) :
    (c.deliver seq payload).tsRecent = c.tsRecent := by
  unfold deliver
  dsimp only
  split_ifs <;> rfl

theorem receive_tsRecent (c : Connection F) (th : TcpHeader) (payload : Bytes) :
    (c.receive th payload).1.tsRecent = c.tsRecent := by
  rw [← deliver_tsRecent c th.seq payload]
  unfold receive
  generalize c.deliver th.seq payload = d
  dsimp only
  split_ifs <;> rfl

theorem processAck_tsRecent (c : Connection F) (th : TcpHeader) (payload : Bytes) (opts : TcpOptions)
    (prevWnd newWnd : U32) (now : U64) :
    (c.processAck th payload opts prevWnd newWnd now).1.tsRecent = c.tsRecent := by
  simp only [processAck, onNewAck, onDupAck]
  split_ifs <;> rfl

theorem maybeChallenge_tsRecent (c : Connection F) (now : U64) (rnd : U32) :
    (c.maybeChallenge now rnd).1.tsRecent = c.tsRecent := by
  simp only [maybeChallenge]
  split_ifs <;> rfl

/-- The timestamp recorded after the segment is the one before, or the segment's
own, if it does not start after RCV.NXT. -/
def Records (c : Connection F) (seg : Segment) (recent : U32) : Prop :=
  recent = c.tsRecent ∨
    ((∃ tsecr, seg.opts.timestamps = some (recent, tsecr)) ∧ after seg.th.seq c.recv.nxt = false)

theorem paws_records {c d : Connection F} {seg : Segment} (h : c.paws seg.th seg.opts = some d) :
    c.Records seg d.tsRecent := by
  unfold paws at h
  split at h
  · rename_i tsval tsecr hts hopt
    split_ifs at h with hold hat
    · obtain rfl := Option.some.inj h
      exact .inr ⟨⟨tsecr, hopt⟩, by simpa using hat⟩
    · obtain rfl := Option.some.inj h
      exact .inl rfl
  · obtain rfl := Option.some.inj h
    exact .inl rfl

theorem onOpen_records (c : Connection F) (seg : Segment) (now : U64) (rnd : U32) :
    c.Records seg (c.onOpen seg.th seg.payload seg.opts now rnd).1.tsRecent := by
  unfold onOpen
  cases hp : c.paws seg.th seg.opts with
  | none => exact .inl rfl
  | some d =>
      have hd := paws_records hp
      have hu : (d.updateWindow (d.scaledWindow seg.th)).tsRecent = d.tsRecent := rfl
      dsimp only
      generalize d.updateWindow (d.scaledWindow seg.th) = u at hu ⊢
      have hack := processAck_tsRecent u seg.th seg.payload seg.opts d.send.wnd (d.scaledWindow seg.th) now
      split_ifs
      · rw [maybeChallenge_tsRecent, hu]
        exact hd
      · generalize u.processAck seg.th seg.payload seg.opts d.send.wnd (d.scaledWindow seg.th) now = r at hack
        obtain ⟨v, pkt⟩ := r
        change v.tsRecent = u.tsRecent at hack
        cases pkt with
        | some pkt =>
            change c.Records seg v.tsRecent
            rw [hack, hu]
            exact hd
        | none =>
            change c.Records seg (v.receive seg.th seg.payload).1.tsRecent
            rw [receive_tsRecent, hack, hu]
            exact hd
      · rw [receive_tsRecent, hu]
        exact hd

theorem onState_records (c : Connection F) (seg : Segment) (now : U64) (rnd : U32) :
    c.Records seg (c.onState seg.th seg.payload seg.opts now rnd).1.tsRecent := by
  unfold onState
  split
  · exact onOpen_records ..
  · exact onOpen_records ..
  · unfold onLastAck
    split_ifs <;> exact .inl rfl
  · left
    unfold onFinWait1
    generalize c.ackedOurFin seg.th = acked
    have hdrop : ((if acked = true then c.dropAcked seg.th.ack now else c).deliver seg.th.seq seg.payload).tsRecent =
        c.tsRecent := by
      rw [deliver_tsRecent]
      split_ifs <;> rfl
    dsimp only
    generalize (if acked = true then c.dropAcked seg.th.ack now else c).deliver seg.th.seq seg.payload = d at hdrop ⊢
    rw [← hdrop]
    split_ifs <;> rfl
  · left
    rw [← deliver_tsRecent c seg.th.seq seg.payload]
    unfold onFinWait2
    generalize c.deliver seg.th.seq seg.payload = d
    dsimp only
    split_ifs <;> rfl
  · unfold onClosing
    split_ifs <;> exact .inl rfl
  · exact .inl rfl

theorem onRst_tsRecent (c : Connection F) (th : TcpHeader) (now : U64) (rnd : U32) :
    (c.onRst th now rnd).1.tsRecent = c.tsRecent := by
  unfold onRst
  split_ifs
  · rfl
  · rfl
  · rfl
  · rfl
  · exact maybeChallenge_tsRecent c now rnd
  · rfl

theorem onSegment_records {c : Connection F} (hs : c.state ≠ .synSent) (seg : Segment) (now : U64) (rnd : U32) :
    c.Records seg (c.onSegment seg now rnd).1.tsRecent := by
  unfold onSegment
  dsimp only
  split_ifs with hrst hsent hsyn
  · exact .inl (onRst_tsRecent ..)
  · exact absurd hsent hs
  · exact .inl (maybeChallenge_tsRecent ..)
  · unfold onSynRcvd
    split_ifs
    · exact onState_records _ seg now rnd
    · exact .inl rfl
    · exact onState_records (c.arrive now) seg now rnd

theorem onSegment_enables {c : Connection F} (hs : c.state = .synSent) (hoff : c.tsEnabled = false) {seg : Segment}
    {now : U64} {rnd : U32} (hon : (c.onSegment seg now rnd).1.tsEnabled = true) :
    hasFlag seg.th.flags SYN = true ∧
      ∃ tsecr, seg.opts.timestamps = some ((c.onSegment seg now rnd).1.tsRecent, tsecr) := by
  rcases onSegment_synSent hs seg now rnd with ⟨hterms, -⟩ | ⟨hsyn, -, -, hest, -⟩
  · have hsame : (c.onSegment seg now rnd).1.tsEnabled = c.tsEnabled := congrArg (fun terms => terms.2.2.2.1) hterms
    rw [hsame, hoff] at hon
    cases hon
  · refine ⟨hsyn, ?_⟩
    have hstate : (c.arrive now).state = .synSent := hs
    unfold onSegment at hon hest ⊢
    dsimp only at hon hest ⊢
    split_ifs at hon hest ⊢ with hrst
    · rw [onRst, if_pos hstate] at hest
      split_ifs at hest
      rw [hstate] at hest
      cases hest
    · unfold onSynSent at hon ⊢
      split_ifs at hon ⊢
      · dsimp only at hon ⊢
        rw [show (c.arrive now).tsEnabled = false from hoff, Bool.or_false] at hon
        obtain ⟨⟨tsval, tsecr⟩, hts⟩ := Option.isSome_iff_exists.mp hon
        refine ⟨tsecr, ?_⟩
        rw [hts]
        rfl
      · rw [show (c.arrive now).tsEnabled = false from hoff] at hon
        cases hon

end Connection

namespace Trace

theorem Step.rcvPos_le {inp : Option Segment} {t t' : Trace} (h : Step inp t t') : t.rcvPos ≤ t'.rcvPos := by
  have hfin : ∀ next, t.rcvPos ≤ (t.takeFin next).rcvPos := by
    intro next
    unfold rcvPos
    cases t.peerFin <;> simp [Trace.takeFin, Trace.delivered]
  cases h with
  | takePending => exact hfin .closeWait
  | takeFin => exact hfin _
  | deliver =>
      simp only [rcvPos, Trace.deliver, Trace.delivered, List.length_append]
      omega
  | _ => exact le_rfl

theorem Steps.rcvPos_le {inp : Option Segment} {t t' : Trace} (h : Steps inp t t') : t.rcvPos ≤ t'.rcvPos :=
  h.relates (R := fun a b => a.rcvPos ≤ b.rcvPos) (fun _ => le_rfl) (fun _ _ _ => le_trans)
    fun _ _ => Step.rcvPos_le

theorem appCall_positions (t : Trace) (x : Call) :
    (t.appCall x).iss = t.iss ∧ (t.appCall x).unaPos = t.unaPos ∧ (t.appCall x).rcvPos = t.rcvPos := by
  cases x with
  | takeReceived => exact ⟨rfl, rfl, by simp [rcvPos, Trace.appCall, Trace.delivered]⟩
  | _ => exact ⟨rfl, rfl, rfl⟩

/-- The sequence numbers a segment occupies with data and FIN. -/
def size (s : Segment) : Nat := s.payload.length + (hasFlag s.th.flags FIN).toNat

theorem Own.placed {t : Trace} (h : Own t) {p : Bytes} (hp : p ∈ t.emitted) {s : Segment} (hd : decode p = some s)
    (hpos : 0 < size s) : ∃ k, 1 ≤ k ∧ s.th.seq = point t.iss k ∧ k + size s ≤ t.nxtPos := by
  obtain ⟨s', hd', hst⟩ := h.stream.emitted p hp
  obtain rfl : s' = s := Option.some.inj (hd'.symm.trans hd)
  cases hf : hasFlag s'.th.flags FIN with
  | true =>
      obtain ⟨hcl, hnil, hseq⟩ := hst.fin hf
      refine ⟨_, Nat.le_add_right 1 _, hseq, ?_⟩
      simp [size, hf, hnil, nxtPos, hcl, sent]
  | false =>
      have hne : s'.payload ≠ [] := by
        intro hnil
        simp [size, hf, hnil] at hpos
      obtain ⟨off, hseq, hpiece⟩ := hst.data hne
      have hend := hpiece.pieceAt.end_le hne
      refine ⟨_, Nat.le_add_right 1 _, hseq, ?_⟩
      simp only [size, hf, Bool.toNat_false, nxtPos, sent]
      omega

end Trace

namespace System
open Trace Host Connection

/-- What one end has sent, by its clock, which showed `start` at first and shows
`last` now: timestamps lie between the two, and a segment that was built before
another lies below it in the stream, or is acknowledged. -/
structure Ordered (start last : U64) (x : Host F) : Prop where
  started : start ≤ last
  within : last.toNat < start.toNat + 2 ^ 31
  stamps : ∀ p ∈ x.emitted, ∀ s, decode p = some s → ∀ v r, s.opts.timestamps = some (v, r) →
    (v - start.setWidth 32).toNat ≤ last.toNat - start.toNat
  near : ∀ p ∈ x.emitted, ∀ s, decode p = some s → dist x s.th.seq ≤ 2 ^ 31 + 1
  order : ∀ p ∈ x.emitted, ∀ q ∈ x.emitted, ∀ s r, decode p = some s → decode q = some r →
    ∀ v e v' e', s.opts.timestamps = some (v, e) → r.opts.timestamps = some (v', e') → before v v' = true →
      0 < size s → dist x s.th.seq + size s ≤ dist x r.th.seq ∨ dist x s.th.seq + size s ≤ dist x x.conn.send.una

theorem stamp_point {start now : U64} (hle : start ≤ now) :
    now.setWidth 32 = point (start.setWidth 32) (now.toNat - start.toNat) := by
  rw [BitVec.le_def] at hle
  apply BitVec.eq_of_toNat_eq
  simp only [point, BitVec.toNat_add, BitVec.toNat_setWidth, BitVec.toNat_ofNat]
  omega

theorem Ordered.stamps_not_after {start last now : U64} {x : Host F} (h : Ordered start last x) (hle : last ≤ now)
    (hnow : now.toNat < start.toNat + 2 ^ 31) {v : U32}
    (hv : (v - start.setWidth 32).toNat ≤ now.toNat - start.toNat) : before (now.setWidth 32) v = false := by
  have hstart : start ≤ now := BitVec.le_trans h.started hle
  rw [stamp_point hstart, ← point_distance (start.setWidth 32) v, before_point (by omega) (by omega),
    decide_eq_false_iff_not]
  omega

theorem numbered_dist {x : Host F} {t : Trace} (hf : Follows x t) (ho : Own t) {seq : U32}
    {flags : U8} {payload : Bytes} (hn : Numbered x.conn seq flags payload) :
    dist x seq ≤ 2 ^ 31 + 1 ∧
      (t.nxtPos ≤ dist x seq ∨ t.nxtPos = t.unaPos) := by
  have hnxt : x.conn.send.nxt = point t.iss t.nxtPos := hf.nxt.symm.trans ho.stream.nxt
  have hle := t.nxtPos_le
  have hsent := ho.sent_lt
  have hlt := ho.nxtPos_lt
  cases hn with
  | @data n flags payload _ room =>
      have hlen : t.sent.length + x.conn.sendBuf.length = t.written.length := by
        rw [ho.stream.written, List.length_append]
        exact congrArg (t.sent.length + ·) (congrArg List.length hf.sendBuf).symm
      have hsmall := ho.small
      have hseq : x.conn.send.nxt + BitVec.ofNat 32 n = point t.iss (t.nxtPos + n) := by
        rw [hnxt]
        exact point_add ..
      rw [dist_point hf hseq (by omega)]
      omega
  | fin | ack =>
      rw [dist_point hf hnxt hlt]
      omega
  | keepalive quiet =>
      have hone : 1 ≤ t.nxtPos := by
        unfold nxtPos
        omega
      have hseq : x.conn.send.nxt - 1#32 = point t.iss (t.nxtPos - 1) := by
        obtain ⟨m, hm⟩ : ∃ m, t.nxtPos = m + 1 := ⟨t.nxtPos - 1, by omega⟩
        rw [hnxt, hm, ← point_add, Nat.add_sub_cancel]
        exact BitVec.add_sub_cancel ..
      rw [dist_point hf hseq (by omega)]
      refine ⟨by omega, .inr ?_⟩
      have huna : x.conn.send.una = point t.iss t.unaPos :=
        hf.una.symm.trans ho.outstanding.una
      have hunale := ho.outstanding.le
      have heq : point t.iss t.nxtPos = point t.iss t.unaPos := by
        rw [← hnxt, ← huna]
        rw [flightSize] at quiet
        bv_omega
      exact point_inj hlt (by omega) heq

/-- What happens to the positions of a host in one call. -/
structure Carried (x x' : Host F) (t t' : Trace) : Prop where
  follows : Follows x t
  follows' : Follows x' t'
  own : Own t
  own' : Own t'
  iss : t'.iss = t.iss
  una : t.unaPos ≤ t'.unaPos
  rcv : t.rcvPos ≤ t'.rcvPos

theorem Carried.dist {x x' : Host F} {t t' : Trace} (h : Carried x x' t t') : dist x' = dist x := by
  funext seq
  have hiss : x'.conn.send.iss = x.conn.send.iss := by
    rw [← h.follows'.iss, ← h.follows.iss, h.iss]
  rw [System.dist, System.dist, hiss]

theorem Carried.una_le {x x' : Host F} {t t' : Trace} (h : Carried x x' t t') :
    System.dist x x.conn.send.una ≤ System.dist x x'.conn.send.una := by
  rw [dist_una h.follows h.own, ← h.dist, dist_una h.follows' h.own']
  exact h.una

/-- A packet of the log after a call was sent before, or it is new and bears the clock. -/
theorem Carried.emitted {x : Host F} {t t' : Trace} {c : Call} (hc : Carried x (x.call c) t t') {now : U64}
    (htime : c.time = some now) {p : Bytes} (hp : p ∈ (x.call c).emitted) : p ∈ x.emitted ∨
      ∃ s, decode p = some s ∧ Numbered x.conn s.th.seq s.th.flags s.payload ∧
        ∀ v r, s.opts.timestamps = some (v, r) → v = now.setWidth 32 := by
  obtain ⟨more, he, hmore, -, -⟩ := call_made x c
  rw [he] at hp
  rcases List.mem_append.mp hp with hp | hp
  · exact .inl hp
  rcases hmore p hp with ⟨hres, -⟩ | ⟨hmade, now', htime', hval⟩
  · exact .inl (queued_emitted hc.follows hc.own.stream (resentPackets_stored hres))
  · obtain rfl : now' = now := Option.some.inj (htime'.symm.trans htime)
    obtain ⟨s, hd, hn, -, hstamp⟩ := hmade.reads
    refine .inr ⟨s, hd, hn, fun v r hts => ?_⟩
    rw [hstamp, stamp] at hts
    split_ifs at hts
    rw [← hval]
    exact (congrArg Prod.fst (Option.some.inj hts)).symm

theorem Ordered.call {start last : U64} {x : Host F} {t t' : Trace} {c : Call} (h : Ordered start last x)
    (hc : Carried x (x.call c) t t') {now : U64} (htime : c.time = some now) (hle : last ≤ now)
    (hnow : now.toNat < start.toNat + 2 ^ 31) : Ordered start now (x.call c) := by
  have hstart : start ≤ now := BitVec.le_trans h.started hle
  have hlast : last.toNat - start.toNat ≤ now.toNat - start.toNat := by
    rw [BitVec.le_def] at hle
    omega
  have hdist := hc.dist
  have hunale := hc.una_le
  have hstamps : ∀ p ∈ (x.call c).emitted, ∀ s, decode p = some s → ∀ v r, s.opts.timestamps = some (v, r) →
      (v - start.setWidth 32).toNat ≤ now.toNat - start.toNat := by
    intro p hp s hd v r hts
    rcases hc.emitted htime hp with hold | ⟨s', hd', -, hv⟩
    · exact (h.stamps p hold s hd v r hts).trans hlast
    · obtain rfl : s' = s := Option.some.inj (hd'.symm.trans hd)
      rw [hv v r hts, stamp_point hstart, point_sub_base]
      exact Nat.mod_le _ _
  refine ⟨hstart, hnow, hstamps, ?_, ?_⟩
  · intro p hp s hd
    rw [hdist]
    rcases hc.emitted htime hp with hold | ⟨s', hd', hn, -⟩
    · exact h.near p hold s hd
    · obtain rfl : s' = s := Option.some.inj (hd'.symm.trans hd)
      exact (numbered_dist hc.follows hc.own hn).1
  · intro p hp q hq s r hd hd' v e v' e' hts hts' hb hpos
    rw [hdist]
    rcases hc.emitted htime hp with hold | ⟨s', hds, -, hv⟩
    swap
    · -- nothing is later than what bears the clock
      obtain rfl : s' = s := Option.some.inj (hds.symm.trans hd)
      rw [hv v e hts, h.stamps_not_after hle hnow (hstamps q hq r hd' v' e' hts')] at hb
      cases hb
    rcases hc.emitted htime hq with hold' | ⟨r', hdr, hn, -⟩
    · rcases h.order p hold q hold' s r hd hd' v e v' e' hts hts' hb hpos with hbelow | hacked
      · exact .inl hbelow
      · exact .inr (hacked.trans hunale)
    · obtain rfl : r' = r := Option.some.inj (hdr.symm.trans hd')
      obtain ⟨k, -, hseq, hend⟩ := hc.own.placed (hc.follows.emitted.symm ▸ hold) hd hpos
      have hlt := hc.own.nxtPos_lt
      rw [dist_point hc.follows hseq (by omega)]
      rcases (numbered_dist hc.follows hc.own hn).2 with habove | hquiet
      · exact .inl (hend.trans habove)
      · right
        refine hend.trans (le_trans ?_ hunale)
        rw [hquiet, dist_una hc.follows hc.own]

theorem Ordered.wait {start last now : U64} {x : Host F} (h : Ordered start last x) (hle : last ≤ now)
    (hnow : now.toNat < start.toNat + 2 ^ 31) : Ordered start now x where
  started := BitVec.le_trans h.started hle
  within := hnow
  stamps := by
    intro p hp s hd v r hts
    have hold := h.stamps p hp s hd v r hts
    rw [BitVec.le_def] at hle
    omega
  near := h.near
  order := h.order

def Reads (start last : U64) (reading : Option U64) : Prop :=
  ∀ now, reading = some now → last ≤ now ∧ now.toNat < start.toNat + 2 ^ 31

theorem Ordered.next {start last : U64} {x : Host F} {t t' : Trace} {c : Call} (h : Ordered start last x)
    (hc : Carried x (x.call c) t t') (hr : Reads start last c.time) :
    Ordered start (c.time.getD last) (x.call c) := by
  cases htime : c.time with
  | some now => exact h.call hc htime (hr now htime).1 (hr now htime).2
  | none =>
      have hsame : (x.call c).emitted = x.emitted ∧ (x.call c).conn.send = x.conn.send := by
        cases c with
        | write | takeReceived | setNodelay | setKeepalive | useBbr => exact ⟨rfl, rfl⟩
        | pollTransmit | onTick | close | onSegment => cases htime
      refine ⟨h.started, h.within, ?_, ?_, ?_⟩
      · rw [hsame.1]
        exact h.stamps
      · rw [hsame.1, hc.dist]
        exact h.near
      · rw [hsame.1, hsame.2, hc.dist]
        exact h.order

/-- The recorded timestamp came with a packet of the sender at or below RCV.NXT. -/
def Recent (x y : Host F) : Prop :=
  y.conn.tsEnabled = true → ∃ q ∈ x.emitted, ∃ s r, decode q = some s ∧
    s.opts.timestamps = some (y.conn.tsRecent, r) ∧ dist x s.th.seq ≤ dist x y.conn.recv.nxt

theorem Recent.sender {x x' y : Host F} {t t' : Trace} (h : Recent x y) (hc : Carried x x' t t')
    (he : x.emitted <+: x'.emitted) : Recent x' y := by
  intro hon
  obtain ⟨q, hq, s, r, hd, hts, hle⟩ := h hon
  refine ⟨q, he.subset hq, s, r, hd, hts, ?_⟩
  rw [hc.dist]
  exact hle

/-- What the timestamps take from the receive side. -/
def intake (c : Connection F) : Bool × U32 × RecvSequence := (c.tsEnabled, c.tsRecent, c.recv)

theorem keptOrClosed_intake {c c' : Connection F} (h : KeptOrClosed c c') : intake c' = intake c := by
  have hstill : ∀ d : Connection F, intake d.still = intake d := fun _ => rfl
  rw [← hstill c']
  rcases h with h | h <;> rw [h] <;> rfl

theorem call_local_intake (y : Host F) {c : Call} (hl : c.isLocal = true) :
    intake (y.call c).conn = intake y.conn := by
  cases c with
  | write | takeReceived | setNodelay | setKeepalive | useBbr => rfl
  | pollTransmit now => exact keptOrClosed_intake (.inl (y.conn.pollTransmit_still now))
  | onTick now =>
      have ht := keptOrClosed_intake (y.conn.onTick_kept now)
      simp only [Host.call]
      generalize y.conn.onTick now = r at ht
      exact ht
  | close now =>
      have ht : intake (y.conn.close now).1 = intake y.conn := by
        unfold Connection.close
        split <;> rfl
      simp only [Host.call]
      split <;> rename_i heq <;> rw [heq] at ht <;> exact ht
  | onSegment => cases hl

theorem Recent.local {x y : Host F} (h : Recent x y) {c : Call} (hl : c.isLocal = true) : Recent x (y.call c) := by
  have hsame := call_local_intake y hl
  simp only [intake, Prod.mk.injEq] at hsame
  unfold Recent
  rw [hsame.1, hsame.2.1, hsame.2.2]
  exact h

theorem Recent.hear {start last : U64} {x y : Host F} {tx ty ty' : Trace} {p : Bytes} {seg : Segment} {now : U64}
    {rnd : U32} (h : Recent x y) (hfx : Follows x tx) (hox : Own tx) (hx : Ordered start last x) (hdir : Dir tx ty)
    (hdir' : Dir tx ty') (hc : Carried y (y.call (.onSegment seg now rnd)) ty ty') (hp : p ∈ x.emitted)
    (hd : decode p = some seg) : Recent x (y.call (.onSegment seg now rnd)) := by
  have hlt := hox.nxtPos_lt
  have hpos := hdir.rcvPos_le
  have hpos' := hdir'.rcvPos_le
  have hrcv : y.conn.recv.nxt = point tx.iss ty.rcvPos := hc.follows.rcvNxt.symm.trans hdir.rcv
  have hrcv' : (y.call (.onSegment seg now rnd)).conn.recv.nxt = point tx.iss ty'.rcvPos :=
    hc.follows'.rcvNxt.symm.trans hdir'.rcv
  have hst : y.conn.state ≠ .synSent := by
    rw [← hc.follows.state]
    exact hdir.synced
  have hon : (y.call (.onSegment seg now rnd)).conn.tsEnabled = y.conn.tsEnabled :=
    congrArg (fun terms => terms.2.2.2.1) (call_terms (.inl hst))
  have hmono : dist x y.conn.recv.nxt ≤ dist x (y.call (.onSegment seg now rnd)).conn.recv.nxt := by
    rw [dist_point hfx hrcv (by omega), dist_point hfx hrcv' (by omega)]
    exact hc.rcv
  intro hen
  rcases onSegment_records hst seg now rnd with hsame | ⟨⟨tsecr, hts⟩, hat⟩
  · obtain ⟨q, hq, s, r, hdq, htsq, hle⟩ := h (hon ▸ hen)
    refine ⟨q, hq, s, r, hdq, ?_, hle.trans hmono⟩
    rw [htsq, ← hsame]
    rfl
  · refine ⟨p, hp, seg, tsecr, hd, hts, le_trans ?_ hmono⟩
    have hnear := hx.near p hp seg hd
    have hseq : seg.th.seq = point tx.iss (dist x seg.th.seq) := by
      rw [hfx.iss, dist, point_distance]
    rw [dist_point hfx hrcv (by omega)]
    have hone : 1 ≤ ty.rcvPos := by
      unfold rcvPos
      omega
    by_contra hlater
    rw [hseq, hrcv, after_point (by omega) (by omega), decide_eq_false_iff_not] at hat
    omega

/-- A SYN-ACK arrives at an active opener that has recorded nothing yet. -/
theorem Recent.opened {x a : Host F} {tx : Trace} {p : Bytes} {seg : Segment} {now : U64} {rnd : U32}
    (hfx : Follows x tx) (hox : Own tx) (hs : a.conn.state = .synSent) (hoff : a.conn.tsEnabled = false)
    (hp : p ∈ x.emitted) (hd : decode p = some seg) : Recent x (a.call (.onSegment seg now rnd)) := by
  intro hon
  obtain ⟨hsyn, tsecr, hts⟩ := onSegment_enables hs hoff hon
  obtain ⟨s, hd', hst⟩ := hox.stream.emitted p (hfx.emitted ▸ hp)
  obtain rfl : s = seg := Option.some.inj (hd'.symm.trans hd)
  refine ⟨p, hp, s, tsecr, hd, hts, ?_⟩
  rw [(hst.syn hsyn).2, dist_point hfx (n := 0) (point_zero _).symm (by omega)]
  exact Nat.zero_le _

/-- The two ends of a system by their clocks. -/
structure Timed (startA lastA startB lastB : U64) (a b : Host F) (ta tb : Trace) : Prop where
  followsA : Follows a ta
  followsB : Follows b tb
  joint : Joint ta tb
  orderedA : Ordered startA lastA a
  orderedB : Ordered startB lastB b
  recentB : Recent a b
  recentA : Recent b a
  unheard : a.conn.state = .synSent → a.conn.tsEnabled = false

def Clocked (startA lastA startB lastB : U64) (s : System F) : Prop :=
  ∃ ta, match s.b with
    | none => Follows s.a ta ∧ Own ta ∧ Virgin ta ∧ Ordered startA lastA s.a ∧ s.a.conn.tsEnabled = false ∧
        startB ≤ lastB ∧ lastB.toNat < startB.toNat + 2 ^ 31
    | some b => ∃ tb, Timed startA lastA startB lastB s.a b ta tb

theorem call_emitted (x : Host F) (c : Call) : x.emitted <+: (x.call c).emitted := by
  obtain ⟨more, he, -⟩ := call_made x c
  exact ⟨more, he.symm⟩

theorem carried_of_steps {x : Host F} {t t' : Trace} {c : Call} (hf : Follows x t) (hf' : Follows (x.call c) t')
    (ho : Own t) (ho' : Own t') (hsteps : Steps (input c) (t.appCall c) t') : Carried x (x.call c) t t' := by
  obtain ⟨hiss, huna, hrcv⟩ := appCall_positions t c
  exact ⟨hf, hf', ho, ho', hsteps.iss.trans hiss, huna ▸ hsteps.unaPos_le, hrcv ▸ hsteps.rcvPos_le⟩

variable {startA lastA startB lastB : U64} {a b : Host F} {ta tb : Trace}

theorem call_unheard {c : Call} (h : a.conn.state = .synSent → a.conn.tsEnabled = false)
    (hs : (a.call c).conn.state = .synSent) : (a.call c).conn.tsEnabled = false := by
  have hbefore := call_synSent hs
  have hterms : (a.call c).conn.terms = a.conn.terms := by
    cases c with
    | onSegment seg now rnd =>
        rcases onSegment_synSent hbefore seg now rnd with ⟨hterms, -⟩ | ⟨-, -, -, hest, -⟩
        · exact hterms
        · cases hs.symm.trans hest
    | _ => exact call_terms (.inr rfl)
  exact (congrArg (fun terms => terms.2.2.2.1) hterms).trans (h hbefore)

theorem Timed.callA (h : Timed startA lastA startB lastB a b ta tb) {c : Call} (hheard : Heard tb (input c))
    (hr : Reads startA lastA c.time) (hsmall : (a.call c).written.length < 2 ^ 31) :
    ∃ ta', Timed startA (c.time.getD lastA) startB lastB (a.call c) b ta' tb := by
  obtain ⟨ta', hsteps, hfa'⟩ := call_refines h.followsA c
  have hsmall' := appCall_small hsteps hfa' hsmall
  have hj' : Joint ta' tb := hsteps.preserves (P := fun t => Joint t tb) (fun _ _ hstep hj => hj.stepA hheard hstep)
    (h.joint.appCallA c hsmall')
  have hc := carried_of_steps h.followsA hfa' h.joint.ownA hj'.ownA hsteps
  have hstate : ta.state = a.conn.state := h.followsA.state
  refine ⟨ta', hfa', h.followsB, hj', h.orderedA.next hc hr, h.orderedB, h.recentB.sender hc (call_emitted a c), ?_,
    call_unheard h.unheard⟩
  cases hl : c.isLocal with
  | true => exact h.recentA.local hl
  | false =>
      cases c with
      | onSegment seg now rnd =>
          obtain ⟨p, hp, hd⟩ := hheard seg rfl
          have hsent : p ∈ b.emitted := h.followsB.emitted ▸ hp
          rcases h.joint.back with ⟨hv, -⟩ | hdir
          · have hs : a.conn.state = .synSent := hstate ▸ hv.state
            exact .opened h.followsB h.joint.ownB hs (h.unheard hs) hsent hd
          · have hdir' : Own ta' ∧ Dir tb ta' := hsteps.preserves (P := fun t => Own t ∧ Dir tb t)
              (fun _ _ hstep hboth => ⟨hboth.1.step hstep, hboth.2.receiver h.joint.ownB hboth.1 hheard hstep⟩)
              ⟨h.joint.ownA.appCall _ hsmall', hdir.appCall_receiver _⟩
            exact h.recentA.hear h.followsB h.joint.ownB h.orderedB hdir hdir'.2 hc hsent hd
      | _ => cases hl

theorem Timed.callB (h : Timed startA lastA startB lastB a b ta tb) {c : Call} (hheard : Heard ta (input c))
    (hr : Reads startB lastB c.time) (hsmall : (b.call c).written.length < 2 ^ 31) :
    ∃ tb', Timed startA lastA startB (c.time.getD lastB) a (b.call c) ta tb' := by
  obtain ⟨tb', hsteps, hfb'⟩ := call_refines h.followsB c
  have hsmall' := appCall_small hsteps hfb' hsmall
  have hj' : Joint ta tb' := hsteps.preserves (P := fun t => Joint ta t) (fun _ _ hstep hj => hj.stepB hheard hstep)
    (h.joint.appCallB c hsmall')
  have hc := carried_of_steps h.followsB hfb' h.joint.ownB hj'.ownB hsteps
  refine ⟨tb', h.followsA, hfb', hj', h.orderedA, h.orderedB.next hc hr, ?_, h.recentA.sender hc (call_emitted b c),
    h.unheard⟩
  cases hl : c.isLocal with
  | true => exact h.recentB.local hl
  | false =>
      cases c with
      | onSegment seg now rnd =>
          obtain ⟨p, hp, hd⟩ := hheard seg rfl
          exact h.recentB.hear h.followsA h.joint.ownA h.orderedA h.joint.forth hj'.forth hc
            (h.followsA.emitted ▸ hp) hd
      | _ => cases hl

theorem ordered_single {start now : U64} {x : Host F} {p : Bytes} {s : Segment} (he : x.emitted = [p])
    (hd : decode p = some s) (hseq : s.th.seq = x.conn.send.iss)
    (hts : ∀ v r, s.opts.timestamps = some (v, r) → v = now.setWidth 32) (hle : start ≤ now)
    (hnow : now.toNat < start.toNat + 2 ^ 31) : Ordered start now x := by
  have honly : ∀ {q : Bytes} {r : Segment}, q ∈ x.emitted → decode q = some r → r = s := by
    intro q r hq hdq
    rw [he] at hq
    rw [List.mem_singleton.mp hq] at hdq
    exact Option.some.inj (hdq.symm.trans hd)
  refine ⟨hle, hnow, ?_, ?_, ?_⟩
  · intro q hq r hdq v e htr
    rw [honly hq hdq] at htr
    rw [hts v e htr, stamp_point hle, point_sub_base]
    exact Nat.mod_le _ _
  · intro q hq r hdq
    rw [honly hq hdq, hseq, dist, BitVec.sub_self]
    exact Nat.zero_le _
  · intro q hq q' hq' r r' hdq hdq' v e v' e' htr htr' hb
    rw [honly hq hdq] at htr
    rw [honly hq' hdq'] at htr'
    rw [hts v e htr, hts v' e' htr', before_self] at hb
    cases hb

theorem Clocked.wait {s : System F} (h : Clocked startA lastA startB lastB s) {readA readB : Option U64}
    (hA : Reads startA lastA readA) (hB : Reads startB lastB readB) :
    Clocked startA (readA.getD lastA) startB (readB.getD lastB) s := by
  have hwait : ∀ {start last : U64} {x : Host F} {read : Option U64}, Ordered start last x → Reads start last read →
      Ordered start (read.getD last) x := by
    intro start last x read ho hr
    cases read with
    | none => exact ho
    | some now => exact ho.wait (hr now rfl).1 (hr now rfl).2
  obtain ⟨ta, hrest⟩ := h
  refine ⟨ta, ?_⟩
  cases hb : s.b with
  | none =>
      simp only [hb] at hrest ⊢
      obtain ⟨hf, ho, hv, hord, hoff, hle, hlt⟩ := hrest
      refine ⟨hf, ho, hv, hwait hord hA, hoff, ?_⟩
      cases readB with
      | none => exact ⟨hle, hlt⟩
      | some now => exact ⟨BitVec.le_trans hle (hB now rfl).1, (hB now rfl).2⟩
  | some b =>
      simp only [hb] at hrest ⊢
      obtain ⟨tb, ht⟩ := hrest
      exact ⟨tb, ht.followsA, ht.followsB, ht.joint, hwait ht.orderedA hA, hwait ht.orderedB hB,
        ht.recentB, ht.recentA,
        ht.unheard⟩

theorem Clocked.joined {s : System F} (h : Clocked startA lastA startB lastB s) {b : Host F} (hb : s.b = some b) :
    ∃ ta tb, Timed startA lastA startB lastB s.a b ta tb := by
  obtain ⟨ta, hrest⟩ := h
  simp only [hb] at hrest
  exact ⟨ta, hrest⟩

theorem Clocked.alone {s : System F} (h : Clocked startA lastA startB lastB s) (hb : s.b = none) {c : Call}
    (hl : c.isLocal = true) (hr : Reads startA lastA c.time) (hsmall : (s.a.call c).written.length < 2 ^ 31) :
    Clocked startA (c.time.getD lastA) startB lastB { s with a := s.a.call c } := by
  obtain ⟨ta, hrest⟩ := h
  simp only [hb] at hrest
  obtain ⟨hf, ho, hv, hord, hoff, hclock⟩ := hrest
  obtain ⟨ta', hsteps, hf'⟩ := call_refines hf c
  have hsmall' := appCall_small hsteps hf' hsmall
  rw [input_local hl] at hsteps
  have hboth : Own ta' ∧ Virgin ta' := hsteps.preserves
      (fun _ _ hstep hboth => handshake_kept (F := F).stepI hboth hstep)
    (handshake_kept (F := F).appI c ⟨ho, hv⟩ hsmall')
  have hc := carried_of_steps hf hf' ho hboth.1 ((input_local hl).symm ▸ hsteps)
  refine ⟨ta', ?_⟩
  simp only [hb]
  refine ⟨hf', hboth.1, hboth.2, hord.next hc hr, ?_, hclock⟩
  exact (congrArg (fun terms => terms.2.2.2.1) (call_terms (.inr hl))).trans hoff

theorem Clocked.join {s : System F} (h : Clocked startA lastA startB lastB s) (hb : s.b = none)
    {p : Bytes} {iss : U32} {now : U64} {rnd : U32} {b : Host F} (hp : p ∈ s.a.emitted)
    (hl : listen p iss now rnd = some b) (hr : Reads startB lastB (some now)) :
    Clocked startA lastA startB now { s with b := some b } := by
  obtain ⟨ta, hrest⟩ := h
  simp only [hb] at hrest
  obtain ⟨hf, ho, hv, hord, hoff, hle, -⟩ := hrest
  obtain ⟨hfresh, hj⟩ := accept_joint hf ho hv hp hl
  have hstart : startB ≤ now := BitVec.le_trans hle (hr now rfl).1
  refine ⟨ta, b.start, hf, hfresh.follows, hj, hord, ?_, ?_, fun hon => ?_, fun _ => hoff⟩
  · unfold listen at hl
    split at hl
    · obtain ⟨⟨c, synack⟩, hacc, rfl⟩ := Option.map_eq_some_iff.mp hl
      obtain ⟨rfl, s', hcar, hopts⟩ := Connection.acceptWithIssAt_eq hacc
      refine ordered_single rfl hcar.decode hcar.seq (fun v r hts => ?_) hstart (hr now rfl).2
      rw [hopts] at hts
      obtain ⟨ts, -, heq⟩ := Option.map_eq_some_iff.mp hts
      exact (congrArg Prod.fst heq).symm
    · cases hl
  · unfold listen at hl
    split at hl
    · rename_i ip seg hip hdec
      obtain ⟨⟨c, synack⟩, hacc, rfl⟩ := Option.map_eq_some_iff.mp hl
      have hsyn : hasFlag seg.th.flags SYN = true := by
        by_contra hno
        simp [Connection.acceptWithIssAt, hno] at hacc
      obtain ⟨rfl, -⟩ := Connection.acceptWithIssAt_eq hacc
      obtain ⟨s', hd', hst⟩ := ho.stream.emitted p (hf.emitted ▸ hp)
      obtain rfl : s' = seg := Option.some.inj (hd'.symm.trans hdec)
      intro hon
      obtain ⟨⟨tsval, tsecr⟩, hts⟩ : ∃ ts, s'.opts.timestamps = some ts := Option.isSome_iff_exists.mp hon
      refine ⟨p, hp, s', tsecr, hdec, ?_, ?_⟩
      · simp [Connection.synRcvdBlock, hts]
      · rw [(hst.syn hsyn).2, dist_point hf (n := 0) (point_zero _).symm (by omega)]
        exact Nat.zero_le _
    · cases hl
  · rw [hoff] at hon
    cases hon

end System

/-- The clock of the active end at an event. -/
def Event.timeA : Event → Option U64
  | .callA x => x.time
  | .deliverToA _ now _ => some now
  | _ => none

/-- The clock of the passive end at an event. -/
def Event.timeB : Event → Option U64
  | .callB x => x.time
  | .deliverToB _ now _ | .accept _ _ now _ => some now
  | _ => none

namespace System
open Trace Host Connection

variable {startA lastA startB lastB : U64}

theorem Clocked.step {s : System F} (h : Clocked startA lastA startB lastB s) (e : Event)
    (hA : Reads startA lastA e.timeA) (hB : Reads startB lastB e.timeB) (hb : Bounded (s.step e)) :
    Clocked startA (e.timeA.getD lastA) startB (e.timeB.getD lastB) (s.step e) := by
  have hmove := s.step_move e
  generalize s.step e = s' at hmove hb
  cases hmove with
  | idle => exact h.wait hA hB
  | localA hl =>
      cases hsb : s.b with
      | none =>
          have hnext := h.alone hsb hl hA hb.1
          rwa [hsb] at hnext
      | some b =>
          obtain ⟨ta, tb, ht⟩ := h.joined hsb
          obtain ⟨ta', ht'⟩ := ht.callA (input_local hl ▸ heard_none tb) hA hb.1
          exact ⟨ta', tb, ht'⟩
  | localB hsb hl =>
      obtain ⟨ta, tb, ht⟩ := h.joined hsb
      obtain ⟨tb', ht'⟩ := ht.callB (input_local hl ▸ heard_none ta) hB (hb.2 _ rfl)
      exact ⟨ta, tb', ht'⟩
  | @heardA b p seg i now rnd hsb hmem hd =>
      obtain ⟨ta, tb, ht⟩ := h.joined hsb
      obtain ⟨ta', ht'⟩ := ht.callA (c := .onSegment seg now rnd) (heard_of_sent ht.followsB hmem hd) hA hb.1
      refine ⟨ta', ?_⟩
      simp only [hsb]
      exact ⟨tb, ht'⟩
  | @heardB b p seg i now rnd hsb hmem hd =>
      obtain ⟨ta, tb, ht⟩ := h.joined hsb
      obtain ⟨tb', ht'⟩ := ht.callB (c := .onSegment seg now rnd) (heard_of_sent ht.followsA hmem hd) hB (hb.2 _ rfl)
      exact ⟨ta, tb', ht'⟩
  | join hsb hp hl => exact h.join hsb hp hl hB

/-- Readings of a clock that never goes back and shows less than 2³¹ ms more
than at the start. -/
def Steady (start : U64) : U64 → List U64 → Prop
  | _, [] => True
  | last, now :: rest => last ≤ now ∧ now.toNat < start.toNat + 2 ^ 31 ∧ Steady start now rest

instance decidableSteady (start : U64) : ∀ last readings, Decidable (Steady start last readings)
  | _, [] => inferInstanceAs (Decidable True)
  | last, now :: rest =>
      have := decidableSteady start now rest
      inferInstanceAs (Decidable (last ≤ now ∧ now.toNat < start.toNat + 2 ^ 31 ∧ Steady start now rest))

theorem Steady.next {start last : U64} {time : Event → Option U64} {e : Event} {events : List Event}
    (h : Steady start last ((e :: events).filterMap time)) :
    Reads start last (time e) ∧ Steady start ((time e).getD last) (events.filterMap time) := by
  cases ht : time e with
  | none =>
      rw [List.filterMap_cons_none ht] at h
      exact ⟨fun now hn => (nomatch hn), h⟩
  | some now =>
      rw [List.filterMap_cons_some ht] at h
      refine ⟨fun now' hn => ?_, h.2.2⟩
      rw [← Option.some.inj hn]
      exact ⟨h.1, h.2.1⟩

theorem Clocked.run {s : System F} {events : List Event} (h : Clocked startA lastA startB lastB s)
    (hA : Steady startA lastA (events.filterMap Event.timeA))
    (hB : Steady startB lastB (events.filterMap Event.timeB)) (hb : Bounded (s.run events)) :
    ∃ lastA' lastB', Clocked startA lastA' startB lastB' (s.run events) := by
  induction events generalizing s lastA lastB with
  | nil => exact ⟨lastA, lastB, h⟩
  | cons e events ih =>
      have hb' : Bounded (s.step e) := Bounded.of_run hb
      exact ih (h.step e hA.next.1 hB.next.1 hb') hA.next.2 hB.next.2 hb

theorem init_clocked (localEnd remoteEnd : Endpoint) (iss : U32) (now : U64) (rnd : U32) (startB : U64) :
    Clocked now now startB startB (init (F := F) localEnd remoteEnd iss now rnd) := by
  obtain ⟨ho, hv⟩ := init_virgin (F := F) localEnd remoteEnd iss now rnd
  obtain ⟨s, hc, hopts⟩ := Connection.connectWithIss_syn (F := F) localEnd remoteEnd iss now rnd
  refine ⟨_, Fresh.follows (.connect ..), ho, hv, ?_, rfl, BitVec.le_refl _, by omega⟩
  refine ordered_single rfl hc.decode hc.seq (fun v r hts => ?_) (BitVec.le_refl _) (by omega)
  rw [hopts] at hts
  exact (congrArg Prod.fst (Option.some.inj hts)).symm

/-- No data byte and no FIN of the segment lies at or beyond RCV.NXT. -/
def Stale (c : Connection F) (seg : Segment) : Prop :=
  (∀ i < seg.payload.length, before (seg.th.seq + BitVec.ofNat 32 i) c.recv.nxt = true) ∧
    (hasFlag seg.th.flags FIN = true → before (Connection.finSeq seg.th seg.payload) c.recv.nxt = true)

instance (c : Connection F) (seg : Segment) : Decidable (Stale c seg) := inferInstanceAs (Decidable (_ ∧ _))

theorem stale_of_old {start last : U64} {x y : Host F} {tx ty : Trace} (hfx : Follows x tx) (hfy : Follows y ty)
    (hox : Own tx) (hord : Ordered start last x) (hrec : Recent x y) (hdir : Dir tx ty) {p : Bytes} {seg : Segment}
    (hp : p ∈ x.emitted) (hd : decode p = some seg) (hold : OldTimestamp y.conn seg) : Stale y.conn seg := by
  have hlt := hox.nxtPos_lt
  have hsent := hox.sent_lt
  have hnxt := tx.nxtPos_le
  have hpos := hdir.rcvPos_le
  have hrcv : y.conn.recv.nxt = point tx.iss ty.rcvPos := hfy.rcvNxt.symm.trans hdir.rcv
  obtain ⟨hen, tsval, tsecr, hts, hbefore⟩ := hold
  obtain ⟨q, hq, r, e, hdq, htsq, hbelow⟩ := hrec hen
  by_cases hsize : 0 < size seg
  swap
  · have hzero : seg.payload.length + (hasFlag seg.th.flags FIN).toNat = 0 := Nat.le_zero.mp (Nat.not_lt.mp hsize)
    refine ⟨fun i hi => by omega, fun hf => ?_⟩
    rw [hf, Bool.toNat_true] at hzero
    omega
  obtain ⟨k, hone, hseq, hroom⟩ := hox.placed (hfx.emitted.symm ▸ hp) hd hsize
  have hend : k + size seg ≤ ty.rcvPos := by
    have horder := hord.order p hp q hq seg r hd hdq tsval tsecr _ e hts htsq hbefore hsize
    have hacked := hdir.una
    have hle := hox.outstanding.le
    rw [dist_point hfx hrcv (by omega)] at hbelow
    rw [dist_point hfx hseq (by omega), dist_una hfx hox] at horder
    omega
  have hplace : ∀ i, i < size seg → before (seg.th.seq + BitVec.ofNat 32 i) y.conn.recv.nxt = true := by
    intro i hi
    rw [hseq, hrcv, point_add, before_point (by omega) (by omega), decide_eq_true_eq]
    omega
  refine ⟨fun i hi => hplace i ?_, fun hf => hplace seg.payload.length ?_⟩
  · unfold size
    omega
  · simp [size, hf]

/-- Between two endpoints of this stack, whatever the network drops, duplicates
and reorders, the test on timestamps rejects nothing that is still needed. -/
theorem paws_rejects_only_old (localEnd remoteEnd : Endpoint) (iss : U32) (now : U64) (rnd : U32)
    (events : List Event) (startB : U64) (hb : Bounded ((init (F := F) localEnd remoteEnd iss now rnd).run events))
    (hA : Steady now now (events.filterMap Event.timeA)) (hB : Steady startB startB (events.filterMap Event.timeB)) :
    let s := (init (F := F) localEnd remoteEnd iss now rnd).run events
    ∀ b, s.b = some b →
      (b.conn.state.Sending → ∀ p ∈ s.a.emitted, ∀ seg, decode p = some seg →
        b.conn.paws seg.th seg.opts = none → Stale b.conn seg) ∧
      (s.a.conn.state.Sending → ∀ p ∈ b.emitted, ∀ seg, decode p = some seg →
        s.a.conn.paws seg.th seg.opts = none → Stale s.a.conn seg) := by
  intro s b hsb
  obtain ⟨lastA, lastB, ta, hrest⟩ := (init_clocked (F := F) localEnd remoteEnd iss now rnd startB).run hA hB hb
  simp only [show ((init (F := F) localEnd remoteEnd iss now rnd).run events).b = some b from hsb] at hrest
  obtain ⟨tb, ht⟩ := hrest
  have hold : ∀ {c : Connection F} {seg : Segment}, c.paws seg.th seg.opts = none → OldTimestamp c seg := by
    intro c seg hnone
    by_contra hcur
    have hsome := (paws_isSome_iff c seg).mpr hcur
    rw [hnone] at hsome
    cases hsome
  constructor
  · intro _ p hp seg hd hnone
    exact stale_of_old ht.followsA ht.followsB ht.joint.ownA ht.orderedA ht.recentB ht.joint.forth hp hd (hold hnone)
  · intro hopen p hp seg hd hnone
    rcases ht.joint.back with ⟨hv, -⟩ | hdir
    · have hs : s.a.conn.state = .synSent := ht.followsA.state.symm.trans hv.state
      rw [hs] at hopen
      exact absurd hopen not_sending_synSent
    · exact stale_of_old ht.followsB ht.followsA ht.joint.ownB ht.orderedB ht.recentA hdir hp hd (hold hnone)

/-- Two transfers, a duplicate of the first after the second. -/
def demoTwice : List Event :=
  demoTransfer ++ [.deliverToA 1 5#64 0#32, .callA (.write [9#8]), .callA (.pollTransmit 10#64),
    .deliverToB 3 11#64 0#32]

theorem duplicate_rejected_as_old : ∃ b, (demo.run demoTwice).b = some b ∧ b.delivered = [7#8, 8#8, 9#8] ∧
    ∃ p ∈ (demo.run demoTwice).a.emitted, ∃ seg, decode p = some seg ∧ seg.payload = [7#8, 8#8] ∧
      b.conn.paws seg.th seg.opts = none ∧ Stale b.conn seg := by
  have hb : Bounded (demo.run demoTwice) := by decide +kernel
  have hA : Steady 0#64 0#64 (demoTwice.filterMap Event.timeA) := by decide +kernel
  have hB : Steady 0#64 0#64 (demoTwice.filterMap Event.timeB) := by decide +kernel
  have hrun : (demo.run demoTwice).b.bind (fun b => (packet (demo.run demoTwice).a.emitted 2).map (fun seg =>
      (b.delivered, seg.payload, decide b.conn.state.Sending, (b.conn.paws seg.th seg.opts).isNone))) =
        some ([7#8, 8#8, 9#8], [7#8, 8#8], true, true) := by decide +kernel
  obtain ⟨b, hsb, hseg⟩ := Option.bind_eq_some_iff.mp hrun
  obtain ⟨seg, hpkt, heq⟩ := Option.map_eq_some_iff.mp hseg
  simp only [Prod.mk.injEq, decide_eq_true_eq, Option.isNone_iff_eq_none] at heq
  obtain ⟨hdel, hpay, hopen, hnone⟩ := heq
  obtain ⟨p, hp, hd⟩ := packet_sent hpkt
  refine ⟨b, hsb, hdel, p, hp, seg, hd, hpay, hnone, ?_⟩
  exact ((paws_rejects_only_old _ _ _ _ _ demoTwice 0#64 hb hA hB) b hsb).1 hopen p hp seg hd hnone

end System
end TcpStack
