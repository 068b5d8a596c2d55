import TcpStack.Coverage
import TcpStack.Resend

/-!
# Episodes of fast recovery

An episode is split over the connection, which remembers where it ends, and the
controller, which knows that it is on. The module says what each call does to
the two, and from it what opens an episode, what keeps it open and what ends it.
-/
namespace TcpStack
open Tcp TcpStack.Seq TcpStack.Circle

section
variable {F : Type} [F64 F]

namespace Cubic

theorem onAck_calm (k : Cubic) (acked : U32) (nowMs : U64) :
    (k.onAck F acked nowMs).inRecovery = false ∧ (k.onAck F acked nowMs).dupAcks = 0#32 := by
  unfold onAck
  dsimp only
  split_ifs with hrec
  · exact ⟨rfl, rfl⟩
  all_goals exact ⟨Bool.eq_false_iff.mpr hrec, rfl⟩

theorem onDupAck_dupAcks (k : Cubic) (flight : U32) : (k.onDupAck flight).1.dupAcks = k.dupAcks + 1#32 := by
  unfold onDupAck
  dsimp only
  split_ifs <;> rfl

theorem onDupAck_inRecovery (k : Cubic) (flight : U32) :
    (k.onDupAck flight).1.inRecovery = (k.inRecovery || decide (k.dupAcks + 1#32 = dupAckThreshold)) := by
  unfold onDupAck
  dsimp only
  split_ifs with hhit hrec
  · simp [hhit]
  · simp [hrec]
  · simp [hrec, hhit]

theorem onDupAck_reduction {k : Cubic} (flight : U32) (h : k.dupAcks + 1#32 ≠ dupAckThreshold) :
    (k.onDupAck flight).1.ssthresh = k.ssthresh ∧ (k.onDupAck flight).1.wMax = k.wMax := by
  unfold onDupAck
  dsimp only
  rw [if_neg h]
  split_ifs <;> exact ⟨rfl, rfl⟩

end Cubic

theorem CongestionControl.onPartialAck_inRecovery (cc : CongestionControl F) (acked : U32) :
    (cc.onPartialAck acked).inRecovery = cc.inRecovery := by
  cases cc with
  | cubic k => simp only [onPartialAck, inRecovery, Cubic.onPartialAck]
  | bbr b => rfl

theorem RetxQueue.fastRetransmit_first (q : RetxQueue) (nowMs : U64) :
    ((q.fastRetransmit nowMs).1.segments.find? (fun s => !s.sacked)).map Unacked.packet =
      (q.fastRetransmit nowMs).2 := by
  unfold fastRetransmit
  cases hr : resendFirst (fun s => !s.sacked) nowMs q.segments with
  | none => simpa using resendFirst_none.mp hr
  | some r =>
      obtain ⟨segments, pkt⟩ := r
      obtain ⟨l, s, r, -, hl, hs, rfl, rfl⟩ := resendFirst_split hr
      have hnone : l.find? (fun s => !s.sacked) = none :=
        List.find?_eq_none.mpr fun t ht => Bool.not_eq_true _ ▸ hl t ht
      dsimp only
      rw [List.find?_append, hnone, Option.none_or, List.find?_cons_of_pos (a := s.resend nowMs) hs]
      rfl

namespace Connection

/-- What an episode is made of: SND.UNA, the controller, and where the episode ends. -/
def helm (c : Connection F) : U32 × CongestionControl F × U32 := (c.send.una, c.cong, c.recover)

/-- The open handler looks at the acknowledgement of the segment. -/
def Heeds (c : Connection F) (seg : Segment) : Prop :=
  hasFlag seg.th.flags ACK = true ∧ ¬ OldTimestamp c seg ∧ Accepts c seg

/-- The segment gets to the open handler, which looks at its acknowledgement. -/
def Processes (c : Connection F) (seg : Segment) : Prop :=
  (c.state.Sending ∧ hasFlag seg.th.flags RST = false ∧ hasFlag seg.th.flags SYN = false) ∧ Heeds c seg

instance (c : Connection F) (seg : Segment) : Decidable (OldTimestamp c seg) :=
  decidable_of_iff (¬ (c.paws seg.th seg.opts).isSome = true) (by rw [paws_isSome_iff, not_not])

instance (c : Connection F) (seg : Segment) : Decidable (Accepts c seg) := inferInstanceAs (Decidable (_ → _))

instance (c : Connection F) (seg : Segment) : Decidable (Heeds c seg) := inferInstanceAs (Decidable (_ ∧ _))
instance (c : Connection F) (seg : Segment) : Decidable (Processes c seg) := inferInstanceAs (Decidable (_ ∧ _))

/-- It repeats SND.UNA while data is in flight, on a segment without data that
leaves the window as it is, and open. -/
def RepeatsUna (c : Connection F) (seg : Segment) : Prop :=
  seg.th.ack = c.send.una ∧ c.send.una ≠ c.send.nxt ∧ seg.payload = [] ∧
    c.scaledWindow seg.th = c.send.wnd ∧ c.scaledWindow seg.th ≠ 0#32

instance (c : Connection F) (seg : Segment) : Decidable (RepeatsUna c seg) := inferInstanceAs (Decidable (_ ∧ _))

def DuplicateAck (c : Connection F) (seg : Segment) : Prop := Processes c seg ∧ RepeatsUna c seg

instance (c : Connection F) (seg : Segment) : Decidable (DuplicateAck c seg) := inferInstanceAs (Decidable (_ ∧ _))

/-- The ways a segment can turn the episode, where `Looked` says whether its
acknowledgement is looked at. -/
inductive Steers (Looked : Prop) (c : Connection F) (seg : Segment) (r : Connection F × Option Bytes) : Prop where
  | kept (helm : r.1.helm = c.helm) (other : ¬ (Looked ∧ RepeatsUna c seg))
  | opened (early : c.state = .synSent ∨ c.state = .synRcvd)
      (helm : r.1.helm = (r.1.send.una, c.cong, c.recover))
  | full (sample : Option U64) (now : U64) (new : between c.send.una seg.th.ack c.send.nxt = true)
      (past : ¬ PartialAck c seg.th)
      (helm : r.1.helm = (seg.th.ack, c.cong.onAck (seg.th.ack - c.send.una) sample now, c.recover))
  | part (short : PartialAck c seg.th)
      (helm : r.1.helm = (seg.th.ack, c.cong.onPartialAck (seg.th.ack - c.send.una), c.recover))
      (hole : ∀ s, r.1.retx.segments.find? (fun s => !s.sacked) = some s → r.2 = some s.packet)
  | dup (same : Looked ∧ RepeatsUna c seg)
      (helm : r.1.helm = (c.send.una, (c.cong.onDupAck c.flightSize).1,
        if c.cong.dupAcks + 1#32 = dupAckThreshold then c.send.nxt else c.recover))

theorem maybeChallenge_helm (c : Connection F) (now : U64) (rnd : U32) :
    (c.maybeChallenge now rnd).1.helm = c.helm := by
  rw [show (c.maybeChallenge now rnd).1 = _ from (maybeChallenge_clocks c now rnd).1]
  rfl

theorem onRst_helm (c : Connection F) (th : TcpHeader) (now : U64) (rnd : U32) :
    (c.onRst th now rnd).1.helm = c.helm := by
  unfold onRst
  split_ifs
  · rfl
  · rfl
  · rfl
  · rfl
  · exact maybeChallenge_helm c now rnd
  · rfl

theorem receive_helm (c : Connection F) (th : TcpHeader) (payload : Bytes) :
    (c.receive th payload).1.helm = c.helm ∧ (c.receive th payload).1.retx = c.retx := by
  simp only [receive, deliver_eq, takeFin]
  split_ifs <;> exact ⟨rfl, rfl⟩

theorem onState_helm {c : Connection F} (h : ¬ c.state.Sending) (th : TcpHeader) (payload : Bytes)
    (opts : TcpOptions) (now : U64) (rnd : U32) : (c.onState th payload opts now rnd).1.helm = c.helm := by
  unfold onState
  split
  · rename_i hs
    exact absurd (.inl hs) h
  · rename_i hs
    exact absurd (.inr hs) h
  · unfold onLastAck
    split_ifs <;> rfl
  · simp only [onFinWait1, deliver_eq, takeFin, dropAcked]
    split_ifs <;> rfl
  · simp only [onFinWait2, deliver_eq, takeFin]
    split_ifs <;> rfl
  · unfold onClosing
    split_ifs <;> rfl
  · rfl

theorem onNewAck_helm (c : Connection F) (th : TcpHeader) (opts : TcpOptions) (now : U64) : ∃ sample,
    (c.onNewAck th opts now).1.helm = (th.ack,
      if c.cong.inRecovery = true ∧ before th.ack c.recover = true then c.cong.onPartialAck (th.ack - c.send.una)
      else c.cong.onAck (th.ack - c.send.una) sample now, c.recover) := by
  refine ⟨c.rttSample opts (c.retx.ack th.ack now).2, ?_⟩
  simp only [onNewAck]
  by_cases hpart : c.cong.inRecovery = true ∧ before th.ack c.recover = true
  · rw [if_pos (by simp [hpart.1, hpart.2]), if_pos hpart]
    rfl
  · rw [if_neg (by simpa using hpart), if_neg hpart]
    rfl

theorem onNewAck_hole {c : Connection F} {th : TcpHeader} (hpart : PartialAck c th) (opts : TcpOptions) (now : U64) :
    ((c.onNewAck th opts now).1.retx.segments.find? (fun s => !s.sacked)).map Unacked.packet =
      (c.onNewAck th opts now).2 := by
  simp only [onNewAck]
  rw [if_pos (by simp [hpart.2.1, hpart.2.2])]
  exact RetxQueue.fastRetransmit_first _ now

theorem onDupAck_helm (c : Connection F) (now : U64) :
    (c.onDupAck now).1.helm = (c.send.una, (c.cong.onDupAck c.flightSize).1,
      if c.cong.dupAcks + 1#32 = dupAckThreshold then c.send.nxt else c.recover) := by
  have hhit := CongestionControl.onDupAck_hit c.cong c.flightSize
  simp only [onDupAck]
  generalize c.cong.onDupAck c.flightSize = r at hhit
  obtain ⟨cong, hit⟩ := r
  dsimp only at hhit ⊢
  cases hit with
  | true =>
      rw [if_pos rfl, if_pos (hhit.mp rfl)]
      rfl
  | false =>
      rw [if_neg Bool.false_ne_true, if_neg fun heq => Bool.false_ne_true (hhit.mpr heq)]
      rfl

theorem Steers.receive {Looked : Prop} {c d : Connection F} {seg : Segment} (h : Steers Looked c seg (d, none))
    (th : TcpHeader) (payload : Bytes) : Steers Looked c seg (d.receive th payload) := by
  obtain ⟨hhelm, hretx⟩ := receive_helm d th payload
  have huna : (d.receive th payload).1.send.una = d.send.una := congrArg Prod.fst hhelm
  cases h with
  | kept helm other => exact .kept (hhelm.trans helm) other
  | opened early helm => exact .opened early (huna ▸ hhelm.trans helm)
  | full sample now new past helm => exact .full sample now new past (hhelm.trans helm)
  | part short helm hole =>
      refine .part short (hhelm.trans helm) fun s hs => ?_
      rw [hretx] at hs
      exact nomatch hole s hs
  | dup same helm => exact .dup same (hhelm.trans helm)

theorem processAck_steers {c : Connection F} {seg : Segment} (hp : Heeds c seg) {u : Connection F}
    (hu : u.helm = c.helm) (hnxt : u.send.nxt = c.send.nxt) (now : U64) :
    Steers (Heeds c seg) c seg (u.processAck seg.th seg.payload seg.opts c.send.wnd (c.scaledWindow seg.th) now) := by
  obtain ⟨hsend, hcong, hrec⟩ := marked_same u seg.opts
  rw [processAck_eq]
  generalize u.marked seg.opts = d at hsend hcong hrec
  have hd : d.helm = c.helm := by
    rw [← hu, helm, helm, hsend, hcong, hrec]
  obtain ⟨huna, hcong, hrec⟩ : d.send.una = c.send.una ∧ d.cong = c.cong ∧ d.recover = c.recover := by
    simpa [helm] using hd
  have hdnxt : d.send.nxt = c.send.nxt := by rw [hsend, hnxt]
  have hflight : d.flightSize = c.flightSize := by rw [flightSize, flightSize, huna, hdnxt]
  rw [huna, hdnxt]
  split_ifs with hnew hdup
  · obtain ⟨sample, hhelm⟩ := onNewAck_helm d seg.th seg.opts now
    rw [hcong, hrec, huna] at hhelm
    by_cases hpart : PartialAck c seg.th
    · rw [if_pos hpart.2] at hhelm
      have hdpart : PartialAck d seg.th := by rwa [PartialAck, huna, hdnxt, hcong, hrec]
      refine .part hpart hhelm fun s hs => ?_
      rw [← onNewAck_hole hdpart, hs]
      rfl
    · rw [if_neg fun h => hpart ⟨hnew, h⟩] at hhelm
      exact .full sample now hnew hpart hhelm
  · have hhelm := onDupAck_helm d now
    rw [huna, hcong, hflight, hrec, hdnxt] at hhelm
    exact .dup ⟨hp, hdup.1, hdup.2.1, List.isEmpty_iff.mp hdup.2.2.1, hdup.2.2.2⟩ hhelm
  · refine .kept hd fun h => hdup ?_
    exact ⟨h.2.1, h.2.2.1, List.isEmpty_iff.mpr h.2.2.2.1, h.2.2.2.2⟩

theorem onOpen_steers (c : Connection F) (seg : Segment) (now : U64) (rnd : U32) :
    Steers (Heeds c seg) c seg (c.onOpen seg.th seg.payload seg.opts now rnd) := by
  unfold onOpen
  cases hp : c.paws seg.th seg.opts with
  | none =>
      refine .kept rfl fun h => ?_
      have hsome := (paws_isSome_iff c seg).mpr h.1.2.1
      rw [hp] at hsome
      cases hsome
  | some d =>
      have hcur : ¬ OldTimestamp c seg := by
        rw [← paws_isSome_iff, hp]
        rfl
      obtain ⟨t, rfl⟩ := paws_eq hp
      dsimp only
      have hwnd : scaledWindow { c with tsRecent := t } seg.th = c.scaledWindow seg.th := rfl
      rw [hwnd]
      have hacc : Accepts c seg ↔ (hasFlag seg.th.flags ACK = true →
          (updateWindow { c with tsRecent := t } (c.scaledWindow seg.th)).ackAcceptable seg.th.ack = true) := Iff.rfl
      have hu : (updateWindow { c with tsRecent := t } (c.scaledWindow seg.th)).helm = c.helm := rfl
      have hnxt : (updateWindow { c with tsRecent := t } (c.scaledWindow seg.th)).send.nxt = c.send.nxt := rfl
      generalize updateWindow { c with tsRecent := t } (c.scaledWindow seg.th) = u at hacc hu hnxt
      by_cases hack : hasFlag seg.th.flags ACK = true
      swap
      · rw [if_neg hack]
        exact Steers.receive (.kept hu fun h => hack h.1.1) seg.th seg.payload
      rw [if_pos hack]
      cases hok : u.ackAcceptable seg.th.ack with
      | false =>
          rw [if_pos (Bool.not_false : (!false) = true)]
          refine .kept ((maybeChallenge_helm u now rnd).trans hu) fun h => ?_
          rw [hacc.mp h.1.2.2 hack] at hok
          cases hok
      | true =>
          have hsteer := processAck_steers ⟨hack, hcur, hacc.mpr fun _ => hok⟩ hu hnxt now
          generalize u.processAck seg.th seg.payload seg.opts c.send.wnd (c.scaledWindow seg.th) now = r at hsteer
          obtain ⟨v, _ | pkt⟩ := r
          · exact hsteer.receive seg.th seg.payload
          · exact hsteer

theorem Steers.settled {Looked : Prop} {c : Connection F} {seg : Segment} {r : Connection F × Option Bytes}
    (h : Steers Looked c seg r) (hs : c.state.Sending) (hset : c.send.una = c.send.nxt) : r.1.helm = c.helm := by
  have hnone : between c.send.una seg.th.ack c.send.nxt = false := by
    rw [hset]
    simp [between]
  cases h with
  | kept helm => exact helm
  | opened early => rcases hs with hs | hs <;> rw [hs] at early <;> simp at early
  | full _ _ new => cases hnone.symm.trans new
  | part short => cases hnone.symm.trans short.1
  | dup same => exact absurd hset same.2.2.1

theorem onSynSent_helm (c : Connection F) (th : TcpHeader) (opts : TcpOptions) (now : U64) :
    (c.onSynSent th opts now).1.helm = ((c.onSynSent th opts now).1.send.una, c.cong, c.recover) := by
  unfold onSynSent
  split_ifs <;> rfl

theorem onSegment_steers (c : Connection F) (seg : Segment) (now : U64) (rnd : U32) :
    Steers (Processes c seg) c seg (c.onSegment seg now rnd) := by
  by_cases hs : c.state.Sending ∧ hasFlag seg.th.flags RST = false ∧ hasFlag seg.th.flags SYN = false
  · rw [onSegment_open hs.1 hs.2.1 hs.2.2]
    have hopen := onOpen_steers (c.arrive now) seg now rnd
    generalize (c.arrive now).onOpen seg.th seg.payload seg.opts now rnd = r at hopen
    cases hopen with
    | kept helm other => exact .kept helm fun h => other ⟨h.1.2, h.2⟩
    | opened early helm => exact .opened early helm
    | full sample t new past helm => exact .full sample t new past helm
    | part short helm hole => exact .part short helm hole
    | dup same helm => exact .dup ⟨⟨hs, same.1⟩, same.2⟩ helm
  · have hkept : ∀ {r : Connection F × Option Bytes}, r.1.helm = (c.arrive now).helm →
        Steers (Processes c seg) c seg r := fun h => .kept h fun hp => hs hp.1.1
    have hsync : c.state.Sending → (c.arrive now).isSynchronized = true := by
      rintro (h | h) <;> rw [isSynchronized, show (c.arrive now).state = c.state from rfl, h]
    unfold onSegment
    dsimp only
    split_ifs with hrst hsent hsyn
    · exact hkept (onRst_helm ..)
    · exact .opened (.inl hsent) (onSynSent_helm (c.arrive now) ..)
    · exact hkept (maybeChallenge_helm ..)
    · have hclosed : ¬ c.state.Sending := by
        intro hopen
        rw [hsync hopen, Bool.and_true] at hsyn
        exact hs ⟨hopen, Bool.eq_false_iff.mpr hrst, Bool.eq_false_iff.mpr hsyn⟩
      unfold onSynRcvd
      split_ifs with hrcvd hacks
      · -- the handshake completes with nothing outstanding
        have hset := (onOpen_steers { c.arrive now with
            send := { (c.arrive now).send with una := seg.th.ack }
            retx := ((c.arrive now).retx.ack seg.th.ack now).1
            state := .established } seg now rnd).settled (.inl rfl) hacks.2
        refine .opened (.inr hrcvd) (hset.trans ?_)
        exact congrArg (·, c.cong, c.recover) (congrArg Prod.fst hset).symm
      · exact hkept rfl
      · exact hkept (onState_helm (c := c.arrive now) hclosed ..)

/-- Some segment has waited for the whole timeout, past the two timers before it. -/
def TimesOut (c : Connection F) (now : U64) : Prop := (((c.tickRack now).1.tickProbe now).1.tickDue now).2 ≠ []

instance (c : Connection F) (now : U64) : Decidable (TimesOut c now) := inferInstanceAs (Decidable (_ ≠ _))

theorem tickPersist_helm (c : Connection F) (now : U64) : (c.tickPersist now).1.helm = c.helm := by
  unfold tickPersist
  split_ifs <;> rfl

theorem tickKeepalive_helm (c : Connection F) (now : U64) : (c.tickKeepalive now).1.helm = c.helm := by
  unfold tickKeepalive
  dsimp only
  split_ifs <;> rfl

theorem tickProbe_frame (c : Connection F) (now : U64) (ts : U32) (s : State) :
    { c with tsVal := ts, state := s }.tickProbe now =
      ({ (c.tickProbe now).1 with tsVal := ts, state := s }, (c.tickProbe now).2) := by
  have hflight : { c with tsVal := ts, state := s }.flightSize = c.flightSize := rfl
  unfold tickProbe
  rw [hflight]
  split_ifs
  · cases c.retx.retransmitLast now with
    | mk q probe => cases probe <;> rfl
  · rfl

theorem tickDue_frame (c : Connection F) (now : U64) (ts : U32) (s : State) :
    { c with tsVal := ts, state := s }.tickDue now =
      ({ (c.tickDue now).1 with tsVal := ts, state := s }, (c.tickDue now).2) := by
  simp only [tickDue]
  split_ifs <;> rfl

theorem tickDue_helm (c : Connection F) (now : U64) : (c.tickDue now).1.helm =
    (c.send.una, if (c.tickDue now).2 ≠ [] then c.cong.onTimeout c.flightSize else c.cong, c.recover) := by
  unfold tickDue
  generalize c.retx.due now c.rtt.rto = r
  obtain ⟨q, due⟩ := r
  cases due <;> rfl

/-- A tick runs the three timers of the queue, and then the persist and the
keepalive timer, which may find the connection reaped. -/
theorem onTick_timers (c : Connection F) (now : U64) : ∃ d : Connection F,
    (∃ ts s, d = { (((c.tickRack now).1.tickProbe now).1.tickDue now).1 with tsVal := ts, state := s }) ∧
    c.onTick now = (((d.tickPersist now).1.tickKeepalive now).1,
      (c.tickRack now).2 ++ ((c.tickRack now).1.tickProbe now).2 ++
      (((c.tickRack now).1.tickProbe now).1.tickDue now).2 ++
        (d.tickPersist now).2 ++ ((d.tickPersist now).1.tickKeepalive now).2) := by
  obtain ⟨s, hreap⟩ := reap_eq { c with tsVal := now.setWidth 32 } now
  have hrack : ({ c with tsVal := now.setWidth 32, state := s } : Connection F).tickRack now =
      ({ (c.tickRack now).1 with tsVal := now.setWidth 32, state := s }, (c.tickRack now).2) := rfl
  refine ⟨_, ⟨now.setWidth 32, s, rfl⟩, ?_⟩
  unfold onTick
  dsimp only
  rw [hreap, hrack]
  dsimp only
  rw [tickProbe_frame, tickDue_frame]

theorem onTick_helm (c : Connection F) (now : U64) : (c.onTick now).1.helm =
    (c.send.una, if TimesOut c now then c.cong.onTimeout c.flightSize else c.cong, c.recover) := by
  obtain ⟨d, ⟨ts, s, rfl⟩, heq⟩ := c.onTick_timers now
  obtain ⟨q, t, sent, hp⟩ := tickProbe_eq (c.tickRack now).1 now
  have hdue : (((c.tickRack now).1.tickProbe now).1.tickDue now).1.helm =
      (((c.tickRack now).1.tickProbe now).1.send.una,
        if TimesOut c now then ((c.tickRack now).1.tickProbe now).1.cong.onTimeout
          ((c.tickRack now).1.tickProbe now).1.flightSize
        else ((c.tickRack now).1.tickProbe now).1.cong, ((c.tickRack now).1.tickProbe now).1.recover) :=
    tickDue_helm _ now
  rw [heq, tickKeepalive_helm, tickPersist_helm]
  refine hdue.trans ?_
  rw [hp]
  rfl

theorem pollTransmit_helm (c : Connection F) (now : U64) : (c.pollTransmit now).1.helm = c.helm :=
  pollTransmit_keeps (fun _ _ _ _ => rfl) (fun _ _ _ _ _ _ => rfl) c now

theorem close_helm (c : Connection F) (now : U64) : (c.close now).1.helm = c.helm := by
  unfold close
  split <;> rfl

end Connection

namespace Host
open Connection Trace

theorem call_steers (h : Host F) {x : Call} (hx : x ≠ .useBbr) :
    (∃ seg now rnd out, x = .onSegment seg now rnd ∧ h.conn.onSegment seg now rnd = ((h.call x).conn, out) ∧
      Steers (Processes h.conn seg) h.conn seg ((h.call x).conn, out)) ∨
    (∃ now, x = .onTick now ∧ TimesOut h.conn now ∧
      (h.call x).conn.helm = (h.conn.send.una, h.conn.cong.onTimeout h.conn.flightSize, h.conn.recover)) ∨
    ((∀ seg now rnd, x ≠ .onSegment seg now rnd) ∧ (∀ now, x = .onTick now → ¬ TimesOut h.conn now) ∧
      (h.call x).conn.helm = h.conn.helm) := by
  cases x with
  | onSegment seg now rnd =>
      have hcall : ((h.call (.onSegment seg now rnd)).conn, (h.conn.onSegment seg now rnd).2) =
          h.conn.onSegment seg now rnd := by simp only [call]
      exact .inl ⟨seg, now, rnd, _, rfl, hcall.symm, hcall ▸ onSegment_steers h.conn seg now rnd⟩
  | onTick now =>
      have hcall : (h.call (.onTick now)).conn = (h.conn.onTick now).1 := by simp only [call]
      rw [hcall, onTick_helm]
      by_cases hdue : TimesOut h.conn now
      · rw [if_pos hdue]
        exact .inr (.inl ⟨now, rfl, hdue, rfl⟩)
      · rw [if_neg hdue]
        refine .inr (.inr ⟨by simp, fun t ht => ?_, rfl⟩)
        rwa [← Call.onTick.inj ht]
  | pollTransmit now =>
      have hcall : (h.call (.pollTransmit now)).conn = (h.conn.pollTransmit now).1 := by simp only [call]
      rw [hcall, pollTransmit_helm]
      exact .inr (.inr ⟨by simp, by simp, rfl⟩)
  | close now =>
      have hclose : (h.call (.close now)).conn.helm = h.conn.helm := by
        have hhelm := close_helm h.conn now
        simp only [call]
        split <;> rename_i heq <;> rw [heq] at hhelm <;> exact hhelm
      rw [hclose]
      exact .inr (.inr ⟨by simp, by simp, rfl⟩)
  | write | takeReceived | setNodelay | setKeepalive =>
      exact .inr (.inr ⟨by simp, by simp, rfl⟩)
  | useBbr => exact absurd rfl hx

def Duplicates (c : Connection F) : Call → Prop
  | .onSegment seg _ _ => DuplicateAck c seg
  | _ => False

instance (c : Connection F) : (x : Call) → Decidable (Duplicates c x)
  | .onSegment seg _ _ => inferInstanceAs (Decidable (DuplicateAck c seg))
  | .write _ | .pollTransmit _ | .onTick _ | .close _ | .takeReceived | .setNodelay _ | .setKeepalive _ | .useBbr =>
    inferInstanceAs (Decidable False)

/-- SND.UNA moves, or the retransmission timer expires. -/
def Interrupts (h : Host F) (x : Call) : Prop :=
  (h.call x).conn.send.una ≠ h.conn.send.una ∨
    match x with
    | .onTick now => TimesOut h.conn now
    | _ => False

instance (h : Host F) : (x : Call) → Decidable (Interrupts h x)
  | .onTick _ => inferInstanceAs (Decidable (_ ∨ TimesOut _ _))
  | .write _ | .pollTransmit _ | .onSegment _ _ _ | .close _ | .takeReceived | .setNodelay _ | .setKeepalive _
  | .useBbr => inferInstanceAs (Decidable (_ ∨ False))

/-- One call more, after `n` duplicates in a row. -/
def recount (h : Host F) (x : Call) (n : Nat) : Nat :=
  if Duplicates h.conn x then n + 1 else if Interrupts h x then 0 else n

/-- The duplicates in a row at the end of the run, after `n` at its beginning. -/
def dupsInRow (h : Host F) : List Call → Nat → Nat
  | [], n => n
  | x :: calls, n => dupsInRow (h.call x) calls (h.recount x n)

theorem recount_duplicate {h : Host F} {x : Call} (hd : Duplicates h.conn x) (n : Nat) : h.recount x n = n + 1 :=
  if_pos hd

theorem recount_interrupted {h : Host F} {x : Call} (hd : ¬ Duplicates h.conn x) (hi : Interrupts h x) (n : Nat) :
    h.recount x n = 0 := by
  rw [recount, if_neg hd, if_pos hi]

theorem recount_kept {h : Host F} {x : Call} (hd : ¬ Duplicates h.conn x) (hi : ¬ Interrupts h x) (n : Nat) :
    h.recount x n = n := by
  rw [recount, if_neg hd, if_neg hi]

theorem not_repeats_of_new {c : Connection F} {seg : Segment}
    (hnew : between c.send.una seg.th.ack c.send.nxt = true) :
    seg.th.ack ≠ c.send.una := by
  intro heq
  rw [heq] at hnew
  simp [between] at hnew

theorem recount_new {h : Host F} {seg : Segment} (now : U64) (rnd : U32)
    (hnew : between h.conn.send.una seg.th.ack h.conn.send.nxt = true)
    (hack : (h.call (.onSegment seg now rnd)).conn.send.una = seg.th.ack) (n : Nat) :
    h.recount (.onSegment seg now rnd) n = 0 := by
  have hne := not_repeats_of_new hnew
  have hd : ¬ Duplicates h.conn (.onSegment seg now rnd) := fun hd : DuplicateAck h.conn seg => hne hd.2.1
  exact recount_interrupted hd (.inl (hack ▸ hne)) n

theorem not_duplicate_early {c : Connection F} {seg : Segment} (hearly : c.state = .synSent ∨ c.state = .synRcvd) :
    ¬ DuplicateAck c seg := by
  intro hd
  rcases hd.1.1.1 with hs | hs <;> rw [hs] at hearly <;> simp at hearly

/-- The flight, the controller, the end of the episode and the count of the
duplicates agree. -/
structure Steady (h : Host F) (t : Trace) (k : Cubic) (n : Nat) : Prop where
  follows : Follows h t
  stream : Stream t
  outstanding : Outstanding t
  near : t.nxtPos - t.unaPos < 2 ^ 31
  cubic : h.conn.cong = .cubic k
  count : k.dupAcks = BitVec.ofNat 32 n
  calm : k.inRecovery = false → n < 3
  early : h.conn.state = .synSent ∨ h.conn.state = .synRcvd → k.inRecovery = false ∧ n = 0
  inside : k.inRecovery = true → ∃ r, h.conn.recover = point t.iss r ∧ t.unaPos < r ∧ r ≤ t.nxtPos

theorem third_is_third {n : Nat} (hlt : n < 3) (hhit : BitVec.ofNat 32 n + 1#32 = dupAckThreshold) : n = 2 := by
  have hall : ∀ n < 3, BitVec.ofNat 32 n + 1#32 = dupAckThreshold → n = 2 := by decide
  exact hall n hlt hhit

theorem call_early {h : Host F} {x : Call}
    (hs : (h.call x).conn.state = .synSent ∨ (h.call x).conn.state = .synRcvd) :
    h.conn.state = .synSent ∨ h.conn.state = .synRcvd := by
  rcases (call_turn h x).edge with heq | hmem
  · rwa [show (h.call x).conn.state = h.conn.state from heq] at hs
  · change (h.call x).conn.state ∈ h.conn.state.successors at hmem
    rcases hs with hs | hs <;> rw [hs] at hmem <;> cases hst : h.conn.state <;> simp [hst, State.successors] at hmem

/-- The edges `t'` after one call and the edges `t` before it. -/
structure Advances (h : Host F) (x : Call) (t t' : Trace) : Prop where
  follows : Follows (h.call x) t'
  stream : Stream t'
  outstanding : Outstanding t'
  iss : t'.iss = t.iss
  unaPos : t.unaPos ≤ t'.unaPos
  nxtPos : t.nxtPos ≤ t'.nxtPos
  near : t'.nxtPos - t.unaPos < 2 ^ 31

theorem Steady.una {h : Host F} {t : Trace} {k : Cubic} {n : Nat} (hst : Steady h t k n) :
    h.conn.send.una = point t.iss t.unaPos :=
  hst.follows.una ▸ hst.outstanding.una

theorem Steady.nxt {h : Host F} {t : Trace} {k : Cubic} {n : Nat} (hst : Steady h t k n) :
    h.conn.send.nxt = point t.iss t.nxtPos :=
  hst.follows.nxt ▸ hst.stream.nxt

theorem Steady.advances {h : Host F} {t : Trace} {k : Cubic} {n : Nat} (hst : Steady h t k n) {x : Call}
    (hb : h.conn.flightSize.toNat + h.consumes x < 2 ^ 31) : ∃ t', Advances h x t t' := by
  obtain ⟨t', hf, hs, ho, hiss, hu, hn, hnear⟩ := call_edges hst.follows hst.stream hst.outstanding hst.near hb
  exact ⟨t', hf, hs, ho, hiss, hu, hn, hnear⟩

namespace Advances

variable {h : Host F} {x : Call} {t t' : Trace} {k : Cubic} {n : Nat}

theorem una (ha : Advances h x t t') : (h.call x).conn.send.una = point t.iss t'.unaPos := by
  rw [← ha.iss, ← ha.follows.una]
  exact ha.outstanding.una

theorem still_near (ha : Advances h x t t') : t'.nxtPos - t'.unaPos < 2 ^ 31 := by
  have hu := ha.unaPos
  have hnear := ha.near
  omega

theorem stays (ha : Advances h x t t') (hst : Steady h t k n)
    (hsame : (h.call x).conn.send.una = h.conn.send.una) : t'.unaPos = t.unaPos := by
  have hle := ha.outstanding.le
  have hnear := ha.near
  rw [ha.una, hst.una] at hsame
  exact (point_inj_near ha.unaPos (by omega) hsame.symm).symm

theorem inside (ha : Advances h x t t') {r : Nat} (hr : h.conn.recover = point t.iss r) (hlt : t'.unaPos < r)
    (hle : r ≤ t.nxtPos) (hkept : (h.call x).conn.recover = h.conn.recover) :
    ∃ r, (h.call x).conn.recover = point t'.iss r ∧ t'.unaPos < r ∧ r ≤ t'.nxtPos :=
  ⟨r, by rw [hkept, hr, ha.iss], hlt, hle.trans ha.nxtPos⟩

/-- A call that leaves SND.UNA, the controller and the end alone, and brings no
duplicate. -/
theorem quiet (ha : Advances h x t t') (hst : Steady h t k n) (hhelm : (h.call x).conn.helm = h.conn.helm)
    (hcount : h.recount x n = n) : Steady (h.call x) t' k (h.recount x n) := by
  obtain ⟨hsame, hcong, hrec⟩ : _ ∧ _ ∧ _ := by simpa [helm] using hhelm
  rw [hcount]
  refine ⟨ha.follows, ha.stream, ha.outstanding, ha.still_near, hcong.trans hst.cubic, hst.count, hst.calm,
    fun hs => hst.early (call_early hs), fun hin => ?_⟩
  obtain ⟨r, hr, hlt, hle⟩ := hst.inside hin
  exact ha.inside hr (ha.stays hst hsame ▸ hlt) hle hrec

theorem duplicate {seg : Segment} {now : U64} {rnd : U32} (ha : Advances h (.onSegment seg now rnd) t t')
    (hst : Steady h t k n) (hd : DuplicateAck h.conn seg)
    (hhelm : (h.call (.onSegment seg now rnd)).conn.helm =
      (h.conn.send.una, (h.conn.cong.onDupAck h.conn.flightSize).1,
        if h.conn.cong.dupAcks + 1#32 = dupAckThreshold then h.conn.send.nxt else h.conn.recover)) :
    Steady (h.call (.onSegment seg now rnd)) t' (k.onDupAck h.conn.flightSize).1 (n + 1) := by
  obtain ⟨hsame, hcong, hrec⟩ : _ ∧ _ ∧ _ := by simpa [helm, hst.cubic] using hhelm
  have hdups : (CongestionControl.cubic k : CongestionControl F).dupAcks = k.dupAcks := rfl
  rw [hdups] at hrec
  have hin := k.onDupAck_inRecovery h.conn.flightSize
  have hle := hst.outstanding.le
  have hstay := ha.stays hst hsame
  refine ⟨ha.follows, ha.stream, ha.outstanding, ha.still_near, hcong, ?_, fun hout => ?_, fun hs => ?_,
    fun hout => ?_⟩
  · rw [k.onDupAck_dupAcks, hst.count, ← BitVec.ofNat_add]
  · -- neither on before nor opened by this one, which is therefore not the third
    rw [hin, Bool.or_eq_false_iff, decide_eq_false_iff_not, hst.count] at hout
    have hlt := hst.calm hout.1
    have htwo : n ≠ 2 := by
      rintro rfl
      exact hout.2 rfl
    omega
  · exact absurd hd (not_duplicate_early (call_early hs))
  · by_cases hhit : k.dupAcks + 1#32 = dupAckThreshold
    · rw [if_pos hhit, hst.nxt] at hrec
      have hne := hd.2.2.1
      rw [hst.una, hst.nxt] at hne
      have hdiff : t.unaPos ≠ t.nxtPos := fun heq => hne (congrArg _ heq)
      exact ⟨t.nxtPos, by rw [hrec, ha.iss], by omega, ha.nxtPos⟩
    · rw [hin, decide_eq_false hhit, Bool.or_false] at hout
      obtain ⟨r, hr, hlt, hler⟩ := hst.inside hout
      exact ha.inside hr (by omega) hler (hrec.trans (if_neg hhit))

end Advances

theorem Steady.call {h : Host F} {t : Trace} {k : Cubic} {n : Nat} (hst : Steady h t k n) {x : Call}
    (hx : x ≠ .useBbr) (hb : h.conn.flightSize.toNat + h.consumes x < 2 ^ 31) :
    ∃ t' k', Steady (h.call x) t' k' (h.recount x n) := by
  obtain ⟨t', ha⟩ := hst.advances hb
  rcases call_steers h hx with ⟨seg, now, rnd, out, rfl, -, hsteers⟩ | ⟨now, rfl, hdue, hhelm⟩ | ⟨hseg, htick, hhelm⟩
  · cases hsteers with
    | kept hhelm other =>
        have hsame : (h.call (.onSegment seg now rnd)).conn.send.una = h.conn.send.una := congrArg Prod.fst hhelm
        have hother : ¬ Duplicates h.conn (.onSegment seg now rnd) := other
        exact ⟨t', k, ha.quiet hst hhelm (recount_kept hother (fun hi => hi.elim (absurd hsame) id) n)⟩
    | opened hearly hhelm =>
        obtain ⟨hcong, -⟩ : _ ∧ _ := by simpa [helm] using hhelm
        obtain ⟨hout, rfl⟩ := hst.early hearly
        have hd : ¬ Duplicates h.conn (.onSegment seg now rnd) := not_duplicate_early hearly
        have hcount : h.recount (.onSegment seg now rnd) 0 = 0 := by
          rw [recount, if_neg hd]
          exact ite_self 0
        rw [hcount]
        exact ⟨t', k, ha.follows, ha.stream, ha.outstanding, ha.still_near, hcong.trans hst.cubic, hst.count,
          hst.calm, fun _ => ⟨hout, rfl⟩, fun hin => nomatch hout.symm.trans hin⟩
    | full sample t₀ new past hhelm =>
        obtain ⟨hack, hcong, -⟩ : _ ∧ _ ∧ _ := by simpa [helm, hst.cubic] using hhelm
        obtain ⟨hcalm, hzero⟩ := k.onAck_calm (F := F) (seg.th.ack - h.conn.send.una) t₀
        rw [recount_new now rnd new hack]
        exact ⟨t', _, ha.follows, ha.stream, ha.outstanding, ha.still_near, hcong, hzero, fun _ => by omega,
          fun _ => ⟨hcalm, rfl⟩, fun hin => nomatch hcalm.symm.trans hin⟩
    | part short hhelm hole =>
        obtain ⟨hack, hcong, hrec⟩ : _ ∧ _ ∧ _ := by simpa [helm, hst.cubic] using hhelm
        obtain ⟨hnew, hin, hshort⟩ := short
        rw [hst.cubic] at hin
        obtain ⟨r, hr, hlt, hler⟩ := hst.inside hin
        have hnear := ha.near
        have hle := ha.outstanding.le
        have hnxt := ha.nxtPos
        have hu := ha.unaPos
        rw [← hack, ha.una, hr, before_point (by omega) (by omega), decide_eq_true_eq] at hshort
        rw [recount_new now rnd hnew hack]
        refine ⟨t', k.onPartialAck (seg.th.ack - h.conn.send.una), ha.follows, ha.stream, ha.outstanding,
          ha.still_near, hcong, rfl, fun _ => by omega, fun hs => ?_, fun _ => ha.inside hr hshort hler hrec⟩
        exact nomatch (hst.early (call_early hs)).1.symm.trans hin
    | dup same hhelm =>
        have hd : Duplicates h.conn (.onSegment seg now rnd) := same
        rw [recount_duplicate hd]
        exact ⟨t', (k.onDupAck h.conn.flightSize).1, ha.duplicate hst same hhelm⟩
  · -- the timeout ends the episode and the count
    obtain ⟨-, hcong, -⟩ : _ ∧ _ ∧ _ := by simpa [helm, hst.cubic] using hhelm
    have hcount : h.recount (.onTick now) n = 0 := recount_interrupted id (.inr hdue) n
    rw [hcount]
    exact ⟨t', k.onTimeout h.conn.flightSize, ha.follows, ha.stream, ha.outstanding, ha.still_near, hcong, rfl,
      fun _ => by omega, fun _ => ⟨rfl, rfl⟩, fun hrec => nomatch hrec⟩
  · have hsame : (h.call x).conn.send.una = h.conn.send.una := congrArg Prod.fst hhelm
    refine ⟨t', k, ha.quiet hst hhelm (recount_kept (fun hd => ?_) (fun hi => hi.elim (absurd hsame) fun hi => ?_) n)⟩
    · cases x with
      | onSegment seg now rnd => exact hseg seg now rnd rfl
      | _ => exact hd
    · cases x with
      | onTick now => exact htick now rfl hi
      | _ => exact hi

theorem Fresh.cong {h : Host F} (hf : Fresh h) : h.conn.cong = .default := by
  cases hf with
  | connect => rfl
  | accept ipSrc ipDst seg iss now rnd heq =>
      obtain ⟨⟨c, synack⟩, hr, rfl⟩ := Option.map_eq_some_iff.mp heq
      obtain ⟨rfl, -⟩ := acceptWithIssAt_eq hr
      rfl
  | cookie => rfl

theorem Fresh.steady {h : Host F} (hf : Fresh h) : Steady h h.start {} 0 :=
  ⟨hf.follows, hf.stream, hf.outstanding, hf.near, hf.cong, rfl, fun _ => by omega, fun _ => ⟨rfl, rfl⟩,
    fun hin => nomatch hin⟩

theorem Steady.run {h : Host F} {t : Trace} {k : Cubic} {n : Nat} (hst : Steady h t k n) {calls : List Call}
    (hcubic : .useBbr ∉ calls) (hb : FlightBelow h calls) :
    ∃ t' k', Steady (h.run calls) t' k' (h.dupsInRow calls n) := by
  induction calls generalizing h t k n with
  | nil => exact ⟨t, k, hst⟩
  | cons x calls ih =>
      obtain ⟨hx, hrest⟩ := not_or.mp (mt List.mem_cons.mpr hcubic)
      obtain ⟨hhead, htail⟩ := flightBelow_cons.mp hb
      obtain ⟨t', k', hst'⟩ := hst.call (fun h => hx h.symm) hhead
      exact ih hst' hrest htail

/-- An episode ends ahead of SND.UNA and within what was sent. -/
structure Episode (c : Connection F) : Prop where
  ahead : c.cong.inRecovery = true → before c.send.una c.recover = true
  sent : c.cong.inRecovery = true → after c.recover c.send.nxt = false
  flight : c.send.una = c.send.nxt → c.cong.inRecovery = false

theorem Steady.inRecovery {h : Host F} {t : Trace} {k : Cubic} {n : Nat} (hst : Steady h t k n) :
    h.conn.cong.inRecovery = k.inRecovery := by
  rw [hst.cubic]
  rfl

theorem Steady.episode {h : Host F} {t : Trace} {k : Cubic} {n : Nat} (hst : Steady h t k n) : Episode h.conn := by
  have huna := hst.una
  have hnxt := hst.nxt
  have hnear := hst.near
  have hin := hst.inRecovery
  constructor
  · intro hrec
    obtain ⟨r, hr, hlt, hle⟩ := hst.inside (hin ▸ hrec)
    rw [huna, hr, before_point (by omega) (by omega), decide_eq_true_eq]
    exact hlt
  · intro hrec
    obtain ⟨r, hr, hlt, hle⟩ := hst.inside (hin ▸ hrec)
    rw [hnxt, hr, after_point (by omega) (by omega), decide_eq_false_iff_not]
    omega
  · intro hsettled
    rw [hin, Bool.eq_false_iff]
    intro hrec
    obtain ⟨r, hr, hlt, hle⟩ := hst.inside hrec
    rw [huna, hnxt] at hsettled
    have heq := point_inj_near hst.outstanding.le (by omega) hsettled
    omega

/-- What one call may do to the episode, after `n` duplicates in a row. -/
structure EpisodeStep (n : Nat) (h : Host F) (x : Call) : Prop where
  entered : h.conn.cong.inRecovery = false → (h.call x).conn.cong.inRecovery = true →
    n = 2 ∧ Duplicates h.conn x ∧ (h.call x).conn.recover = h.conn.send.nxt
  left : h.conn.cong.inRecovery = true → (h.call x).conn.cong.inRecovery = false →
    (∃ seg now rnd, x = .onSegment seg now rnd ∧ between h.conn.send.una seg.th.ack h.conn.send.nxt = true ∧
      before seg.th.ack h.conn.recover = false) ∨ ∃ now, x = .onTick now ∧ TimesOut h.conn now
  short : h.conn.cong.inRecovery = true → (h.call x).conn.send.una ≠ h.conn.send.una →
    before (h.call x).conn.send.una h.conn.recover = true →
    (h.call x).conn.cong.inRecovery = true ∧ (h.call x).conn.recover = h.conn.recover ∧
      ∃ seg now rnd, x = .onSegment seg now rnd ∧ seg.th.ack = (h.call x).conn.send.una ∧
        ∀ s, (h.call x).conn.retx.segments.find? (fun s => !s.sacked) = some s →
          (h.conn.onSegment seg now rnd).2 = some s.packet

theorem EpisodeStep.quiet {n : Nat} {h : Host F} {x : Call} (hhelm : (h.call x).conn.helm = h.conn.helm) :
    EpisodeStep n h x := by
  obtain ⟨hsame, hcong, -⟩ : _ ∧ _ ∧ _ := by simpa [helm] using hhelm
  constructor
  · intro hout hrec
    rw [hcong, hout] at hrec
    cases hrec
  · intro hrec hout
    rw [hcong, hrec] at hout
    cases hout
  · exact fun _ hne => absurd hsame hne

theorem Steady.duplicateStep {h : Host F} {t : Trace} {k : Cubic} {n : Nat} (hst : Steady h t k n) {seg : Segment}
    {now : U64} {rnd : U32} (hd : DuplicateAck h.conn seg)
    (hhelm : (h.call (.onSegment seg now rnd)).conn.helm =
      (h.conn.send.una, (h.conn.cong.onDupAck h.conn.flightSize).1,
        if h.conn.cong.dupAcks + 1#32 = dupAckThreshold then h.conn.send.nxt else h.conn.recover)) :
    EpisodeStep n h (.onSegment seg now rnd) := by
  obtain ⟨hsame, hcong, hrec⟩ : _ ∧ _ ∧ _ := by simpa [helm, hst.cubic] using hhelm
  have hin := hst.inRecovery
  have hafter : (h.call (.onSegment seg now rnd)).conn.cong.inRecovery =
      (k.inRecovery || decide (k.dupAcks + 1#32 = dupAckThreshold)) := by
    rw [hcong]
    exact k.onDupAck_inRecovery h.conn.flightSize
  refine ⟨fun hbefore hopen => ?_, fun hbefore hclosed => ?_, fun _ hne => absurd hsame hne⟩
  · rw [hin] at hbefore
    rw [hafter, hbefore, Bool.false_or, decide_eq_true_eq] at hopen
    exact ⟨third_is_third (hst.calm hbefore) (hst.count ▸ hopen), hd, hrec.trans (if_pos hopen)⟩
  · rw [hafter, ← hin, hbefore] at hclosed
    cases hclosed

theorem Steady.episodeStep {h : Host F} {t : Trace} {k : Cubic} {n : Nat} (hst : Steady h t k n) {x : Call}
    (hx : x ≠ .useBbr) : EpisodeStep n h x := by
  rcases call_steers h hx with ⟨seg, now, rnd, out, rfl, hout, hsteers⟩ | ⟨now, rfl, hdue, hhelm⟩ | ⟨-, -, hhelm⟩
  · cases hsteers with
    | kept hhelm other => exact .quiet hhelm
    | opened hearly hhelm =>
        obtain ⟨hcong, -⟩ : _ ∧ _ := by simpa [helm] using hhelm
        have hcalm : h.conn.cong.inRecovery = false := hst.inRecovery.trans (hst.early hearly).1
        refine ⟨fun hbefore hafter => ?_, fun hrec => ?_, fun hrec => ?_⟩
        · rw [hcong, hbefore] at hafter
          cases hafter
        · cases hcalm.symm.trans hrec
        · cases hcalm.symm.trans hrec
    | full sample t₀ new past hhelm =>
        obtain ⟨hack, hcong, -⟩ : _ ∧ _ ∧ _ := by simpa [helm, hst.cubic] using hhelm
        have hcalm : (h.call (.onSegment seg now rnd)).conn.cong.inRecovery = false := by
          rw [hcong]
          exact (k.onAck_calm (F := F) _ t₀).1
        refine ⟨fun _ hafter => ?_, fun hrec _ => .inl ⟨seg, now, rnd, rfl, new, ?_⟩, fun hrec _ hshort => ?_⟩
        · cases hcalm.symm.trans hafter
        · exact Bool.eq_false_iff.mpr fun hshort => past ⟨new, hrec, hshort⟩
        · exact absurd ⟨new, hrec, hack ▸ hshort⟩ past
    | part short hhelm hole =>
        obtain ⟨hack, hcong, hrec⟩ : _ ∧ _ ∧ _ := by simpa [helm, hst.cubic] using hhelm
        have hopen : (h.call (.onSegment seg now rnd)).conn.cong.inRecovery = true := by
          rw [hcong, CongestionControl.onPartialAck_inRecovery, ← hst.cubic]
          exact short.2.1
        refine ⟨fun hbefore _ => ?_, fun _ hafter => ?_, fun _ _ _ =>
          ⟨hopen, hrec, seg, now, rnd, rfl, hack.symm, ?_⟩⟩
        · cases hbefore.symm.trans short.2.1
        · cases hafter.symm.trans hopen
        · rw [hout]
          exact hole
    | dup same hhelm => exact hst.duplicateStep same hhelm
  · obtain ⟨hsame, hcong, -⟩ : _ ∧ _ ∧ _ := by simpa [helm, hst.cubic] using hhelm
    refine ⟨fun _ hopen => ?_, fun _ _ => .inr ⟨now, rfl, hdue⟩, fun _ hne => absurd hsame hne⟩
    rw [hcong] at hopen
    cases hopen
  · exact .quiet hhelm

/-- In every run of a CUBIC connection against any peer, fast recovery is on
only between SND.UNA and what was sent. The third duplicate in a row opens it,
an acknowledgement at or past its end or the timeout closes it, and every
acknowledgement short of the end resends the first hole. -/
theorem recovery_is_an_episode {h : Host F} (hf : Fresh h) (calls : List Call) (hcubic : .useBbr ∉ calls)
    (hb : FlightBelow h calls) :
    Episode (h.run calls).conn ∧
      ∀ pre x post, calls = pre ++ x :: post → EpisodeStep (h.dupsInRow pre 0) (h.run pre) x := by
  constructor
  · obtain ⟨t, k, hst⟩ := hf.steady.run hcubic hb
    exact hst.episode
  · rintro pre x post rfl
    rw [List.mem_append, List.mem_cons, not_or, not_or] at hcubic
    obtain ⟨t, k, hst⟩ := hf.steady.run hcubic.1 hb.pre
    exact hst.episodeStep fun hx => hcubic.2.1 hx.symm

/-- Three bytes in three segments, the last two of them reordered past the loss of the first. -/
def threeDups : List Call := [.setNodelay true, .write [1#8], .pollTransmit 1#64, .write [2#8], .pollTransmit 2#64,
  .write [3#8], .pollTransmit 3#64, .onSegment (samplePeer ACK 501#32 101#32 []) 4#64 0#32,
  .onSegment (samplePeer ACK 501#32 101#32 []) 5#64 0#32, .onSegment (samplePeer ACK 501#32 101#32 []) 6#64 0#32]

/-- Three duplicates open an episode over the three bytes. -/
theorem three_duplicates_open_an_episode :
    (sample.run threeDups).conn.cong.inRecovery = true ∧ (sample.run threeDups).conn.recover = 104#32 ∧
      Episode (sample.run threeDups).conn :=
  ⟨by decide +kernel, by decide +kernel, (recovery_is_an_episode sample_fresh threeDups (by decide)
    (by decide +kernel)).1⟩

/-- What opening an episode writes: the slow-start threshold and the window it
is taken from, and the end of the episode. -/
def reduction (c : Connection F) : Option (U32 × U32) × U32 :=
  (match c.cong with
    | .cubic k => some (k.ssthresh, k.wMax)
    | .bbr _ => none, c.recover)

/-- In recovery, the count of duplicates stands at the threshold once more: a
partial acknowledgement has reset it, or it has wrapped. -/
def Reenters (c : Connection F) (x : Call) : Prop :=
  c.cong.inRecovery = true ∧ Duplicates c x ∧ c.cong.dupAcks + 1#32 = dupAckThreshold

instance (c : Connection F) (x : Call) : Decidable (Reenters c x) := inferInstanceAs (Decidable (_ ∧ _))

theorem call_cubic {h : Host F} {k : Cubic} (hk : h.conn.cong = .cubic k) {x : Call} (hx : x ≠ .useBbr) :
    ∃ k', (h.call x).conn.cong = .cubic k' := by
  have hof : ∀ {cong una stop}, (h.call x).conn.helm = (una, cong, stop) → (∃ k', cong = .cubic k') →
      ∃ k', (h.call x).conn.cong = .cubic k' := by
    rintro cong una stop hhelm ⟨k', rfl⟩
    exact ⟨k', congrArg (fun p => p.2.1) hhelm⟩
  rcases call_steers h hx with ⟨seg, now, rnd, out, rfl, hout, hsteers⟩ | ⟨now, rfl, hdue, hhelm⟩ | ⟨-, -, hhelm⟩
  · cases hsteers with
    | kept hhelm => exact hof hhelm ⟨k, hk⟩
    | opened _ hhelm => exact hof hhelm ⟨k, hk⟩
    | full _ _ _ _ hhelm => exact hof hhelm ⟨_, by rw [hk]; rfl⟩
    | part _ hhelm => exact hof hhelm ⟨_, by rw [hk]; rfl⟩
    | dup _ hhelm => exact hof hhelm ⟨_, by rw [hk]; rfl⟩
  · exact hof hhelm ⟨_, by rw [hk]; rfl⟩
  · exact hof hhelm ⟨k, hk⟩

theorem reduction_eq {c : Connection F} {k : Cubic} (hk : c.cong = .cubic k) :
    reduction c = (some (k.ssthresh, k.wMax), c.recover) := by
  rw [reduction, hk]

theorem call_reduction {h : Host F} {k : Cubic} (hk : h.conn.cong = .cubic k) {x : Call} (hx : x ≠ .useBbr)
    (hbefore : h.conn.cong.inRecovery = true) (hin : (h.call x).conn.cong.inRecovery = true)
    (hno : ¬ Reenters h.conn x) : reduction (h.call x).conn = reduction h.conn := by
  have hquiet : (h.call x).conn.cong = h.conn.cong → (h.call x).conn.recover = h.conn.recover →
      reduction (h.call x).conn = reduction h.conn := by
    intro hcong hrec
    rw [reduction, reduction, hcong, hrec]
  rcases call_steers h hx with ⟨seg, now, rnd, out, rfl, hout, hsteers⟩ | ⟨now, rfl, hdue, hhelm⟩ | ⟨-, -, hhelm⟩
  · cases hsteers with
    | kept hhelm other =>
        obtain ⟨-, hcong, hrec⟩ : _ ∧ _ ∧ _ := by simpa [helm] using hhelm
        exact hquiet hcong hrec
    | opened hearly hhelm =>
        obtain ⟨hcong, hrec⟩ : _ ∧ _ := by simpa [helm] using hhelm
        exact hquiet hcong hrec
    | full sample t₀ new past hhelm =>
        obtain ⟨-, hcong, -⟩ : _ ∧ _ ∧ _ := by simpa [helm, hk] using hhelm
        rw [hcong] at hin
        exact nomatch (k.onAck_calm (F := F) (seg.th.ack - h.conn.send.una) t₀).1.symm.trans hin
    | part short hhelm hole =>
        obtain ⟨-, hcong, hrec⟩ : _ ∧ _ ∧ _ := by simpa [helm, hk] using hhelm
        have hpart : (h.call (.onSegment seg now rnd)).conn.cong =
            .cubic (k.onPartialAck (seg.th.ack - h.conn.send.una)) := hcong
        rw [reduction_eq hpart, reduction_eq hk, hrec]
        simp only [Cubic.onPartialAck]
    | dup same hhelm =>
        obtain ⟨-, hcong, hrec⟩ : _ ∧ _ ∧ _ := by simpa [helm, hk] using hhelm
        have hearlier : k.dupAcks + 1#32 ≠ dupAckThreshold := by
          intro hhit
          refine hno ⟨hbefore, same, ?_⟩
          rw [hk]
          exact hhit
        obtain ⟨hss, hw⟩ := k.onDupAck_reduction h.conn.flightSize hearlier
        have hdup : (h.call (.onSegment seg now rnd)).conn.cong = .cubic (k.onDupAck h.conn.flightSize).1 := hcong
        have hkeep : (CongestionControl.cubic k : CongestionControl F).dupAcks + 1#32 ≠ dupAckThreshold := hearlier
        rw [reduction_eq hdup, reduction_eq hk, hrec, if_neg hkeep, hss, hw]
  · obtain ⟨-, hcong, -⟩ : _ ∧ _ ∧ _ := by simpa [helm, hk] using hhelm
    rw [hcong] at hin
    cases hin
  · obtain ⟨-, hcong, hrec⟩ : _ ∧ _ ∧ _ := by simpa [helm] using hhelm
    exact hquiet hcong hrec

theorem run_cubic {h : Host F} (hk : ∃ k, h.conn.cong = .cubic k) {calls : List Call} (hcubic : .useBbr ∉ calls) :
    ∃ k, (h.run calls).conn.cong = .cubic k := by
  induction calls generalizing h with
  | nil => exact hk
  | cons x calls ih =>
      obtain ⟨hx, hrest⟩ := not_or.mp (mt List.mem_cons.mpr hcubic)
      obtain ⟨k, hk⟩ := hk
      exact ih (call_cubic hk fun heq => hx heq.symm) hrest

theorem run_reduction {h : Host F} (hk : ∃ k, h.conn.cong = .cubic k) {calls : List Call} (hcubic : .useBbr ∉ calls)
    (hno : h.Throughout (fun c x => ¬ Reenters c x) calls)
    (hon : ∀ some rest, calls = some ++ rest → (h.run some).conn.cong.inRecovery = true) :
    reduction (h.run calls).conn = reduction h.conn := by
  induction calls generalizing h with
  | nil => rfl
  | cons x calls ih =>
      obtain ⟨hx, hrest⟩ := not_or.mp (mt List.mem_cons.mpr hcubic)
      obtain ⟨k, hk⟩ := hk
      have hx' : x ≠ .useBbr := fun heq => hx heq.symm
      have hlater := ih (call_cubic hk hx') hrest hno.2 fun some rest heq => hon (x :: some) rest (by rw [heq]; rfl)
      exact hlater.trans (call_reduction hk hx' (hon [] (x :: calls) rfl) (hon [x] calls rfl) hno.1)

/-- In every run of a CUBIC connection in which no duplicate enters recovery a
second time, an episode keeps the reduction it began with. -/
theorem one_reduction_unless_reentered {h : Host F} (hf : Fresh h) (calls : List Call) (hcubic : .useBbr ∉ calls)
    (hno : h.Throughout (fun c x => ¬ Reenters c x) calls) :
    ∀ pre episode post, calls = pre ++ (episode ++ post) →
      (∀ some rest, episode = some ++ rest → (h.run (pre ++ some)).conn.cong.inRecovery = true) →
      reduction (h.run (pre ++ episode)).conn = reduction (h.run pre).conn := by
  rintro pre episode post rfl hon
  simp only [List.mem_append, not_or] at hcubic
  have hepisode := (throughout_append.mp (throughout_append.mp hno).2).1
  rw [run_append]
  refine run_reduction (run_cubic ⟨{}, hf.steady.cubic⟩ hcubic.1) hcubic.2.1 hepisode fun some rest heq => ?_
  rw [← run_append]
  exact hon some rest heq

/-- Two more duplicates of the first three. -/
def dupsOn : List Call := [.onSegment (samplePeer ACK 501#32 101#32 []) 7#64 0#32,
  .onSegment (samplePeer ACK 501#32 101#32 []) 8#64 0#32]

theorem duplicates_in_a_row_keep_the_reduction :
    reduction (sample.run (threeDups ++ dupsOn)).conn = reduction (sample.run threeDups).conn := by
  refine one_reduction_unless_reentered sample_fresh (threeDups ++ (dupsOn ++ [])) (by decide) (by decide +kernel)
    threeDups dupsOn [] rfl ?_
  have hon : ∀ n ≤ 2, (sample.run (threeDups ++ dupsOn.take n)).conn.cong.inRecovery = true := by decide +kernel
  intro some rest heq
  have hlen : some.length ≤ 2 := by
    rw [show 2 = dupsOn.length from rfl, heq, List.length_append]
    exact Nat.le_add_right _ _
  have htake : dupsOn.take some.length = some := by rw [heq, List.take_left]
  exact htake ▸ hon some.length hlen

/-- One byte more, the acknowledgement of the first, and three duplicates of it. -/
def dupsAgain : List Call := [.write [4#8], .pollTransmit 7#64,
    .onSegment (samplePeer ACK 501#32 102#32 []) 8#64 0#32,
  .onSegment (samplePeer ACK 501#32 102#32 []) 9#64 0#32, .onSegment (samplePeer ACK 501#32 102#32 []) 10#64 0#32,
  .onSegment (samplePeer ACK 501#32 102#32 []) 11#64 0#32]

/-- A partial acknowledgement resets the count, and three duplicates later the
same episode is reduced again and its end moved. -/
theorem partial_ack_lets_recovery_be_reentered :
    (∀ n ≤ 6, (sample.run (threeDups ++ dupsAgain.take n)).conn.cong.inRecovery = true) ∧
      reduction (sample.run threeDups).conn = (some (2920#32, 1460#32), 104#32) ∧
      reduction (sample.run (threeDups ++ dupsAgain)).conn = (some (8175#32, 11679#32), 105#32) := by
  decide +kernel

end Host
end
end TcpStack
