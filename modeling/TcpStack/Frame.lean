import TcpStack.Reaction

/-!
# What the calls leave alone

Transmission and the timers move the send side, the queue and their own
clocks. Everything else of the control block is the same afterwards, up to the
timers that give a connection up. A segment leaves alone what the handshake
settled, but for the SYN-ACK of an active open.
-/
namespace TcpStack.Connection
open Tcp

variable {F : Type} [F64 F]

/-- The control block without what transmission and the timers move. -/
def still (c : Connection F) : Connection F :=
  { c with
    send := { c.send with nxt := 0#32 }
    retx := {}
    rtt := {}
    cong := .default
    sendBuf := []
    tsVal := 0#32
    persistMs := 0#64
    tlpDeadlineMs := 0#64
    tlpSent := false
    keepaliveProbesSent := 0#32
    nextSendMs := 0#64 }

theorem still_state (c : Connection F) : c.still.state = c.state := rfl

section
variable {α : Type} {P : Connection F → α}

theorem fillPipe_keeps (htransmit : ∀ (c : Connection F) n flags now, P (c.transmit n flags now).1 = P c)
    (limit : U32) (now : U64) (fuel : Nat) : ∀ c : Connection F, P (fillPipe limit now fuel c).1 = P c := by
  induction fuel with
  | zero => exact fun c => rfl
  | succ fuel ih =>
      intro c
      simp only [fillPipe]
      split_ifs
      · rfl
      · rfl
      · rfl
      · exact (ih _).trans (htransmit c _ _ now)

theorem drain_keeps (htransmit : ∀ (c : Connection F) n flags now, P (c.transmit n flags now).1 = P c)
    (hpace : ∀ (c : Connection F) t, P { c with nextSendMs := t } = P c) (pacing : F) (now : U64) (fuel : Nat) :
    ∀ c : Connection F, P (drain pacing now fuel c).1 = P c := by
  have hpaced : ∀ {c c' : Connection F} {n : Nat}, c.pace pacing n now = some c' → P c' = P c := by
    intro c c' n h
    unfold pace at h
    split_ifs at h <;> obtain rfl := Option.some.inj h
    · exact hpace c _
    · rfl
  induction fuel with
  | zero => exact fun c => rfl
  | succ fuel ih =>
      intro c
      simp only [drain]
      split_ifs
      · rfl
      · rfl
      · rfl
      · cases hp : c.pace pacing _ now with
        | none => rfl
        | some c' => exact (ih _).trans ((htransmit c' _ _ now).trans (hpaced hp))

/-- What neither a transmission nor the clocks and the queue touch, polling leaves alone. -/
theorem pollTransmit_keeps (htransmit : ∀ (c : Connection F) n flags now, P (c.transmit n flags now).1 = P c)
    (hclocks : ∀ (c : Connection F) ts q t deadline sent, P { c with
      tsVal := ts, retx := q, nextSendMs := t, tlpDeadlineMs := deadline, tlpSent := sent } = P c)
    (c : Connection F) (now : U64) : P (c.pollTransmit now).1 = P c := by
  have hstamp : P { c with tsVal := now.setWidth 32 } = P c :=
      hclocks c _ c.retx c.nextSendMs c.tlpDeadlineMs c.tlpSent
  have harm : ∀ d : Connection F, P (d.armProbe now) = P d := by
    intro d
    unfold armProbe
    split_ifs
    · exact hclocks d d.tsVal d.retx d.nextSendMs _ d.tlpSent
    · rfl
    · exact hclocks d d.tsVal d.retx d.nextSendMs _ _
  unfold pollTransmit
  split_ifs
  · rfl
  dsimp only
  split_ifs
  · exact (fillPipe_keeps htransmit _ now _ _).trans (hclocks c _ _ c.nextSendMs c.tlpDeadlineMs c.tlpSent)
  · refine (harm _).trans ((drain_keeps htransmit (fun d t => ?_) _ now _ _).trans hstamp)
    exact hclocks d d.tsVal d.retx t d.tlpDeadlineMs d.tlpSent

end

theorem pollTransmit_still (c : Connection F) (now : U64) : (c.pollTransmit now).1.still = c.still :=
  pollTransmit_keeps (fun _ _ _ _ => rfl) (fun _ _ _ _ _ _ => rfl) c now

theorem tickProbe_eq (c : Connection F) (now : U64) : ∃ retx deadline sent,
    (c.tickProbe now).1 = { c with retx := retx, tlpDeadlineMs := deadline, tlpSent := sent } := by
  unfold tickProbe
  split_ifs
  · split <;> exact ⟨_, _, _, rfl⟩
  · exact ⟨_, _, _, rfl⟩

theorem tickDue_eq (c : Connection F) (now : U64) : ∃ retx rtt cong,
    (c.tickDue now).1 = { c with retx := retx, rtt := rtt, cong := cong } := by
  simp only [tickDue]
  split_ifs <;> exact ⟨_, _, _, rfl⟩

/-- The retransmission timers touch the queue, their own clocks and the congestion state. -/
theorem timers_eq (c : Connection F) (now : U64) : ∃ retx rtt cong deadline sent,
    (((c.tickRack now).1.tickProbe now).1.tickDue now).1 =
      { c with retx := retx, rtt := rtt, cong := cong, tlpDeadlineMs := deadline, tlpSent := sent } := by
  obtain ⟨q, t, sent, hp⟩ := tickProbe_eq (c.tickRack now).1 now
  obtain ⟨q', r, g, hd⟩ := tickDue_eq ((c.tickRack now).1.tickProbe now).1 now
  rw [hd, hp]
  exact ⟨_, _, _, _, _, rfl⟩

theorem tickProbe_still (c : Connection F) (now : U64) : (c.tickProbe now).1.still = c.still := by
  obtain ⟨q, t, sent, heq⟩ := tickProbe_eq c now
  rw [heq]
  rfl

theorem tickDue_still (c : Connection F) (now : U64) : (c.tickDue now).1.still = c.still := by
  obtain ⟨q, r, g, heq⟩ := tickDue_eq c now
  rw [heq]
  rfl

theorem tickPersist_still (c : Connection F) (now : U64) : (c.tickPersist now).1.still = c.still := by
  unfold tickPersist
  split_ifs <;> rfl

def KeptOrClosed (c c' : Connection F) : Prop :=
  c'.still = c.still ∨ c'.still = { c with state := .closed }.still

theorem KeptOrClosed.state_eq {c c' : Connection F} (h : KeptOrClosed c c') :
    c'.state = c.state ∨ c'.state = .closed := by
  rcases h with h | h <;> rw [← still_state c', h]
  · exact .inl rfl
  · exact .inr rfl

theorem KeptOrClosed.trans {c c₁ c₂ : Connection F} (h : KeptOrClosed c c₁) (h' : KeptOrClosed c₁ c₂) :
    KeptOrClosed c c₂ := by
  have hclosed : ∀ {d d' : Connection F}, d'.still = d.still →
      { d' with state := .closed }.still = { d with state := .closed }.still := by
    intro d d' heq
    exact congrArg (fun e : Connection F => { e with state := .closed }) heq
  rcases h with h | h <;> rcases h' with h' | h'
  · exact .inl (h'.trans h)
  · exact .inr (h'.trans (hclosed h))
  · exact .inr (h'.trans h)
  · refine .inr (h'.trans ?_)
    exact hclosed (d := { c with state := .closed }) h

theorem reap_eq (c : Connection F) (now : U64) : ∃ s, c.reap now = { c with state := s } := by
  simp only [reap]
  split_ifs <;> exact ⟨_, rfl⟩

theorem reap_kept (c : Connection F) (now : U64) : KeptOrClosed c (c.reap now) := by
  unfold reap
  dsimp only
  split_ifs
  · exact .inr rfl
  · exact .inr rfl
  · exact .inr rfl
  · exact .inl rfl

theorem tickKeepalive_kept (c : Connection F) (now : U64) : KeptOrClosed c (c.tickKeepalive now).1 := by
  unfold tickKeepalive
  dsimp only
  split_ifs
  · exact .inr rfl
  · exact .inl rfl
  · exact .inl rfl
  · exact .inl rfl

theorem onTick_kept (c : Connection F) (now : U64) : KeptOrClosed c (c.onTick now).1 := by
  have hstamp : KeptOrClosed c { c with tsVal := now.setWidth 32 } := .inl rfl
  unfold onTick
  dsimp only
  refine (hstamp.trans (reap_kept _ now)).trans (KeptOrClosed.trans ?_ (tickKeepalive_kept _ now))
  refine .inl ?_
  rw [tickPersist_still, tickDue_still, tickProbe_still]
  rfl

theorem onSegment_byState {c : Connection F} (hs : c.isSynchronized = true) {seg : Segment}
    (hrst : hasFlag seg.th.flags RST = false) (hsyn : hasFlag seg.th.flags SYN = false) (now : U64) (rnd : U32) :
    c.onSegment seg now rnd = (c.arrive now).onState seg.th seg.payload seg.opts now rnd := by
  have hds : (c.arrive now).isSynchronized = true := hs
  unfold onSegment
  generalize c.arrive now = d at hds
  have hopen : d.state ≠ .synSent ∧ d.state ≠ .synRcvd := by
    constructor <;> intro h <;> simp [isSynchronized, h] at hds
  simp only [hrst, hsyn, Bool.false_eq_true, if_false, hopen.1, Bool.false_and, onSynRcvd, hopen.2]

/-- The initial sequence numbers and the negotiated options. -/
def terms (c : Connection F) : U32 × U32 × U16 × Bool × WScale × Bool :=
  (c.send.iss, c.recv.irs, c.sendMss, c.tsEnabled, c.sndWscale, c.sackOk)

def charter (c : Connection F) : (U32 × U32 × U16 × Bool × WScale × Bool) × Endpoint × Endpoint :=
  (c.terms, c.localEnd, c.remoteEnd)

theorem still_charter (c : Connection F) : c.still.charter = c.charter := rfl

theorem KeptOrClosed.charter {c c' : Connection F} (h : KeptOrClosed c c') : c'.charter = c.charter := by
  rw [← still_charter c']
  rcases h with h | h <;> rw [h] <;> rfl

theorem close_charter (c : Connection F) (now : U64) : (c.close now).1.charter = c.charter := by
  unfold close
  split <;> rfl

theorem paws_eq {c d : Connection F} {th : TcpHeader} {opts : TcpOptions} (h : c.paws th opts = some d) :
    ∃ t, d = { c with tsRecent := t } := by
  unfold paws at h
  split at h
  · split_ifs at h <;> obtain rfl := Option.some.inj h <;> exact ⟨_, rfl⟩
  · obtain rfl := Option.some.inj h
    exact ⟨_, rfl⟩

/-- What an update leaves of a connection. The estimator takes one sample at most,
and the count of keepalive probes begins anew at most. -/
structure Spares (c c' : Connection F) : Prop where
  charter : c'.charter = c.charter
  sendBuf : c'.sendBuf = c.sendBuf
  nagle : c'.nagle = c.nagle
  rtt : c'.rtt = c.rtt ∨ ∃ sample, c'.rtt = c.rtt.sample sample
  probes : c'.keepaliveProbesSent = c.keepaliveProbesSent ∨ c'.keepaliveProbesSent = 0#32

theorem Update.spares {seg : Segment} {now : U64} {rnd : U32} {c c' : Connection F} (h : Update seg now rnd c c') :
    Spares c c' := by
  cases h with
  | arrive => exact ⟨rfl, rfl, rfl, .inl rfl, .inr rfl⟩
  | challenge =>
      simp only [maybeChallenge]
      split_ifs <;> exact ⟨rfl, rfl, rfl, .inl rfl, .inl rfl⟩
  | paws current =>
      obtain ⟨t, rfl⟩ := paws_eq current
      exact ⟨rfl, rfl, rfl, .inl rfl, .inl rfl⟩
  | newAck =>
      have hsampled : ∀ m : Option U64, (m.map c.rtt.sample).getD c.rtt = c.rtt ∨
          ∃ sample, (m.map c.rtt.sample).getD c.rtt = c.rtt.sample sample := by
        intro m
        cases m with
        | none => exact .inl rfl
        | some rttMs => exact .inr ⟨rttMs, rfl⟩
      simp only [onNewAck]
      split_ifs <;> exact ⟨rfl, rfl, rfl, hsampled _, .inl rfl⟩
  | dupAck =>
      simp only [onDupAck]
      split_ifs <;> exact ⟨rfl, rfl, rfl, .inl rfl, .inl rfl⟩
  | deliver =>
      simp only [Connection.deliver]
      split_ifs <;> exact ⟨rfl, rfl, rfl, .inl rfl, .inl rfl⟩
  | goto | linger | advance | dropAcked | window | mark | pend | takeFin => exact ⟨rfl, rfl, rfl, .inl rfl, .inl rfl⟩

theorem Reacts.charter {seg : Segment} {now : U64} {rnd : U32} {c : Connection F} {r : Connection F × Option Bytes}
    (h : Reacts seg now rnd c r) : r.1.charter = c.charter :=
  h.preserves (P := fun d => d.charter = c.charter) (fun hu hd => hu.spares.charter.trans hd) rfl

theorem onSegment_charter {c : Connection F} (hs : c.state ≠ .synSent) (seg : Segment) (now : U64) (rnd : U32) :
    (c.onSegment seg now rnd).1.charter = c.charter := by
  rcases c.onSegment_reacts seg now rnd with h | ⟨hsent, -⟩
  · exact h.charter
  · exact absurd hsent hs

/-- What an active open settles on this SYN-ACK. -/
def openTerms (c : Connection F) (seg : Segment) : U32 × U32 × U16 × Bool × WScale × Bool :=
  (c.send.iss, seg.th.seq, (seg.opts.mss.map (umin · ourMss)).getD c.sendMss,
    seg.opts.timestamps.isSome || c.tsEnabled, seg.opts.windowScale.getD c.sndWscale,
    seg.opts.sackPermitted || c.sackOk)

theorem onSegment_synSent {c : Connection F} (hs : c.state = .synSent) (seg : Segment) (now : U64) (rnd : U32) :
    ((c.onSegment seg now rnd).1.terms = c.terms ∧
      ((c.onSegment seg now rnd).1.state = .synSent ∨
        (hasFlag seg.th.flags RST = true ∧ (c.onSegment seg now rnd).1.state = .closed))) ∨
    (hasFlag seg.th.flags SYN = true ∧ hasFlag seg.th.flags ACK = true ∧ seg.th.ack = c.send.nxt ∧
      (c.onSegment seg now rnd).1.state = .established ∧ (c.onSegment seg now rnd).1.terms = c.openTerms seg) := by
  have hreset : Reacts seg now rnd (c.arrive now) ((c.arrive now).onRst seg.th now rnd) := onRst_reacts
  unfold onSegment
  dsimp only
  split_ifs with hrst hsyn
  · refine .inl ⟨congrArg Prod.fst hreset.charter, ?_⟩
    unfold onRst
    rw [if_pos (show (c.arrive now).state = .synSent from hs)]
    split_ifs
    · exact .inr ⟨hrst, rfl⟩
    · exact .inl hs
  · unfold onSynSent
    split_ifs with hopen
    · right
      obtain ⟨hflags, hack⟩ := hopen
      obtain ⟨hsynf, hackf⟩ := hasFlag_of_and hflags
      exact ⟨hsynf, hackf, hack, rfl, rfl⟩
    · exact .inl ⟨rfl, .inl hs⟩
  · exact absurd hs hsyn
  · exact absurd hs hsyn

end TcpStack.Connection

namespace TcpStack.Host

variable {F : Type} [F64 F]

theorem call_charter {h : Host F} {x : Call} (hs : h.conn.state ≠ .synSent ∨ x.isLocal = true) :
    (h.call x).conn.charter = h.conn.charter := by
  cases x with
  | write | takeReceived | setNodelay | setKeepalive | useBbr => rfl
  | pollTransmit now => exact Connection.KeptOrClosed.charter (.inl (h.conn.pollTransmit_still now))
  | onTick now =>
      have ht := (h.conn.onTick_kept now).charter
      simp only [call]
      generalize h.conn.onTick now = r at ht
      exact ht
  | close now =>
      have ht := h.conn.close_charter now
      simp only [call]
      split <;> rename_i heq <;> rw [heq] at ht <;> exact ht
  | onSegment seg now rnd =>
      exact Connection.onSegment_charter (hs.resolve_right (by simp [Call.isLocal])) seg now rnd

theorem call_terms {h : Host F} {x : Call} (hs : h.conn.state ≠ .synSent ∨ x.isLocal = true) :
    (h.call x).conn.terms = h.conn.terms := congrArg Prod.fst (call_charter hs)

end TcpStack.Host
