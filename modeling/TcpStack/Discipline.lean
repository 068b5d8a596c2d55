import TcpStack.Frame
import TcpStack.Opening

/-!
# The discipline of the state machine

Which state a call can lead to, in which states the peer's FIN has been
consumed, and what is left of sending once our own FIN is out.
-/
namespace TcpStack
open Tcp TcpStack.Seq

variable {F : Type} [F64 F]

def State.successors : State → List State
  | .synSent => [.established, .closed]
  | .synRcvd => [.established, .closeWait, .closed]
  | .established => [.closeWait, .finWait1, .closed]
  | .closeWait => [.lastAck, .closed]
  | .lastAck => [.closed]
  | .finWait1 => [.finWait2, .closing, .timeWait, .closed]
  | .finWait2 => [.timeWait, .closed]
  | .closing => [.timeWait, .closed]
  | .timeWait => [.closed]
  | .closed => []

/-- The states before the peer's FIN, and the states after it but for CLOSED. -/
def State.beforePeerFin : List State := [.synSent, .synRcvd, .established, .finWait1, .finWait2]
def State.afterPeerFin : List State := [.closeWait, .lastAck, .closing, .timeWait]

/-- What one call does to the state and to the mark of the peer's FIN. -/
inductive Turn : State × Bool → State × Bool → Prop where
  | stay (p : State × Bool) : Turn p p
  | openActive (b : Bool) : Turn (.synSent, b) (.established, b)
  | openPassive (b : Bool) : Turn (.synRcvd, b) (.established, b)
  | openFin (b : Bool) : Turn (.synRcvd, b) (.closeWait, true)
  | peerFin (b : Bool) : Turn (.established, b) (.closeWait, true)
  | ourFin (b : Bool) : Turn (.established, b) (.finWait1, b)
  | lastFin (b : Bool) : Turn (.closeWait, b) (.lastAck, b)
  | finAcked (b : Bool) : Turn (.finWait1, b) (.finWait2, b)
  | finCrossed (b : Bool) : Turn (.finWait1, b) (.closing, true)
  | finBoth (b : Bool) : Turn (.finWait1, b) (.timeWait, true)
  | finFollowed (b : Bool) : Turn (.finWait2, b) (.timeWait, true)
  | crossedAcked (b : Bool) : Turn (.closing, b) (.timeWait, b)
  | drop (s : State) (b : Bool) : Turn (s, b) (.closed, b)

theorem Turn.edge {p q : State × Bool} (h : Turn p q) : q.1 = p.1 ∨ q.1 ∈ p.1.successors := by
  cases h with
  | stay => exact .inl rfl
  | drop s b => cases s <;> simp [State.successors]
  | _ => exact .inr (by simp [State.successors])

theorem Turn.synRcvd {p q : State × Bool} (h : Turn p q) (hq : q.1 = .synRcvd) : p.1 = .synRcvd := by
  cases h with
  | stay => exact hq
  | _ => cases hq

theorem Turn.peerFin_mono {p q : State × Bool} (h : Turn p q) (hp : p.2 = true) : q.2 = true := by
  cases h <;> first | exact hp | rfl

/-- The mark of the peer's FIN agrees with the state. -/
structure Marked (p : State × Bool) : Prop where
  before : p.1 ∈ State.beforePeerFin → p.2 = false
  after : p.1 ∈ State.afterPeerFin → p.2 = true

theorem Marked.turn {p q : State × Bool} (h : Marked p) (ht : Turn p q) : Marked q := by
  obtain ⟨hb, ha⟩ := h
  cases ht with
  | stay => exact ⟨hb, ha⟩
  | _ => constructor <;> simp_all [State.beforePeerFin, State.afterPeerFin]

theorem Marked.afterFin {p : State × Bool} (h : Marked p) (hp : p.2 = true) :
    p.1 = .closeWait ∨ p.1 = .lastAck ∨ p.1 = .closing ∨ p.1 = .timeWait ∨ p.1 = .closed := by
  have hno : p.1 ∉ State.beforePeerFin := fun hmem => by simp [h.before hmem] at hp
  obtain ⟨s, b⟩ := p
  cases s <;> simp_all [State.beforePeerFin]

namespace Connection

def phase (c : Connection F) : State × Bool := (c.state, c.peerFin)

theorem still_phase (c : Connection F) : c.still.phase = c.phase := rfl

theorem KeptOrClosed.turn {c c' : Connection F} (h : KeptOrClosed c c') : Turn c.phase c'.phase := by
  rw [← still_phase c']
  rcases h with h | h
  · rw [h]
    exact .stay _
  · rw [h]
    exact .drop _ _

theorem pollTransmit_turn (c : Connection F) (now : U64) : Turn c.phase (c.pollTransmit now).1.phase :=
  KeptOrClosed.turn (.inl (pollTransmit_still c now))

theorem close_turn (c : Connection F) (now : U64) : Turn c.phase (c.close now).1.phase := by
  unfold close
  split
  · rename_i hs
    rw [phase, hs]
    exact .ourFin _
  · rename_i hs
    rw [phase, hs]
    exact .lastFin _
  · exact .stay _

theorem maybeChallenge_phase (c : Connection F) (now : U64) (rnd : U32) :
    (c.maybeChallenge now rnd).1.phase = c.phase := by
  unfold maybeChallenge
  dsimp only
  split_ifs <;> rfl

theorem onRst_turn (c : Connection F) (th : TcpHeader) (now : U64) (rnd : U32) :
    Turn c.phase (c.onRst th now rnd).1.phase := by
  unfold onRst
  split_ifs
  · exact .drop _ _
  · exact .stay _
  · exact .stay _
  · exact .drop _ _
  · rw [maybeChallenge_phase]
    exact .stay _
  · exact .stay _

theorem onSynSent_turn {c : Connection F} (hs : c.state = .synSent) (th : TcpHeader) (opts : TcpOptions)
    (now : U64) : Turn c.phase (c.onSynSent th opts now).1.phase := by
  unfold onSynSent
  split
  · rw [phase, hs]
    exact .openActive _
  · exact .stay _

theorem processAck_phase (c : Connection F) (th : TcpHeader) (payload : Bytes) (opts : TcpOptions)
    (prevWnd newWnd : U32) (now : U64) :
    (c.processAck th payload opts prevWnd newWnd now).1.phase = c.phase := by
  simp only [processAck, onNewAck, onDupAck]
  split_ifs <;> rfl

theorem deliver_phase (c : Connection F) (seq : U32) (payload : Bytes) :
    (c.deliver seq payload).phase = c.phase := by
  rw [deliver_eq]
  rfl

/-- The open states are left for CLOSE_WAIT only, and from ESTABLISHED only. -/
def OpenTurn (c c' : Connection F) : Prop :=
  c'.phase = c.phase ∨ (c.state = .established ∧ c'.phase = (.closeWait, true))

theorem OpenTurn.of_phase {c d c' : Connection F} (hd : d.phase = c.phase) (h : OpenTurn d c') :
    OpenTurn c c' := by
  have hs : d.state = c.state := congrArg Prod.fst hd
  rcases h with h | ⟨hest, h⟩
  · exact .inl (h.trans hd)
  · exact .inr ⟨hs ▸ hest, h⟩

theorem receive_openTurn (c : Connection F) (th : TcpHeader) (payload : Bytes) :
    OpenTurn c (c.receive th payload).1 := by
  refine .of_phase (deliver_phase c th.seq payload) ?_
  unfold receive
  generalize c.deliver th.seq payload = d
  dsimp only
  split_ifs with hre hfin hdue hdata hdue' hdata'
  · exact .inl rfl
  · exact .inr ⟨hdue.1, rfl⟩
  · exact .inl rfl
  · exact .inl rfl
  · exact .inr ⟨hdue'.1, rfl⟩
  · exact .inl rfl
  · exact .inl rfl

theorem onOpen_openTurn (c : Connection F) (th : TcpHeader) (payload : Bytes) (opts : TcpOptions)
    (now : U64) (rnd : U32) : OpenTurn c (c.onOpen th payload opts now rnd).1 := by
  unfold onOpen
  cases hp : c.paws th opts with
  | none => exact .inl rfl
  | some d =>
      have hd : (d.updateWindow (d.scaledWindow th)).phase = c.phase := by
        have hcore := paws_core hp
        exact congrArg (fun k : Core => (k.state, k.peerFin)) hcore
      refine .of_phase hd ?_
      dsimp only
      generalize d.updateWindow (d.scaledWindow th) = u
      split_ifs
      · exact .inl (maybeChallenge_phase u now rnd)
      · have hpa := processAck_phase u th payload opts d.send.wnd (d.scaledWindow th) now
        generalize u.processAck th payload opts d.send.wnd (d.scaledWindow th) now = r at hpa
        obtain ⟨v, pkt⟩ := r
        cases pkt with
        | some pkt => exact .inl hpa
        | none => exact .of_phase hpa (receive_openTurn v th payload)
      · exact receive_openTurn u th payload

theorem onFinWait1_turn {c : Connection F} (hs : c.state = .finWait1) (th : TcpHeader) (payload : Bytes)
    (now : U64) : Turn c.phase (c.onFinWait1 th payload now).1.phase := by
  unfold onFinWait1
  dsimp only
  generalize hb : (if c.ackedOurFin th = true then c.dropAcked th.ack now else c) = b
  have hbc : b.phase = c.phase := by
    rw [← hb]
    split_ifs <;> rfl
  have hd : (b.deliver th.seq payload).phase = (.finWait1, c.peerFin) := by
    rw [deliver_phase, hbc, phase, hs]
  rw [phase, hs]
  generalize b.deliver th.seq payload = d at hd
  have hmark : d.peerFin = c.peerFin := congrArg Prod.snd hd
  split_ifs
  · exact .finBoth _
  · exact .finCrossed _
  · exact hmark ▸ .finAcked _
  · exact hd ▸ .stay _
  · exact hmark ▸ .finAcked _
  · exact hd ▸ .stay _

theorem onFinWait2_turn {c : Connection F} (hs : c.state = .finWait2) (th : TcpHeader) (payload : Bytes)
    (now : U64) : Turn c.phase (c.onFinWait2 th payload now).1.phase := by
  unfold onFinWait2
  have hd : (c.deliver th.seq payload).phase = (.finWait2, c.peerFin) := by
    rw [deliver_phase, phase, hs]
  rw [phase, hs]
  generalize c.deliver th.seq payload = d at hd
  dsimp only
  split_ifs
  · exact .finFollowed _
  · exact hd ▸ .stay _
  · exact hd ▸ .stay _

theorem onLastAck_turn (c : Connection F) (th : TcpHeader) (now : U64) :
    Turn c.phase (c.onLastAck th now).1.phase := by
  unfold onLastAck
  split
  · exact .drop _ _
  · exact .stay _

theorem onClosing_turn {c : Connection F} (hs : c.state = .closing) (th : TcpHeader) (now : U64) :
    Turn c.phase (c.onClosing th now).1.phase := by
  unfold onClosing
  split
  · rw [phase, hs]
    exact .crossedAcked _
  · exact .stay _

theorem OpenTurn.turn {c c' : Connection F} (h : OpenTurn c c') : Turn c.phase c'.phase := by
  rcases h with h | ⟨hest, h⟩
  · rw [h]
    exact .stay _
  · rw [h, phase, hest]
    exact .peerFin _

theorem onState_turn (c : Connection F) (th : TcpHeader) (payload : Bytes) (opts : TcpOptions)
    (now : U64) (rnd : U32) : Turn c.phase (c.onState th payload opts now rnd).1.phase := by
  unfold onState
  cases hs : c.state with
  | established | closeWait => exact (onOpen_openTurn c th payload opts now rnd).turn
  | lastAck => exact onLastAck_turn c th now
  | finWait1 => exact onFinWait1_turn hs th payload now
  | finWait2 => exact onFinWait2_turn hs th payload now
  | closing => exact onClosing_turn hs th now
  | synSent | synRcvd | timeWait | closed => exact .stay _

theorem onSynRcvd_turn {c c' : Connection F} {th : TcpHeader} {now : U64} (hs : c.state = .synRcvd)
    (h : c.onSynRcvd th now = some c') (payload : Bytes) (opts : TcpOptions) (rnd : U32) :
    Turn c.phase (c'.onState th payload opts now rnd).1.phase := by
  unfold onSynRcvd at h
  rw [if_pos hs] at h
  split_ifs at h with hok
  have hest : c'.phase = (.established, c.peerFin) := by
    obtain rfl := Option.some.inj h
    rfl
  have hopen : c'.onState th payload opts now rnd = c'.onOpen th payload opts now rnd := by
    rw [onState, show c'.state = .established from congrArg Prod.fst hest]
  rw [hopen, phase, hs]
  rcases onOpen_openTurn c' th payload opts now rnd with hp | ⟨-, hp⟩
  · rw [hp, hest]
    exact .openPassive _
  · rw [hp]
    exact .openFin _

theorem onSegment_turn (c : Connection F) (seg : Segment) (now : U64) (rnd : U32) :
    Turn c.phase (c.onSegment seg now rnd).1.phase := by
  have ha : (c.arrive now).phase = c.phase := rfl
  rw [← ha]
  unfold onSegment
  generalize c.arrive now = d
  dsimp only
  split_ifs with hrst hs hsyn
  · exact onRst_turn d seg.th now rnd
  · exact onSynSent_turn hs seg.th seg.opts now
  · rw [maybeChallenge_phase]
    exact .stay _
  · cases hr : d.onSynRcvd seg.th now with
    | none => exact .stay _
    | some e =>
        by_cases hwait : d.state = .synRcvd
        · exact onSynRcvd_turn hwait hr seg.payload seg.opts rnd
        · obtain rfl : d = e := by simpa [onSynRcvd, hwait] using hr
          exact onState_turn d seg.th seg.payload seg.opts now rnd

end Connection

namespace Trace

/-- Every packet sent since was on the wire before or is empty. -/
def Repeats (t t' : Trace) : Prop :=
  ∃ more, t'.emitted = t.emitted ++ more ∧
    ∀ p ∈ more, p ∈ t.emitted ∨ ∃ s, decode p = some s ∧ s.payload = []

theorem Repeats.of_eq {t t' : Trace} (he : t'.emitted = t.emitted) : Repeats t t' := by
  refine ⟨[], ?_, by simp⟩
  rw [he, List.append_nil]

theorem Repeats.trans {t t₁ t₂ : Trace} (h : Repeats t t₁) (h' : Repeats t₁ t₂) : Repeats t t₂ := by
  obtain ⟨more, he, hmore⟩ := h
  obtain ⟨more', he', hmore'⟩ := h'
  refine ⟨more ++ more', ?_, fun p hp => ?_⟩
  · rw [he', he, List.append_assoc]
  · rcases List.mem_append.mp hp with hp | hp
    · exact hmore p hp
    · rcases hmore' p hp with hold | hbare
      · rw [he] at hold
        rcases List.mem_append.mp hold with hold | hnew
        · exact .inl hold
        · exact hmore p hnew
      · exact .inr hbare

theorem Step.repeats {inp : Option Segment} {t t' : Trace} (hstep : Step inp t t') (hs : Stream t)
    (hquiet : inp ≠ none ∨ ¬ t.state.PreFin) : Repeats t t' := by
  cases hstep with
  | ack _ hc _ => exact ⟨_, rfl, by simp [hc.decode, hc.payload]⟩
  | resend hq _ => exact ⟨_, rfl, by simp [hs.queued _ hq]⟩
  | data hidle hsend => exact absurd hsend.preFin (hquiet.resolve_left (not_not.mpr hidle))
  | fin _ _ hc => exact ⟨_, rfl, by simp [hc.decode, hc.payload]⟩
  | _ => exact .of_eq rfl

/-- Nothing new was sent: SND.NXT stands, and the packets repeat. -/
structure Spent (t t' : Trace) : Prop where
  nxt : t'.nxt = t.nxt
  sent : Repeats t t'

theorem Spent.of_eq {t t' : Trace} (hn : t'.nxt = t.nxt) (he : t'.emitted = t.emitted) : Spent t t' :=
  ⟨hn, .of_eq he⟩

theorem Spent.refl (t : Trace) : Spent t t := .of_eq rfl rfl

theorem Spent.trans {t t₁ t₂ : Trace} (h : Spent t t₁) (h' : Spent t₁ t₂) : Spent t t₂ :=
  ⟨h'.nxt.trans h.nxt, h.sent.trans h'.sent⟩

/-- A micro-step after our FIN: the send side stays shut. -/
theorem Step.spent {inp : Option Segment} {t t' : Trace} (hstep : Step inp t t') (hs : Stream t)
    (hpost : ¬ t.state.PreFin) : Spent t t' ∧ ¬ t'.state.PreFin := by
  have hsent := hstep.repeats hs (.inr hpost)
  cases hstep with
  | ack | resend => exact ⟨⟨rfl, hsent⟩, hpost⟩
  | data _ hsend | ackNew _ _ hsend | mark _ _ hsend => exact absurd hsend.preFin hpost
  | fin _ hsend => exact absurd hsend.sending.preFin hpost
  | deliver => exact ⟨.of_eq rfl rfl, hpost⟩
  | pendFin _ _ hest | takePending hest => exact absurd (.inr (.inr (.inl hest))) hpost
  | takeFin _ _ htaken _ => exact ⟨.of_eq rfl rfl, htaken.post⟩
  | finAcked _ _ hacked _ => exact ⟨.of_eq rfl rfl, hacked.post⟩
  | openActive _ _ _ hwait => exact absurd (.inl hwait) hpost
  | openPassive _ _ hwait => exact absurd (.inr (.inl hwait)) hpost
  | die => exact ⟨.of_eq rfl rfl, by simp [State.PreFin]⟩

theorem Steps.spent {inp : Option Segment} {t t' : Trace} (hsteps : Steps inp t t') (hs : Stream t)
    (hpost : ¬ t.state.PreFin) : Spent t t' ∧ ¬ t'.state.PreFin := by
  induction hsteps with
  | refl => exact ⟨.refl t, hpost⟩
  | tail hpre hstep ih =>
      obtain ⟨hsp, hpost'⟩ := ih
      obtain ⟨hsp', hpost''⟩ := hstep.spent (Steps.stream hpre hs) hpost'
      exact ⟨hsp.trans hsp', hpost''⟩

theorem Run.spent {t t' : Trace} {xs : List Call} (hr : Run t xs t') (hs : Stream t)
    (hpost : ¬ t.state.PreFin) : Spent t t' ∧ ¬ t'.state.PreFin := by
  induction hr with
  | nil t => exact ⟨.refl t, hpost⟩
  | @cons t t₁ t' x xs steps rest ih =>
      have happ : Spent t (t.appCall x) := by
        cases x <;> exact .of_eq rfl rfl
      have hpost₀ : ¬ (t.appCall x).state.PreFin := by
        cases x <;> exact hpost
      have hs₀ := hs.appCall x
      obtain ⟨hsp, hpost₁⟩ := steps.spent hs₀ hpost₀
      obtain ⟨hsp', hpost'⟩ := ih (steps.stream hs₀) hpost₁
      exact ⟨happ.trans (hsp.trans hsp'), hpost'⟩

end Trace

namespace Host
open Connection

theorem call_turn (h : Host F) (x : Call) : Turn h.conn.phase (h.call x).conn.phase := by
  cases x with
  | write | takeReceived | setNodelay | setKeepalive | useBbr => exact .stay _
  | pollTransmit now => exact pollTransmit_turn h.conn now
  | onTick now =>
      have ht := (onTick_kept h.conn now).turn
      simp only [call]
      generalize h.conn.onTick now = r at ht
      exact ht
  | close now =>
      have ht := close_turn h.conn now
      simp only [call]
      split <;> rename_i heq <;> rw [heq] at ht <;> exact ht
  | onSegment seg now rnd => exact onSegment_turn h.conn seg now rnd

theorem call_synSent {h : Host F} {x : Call} (hs : (h.call x).conn.state = .synSent) : h.conn.state = .synSent := by
  rcases (call_turn h x).edge with heq | hmem
  · exact heq.symm.trans hs
  · change (h.call x).conn.state ∈ h.conn.state.successors at hmem
    rw [hs] at hmem
    cases hst : h.conn.state <;> simp [hst, State.successors] at hmem

theorem Fresh.marked {h : Host F} (hf : Fresh h) : Marked h.conn.phase := by
  cases hf with
  | connect => exact ⟨fun _ => rfl, fun hmem => by simp [phase, Host.connect, connectWithIss, synSentBlock,
      State.afterPeerFin] at hmem⟩
  | accept ipSrc ipDst seg iss now rnd heq =>
      obtain ⟨⟨c, synack⟩, hr, rfl⟩ := Option.map_eq_some_iff.mp heq
      obtain ⟨rfl, -⟩ := acceptWithIssAt_eq hr
      exact ⟨fun _ => rfl, fun hmem => by simp [phase, synRcvdBlock, State.afterPeerFin] at hmem⟩
  | cookie => exact ⟨fun _ => rfl, fun hmem => by simp [phase, Host.cookie, fromSynCookie,
      State.afterPeerFin] at hmem⟩

theorem run_marked {h : Host F} (hf : Fresh h) (calls : List Call) : Marked (h.run calls).conn.phase :=
  run_preserves (P := fun h => Marked h.conn.phase) (fun h x hm => hm.turn (call_turn h x)) hf.marked calls

theorem call_close {h : Host F} {now : U64} {c' : Connection F} {fin : Bytes}
    (hc : h.conn.close now = (c', some fin)) :
    (h.call (.close now)).conn = c' ∧ (h.call (.close now)).emitted = h.emitted ++ [fin] := by
  simp only [call, hc, and_self]

theorem close_post {c c' : Connection F} {now : U64} {fin : Bytes} (hc : c.close now = (c', some fin)) :
    ¬ c'.state.PreFin ∧ ∃ s, decode fin = some s ∧ hasFlag s.th.flags FIN = true ∧
      s.th.seq = c'.send.nxt - 1#32 := by
  have hfin : ∀ next, ¬ State.PreFin next → c.sendFin next now = (c', some fin) →
      ¬ c'.state.PreFin ∧ ∃ s, decode fin = some s ∧ hasFlag s.th.flags FIN = true ∧
        s.th.seq = c'.send.nxt - 1#32 := by
    intro next hpost heq
    obtain ⟨rfl, hout⟩ := Prod.mk.inj heq
    obtain rfl := Option.some.inj hout
    obtain ⟨s, hs⟩ := segment_carries { c with tsVal := now.setWidth 32 } c.send.nxt c.recv.nxt (FIN ||| ACK) []
    refine ⟨hpost, s, hs.decode, ?_, ?_⟩
    · rw [hs.flags]
      decide
    · rw [hs.seq]
      exact (BitVec.add_sub_cancel c.send.nxt 1#32).symm
  unfold close at hc
  split at hc
  · exact hfin _ (by simp [State.PreFin]) hc
  · exact hfin _ (by simp [State.PreFin]) hc
  · exact absurd (congrArg Prod.snd hc) (by simp)

theorem close_silent {c : Connection F} (hpost : ¬ c.state.PreFin) (now : U64) : (c.close now).2 = none := by
  unfold close
  split
  · rename_i hs
    exact absurd (.inr (.inr (.inl hs))) hpost
  · rename_i hs
    exact absurd (.inr (.inr (.inr hs))) hpost
  · rfl

/-- The state machine keeps to its diagram, the mark of the peer's FIN agrees
with the state, and our FIN is the last thing sent. -/
theorem state_machine_is_disciplined {h : Host F} (hf : Fresh h) (calls : List Call) :
    let k := h.run calls
    (∀ x, (k.call x).conn.state = k.conn.state ∨ (k.call x).conn.state ∈ k.conn.state.successors) ∧
    (k.conn.state ∈ State.beforePeerFin → k.conn.peerFin = false) ∧
    (k.conn.state ∈ State.afterPeerFin → k.conn.peerFin = true) ∧
    ∀ now c' fin, k.conn.close now = (c', some fin) →
      (∃ s, decode fin = some s ∧ hasFlag s.th.flags FIN = true ∧ s.th.seq = c'.send.nxt - 1#32) ∧
      ∀ later, let k' := (k.call (.close now)).run later
        k'.conn.send.nxt = c'.send.nxt ∧ (∀ now', (k'.conn.close now').2 = none) ∧
        ∃ more, k'.emitted = (k.emitted ++ [fin]) ++ more ∧
          ∀ p ∈ more, p ∈ k.emitted ++ [fin] ∨ ∃ s, decode p = some s ∧ s.payload = [] := by
  intro k
  have hmark := run_marked hf calls
  refine ⟨fun x => (call_turn k x).edge, hmark.before, hmark.after, fun now c' fin hc => ?_⟩
  obtain ⟨hpost, hseq⟩ := close_post hc
  obtain ⟨hconn, hem⟩ := call_close hc
  refine ⟨hseq, fun later => ?_⟩
  -- the machine that follows the host up to the FIN, and from there on
  obtain ⟨t, hr, hfol⟩ := run_refines hf.follows (calls ++ [.close now])
  rw [run_append] at hfol
  change Follows (k.call (.close now)) t at hfol
  obtain ⟨t', hr', hfol'⟩ := run_refines hfol later
  have hst : ¬ t.state.PreFin := by
    rw [show t.state = c'.state from hfol.state.trans (by rw [hconn])]
    exact hpost
  obtain ⟨hspent, hpost'⟩ := hr'.spent (hr.stream hf.stream) hst
  have hnxt : t.nxt = c'.send.nxt := hfol.nxt.trans (by rw [hconn])
  refine ⟨?_, fun now' => close_silent ?_ now', ?_⟩
  · rw [← hnxt, ← hspent.nxt]
    exact hfol'.nxt.symm
  · have hst' : t'.state = ((k.call (.close now)).run later).conn.state := hfol'.state
    exact hst' ▸ hpost'
  · rw [← hem, ← hfol.emitted, ← hfol'.emitted]
    exact hspent.sent

/-- The peer closes, then we do: the FIN goes out from CLOSE_WAIT, and a later
write, poll and close add nothing to it. -/
theorem discipline_of_passive_close :
    let k := sample.run [.onSegment (samplePeer (FIN ||| ACK) 501#32 101#32 []) 1#64 0#32]
    let k' := (k.call (.close 2#64)).run [.write [7#8], .pollTransmit 3#64]
    k.conn.state = .closeWait ∧ k.conn.peerFin = true ∧ k'.emitted = (k.call (.close 2#64)).emitted ∧
      k'.conn.state = .lastAck ∧ (k'.conn.close 4#64).2 = none := by
  intro k k'
  obtain ⟨-, -, hafter, hclose⟩ := state_machine_is_disciplined sample_fresh
    [.onSegment (samplePeer (FIN ||| ACK) 501#32 101#32 []) 1#64 0#32]
  have hcw : k.conn.state = .closeWait := by decide +kernel
  obtain ⟨fin, hfin⟩ : ∃ fin, (k.conn.close 2#64).2 = some fin :=
    Option.isSome_iff_exists.mp (by decide +kernel)
  obtain ⟨-, hlater⟩ := hclose 2#64 _ fin (Prod.ext rfl hfin)
  obtain ⟨-, hnone, -⟩ := hlater [.write [7#8], .pollTransmit 3#64]
  exact ⟨hcw, hafter (by rw [hcw]; decide), by decide +kernel, by decide +kernel, hnone 4#64⟩

end Host
end TcpStack
