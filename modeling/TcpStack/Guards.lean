import TcpStack.Frame
import TcpStack.Refine

/-!
# What only the peer's segments change

The advertised window, its maximum, RCV.NXT and the pending FIN change in the
segment handler only. Two facts about them hold in every reachable state: the
window never exceeds its recorded maximum, and a pending FIN that has become
due was consumed.
-/
namespace TcpStack
open Tcp TcpStack.Seq

variable {F : Type} [F64 F]

/-- The states in which no FIN of the peer can be pending any more. -/
def State.Settled (s : State) : Prop := s ≠ .synSent ∧ s ≠ .synRcvd ∧ s ≠ .established

namespace Connection

def fromPeer (c : Connection F) : U32 × U32 × U32 × Option U32 :=
  (c.send.wnd, c.maxSndWnd, c.recv.nxt, c.pendingFin)

/-- Nothing of the peer's was taken in, and the state stayed or moved on. -/
structure Calm (c c' : Connection F) : Prop where
  peer : c'.fromPeer = c.fromPeer
  state : c'.state = c.state ∨ c'.state.Settled

theorem Calm.of_eq {c c' : Connection F} (hp : c'.fromPeer = c.fromPeer) (hs : c'.state = c.state) :
    Calm c c' := ⟨hp, .inl hs⟩

theorem Calm.refl (c : Connection F) : Calm c c := .of_eq rfl rfl

theorem closed_calm (c : Connection F) : Calm c { c with state := .closed } :=
  ⟨rfl, .inr (by simp [State.Settled])⟩

theorem KeptOrClosed.calm {c c' : Connection F} (h : KeptOrClosed c c') : Calm c c' := by
  have hpeer : ∀ d : Connection F, d.fromPeer = d.still.fromPeer := fun _ => rfl
  have hstate : ∀ d : Connection F, d.state = d.still.state := fun _ => rfl
  rcases h with h | h
  · refine .of_eq ?_ ?_
    · rw [hpeer, h]
      rfl
    · rw [hstate, h]
      rfl
  · refine ⟨?_, .inr ?_⟩
    · rw [hpeer, h]
      rfl
    · rw [hstate, h]
      simp [State.Settled, still]

theorem close_calm (c : Connection F) (now : U64) : Calm c (c.close now).1 := by
  unfold close
  split
  · exact ⟨rfl, .inr (by simp [sendFin, State.Settled])⟩
  · exact ⟨rfl, .inr (by simp [sendFin, State.Settled])⟩
  · exact .refl c

theorem maybeChallenge_calm (c : Connection F) (now : U64) (rnd : U32) :
    Calm c (c.maybeChallenge now rnd).1 := by
  unfold maybeChallenge
  dsimp only
  split_ifs <;> exact .of_eq rfl rfl

theorem onRst_calm (c : Connection F) (th : TcpHeader) (now : U64) (rnd : U32) :
    Calm c (c.onRst th now rnd).1 := by
  unfold onRst
  split_ifs
  · exact closed_calm c
  · exact .refl c
  · exact .refl c
  · exact closed_calm c
  · exact maybeChallenge_calm c now rnd
  · exact .refl c

theorem paws_calm {c c' : Connection F} {th : TcpHeader} {opts : TcpOptions}
    (h : c.paws th opts = some c') : Calm c c' := by
  unfold paws at h
  split at h
  · split_ifs at h <;> cases h <;> exact .of_eq rfl rfl
  · cases h
    exact .refl c

theorem processAck_calm (c : Connection F) (th : TcpHeader) (payload : Bytes) (opts : TcpOptions)
    (prevWnd newWnd : U32) (now : U64) : Calm c (c.processAck th payload opts prevWnd newWnd now).1 := by
  simp only [processAck, onNewAck, onDupAck]
  split_ifs <;> exact .of_eq rfl rfl

structure Guarded (c : Connection F) : Prop where
  wnd : c.send.wnd ≤ c.maxSndWnd
  small : c.maxSndWnd.toNat < 2 ^ 30
  early : c.state = .synSent ∨ c.state = .synRcvd → c.pendingFin = none
  due : c.state = .established → c.pendingFin ≠ some c.recv.nxt

theorem Guarded.calm {c c' : Connection F} (h : Guarded c) (hc : Calm c c') : Guarded c' := by
  have hp := hc.peer
  simp only [fromPeer, Prod.mk.injEq] at hp
  obtain ⟨hw, hm, hr, hf⟩ := hp
  have hsame : c'.state = c.state ∨ (c'.state ≠ .synSent ∧ c'.state ≠ .synRcvd ∧ c'.state ≠ .established) :=
    hc.state
  refine ⟨?_, ?_, ?_, ?_⟩
  · rw [hw, hm]
    exact h.wnd
  · rw [hm]
    exact h.small
  · rw [hf]
    intro hst
    rcases hsame with hs | ⟨h₁, h₂, -⟩
    · exact h.early (hs ▸ hst)
    · exact absurd hst (not_or.mpr ⟨h₁, h₂⟩)
  · rw [hf, hr]
    intro hst
    rcases hsame with hs | ⟨-, -, h₃⟩
    · exact h.due (hs ▸ hst)
    · exact absurd hst h₃

theorem Guarded.settle {c c' : Connection F} (h : Guarded c) (hw : c'.send.wnd = c.send.wnd)
    (hm : c'.maxSndWnd = c.maxSndWnd) (hs : c'.state.Settled) : Guarded c' := by
  refine ⟨?_, ?_, fun hst => ?_, fun hst => absurd hst hs.2.2⟩
  · rw [hw, hm]
    exact h.wnd
  · rw [hm]
    exact h.small
  · exact absurd hst (not_or.mpr ⟨hs.1, hs.2.1⟩)

theorem scaledWindow_lt (c : Connection F) (th : TcpHeader) : (c.scaledWindow th).toNat < 2 ^ 30 := by
  have hw : th.window.toNat < 2 ^ 16 := th.window.isLt
  have hs : (c.sndWscale : Nat) ≤ 14 := Nat.le_of_lt_succ c.sndWscale.isLt
  have hpow : 2 ^ (c.sndWscale : Nat) ≤ 2 ^ 14 := Nat.pow_le_pow_right (by omega) hs
  have hprod : th.window.toNat * 2 ^ (c.sndWscale : Nat) < 2 ^ 16 * 2 ^ 14 :=
    Nat.mul_lt_mul_of_lt_of_le hw hpow (by omega)
  simp only [scaledWindow, BitVec.toNat_shiftLeft, BitVec.toNat_setWidth, Nat.shiftLeft_eq]
  rw [Nat.mod_eq_of_lt (by omega : th.window.toNat < 2 ^ 32)]
  exact lt_of_le_of_lt (Nat.mod_le _ _) (by omega)

theorem Guarded.updateWindow {c : Connection F} (h : Guarded c) {w : U32} (hw : w.toNat < 2 ^ 30) :
    Guarded (c.updateWindow w) := by
  refine ⟨le_umax_right _ _, ?_, h.early, h.due⟩
  have hs := h.small
  change (umax c.maxSndWnd w).toNat < 2 ^ 30
  unfold umax
  split <;> assumption

theorem Guarded.opened {c e : Connection F} (h : Guarded c) (hs : c.state.Sending) (hsend : e.send = c.send)
    (hmax : e.maxSndWnd = c.maxSndWnd) (hst : e.state = c.state)
    (hdue : ¬ (e.state = .established ∧ e.pendingFin = some e.recv.nxt)) : Guarded e := by
  refine ⟨?_, ?_, fun hearly => ?_, fun hest heq => hdue ⟨hest, heq⟩⟩
  · rw [hsend, hmax]
    exact h.wnd
  · rw [hmax]
    exact h.small
  · rw [hst] at hearly
    rcases hs with hs | hs <;> simp [hs] at hearly

theorem deliver_windows (c : Connection F) (seq : U32) (payload : Bytes) :
    (c.deliver seq payload).send = c.send ∧ (c.deliver seq payload).maxSndWnd = c.maxSndWnd ∧
      (c.deliver seq payload).state = c.state := by
  rw [deliver_eq]
  exact ⟨rfl, rfl, rfl⟩

theorem receive_guarded {c : Connection F} (h : Guarded c) (hs : c.state.Sending) (th : TcpHeader)
    (payload : Bytes) : Guarded (c.receive th payload).1 := by
  have hd := c.deliver_windows th.seq payload
  unfold receive
  generalize c.deliver th.seq payload = d at hd
  dsimp only
  by_cases hre : hasFlag th.flags FIN = true ∧ d.state = .closeWait ∧
      (!after (finSeq th payload) d.recv.nxt) = true
  · rw [if_pos hre]
    exact h.opened hs hd.1 hd.2.1 hd.2.2 (by simp [hre.2.1])
  rw [if_neg hre]
  generalize he : (if hasFlag th.flags FIN = true ∧ d.state = .established ∧
    (!before (finSeq th payload) d.recv.nxt) = true then
      { d with pendingFin := some (finSeq th payload) } else d) = e
  have hed : e.send = c.send ∧ e.maxSndWnd = c.maxSndWnd ∧ e.state = c.state := by
    rw [← he]
    split_ifs <;> exact hd
  obtain ⟨hsend, hmax, hst⟩ := hed
  split_ifs with hdue hdata
  · exact h.settle (congrArg SendSequence.wnd hsend) hmax (by simp [takeFin, State.Settled])
  · exact h.opened hs hsend hmax hst hdue
  · exact h.opened hs hsend hmax hst hdue

theorem onOpen_guarded {c : Connection F} (h : Guarded c) (hs : c.state.Sending) (th : TcpHeader)
    (payload : Bytes) (opts : TcpOptions) (now : U64) (rnd : U32) :
    Guarded (c.onOpen th payload opts now rnd).1 := by
  unfold onOpen
  cases hp : c.paws th opts with
  | none => exact h
  | some d =>
      have hd : Guarded d := h.calm (paws_calm hp)
      have hds : d.state.Sending := by
        have hcore := paws_core hp
        rw [show d.state = c.state from congrArg Core.state hcore]
        exact hs
      have hu : Guarded (d.updateWindow (d.scaledWindow th)) ∧
          (d.updateWindow (d.scaledWindow th)).state.Sending :=
        ⟨hd.updateWindow (d.scaledWindow_lt th), hds⟩
      dsimp only
      generalize d.updateWindow (d.scaledWindow th) = u at hu
      obtain ⟨hu, hus⟩ := hu
      split_ifs with hack hbad
      · exact hu.calm (maybeChallenge_calm u now rnd)
      · have hc := processAck_calm u th payload opts d.send.wnd (d.scaledWindow th) now
        have hst := processAck_state u th payload opts d.send.wnd (d.scaledWindow th) now
        generalize u.processAck th payload opts d.send.wnd (d.scaledWindow th) now = r at hc hst
        obtain ⟨v, pkt⟩ := r
        cases pkt with
        | some pkt => exact hu.calm hc
        | none => exact receive_guarded (hu.calm hc) (hst ▸ hus) th payload
      · exact receive_guarded hu hus th payload

theorem onFinWait2_guarded {c : Connection F} (h : Guarded c) (hs : c.state = .finWait2) (th : TcpHeader)
    (payload : Bytes) (now : U64) : Guarded (c.onFinWait2 th payload now).1 := by
  obtain ⟨hsend, hmax, hst⟩ := c.deliver_windows th.seq payload
  unfold onFinWait2
  generalize c.deliver th.seq payload = d at hsend hmax hst
  have hw : d.send.wnd = c.send.wnd := congrArg SendSequence.wnd hsend
  dsimp only
  split_ifs
  · exact h.settle hw hmax (by simp [takeFin, State.Settled])
  · exact h.settle hw hmax (by simp [hst, hs, State.Settled])
  · exact h.settle hw hmax (by simp [hst, hs, State.Settled])

theorem onFinWait1_guarded {c : Connection F} (h : Guarded c) (hs : c.state = .finWait1) (th : TcpHeader)
    (payload : Bytes) (now : U64) : Guarded (c.onFinWait1 th payload now).1 := by
  unfold onFinWait1
  dsimp only
  generalize hb : (if c.ackedOurFin th = true then c.dropAcked th.ack now else c) = b
  have hbc : b.send = c.send ∧ b.maxSndWnd = c.maxSndWnd ∧ b.state = c.state := by
    rw [← hb]
    split_ifs <;> exact ⟨rfl, rfl, rfl⟩
  obtain ⟨hsend, hmax, hst⟩ := b.deliver_windows th.seq payload
  generalize b.deliver th.seq payload = d at hsend hmax hst
  have hw : d.send.wnd = c.send.wnd := congrArg SendSequence.wnd (hsend.trans hbc.1)
  have hm : d.maxSndWnd = c.maxSndWnd := hmax.trans hbc.2.1
  have hst' : d.state = .finWait1 := (hst.trans hbc.2.2).trans hs
  split_ifs
  · exact h.settle hw hm (by simp [takeFin, State.Settled])
  · exact h.settle hw hm (by simp [takeFin, State.Settled])
  · exact h.settle hw hm (by simp [State.Settled])
  · exact h.settle hw hm (by simp [hst', State.Settled])
  · exact h.settle hw hm (by simp [State.Settled])
  · exact h.settle hw hm (by simp [hst', State.Settled])

theorem onLastAck_guarded {c : Connection F} (h : Guarded c) (th : TcpHeader) (now : U64) :
    Guarded (c.onLastAck th now).1 := by
  unfold onLastAck
  split
  · exact h.settle rfl rfl (by simp [State.Settled])
  · exact h

theorem onClosing_guarded {c : Connection F} (h : Guarded c) (th : TcpHeader) (now : U64) :
    Guarded (c.onClosing th now).1 := by
  unfold onClosing
  split
  · exact h.settle rfl rfl (by simp [State.Settled])
  · exact h

theorem onState_guarded {c : Connection F} (h : Guarded c) (th : TcpHeader) (payload : Bytes)
    (opts : TcpOptions) (now : U64) (rnd : U32) : Guarded (c.onState th payload opts now rnd).1 := by
  unfold onState
  cases hs : c.state with
  | established => exact onOpen_guarded h (.inl hs) th payload opts now rnd
  | closeWait => exact onOpen_guarded h (.inr hs) th payload opts now rnd
  | lastAck => exact onLastAck_guarded h th now
  | finWait1 => exact onFinWait1_guarded h hs th payload now
  | finWait2 => exact onFinWait2_guarded h hs th payload now
  | closing => exact onClosing_guarded h th now
  | synSent | synRcvd | timeWait | closed => exact h

theorem Guarded.establish {c c' : Connection F} (h : Guarded c) (hw : c'.send.wnd = c.send.wnd)
    (hm : c'.maxSndWnd = c.maxSndWnd) (hp : c'.pendingFin = none) : Guarded c' := by
  refine ⟨?_, ?_, fun _ => hp, fun _ => by simp [hp]⟩
  · rw [hw, hm]
    exact h.wnd
  · rw [hm]
    exact h.small

theorem onSynSent_guarded {c : Connection F} (h : Guarded c) (hs : c.state = .synSent) (th : TcpHeader)
    (opts : TcpOptions) (now : U64) : Guarded (c.onSynSent th opts now).1 := by
  unfold onSynSent
  split
  · exact h.establish rfl rfl (h.early (.inl hs))
  · exact h

theorem onSynRcvd_guarded {c c' : Connection F} (h : Guarded c) {th : TcpHeader} {now : U64}
    (heq : c.onSynRcvd th now = some c') : Guarded c' := by
  unfold onSynRcvd at heq
  split_ifs at heq with hs hok
  · obtain rfl := Option.some.inj heq
    exact h.establish rfl rfl (h.early (.inr hs))
  · obtain rfl := Option.some.inj heq
    exact h

theorem onSegment_guarded {c : Connection F} (h : Guarded c) (seg : Segment) (now : U64) (rnd : U32) :
    Guarded (c.onSegment seg now rnd).1 := by
  have ha : Guarded (c.arrive now) := ⟨h.wnd, h.small, h.early, h.due⟩
  unfold onSegment
  generalize c.arrive now = d at ha
  dsimp only
  split_ifs with hrst hsyn hblind
  · exact ha.calm (onRst_calm d seg.th now rnd)
  · exact onSynSent_guarded ha hsyn seg.th seg.opts now
  · exact ha.calm (maybeChallenge_calm d now rnd)
  · cases hr : d.onSynRcvd seg.th now with
    | none => exact ha
    | some e => exact onState_guarded (onSynRcvd_guarded ha hr) seg.th seg.payload seg.opts now rnd

end Connection

namespace Host
open Connection

theorem call_guarded {h : Host F} (hg : Guarded h.conn) (x : Call) : Guarded (h.call x).conn := by
  cases x with
  | write | takeReceived | setNodelay | setKeepalive | useBbr =>
      exact ⟨hg.wnd, hg.small, hg.early, hg.due⟩
  | pollTransmit now =>
      have hc := hg.calm (KeptOrClosed.calm (.inl (pollTransmit_still h.conn now)))
      simpa only [call] using hc
  | onTick now =>
      have hc := hg.calm (onTick_kept h.conn now).calm
      simpa only [call] using hc
  | close now =>
      have hc := hg.calm (close_calm h.conn now)
      simp only [call]
      split
      · rename_i heq
        rwa [heq] at hc
      · rename_i heq
        rwa [heq] at hc
  | onSegment seg now rnd => exact onSegment_guarded hg seg now rnd

theorem guarded_start {c : Connection F} (hw : c.send.wnd = 1024#32) (hm : c.maxSndWnd = 1024#32)
    (hp : c.pendingFin = none) : Guarded c := by
  refine ⟨?_, ?_, fun _ => hp, fun _ => by simp [hp]⟩
  · rw [hw, hm]
    exact BitVec.le_refl _
  · rw [hm]
    decide

theorem Fresh.guarded {h : Host F} (hf : Fresh h) : Guarded h.conn := by
  cases hf with
  | connect => exact guarded_start rfl rfl rfl
  | accept ipSrc ipDst seg iss now rnd heq =>
      obtain ⟨⟨c, synack⟩, hr, rfl⟩ := Option.map_eq_some_iff.mp heq
      simp only [acceptWithIssAt] at hr
      split_ifs at hr
      obtain ⟨rfl, -⟩ := Prod.mk.inj (Option.some.inj hr)
      exact guarded_start rfl rfl rfl
  | cookie => exact guarded_start rfl rfl rfl

theorem run_guarded {h : Host F} (hg : Guarded h.conn) (calls : List Call) :
    Guarded (h.run calls).conn := by
  induction calls generalizing h with
  | nil => exact hg
  | cons x calls ih => exact ih (call_guarded hg x)

end Host
end TcpStack
