import TcpStack.Dispatch
import TcpStack.Guards

/-!
# Two ways to an established connection

With room in the backlog a SYN makes a control block in SYN_RCVD and the final
ACK establishes it. Without room the SYN leaves nothing behind, and the control
block is made from the final ACK alone. The two are compared field by field.
-/
namespace TcpStack
open Tcp TcpStack.Seq

/-- What a handshake settles, and what has been sent and received since. -/
structure Tcb where
  state : State
  send : SendSequence
  recv : RecvSequence
  reasm : Reassembler
  sendMss : U16
  tsEnabled : Bool
  sndWscale : WScale
  sackOk : Bool
  queued : List Unacked
  sendBuf : Bytes
  recvBuf : Bytes

/-- The ACK that ends the handshake of `syn` with the initial sequence number `iss`. -/
structure FinalAck (syn : TcpHeader) (iss : U32) (seg : Segment) : Prop where
  flag : hasFlag seg.th.flags ACK = true
  noSyn : hasFlag seg.th.flags SYN = false
  noRst : hasFlag seg.th.flags RST = false
  noFin : hasFlag seg.th.flags FIN = false
  seq : seg.th.seq = syn.seq + 1#32
  ack : seg.th.ack = iss + 1#32
  noPayload : seg.payload = []
  noOptions : seg.opts = {}

namespace Connection

variable {F : Type} [F64 F]

def tcb (c : Connection F) : Tcb where
  state := c.state
  send := c.send
  recv := c.recv
  reasm := c.reasm
  sendMss := c.sendMss
  tsEnabled := c.tsEnabled
  sndWscale := c.sndWscale
  sackOk := c.sackOk
  queued := c.retx.segments
  sendBuf := c.sendBuf
  recvBuf := c.recvBuf

@[simp] theorem useBbr_tcb (c : Connection F) : c.useBbr.tcb = c.tcb := rfl

/-- Everything sent is acknowledged. -/
structure CaughtUp (c : Connection F) : Prop where
  una : c.send.una = c.send.nxt
  tsOff : c.tsEnabled = false
  sackOff : c.sackOk = false
  noFin : c.pendingFin = none

theorem CaughtUp.updateWindow {c : Connection F} (h : CaughtUp c) (w : U32) : CaughtUp (c.updateWindow w) :=
  ⟨h.una, h.tsOff, h.sackOff, h.noFin⟩

theorem CaughtUp.processAck {c : Connection F} (h : CaughtUp c) {th : TcpHeader} (hexact : th.ack = c.send.nxt)
    (payload : Bytes) (opts : TcpOptions) (prevWnd newWnd : U32) (now : U64) :
    c.processAck th payload opts prevWnd newWnd now = (c, none) := by
  have hbetween : between c.send.una th.ack c.send.nxt = false := by
    rw [h.una, hexact, between, after_self, Bool.false_and]
  unfold Connection.processAck
  rw [if_neg (show ¬ (c.sackOk = true ∧ opts.sackBlockCount > 0) by simp [h.sackOff])]
  dsimp only
  rw [hbetween, if_neg (by decide), if_neg (fun hdup => hdup.2.1 h.una)]

theorem CaughtUp.onOpen {c : Connection F} (h : CaughtUp c) {seg : Segment} (hack : hasFlag seg.th.flags ACK = true)
    (hfin : hasFlag seg.th.flags FIN = false) (hexact : seg.th.ack = c.send.nxt) (hempty : seg.payload = [])
    (hwnd : (umax c.maxSndWnd (c.scaledWindow seg.th)).toNat < 2 ^ 31) (now : U64) (rnd : U32) :
    c.onOpen seg.th seg.payload seg.opts now rnd = (c.updateWindow (c.scaledWindow seg.th), none) := by
  have hpaws : c.paws seg.th seg.opts = some c := by
    unfold paws
    rw [h.tsOff]
  have hu : CaughtUp (c.updateWindow (c.scaledWindow seg.th)) := h.updateWindow _
  have hexact' : seg.th.ack = (c.updateWindow (c.scaledWindow seg.th)).send.nxt := hexact
  have hmax : (c.updateWindow (c.scaledWindow seg.th)).maxSndWnd.toNat < 2 ^ 31 := hwnd
  unfold Connection.onOpen
  rw [hpaws]
  dsimp only
  generalize c.updateWindow (c.scaledWindow seg.th) = u at hu hexact' hmax
  have hlow : before u.send.nxt (u.send.una - u.maxSndWnd) = false := by
    rw [← Bool.not_eq_true, before_iff, hu.una]
    rw [show u.send.nxt - (u.send.nxt - u.maxSndWnd) = u.maxSndWnd by bv_omega]
    omega
  have hok : u.ackAcceptable seg.th.ack = true := by
    simp only [ackAcceptable, hexact', hlow, after_self, Bool.not_false, Bool.and_self]
  rw [if_pos hack, hok, if_neg (by decide), hu.processAck hexact']
  -- nothing to deliver, and no FIN
  simp [receive, deliver, hempty, hfin, hu.noFin]

/-- The passive open is complete: `ack` acknowledges our SYN-ACK. -/
def establish (c : Connection F) (ack : U32) (now : U64) : Connection F :=
  { c with send := { c.send with una := ack }, retx := (c.retx.ack ack now).1, state := .established }

theorem onSegment_finalAck {c : Connection F} (hs : c.state = .synRcvd) (htsOff : c.tsEnabled = false)
    (hsackOff : c.sackOk = false) (hnoFin : c.pendingFin = none) (hmax : c.maxSndWnd.toNat < 2 ^ 30)
    {syn : TcpHeader} {seg : Segment} (h : FinalAck syn c.send.iss seg) (hexact : seg.th.ack = c.send.nxt)
    (now : U64) (rnd : U32) :
    (c.onSegment seg now rnd).1.tcb =
      { c.tcb with
        state := .established
        send := { c.send with una := c.send.nxt, wnd := c.scaledWindow seg.th }
        queued := c.retx.segments.filter (fun s => before c.send.nxt s.endSeq) } := by
  have hwait : (c.arrive now).state = .synRcvd := hs
  have hrcvd : (c.arrive now).onSynRcvd seg.th now = some ((c.arrive now).establish seg.th.ack now) := by
    rw [onSynRcvd, if_pos hwait, if_pos ⟨h.flag, hexact⟩]
    rfl
  have hscaled : ((c.arrive now).establish seg.th.ack now).scaledWindow seg.th = c.scaledWindow seg.th := rfl
  have hopen : ((c.arrive now).establish seg.th.ack now).onOpen seg.th seg.payload seg.opts now rnd =
      (((c.arrive now).establish seg.th.ack now).updateWindow (c.scaledWindow seg.th), none) := by
    have hcaught : CaughtUp ((c.arrive now).establish seg.th.ack now) := ⟨hexact, htsOff, hsackOff, hnoFin⟩
    rw [hcaught.onOpen h.flag h.noFin hexact h.noPayload, hscaled]
    have hlt := scaledWindow_lt c seg.th
    rw [hscaled]
    unfold umax
    split
    · exact Nat.lt_trans hlt (by omega)
    · exact Nat.lt_trans hmax (by omega)
  unfold onSegment
  dsimp only
  rw [h.noRst, h.noSyn, if_neg (by decide), if_neg (by rw [hwait]; decide), Bool.false_and, if_neg (by decide), hrcvd]
  dsimp only
  rw [onState, show ((c.arrive now).establish seg.th.ack now).state = .established from rfl]
  dsimp only
  rw [hopen]
  simp only [tcb, establish, updateWindow, arrive, RetxQueue.ack, hexact]

theorem accept_finalAck {ipSrc ipDst : Ipv4Addr} {syn : TcpHeader} {mss : U16} {iss : U32} {now : U64} {rnd : U32}
    {c : Connection F} {synack : Bytes}
    (haccept : acceptWithIssAt ipSrc ipDst syn { mss := some mss } iss now rnd = some (c, synack)) {seg : Segment}
    (h : FinalAck syn iss seg) (now' : U64) (rnd' : U32) :
    (c.onSegment seg now' rnd').1.tcb =
      { state := .established
        send := ⟨iss + 1#32, iss + 1#32, seg.th.window.setWidth 32, iss⟩
        recv := ⟨syn.seq + 1#32, 1024#16, syn.seq⟩
        reasm := .new (syn.seq + 1#32)
        sendMss := umin mss ourMss
        tsEnabled := false
        sndWscale := 0
        sackOk := false
        queued := []
        sendBuf := []
        recvBuf := [] } := by
  obtain ⟨rfl, -⟩ := acceptWithIssAt_eq haccept
  have hmax : (1024#32).toNat < 2 ^ 30 := by decide
  rw [onSegment_finalAck rfl rfl rfl rfl hmax h h.ack]
  -- the SYN-ACK is all that is queued
  have hqueue : (RetxQueue.record {} iss (iss + 1#32) synack now).segments.filter
      (fun s => before (iss + 1#32) s.endSeq) = [] := by
    rw [RetxQueue.record, List.nil_append, List.filter_singleton, before_self]
    rfl
  have hwindow : scaledWindow (F := F) { synRcvdBlock ipSrc ipDst syn { mss := some mss } iss now rnd with
      retx := RetxQueue.record {} iss (iss + 1#32) synack now } seg.th = seg.th.window.setWidth 32 :=
    BitVec.shiftLeft_zero _
  rw [hwindow, Tcb.mk.injEq]
  exact ⟨rfl, rfl, rfl, rfl, rfl, rfl, rfl, rfl, hqueue, rfl, rfl⟩

end Connection

namespace Main

variable {F : Type} [F64 F]

theorem onUnknown_finalAck (m : Stack F) {hdr : Ip.Ipv4Header} {syn : TcpHeader} {ack : Segment}
    {mss : U16} {iss : U32} {d : Draw} (hack : FinalAck syn iss ack)
    (hvalid : checkSynCookie m.synSecret (quadOf hdr ack.th).localEnd (quadOf hdr ack.th).remoteEnd
      syn.seq iss d.now =
      some mss) :
    (m.onUnknown hdr ack d).1.connections.lookup (quadOf hdr ack.th) =
      some (Connection.fromSynCookie (quadOf hdr ack.th).localEnd (quadOf hdr ack.th).remoteEnd syn.seq iss mss d.now
        d.rnd).useBbr := by
  have hseq : ack.th.seq - 1#32 = syn.seq := by
    rw [hack.seq]
    bv_omega
  have hiss : ack.th.ack - 1#32 = iss := by
    rw [hack.ack]
    bv_omega
  have hcookie : m.returnedCookie hdr ack.th d.now = some mss := by
    rw [Stack.returnedCookie, hseq, hiss]
    exact hvalid
  have hnotSyn : ¬ isSyn ack.th = true := by simp [isSyn, hack.flag]
  have hbare : isBareAck ack.th = true := by
    have hclear : ∀ f : U8, hasFlag f SYN = false → hasFlag f RST = false →
        hasFlag f (SYN ||| RST) = false := by decide
    simp [isBareAck, hack.flag, hclear _ hack.noSyn hack.noRst]
  unfold Stack.onUnknown
  simp only [hnotSyn, Bool.false_eq_true, hbare, hcookie, false_and, if_false, if_true, hseq, hiss,
    AList.lookup_insert]

/-- The control block that the final ACK of a stateless handshake leaves in the
table and the one that the stateful handshake ends with differ in nothing but
the peer's window, which the stateless one does not read from the ACK. -/
theorem cookie_connection_agrees_iff (m : Stack F) {hdr hdr' : Ip.Ipv4Header} {syn ack : Segment}
    {mss : U16} {iss : U32} {d e : Draw} (hsyn : isSyn syn.th = true) (hopts : syn.opts = { mss := some mss })
    (hquad : quadOf hdr' ack.th = quadOf hdr syn.th) (hack : FinalAck syn.th iss ack)
    (hvalid : checkSynCookie m.synSecret (quadOf hdr syn.th).localEnd (quadOf hdr syn.th).remoteEnd syn.th.seq iss
      e.now = some mss) :
    ∃ (stateful : Connection F) (synack : Bytes) (stateless : Connection F),
      Connection.acceptWithIssAt hdr.src hdr.dst syn.th syn.opts iss d.now d.rnd = some (stateful, synack) ∧
      (m.onUnknown hdr' ack e).1.connections.lookup (quadOf hdr' ack.th) = some stateless ∧
      let settled := (stateful.onSegment ack e.now e.rnd).1
      (stateless.tcb = settled.tcb ∧ stateless.retx.segments = [] ↔ ack.th.window = 1024#16) ∧
      settled.tcb = { stateless.tcb with send := { stateless.send with wnd := ack.th.window.setWidth 32 } } := by
  have hflag : hasFlag syn.th.flags SYN = true := by
    simp only [isSyn, Bool.and_eq_true] at hsyn
    exact hsyn.1
  obtain ⟨r, hr⟩ : ∃ r, Connection.acceptWithIssAt (F := F) hdr.src hdr.dst syn.th syn.opts iss d.now d.rnd =
      some r := by
    simp [Connection.acceptWithIssAt, hflag]
  obtain ⟨stateful, synack⟩ := r
  have hsettled := Connection.accept_finalAck (hopts ▸ hr) hack e.now e.rnd
  refine ⟨stateful, synack, _, hr, onUnknown_finalAck m hack (hquad.symm ▸ hvalid), ?_⟩
  dsimp only
  rw [hsettled, Connection.useBbr_tcb]
  constructor
  · constructor
    · rintro ⟨hsame, -⟩
      have hwnd : BitVec.setWidth 32 1024#16 = ack.th.window.setWidth 32 := congrArg (fun t => t.send.wnd) hsame
      bv_omega
    · intro hwnd
      rw [hwnd]
      exact ⟨rfl, rfl⟩
  · rfl

def cookieSyn : Segment := ⟨⟨4000#16, 80#16, 5#32, 0#32, 24, SYN, 1024#16⟩, [], { mss := some 1460#16 }⟩

def cookieIss : U32 :=
  synCookie 0#64 (quadOf strayHeader cookieSyn.th).localEnd
    (quadOf strayHeader cookieSyn.th).remoteEnd 5#32 1460#16 1#64

/-- The client's answer to that, with its receive window. -/
def cookieAck (window : U16) : Segment := ⟨⟨4000#16, 80#16, 6#32, cookieIss + 1#32, 20, ACK, window⟩, [], {}⟩

theorem cookieAck_final (window : U16) : FinalAck cookieSyn.th cookieIss (cookieAck window) :=
  ⟨(by decide : hasFlag ACK ACK = true), (by decide : hasFlag ACK SYN = false), (by decide : hasFlag ACK RST = false),
    (by decide : hasFlag ACK FIN = false), rfl, rfl, rfl, rfl⟩

theorem cookieIss_valid : checkSynCookie idle.synSecret (quadOf strayHeader cookieSyn.th).localEnd
    (quadOf strayHeader cookieSyn.th).remoteEnd cookieSyn.th.seq cookieIss 2#64 = some 1460#16 := by
  decide

/-- With the window that the stateless block starts with, the two agree. -/
theorem cookie_connection_with_window_1024 :
    ∃ (stateful : Connection Rat) (synack : Bytes) (stateless : Connection Rat),
      Connection.acceptWithIssAt strayHeader.src strayHeader.dst cookieSyn.th cookieSyn.opts cookieIss 1#64 0#32 =
        some (stateful, synack) ∧
      (idle.onUnknown strayHeader (cookieAck 1024#16) ⟨2#64, 0#32, 0#32⟩).1.connections.lookup
        (quadOf strayHeader (cookieAck 1024#16).th) = some stateless ∧
      stateless.tcb = (stateful.onSegment (cookieAck 1024#16) 2#64 0#32).1.tcb := by
  obtain ⟨stateful, synack, stateless, haccept, hlook, hiff, -⟩ := cookie_connection_agrees_iff idle
    (d := ⟨1#64, 0#32, 0#32⟩) (e := ⟨2#64, 0#32, 0#32⟩) (by decide : isSyn cookieSyn.th = true) rfl
    (rfl : quadOf strayHeader (cookieAck 1024#16).th = quadOf strayHeader cookieSyn.th) (cookieAck_final 1024#16)
    cookieIss_valid
  exact ⟨stateful, synack, stateless, haccept, hlook, (hiff.mpr rfl).1⟩

/-- A client that offers no window at all: the stateful block waits for it to open,
the stateless one sends. -/
theorem cookie_connection_ignores_window :
    ∃ (stateful : Connection Rat) (synack : Bytes) (stateless : Connection Rat),
      Connection.acceptWithIssAt strayHeader.src strayHeader.dst cookieSyn.th cookieSyn.opts cookieIss 1#64 0#32 =
        some (stateful, synack) ∧
      (idle.onUnknown strayHeader (cookieAck 0#16) ⟨2#64, 0#32, 0#32⟩).1.connections.lookup
        (quadOf strayHeader (cookieAck 0#16).th) = some stateless ∧
      (stateful.onSegment (cookieAck 0#16) 2#64 0#32).1.send.wnd = 0#32 ∧ stateless.send.wnd = 1024#32 := by
  obtain ⟨⟨stateful, synack⟩, haccept⟩ : ∃ r, Connection.acceptWithIssAt (F := Rat) strayHeader.src strayHeader.dst
      cookieSyn.th cookieSyn.opts cookieIss 1#64 0#32 = some r := ⟨_, rfl⟩
  have hsettled := Connection.accept_finalAck haccept (cookieAck_final 0#16) 2#64 0#32
  exact ⟨stateful, synack, _, haccept, onUnknown_finalAck idle (cookieAck_final 0#16) cookieIss_valid,
    congrArg (fun t => t.send.wnd) hsettled, rfl⟩

end Main
end TcpStack
