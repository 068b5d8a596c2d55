import TcpStack.Wire
import TcpStack.Reassembly
import TcpStack.RetxQueue
import TcpStack.Rtt
import TcpStack.Congestion

/-!
# The connection state machine

The transmission control block with its three constructors and every call the
application, the wire and the clock can make on it. Calls return the new
control block and the packets to send. The draws of the random generator are
arguments.
-/
namespace TcpStack
open Tcp TcpStack.Seq

inductive State where
  | synSent
  | synRcvd
  | established
  | closeWait
  | lastAck
  | finWait1
  | finWait2
  | closing
  | timeWait
  | closed
  deriving DecidableEq, Repr

structure SendSequence where
  una : U32
  nxt : U32
  /-- The peer's window, already scaled. -/
  wnd : U32
  iss : U32
  deriving DecidableEq, Repr

structure RecvSequence where
  nxt : U32
  wnd : U16
  irs : U32
  deriving DecidableEq, Repr

def challengeAckMax : U32 := 5#32
def keepaliveIdleMs : U64 := 60000#64
def keepaliveIntvlMs : U64 := 5000#64
def keepaliveProbes : U32 := 3#32
def timeWaitLimitMs : U64 := 240000#64
def finWait2TimeoutMs : U64 := 60000#64
def closeWaitTimeoutMs : U64 := 120000#64
def challengeRefillMs : U64 := 1000#64

/-- One connection's state. -/
structure Connection (F : Type) [F64 F] where
  state : State
  send : SendSequence
  recv : RecvSequence
  localEnd : Endpoint
  remoteEnd : Endpoint
  retx : RetxQueue := {}
  timeWaitMs : U64 := 0#64
  rtt : RttEstimator := {}
  reasm : Reassembler
  cong : CongestionControl F := .default
  sendBuf : Bytes := []
  recvBuf : Bytes := []
  nagle : Bool := true
  persistMs : U64 := 0#64
  sendMss : U16
  tsEnabled : Bool
  tsRecent : U32
  tsVal : U32
  sndWscale : WScale
  sackOk : Bool
  peerFin : Bool := false
  pendingFin : Option U32 := none
  recover : U32
  maxSndWnd : U32
  challengeBudget : U32
  challengeWindowMs : U64
  lastActiveMs : U64
  tlpDeadlineMs : U64 := 0#64
  tlpSent : Bool := false
  keepaliveEnabled : Bool := false
  keepaliveProbesSent : U32 := 0#32
  nextSendMs : U64 := 0#64

namespace Connection

variable {F : Type} [F64 F]

def peerClosed (c : Connection F) : Bool := c.peerFin

def sendBufferEmpty (c : Connection F) : Bool := c.sendBuf.isEmpty

def segmentOpts (c : Connection F) (seq ack : U32) (flags : U8) (options payload : Bytes) : Bytes :=
  buildPacket c.localEnd c.remoteEnd seq ack flags c.recv.wnd options payload

/-- A segment, carrying the Timestamps option when negotiated. -/
def segment (c : Connection F) (seq ack : U32) (flags : U8) (payload : Bytes) : Bytes :=
  c.segmentOpts seq ack flags (if c.tsEnabled then tsOption c.tsVal c.tsRecent else []) payload

/-- Options of an ordinary ACK: timestamps, then the SACK blocks. -/
def ackOptions (c : Connection F) : Bytes :=
  (if c.tsEnabled then tsOption c.tsVal c.tsRecent else []) ++
    if c.sackOk then
      let blocks := c.reasm.sackBlocks
      if blocks.isEmpty then [] else sackOption (blocks.take (min blocks.length maxSackBlocks))
    else []

def bareAck (c : Connection F) : Bytes := c.segment c.send.nxt c.recv.nxt ACK []

def freshBudget (rnd : U32) : U32 := 1#32 + rnd % challengeAckMax

theorem freshBudget_toNat (rnd : U32) : (freshBudget rnd).toNat = 1 + rnd.toNat % challengeAckMax.toNat := by
  have hmod : rnd.toNat % 5 < 5 := Nat.mod_lt _ (by omega)
  simp only [freshBudget, challengeAckMax, BitVec.toNat_add, BitVec.toNat_umod, BitVec.toNat_ofNat,
    Nat.reducePow, Nat.reduceMod]
  omega

/-- The control block of a passive open, before the SYN-ACK is queued. -/
def synRcvdBlock (ipSrc ipDst : Ipv4Addr) (th : TcpHeader) (opts : TcpOptions) (iss : U32) (now : U64)
    (rnd : U32) : Connection F :=
  let wnd : U16 := 1024#16
  { state := .synRcvd
    send := { iss, una := iss, nxt := iss + 1#32, wnd := wnd.setWidth 32 }
    recv := { irs := th.seq, nxt := th.seq + 1#32, wnd }
    localEnd := (ipDst, th.dstPort)
    remoteEnd := (ipSrc, th.srcPort)
    reasm := .new (th.seq + 1#32)
    sendMss := (opts.mss.map (umin · ourMss)).getD defaultSendMss
    tsEnabled := opts.timestamps.isSome
    tsRecent := (opts.timestamps.map Prod.fst).getD 0#32
    tsVal := now.setWidth 32
    sndWscale := opts.windowScale.getD 0
    sackOk := opts.sackPermitted
    recover := iss
    maxSndWnd := wnd.setWidth 32
    challengeBudget := freshBudget rnd
    challengeWindowMs := now
    lastActiveMs := now }

/-- Our MSS, and an answer to each of the peer's offers. -/
def synackOptions (c : Connection F) (opts : TcpOptions) : Bytes :=
  mssOption ourMss ++ (if opts.windowScale.isSome then wsOption ourRcvWscale else []) ++
    (if c.tsEnabled then tsOption c.tsVal c.tsRecent else []) ++
    (if c.sackOk then sackPermOption else [])

/-- Passive open on a SYN: the control block in SYN_RCVD and the SYN-ACK. -/
def acceptWithIssAt (ipSrc ipDst : Ipv4Addr) (th : TcpHeader) (opts : TcpOptions) (iss : U32)
    (now : U64) (rnd : U32) : Option (Connection F × Bytes) :=
  if !hasFlag th.flags SYN then none
  else
    let conn := synRcvdBlock ipSrc ipDst th opts iss now rnd
    let synack := conn.segmentOpts conn.send.iss conn.recv.nxt (SYN ||| ACK) (conn.synackOptions opts) []
    some ({ conn with retx := conn.retx.record conn.send.iss conn.send.nxt synack now }, synack)

/-- The control block of an active open, before the SYN is queued. -/
def synSentBlock (localEnd remoteEnd : Endpoint) (iss : U32) (now : U64) (rnd : U32) : Connection F :=
  let wnd : U16 := 1024#16
  { state := .synSent
    send := { iss, una := iss, nxt := iss + 1#32, wnd := wnd.setWidth 32 }
    recv := { irs := 0#32, nxt := 0#32, wnd }  -- the peer's sequence space is not known yet
    localEnd
    remoteEnd
    reasm := .new 0#32
    sendMss := defaultSendMss
    tsEnabled := false
    tsRecent := 0#32
    tsVal := now.setWidth 32
    sndWscale := 0
    sackOk := false
    recover := iss
    maxSndWnd := wnd.setWidth 32
    challengeBudget := freshBudget rnd
    challengeWindowMs := now
    lastActiveMs := now }

def synOptions (c : Connection F) : Bytes :=
  mssOption ourMss ++ wsOption ourRcvWscale ++ tsOption c.tsVal 0#32 ++ sackPermOption

/-- Active open: the control block in SYN_SENT and the SYN. -/
def connectWithIss (localEnd remoteEnd : Endpoint) (iss : U32) (now : U64) (rnd : U32) :
    Connection F × Bytes :=
  let conn := synSentBlock localEnd remoteEnd iss now rnd
  let syn := conn.segmentOpts conn.send.iss 0#32 SYN conn.synOptions []
  ({ conn with retx := conn.retx.record conn.send.iss conn.send.nxt syn now }, syn)

/-- An established control block from a validated SYN cookie. -/
def fromSynCookie (localEnd remoteEnd : Endpoint) (peerIsn cookie : U32) (sendMss : U16) (now : U64)
    (rnd : U32) : Connection F :=
  let wnd : U16 := 1024#16
  let iss := cookie
  { state := .established
    send := { iss, una := iss + 1#32, nxt := iss + 1#32, wnd := wnd.setWidth 32 }
    recv := { irs := peerIsn, nxt := peerIsn + 1#32, wnd }
    localEnd
    remoteEnd
    reasm := .new (peerIsn + 1#32)
    sendMss := umin sendMss ourMss
    tsEnabled := false
    tsRecent := 0#32
    tsVal := now.setWidth 32
    sndWscale := 0
    sackOk := false
    recover := iss
    maxSndWnd := wnd.setWidth 32
    challengeBudget := freshBudget rnd
    challengeWindowMs := now
    lastActiveMs := now }

/-- Bytes sent but not yet acknowledged. -/
def flightSize (c : Connection F) : U32 := c.send.nxt - c.send.una

/-- What may still be sent: `min(SND.WND, cwnd) − FlightSize`, at least zero. -/
def usableWindow (c : Connection F) : U32 :=
  saturatingSub (umin c.send.wnd c.cong.window) c.flightSize

def write (c : Connection F) (data : Bytes) : Connection F := { c with sendBuf := c.sendBuf ++ data }

def setNodelay (c : Connection F) (nodelay : Bool) : Connection F := { c with nagle := !nodelay }

def setKeepalive (c : Connection F) (on : Bool) : Connection F := { c with keepaliveEnabled := on }

def useBbr (c : Connection F) : Connection F := { c with cong := .bbr .new }

def takeReceived (c : Connection F) : Connection F × Bytes := ({ c with recvBuf := [] }, c.recvBuf)

/-- Put `seg`, which covers the next `n` sequence numbers, on the wire: advance
SND.NXT and record it. -/
def launch (c : Connection F) (n : Nat) (seg : Bytes) (now : U64) : Connection F :=
  let nxt := c.send.nxt + BitVec.ofNat 32 n
  { c with send := { c.send with nxt }
           retx := c.retx.record (nxt - BitVec.ofNat 32 n) nxt seg now }

/-- Drain `n` bytes of the send buffer into one new segment. -/
def transmit (c : Connection F) (n : Nat) (flags : U8) (now : U64) : Connection F × Bytes :=
  let payload := c.sendBuf.take n
  let c := { c with sendBuf := c.sendBuf.drop n }
  let seg := c.segment c.send.nxt c.recv.nxt flags payload
  (c.launch n seg now, seg)

/-- Send and queue our FIN, and go to `next`. -/
def sendFin (c : Connection F) (next : State) (now : U64) : Connection F × Option Bytes :=
  let c := { c with tsVal := now.setWidth 32 }
  let out := c.segment c.send.nxt c.recv.nxt (FIN ||| ACK) []
  ({ c.launch 1 out now with state := next }, some out)

/-- Close our send side. From any other state there is no FIN to send. -/
def close (c : Connection F) (now : U64) : Connection F × Option Bytes :=
  match c.state with
  | .established => c.sendFin .finWait1 now
  | .closeWait => c.sendFin .lastAck now
  | _ => (c, none)

end Connection
end TcpStack
