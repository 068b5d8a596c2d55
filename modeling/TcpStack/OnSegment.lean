import TcpStack.Connection

/-!
# Receiving a segment

`onSegment` in the order of the source: the reset check, the active open, the
blind-SYN check, the passive open, then one handler for the two states whose
send side is open and one for each closing state.
-/
namespace TcpStack.Connection
open Tcp TcpStack.Seq

variable {F : Type} [F64 F]

/-- Both initial sequence numbers are fixed. -/
def isSynchronized (c : Connection F) : Bool :=
  match c.state with
  | .established | .finWait1 | .finWait2 | .closeWait | .closing | .lastAck | .timeWait => true
  | _ => false

/-- `seq` lies in our receive window. -/
def inWindow (c : Connection F) (seq : U32) : Bool :=
  let stop := c.recv.nxt + c.recv.wnd.setWidth 32
  !before seq c.recv.nxt && before seq stop

def challengeAck (c : Connection F) : Bytes := c.bareAck

/-- A challenge ACK while the budget of the current window lasts. -/
def maybeChallenge (c : Connection F) (now : U64) (rnd : U32) : Connection F × Option Bytes :=
  let c := if now - c.challengeWindowMs ≥ challengeRefillMs then
      { c with challengeWindowMs := now, challengeBudget := freshBudget rnd } else c
  if c.challengeBudget = 0#32 then (c, none)
  else
    let c := { c with challengeBudget := c.challengeBudget - 1#32 }
    (c, some c.challengeAck)

/-- `SND.UNA − MAX.SND.WND ≤ SEG.ACK ≤ SND.NXT` on the wrapping circle. -/
def ackAcceptable (c : Connection F) (ack : U32) : Bool :=
  let low := c.send.una - c.maxSndWnd
  !before ack low && !after ack c.send.nxt

def onRst (c : Connection F) (th : TcpHeader) (now : U64) (rnd : U32) : Connection F × Option Bytes :=
  if c.state = .synSent then
    if hasFlag th.flags ACK ∧ th.ack = c.send.nxt then ({ c with state := .closed }, none)
    else (c, none)
  else if c.state = .timeWait then (c, none)
  else if th.seq = c.recv.nxt then ({ c with state := .closed }, none)
  else if c.inWindow th.seq then c.maybeChallenge now rnd
  else (c, none)

def onSynSent (c : Connection F) (th : TcpHeader) (opts : TcpOptions) (now : U64) :
    Connection F × Option Bytes :=
  if th.flags &&& (SYN ||| ACK) = SYN ||| ACK ∧ th.ack = c.send.nxt then
    let c := { c with
      recv := { c.recv with irs := th.seq, nxt := th.seq + 1#32 }
      reasm := .new (th.seq + 1#32)
      send := { c.send with una := th.ack }
      sendMss := (opts.mss.map (umin · ourMss)).getD c.sendMss
      tsEnabled := opts.timestamps.isSome || c.tsEnabled
      tsRecent := (opts.timestamps.map Prod.fst).getD c.tsRecent
      sndWscale := opts.windowScale.getD c.sndWscale
      sackOk := opts.sackPermitted || c.sackOk }
    let c := { c with retx := (c.retx.ack c.send.una now).1, state := .established }
    (c, some c.bareAck)
  else (c, none)

/-- SYN_RCVD: complete the passive open; `none` when the segment is ignored. -/
def onSynRcvd (c : Connection F) (th : TcpHeader) (now : U64) : Option (Connection F) :=
  if c.state = .synRcvd then
    if hasFlag th.flags ACK ∧ th.ack = c.send.nxt then
      some { c with send := { c.send with una := th.ack }
                    retx := (c.retx.ack th.ack now).1
                    state := .established }
    else none
  else some c

/-- PAWS: reject an old timestamp, else advance TS.Recent from a segment at or
under the left window edge. -/
def paws (c : Connection F) (th : TcpHeader) (opts : TcpOptions) : Option (Connection F) :=
  match c.tsEnabled, opts.timestamps with
  | true, some (tsval, _) =>
      if before tsval c.tsRecent then none
      else if !after th.seq c.recv.nxt then some { c with tsRecent := tsval }
      else some c
  | _, _ => some c

/-- The window field, left-shifted by the peer's scale. -/
def scaledWindow (c : Connection F) (th : TcpHeader) : U32 :=
  th.window.setWidth 32 <<< (c.sndWscale : Nat)

def updateWindow (c : Connection F) (newWnd : U32) : Connection F :=
  { c with send := { c.send with wnd := newWnd }, maxSndWnd := umax c.maxSndWnd newWnd }

def fastRetransmit (c : Connection F) (now : U64) : Connection F × Option Bytes :=
  let (retx, pkt) := c.retx.fastRetransmit now
  ({ c with retx }, pkt)

def rttSample (c : Connection F) (opts : TcpOptions) (timed : Option U64) : Option U64 :=
  if c.tsEnabled then opts.timestamps.map (fun ts => (c.tsVal - ts.2).setWidth 64) else timed

/-- New data acknowledged. A partial ACK in recovery resends the next hole. -/
def onNewAck (c : Connection F) (th : TcpHeader) (opts : TcpOptions) (now : U64) :
    Connection F × Option Bytes :=
  let acked := th.ack - c.send.una
  let c := { c with send := { c.send with una := th.ack }, tlpSent := false, tlpDeadlineMs := 0#64 }
  let (retx, timed) := c.retx.ack c.send.una now
  let sample := c.rttSample opts timed
  let c := { c with
    retx
    rtt := (sample.map c.rtt.sample).getD c.rtt }
  if c.cong.inRecovery && before th.ack c.recover then
    { c with cong := c.cong.onPartialAck acked }.fastRetransmit now
  else ({ c with cong := c.cong.onAck acked sample now }, none)

/-- A duplicate ACK; the third in a row enters recovery. -/
def onDupAck (c : Connection F) (now : U64) : Connection F × Option Bytes :=
  let (cong, hit) := c.cong.onDupAck c.flightSize
  let c := { c with cong }
  if hit then { c with recover := c.send.nxt }.fastRetransmit now else (c, none)

/-- An acceptable ACK: SACK blocks first, then the new-data or duplicate case. -/
def processAck (c : Connection F) (th : TcpHeader) (payload : Bytes) (opts : TcpOptions)
    (prevWnd newWnd : U32) (now : U64) : Connection F × Option Bytes :=
  let c := if c.sackOk ∧ opts.sackBlockCount > 0 then
      { c with retx := c.retx.markSacked opts.validBlocks } else c
  if between c.send.una th.ack c.send.nxt then c.onNewAck th opts now
  else if th.ack = c.send.una ∧ c.send.una ≠ c.send.nxt ∧ payload.isEmpty ∧ newWnd = prevWnd ∧
      newWnd ≠ 0#32 then c.onDupAck now
  else (c, none)

/-- Feed the reassembler and pass on what became contiguous. -/
def deliver (c : Connection F) (seq : U32) (payload : Bytes) : Connection F :=
  if payload.isEmpty then c
  else
    let (reasm, delivered) := c.reasm.recv seq payload c.recv.nxt
    let c := { c with reasm }
    if delivered.isEmpty then c
    else { c with recv := { c.recv with nxt := c.recv.nxt + BitVec.ofNat 32 delivered.length }
                  recvBuf := c.recvBuf ++ delivered }

/-- The peer's FIN sits right after the segment's data. -/
def finSeq (th : TcpHeader) (payload : Bytes) : U32 := th.seq + BitVec.ofNat 32 payload.length

def takeFin (c : Connection F) (next : State) : Connection F :=
  { c with recv := { c.recv with nxt := c.recv.nxt + 1#32 }, peerFin := true, state := next }

/-- Data, then the FIN, then the acknowledgement, in ESTABLISHED and CLOSE_WAIT. -/
def receive (c : Connection F) (th : TcpHeader) (payload : Bytes) : Connection F × Option Bytes :=
  let c := c.deliver th.seq payload
  let fin := hasFlag th.flags FIN
  let finSeq := finSeq th payload
  if fin ∧ c.state = .closeWait ∧ !after finSeq c.recv.nxt then (c, some c.bareAck)
  else
    let c := if fin ∧ c.state = .established ∧ !before finSeq c.recv.nxt then
        { c with pendingFin := some finSeq } else c
    if c.state = .established ∧ c.pendingFin = some c.recv.nxt then
      let c := { c with pendingFin := none }.takeFin .closeWait
      (c, some c.bareAck)
    else if !payload.isEmpty then
      (c, some (c.segmentOpts c.send.nxt c.recv.nxt ACK c.ackOptions []))
    else (c, none)

/-- ESTABLISHED and CLOSE_WAIT. Where the source falls through this block it
reaches its end, since no later test holds in these two states. -/
def onOpen (c : Connection F) (th : TcpHeader) (payload : Bytes) (opts : TcpOptions) (now : U64)
    (rnd : U32) : Connection F × Option Bytes :=
  match c.paws th opts with
  | none => (c, some c.bareAck)
  | some c =>
      let prevWnd := c.send.wnd
      let newWnd := c.scaledWindow th
      let c := c.updateWindow newWnd
      if hasFlag th.flags ACK then
        if !c.ackAcceptable th.ack then c.maybeChallenge now rnd
        else
          match c.processAck th payload opts prevWnd newWnd now with
          | (c, some pkt) => (c, some pkt)
          | (c, none) => c.receive th payload
      else c.receive th payload

/-- Drop from the queue what `ack` covers. -/
def dropAcked (c : Connection F) (ack : U32) (now : U64) : Connection F :=
  { c with retx := (c.retx.ack ack now).1 }

/-- Our FIN is acknowledged by this segment. -/
def ackedOurFin (c : Connection F) (th : TcpHeader) : Bool :=
  hasFlag th.flags ACK && th.ack == c.send.nxt

def onLastAck (c : Connection F) (th : TcpHeader) (now : U64) : Connection F × Option Bytes :=
  if c.ackedOurFin th then ({ c.dropAcked th.ack now with state := .closed }, none) else (c, none)

def onFinWait1 (c : Connection F) (th : TcpHeader) (payload : Bytes) (now : U64) :
    Connection F × Option Bytes :=
  let acked := c.ackedOurFin th
  let c := if acked then c.dropAcked th.ack now else c
  let c := c.deliver th.seq payload
  if hasFlag th.flags FIN ∧ finSeq th payload = c.recv.nxt then
    let c := if acked then { c.takeFin .timeWait with timeWaitMs := now } else c.takeFin .closing
    (c, some c.bareAck)
  else
    let c := if acked then { c with state := .finWait2 } else c
    if !payload.isEmpty then (c, some c.bareAck) else (c, none)

def onFinWait2 (c : Connection F) (th : TcpHeader) (payload : Bytes) (now : U64) :
    Connection F × Option Bytes :=
  let c := c.deliver th.seq payload
  if hasFlag th.flags FIN ∧ finSeq th payload = c.recv.nxt then
    let c := { c.takeFin .timeWait with timeWaitMs := now }
    (c, some c.bareAck)
  else if !payload.isEmpty then (c, some c.bareAck)
  else (c, none)

def onClosing (c : Connection F) (th : TcpHeader) (now : U64) : Connection F × Option Bytes :=
  if c.ackedOurFin th then
    ({ c.dropAcked th.ack now with state := .timeWait, timeWaitMs := now }, none)
  else (c, none)

/-- What a segment does once resets and handshakes are dealt with. -/
def onState (c : Connection F) (th : TcpHeader) (payload : Bytes) (opts : TcpOptions) (now : U64)
    (rnd : U32) : Connection F × Option Bytes :=
  match c.state with
  | .established | .closeWait => c.onOpen th payload opts now rnd
  | .lastAck => c.onLastAck th now
  | .finWait1 => c.onFinWait1 th payload now
  | .finWait2 => c.onFinWait2 th payload now
  | .closing => c.onClosing th now
  | _ => (c, none)

/-- Refresh the clocks that any arriving segment refreshes. -/
def arrive (c : Connection F) (now : U64) : Connection F :=
  { c with tsVal := now.setWidth 32, lastActiveMs := now, keepaliveProbesSent := 0#32 }

def onSegment (c : Connection F) (seg : Segment) (now : U64) (rnd : U32) :
    Connection F × Option Bytes :=
  let th := seg.th
  let c := c.arrive now
  if hasFlag th.flags RST then c.onRst th now rnd
  else if c.state = .synSent then c.onSynSent th seg.opts now
  else if hasFlag th.flags SYN && c.isSynchronized then c.maybeChallenge now rnd
  else
    match c.onSynRcvd th now with
    | none => (c, none)
    | some c => c.onState th seg.payload seg.opts now rnd

end TcpStack.Connection
