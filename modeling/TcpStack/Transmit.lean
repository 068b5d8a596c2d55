import TcpStack.Connection

/-!
# Sending: the transmit loop and the clock

`pollTransmit` drains the send buffer and `onTick` runs the timers. The while
loops of the source carry a bound on their rounds: the hole loop marks one
more queued segment in each round, and the two data loops drain at least one
byte.
-/
namespace TcpStack.Connection
open Tcp F64

variable {F : Type} [F64 F]

/-- Retransmit lost segments, oldest first, while the pipe is below `limit`. -/
def retransmitHoles (limit : U32) (now : U64) : Nat → RetxQueue → RetxQueue × List Bytes
  | 0, q => (q, [])
  | fuel+1, q =>
      if q.pipe dupThresh < limit then
        match q.nextLostRetransmit dupThresh now with
        | (q, none) => (q, [])
        | (q, some pkt) =>
            let (q, out) := retransmitHoles limit now fuel q
            (q, pkt :: out)
      else (q, [])

def fillPipe (limit : U32) (now : U64) : Nat → Connection F → Connection F × List Bytes
  | 0, c => (c, [])
  | fuel+1, c =>
      if c.sendBuf.isEmpty then (c, [])
      else
        let pipe := c.retx.pipe dupThresh
        if pipe ≥ limit then (c, [])
        else
          let n := min (min (limit - pipe).toNat c.sendMss.toNat) c.sendBuf.length
          if n = 0 then (c, [])
          else
            let (c, seg) := c.transmit n (PSH ||| ACK) now
            let (c, out) := fillPipe limit now fuel c
            (c, seg :: out)

/-- SACK loss recovery: holes first, then new data, paced by the pipe estimate. -/
def recoverSack (c : Connection F) (now : U64) : Connection F × List Bytes :=
  let limit := umin c.send.wnd c.cong.window
  let (retx, holes) := retransmitHoles limit now c.retx.segments.length c.retx
  let c := { c with retx }
  let (c, new) := fillPipe limit now c.sendBuf.length c
  (c, holes ++ new)

/-- The pacing gate: whether a segment of `n` bytes may leave, and the time of the next. -/
def pace (c : Connection F) (pacing : F) (n : Nat) (now : U64) : Option (Connection F) :=
  if lt (lit 0 1) pacing then
    if now < c.nextSendMs then none
    else
      let gapMs := toU64 (ceil (div (mul (ofNat n) (lit 10000 1)) pacing))
      some { c with nextSendMs := saturatingAdd now (umax gapMs 1#64) }
  else some c

/-- The ordinary loop: window, Nagle and pacing decide each segment. -/
def drain (pacing : F) (now : U64) : Nat → Connection F → Connection F × List Bytes
  | 0, c => (c, [])
  | fuel+1, c =>
      if c.sendBuf.isEmpty then (c, [])
      else
        let mss := c.sendMss.toNat
        let n := min (min c.usableWindow.toNat mss) c.sendBuf.length
        if n = 0 then (c, [])
        else if c.nagle ∧ n < mss ∧ c.flightSize > 0#32 then (c, [])
        else
          match c.pace pacing n now with
          | none => (c, [])
          | some c =>
              let (c, seg) := c.transmit n (PSH ||| ACK) now
              let (c, out) := drain pacing now fuel c
              (c, seg :: out)

/-- Arm the tail loss probe when data is outstanding with nothing new queued. -/
def armProbe (c : Connection F) (now : U64) : Connection F :=
  if c.flightSize > 0#32 ∧ c.sendBuf.isEmpty ∧ !c.cong.inRecovery then
    if c.tlpDeadlineMs = 0#64 then
      { c with tlpDeadlineMs := saturatingAdd now (umax (c.rtt.rto / 2#64) 1#64) }
    else c
  else { c with tlpDeadlineMs := 0#64, tlpSent := false }

/-- Drain the send buffer into wire segments, as far as the window allows. -/
def pollTransmit (c : Connection F) (now : U64) : Connection F × List Bytes :=
  if c.state ≠ .established ∧ c.state ≠ .closeWait then (c, [])
  else
    let c := { c with tsVal := now.setWidth 32 }
    if c.sackOk && c.cong.inRecovery then c.recoverSack now
    else
      let (c, out) := drain c.cong.pacingRateBps now c.sendBuf.length c
      (c.armProbe now, out)

/-- Expire TIME_WAIT and reap a half-closed connection that went idle. -/
def reap (c : Connection F) (now : U64) : Connection F :=
  let c := if c.state = .timeWait ∧ saturatingSub now c.timeWaitMs ≥ timeWaitLimitMs then
      { c with state := .closed } else c
  let idle := saturatingSub now c.lastActiveMs
  if (c.state = .finWait2 ∧ idle ≥ finWait2TimeoutMs) ∨
      (c.state = .closeWait ∧ idle ≥ closeWaitTimeoutMs) then
    { c with state := .closed }
  else c

/-- Resend the holes that a later ACK exposed. -/
def tickRack (c : Connection F) (now : U64) : Connection F × List Bytes :=
  let (retx, out) := c.retx.rackMarkLost now (umax (c.rtt.rto / 4#64) 1#64)
  ({ c with retx }, out)

/-- The tail loss probe, at its deadline. -/
def tickProbe (c : Connection F) (now : U64) : Connection F × List Bytes :=
  if c.tlpDeadlineMs ≠ 0#64 ∧ now ≥ c.tlpDeadlineMs ∧ c.flightSize > 0#32 ∧ !c.cong.inRecovery ∧
      !c.tlpSent then
    match c.retx.retransmitLast now with
    | (retx, some probe) => ({ c with retx, tlpSent := true, tlpDeadlineMs := 0#64 }, [probe])
    | (retx, none) => ({ c with retx, tlpDeadlineMs := 0#64 }, [])
  else (c, [])

def tickDue (c : Connection F) (now : U64) : Connection F × List Bytes :=
  let (retx, due) := c.retx.due now c.rtt.rto
  let c := { c with retx }
  if due.isEmpty then (c, [])
  else ({ c with cong := c.cong.onTimeout c.flightSize, rtt := c.rtt.backOff }, due)

/-- The persist timer: poke one byte into a closed window. -/
def tickPersist (c : Connection F) (now : U64) : Connection F × List Bytes :=
  if (c.state = .established ∨ c.state = .closeWait) ∧ c.send.wnd = 0#32 ∧ !c.sendBuf.isEmpty ∧
      c.flightSize = 0#32 then
    if c.persistMs = 0#64 then
      ({ c with persistMs := saturatingAdd now c.rtt.rto }, [])
    else if now ≥ c.persistMs then
      let (c, probe) := c.transmit 1 ACK now
      ({ c with persistMs := 0#64 }, [probe])
    else (c, [])
  else ({ c with persistMs := 0#64 }, [])

/-- Keepalive: probe an idle connection, and give up after the last probe. -/
def tickKeepalive (c : Connection F) (now : U64) : Connection F × List Bytes :=
  if c.keepaliveEnabled ∧ c.state = .established ∧ c.flightSize = 0#32 ∧ c.sendBuf.isEmpty then
    let nextProbeAt := saturatingAdd (saturatingAdd c.lastActiveMs keepaliveIdleMs)
      (c.keepaliveProbesSent.setWidth 64 * keepaliveIntvlMs)
    if now ≥ nextProbeAt then
      if c.keepaliveProbesSent ≥ keepaliveProbes then ({ c with state := .closed }, [])
      else
        let c := { c with keepaliveProbesSent := c.keepaliveProbesSent + 1#32 }
        (c, [c.segment (c.send.nxt - 1#32) c.recv.nxt ACK []])
    else (c, [])
  else (c, [])

/-- The time-driven step: all timers, in the source's order. -/
def onTick (c : Connection F) (now : U64) : Connection F × List Bytes :=
  let c := { c with tsVal := now.setWidth 32 }
  let c := c.reap now
  let (c, rack) := c.tickRack now
  let (c, probe) := c.tickProbe now
  let (c, due) := c.tickDue now
  let (c, persist) := c.tickPersist now
  let (c, keepalive) := c.tickKeepalive now
  (c, rack ++ probe ++ due ++ persist ++ keepalive)

end TcpStack.Connection
