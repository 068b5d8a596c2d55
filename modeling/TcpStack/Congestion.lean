import TcpStack.Double

/-!
# Congestion control

The loss-based CUBIC controller, the model-based BBR controller, and the enum
that dispatches between them.
-/
namespace TcpStack
open F64

def mss : U32 := 1460#32

def initSsthresh : U32 := 65535#32
def dupAckThreshold : U32 := 3#32
def cubicBetaNum : U32 := 7#32
def cubicBetaDen : U32 := 10#32

structure Cubic where
  cwnd : U32 := mss
  ssthresh : U32 := initSsthresh
  dupAcks : U32 := 0#32
  inRecovery : Bool := false
  wMax : U32 := 0#32
  epochMs : U64 := 0#64
  deriving DecidableEq, Repr

namespace Cubic

def window (c : Cubic) : U32 := c.cwnd

/-- The cubic curve `C·(t − K)³ + W_max` at `nowMs`, in bytes. -/
def cubicTarget (F : Type) [F64 F] (c : Cubic) (nowMs : U64) : U32 :=
  let one : F := lit 10 1
  let wMax : F := div (ofNat c.wMax.toNat) (ofNat mss.toNat)
  let beta : F := div (ofNat cubicBetaNum.toNat) (ofNat cubicBetaDen.toNat)
  let cubicC : F := lit 4 1
  let k := cbrt (div (mul wMax (sub one beta)) cubicC)
  let t : F := div (ofNat (saturatingSub nowMs c.epochMs).toNat) (lit 10000 1)
  let w := add (mul cubicC (powi (sub t k) 3)) wMax
  toU32 (mul (F64.max w one) (ofNat mss.toNat))

/-- An ACK of `acked` new bytes at `nowMs`. -/
def onAck (F : Type) [F64 F] (c : Cubic) (acked : U32) (nowMs : U64) : Cubic :=
  let c := { c with dupAcks := 0#32 }
  if c.inRecovery then
    { c with inRecovery := false, cwnd := c.ssthresh, epochMs := 0#64 }
  else if acked = 0#32 then c
  else if c.cwnd < c.ssthresh then
    { c with cwnd := saturatingAdd c.cwnd mss }
  else
    -- a new epoch starts on the first congestion-avoidance ACK
    let c := if c.epochMs = 0#64 then { c with epochMs := nowMs, wMax := umax c.wMax c.cwnd } else c
    let target := c.cubicTarget F nowMs
    if target > c.cwnd then
      let acksPerRtt := umax (c.cwnd / mss) 1#32
      { c with cwnd := saturatingAdd c.cwnd (umax ((target - c.cwnd) / acksPerRtt) 1#32) }
    else
      { c with cwnd := saturatingAdd c.cwnd (umax (mss * mss / c.cwnd) 1#32) }

/-- A duplicate ACK; `true` exactly on the threshold-th one. -/
def onDupAck (c : Cubic) (_flight : U32) : Cubic × Bool :=
  let c := { c with dupAcks := c.dupAcks + 1#32 }
  if c.dupAcks = dupAckThreshold then
    let ssthresh := umax (c.cwnd * cubicBetaNum / cubicBetaDen) (2#32 * mss)
    ({ c with wMax := c.cwnd, ssthresh, cwnd := ssthresh + dupAckThreshold * mss, epochMs := 0#64,
              inRecovery := true }, true)
  else if c.inRecovery then
    ({ c with cwnd := saturatingAdd c.cwnd mss }, false)
  else (c, false)

def onTimeout (c : Cubic) (_flight : U32) : Cubic :=
  { wMax := c.cwnd
    ssthresh := umax (c.cwnd * cubicBetaNum / cubicBetaDen) (2#32 * mss)
    cwnd := mss
    dupAcks := 0#32
    inRecovery := false
    epochMs := 0#64 }

def onPartialAck (c : Cubic) (acked : U32) : Cubic :=
  { c with dupAcks := 0#32, cwnd := umax (saturatingAdd (saturatingSub c.cwnd acked) mss) mss }

end Cubic

def bwWindowRounds : U64 := 10#64
def rtpropWindowMs : U64 := 10000#64
def probeRttDurationMs : U64 := 200#64
def minPipeCwnd : U32 := 4#32 * mss
def fullBwCountMax : U32 := 3#32

inductive Mode where
  | startup
  | drain
  | probeBw
  | probeRtt
  deriving DecidableEq, Repr

section
variable {F : Type} [F64 F]

def highGain : F := lit 2885390081777927 15
def drainGain : F := div (lit 10 1) highGain
def cwndGain : F := lit 20 1
def fullBwThresh : F := lit 125 2

def probeBwGains : List F :=
  [lit 125 2, lit 75 2, lit 10 1, lit 10 1, lit 10 1, lit 10 1, lit 10 1, lit 10 1]

/-- A sliding-window maximum filter kept as a decreasing deque, front first. -/
structure WindowedMax (F : Type) where
  window : U64
  dq : List (U64 × F) := []

def WindowedMax.update (m : WindowedMax F) (t : U64) (v : F) : WindowedMax F :=
  -- dominated tail samples go, the new one is pushed, stale front samples expire
  let dq := (m.dq.reverse.dropWhile (fun s => le s.2 v)).reverse ++ [(t, v)]
  { m with dq := dq.dropWhile (fun s => saturatingSub t s.1 > m.window) }

def WindowedMax.get (m : WindowedMax F) : F :=
  match m.dq with
  | [] => lit 0 1
  | s :: _ => s.2

structure Bbr (F : Type) [F64 F] where
  mode : Mode := .startup
  cwnd : U32 := minPipeCwnd
  pacingGain : F := highGain
  cwndGain : F := highGain
  bwFilter : WindowedMax F := { window := bwWindowRounds }
  rtpropMs : U64 := BitVec.allOnes 64
  rtpropStampMs : U64 := 0#64
  deliveredTimeMs : U64 := 0#64
  hasDelivery : Bool := false
  roundCount : U64 := 0#64
  roundStampMs : U64 := 0#64
  fullBw : F := lit 0 1
  fullBwCount : U32 := 0#32
  filledPipe : Bool := false
  cycleIndex : Nat := 0
  probeRttDoneMs : U64 := 0#64
  dupAcks : U32 := 0#32

namespace Bbr

def new : Bbr F := {}

def window (b : Bbr F) : U32 := b.cwnd

def pacingRateBps (b : Bbr F) : F := mul b.pacingGain b.bwFilter.get

def enterProbeBw (b : Bbr F) : Bbr F :=
  { b with mode := .probeBw, cwndGain := TcpStack.cwndGain, cycleIndex := 2,
           pacingGain := probeBwGains.getD 2 (lit 10 1) }

def maybeEnterProbeRtt (b : Bbr F) (rtpropExpired : Bool) (nowMs : U64) : Bbr F :=
  if rtpropExpired then
    { b with mode := .probeRtt, pacingGain := lit 10 1, cwndGain := lit 10 1,
             probeRttDoneMs := nowMs + probeRttDurationMs }
  else b

/-- State transitions, once per ACK. -/
def updateModel (b : Bbr F) (roundStart rtpropExpired : Bool) (nowMs : U64) : Bbr F :=
  let btlbw := b.bwFilter.get
  match b.mode with
  | .startup =>
      let b := { b with pacingGain := highGain, cwndGain := highGain }
      if roundStart then
        if le (mul b.fullBw fullBwThresh) btlbw then { b with fullBw := btlbw, fullBwCount := 0#32 }
        else
          let b := { b with fullBwCount := b.fullBwCount + 1#32 }
          if b.fullBwCount ≥ fullBwCountMax then { b with filledPipe := true, mode := .drain } else b
      else b
  | .drain =>
      let b := { b with pacingGain := drainGain, cwndGain := highGain }
      if roundStart then b.enterProbeBw else b
  | .probeBw =>
      let b := { b with cwndGain := TcpStack.cwndGain }
      let b := if roundStart then { b with cycleIndex := (b.cycleIndex + 1) % 8 } else b
      let b := { b with pacingGain := probeBwGains.getD b.cycleIndex (lit 10 1) }
      b.maybeEnterProbeRtt rtpropExpired nowMs
  | .probeRtt =>
      let b := { b with pacingGain := lit 10 1, cwndGain := lit 10 1 }
      if nowMs ≥ b.probeRttDoneMs then
        let b := { b with rtpropStampMs := nowMs, probeRttDoneMs := 0#64 }
        if b.filledPipe then b.enterProbeBw else { b with mode := .startup }
      else b

def recomputeCwnd (b : Bbr F) : Bbr F :=
  if b.mode = .probeRtt then { b with cwnd := minPipeCwnd }
  else
    let rtprop := if b.rtpropMs = BitVec.allOnes 64 then 0#64 else b.rtpropMs
    let bdp : F := div (mul b.bwFilter.get (ofNat rtprop.toNat)) (lit 10000 1)
    { b with cwnd := umax (toU32 (mul b.cwndGain bdp)) minPipeCwnd }

def onAck (b : Bbr F) (acked : U32) (rttMs : Option U64) (nowMs : U64) : Bbr F :=
  let b := { b with dupAcks := 0#32 }
  let rtpropExpired : Bool := saturatingSub nowMs b.rtpropStampMs > rtpropWindowMs
  let b := match rttMs with
    | some r =>
        if r ≤ b.rtpropMs ∨ rtpropExpired ∨ b.rtpropMs = BitVec.allOnes 64 then
          { b with rtpropMs := r, rtpropStampMs := nowMs }
        else b
    | none => b
  let rttForRound := if b.rtpropMs = BitVec.allOnes 64 then 1#64 else umax b.rtpropMs 1#64
  let roundStart : Bool := saturatingSub nowMs b.roundStampMs ≥ rttForRound
  let b := if roundStart then { b with roundCount := b.roundCount + 1#64, roundStampMs := nowMs } else b
  let b :=
    if b.hasDelivery then
      let intervalMs := saturatingSub nowMs b.deliveredTimeMs
      if intervalMs > 0#64 ∧ acked > 0#32 then
        let rateBps : F := div (mul (ofNat acked.toNat) (lit 10000 1)) (ofNat intervalMs.toNat)
        { b with bwFilter := b.bwFilter.update b.roundCount rateBps }
      else b
    else { b with hasDelivery := true }
  let b := { b with deliveredTimeMs := nowMs }
  (b.updateModel roundStart rtpropExpired nowMs).recomputeCwnd

def onDupAck (b : Bbr F) : Bbr F × Bool :=
  let b := { b with dupAcks := b.dupAcks + 1#32 }
  (b, b.dupAcks = dupAckThreshold)

def onTimeout (b : Bbr F) : Bbr F :=
  { b with mode := .startup, cwnd := minPipeCwnd, pacingGain := highGain, cwndGain := highGain,
           fullBw := lit 0 1, fullBwCount := 0#32, filledPipe := false, cycleIndex := 0,
           dupAcks := 0#32 }

end Bbr

inductive CongestionControl (F : Type) [F64 F] where
  | cubic (c : Cubic)
  | bbr (b : Bbr F)

namespace CongestionControl

def default : CongestionControl F := .cubic {}

def window : CongestionControl F → U32
  | .cubic c => c.window
  | .bbr b => b.window

def onAck (acked : U32) (rttMs : Option U64) (nowMs : U64) : CongestionControl F → CongestionControl F
  | .cubic c => .cubic (c.onAck F acked nowMs)
  | .bbr b => .bbr (b.onAck acked rttMs nowMs)

def onDupAck (flight : U32) : CongestionControl F → CongestionControl F × Bool
  | .cubic c => let (c, hit) := c.onDupAck flight; (.cubic c, hit)
  | .bbr b => let (b, hit) := b.onDupAck; (.bbr b, hit)

def onPartialAck (acked : U32) : CongestionControl F → CongestionControl F
  | .cubic c => .cubic (c.onPartialAck acked)
  | .bbr b => .bbr b

def onTimeout (flight : U32) : CongestionControl F → CongestionControl F
  | .cubic c => .cubic (c.onTimeout flight)
  | .bbr b => .bbr b.onTimeout

def inRecovery : CongestionControl F → Bool
  | .cubic c => c.inRecovery
  | .bbr _ => false

def pacingRateBps : CongestionControl F → F
  | .cubic _ => lit 0 1
  | .bbr b => b.pacingRateBps

def dupAcks : CongestionControl F → U32
  | .cubic c => c.dupAcks
  | .bbr b => b.dupAcks

theorem onDupAck_hit (cc : CongestionControl F) (flight : U32) :
    (cc.onDupAck flight).2 = true ↔ cc.dupAcks + 1#32 = dupAckThreshold := by
  cases cc with
  | cubic c =>
      simp only [onDupAck, Cubic.onDupAck, dupAcks]
      split_ifs with hhit hrec <;> simp [hhit]
  | bbr b => simp [onDupAck, Bbr.onDupAck, dupAcks]

end CongestionControl
end
end TcpStack
