import TcpStack.Word

/-!
# RTT estimation and the retransmission timeout
-/
namespace TcpStack

def alphaShift : Nat := 3
def betaShift : Nat := 2
def kFactor : U64 := 4#64
def granularityMs : U64 := 1#64
def minRtoMs : U64 := 200#64
def maxRtoMs : U64 := 60000#64

/-- Smoothed RTT estimator producing an adaptive retransmission timeout. -/
structure RttEstimator where
  srttMs : Option U64 := none
  rttvarMs : U64 := 0#64
  backoffShift : U32 := 0#32
  deriving DecidableEq, Repr

namespace RttEstimator

def absDiff (a b : U64) : U64 := if a < b then b - a else a - b

def sample (e : RttEstimator) (rttMs : U64) : RttEstimator :=
  match e.srttMs with
  | none => { srttMs := some rttMs, rttvarMs := rttMs / 2#64, backoffShift := 0#32 }
  | some srtt =>
      let delta := absDiff srtt rttMs
      { srttMs := some (srtt - (srtt >>> alphaShift) + (rttMs >>> alphaShift))
        rttvarMs := e.rttvarMs - (e.rttvarMs >>> betaShift) + (delta >>> betaShift)
        backoffShift := 0#32 }

/-- The current timeout: the smoothed estimate, doubled once per consecutive
timeout and clamped. -/
def rto (e : RttEstimator) : U64 :=
  let base : U64 := match e.srttMs with
    | none => minRtoMs
    | some srtt => umin (umax (srtt + umax (kFactor * e.rttvarMs) granularityMs) minRtoMs) maxRtoMs
  umin (base <<< e.backoffShift.toNat) maxRtoMs

def backOff (e : RttEstimator) : RttEstimator :=
  { e with backoffShift := umin (e.backoffShift + 1#32) 6#32 }

end RttEstimator
end TcpStack
