import TcpStack.Congestion

/-!
# The arithmetic of the CUBIC window

The window grows by saturating additions and is reduced by plain ones. A build
that checks its arithmetic stops where a plain operation leaves the range of
`u32`, and a release build wraps. The module says which steps of the controller
stay in range, in every run and with any value of the cubic curve.
-/
namespace TcpStack

namespace Cubic

/-- The first congestion-avoidance ACK starts an epoch. -/
def inEpoch (c : Cubic) (nowMs : U64) : Cubic :=
  if c.epochMs = 0#64 then { c with epochMs := nowMs, wMax := umax c.wMax c.cwnd } else c

/-- An ACK of `acked` new bytes, when the cubic curve is at `target`. -/
def onAckTo (c : Cubic) (acked : U32) (nowMs : U64) (target : U32) : Cubic :=
  let c := { c with dupAcks := 0#32 }
  if c.inRecovery then
    { c with inRecovery := false, cwnd := c.ssthresh, epochMs := 0#64 }
  else if acked = 0#32 then c
  else if c.cwnd < c.ssthresh then
    { c with cwnd := saturatingAdd c.cwnd mss }
  else
    let c := c.inEpoch nowMs
    if target > c.cwnd then
      let acksPerRtt := umax (c.cwnd / mss) 1#32
      { c with cwnd := saturatingAdd c.cwnd (umax ((target - c.cwnd) / acksPerRtt) 1#32) }
    else
      { c with cwnd := saturatingAdd c.cwnd (umax (mss * mss / c.cwnd) 1#32) }

/-- The value of the curve that an ACK at `nowMs` looks at. -/
def target (F : Type) [F64 F] (c : Cubic) (nowMs : U64) : U32 :=
  ({ c with dupAcks := 0#32 }.inEpoch nowMs).cubicTarget F nowMs

theorem onAck_eq {F : Type} [F64 F] (c : Cubic) (acked : U32) (nowMs : U64) :
    c.onAck F acked nowMs = c.onAckTo acked nowMs (c.target F nowMs) := rfl

def onAckChecked (c : Cubic) (acked : U32) (nowMs : U64) (target : U32) : Option Cubic :=
  let c := { c with dupAcks := 0#32 }
  if c.inRecovery then
    some { c with inRecovery := false, cwnd := c.ssthresh, epochMs := 0#64 }
  else if acked = 0#32 then some c
  else if c.cwnd < c.ssthresh then
    some { c with cwnd := saturatingAdd c.cwnd mss }
  else
    let c := c.inEpoch nowMs
    if target > c.cwnd then do
      let acksPerRtt := umax (← divChecked c.cwnd mss) 1#32
      let step ← divChecked (← subChecked target c.cwnd) acksPerRtt
      return { c with cwnd := saturatingAdd c.cwnd (umax step 1#32) }
    else do
      let step ← divChecked (← mulChecked mss mss) c.cwnd
      return { c with cwnd := saturatingAdd c.cwnd (umax step 1#32) }

/-- The window after a loss: 7/10 of it, and at least two segments. -/
def reducedChecked (c : Cubic) : Option U32 := do
  return umax (← divChecked (← mulChecked c.cwnd cubicBetaNum) cubicBetaDen) (← mulChecked 2#32 mss)

def onDupAckChecked (c : Cubic) (_flight : U32) : Option Cubic := do
  let c := { c with dupAcks := ← addChecked c.dupAcks 1#32 }
  if c.dupAcks = dupAckThreshold then
    let ssthresh ← c.reducedChecked
    let cwnd ← addChecked ssthresh (← mulChecked dupAckThreshold mss)
    return { c with wMax := c.cwnd, ssthresh, cwnd, epochMs := 0#64, inRecovery := true }
  else if c.inRecovery then
    return { c with cwnd := saturatingAdd c.cwnd mss }
  else return c

def onTimeoutChecked (c : Cubic) (_flight : U32) : Option Cubic := do
  return { wMax := c.cwnd, ssthresh := ← c.reducedChecked, cwnd := mss, dupAcks := 0#32, inRecovery := false,
           epochMs := 0#64 }

/-- A call on the controller; an ACK comes with the value of the curve. -/
inductive Event where
  | ack (acked : U32) (nowMs : U64) (target : U32)
  | dupAck (flight : U32)
  | partialAck (acked : U32)
  | timeout (flight : U32)
  deriving DecidableEq, Repr

def apply (c : Cubic) : Event → Cubic
  | .ack acked nowMs target => c.onAckTo acked nowMs target
  | .dupAck flight => (c.onDupAck flight).1
  | .partialAck acked => c.onPartialAck acked
  | .timeout flight => c.onTimeout flight

def applyChecked (c : Cubic) : Event → Option Cubic
  | .ack acked nowMs target => c.onAckChecked acked nowMs target
  | .dupAck flight => c.onDupAckChecked flight
  | .partialAck acked => some (c.onPartialAck acked)
  | .timeout flight => c.onTimeoutChecked flight

def run (c : Cubic) (events : List Event) : Cubic := events.foldl apply c

def Loses (c : Cubic) : Event → Prop
  | .dupAck _ => c.dupAcks + 1#32 = dupAckThreshold
  | .timeout _ => True
  | _ => False

/-- No operation of the step overflows, and a loss event reduces the window exactly. -/
structure Exact (c : Cubic) (e : Event) : Prop where
  returns : c.applyChecked e = some (c.apply e)
  reduces : c.Loses e → (c.apply e).ssthresh.toNat = max (7 * c.cwnd.toNat / 10) (2 * 1460)

/-- The window a loss event multiplies, and the counter a duplicate advances,
leave room for it. -/
def InRange (c : Cubic) : Event → Prop
  | .dupAck _ => c.dupAcks ≠ BitVec.allOnes 32 ∧ (c.dupAcks = 2#32 → c.cwnd.toNat ≤ 613566756)
  | .timeout _ => c.cwnd.toNat ≤ 613566756
  | _ => True

instance (c : Cubic) : (e : Event) → Decidable (c.InRange e)
  | .dupAck _ => inferInstanceAs (Decidable (_ ∧ (_ → _)))
  | .timeout _ => inferInstanceAs (Decidable (_ ≤ _))
  | .ack _ _ _ | .partialAck _ => inferInstanceAs (Decidable True)

/-- The window never falls below one segment, nor the threshold below two. -/
structure Floored (c : Cubic) : Prop where
  cwnd : 1460 ≤ c.cwnd.toNat
  ssthresh : 2920 ≤ c.ssthresh.toNat

theorem mul_beta {a : U32} (h : a.toNat ≤ 613566756) : (a * cubicBetaNum).toNat = a.toNat * 7 := by
  rw [BitVec.toNat_mul]
  exact Nat.mod_eq_of_lt (by simp only [cubicBetaNum, BitVec.toNat_ofNat]; omega)

theorem reduced_toNat {a : U32} (h : a.toNat ≤ 613566756) :
    (umax (a * cubicBetaNum / cubicBetaDen) (2#32 * mss)).toNat = max (7 * a.toNat / 10) (2 * 1460) := by
  rw [umax_toNat, BitVec.toNat_udiv, mul_beta h, Nat.mul_comm]
  rfl

/-- Whether or not it wraps, a reduction leaves at least two segments and room for three more. -/
theorem reduced_bounds (a : U32) :
    2920 ≤ (umax (a * cubicBetaNum / cubicBetaDen) (2#32 * mss)).toNat ∧
      (umax (a * cubicBetaNum / cubicBetaDen) (2#32 * mss)).toNat ≤ 429496729 := by
  rw [umax_toNat, BitVec.toNat_udiv]
  generalize a * cubicBetaNum = product
  have hlt := product.isLt
  have hten : cubicBetaDen.toNat = 10 := rfl
  have htwo : (2#32 * mss).toNat = 2920 := by decide
  rw [hten, htwo]
  omega

theorem reducedChecked_eq (c : Cubic) : c.reducedChecked =
    if c.cwnd.toNat ≤ 613566756 then some (umax (c.cwnd * cubicBetaNum / cubicBetaDen) (2#32 * mss)) else none := by
  have hiff : c.cwnd.toNat * cubicBetaNum.toNat < 2 ^ 32 ↔ c.cwnd.toNat ≤ 613566756 := by
    simp only [cubicBetaNum, BitVec.toNat_ofNat]
    omega
  unfold reducedChecked mulChecked
  by_cases h : c.cwnd.toNat ≤ 613566756
  · rw [if_pos (hiff.mpr h), if_pos h]
    rfl
  · rw [if_neg (mt hiff.mp h), if_neg h]
    rfl

theorem inEpoch_window (c : Cubic) (nowMs : U64) :
    (c.inEpoch nowMs).cwnd = c.cwnd ∧ (c.inEpoch nowMs).ssthresh = c.ssthresh := by
  unfold inEpoch
  split_ifs <;> exact ⟨rfl, rfl⟩

theorem Floored.grow {c d : Cubic} (h : c.Floored) (step : U32) (hc : d.cwnd = saturatingAdd c.cwnd step)
    (hs : d.ssthresh = c.ssthresh) : d.Floored := by
  have hlow := h.cwnd
  have hlt := c.cwnd.isLt
  refine ⟨?_, hs ▸ h.ssthresh⟩
  rw [hc, saturatingAdd_toNat]
  omega

theorem Floored.onAckTo {c : Cubic} (h : c.Floored) (acked : U32) (nowMs : U64) (target : U32) :
    (c.onAckTo acked nowMs target).Floored := by
  obtain ⟨hc, hs⟩ := inEpoch_window { c with dupAcks := 0#32 } nowMs
  unfold Cubic.onAckTo
  dsimp only
  split_ifs
  · exact ⟨Nat.le_trans (by omega) h.ssthresh, h.ssthresh⟩
  · exact ⟨h.cwnd, h.ssthresh⟩
  · exact h.grow mss (by dsimp only) (by dsimp only)
  · exact h.grow _ (congrArg (saturatingAdd · _) hc) hs
  · exact h.grow _ (congrArg (saturatingAdd · _) hc) hs

theorem Floored.onDupAck {c : Cubic} (h : c.Floored) (flight : U32) : (c.onDupAck flight).1.Floored := by
  unfold Cubic.onDupAck
  dsimp only
  split_ifs
  · obtain ⟨hlow, hhigh⟩ := reduced_bounds c.cwnd
    refine ⟨?_, hlow⟩
    simp only [dupAckThreshold, mss, BitVec.toNat_add, BitVec.toNat_mul, BitVec.toNat_ofNat] at hlow hhigh ⊢
    omega
  · exact h.grow mss (by dsimp only) (by dsimp only)
  · exact ⟨h.cwnd, h.ssthresh⟩

theorem Floored.onTimeout (c : Cubic) (flight : U32) : (c.onTimeout flight).Floored :=
  ⟨Nat.le_refl 1460, (reduced_bounds c.cwnd).1⟩

theorem Floored.onPartialAck {c : Cubic} (h : c.Floored) (acked : U32) : (c.onPartialAck acked).Floored := by
  have hmss : mss.toNat = 1460 := rfl
  have hs := h.ssthresh
  unfold Cubic.onPartialAck
  constructor
  · rw [umax_toNat, hmss]
    omega
  · exact hs

theorem Floored.apply {c : Cubic} (h : c.Floored) (e : Event) : (c.apply e).Floored := by
  cases e with
  | ack acked nowMs target => exact h.onAckTo acked nowMs target
  | dupAck flight => exact h.onDupAck flight
  | partialAck acked => exact h.onPartialAck acked
  | timeout flight => exact .onTimeout c flight

theorem floored_default : Floored {} := ⟨Nat.le_refl 1460, by decide⟩

theorem Floored.run {c : Cubic} (h : c.Floored) (events : List Event) : (c.run events).Floored := by
  induction events generalizing c with
  | nil => exact h
  | cons e events ih => exact ih (h.apply e)

theorem umax_one_ne_zero (a : U32) : umax a 1#32 ≠ 0#32 := by
  intro hzero
  have hmax := umax_toNat a 1#32
  rw [hzero] at hmax
  simp only [BitVec.toNat_ofNat] at hmax
  omega

theorem onAckChecked_eq {c : Cubic} (h : c.Floored) (acked : U32) (nowMs : U64) (target : U32) :
    c.onAckChecked acked nowMs target = some (c.onAckTo acked nowMs target) := by
  have hsame := (inEpoch_window { c with dupAcks := 0#32 } nowMs).1
  have hwindow : ({ c with dupAcks := 0#32 }.inEpoch nowMs).cwnd ≠ 0#32 := by
    intro hzero
    have hlow := h.cwnd
    rw [hsame] at hzero
    simp only at hzero
    rw [hzero] at hlow
    simp at hlow
  unfold onAckChecked onAckTo
  dsimp only
  split_ifs with hrec hack hslow htarget
  · rfl
  · rfl
  · rfl
  · have hpos := umax_one_ne_zero (({ c with dupAcks := 0#32 }.inEpoch nowMs).cwnd / mss)
    have hle : ({ c with dupAcks := 0#32 }.inEpoch nowMs).cwnd ≤ target := BitVec.le_of_lt htarget
    simp only [divChecked, subChecked, if_neg (show mss ≠ 0#32 by decide), if_pos hle, if_neg hpos,
      Option.bind_eq_bind,
      Option.bind_some, Option.pure_def]
  · have hsquare : mulChecked mss mss = some (mss * mss) := if_pos (by decide)
    simp only [hsquare, divChecked, if_neg hwindow, Option.bind_eq_bind, Option.bind_some, Option.pure_def]

theorem lt_saturatingAdd {a step : U32} (hstep : step ≠ 0#32) (hroom : a ≠ BitVec.allOnes 32) :
    a < saturatingAdd a step := by
  have hpos : step.toNat ≠ 0 := fun h => hstep (BitVec.eq_of_toNat_eq (by rw [h, BitVec.toNat_zero]))
  have hbelow : a.toNat ≠ 2 ^ 32 - 1 := fun h => hroom (BitVec.eq_of_toNat_eq (by rw [h, BitVec.toNat_allOnes]))
  have hlt := a.isLt
  rw [BitVec.lt_def, saturatingAdd_toNat]
  omega

theorem onAckTo_grows {c : Cubic} (hrec : c.inRecovery = false) {acked : U32} (hacked : acked ≠ 0#32)
    (hroom : c.cwnd ≠ BitVec.allOnes 32) (nowMs : U64) (target : U32) :
    c.cwnd < (c.onAckTo acked nowMs target).cwnd := by
  have hsame := (inEpoch_window { c with dupAcks := 0#32 } nowMs).1
  have hmss : mss ≠ 0#32 := by decide
  unfold onAckTo
  dsimp only
  rw [if_neg (by rw [hrec]; decide), if_neg hacked]
  split_ifs
  · dsimp only
    exact lt_saturatingAdd hmss hroom
  · rw [hsame]
    exact lt_saturatingAdd (umax_one_ne_zero _) hroom
  · rw [hsame]
    exact lt_saturatingAdd (umax_one_ne_zero _) hroom

theorem onAckTo_leaves {c : Cubic} (hrec : c.inRecovery = true) (acked : U32) (nowMs : U64) (target : U32) :
    (c.onAckTo acked nowMs target).inRecovery = false ∧ (c.onAckTo acked nowMs target).cwnd = c.ssthresh := by
  unfold onAckTo
  dsimp only
  rw [if_pos hrec]
  exact ⟨rfl, rfl⟩

/-- In every state that a run reaches, with any value of the curve, the window
has its floor, an ACK divides by no zero, one outside recovery raises the window
and one inside ends the recovery at the threshold. -/
theorem window_floor (events : List Event) : (run {} events).Floored ∧
    ∀ acked nowMs target, (run {} events).onAckChecked acked nowMs target =
    some ((run {} events).onAckTo acked nowMs target) ∧
      ((run {} events).inRecovery = false → acked ≠ 0#32 → (run {} events).cwnd ≠ BitVec.allOnes 32 →
        (run {} events).cwnd < ((run {} events).onAckTo acked nowMs target).cwnd) ∧
      ((run {} events).inRecovery = true → ((run {} events).onAckTo acked nowMs target).inRecovery = false ∧
        ((run {} events).onAckTo acked nowMs target).cwnd = (run {} events).ssthresh) := by
  have hfloor := floored_default.run events
  generalize run {} events = c at hfloor ⊢
  exact ⟨hfloor, fun acked nowMs target => ⟨onAckChecked_eq hfloor acked nowMs target,
    fun hrec hacked hroom => onAckTo_grows hrec hacked hroom nowMs target,
    fun hrec => onAckTo_leaves hrec acked nowMs target⟩⟩

theorem onTimeout_exact_iff (c : Cubic) (flight : U32) :
    c.Exact (.timeout flight) ↔ c.cwnd.toNat ≤ 613566756 := by
  have hchecked : c.applyChecked (.timeout flight) = c.reducedChecked.map fun ssthresh =>
      { wMax := c.cwnd, ssthresh, cwnd := mss, dupAcks := 0#32, inRecovery := false, epochMs := 0#64 } := by
    simp only [applyChecked, onTimeoutChecked]
    cases c.reducedChecked <;> rfl
  rw [reducedChecked_eq] at hchecked
  constructor
  · rintro ⟨hreturns, -⟩
    by_contra hbig
    rw [hchecked, if_neg hbig] at hreturns
    cases hreturns
  · intro hfits
    exact ⟨by rw [hchecked, if_pos hfits]; rfl, fun _ => reduced_toNat hfits⟩

theorem onDupAck_exact_iff (c : Cubic) (flight : U32) : c.Exact (.dupAck flight) ↔ c.InRange (.dupAck flight) := by
  have hroom : c.dupAcks.toNat + (1#32).toNat < 2 ^ 32 ↔ c.dupAcks ≠ BitVec.allOnes 32 := by
    rw [ne_eq, BitVec.toNat_eq, BitVec.toNat_allOnes]
    have hlt := c.dupAcks.isLt
    simp only [BitVec.toNat_ofNat]
    omega
  have hthird : c.dupAcks + 1#32 = dupAckThreshold ↔ c.dupAcks = 2#32 := by
    rw [dupAckThreshold]
    bv_omega
  have hinflate : ∀ a : U32, addChecked (umax (a * cubicBetaNum / cubicBetaDen) (2#32 * mss))
      (dupAckThreshold * mss) =
      some (umax (a * cubicBetaNum / cubicBetaDen) (2#32 * mss) + dupAckThreshold * mss) := by
    intro a
    have hhigh := (reduced_bounds a).2
    refine if_pos ?_
    simp only [dupAckThreshold, mss, BitVec.toNat_mul, BitVec.toNat_ofNat] at hhigh ⊢
    omega
  have hthree : mulChecked dupAckThreshold mss = some (dupAckThreshold * mss) := if_pos (by decide)
  have hloses : c.Loses (.dupAck flight) ↔ c.dupAcks = 2#32 := hthird
  by_cases hfull : c.dupAcks ≠ BitVec.allOnes 32
  swap
  · refine iff_of_false (fun hexact => ?_) (fun hrange => hfull hrange.1)
    have hreturns := hexact.returns
    rw [applyChecked, onDupAckChecked, addChecked, if_neg (mt hroom.mp hfull)] at hreturns
    cases hreturns
  have hadd : addChecked c.dupAcks 1#32 = some (c.dupAcks + 1#32) := if_pos (hroom.mpr hfull)
  by_cases hhit : c.dupAcks = 2#32
  · have hchecked : c.applyChecked (.dupAck flight) =
        if c.cwnd.toNat ≤ 613566756 then some (c.apply (.dupAck flight)) else none := by
      simp only [applyChecked, apply, onDupAckChecked, onDupAck, hadd, Option.bind_eq_bind, Option.bind_some,
        if_pos (hthird.mpr hhit), hthree, reducedChecked_eq]
      split_ifs
      · simp only [Option.bind_some, hinflate, Option.pure_def]
      · rfl
    constructor
    · rintro ⟨hreturns, -⟩
      refine ⟨hfull, fun _ => ?_⟩
      by_contra hbig
      rw [hchecked, if_neg hbig] at hreturns
      cases hreturns
    · rintro ⟨-, hfits⟩
      refine ⟨by rw [hchecked, if_pos (hfits hhit)], fun _ => ?_⟩
      simp only [apply, onDupAck, if_pos (hthird.mpr hhit)]
      exact reduced_toNat (hfits hhit)
  · refine iff_of_true ⟨?_, fun hl => absurd (hloses.mp hl) hhit⟩ ⟨hfull, fun h => absurd h hhit⟩
    simp only [applyChecked, apply, onDupAckChecked, onDupAck, hadd, Option.bind_eq_bind, Option.bind_some,
      if_neg (mt hthird.mp hhit)]
    split_ifs <;> rfl

theorem exact_iff {c : Cubic} (h : c.Floored) (e : Event) : c.Exact e ↔ c.InRange e := by
  cases e with
  | ack acked nowMs target =>
      exact iff_of_true ⟨onAckChecked_eq h acked nowMs target, fun hl => hl.elim⟩ trivial
  | dupAck flight => exact c.onDupAck_exact_iff flight
  | partialAck acked => exact iff_of_true ⟨rfl, fun hl => hl.elim⟩ trivial
  | timeout flight => exact c.onTimeout_exact_iff flight

/-- In every run from a fresh controller, whatever the curve says, all steps are
exact if and only if all are in range. -/
theorem window_arithmetic_exact_iff (events : List Event) :
    (∀ pre e post, events = pre ++ e :: post → (run {} pre).Exact e) ↔
      ∀ pre e post, events = pre ++ e :: post → (run {} pre).InRange e :=
  forall_congr' fun pre => forall_congr' fun e => forall_congr' fun _ => imp_congr_right fun _ =>
    exact_iff (floored_default.run pre) e

/-- A timeout, slow start, the first ACK of an epoch, and one a thousand seconds later. -/
def pause : List Event := [.timeout 0#32, .ack 1460#32 1#64 1460#32, .ack 1460#32 1#64 2043#32,
  .ack 1460#32 1000001#64 4294967295#32]

/-- After the pause the curve is past every window, and the next timeout multiplies
one that is too large. -/
theorem long_pause_overflows_the_reduction :
    (run {} (pause.take 3)).target Rat 1000001#64 = 4294967295#32 ∧
      (run {} pause).cwnd = 2147485472#32 ∧ (run {} pause).applyChecked (.timeout 0#32) = none ∧
      ((run {} pause).apply (.timeout 0#32)).ssthresh = 214749641#32 ∧
      ¬ ∀ pre e post, pause ++ [.timeout 0#32] = pre ++ e :: post → (run {} pre).Exact e := by
  refine ⟨by decide +kernel, by decide +kernel, by decide +kernel, by decide +kernel, fun h => ?_⟩
  have hreturns := (h pause (.timeout 0#32) [] rfl).returns
  revert hreturns
  decide +kernel

end Cubic
end TcpStack
