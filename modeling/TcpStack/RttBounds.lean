import TcpStack.Rtt

/-!
# The estimator stays within its measurements

A build that checks its arithmetic stops where an operation leaves the range of
`u64`. The module says that no operation of the estimator does, as long as the
measurements leave three bits of room, and between which bounds the estimates
and the timeout then stay.
-/
namespace TcpStack

/-- `a + b`, where it does not overflow. -/
def U64.addChecked (a b : U64) : Option U64 := if a.toNat + b.toNat < 2 ^ 64 then some (a + b) else none

/-- `a - b`, where it does not underflow. -/
def U64.subChecked (a b : U64) : Option U64 := if b ≤ a then some (a - b) else none

/-- `a * b`, where it does not overflow. -/
def U64.mulChecked (a b : U64) : Option U64 := if a.toNat * b.toNat < 2 ^ 64 then some (a * b) else none

/-- `a << n`, where no bit falls out. -/
def U64.shlChecked (a : U64) (n : U32) : Option U64 :=
  if n.toNat < 64 ∧ a.toNat * 2 ^ n.toNat < 2 ^ 64 then some (a <<< n.toNat) else none

namespace RttEstimator

/-- The old estimate moves towards the measurement by one part in `2 ^ shift`. -/
def blend (old new : U64) (shift : Nat) : U64 := old - (old >>> shift) + (new >>> shift)

def blendChecked (old new : U64) (shift : Nat) : Option U64 := do
  U64.addChecked (← U64.subChecked old (old >>> shift)) (new >>> shift)

def sampleChecked (e : RttEstimator) (rttMs : U64) : Option RttEstimator :=
  match e.srttMs with
  | none => some { srttMs := some rttMs, rttvarMs := rttMs / 2#64, backoffShift := 0#32 }
  | some srtt => do
      let delta := absDiff srtt rttMs
      let rttvarMs ← blendChecked e.rttvarMs delta betaShift
      let srttMs ← blendChecked srtt rttMs alphaShift
      return { srttMs := some srttMs, rttvarMs, backoffShift := 0#32 }

def rtoChecked (e : RttEstimator) : Option U64 := do
  let base ← match e.srttMs with
    | none => some minRtoMs
    | some srtt => do
        let sum ← U64.addChecked srtt (umax (← U64.mulChecked kFactor e.rttvarMs) granularityMs)
        some (umin (umax sum minRtoMs) maxRtoMs)
  return umin (← U64.shlChecked base e.backoffShift) maxRtoMs

def backOffChecked (e : RttEstimator) : Option RttEstimator := do
  return { e with backoffShift := umin (← addChecked e.backoffShift 1#32) 6#32 }

inductive Event where
  | sample (rttMs : U64)
  | backOff
  deriving DecidableEq, Repr

def apply (e : RttEstimator) : Event → RttEstimator
  | .sample rttMs => e.sample rttMs
  | .backOff => e.backOff

def applyChecked (e : RttEstimator) : Event → Option RttEstimator
  | .sample rttMs => e.sampleChecked rttMs
  | .backOff => e.backOffChecked

def run (e : RttEstimator) (events : List Event) : RttEstimator := events.foldl apply e

/-- The measurements of a run. -/
def samples : List Event → List U64
  | [] => []
  | .sample rttMs :: events => rttMs :: samples events
  | .backOff :: events => samples events

theorem sample_some {e : RttEstimator} {srtt : U64} (h : e.srttMs = some srtt) (rttMs : U64) : e.sample rttMs =
    { srttMs := some (blend srtt rttMs alphaShift), rttvarMs := blend e.rttvarMs (absDiff srtt rttMs) betaShift,
      backoffShift := 0#32 } := by
  rw [sample, h]
  rfl

theorem blend_spec (old new : U64) (shift : Nat) : blendChecked old new shift = some (blend old new shift) ∧
    min old.toNat new.toNat ≤ (blend old new shift).toNat ∧
    (blend old new shift).toNat ≤ max old.toNat new.toNat := by
  have hpart : ∀ x : U64, (x >>> shift).toNat = x.toNat / 2 ^ shift := fun x => by
    rw [BitVec.toNat_ushiftRight, Nat.shiftRight_eq_div_pow]
  have hmono : ∀ x y : Nat, x ≤ y → y / 2 ^ shift + x ≤ x / 2 ^ shift + y := by
    intro x y hle
    have hmore : (x + (y - x)) / 2 ^ shift ≤ (x + 2 ^ shift * (y - x)) / 2 ^ shift :=
      Nat.div_le_div_right (Nat.add_le_add_left (Nat.le_mul_of_pos_left _ (Nat.two_pow_pos shift)) x)
    rw [Nat.add_mul_div_left _ _ (Nat.two_pow_pos shift), Nat.add_sub_cancel' hle] at hmore
    omega
  have hself := Nat.div_le_self old.toNat (2 ^ shift)
  have hle : old >>> shift ≤ old := by
    rw [BitVec.le_def, hpart]
    exact hself
  have hkept : (old - (old >>> shift)).toNat = old.toNat - old.toNat / 2 ^ shift := by
    rw [BitVec.toNat_sub_of_le hle, hpart]
  have hold := old.isLt
  have hnew := new.isLt
  have hbetween : min old.toNat new.toNat ≤ old.toNat - old.toNat / 2 ^ shift + new.toNat / 2 ^ shift ∧
      old.toNat - old.toNat / 2 ^ shift + new.toNat / 2 ^ shift ≤ max old.toNat new.toNat := by
    rcases Nat.le_total old.toNat new.toNat with hord | hord
    · have hup := hmono _ _ hord
      have hdown : old.toNat / 2 ^ shift ≤ new.toNat / 2 ^ shift := Nat.div_le_div_right hord
      omega
    · have hup := hmono _ _ hord
      have hdown : new.toNat / 2 ^ shift ≤ old.toNat / 2 ^ shift := Nat.div_le_div_right hord
      omega
  have hroom : (old - (old >>> shift)).toNat + (new >>> shift).toNat < 2 ^ 64 := by
    rw [hkept, hpart]
    omega
  have hblend : (blend old new shift).toNat = old.toNat - old.toNat / 2 ^ shift + new.toNat / 2 ^ shift := by
    rw [blend, BitVec.toNat_add, Nat.mod_eq_of_lt hroom, hkept, hpart]
  refine ⟨?_, hblend ▸ hbetween.1, hblend ▸ hbetween.2⟩
  rw [blendChecked, U64.subChecked, if_pos hle, Option.bind_eq_bind, Option.bind_some]
  exact if_pos hroom

theorem absDiff_le {a b : U64} {m : Nat} (ha : a.toNat ≤ m) (hb : b.toNat ≤ m) : (absDiff a b).toNat ≤ m := by
  unfold absDiff
  split_ifs with hlt
  · rw [BitVec.toNat_sub_of_le (BitVec.le_of_lt hlt)]
    omega
  · rw [BitVec.toNat_sub_of_le (BitVec.not_lt.mp hlt)]
    omega

/-- The back-off is at most six doublings. -/
def Backed (e : RttEstimator) : Prop := e.backoffShift.toNat ≤ 6

theorem sample_backed (e : RttEstimator) (rttMs : U64) : (e.sample rttMs).Backed := by
  unfold sample
  split <;> exact Nat.zero_le _

theorem backOff_backed (e : RttEstimator) : e.backOff.Backed := by
  have hmin : e.backOff.backoffShift.toNat = min (e.backoffShift + 1#32).toNat 6 := umin_toNat _ _
  rw [Backed, hmin]
  exact Nat.min_le_right _ _

theorem Backed.backOff_toNat {e : RttEstimator} (h : e.Backed) :
    e.backOff.backoffShift.toNat = min (e.backoffShift.toNat + 1) 6 := by
  have hle : e.backoffShift.toNat ≤ 6 := h
  have hmin : e.backOff.backoffShift.toNat = min (e.backoffShift + 1#32).toNat 6 := umin_toNat _ _
  rw [hmin, BitVec.toNat_add, Nat.mod_eq_of_lt]
  · rfl
  · rw [BitVec.toNat_ofNat]
    omega

theorem Backed.backOffChecked_eq {e : RttEstimator} (h : e.Backed) : e.backOffChecked = some e.backOff := by
  have hle : e.backoffShift.toNat ≤ 6 := h
  have hadd : addChecked e.backoffShift 1#32 = some (e.backoffShift + 1#32) := by
    refine if_pos ?_
    rw [BitVec.toNat_ofNat]
    omega
  rw [backOffChecked, hadd]
  rfl

/-- The timeout before it is backed off. -/
def base (e : RttEstimator) : U64 :=
  match e.srttMs with
  | none => minRtoMs
  | some srtt => umin (umax (srtt + umax (kFactor * e.rttvarMs) granularityMs) minRtoMs) maxRtoMs

theorem base_bounds (e : RttEstimator) : 200 ≤ e.base.toNat ∧ e.base.toNat ≤ 60000 := by
  have hmin : minRtoMs.toNat = 200 := rfl
  have hmax : maxRtoMs.toNat = 60000 := rfl
  unfold base
  split
  · omega
  · rw [umin_toNat, umax_toNat]
    omega

theorem Backed.room {e : RttEstimator} (h : e.Backed) : e.base.toNat * 2 ^ e.backoffShift.toNat < 2 ^ 64 := by
  have hpow : 2 ^ e.backoffShift.toNat ≤ 2 ^ 6 := Nat.pow_le_pow_right (by omega) h
  have hprod : e.base.toNat * 2 ^ e.backoffShift.toNat ≤ 60000 * 2 ^ 6 := Nat.mul_le_mul e.base_bounds.2 hpow
  omega

theorem Backed.rto_toNat {e : RttEstimator} (h : e.Backed) :
    e.rto.toNat = min (e.base.toNat * 2 ^ e.backoffShift.toNat) 60000 := by
  have hmin : e.rto.toNat = min (e.base <<< e.backoffShift.toNat).toNat 60000 := umin_toNat _ _
  rw [hmin, BitVec.toNat_shiftLeft, Nat.shiftLeft_eq, Nat.mod_eq_of_lt h.room]

theorem Backed.rto_bounds {e : RttEstimator} (h : e.Backed) : 200 ≤ e.rto.toNat ∧ e.rto.toNat ≤ 60000 := by
  have hge : e.base.toNat ≤ e.base.toNat * 2 ^ e.backoffShift.toNat := Nat.le_mul_of_pos_right _ (Nat.two_pow_pos _)
  have hlow := e.base_bounds.1
  rw [h.rto_toNat]
  omega

theorem Backed.rto_pos {e : RttEstimator} (h : e.Backed) : 0 < e.rto.toNat := by
  have hlow := h.rto_bounds.1
  omega

/-- A back-off doubles the timeout, until six doublings or the largest timeout are reached. -/
theorem Backed.rto_backOff {e : RttEstimator} (h : e.Backed) : e.backOff.rto.toNat =
    if e.backoffShift.toNat < 6 then min (2 * e.rto.toNat) 60000 else e.rto.toNat := by
  have hle : e.backoffShift.toNat ≤ 6 := h
  have hbase : e.backOff.base = e.base := rfl
  rw [e.backOff_backed.rto_toNat, hbase, h.backOff_toNat, h.rto_toNat]
  split_ifs with hlt
  · rw [Nat.min_eq_left (by omega : e.backoffShift.toNat + 1 ≤ 6), Nat.pow_succ, ← Nat.mul_assoc]
    omega
  · rw [Nat.min_eq_right (by omega : 6 ≤ e.backoffShift.toNat + 1), (by omega : e.backoffShift.toNat = 6)]

/-- The estimator as if it had never been backed off. -/
def settled (e : RttEstimator) : RttEstimator := { e with backoffShift := 0#32 }

theorem sample_settled (e : RttEstimator) (rttMs : U64) : e.settled.sample rttMs = e.sample rttMs := rfl

theorem backOff_settled (e : RttEstimator) : e.backOff.settled = e.settled := rfl

theorem run_settled {e d : RttEstimator} (h : e.settled = d.settled) (events : List Event) :
    (e.run events).settled = (d.run ((samples events).map .sample)).settled := by
  induction events generalizing e d with
  | nil => exact h
  | cons x events ih =>
      cases x with
      | sample rttMs =>
          have hsame : e.sample rttMs = d.sample rttMs := by rw [← sample_settled, h, sample_settled]
          exact ih (congrArg settled hsame)
      | backOff => exact ih (e.backOff_settled.trans h)

/-- The estimates lie within the measurements seen so far, none of them over `m`. -/
structure Within (m : Nat) (seen : List U64) (e : RttEstimator) : Prop where
  backed : e.Backed
  small : ∀ r ∈ seen, r.toNat ≤ m
  started : seen ≠ [] → ∃ srtt, e.srttMs = some srtt
  srtt : ∀ srtt, e.srttMs = some srtt → ∃ lo ∈ seen, ∃ hi ∈ seen, lo ≤ srtt ∧ srtt ≤ hi
  rttvar : e.rttvarMs.toNat ≤ m

theorem within_default (m : Nat) : Within m [] {} :=
  ⟨Nat.zero_le _, fun _ h => (by cases h), fun h => absurd rfl h, fun _ h => (by cases h), Nat.zero_le _⟩

variable {m : Nat} {seen : List U64} {e : RttEstimator}

theorem Within.srtt_le (h : Within m seen e) {srtt : U64} (hs : e.srttMs = some srtt) : srtt.toNat ≤ m := by
  obtain ⟨-, -, hi, hmem, -, hle⟩ := h.srtt srtt hs
  exact Nat.le_trans hle (h.small hi hmem)

theorem Within.sample (h : Within m seen e) {rttMs : U64} (hr : rttMs.toNat ≤ m) :
    Within m (seen ++ [rttMs]) (e.sample rttMs) := by
  have hnew : rttMs ∈ seen ++ [rttMs] := List.mem_append_right _ (List.mem_singleton_self _)
  have hold : ∀ {r}, r ∈ seen → r ∈ seen ++ [rttMs] := List.mem_append_left _
  have hsmall : ∀ r ∈ seen ++ [rttMs], r.toNat ≤ m := by
    intro r hmem
    rcases List.mem_append.mp hmem with hmem | hmem
    · exact h.small r hmem
    · rwa [List.mem_singleton.mp hmem]
  cases hs : e.srttMs with
  | none =>
      have heq : e.sample rttMs = { srttMs := some rttMs, rttvarMs := rttMs / 2#64, backoffShift := 0#32 } := by
        rw [RttEstimator.sample, hs]
      rw [heq]
      refine ⟨Nat.zero_le _, hsmall, fun _ => ⟨rttMs, rfl⟩, ?_, ?_⟩
      · rintro _ ⟨⟩
        exact ⟨rttMs, hnew, rttMs, hnew, BitVec.le_refl _, BitVec.le_refl _⟩
      · exact Nat.le_trans (Nat.div_le_self rttMs.toNat 2) hr
  | some srtt =>
      obtain ⟨lo, hlo, hi, hhi, hlole, hlehi⟩ := h.srtt srtt hs
      obtain ⟨-, hmin, hmax⟩ := blend_spec srtt rttMs alphaShift
      obtain ⟨-, -, hvar⟩ := blend_spec e.rttvarMs (absDiff srtt rttMs) betaShift
      have hdelta := absDiff_le (h.srtt_le hs) hr
      have hrttvar := h.rttvar
      rw [sample_some hs]
      refine ⟨Nat.zero_le _, hsmall, fun _ => ⟨_, rfl⟩, ?_, ?_⟩
      · rintro _ ⟨⟩
        rw [BitVec.le_def] at hlole hlehi
        -- the blend moves to the measurement, and not past it
        rcases Nat.le_total srtt.toNat rttMs.toNat with hord | hord
        · exact ⟨lo, hold hlo, rttMs, hnew, by rw [BitVec.le_def]; omega, by rw [BitVec.le_def]; omega⟩
        · exact ⟨rttMs, hnew, hi, hold hhi, by rw [BitVec.le_def]; omega, by rw [BitVec.le_def]; omega⟩
      · dsimp only
        omega

theorem Within.backOff (h : Within m seen e) : Within m seen e.backOff :=
  ⟨e.backOff_backed, h.small, h.started, h.srtt, h.rttvar⟩

theorem Within.run (h : Within m seen e) {events : List Event} (hsmall : ∀ r ∈ samples events, r.toNat ≤ m) :
    Within m (seen ++ samples events) (e.run events) := by
  induction events generalizing seen e with
  | nil =>
      rw [samples, List.append_nil]
      exact h
  | cons x events ih =>
      cases x with
      | sample rttMs =>
          have hrest := ih (h.sample (hsmall rttMs List.mem_cons_self)) fun r hr =>
              hsmall r (List.mem_cons_of_mem _ hr)
          rwa [List.append_assoc] at hrest
      | backOff => exact ih h.backOff hsmall

theorem Within.rtoChecked_eq (h : Within m seen e) (hm : m ≤ 2 ^ 61) : e.rtoChecked = some e.rto := by
  have hshl : U64.shlChecked e.base e.backoffShift = some (e.base <<< e.backoffShift.toNat) := by
    have hle : e.backoffShift.toNat ≤ 6 := h.backed
    exact if_pos ⟨by omega, h.backed.room⟩
  have hrest : e.rtoChecked = some e.base >>= fun base =>
      U64.shlChecked base e.backoffShift >>= fun x => some (umin x maxRtoMs) := by
    unfold rtoChecked base
    cases hs : e.srttMs with
    | none => rfl
    | some srtt =>
        have hsrtt := h.srtt_le hs
        have hvar := h.rttvar
        have hk : kFactor.toNat = 4 := rfl
        have hg : granularityMs.toNat = 1 := rfl
        have hfits : kFactor.toNat * e.rttvarMs.toNat < 2 ^ 64 := by
          rw [hk]
          omega
        have hmul : U64.mulChecked kFactor e.rttvarMs = some (kFactor * e.rttvarMs) := if_pos hfits
        have hprod : (kFactor * e.rttvarMs).toNat = 4 * e.rttvarMs.toNat := by
          rw [BitVec.toNat_mul, Nat.mod_eq_of_lt hfits, hk]
        have hadd : U64.addChecked srtt (umax (kFactor * e.rttvarMs) granularityMs) =
            some (srtt + umax (kFactor * e.rttvarMs) granularityMs) := by
          refine if_pos ?_
          rw [umax_toNat, hprod, hg]
          omega
        simp only [hmul, hadd, Option.bind_eq_bind, Option.bind_some]
        rfl
  rw [hrest, Option.bind_eq_bind, Option.bind_some, hshl]
  rfl

theorem sampleChecked_eq (e : RttEstimator) (rttMs : U64) : e.sampleChecked rttMs = some (e.sample rttMs) := by
  cases hs : e.srttMs with
  | none => rw [sampleChecked, RttEstimator.sample, hs]
  | some srtt =>
      rw [sample_some hs, sampleChecked, hs]
      dsimp only
      rw [(blend_spec _ _ betaShift).1, Option.bind_eq_bind, Option.bind_some, (blend_spec _ _ alphaShift).1]
      rfl

theorem Within.applyChecked_eq (h : Within m seen e) (x : Event) : e.applyChecked x = some (e.apply x) := by
  cases x with
  | sample rttMs => exact e.sampleChecked_eq rttMs
  | backOff => exact h.backed.backOffChecked_eq

/-- In every run on measurements of at most `m`, nothing overflows, the estimates
and the timeout stay in their bounds, a back-off doubles the timeout up to its
caps, and the next measurement forgets all of them. -/
theorem estimator_within_measurements {m : Nat} (hm : m ≤ 2 ^ 61) {events : List Event}
    (hsmall : ∀ r ∈ samples events, r.toNat ≤ m) :
    (∀ x, (run {} events).applyChecked x = some ((run {} events).apply x)) ∧
    (run {} events).rtoChecked = some (run {} events).rto ∧
    (samples events ≠ [] → ∃ srtt, (run {} events).srttMs = some srtt ∧
      ∃ lo ∈ samples events, ∃ hi ∈ samples events, lo ≤ srtt ∧ srtt ≤ hi) ∧
    (run {} events).rttvarMs.toNat ≤ m ∧
    minRtoMs ≤ (run {} events).rto ∧ (run {} events).rto ≤ maxRtoMs ∧
    (run {} events).rto ≤ (run {} events).backOff.rto ∧
    (run {} events).backOff.rto.toNat = (if (run {} events).backoffShift.toNat < 6 then
      min (2 * (run {} events).rto.toNat) maxRtoMs.toNat else (run {} events).rto.toNat) ∧
    (run {} events).backoffShift.toNat ≤ 6 ∧
    ∀ r, (run {} events).sample r = (run {} ((samples events).map .sample)).sample r := by
  have h := (within_default m).run hsmall
  have hforget : ∀ r, (run {} events).sample r = (run {} ((samples events).map .sample)).sample r := fun r => by
    rw [← sample_settled, run_settled rfl, sample_settled]
  rw [List.nil_append] at h
  generalize run {} events = e at h hforget ⊢
  obtain ⟨hlow, hhigh⟩ := h.backed.rto_bounds
  have hdouble := h.backed.rto_backOff
  refine ⟨h.applyChecked_eq, h.rtoChecked_eq hm, fun hne => ?_, h.rttvar, hlow, hhigh, ?_, hdouble, h.backed, hforget⟩
  · obtain ⟨srtt, hs⟩ := h.started hne
    exact ⟨srtt, hs, h.srtt srtt hs⟩
  · rw [BitVec.le_def, hdouble]
    split_ifs <;> omega

/-- A path of a tenth of a second that then takes a minute, timeouts between. -/
theorem slow_path_within_measurements :
    (run {} [.sample 100#64, .backOff, .backOff, .sample 60000#64]).srttMs = some 7588#64 ∧
      (run {} [.sample 100#64, .backOff, .backOff]).rto = 1200#64 ∧
      (run {} [.sample 100#64, .backOff, .backOff]).sample 60000#64 = (run {} [.sample 100#64]).sample 60000#64 := by
  have hm : 100 ≤ 2 ^ 61 := by omega
  have hsmall : ∀ r ∈ samples [.sample 100#64, .backOff, .backOff], r.toNat ≤ 100 := by simp [samples]
  have hforget := (estimator_within_measurements hm hsmall).2.2.2.2.2.2.2.2.2 60000#64
  have hsamples : samples [.sample 100#64, .backOff, .backOff] = [100#64] := rfl
  rw [hsamples] at hforget
  exact ⟨by decide, by decide, hforget⟩

end RttEstimator
end TcpStack
