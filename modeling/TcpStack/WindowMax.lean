import Mathlib.Algebra.Order.Ring.Unbundled.Rat
import TcpStack.Congestion
import TcpStack.MonotoneDeque

/-!
# The bandwidth filter computes a maximum

The filter of BBR is a monotone deque over its rounds: what it reports is the
largest of the samples that its window still covers.
-/
namespace TcpStack.WindowedMax

variable {F : Type} [F64 F]

/-- The window no longer covers `t`. -/
def stale (window now t : U64) : Bool := saturatingSub now t > window

/-- The filter after the samples, from an empty one. -/
def fed (window : U64) (samples : List (U64 × F)) : WindowedMax F :=
  samples.foldl (fun m s => m.update s.1 s.2) { window }

theorem stale_iff (window now t : U64) : stale window now t = true ↔ window.toNat < now.toNat - t.toNat := by
  rw [stale, decide_eq_true_eq, gt_iff_lt, BitVec.lt_def, saturatingSub_toNat]

theorem stale_expiry (window : U64) : MonotoneDeque.Expiry (stale window) where
  later hle h := by
    rw [stale_iff] at h ⊢
    rw [BitVec.le_def] at hle
    omega
  older hle h := by
    rw [stale_iff] at h ⊢
    rw [BitVec.le_def] at hle
    omega
  fresh t := by
    rw [← Bool.not_eq_true, stale_iff]
    omega

variable [LinearOrder F]

theorem update_dq (hle : ∀ a b : F, F64.le a b = true ↔ a ≤ b) (m : WindowedMax F) (s : U64 × F) :
    (m.update s.1 s.2).dq = MonotoneDeque.update (stale m.window) m.dq s := by
  have hdrop : (fun d : U64 × F => F64.le d.2 s.2) = fun d => decide (d.2 ≤ s.2) :=
    funext fun d => Bool.eq_iff_iff.mpr ((hle _ _).trans decide_eq_true_iff.symm)
  rw [update, MonotoneDeque.update, MonotoneDeque.push, hdrop]
  rfl

theorem fed_dq (hle : ∀ a b : F, F64.le a b = true ↔ a ≤ b) (window : U64) (samples : List (U64 × F)) :
    (fed window samples).dq = samples.foldl (MonotoneDeque.update (stale window)) [] := by
  have hfold : ∀ (samples : List (U64 × F)) (m : WindowedMax F), m.window = window →
      (samples.foldl (fun m s => m.update s.1 s.2) m).dq =
      samples.foldl (MonotoneDeque.update (stale window)) m.dq := by
    intro samples
    induction samples with
    | nil => exact fun m _ => rfl
    | cons s samples ih =>
        intro m hm
        rw [List.foldl_cons, List.foldl_cons, ih (m.update s.1 s.2) hm, update_dq hle, hm]
  exact hfold samples _ rfl

/-- After samples at times that do not fall, the filter reports the greatest of
the values whose times its window covers. -/
theorem get_isGreatest (hle : ∀ a b : F, F64.le a b = true ↔ a ≤ b) (window : U64) {samples : List (U64 × F)}
    (hne : samples ≠ []) (htimes : samples.Pairwise fun a b => a.1 ≤ b.1) :
    IsGreatest {v | ∃ s ∈ samples, (samples.getLast hne).1 - s.1 ≤ window ∧ s.2 = v} (fed window samples).get ∧
      ((fed window samples).dq.Pairwise fun a b => a.1 ≤ b.1) ∧
      (fed window samples).dq.Pairwise fun a b => b.2 < a.2 := by
  have hrun := (MonotoneDeque.tracks_nil 0#64).run (stale_expiry window) (fun s _ => Nat.zero_le s.1.toNat) htimes
  have hnow : (samples.map Prod.fst).getLastD 0#64 = (samples.getLast hne).1 := by
    rw [List.getLastD_eq_getLast?, List.getLast?_map, List.getLast?_eq_some_getLast hne]
    rfl
  rw [List.nil_append, hnow, ← fed_dq hle] at hrun
  have hlive : ∀ s ∈ samples, stale window (samples.getLast hne).1 s.1 = false ↔
      (samples.getLast hne).1 - s.1 ≤ window := by
    intro s hs
    have hpast := hrun.past s hs
    rw [← Bool.not_eq_true, stale_iff, BitVec.le_def, BitVec.toNat_sub_of_le hpast]
    omega
  refine ⟨?_, hrun.monotone.times, hrun.monotone.values⟩
  have hset : {v | ∃ s ∈ samples, (samples.getLast hne).1 - s.1 ≤ window ∧ s.2 = v} =
      {v | ∃ s ∈ samples, stale window (samples.getLast hne).1 s.1 = false ∧ s.2 = v} := by
    ext v
    exact exists_congr fun s => and_congr_right fun hs => and_congr_left fun _ => (hlive s hs).symm
  rw [hset]
  unfold get
  cases hdq : (fed window samples).dq with
  | nil =>
      -- the last sample is live, and something in the deque stands for it
      rw [hdq] at hrun
      obtain ⟨d, hd, -⟩ := hrun.dominates _ (List.getLast_mem hne) ((stale_expiry window).fresh _)
      cases hd
  | cons d dq =>
      rw [hdq] at hrun
      exact hrun.isGreatest

/-- The samples of the source's test: a dip under the maximum, then the maximum expires. -/
theorem dip_then_expiry :
    IsGreatest {v : Rat | ∃ s ∈ [(0#64, 100), (1#64, 50), (2#64, 70), (4#64, (60 : Rat))],
    4#64 - s.1 ≤ 3#64 ∧ s.2 = v} 70 := by
  have hle : ∀ a b : Rat, F64.le a b = true ↔ a ≤ b := fun a b => decide_eq_true_iff
  have hne : [(0#64, (100 : Rat)), (1#64, 50), (2#64, 70), (4#64, 60)] ≠ [] := by simp
  have htimes : [(0#64, (100 : Rat)), (1#64, 50), (2#64, 70), (4#64, 60)].Pairwise fun a b => a.1 ≤ b.1 := by decide
  have hget : (fed 3#64 [(0#64, (100 : Rat)), (1#64, 50), (2#64, 70), (4#64, 60)]).get = 70 := by decide +kernel
  have hgreatest := (get_isGreatest hle 3#64 hne htimes).1
  rwa [hget] at hgreatest

end TcpStack.WindowedMax
