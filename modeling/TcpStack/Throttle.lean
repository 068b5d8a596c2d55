import Mathlib.Algebra.GroupWithZero.Nat
import Mathlib.Data.List.Basic
import Mathlib.Order.Basic
import Mathlib.Tactic.Common

/-!
# Rate limiting by windows

A budget of grants is renewed by the first request that comes a period or more
after the last renewal. The clock is a machine word, and how long ago the last
renewal was is its wrapping difference. The windows are not aligned with any
interval one asks about, so an interval of one period can see the rest of one
budget and the whole of the next, and never more.
-/
namespace TcpStack

structure Throttle (w : Nat) where
  start : BitVec w
  left : Nat

namespace Throttle

variable {w : Nat} (period : Nat)

def renew (s : Throttle w) (now : BitVec w) (fresh : Nat) : Throttle w :=
  if (now - s.start).toNat ≥ period then ⟨now, fresh⟩ else s

/-- One request at `now`, and whether it is granted. -/
def request (s : Throttle w) (now : BitVec w) (fresh : Nat) : Throttle w × Bool :=
  let s := s.renew period now fresh
  if s.left = 0 then (s, false) else (⟨s.start, s.left - 1⟩, true)

def grants : Throttle w → List (BitVec w × Nat) → List (BitVec w)
  | _, [] => []
  | s, (now, fresh) :: reqs =>
      let r := s.request period now fresh
      (if r.2 then [now] else []) ++ grants r.1 reqs

def within (T : Nat) (t : BitVec w) : Bool := decide (T ≤ t.toNat ∧ t.toNat < T + period)

/-- The grants in the interval of one period from `T` on. -/
def load (T : Nat) (s : Throttle w) (reqs : List (BitVec w × Nat)) : Nat :=
  ((grants period s reqs).filter (within period T)).length

theorem load_cons (T : Nat) (s : Throttle w) (now : BitVec w) (fresh : Nat) (reqs : List (BitVec w × Nat)) :
    load period T s ((now, fresh) :: reqs) =
      (if (s.request period now fresh).2 ∧ within period T now then 1 else 0) +
        load period T (s.request period now fresh).1 reqs := by
  simp only [load, grants]
  cases (s.request period now fresh).2 <;> cases hw : within period T now <;>
    simp [hw, Nat.add_comm]

theorem request_left (s : Throttle w) (now : BitVec w) (fresh : Nat) :
    (s.request period now fresh).1.left + (if (s.request period now fresh).2 then 1 else 0) =
      (s.renew period now fresh).left := by
  unfold request
  dsimp only
  split_ifs <;> simp_all
  omega

theorem request_start (s : Throttle w) (now : BitVec w) (fresh : Nat) :
    (s.request period now fresh).1.start = (s.renew period now fresh).start := by
  unfold request
  dsimp only
  split_ifs <;> rfl

theorem request_left_le {s : Throttle w} {now : BitVec w} {fresh M : Nat} (hs : s.left ≤ M)
    (hfresh : fresh ≤ M) : (s.request period now fresh).1.left ≤ M := by
  have hleft := request_left period s now fresh
  have hrenew : (s.renew period now fresh).left ≤ M := by
    unfold renew
    split_ifs <;> assumption
  omega

/-- Times that do not decrease, none before `low`. -/
def Ordered (low : Nat) (reqs : List (BitVec w × Nat)) : Prop :=
  reqs.Pairwise (fun a b => a.1.toNat ≤ b.1.toNat) ∧ ∀ a ∈ reqs, low ≤ a.1.toNat

theorem Ordered.tail {low : Nat} {a : BitVec w × Nat} {reqs : List (BitVec w × Nat)}
    (h : Ordered low (a :: reqs)) : Ordered a.1.toNat reqs ∧ low ≤ a.1.toNat :=
  ⟨⟨(List.pairwise_cons.mp h.1).2, (List.pairwise_cons.mp h.1).1⟩, h.2 a (List.mem_cons_self ..)⟩

theorem Ordered.mono {low low' : Nat} {reqs : List (BitVec w × Nat)} (h : Ordered low reqs)
    (hle : low' ≤ low) : Ordered low' reqs :=
  ⟨h.1, fun a ha => Nat.le_trans hle (h.2 a ha)⟩

theorem load_late {T : Nat} (reqs : List (BitVec w × Nat)) : ∀ s : Throttle w,
    Ordered (T + period) reqs → load period T s reqs = 0 := by
  induction reqs with
  | nil => exact fun s _ => rfl
  | cons a reqs ih =>
      intro s hord
      obtain ⟨htail, hlow⟩ := hord.tail
      have hout : within period T a.1 = false := by simp [within]; omega
      rw [load_cons, hout, ih _ (htail.mono hlow)]
      simp

theorem load_renewed {T : Nat} (reqs : List (BitVec w × Nat)) : ∀ s : Throttle w, T ≤ s.start.toNat →
    Ordered s.start.toNat reqs → load period T s reqs ≤ s.left := by
  induction reqs with
  | nil => exact fun s _ _ => Nat.zero_le _
  | cons a reqs ih =>
      intro s hT hord
      obtain ⟨htail, hlow⟩ := hord.tail
      by_cases hin : a.1.toNat < T + period
      · -- too early to renew
        have hkeep : s.renew period a.1 a.2 = s := by
          unfold renew
          rw [if_neg]
          rw [BitVec.toNat_sub_of_le (BitVec.le_def.mpr hlow)]
          omega
        have hleft := request_left period s a.1 a.2
        have hstart := request_start period s a.1 a.2
        rw [hkeep] at hleft hstart
        have hrest := ih (s.request period a.1 a.2).1 (hstart ▸ hT) (hstart ▸ htail.mono hlow)
        rw [load_cons]
        split_ifs at hleft ⊢ <;> simp_all <;> omega
      · have hlate := load_late period (T := T) (a :: reqs) s
          ⟨hord.1, List.forall_mem_cons.mpr ⟨by omega, fun b hb => by have := htail.2 b hb; omega⟩⟩
        omega

theorem load_inside {T M : Nat} (reqs : List (BitVec w × Nat)) : ∀ s : Throttle w, Ordered T reqs →
    (∀ a ∈ reqs, a.2 ≤ M) → load period T s reqs ≤ s.left + M := by
  induction reqs with
  | nil => exact fun s _ _ => Nat.zero_le _
  | cons a reqs ih =>
      intro s hord hfresh
      obtain ⟨htail, hlow⟩ := hord.tail
      have hleft := request_left period s a.1 a.2
      have hstart := request_start period s a.1 a.2
      have hone : load period T s (a :: reqs) ≤ (if (s.request period a.1 a.2).2 then 1 else 0) +
          load period T (s.request period a.1 a.2).1 reqs := by
        rw [load_cons]
        split_ifs <;> simp_all
      by_cases hover : (a.1 - s.start).toNat ≥ period
      · rw [renew, if_pos hover] at hleft hstart
        have hrest := load_renewed period (T := T) reqs (s.request period a.1 a.2).1 (hstart ▸ hlow) (hstart ▸ htail)
        have hM := hfresh a (List.mem_cons_self ..)
        dsimp only at hleft
        omega
      · rw [renew, if_neg hover] at hleft
        have hrest := ih (s.request period a.1 a.2).1 (htail.mono hlow)
          fun b hb => hfresh b (List.mem_cons_of_mem _ hb)
        omega

theorem load_le {T M : Nat} (reqs : List (BitVec w × Nat)) : ∀ s : Throttle w, s.left ≤ M →
    reqs.Pairwise (fun a b => a.1.toNat ≤ b.1.toNat) → (∀ a ∈ reqs, a.2 ≤ M) →
    load period T s reqs ≤ 2 * M := by
  induction reqs with
  | nil => exact fun s _ _ _ => Nat.zero_le _
  | cons a reqs ih =>
      intro s hs hord hfresh
      by_cases hT : T ≤ a.1.toNat
      · have hin := load_inside period (T := T) (M := M) (a :: reqs) s
          ⟨hord, List.forall_mem_cons.mpr
            ⟨hT, fun b hb => Nat.le_trans hT ((List.pairwise_cons.mp hord).1 b hb)⟩⟩ hfresh
        omega
      · -- before the interval only the budget matters
        have hout : within period T a.1 = false := by simp [within]; omega
        rw [load_cons, hout]
        have hrest := ih (s.request period a.1 a.2).1
          (request_left_le period hs (hfresh a (List.mem_cons_self ..))) (List.pairwise_cons.mp hord).2
          fun b hb => hfresh b (List.mem_cons_of_mem _ hb)
        simpa using hrest

end Throttle
end TcpStack
