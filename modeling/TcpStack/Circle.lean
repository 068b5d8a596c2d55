import Mathlib.Algebra.GroupWithZero.Nat
import Mathlib.Data.List.Basic
import Mathlib.Tactic.Common

/-!
# Points on a wrapping circle

A fixed-width machine word used as a counter is a point on a circle of
`2 ^ w` points. `point base n` is the word reached after `n` increments from
`base`; every word has such an unwrapped position. Two words whose positions
differ by less than half the circle are ordered by the sign bit of their
difference, however often the counter has wrapped.
-/
namespace TcpStack.Circle

variable {w : Nat}

/-- The word `n` increments after `base`. -/
def point (base : BitVec w) (n : Nat) : BitVec w := base + BitVec.ofNat w n

@[simp] theorem point_zero (base : BitVec w) : point base 0 = base := by
  simp [point]

theorem point_add (base : BitVec w) (m n : Nat) :
    point base m + BitVec.ofNat w n = point base (m + n) := by
  simp only [point, BitVec.add_assoc, BitVec.ofNat_add]

theorem point_point (base : BitVec w) (m n : Nat) :
    point (point base m) n = point base (m + n) := point_add base m n

theorem offset_point (base : BitVec w) (n : Nat) : point base n - base = BitVec.ofNat w n := by
  simp only [point]
  rw [BitVec.add_comm, BitVec.add_sub_cancel]

theorem point_sub_base (base : BitVec w) (n : Nat) :
    (point base n - base).toNat = n % 2 ^ w := by
  rw [offset_point, BitVec.toNat_ofNat]

theorem point_distance (base x : BitVec w) : point base (x - base).toNat = x := by
  simp only [point, BitVec.ofNat_toNat, BitVec.setWidth_eq]
  rw [BitVec.add_comm, BitVec.sub_add_cancel]

theorem point_sub_point (base : BitVec w) {i j : Nat} (h : i ≤ j) :
    (point base j - point base i).toNat = (j - i) % 2 ^ w := by
  obtain ⟨d, rfl⟩ := Nat.exists_eq_add_of_le h
  rw [← point_point, point_sub_base, Nat.add_sub_cancel_left]

theorem point_inj {base : BitVec w} {i j : Nat} (hi : i < 2 ^ w) (hj : j < 2 ^ w)
    (h : point base i = point base j) : i = j := by
  have hd := congrArg (fun x => (x - base).toNat) h
  simpa only [point_sub_base, Nat.mod_eq_of_lt hi, Nat.mod_eq_of_lt hj] using hd

/-- Words less than a full turn apart are equal only at equal positions. -/
theorem point_inj_near {base : BitVec w} {i j : Nat} (hij : i ≤ j) (hd : j - i < 2 ^ w)
    (h : point base i = point base j) : i = j := by
  have hz := point_sub_point base hij
  rw [h, BitVec.sub_self, BitVec.toNat_zero, Nat.mod_eq_of_lt hd] at hz
  omega

/-- A lies behind B when the wrapping difference A - B has its sign bit set. -/
def behind (a b : BitVec w) : Bool := (a - b).msb

theorem behind_iff {a b : BitVec w} : behind a b = true ↔ 2 ^ w ≤ 2 * (a - b).toNat := by
  simp [behind, BitVec.msb_eq_true_iff_two_mul_ge]

theorem neg_sub_toNat {a b : BitVec w} (h : 0 < (b - a).toNat) :
    (a - b).toNat = 2 ^ w - (b - a).toNat := by
  have hlt := (b - a).isLt
  have hneg : a - b = -(b - a) := by
    rw [BitVec.neg_sub, BitVec.sub_eq_add_neg, BitVec.add_comm]
  rw [hneg, BitVec.toNat_neg, Nat.mod_eq_of_lt (by omega)]

theorem behind_of_lt {base : BitVec w} {i j : Nat} (hij : i < j) (hd : 2 * (j - i) ≤ 2 ^ w) :
    behind (point base i) (point base j) = true := by
  have hs := point_sub_point base (Nat.le_of_lt hij)
  rw [Nat.mod_eq_of_lt (by omega)] at hs
  have hn := neg_sub_toNat (a := point base i) (b := point base j) (by omega)
  rw [behind_iff, hn, hs]
  omega

theorem behind_of_ge {base : BitVec w} {i j : Nat} (hij : i ≤ j) (hd : 2 * (j - i) < 2 ^ w) :
    behind (point base j) (point base i) = false := by
  have hs := point_sub_point base hij
  rw [Nat.mod_eq_of_lt (by omega)] at hs
  rw [Bool.eq_false_iff]
  intro hb
  rw [behind_iff, hs] at hb
  omega

/-- Within half a turn the sign-bit test is the order of the positions. -/
theorem behind_point {base : BitVec w} {i j : Nat} (hij : 2 * (i - j) < 2 ^ w)
    (hji : 2 * (j - i) ≤ 2 ^ w) :
    behind (point base i) (point base j) = decide (i < j) := by
  by_cases h : i < j
  · rw [behind_of_lt h hji, decide_eq_true h]
  · rw [behind_of_ge (Nat.le_of_not_lt h) hij, decide_eq_false h]

end TcpStack.Circle
