import Mathlib.Algebra.GroupWithZero.Nat
import Mathlib.Data.Nat.ModEq
import Mathlib.Tactic.Common

/-!
# One's-complement sums

Addition of words in which the carry out of the top comes back in at the
bottom. A word stands for a sum if the two agree modulo the largest word; of
the two words that are zero modulo it, only the empty one stands for zero.
-/
namespace TcpStack.EndAround

variable {w : Nat}

def add (a b : BitVec w) : BitVec w := if a.toNat + b.toNat < 2 ^ w then a + b else a + b + 1#w

def sum (words : List (BitVec w)) : BitVec w := words.foldl add 0#w

theorem add_toNat (a b : BitVec w) : (add a b).toNat =
    if a.toNat + b.toNat < 2 ^ w then a.toNat + b.toNat else a.toNat + b.toNat - (2 ^ w - 1) := by
  have ha := a.isLt
  have hb := b.isLt
  unfold add
  split_ifs with hcarry
  · rw [BitVec.toNat_add, Nat.mod_eq_of_lt hcarry]
  · have hwrap : (a + b).toNat = a.toNat + b.toNat - 2 ^ w := by
      rw [BitVec.toNat_add, Nat.mod_eq_sub_mod (by omega), Nat.mod_eq_of_lt (by omega)]
    have hone : (1#w).toNat = 1 := by
      rw [BitVec.toNat_ofNat]
      exact Nat.mod_eq_of_lt (by omega)
    rw [BitVec.toNat_add, hwrap, hone, Nat.mod_eq_of_lt (by omega)]
    omega

/-- The word is the sum, up to carries. -/
structure Stands (x : BitVec w) (n : Nat) : Prop where
  mod : x.toNat ≡ n [MOD 2 ^ w - 1]
  zero : x.toNat = 0 ↔ n = 0

theorem Stands.self (x : BitVec w) : Stands x x.toNat := ⟨rfl, Iff.rfl⟩

theorem Stands.add {x y : BitVec w} {m n : Nat} (hx : Stands x m) (hy : Stands y n) :
    Stands (EndAround.add x y) (m + n) := by
  have hsum : x.toNat + y.toNat ≡ m + n [MOD 2 ^ w - 1] := hx.mod.add hy.mod
  have hzero : x.toNat + y.toNat = 0 ↔ m + n = 0 := by
    rw [Nat.add_eq_zero_iff, Nat.add_eq_zero_iff, hx.zero, hy.zero]
  have hx' := x.isLt
  have hy' := y.isLt
  constructor
  · rw [add_toNat]
    split_ifs with hcarry
    · exact hsum
    · have hback : x.toNat + y.toNat - (2 ^ w - 1) ≡ x.toNat + y.toNat [MOD 2 ^ w - 1] := by
        have hself : 2 ^ w - 1 ≡ 0 [MOD 2 ^ w - 1] := Nat.modEq_zero_iff_dvd.mpr (Nat.dvd_refl _)
        have hadd := hself.symm.add_left (x.toNat + y.toNat - (2 ^ w - 1))
        rwa [Nat.sub_add_cancel (by omega), Nat.add_zero] at hadd
      exact hback.trans hsum
  · rw [← hzero, add_toNat]
    split_ifs <;> omega

theorem Stands.sum (words : List (BitVec w)) : Stands (EndAround.sum words) (words.map BitVec.toNat).sum := by
  have hfold : ∀ (words : List (BitVec w)) (x : BitVec w) (n : Nat), Stands x n →
      Stands (words.foldl EndAround.add x) (n + (words.map BitVec.toNat).sum) := by
    intro words
    induction words with
    | nil => exact fun x n hx => hx
    | cons y words ih =>
        intro x n hx
        have hrest := ih _ _ (hx.add (Stands.self y))
        rwa [Nat.add_assoc] at hrest
  have hzero : Stands (0#w) 0 := ⟨rfl, by simp⟩
  have hall := hfold words 0#w 0 hzero
  rwa [Nat.zero_add] at hall

theorem Stands.unique {x y : BitVec w} {n : Nat} (hx : Stands x n) (hy : Stands y n) : x = y := by
  have hmod : x.toNat ≡ y.toNat [MOD 2 ^ w - 1] := hx.mod.trans hy.mod.symm
  have hzero : x.toNat = 0 ↔ y.toNat = 0 := hx.zero.trans hy.zero.symm
  have hx' := x.isLt
  have hy' := y.isLt
  apply BitVec.eq_of_toNat_eq
  rcases Nat.lt_trichotomy x.toNat y.toNat with hlt | heq | hlt
  · have hdvd := (Nat.modEq_iff_dvd' (Nat.le_of_lt hlt)).mp hmod
    have hle := Nat.le_of_dvd (by omega) hdvd
    omega
  · exact heq
  · have hdvd := (Nat.modEq_iff_dvd' (Nat.le_of_lt hlt)).mp hmod.symm
    have hle := Nat.le_of_dvd (by omega) hdvd
    omega

theorem stands_allOnes_iff {n : Nat} (hw : 0 < w) : Stands (BitVec.allOnes w) n ↔ 2 ^ w - 1 ∣ n ∧ n ≠ 0 := by
  have hpos : 1 < 2 ^ w := Nat.one_lt_two_pow (Nat.ne_of_gt hw)
  have hself : 2 ^ w - 1 ≡ 0 [MOD 2 ^ w - 1] := Nat.modEq_zero_iff_dvd.mpr (Nat.dvd_refl _)
  constructor
  · intro h
    have hmod := h.mod
    have hzero := h.zero
    rw [BitVec.toNat_allOnes] at hmod hzero
    exact ⟨Nat.modEq_zero_iff_dvd.mp (hmod.symm.trans hself), fun hn => by have hone := hzero.mpr hn; omega⟩
  · rintro ⟨hdvd, hn⟩
    constructor
    · rw [BitVec.toNat_allOnes]
      exact hself.trans (Nat.modEq_zero_iff_dvd.mpr hdvd).symm
    · rw [BitVec.toNat_allOnes]
      exact iff_of_false (by omega) hn

end TcpStack.EndAround
