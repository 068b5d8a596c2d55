import TcpStack.Word
import TcpStack.Circle

/-!
# 32-bit sequence-number arithmetic

The three comparisons of the sequence module and their meaning on unwrapped
positions: all of them agree with the order of the positions while these lie
less than half the sequence space apart.
-/
namespace TcpStack.Seq
open TcpStack.Circle

/-- Modular "is `a` strictly before `b`": the sign bit of the wrapping difference. -/
def before (a b : U32) : Bool := (a - b) &&& 0x80000000#32 != 0#32

def after (a b : U32) : Bool := before b a

/-- `start < x <= stop` on the wrapping circle. -/
def between (start x stop : U32) : Bool := after x start && !after x stop

theorem and_signBit (x : U32) : (x &&& 0x80000000#32 != 0#32) = x.msb := by
  have hp : (0x80000000#32 : U32) = BitVec.twoPow 32 31 := by decide
  have hm : x.msb = x.getLsbD 31 := by rw [BitVec.msb_eq_getLsbD_last]
  rw [hp, BitVec.and_twoPow, hm]
  cases x.getLsbD 31 <;> decide

theorem before_eq_behind (a b : U32) : before a b = behind a b := and_signBit (a - b)

theorem before_iff {a b : U32} : before a b = true ↔ 2 ^ 31 ≤ (a - b).toNat := by
  rw [before_eq_behind, behind_iff]
  omega

@[simp] theorem before_self (a : U32) : before a a = false := by
  rw [Bool.eq_false_iff, ne_eq, before_iff, BitVec.sub_self]
  decide

@[simp] theorem after_self (a : U32) : after a a = false := before_self a

theorem before_point {base : U32} {i j : Nat} (hij : i - j < 2 ^ 31) (hji : j - i ≤ 2 ^ 31) :
    before (point base i) (point base j) = decide (i < j) := by
  rw [before_eq_behind, behind_point (by omega) (by omega)]

theorem after_point {base : U32} {i j : Nat} (hij : i - j ≤ 2 ^ 31) (hji : j - i < 2 ^ 31) :
    after (point base i) (point base j) = decide (j < i) := before_point hji hij

/-- The acceptance test of an acknowledgement picks out exactly the positions
above the left edge and not above the right edge. The tested word is arbitrary. -/
theorem between_point {base x : U32} {u v : Nat} (huv : u ≤ v)
    (h : between (point base u) x (point base v) = true) :
    ∃ a, u < a ∧ a ≤ v ∧ x = point base a := by
  have hx : x = point base (u + (x - point base u).toNat) := by
    rw [← point_point, point_distance]
  have hlt : (x - point base u).toNat < 2 ^ 32 := (x - point base u).isLt
  generalize (x - point base u).toNat = d at hx hlt
  simp only [between, Bool.and_eq_true, Bool.not_eq_true', after] at h
  obtain ⟨hu, hv⟩ := h
  have hpos : 0 < d := by
    rcases Nat.eq_zero_or_pos d with rfl | hp
    · rw [hx, Nat.add_zero, before_self] at hu
      cases hu
    · exact hp
  have hhalf : d ≤ 2 ^ 31 := by
    by_contra hgt
    rw [before_iff, hx] at hu
    have hs := point_sub_point base (Nat.le_add_right u d)
    rw [Nat.add_sub_cancel_left, Nat.mod_eq_of_lt hlt] at hs
    have hn := neg_sub_toNat (a := point base u) (b := point base (u + d)) (by omega)
    omega
  refine ⟨u + d, by omega, ?_, hx⟩
  by_contra hgt
  rw [hx, before_point (by omega) (by omega), decide_eq_false_iff_not] at hv
  omega

end TcpStack.Seq
