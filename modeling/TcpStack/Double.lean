import TcpStack.Word

/-!
# Double-precision numbers

The congestion controllers compute in `f64`. The stack is modelled over an
arbitrary carrier with the operations the code calls and no laws, so what is
proved holds for every rounding. Exact rationals are an instance on which the
controllers can be evaluated.
-/
namespace TcpStack

class F64 (F : Type) where
  /-- `as f64` -/
  ofNat : Nat → F
  /-- A decimal literal: digits and number of decimals. -/
  lit : Nat → Nat → F
  add : F → F → F
  sub : F → F → F
  mul : F → F → F
  div : F → F → F
  max : F → F → F
  powi : F → Nat → F
  cbrt : F → F
  ceil : F → F
  lt : F → F → Bool
  le : F → F → Bool
  /-- Saturating casts `as u32` and `as u64`. -/
  toU32 : F → U32
  toU64 : F → U64

namespace F64

/-- Saturate a rational into a `w`-bit word, truncating towards zero. -/
def saturate (w : Nat) (q : Rat) : BitVec w :=
  if 2 ^ w ≤ q.floor then BitVec.allOnes w else BitVec.ofNat w q.floor.toNat

/-- The largest `x` with `x ^ 3 ≤ n`, one binary digit at a time. -/
def cubeRoot (n : Nat) : Nat → Nat → Nat
  | 0, x => x
  | b+1, x => if (x + 2 ^ b) ^ 3 ≤ n then cubeRoot n b (x + 2 ^ b) else cubeRoot n b x

instance : F64 Rat where
  ofNat n := (n : Rat)
  lit digits decimals := (digits : Rat) / ((10 ^ decimals : Nat) : Rat)
  add a b := a + b
  sub a b := a - b
  mul a b := a * b
  div a b := a / b
  max a b := if a ≤ b then b else a
  powi a n := a ^ n
  cbrt a := (cubeRoot (a * (10 ^ 18 : Nat)).floor.toNat 64 0 : Rat) / ((10 ^ 6 : Nat) : Rat)
  ceil a := (a.ceil : Rat)
  lt a b := decide (a < b)
  le a b := decide (a ≤ b)
  toU32 := saturate 32
  toU64 := saturate 64

end F64
end TcpStack
