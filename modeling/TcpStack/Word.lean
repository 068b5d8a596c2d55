import Mathlib.Algebra.Group.Int.Defs
import Mathlib.Algebra.GroupWithZero.Nat
import Mathlib.Data.List.Basic
import Mathlib.Tactic.Common

/-!
# Machine words and bytes

Unsigned machine words are bit vectors, with the wrapping arithmetic of the
release build. This module adds the saturating operations, the checked ones of
the debug build and the big-endian byte codecs that the stack uses, and the
outcome type of code that indexes into byte buffers.
-/
namespace TcpStack

abbrev U8 := BitVec 8
abbrev U16 := BitVec 16
abbrev U32 := BitVec 32
abbrev U64 := BitVec 64
abbrev Bytes := List U8

def saturatingSub {w : Nat} (a b : BitVec w) : BitVec w := if a ≤ b then 0 else a - b

def saturatingAdd {w : Nat} (a b : BitVec w) : BitVec w :=
  if a.toNat + b.toNat < 2 ^ w then a + b else BitVec.allOnes w

def umin {w : Nat} (a b : BitVec w) : BitVec w := if a ≤ b then a else b

def umax {w : Nat} (a b : BitVec w) : BitVec w := if a ≤ b then b else a

/-- `a + b`, where it does not overflow. -/
def addChecked (a b : U32) : Option U32 := if a.toNat + b.toNat < 2 ^ 32 then some (a + b) else none

/-- `a - b`, where it does not underflow. -/
def subChecked (a b : U32) : Option U32 := if b ≤ a then some (a - b) else none

/-- `a * b`, where it does not overflow. -/
def mulChecked (a b : U32) : Option U32 := if a.toNat * b.toNat < 2 ^ 32 then some (a * b) else none

/-- `a / b`, where the divisor is not zero. -/
def divChecked (a b : U32) : Option U32 := if b = 0#32 then none else some (a / b)

theorem umin_toNat {w : Nat} (a b : BitVec w) : (umin a b).toNat = min a.toNat b.toNat := by
  unfold umin
  split_ifs with h
  · rw [BitVec.le_def] at h
    exact (Nat.min_eq_left h).symm
  · rw [BitVec.le_def] at h
    omega

theorem umax_toNat {w : Nat} (a b : BitVec w) : (umax a b).toNat = max a.toNat b.toNat := by
  unfold umax
  split_ifs with h
  · rw [BitVec.le_def] at h
    exact (Nat.max_eq_right h).symm
  · rw [BitVec.le_def] at h
    omega

theorem umin_le_left {w : Nat} (a b : BitVec w) : umin a b ≤ a := by
  rw [BitVec.le_def, umin_toNat]
  exact Nat.min_le_left _ _

theorem umin_le_right {w : Nat} (a b : BitVec w) : umin a b ≤ b := by
  rw [BitVec.le_def, umin_toNat]
  exact Nat.min_le_right _ _

theorem le_umax_left {w : Nat} (a b : BitVec w) : a ≤ umax a b := by
  rw [BitVec.le_def, umax_toNat]
  exact Nat.le_max_left _ _

theorem le_umax_right {w : Nat} (a b : BitVec w) : b ≤ umax a b := by
  rw [BitVec.le_def, umax_toNat]
  exact Nat.le_max_right _ _

theorem saturatingAdd_toNat {w : Nat} (a b : BitVec w) :
    (saturatingAdd a b).toNat = min (a.toNat + b.toNat) (2 ^ w - 1) := by
  unfold saturatingAdd
  split_ifs with h
  · rw [BitVec.toNat_add, Nat.mod_eq_of_lt h]
    omega
  · rw [BitVec.toNat_allOnes]
    omega

theorem saturatingSub_toNat {w : Nat} (a b : BitVec w) : (saturatingSub a b).toNat = a.toNat - b.toNat := by
  unfold saturatingSub
  split_ifs with h
  · rw [BitVec.le_def] at h
    exact (Nat.sub_eq_zero_of_le h).symm
  · exact BitVec.toNat_sub_of_le (BitVec.le_of_lt (BitVec.not_le.mp h))

def U16.fromBeBytes (a b : U8) : U16 := a ++ b

def U32.fromBeBytes (a b c d : U8) : U32 := a ++ b ++ c ++ d

def U16.toBeBytes (x : U16) : Bytes := [x.extractLsb' 8 8, x.extractLsb' 0 8]

def U32.toBeBytes (x : U32) : Bytes :=
  [x.extractLsb' 24 8, x.extractLsb' 16 8, x.extractLsb' 8 8, x.extractLsb' 0 8]

@[simp] theorem U16.toBeBytes_length (x : U16) : x.toBeBytes.length = 2 := rfl
@[simp] theorem U32.toBeBytes_length (x : U32) : x.toBeBytes.length = 4 := rfl

theorem U16.fromBeBytes_toBeBytes (x : U16) :
    U16.fromBeBytes (x.extractLsb' 8 8) (x.extractLsb' 0 8) = x := by
  unfold U16.fromBeBytes
  rw [BitVec.extractLsb'_append_extractLsb'_eq_extractLsb' (show 8 = 0 + 8 from rfl),
    BitVec.extractLsb'_eq_self]

theorem U16.toBeBytes_eq_zero_iff (x : U16) : x.toBeBytes = [0#8, 0#8] ↔ x = 0#16 := by
  constructor
  · intro h
    have hhigh : x.extractLsb' 8 8 = 0#8 := (List.cons.inj h).1
    have hlow : x.extractLsb' 0 8 = 0#8 := (List.cons.inj (List.cons.inj h).2).1
    rw [← U16.fromBeBytes_toBeBytes x, hhigh, hlow]
    rfl
  · rintro rfl
    rfl

theorem U32.fromBeBytes_toBeBytes (x : U32) :
    U32.fromBeBytes (x.extractLsb' 24 8) (x.extractLsb' 16 8) (x.extractLsb' 8 8)
      (x.extractLsb' 0 8) = x := by
  unfold U32.fromBeBytes
  rw [BitVec.extractLsb'_append_extractLsb'_eq_extractLsb' (show 24 = 16 + 8 from rfl),
    BitVec.extractLsb'_append_extractLsb'_eq_extractLsb' (show 16 = 8 + 8 from rfl),
    BitVec.extractLsb'_append_extractLsb'_eq_extractLsb' (show 8 = 0 + 8 from rfl),
    BitVec.extractLsb'_eq_self]

theorem U32.toBeBytes_fromBeBytes (a b c d : U8) : U32.toBeBytes (U32.fromBeBytes a b c d) = [a, b, c, d] := by
  simp only [U32.toBeBytes, U32.fromBeBytes, List.cons.injEq, and_true]
  refine ⟨?_, ?_, ?_, ?_⟩ <;> ext i hi <;> simp <;> grind

/-- How an indexing or slicing expression of the source can fail at run time. -/
inductive Panic where
  | index (i len : Nat)
  | slice (start stop len : Nat)
  deriving DecidableEq, Repr

/-- A computation that either returns or panics. -/
abbrev Checked := Except Panic

@[simp] theorem Checked.ok_bind {α β : Type} (a : α) (f : α → Checked β) :
    ((.ok a : Checked α) >>= f) = f a := rfl

@[simp] theorem Checked.pure_eq {α : Type} (a : α) : (pure a : Checked α) = .ok a := rfl

/-- `xs[i]` -/
def index (xs : Bytes) (i : Nat) : Checked U8 :=
  match xs[i]? with
  | some x => .ok x
  | none => .error (.index i xs.length)

/-- `&xs[start..stop]` -/
def slice (xs : Bytes) (start stop : Nat) : Checked Bytes :=
  if start ≤ stop ∧ stop ≤ xs.length then .ok ((xs.take stop).drop start)
  else .error (.slice start stop xs.length)

/-- `xs[i] = x` -/
def store (xs : Bytes) (i : Nat) (x : U8) : Checked Bytes :=
  if i < xs.length then .ok (xs.set i x) else .error (.index i xs.length)

theorem store_of_lt {xs : Bytes} {i : Nat} (h : i < xs.length) (x : U8) :
    store xs i x = .ok (xs.set i x) := if_pos h

/-- `xs[start..stop].copy_from_slice(ys)` -/
def copyFromSlice (xs : Bytes) (start stop : Nat) (ys : Bytes) : Checked Bytes :=
  if start ≤ stop ∧ stop ≤ xs.length ∧ ys.length = stop - start then
    .ok (xs.take start ++ ys ++ xs.drop stop)
  else .error (.slice start stop xs.length)

/-- The computation returns, and what it returns satisfies `Q`. -/
def Checked.Returns {α : Type} (x : Checked α) (Q : α → Prop) : Prop := ∃ a, x = .ok a ∧ Q a

namespace Checked.Returns

variable {α β : Type} {x : Checked α} {f : α → Checked β} {Q : α → Prop} {R : β → Prop}

theorem pure {a : α} (h : Q a) : Returns (Except.ok a) Q := ⟨a, rfl, h⟩

theorem bind (hx : x.Returns Q) (hf : ∀ a, Q a → (f a).Returns R) : (x >>= f).Returns R := by
  obtain ⟨a, rfl, ha⟩ := hx
  exact hf a ha

end Checked.Returns

theorem index_of_lt {xs : Bytes} {i : Nat} (h : i < xs.length) : index xs i = .ok (xs.getD i 0#8) := by
  simp only [index, List.getElem?_eq_getElem h, List.getD_eq_getElem?_getD, Option.getD_some]

theorem index_returns {xs : Bytes} {i : Nat} (h : i < xs.length) :
    (index xs i).Returns fun _ => True := ⟨_, index_of_lt h, trivial⟩

theorem slice_of_le {xs : Bytes} {i j : Nat} (hij : i ≤ j) (hj : j ≤ xs.length) :
    slice xs i j = .ok ((xs.take j).drop i) := if_pos ⟨hij, hj⟩

theorem slice_returns {xs : Bytes} {i j : Nat} (hij : i ≤ j) (hj : j ≤ xs.length) :
    (slice xs i j).Returns fun ys => ys.length = j - i := by
  refine ⟨_, slice_of_le hij hj, ?_⟩
  simp only [List.length_drop, List.length_take, Nat.min_eq_left hj]

theorem store_returns {xs : Bytes} {i : Nat} (h : i < xs.length) (x : U8) :
    (store xs i x).Returns fun ys => ys.length = xs.length :=
  ⟨_, store_of_lt h x, List.length_set⟩

theorem copyFromSlice_returns {xs ys : Bytes} {i j : Nat} (hij : i ≤ j) (hj : j ≤ xs.length)
    (hy : ys.length = j - i) : (copyFromSlice xs i j ys).Returns fun zs => zs.length = xs.length := by
  refine ⟨_, if_pos ⟨hij, hj, hy⟩, ?_⟩
  simp only [List.length_append, List.length_take, List.length_drop]
  omega

end TcpStack
