import TcpStack.Word

/-!
# The Internet checksum

The one's complement of the one's-complement sum of the big-endian 16-bit
words, with a lone last byte padded on the right.
-/
namespace TcpStack.Utils

/-- Accumulate the words; the last byte of an odd length is a high byte. -/
def sumWords : U32 → Bytes → U32
  | sum, a :: b :: rest => sumWords (sum + (U16.fromBeBytes a b).setWidth 32) rest
  | sum, [last] => sum + (last.setWidth 32 <<< 8)
  | sum, [] => sum

/-- The end-around carry loop. -/
def foldCarry : Nat → U32 → U32
  | 0, sum => sum
  | fuel+1, sum =>
      if sum >>> 16 != 0#32 then foldCarry fuel ((sum &&& 0xffff#32) + (sum >>> 16)) else sum

def checksum (data : Bytes) : U16 := ~~~ ((foldCarry 2 (sumWords 0#32 data)).setWidth 16)

theorem fold_toNat (sum : U32) :
    ((sum &&& 0xffff#32) + (sum >>> 16)).toNat = sum.toNat % 65536 + sum.toNat / 65536 := by
  have hlt := sum.isLt
  have hand : (sum &&& 0xffff#32).toNat = sum.toNat % 65536 := by
    rw [BitVec.toNat_and]
    exact Nat.and_two_pow_sub_one_eq_mod sum.toNat 16
  rw [BitVec.toNat_add, hand, BitVec.toNat_ushiftRight, Nat.shiftRight_eq_div_pow,
    Nat.mod_eq_of_lt (by omega)]

theorem shiftRight_ne_zero (sum : U32) : (sum >>> 16 != 0#32) = decide (65536 ≤ sum.toNat) := by
  have hz : sum >>> 16 = 0#32 ↔ sum.toNat < 65536 := by
    rw [← BitVec.toNat_inj, BitVec.toNat_ushiftRight, Nat.shiftRight_eq_div_pow]
    rw [BitVec.toNat_zero]
    omega
  by_cases h : sum.toNat < 65536
  · simp [hz.mpr h, h]
  · have hne : sum >>> 16 ≠ 0#32 := fun h0 => h (hz.mp h0)
    simp [hne, Nat.le_of_not_lt h]

/-- Two rounds empty the high half of any accumulator, so the loop has ended. -/
theorem foldCarry_lt (sum : U32) : (foldCarry 2 sum).toNat < 65536 := by
  have hlt := sum.isLt
  have hone := fold_toNat sum
  have htwo := fold_toNat ((sum &&& 0xffff#32) + (sum >>> 16))
  simp only [foldCarry, shiftRight_ne_zero, decide_eq_true_eq]
  split_ifs <;> omega

def wordSum : Bytes → Nat
  | a :: b :: rest => (U16.fromBeBytes a b).toNat + wordSum rest
  | [last] => last.toNat * 256
  | [] => 0

theorem wordSum_le (data : Bytes) : wordSum data ≤ 65535 * ((data.length + 1) / 2) := by
  fun_induction wordSum data with
  | case1 a b rest ih =>
      have hlt := (U16.fromBeBytes a b).isLt
      simp only [List.length_cons]
      omega
  | case2 last =>
      have hlt := last.isLt
      simp only [List.length_cons, List.length_nil]
      omega
  | case3 => exact Nat.zero_le _

theorem sumWords_toNat (sum : U32) (data : Bytes) :
    (sumWords sum data).toNat = (sum.toNat + wordSum data) % 2 ^ 32 := by
  fun_induction sumWords sum data with
  | case1 sum a b rest ih =>
      have hadd : (sum + (U16.fromBeBytes a b).setWidth 32).toNat =
          (sum.toNat + (U16.fromBeBytes a b).toNat) % 2 ^ 32 := by
        rw [BitVec.toNat_add, BitVec.toNat_setWidth_of_le (by omega)]
      rw [ih, hadd, wordSum, Nat.mod_add_mod, Nat.add_assoc]
  | case2 sum last =>
      have hlt := last.isLt
      have hhigh : (last.setWidth 32 <<< 8).toNat = last.toNat * 256 := by
        rw [BitVec.toNat_shiftLeft, BitVec.toNat_setWidth_of_le (by omega), Nat.shiftLeft_eq]
        exact Nat.mod_eq_of_lt (by omega)
      rw [BitVec.toNat_add, hhigh, wordSum]
  | case3 sum =>
      rw [wordSum, Nat.add_zero, Nat.mod_eq_of_lt sum.isLt]

theorem wordSum_append : ∀ (pre rest : Bytes), pre.length % 2 = 0 → wordSum (pre ++ rest) = wordSum pre + wordSum rest
  | [], rest, _ => (Nat.zero_add _).symm
  | [_], _, h => by simp at h
  | a :: b :: pre, rest, h => by
      have hpre := wordSum_append pre rest (by simp only [List.length_cons] at h; omega)
      simp only [List.cons_append, wordSum, hpre]
      omega

theorem wordSum_toBeBytes (x : U16) : wordSum x.toBeBytes = x.toNat :=
  congrArg (fun y => y.toNat + 0) (U16.fromBeBytes_toBeBytes x)

theorem foldCarry_spec (sum : U32) :
    (foldCarry 2 sum).toNat % 65535 = sum.toNat % 65535 ∧ ((foldCarry 2 sum).toNat = 0 ↔ sum.toNat = 0) := by
  have hlt := sum.isLt
  have hone := fold_toNat sum
  have htwo := fold_toNat ((sum &&& 0xffff#32) + (sum >>> 16))
  simp only [foldCarry, shiftRight_ne_zero, decide_eq_true_eq]
  split_ifs <;> omega

theorem checksum_toNat (data : Bytes) : (checksum data).toNat = 65535 - (foldCarry 2 (sumWords 0#32 data)).toNat := by
  have hlt := foldCarry_lt (sumWords 0#32 data)
  rw [checksum, BitVec.toNat_not, BitVec.toNat_setWidth, Nat.mod_eq_of_lt (by omega)]

/-- With the checksum of the rest in a zeroed field, the whole sums to zero: the
field fills the sum up to the next multiple of the largest word, which the
accumulator still holds. -/
theorem checksum_filled {pre post : Bytes} (heven : pre.length % 2 = 0) :
    checksum (pre ++ (checksum (pre ++ [0#8, 0#8] ++ post)).toBeBytes ++ post) = 0#16 := by
  have hsum : ∀ c : U16, wordSum (pre ++ c.toBeBytes ++ post) = wordSum pre + c.toNat + wordSum post := by
    intro c
    rw [wordSum_append _ _ (by rw [List.length_append, U16.toBeBytes_length]; omega), wordSum_append _ _ heven,
      wordSum_toBeBytes]
  have hzero : wordSum (pre ++ [0#8, 0#8] ++ post) = wordSum pre + wordSum post := hsum 0#16
  generalize pre ++ [0#8, 0#8] ++ post = zeroed at hzero
  have hfull := hsum (checksum zeroed)
  have hc := checksum_toNat zeroed
  have hclt := (checksum zeroed).isLt
  generalize pre ++ (checksum zeroed).toBeBytes ++ post = filled at hfull
  have hz := sumWords_toNat 0#32 zeroed
  have hf := sumWords_toNat 0#32 filled
  rw [BitVec.toNat_zero, Nat.zero_add] at hz hf
  obtain ⟨hzmod, hzzero⟩ := foldCarry_spec (sumWords 0#32 zeroed)
  obtain ⟨hfmod, hfzero⟩ := foldCarry_spec (sumWords 0#32 filled)
  have hzlt := foldCarry_lt (sumWords 0#32 zeroed)
  have hflt := foldCarry_lt (sumWords 0#32 filled)
  generalize (foldCarry 2 (sumWords 0#32 zeroed)).toNat = kept at *
  generalize hx : (sumWords 0#32 zeroed).toNat = x at *
  have hxlt : x < 2 ^ 32 := hx ▸ (sumWords 0#32 zeroed).isLt
  have hroom : x + (checksum zeroed).toNat < 2 ^ 32 := by
    rw [hc]
    omega
  have hsumf : (sumWords 0#32 filled).toNat = x + (checksum zeroed).toNat := by
    rw [hf, hfull, Nat.add_right_comm, ← hzero, ← Nat.mod_add_mod, ← hz, Nat.mod_eq_of_lt hroom]
  apply BitVec.eq_of_toNat_eq
  rw [checksum_toNat, BitVec.toNat_zero]
  rw [hsumf, hc] at hfmod hfzero
  omega

end TcpStack.Utils
