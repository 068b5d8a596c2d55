import TcpStack.Checksum
import TcpStack.EndAround

/-!
# The laws of the Internet checksum

The accumulator has room for every string of the sizes that the stack sums. The
loop that folds its carries computes the end-around sum of the words, and what
a string checksums to follows from its sum modulo the largest word.
-/
namespace TcpStack.Utils

/-- The big-endian words, with a zero byte after a lone last one. -/
def words : Bytes → List U16
  | a :: b :: rest => U16.fromBeBytes a b :: words rest
  | [last] => [U16.fromBeBytes last 0#8]
  | [] => []

/-- The accumulation of a build that stops at an overflow. -/
def sumWordsChecked : U32 → Bytes → Option U32
  | sum, a :: b :: rest => do sumWordsChecked (← addChecked sum ((U16.fromBeBytes a b).setWidth 32)) rest
  | sum, [last] => addChecked sum (last.setWidth 32 <<< 8)
  | sum, [] => some sum

theorem word_toNat (a b : U8) : (U16.fromBeBytes a b).toNat = 256 * a.toNat + b.toNat := by
  rw [U16.fromBeBytes, BitVec.toNat_append, Nat.shiftLeft_eq, Nat.mul_comm, ← Nat.two_pow_add_eq_or_of_lt b.isLt]

theorem wordSum_eq_words (data : Bytes) : wordSum data = ((words data).map BitVec.toNat).sum := by
  fun_induction words data with
  | case1 a b rest ih => rw [wordSum, ih, List.map_cons, List.sum_cons]
  | case2 last =>
      rw [wordSum, List.map_singleton, List.sum_singleton, word_toNat, BitVec.toNat_zero]
      omega
  | case3 => rfl

theorem sumWordsChecked_eq (sum : U32) (data : Bytes) (hroom : sum.toNat + wordSum data < 2 ^ 32) :
    sumWordsChecked sum data = some (sumWords sum data) := by
  fun_induction sumWordsChecked sum data with
  | case1 sum a b rest ih =>
      have hword : ((U16.fromBeBytes a b).setWidth 32).toNat = (U16.fromBeBytes a b).toNat :=
        BitVec.toNat_setWidth_of_le (by omega)
      rw [wordSum] at hroom
      have hadd : addChecked sum ((U16.fromBeBytes a b).setWidth 32) =
          some (sum + (U16.fromBeBytes a b).setWidth 32) :=
        if_pos (by omega)
      rw [hadd, Option.bind_eq_bind, Option.bind_some]
      apply ih
      rw [BitVec.toNat_add, hword, Nat.mod_eq_of_lt (by omega)]
      omega
  | case2 sum last =>
      have hlt := last.isLt
      have hhigh : (last.setWidth 32 <<< 8).toNat = last.toNat * 256 := by
        rw [BitVec.toNat_shiftLeft, BitVec.toNat_setWidth_of_le (by omega), Nat.shiftLeft_eq]
        exact Nat.mod_eq_of_lt (by omega)
      rw [wordSum] at hroom
      exact if_pos (by omega)
  | case3 sum => rfl

theorem foldCarry_more (more : Nat) (sum : U32) : foldCarry (2 + more) sum = foldCarry 2 sum := by
  have hdone : ∀ (fuel : Nat) (x : U32), x.toNat < 65536 → foldCarry fuel x = x := by
    intro fuel x hx
    cases fuel with
    | zero => rfl
    | succ fuel =>
        rw [foldCarry, shiftRight_ne_zero, if_neg]
        rw [decide_eq_true_eq]
        omega
  have hsplit : ∀ (fuel : Nat) (x : U32), foldCarry (fuel + more) x = foldCarry more (foldCarry fuel x) := by
    intro fuel
    induction fuel with
    | zero =>
        intro x
        rw [Nat.zero_add, foldCarry]
    | succ fuel ih =>
        intro x
        rw [Nat.add_right_comm, foldCarry, foldCarry]
        split_ifs with hhigh
        · exact ih _
        · rw [shiftRight_ne_zero, decide_eq_true_eq] at hhigh
          exact (hdone more x (by omega)).symm
  rw [hsplit, hdone more _ (foldCarry_lt sum)]

theorem foldCarry_high (sum : U32) : foldCarry 2 sum >>> 16 = 0#32 := by
  have hlt := foldCarry_lt sum
  have hnot : ¬ (foldCarry 2 sum >>> 16 != 0#32) = true := by
    rw [shiftRight_ne_zero, decide_eq_true_eq]
    omega
  simpa using hnot

theorem foldCarry_stands (sum : U32) : EndAround.Stands ((foldCarry 2 sum).setWidth 16) sum.toNat := by
  obtain ⟨hmod, hzero⟩ := foldCarry_spec sum
  have hlow : ((foldCarry 2 sum).setWidth 16).toNat = (foldCarry 2 sum).toNat := by
    rw [BitVec.toNat_setWidth, Nat.mod_eq_of_lt (foldCarry_lt sum)]
  constructor
  · rw [hlow]
    exact hmod
  · rw [hlow]
    exact hzero

theorem checksum_eq_not_sum {data : Bytes} (hroom : wordSum data < 2 ^ 32) :
    checksum data = ~~~ EndAround.sum (words data) := by
  have hfold := foldCarry_stands (sumWords 0#32 data)
  rw [sumWords_toNat, BitVec.toNat_zero, Nat.zero_add, Nat.mod_eq_of_lt hroom, wordSum_eq_words] at hfold
  rw [checksum, hfold.unique (EndAround.Stands.sum (words data))]

/-- A string checksums to zero if the sum that the accumulator holds is a
multiple of the largest word, and is not zero itself. -/
theorem checksum_eq_zero_iff (data : Bytes) :
    checksum data = 0#16 ↔ 65535 ∣ wordSum data % 2 ^ 32 ∧ wordSum data % 2 ^ 32 ≠ 0 := by
  have hfold := foldCarry_stands (sumWords 0#32 data)
  rw [sumWords_toNat, BitVec.toNat_zero, Nat.zero_add] at hfold
  have hones : checksum data = 0#16 ↔ (foldCarry 2 (sumWords 0#32 data)).setWidth 16 = BitVec.allOnes 16 := by
    rw [checksum, ← BitVec.not_zero, BitVec.not_eq_comm, eq_comm]
  rw [hones]
  constructor
  · intro h
    rw [h] at hfold
    exact (EndAround.stands_allOnes_iff (by decide)).mp hfold
  · exact fun h => hfold.unique ((EndAround.stands_allOnes_iff (by decide)).mpr h)

def weight (i : Nat) : Nat := if i % 2 = 0 then 256 else 1

theorem wordSum_set (data : Bytes) (i : Nat) (x : U8) (hi : i < data.length) :
    wordSum (data.set i x) + weight i * (data.getD i 0#8).toNat = wordSum data + weight i * x.toNat := by
  induction data using wordSum.induct generalizing i with
  | case1 a b rest ih =>
      rcases i with _ | _ | i
      · have hweight : weight 0 = 256 := rfl
        simp only [List.set_cons_zero, wordSum, word_toNat, hweight, List.getD_cons_zero]
        omega
      · have hweight : weight (0 + 1) = 1 := rfl
        simp only [List.set_cons_succ, List.set_cons_zero, wordSum, word_toNat, hweight, List.getD_cons_succ,
          List.getD_cons_zero]
        omega
      · have hrest := ih i (by simpa using hi)
        have hweight : weight (i + 1 + 1) = weight i := by
          unfold weight
          rw [Nat.add_assoc, Nat.add_mod_right]
        simp only [List.set_cons_succ, wordSum, List.getD_cons_succ, hweight]
        omega
  | case2 last =>
      rcases i with _ | i
      · have hweight : weight 0 = 256 := rfl
        simp only [List.set_cons_zero, wordSum, hweight, List.getD_cons_zero]
        omega
      · simp at hi
  | case3 => simp at hi

theorem flip_toNat (x : U8) {k : Nat} (hk : k < 8) :
    (x ^^^ (1#8 <<< k)).toNat = x.toNat + 2 ^ k ∨ (x ^^^ (1#8 <<< k)).toNat + 2 ^ k = x.toNat := by
  have hall : ∀ (k : Fin 8) (x : U8), (x ^^^ (1#8 <<< (k : Nat))).toNat = x.toNat + 2 ^ (k : Nat) ∨
      (x ^^^ (1#8 <<< (k : Nat))).toNat + 2 ^ (k : Nat) = x.toNat := by
    decide +kernel
  exact hall ⟨k, hk⟩ x

theorem wordSum_flip (data : Bytes) {i k : Nat} (hi : i < data.length) (hk : k < 8) :
    ∃ j ≤ 15, wordSum (data.set i (data.getD i 0#8 ^^^ (1#8 <<< k))) = wordSum data + 2 ^ j ∨
      wordSum (data.set i (data.getD i 0#8 ^^^ (1#8 <<< k))) + 2 ^ j = wordSum data := by
  have hset := wordSum_set data i (data.getD i 0#8 ^^^ (1#8 <<< k)) hi
  have hbyte := flip_toNat (data.getD i 0#8) hk
  unfold weight at hset
  split_ifs at hset with heven
  · refine ⟨k + 8, by omega, ?_⟩
    rw [Nat.pow_add]
    omega
  · refine ⟨k, by omega, ?_⟩
    omega

theorem checksum_flip_ne_zero {data : Bytes} (hzero : checksum data = 0#16) {i k : Nat}
    (hi : i < data.length) (hk : k < 8) :
    checksum (data.set i (data.getD i 0#8 ^^^ (1#8 <<< k))) ≠ 0#16 := by
  obtain ⟨⟨q, hq⟩, hne⟩ := (checksum_eq_zero_iff data).mp hzero
  obtain ⟨j, hj, hmove⟩ := wordSum_flip data hi hk
  intro hflip
  obtain ⟨⟨q', hq'⟩, hne'⟩ := (checksum_eq_zero_iff _).mp hflip
  have hpow : 2 ^ j ≤ 2 ^ 15 := Nat.pow_le_pow_right (by decide) hj
  have hpos : 0 < 2 ^ j := Nat.two_pow_pos j
  generalize data.set i (data.getD i 0#8 ^^^ (1#8 <<< k)) = flipped at hmove hq' hne'
  generalize 2 ^ j = p at hmove hpow hpos
  -- the sum moves inside its range, or around the end of it
  have hend : wordSum flipped % 2 ^ 32 = wordSum data % 2 ^ 32 + p ∨
      wordSum flipped % 2 ^ 32 + 2 ^ 32 = wordSum data % 2 ^ 32 + p ∨
      wordSum flipped % 2 ^ 32 + p = wordSum data % 2 ^ 32 ∨
      wordSum flipped % 2 ^ 32 + p = wordSum data % 2 ^ 32 + 2 ^ 32 := by omega
  have hlt := Nat.mod_lt (wordSum data) (Nat.two_pow_pos 32)
  have hlt' := Nat.mod_lt (wordSum flipped) (Nat.two_pow_pos 32)
  rw [hq, hq'] at hend
  rw [hq] at hlt hne
  rw [hq'] at hlt' hne'
  rcases hend with h | h | h | h <;> omega

theorem checksum_stored {data : Bytes} {i : Nat} (heven : i % 2 = 0) (hi : i + 2 ≤ data.length) :
    ∃ zeroed filled, copyFromSlice data i (i + 2) [0#8, 0#8] = .ok zeroed ∧
      copyFromSlice zeroed i (i + 2) (checksum zeroed).toBeBytes = .ok filled ∧ checksum filled = 0#16 := by
  have hpre : (data.take i).length = i := List.length_take_of_le (by omega)
  have hlen : i + 2 ≤ (data.take i ++ [0#8, 0#8] ++ data.drop (i + 2)).length := by
    simp only [List.length_append, hpre, List.length_cons, List.length_nil, List.length_drop]
    omega
  have htake : (data.take i ++ [0#8, 0#8] ++ data.drop (i + 2)).take i = data.take i := by
    rw [List.append_assoc, List.take_append_of_le_length (by omega), List.take_of_length_le (by omega)]
  have hdrop : (data.take i ++ [0#8, 0#8] ++ data.drop (i + 2)).drop (i + 2) = data.drop (i + 2) :=
    List.drop_left' (by rw [List.length_append, hpre]; rfl)
  refine ⟨_, _, if_pos ⟨by omega, hi, by simp⟩, if_pos ⟨by omega, hlen, by simp⟩, ?_⟩
  rw [htake, hdrop]
  apply checksum_filled
  rw [hpre]
  exact heven

/-- What the checksum of any string is, and what it detects. -/
theorem checksum_laws (data : Bytes) :
    (data.length ≤ 131072 → sumWordsChecked 0#32 data = some (sumWords 0#32 data) ∧
      checksum data = ~~~ EndAround.sum (words data)) ∧
    (∀ more, foldCarry (2 + more) (sumWords 0#32 data) = foldCarry 2 (sumWords 0#32 data)) ∧
    foldCarry 2 (sumWords 0#32 data) >>> 16 = 0#32 ∧
    (∀ i, i % 2 = 0 → i + 2 ≤ data.length →
      ∃ zeroed filled, copyFromSlice data i (i + 2) [0#8, 0#8] = .ok zeroed ∧
        copyFromSlice zeroed i (i + 2) (checksum zeroed).toBeBytes = .ok filled ∧ checksum filled = 0#16) ∧
    (checksum data = 0#16 → ∀ i < data.length, ∀ k < 8,
      checksum (data.set i (data.getD i 0#8 ^^^ (1#8 <<< k))) ≠ 0#16) := by
  refine ⟨fun hlen => ?_, fun more => foldCarry_more more _, foldCarry_high _, fun i heven hi =>
    checksum_stored heven hi,
    fun hzero i hi k hk => checksum_flip_ne_zero hzero hi hk⟩
  have hle := wordSum_le data
  have hroom : wordSum data < 2 ^ 32 := by omega
  exact ⟨sumWordsChecked_eq 0#32 data (by rw [BitVec.toNat_zero]; omega), checksum_eq_not_sum hroom⟩

/-- The header whose stored checksum the source tests. -/
example : checksum [0x45#8, 0#8, 0#8, 0x73#8, 0#8, 0#8, 0x40#8, 0#8, 0x40#8, 0x11#8, 0xb8#8, 0x61#8,
    0xc0#8, 0xa8#8, 0#8,
    1#8, 0xc0#8, 0xa8#8, 0#8, 0xc7#8] = 0#16 := by decide

end TcpStack.Utils
