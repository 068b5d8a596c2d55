import Mathlib.Tactic.IntervalCases
import TcpStack.Wire

/-!
# SYN cookies

Under a SYN flood the listener keeps no half-open state: its initial sequence
number is a cookie that holds a coarse counter of time, an index into a small
table of segment sizes, and a keyed mix of the addresses, the peer's initial
sequence number and the counter.
-/
namespace TcpStack.Tcp

def cookieTickMs : U64 := 64000#64

def cookieMssTable : List U16 := [536#16, 1220#16, 1460#16, 8960#16]

/-- The position of the last element that meets `p`. -/
def rposition {α : Type} (p : α → Bool) (xs : List α) : Option Nat :=
  (xs.reverse.findIdx? p).map (fun i => xs.length - 1 - i)

/-- A keyed mix of the secret, the 4-tuple, the client's initial sequence number
and the counter. -/
def cookieMix (secret : U64) (localEnd remoteEnd : Endpoint) (peerIsn counter : U32) : U32 :=
  let h := [remoteEnd.1.setWidth 64, remoteEnd.2.setWidth 64, localEnd.1.setWidth 64, localEnd.2.setWidth 64,
    peerIsn.setWidth 64, counter.setWidth 64].foldl (fun h v => (h ^^^ v) * 0x00000100000001B3#64) secret
  (h ^^^ (h >>> 32)).setWidth 32

/-- The table index that stands for the peer's MSS. -/
def cookieMssIdx (peerMss : U16) : Nat := (rposition (fun m => decide (m ≤ peerMss)) cookieMssTable).getD 0

/-- The counter, the index and the mix in one word. -/
def packCookie (counter mssIdx mac : U32) : U32 :=
  ((counter &&& 0x3f#32) <<< 26) ||| ((mssIdx &&& 0x3#32) <<< 24) ||| (mac &&& 0x00FFFFFF#32)

def cookieCounter (now : U64) : U32 := (now / cookieTickMs).setWidth 32

def synCookie (secret : U64) (localEnd remoteEnd : Endpoint) (peerIsn : U32) (peerMss : U16) (now : U64) : U32 :=
  let counter := cookieCounter now
  packCookie counter (BitVec.ofNat 32 (cookieMssIdx peerMss)) (cookieMix secret localEnd remoteEnd peerIsn counter)

/-- The segment size in a returned cookie that is authentic and recent. -/
def checkSynCookie (secret : U64) (localEnd remoteEnd : Endpoint) (peerIsn cookie : U32) (now : U64) :
    Option U16 :=
  let counterBits := (cookie >>> 26) &&& 0x3f#32
  let mssIdx := ((cookie >>> 24) &&& 0x3#32).toNat
  let mac := cookie &&& 0x00FFFFFF#32
  let nowCounter := cookieCounter now
  -- the current tick or the previous two
  [0#32, 1#32, 2#32].findSome? (fun back =>
    let c := nowCounter - back
    if c &&& 0x3f#32 = counterBits ∧
        cookieMix secret localEnd remoteEnd peerIsn c &&& 0x00FFFFFF#32 = mac then
      cookieMssTable[mssIdx]?
    else none)

theorem getLsbD_mask {w n : Nat} (hn : n ≤ w) (i : Nat) :
    (BitVec.ofNat w (2 ^ n - 1)).getLsbD i = decide (i < n) := by
  rw [BitVec.getLsbD_ofNat, Nat.testBit_two_pow_sub_one]
  by_cases h : i < n
  · simp [h, Nat.lt_of_lt_of_le h hn]
  · simp [h]

theorem getLsbD_counterMask (i : Nat) : (0x3f#32).getLsbD i = decide (i < 6) :=
  getLsbD_mask (w := 32) (n := 6) (by decide) i

theorem getLsbD_idxMask (i : Nat) : (0x3#32).getLsbD i = decide (i < 2) :=
  getLsbD_mask (w := 32) (n := 2) (by decide) i

theorem getLsbD_macMask (i : Nat) : (0x00FFFFFF#32).getLsbD i = decide (i < 24) :=
  getLsbD_mask (w := 32) (n := 24) (by decide) i

theorem packCookie_counter (counter mssIdx mac : U32) :
    (packCookie counter mssIdx mac >>> 26) &&& 0x3f#32 = counter &&& 0x3f#32 := by
  apply BitVec.eq_of_getLsbD_eq
  intro i _
  simp only [packCookie, BitVec.getLsbD_and, BitVec.getLsbD_or, BitVec.getLsbD_ushiftRight,
    BitVec.getLsbD_shiftLeft, getLsbD_counterMask, getLsbD_idxMask, getLsbD_macMask]
  by_cases h : i < 6
  · simp [h]
    grind
  · simp [h]

theorem packCookie_mssIdx (counter mssIdx mac : U32) :
    (packCookie counter mssIdx mac >>> 24) &&& 0x3#32 = mssIdx &&& 0x3#32 := by
  apply BitVec.eq_of_getLsbD_eq
  intro i _
  simp only [packCookie, BitVec.getLsbD_and, BitVec.getLsbD_or, BitVec.getLsbD_ushiftRight,
    BitVec.getLsbD_shiftLeft, getLsbD_counterMask, getLsbD_idxMask, getLsbD_macMask]
  by_cases h : i < 2
  · simp [h]
    grind
  · simp [h]

theorem packCookie_mac (counter mssIdx mac : U32) :
    packCookie counter mssIdx mac &&& 0x00FFFFFF#32 = mac &&& 0x00FFFFFF#32 := by
  apply BitVec.eq_of_getLsbD_eq
  intro i _
  simp only [packCookie, BitVec.getLsbD_and, BitVec.getLsbD_or, BitVec.getLsbD_shiftLeft, getLsbD_counterMask,
    getLsbD_idxMask, getLsbD_macMask]
  by_cases h : i < 24
  · simp [h]
    grind
  · simp [h]

/-- The segment size a cookie stands for. -/
def cookieMss (peerMss : U16) : U16 :=
  if 8960#16 ≤ peerMss then 8960#16 else if 1460#16 ≤ peerMss then 1460#16
  else if 1220#16 ≤ peerMss then 1220#16 else 536#16

theorem cookieMssIdx_spec (peerMss : U16) :
    cookieMssIdx peerMss < 4 ∧ cookieMssTable[cookieMssIdx peerMss]? = some (cookieMss peerMss) := by
  simp only [cookieMssIdx, rposition, cookieMssTable, cookieMss, List.reverse_cons, List.reverse_nil,
    List.nil_append, List.cons_append, List.findIdx?_cons, List.findIdx?_nil, List.length_cons, List.length_nil]
  by_cases h₃ : 8960#16 ≤ peerMss
  · simp [h₃]
  by_cases h₂ : 1460#16 ≤ peerMss
  · simp [h₃, h₂]
  by_cases h₁ : 1220#16 ≤ peerMss
  · simp [h₃, h₂, h₁]
  by_cases h₀ : 536#16 ≤ peerMss
  · simp [h₃, h₂, h₁, h₀]
  · simp [h₃, h₂, h₁, h₀]

/-- The table never exceeds the peer's MSS, but for the entry it falls back to. -/
theorem cookieMss_le_iff (peerMss : U16) : cookieMss peerMss ≤ peerMss ↔ 536#16 ≤ peerMss := by
  unfold cookieMss
  split_ifs <;> bv_omega

theorem synCookie_mssIdx (secret : U64) (localEnd remoteEnd : Endpoint) (peerIsn : U32) (peerMss : U16) (now : U64) :
    ((synCookie secret localEnd remoteEnd peerIsn peerMss now >>> 24) &&& 0x3#32).toNat = cookieMssIdx peerMss := by
  have hlt := (cookieMssIdx_spec peerMss).1
  rw [synCookie, packCookie_mssIdx]
  generalize cookieMssIdx peerMss = i at hlt
  interval_cases i <;> rfl

/-- Whatever the clock, a cookie is read back with the segment size it was made
with, or not at all. -/
theorem checkSynCookie_mss {secret : U64} {localEnd remoteEnd : Endpoint} {peerIsn : U32} {peerMss v : U16}
    {made now : U64}
    (h : checkSynCookie secret localEnd remoteEnd peerIsn
      (synCookie secret localEnd remoteEnd peerIsn peerMss made) now = some v) : v = cookieMss peerMss := by
  obtain ⟨back, -, hback⟩ := List.exists_of_findSome?_eq_some h
  simp only [synCookie_mssIdx, (cookieMssIdx_spec peerMss).2] at hback
  split_ifs at hback
  exact (Option.some.inj hback).symm

theorem checkSynCookie_fresh (secret : U64) (localEnd remoteEnd : Endpoint) (peerIsn : U32) (peerMss : U16)
    {made now : U64} (hle : made ≤ now)
    (hticks : (now / cookieTickMs).toNat ≤ (made / cookieTickMs).toNat + 2) :
    checkSynCookie secret localEnd remoteEnd peerIsn (synCookie secret localEnd remoteEnd peerIsn peerMss made) now =
      some (cookieMss peerMss) := by
  have hmono : (made / cookieTickMs).toNat ≤ (now / cookieTickMs).toNat := by
    rw [BitVec.toNat_udiv, BitVec.toNat_udiv]
    exact Nat.div_le_div_right hle
  obtain ⟨back, hmem, hback⟩ : ∃ back ∈ [0#32, 1#32, 2#32], cookieCounter now - back = cookieCounter made := by
    have hd : ∃ d ≤ 2, (now / cookieTickMs).toNat = (made / cookieTickMs).toNat + d :=
      ⟨_, by omega, (Nat.add_sub_of_le hmono).symm⟩
    obtain ⟨d, hd, heq⟩ := hd
    refine ⟨BitVec.ofNat 32 d, ?_, ?_⟩
    · interval_cases d <;> simp
    · apply BitVec.eq_of_toNat_eq
      simp only [cookieCounter, BitVec.toNat_sub, BitVec.toNat_setWidth, BitVec.toNat_ofNat, heq]
      omega
  cases hc : checkSynCookie secret localEnd remoteEnd peerIsn
      (synCookie secret localEnd remoteEnd peerIsn peerMss made) now with
  | some v => rw [checkSynCookie_mss hc]
  | none =>
      -- the tick in which the cookie was made is among the three that are tried
      have hno := List.findSome?_eq_none_iff.mp hc back hmem
      simp only [hback, synCookie_mssIdx, (cookieMssIdx_spec peerMss).2] at hno
      rw [synCookie, packCookie_counter, packCookie_mac, if_pos ⟨rfl, rfl⟩] at hno
      cases hno

theorem counterField_eq_iff (x y : U32) : x &&& 0x3f#32 = y &&& 0x3f#32 ↔ x.toNat % 64 = y.toNat % 64 := by
  have hmod : ∀ z : U32, (z &&& 0x3f#32).toNat = z.toNat % 64 := by
    intro z
    rw [BitVec.toNat_and]
    exact Nat.and_two_pow_sub_one_eq_mod z.toNat 6
  rw [← BitVec.toNat_inj, hmod, hmod]

theorem cookieCounter_sub (now : U64) (back : U32) :
    (cookieCounter now - back).toNat % 64 = ((now / cookieTickMs).toNat + (2 ^ 32 - back.toNat)) % 64 := by
  have hlt := back.isLt
  rw [cookieCounter, BitVec.toNat_sub, BitVec.toNat_setWidth]
  omega

/-- A cookie that comes back within two ticks stands for the table entry chosen
when it was made; from the third tick on, and as long as the counter field has
not come round, it is rejected. -/
theorem checkSynCookie_fresh_or_expired (secret : U64) (localEnd remoteEnd : Endpoint) (peerIsn : U32)
    (peerMss : U16) {made now : U64} (hle : made ≤ now) (ticks : Nat)
    (hticks : ticks = (now / cookieTickMs).toNat - (made / cookieTickMs).toNat) :
    (ticks ≤ 2 → ∃ mss, cookieMssTable[cookieMssIdx peerMss]? = some mss ∧
      checkSynCookie secret localEnd remoteEnd peerIsn
        (synCookie secret localEnd remoteEnd peerIsn peerMss made) now = some mss) ∧
    (3 ≤ ticks → ticks ≤ 63 →
      checkSynCookie secret localEnd remoteEnd peerIsn
        (synCookie secret localEnd remoteEnd peerIsn peerMss made) now = none) := by
  have hmono : (made / cookieTickMs).toNat ≤ (now / cookieTickMs).toNat := by
    rw [BitVec.toNat_udiv, BitVec.toNat_udiv]
    exact Nat.div_le_div_right hle
  constructor
  · intro hfew
    exact ⟨cookieMss peerMss, (cookieMssIdx_spec peerMss).2,
      checkSynCookie_fresh secret localEnd remoteEnd peerIsn peerMss hle (by omega)⟩
  · intro hthree hmany
    refine List.findSome?_eq_none_iff.mpr fun back hback => if_neg fun hmatch => ?_
    have hbits := hmatch.1
    rw [synCookie, packCookie_counter, counterField_eq_iff, cookieCounter_sub] at hbits
    have hmade : (cookieCounter made).toNat % 64 = (made / cookieTickMs).toNat % 64 := by
      rw [cookieCounter, BitVec.toNat_setWidth]
      omega
    have hsmall : back.toNat ≤ 2 := by
      simp only [List.mem_cons, List.not_mem_nil, or_false] at hback
      rcases hback with rfl | rfl | rfl <;> decide
    omega

/-- Two ticks later and three ticks later, with the counter field wrapping in between. -/
theorem cookie_expires_across_the_wrap :
    let localEnd : Endpoint := (Ipv4Addr.new 10#8 0#8 0#8 1#8, 4000#16)
    let remoteEnd : Endpoint := (Ipv4Addr.new 10#8 0#8 0#8 2#8, 80#16)
    let cookie := synCookie 7#64 localEnd remoteEnd 100#32 1460#16 4032000#64
    checkSynCookie 7#64 localEnd remoteEnd 100#32 cookie 4160000#64 = some 1460#16 ∧
      checkSynCookie 7#64 localEnd remoteEnd 100#32 cookie 4224000#64 = none := by
  intro localEnd remoteEnd cookie
  constructor
  · obtain ⟨mss, hmss, hcheck⟩ := (checkSynCookie_fresh_or_expired 7#64 localEnd remoteEnd 100#32 1460#16
      (show 4032000#64 ≤ 4160000#64 by decide) 2 (by decide)).1 (by decide)
    obtain rfl : 1460#16 = mss := Option.some.inj ((by decide : some 1460#16 = _).trans hmss)
    exact hcheck
  · exact (checkSynCookie_fresh_or_expired 7#64 localEnd remoteEnd 100#32 1460#16
      (show 4032000#64 ≤ 4224000#64 by decide) 3 (by decide)).2 (by decide) (by decide)

/-- A word with the counter field of a fresh cookie is rejected exactly when it
differs from the cookie in the bits of the mix. The index is not among them. -/
theorem checkSynCookie_none_iff (secret : U64) (localEnd remoteEnd : Endpoint) (peerIsn : U32) (peerMss : U16)
    (now : U64) {forged : U32}
    (hcounter : forged >>> 26 = synCookie secret localEnd remoteEnd peerIsn peerMss now >>> 26) :
    checkSynCookie secret localEnd remoteEnd peerIsn forged now = none ↔
      forged &&& 0x00FFFFFF#32 ≠ synCookie secret localEnd remoteEnd peerIsn peerMss now &&& 0x00FFFFFF#32 := by
  have hbits : (forged >>> 26) &&& 0x3f#32 = cookieCounter now &&& 0x3f#32 := by
    rw [hcounter, synCookie, packCookie_counter]
  have hmac : synCookie secret localEnd remoteEnd peerIsn peerMss now &&& 0x00FFFFFF#32 =
      cookieMix secret localEnd remoteEnd peerIsn (cookieCounter now) &&& 0x00FFFFFF#32 := by
    rw [synCookie, packCookie_mac]
  have hidx : ((forged >>> 24) &&& 0x3#32).toNat < cookieMssTable.length := by
    have hmod : ((forged >>> 24) &&& 0x3#32).toNat = (forged >>> 24).toNat % 4 := by
      rw [BitVec.toNat_and]
      exact Nat.and_two_pow_sub_one_eq_mod (forged >>> 24).toNat 2
    rw [hmod]
    exact Nat.mod_lt _ (by decide)
  rw [hmac]
  constructor
  · intro hnone hsame
    have hnow := List.findSome?_eq_none_iff.mp hnone 0#32 (List.mem_cons_self ..)
    rw [BitVec.sub_zero, hbits, if_pos ⟨rfl, hsame.symm⟩, List.getElem?_eq_none_iff] at hnow
    omega
  · intro hdiff
    refine List.findSome?_eq_none_iff.mpr fun back hback => if_neg fun hmatch => ?_
    obtain ⟨hfield, hmix⟩ := hmatch
    rw [hbits, counterField_eq_iff, cookieCounter_sub] at hfield
    have hself : (cookieCounter now).toNat % 64 = (now / cookieTickMs).toNat % 64 := by
      rw [cookieCounter, BitVec.toNat_setWidth]
      omega
    simp only [List.mem_cons, List.not_mem_nil, or_false] at hback
    rcases hback with rfl | rfl | rfl
    · rw [BitVec.sub_zero] at hmix
      exact hdiff hmix.symm
    · rw [show (1#32).toNat = 1 from rfl] at hfield
      omega
    · rw [show (2#32).toNat = 2 from rfl] at hfield
      omega

/-- One bit of the mix is flipped. -/
theorem tampered_mix_is_rejected :
    let localEnd : Endpoint := (Ipv4Addr.new 10#8 0#8 0#8 1#8, 4000#16)
    let remoteEnd : Endpoint := (Ipv4Addr.new 10#8 0#8 0#8 2#8, 80#16)
    checkSynCookie 7#64 localEnd remoteEnd 100#32
      (synCookie 7#64 localEnd remoteEnd 100#32 536#16 0#64 ^^^ 1#32) 0#64 = none := by
  intro localEnd remoteEnd
  exact (checkSynCookie_none_iff 7#64 localEnd remoteEnd 100#32 536#16 0#64 (by decide)).mpr (by decide)

/-- A client that was given the smallest segment size turns its cookie into one for the largest. -/
theorem cookie_index_can_be_changed :
    let localEnd : Endpoint := (Ipv4Addr.new 10#8 0#8 0#8 1#8, 4000#16)
    let remoteEnd : Endpoint := (Ipv4Addr.new 10#8 0#8 0#8 2#8, 80#16)
    let cookie := synCookie 7#64 localEnd remoteEnd 100#32 536#16 0#64
    let forged := cookie ^^^ 0x03000000#32
    forged ≠ cookie ∧ forged >>> 26 = cookie >>> 26 ∧
      checkSynCookie 7#64 localEnd remoteEnd 100#32 cookie 0#64 = some 536#16 ∧
      checkSynCookie 7#64 localEnd remoteEnd 100#32 forged 0#64 = some 8960#16 := by
  decide

end TcpStack.Tcp
