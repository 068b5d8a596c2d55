import TcpStack.Seq
import TcpStack.SortedMap
import TcpStack.Piece

/-!
# Out-of-order receive reassembly

Fragments are keyed by their offset from a fixed base, the sequence number of
the peer's first data byte. The second half of the module says what one call
does to a reassembler whose fragments all come from one byte stream.
-/
namespace TcpStack
open TcpStack.Circle

/-- Data further than this past what is expected is discarded. -/
def maxAhead : U32 := 1 <<< 16

/-- Per-connection receive reassembly buffer. -/
structure Reassembler where
  base : U32
  frags : SortedMap Nat Bytes

namespace Reassembler

def new (firstDataSeq : U32) : Reassembler := ⟨firstDataSeq, .empty⟩

/-- The delivery loop: take the fragment at `cur` while there is one. Every
round removes a fragment, so as many rounds as there are fragments suffice. -/
def flush : Nat → SortedMap Nat Bytes → U32 → Bytes → SortedMap Nat Bytes × Bytes
  | 0, frags, _, out => (frags, out)
  | fuel+1, frags, cur, out =>
      match frags.firstGE cur.toNat with
      | none => (frags, out)
      | some (o, bytes) =>
          if o ≠ cur.toNat then (frags, out)  -- a gap remains
          else flush fuel (frags.erase o) (cur + BitVec.ofNat 32 bytes.length) (out ++ bytes)

/-- Buffer data that starts at or above `nxtOff`, then deliver the unbroken run. -/
def buffer (r : Reassembler) (off nxtOff : U32) (data : Bytes) : Reassembler × Bytes :=
  if off - nxtOff > maxAhead then (r, [])
  else
    let frags := r.frags.insert off.toNat data
    let (frags, out) := flush frags.entries.length frags nxtOff []
    ({ r with frags }, out)

/-- Feed the data of a segment at absolute sequence `seq`; returns the bytes
that are now contiguous from `rcvNxt`. -/
def recv (r : Reassembler) (seq : U32) (data : Bytes) (rcvNxt : U32) : Reassembler × Bytes :=
  if data.isEmpty then (r, [])
  else
    let nxtOff := rcvNxt - r.base
    let off := seq - r.base
    if off < nxtOff then
      let skip := (nxtOff - off).toNat
      if skip ≥ data.length then (r, [])  -- wholly old
      else r.buffer nxtOff nxtOff (data.drop skip)
    else r.buffer off nxtOff data

def buffered (r : Reassembler) : Nat := r.frags.entries.length

def pushBlock (base : U32) (blocks : List (U32 × U32)) (e : Nat × Bytes) : List (U32 × U32) :=
  let left := base + BitVec.ofNat 32 e.1
  let right := left + BitVec.ofNat 32 e.2.length
  match blocks.getLast? with
  | some last =>
      if last.2 = left then blocks.dropLast ++ [(last.1, right)] else blocks ++ [(left, right)]
  | none => blocks ++ [(left, right)]

/-- The buffered ranges as absolute `(left, right)` pairs, right edge exclusive. -/
def sackBlocks (r : Reassembler) : List (U32 × U32) :=
  r.frags.entries.foldl (pushBlock r.base) []

@[simp] theorem recv_nil (r : Reassembler) (seq rcvNxt : U32) : r.recv seq [] rcvNxt = (r, []) := rfl

/-- Every fragment is a non-empty piece of the stream at its own offset. -/
def FromStream (st : Bytes) (frags : SortedMap Nat Bytes) : Prop :=
  ∀ e ∈ frags, PieceAt st e.1 e.2 ∧ e.2 ≠ []

/-- No fragment starts inside another. -/
def NoOverlap (frags : SortedMap Nat Bytes) : Prop :=
  ∀ a ∈ frags, ∀ b ∈ frags, a.1 < b.1 → a.1 + a.2.length ≤ b.1

/-- Stream position `x` is in some fragment. -/
def Held (frags : SortedMap Nat Bytes) (x : Nat) : Prop :=
  ∃ e ∈ frags, e.1 ≤ x ∧ x < e.1 + e.2.length

theorem FromStream.end_le {st : Bytes} {frags : SortedMap Nat Bytes} (h : FromStream st frags)
    {e : Nat × Bytes} (he : e ∈ frags) : e.1 + e.2.length ≤ st.length :=
  (h e he).1.end_le (h e he).2

theorem FromStream.mono {st st' : Bytes} {frags : SortedMap Nat Bytes} (h : FromStream st frags)
    (hst : st <+: st') : FromStream st' frags :=
  fun e he => ⟨(h e he).1.mono hst, (h e he).2⟩

theorem FromStream.subset {st : Bytes} {frags frags' : SortedMap Nat Bytes}
    (h : FromStream st frags) (hs : ∀ e ∈ frags', e ∈ frags) : FromStream st frags' :=
  fun e he => h e (hs e he)

/-- What the delivery loop does to stream fragments. The bytes it appends are
the piece of the stream at `m`, every fragment it removes lies inside that
piece, and no fragment is left where it stopped. -/
structure Flushed (st : Bytes) (frags frags' : SortedMap Nat Bytes) (m : Nat) (ext : Bytes) : Prop where
  piece : PieceAt st m ext
  bound : m + ext.length ≤ st.length
  kept : ∀ e ∈ frags', e ∈ frags
  gap : ∀ v, (m + ext.length, v) ∉ frags'
  reach : ext = [] ∨ ∃ e ∈ frags, e.1 + e.2.length = m + ext.length
  removed : ∀ e ∈ frags, e ∉ frags' → m ≤ e.1 ∧ e.1 + e.2.length ≤ m + ext.length
  held : ∀ k, m ≤ k → k < m + ext.length → Held frags k
  above : NoOverlap frags → (∀ e ∈ frags, m ≤ e.1) → ∀ e ∈ frags', m + ext.length ≤ e.1

/-- Nothing at `m`: the loop stops at once. -/
theorem Flushed.stop {st : Bytes} {frags : SortedMap Nat Bytes} {m : Nat} (hm : m ≤ st.length)
    (hno : ∀ v, (m, v) ∉ frags) : Flushed st frags frags m [] where
  piece := .nil _ _
  bound := by simpa using hm
  kept := fun _ he => he
  gap := by simpa using hno
  reach := .inl rfl
  removed := fun _ he hne => absurd he hne
  held := by
    intro k h₁ h₂
    exact absurd h₂ (by simpa using h₁)
  above := by
    intro _ hge e he
    simpa using hge e he

theorem Flushed.take {st v ext : Bytes} {frags frags' : SortedMap Nat Bytes} {m : Nat}
    (hs : FromStream st frags) (hv : (m, v) ∈ frags)
    (h : Flushed st (frags.erase m) frags' (m + v.length) ext) :
    Flushed st frags frags' m (v ++ ext) where
  piece := (hs _ hv).1.append h.piece
  bound := by
    have hb := h.bound
    rw [List.length_append]
    omega
  kept := fun e he => (SortedMap.mem_erase.mp (h.kept e he)).1
  gap := by
    intro w
    rw [List.length_append, ← Nat.add_assoc]
    exact h.gap w
  reach := by
    right
    rw [List.length_append, ← Nat.add_assoc]
    rcases h.reach with hnil | ⟨e, he, hend⟩
    · exact ⟨(m, v), hv, by simp [hnil]⟩
    · exact ⟨e, (SortedMap.mem_erase.mp he).1, hend⟩
  removed := by
    intro e he hne
    rw [List.length_append]
    by_cases hem : e.1 = m
    · have hev : e.2 = v := SortedMap.value_unique (m := frags) (k := m) (hem ▸ he) hv
      rw [hem, hev]
      omega
    · have hr := h.removed e (SortedMap.mem_erase.mpr ⟨he, hem⟩) hne
      omega
  held := by
    intro k h₁ h₂
    rw [List.length_append] at h₂
    by_cases hk : k < m + v.length
    · exact ⟨(m, v), hv, h₁, hk⟩
    · obtain ⟨e, he, hin⟩ := h.held k (by omega) (by omega)
      exact ⟨e, (SortedMap.mem_erase.mp he).1, hin⟩
  above := by
    intro hno hge e he
    rw [List.length_append, ← Nat.add_assoc]
    refine h.above ?_ ?_ e he
    · intro a ha b hb
      exact hno a (SortedMap.mem_erase.mp ha).1 b (SortedMap.mem_erase.mp hb).1
    · -- the other fragments start at or after the end of the one taken
      intro b hb
      obtain ⟨hb, hbm⟩ := SortedMap.mem_erase.mp hb
      have hlt : m < b.1 := lt_of_le_of_ne (hge b hb) (Ne.symm hbm)
      exact hno _ hv b hb hlt

theorem flush_spec {st : Bytes} (hst : st.length < 2 ^ 32) (fuel : Nat) :
    ∀ (frags : SortedMap Nat Bytes) (m : Nat) (out : Bytes), frags.entries.length ≤ fuel →
      FromStream st frags → m ≤ st.length →
      ∃ frags' ext, flush fuel frags (BitVec.ofNat 32 m) out = (frags', out ++ ext) ∧
        Flushed st frags frags' m ext := by
  induction fuel with
  | zero =>
      intro frags m out hf hs hm
      have hnil : frags.entries = [] := List.eq_nil_of_length_eq_zero (by omega)
      have hno : ∀ e, e ∉ frags := by
        intro e he
        rw [SortedMap.mem_def, hnil] at he
        cases he
      exact ⟨frags, [], by simp [flush], .stop hm fun v => hno _⟩
  | succ fuel ih =>
      intro frags m out hf hs hm
      have hcur : (BitVec.ofNat 32 m).toNat = m := by
        rw [BitVec.toNat_ofNat, Nat.mod_eq_of_lt (by omega)]
      simp only [flush, hcur]
      by_cases hex : ∃ v, (m, v) ∈ frags
      · -- the fragment at `m` is taken and the loop goes on after it
        obtain ⟨v, hv⟩ := hex
        have hend := hs.end_le hv
        simp only [SortedMap.firstGE_of_mem hv, ne_eq, not_true_eq_false, if_false]
        have hlen := SortedMap.length_erase_lt hv
        have hs' : FromStream st (frags.erase m) :=
          hs.subset (fun e he => (SortedMap.mem_erase.mp he).1)
        obtain ⟨frags', ext, heq, hfl⟩ := ih (frags.erase m) (m + v.length) (out ++ v) (by omega)
          hs' (by simpa using hend)
        refine ⟨frags', v ++ ext, ?_, .take hs hv hfl⟩
        rw [← BitVec.ofNat_add, heq, List.append_assoc]
      · have hno : ∀ v, (m, v) ∉ frags := fun v hv => hex ⟨v, hv⟩
        refine ⟨frags, [], ?_, .stop hm hno⟩
        cases hg : frags.firstGE m with
        | none => simp
        | some e =>
            have hne : e.1 ≠ m := by
              intro h
              exact hno e.2 (h ▸ (SortedMap.firstGE_mem hg).1)
            simp [hne]

theorem buffer_near {st data : Bytes} {r : Reassembler} {off n : Nat} (hst : st.length < 2 ^ 32)
    (hs : FromStream st r.frags) (hd : PieceAt st off data) (hne : data ≠ []) (hn : n ≤ st.length)
    (hnear : ¬ BitVec.ofNat 32 off - BitVec.ofNat 32 n > maxAhead) :
    ∃ frags' ext, r.buffer (BitVec.ofNat 32 off) (BitVec.ofNat 32 n) data = (⟨r.base, frags'⟩, ext) ∧
      Flushed st (r.frags.insert off data) frags' n ext := by
  have hoff : (BitVec.ofNat 32 off).toNat = off := by
    have hend := hd.end_le hne
    rw [BitVec.toNat_ofNat, Nat.mod_eq_of_lt (by omega)]
  have hs' : FromStream st (r.frags.insert off data) := by
    intro e he
    rcases SortedMap.mem_insert.mp he with rfl | ⟨_, he⟩
    · exact ⟨hd, hne⟩
    · exact hs e he
  obtain ⟨frags', ext, heq, hfl⟩ := flush_spec hst _ _ n [] le_rfl hs' hn
  refine ⟨frags', ext, ?_, hfl⟩
  simp only [buffer, if_neg hnear, hoff]
  rw [heq, List.nil_append]

theorem buffer_cases {st data : Bytes} {r : Reassembler} {off n : Nat} (hst : st.length < 2 ^ 32)
    (hs : FromStream st r.frags) (hd : PieceAt st off data) (hne : data ≠ []) (hn : n ≤ st.length) :
    r.buffer (BitVec.ofNat 32 off) (BitVec.ofNat 32 n) data = (r, []) ∨
    ∃ frags' ext, r.buffer (BitVec.ofNat 32 off) (BitVec.ofNat 32 n) data = (⟨r.base, frags'⟩, ext) ∧
      Flushed st (r.frags.insert off data) frags' n ext := by
  by_cases hfar : BitVec.ofNat 32 off - BitVec.ofNat 32 n > maxAhead
  · left
    simp only [buffer, if_pos hfar]
  · exact .inr (buffer_near hst hs hd hne hn hfar)

theorem recv_old {r : Reassembler} {data : Bytes} {off n : Nat} (hn : n < 2 ^ 32)
    (hold : off + data.length ≤ n) :
    r.recv (point r.base off) data (point r.base n) = (r, []) := by
  unfold recv
  split
  · rfl
  · rename_i hne
    have hpos : 0 < data.length := by
      rcases data with _ | ⟨b, bs⟩
      · simp at hne
      · simp
    have hoff : (BitVec.ofNat 32 off).toNat = off := by
      rw [BitVec.toNat_ofNat, Nat.mod_eq_of_lt (by omega)]
    have hnn : (BitVec.ofNat 32 n).toNat = n := by
      rw [BitVec.toNat_ofNat, Nat.mod_eq_of_lt hn]
    have hlt : BitVec.ofNat 32 off < BitVec.ofNat 32 n := by
      rw [BitVec.lt_def, hoff, hnn]
      omega
    have hskip : (BitVec.ofNat 32 n - BitVec.ofNat 32 off).toNat = n - off := by
      rw [BitVec.toNat_sub_of_le (BitVec.le_of_lt hlt), hoff, hnn]
    simp only [offset_point, hlt, if_true, hskip]
    rw [if_pos (by omega)]

theorem recv_new {r : Reassembler} {data : Bytes} {off n : Nat} (hoff : off < 2 ^ 32) (hn : n < 2 ^ 32)
    (hne : data ≠ []) (hnew : n < off + data.length) :
    r.recv (point r.base off) data (point r.base n) =
      r.buffer (BitVec.ofNat 32 (off + (n - off))) (BitVec.ofNat 32 n) (data.drop (n - off)) := by
  have hemp : data.isEmpty = false := by simpa using hne
  have hoff' : (BitVec.ofNat 32 off).toNat = off := by
    rw [BitVec.toNat_ofNat, Nat.mod_eq_of_lt hoff]
  have hnn : (BitVec.ofNat 32 n).toNat = n := by
    rw [BitVec.toNat_ofNat, Nat.mod_eq_of_lt hn]
  simp only [recv, hemp, offset_point, BitVec.lt_def, hoff', hnn, Bool.false_eq_true, if_false]
  by_cases hlt : off < n
  · have hskip : (BitVec.ofNat 32 n - BitVec.ofNat 32 off).toNat = n - off := by
      rw [BitVec.toNat_sub_of_le (by rw [BitVec.le_def, hoff', hnn]; omega), hoff', hnn]
    rw [if_pos hlt, hskip, if_neg (by omega), show off + (n - off) = n by omega]
  · rw [if_neg hlt, show n - off = 0 by omega, Nat.add_zero, List.drop_zero]

theorem far_iff {off n : Nat} (hn : n ≤ off) (hoff : off < 2 ^ 32) :
    BitVec.ofNat 32 off - BitVec.ofNat 32 n > maxAhead ↔ n + maxAhead.toNat < off := by
  have hoff' : (BitVec.ofNat 32 off).toNat = off := by
    rw [BitVec.toNat_ofNat, Nat.mod_eq_of_lt hoff]
  have hnn : (BitVec.ofNat 32 n).toNat = n := by
    rw [BitVec.toNat_ofNat, Nat.mod_eq_of_lt (by omega)]
  rw [gt_iff_lt, BitVec.lt_def, BitVec.toNat_sub_of_le (by rw [BitVec.le_def, hoff', hnn]; exact hn), hoff', hnn]
  omega

/-- Data of the stream is either dropped whole, or its part from the delivered
point on is inserted and the loop run. -/
theorem recv_cases {st data : Bytes} {r : Reassembler} {off n : Nat} (hst : st.length < 2 ^ 32)
    (hs : FromStream st r.frags) (hd : PieceAt st off data) (hne : data ≠ []) (hn : n ≤ st.length) :
    r.recv (point r.base off) data (point r.base n) = (r, []) ∨
    ∃ frags' ext, n < off + data.length ∧
      r.recv (point r.base off) data (point r.base n) = (⟨r.base, frags'⟩, ext) ∧
      Flushed st (r.frags.insert (off + (n - off)) (data.drop (n - off))) frags' n ext := by
  by_cases hold : off + data.length ≤ n
  · exact .inl (recv_old (by omega) hold)
  have hend := hd.end_le hne
  have hcut : data.drop (n - off) ≠ [] := by
    rw [ne_eq, List.drop_eq_nil_iff]
    have hpos := List.length_pos_iff.mpr hne
    omega
  rw [recv_new (by omega) (by omega) hne (by omega)]
  rcases buffer_cases hst hs (hd.drop (n - off)) hcut hn with h | ⟨frags', ext, h, hfl⟩
  · exact .inl h
  · exact .inr ⟨frags', ext, by omega, h, hfl⟩

/-- Data at or above the delivered point and at most `MAX_AHEAD` beyond it is
taken in whole. -/
theorem recv_near {st data : Bytes} {r : Reassembler} {off n : Nat} (hst : st.length < 2 ^ 32)
    (hs : FromStream st r.frags) (hd : PieceAt st off data) (hne : data ≠ []) (hn : n ≤ off)
    (hnear : off ≤ n + maxAhead.toNat) :
    ∃ frags' ext, r.recv (point r.base off) data (point r.base n) = (⟨r.base, frags'⟩, ext) ∧
      Flushed st (r.frags.insert off data) frags' n ext := by
  have hend := hd.end_le hne
  have hpos := List.length_pos_iff.mpr hne
  have hgap : ¬ BitVec.ofNat 32 off - BitVec.ofNat 32 n > maxAhead := by
    rw [far_iff hn (by omega)]
    omega
  rw [recv_new (by omega) (by omega) hne (by omega), show n - off = 0 by omega, Nat.add_zero, List.drop_zero]
  exact buffer_near hst hs hd hne (by omega) hgap

/-- Whatever is fed, the bytes returned are the piece of the stream at the
delivered point, and the fragments stay pieces of the stream. -/
theorem recv_fromStream {st data : Bytes} {r : Reassembler} {off n : Nat} (hst : st.length < 2 ^ 32)
    (hs : FromStream st r.frags) (hd : PieceAt st off data) (hn : n ≤ st.length) :
    ∃ frags' ext, r.recv (point r.base off) data (point r.base n) = (⟨r.base, frags'⟩, ext) ∧
      FromStream st frags' ∧ PieceAt st n ext ∧ n + ext.length ≤ st.length := by
  have hkeep : FromStream st r.frags ∧ PieceAt st n [] ∧ n + ([] : Bytes).length ≤ st.length :=
    ⟨hs, .nil _ _, by simpa using hn⟩
  rcases eq_or_ne data [] with rfl | hne
  · exact ⟨r.frags, [], rfl, hkeep⟩
  rcases recv_cases hst hs hd hne hn with h | ⟨frags', ext, hlt, h, hfl⟩
  · exact ⟨r.frags, [], h, hkeep⟩
  · refine ⟨frags', ext, h, ?_, hfl.piece, hfl.bound⟩
    intro e he
    rcases SortedMap.mem_insert.mp (hfl.kept e he) with rfl | ⟨_, he⟩
    · refine ⟨hd.drop (n - off), ?_⟩
      have hpos := List.length_pos_iff.mpr hne
      rw [ne_eq, List.drop_eq_nil_iff]
      omega
    · exact hs e he

/-- The block names positions `i` up to `j`, all of them held, from the start
of a fragment on. -/
def Advertises (r : Reassembler) (b : U32 × U32) (i j : Nat) : Prop :=
  i < j ∧ b.1 = point r.base i ∧ b.2 = point r.base j ∧ (∀ k, i ≤ k → k < j → Held r.frags k) ∧
    ∃ e ∈ r.frags, e.1 = i

theorem pushBlock_sound {st : Bytes} {r : Reassembler} (hst : st.length < 2 ^ 32)
    (hs : FromStream st r.frags) {blocks : List (U32 × U32)} {e : Nat × Bytes} (he : e ∈ r.frags)
    (h : ∀ b ∈ blocks, ∃ i j, Advertises r b i j ∧ j ≤ st.length) :
    ∀ b ∈ pushBlock r.base blocks e, ∃ i j, Advertises r b i j ∧ j ≤ st.length := by
  have hend := hs.end_le he
  have hpos : 0 < e.2.length := List.length_pos_iff.mpr (hs e he).2
  have hright : r.base + BitVec.ofNat 32 e.1 + BitVec.ofNat 32 e.2.length =
      point r.base (e.1 + e.2.length) := point_add _ _ _
  have hheld : ∀ k, e.1 ≤ k → k < e.1 + e.2.length → Held r.frags k := fun k h₁ h₂ => ⟨e, he, h₁, h₂⟩
  have hnew : ∃ i j, Advertises r (point r.base e.1, point r.base (e.1 + e.2.length)) i j ∧
      j ≤ st.length := ⟨_, _, ⟨by omega, rfl, rfl, hheld, e, he, rfl⟩, hend⟩
  have hsnoc : ∀ b ∈ blocks ++ [(point r.base e.1, point r.base (e.1 + e.2.length))],
      ∃ i j, Advertises r b i j ∧ j ≤ st.length := by
    intro b hb
    rcases List.mem_append.mp hb with hb | hb
    · exact h b hb
    · rw [List.mem_singleton.mp hb]
      exact hnew
  simp only [pushBlock, hright]
  split
  · rename_i last hlast
    split
    · rename_i hadj
      -- the last block ends where the fragment begins
      intro b hb
      rcases List.mem_append.mp hb with hb | hb
      · exact h b (List.dropLast_subset _ hb)
      · obtain ⟨i, j, ⟨hij, hl, hr, hall, hstart⟩, hj⟩ := h last (List.mem_of_getLast? hlast)
        obtain rfl : j = e.1 := by
          rw [hr] at hadj
          exact point_inj (by omega) (by omega) hadj
        rw [List.mem_singleton.mp hb]
        refine ⟨i, e.1 + e.2.length, ⟨by omega, hl, rfl, fun k h₁ h₂ => ?_, hstart⟩, hend⟩
        by_cases hk : k < e.1
        · exact hall k h₁ hk
        · exact hheld k (by omega) h₂
    · exact hsnoc
  · exact hsnoc

theorem sackBlocks_sound {st : Bytes} {r : Reassembler} (hst : st.length < 2 ^ 32)
    (hs : FromStream st r.frags) :
    ∀ b ∈ r.sackBlocks, ∃ i j, Advertises r b i j ∧ j ≤ st.length := by
  have hfold : ∀ (es : List (Nat × Bytes)) (blocks : List (U32 × U32)), (∀ e ∈ es, e ∈ r.frags) →
      (∀ b ∈ blocks, ∃ i j, Advertises r b i j ∧ j ≤ st.length) →
      ∀ b ∈ es.foldl (pushBlock r.base) blocks, ∃ i j, Advertises r b i j ∧ j ≤ st.length := by
    intro es
    induction es with
    | nil => exact fun blocks _ h => h
    | cons e es ih =>
        intro blocks hes h
        refine ih _ (fun d hd => hes d (List.mem_cons_of_mem _ hd)) ?_
        exact pushBlock_sound hst hs (hes e (List.mem_cons_self ..)) h
  exact hfold r.frags.entries [] (fun e he => he) (by simp)

theorem flush_gap {frags : SortedMap Nat Bytes} {cur : U32} (h : ∀ v, (cur.toNat, v) ∉ frags) (fuel : Nat)
    (out : Bytes) : flush fuel frags cur out = (frags, out) := by
  cases fuel with
  | zero => rfl
  | succ fuel =>
      simp only [flush]
      cases hg : frags.firstGE cur.toNat with
      | none => rfl
      | some e =>
          have hne : e.1 ≠ cur.toNat := fun heq => h e.2 (heq ▸ (SortedMap.firstGE_mem hg).1)
          simp [hne]

theorem flush_mono (fuel : Nat) : ∀ (frags : SortedMap Nat Bytes) (cur : U32) (out : Bytes),
    (∀ e ∈ (flush fuel frags cur out).1, e ∈ frags) ∧ out <+: (flush fuel frags cur out).2 := by
  induction fuel with
  | zero => exact fun frags cur out => ⟨fun e he => he, List.prefix_rfl⟩
  | succ fuel ih =>
      intro frags cur out
      simp only [flush]
      split
      · exact ⟨fun e he => he, List.prefix_rfl⟩
      · split_ifs
        · exact ⟨fun e he => he, List.prefix_rfl⟩
        · obtain ⟨hsub, hpre⟩ := ih (frags.erase _) (cur + _) (out ++ _)
          exact ⟨fun e he => (SortedMap.mem_erase.mp (hsub e he)).1, (List.prefix_append _ _).trans hpre⟩

theorem flush_take {frags : SortedMap Nat Bytes} {cur : U32} {v : Bytes} (h : (cur.toNat, v) ∈ frags) :
    (∀ w, (cur.toNat, w) ∉ (flush frags.entries.length frags cur []).1) ∧
      v <+: (flush frags.entries.length frags cur []).2 := by
  have hpos : 0 < frags.entries.length := List.length_pos_of_mem h
  obtain ⟨fuel, hfuel⟩ := Nat.exists_eq_succ_of_ne_zero (Nat.ne_of_gt hpos)
  rw [hfuel]
  simp only [flush, SortedMap.firstGE_of_mem h, ne_eq, not_true_eq_false, if_false, List.nil_append]
  obtain ⟨hsub, hpre⟩ := flush_mono fuel (frags.erase cur.toNat) (cur + BitVec.ofNat 32 v.length) v
  exact ⟨fun w hw => (SortedMap.mem_erase.mp (hsub _ hw)).2 rfl, hpre⟩

/-- Whether a call takes nothing in: the data is empty, wholly old, too far
ahead, or held already while the gap before it is still open. -/
def Discards (r : Reassembler) (seq : U32) (data : Bytes) (rcvNxt : U32) : Prop :=
  let off := seq - r.base
  let nxtOff := rcvNxt - r.base
  data = [] ∨ (off < nxtOff ∧ data.length ≤ (nxtOff - off).toNat) ∨
    (¬ off < nxtOff ∧ (off - nxtOff > maxAhead ∨
      ((off.toNat, data) ∈ r.frags ∧ ∀ v, (nxtOff.toNat, v) ∉ r.frags)))

theorem buffer_unchanged_iff {r : Reassembler} {off nxtOff : U32} {data : Bytes} (hne : data ≠ []) :
    r.buffer off nxtOff data = (r, []) ↔ off - nxtOff > maxAhead ∨
      ((off.toNat, data) ∈ r.frags ∧ ∀ v, (nxtOff.toNat, v) ∉ r.frags) := by
  unfold buffer
  by_cases hfar : off - nxtOff > maxAhead
  · simp [hfar]
  rw [if_neg hfar]
  have hnew : (off.toNat, data) ∈ r.frags.insert off.toNat data := SortedMap.mem_insert.mpr (.inl rfl)
  constructor
  · intro heq
    right
    obtain ⟨hr, hout⟩ := Prod.mk.inj heq
    have hfr : (flush (r.frags.insert off.toNat data).entries.length (r.frags.insert off.toNat data)
        nxtOff []).1 = r.frags := congrArg Reassembler.frags hr
    by_cases hex : ∃ v, (nxtOff.toNat, v) ∈ r.frags.insert off.toNat data
    · -- something is taken: either new bytes are delivered or a fragment disappears
      obtain ⟨v, hv⟩ := hex
      obtain ⟨hgone, hpre⟩ := flush_take hv
      rw [hfr] at hgone
      rcases SortedMap.mem_insert.mp hv with hsame | ⟨-, hold⟩
      · rw [hout, (Prod.mk.inj hsame).2] at hpre
        exact absurd (List.prefix_nil.mp hpre) hne
      · exact absurd hold (hgone v)
    · have hgap : ∀ v, (nxtOff.toNat, v) ∉ r.frags.insert off.toNat data := fun v hv => hex ⟨v, hv⟩
      rw [flush_gap hgap] at hfr
      have hfr' : r.frags.insert off.toNat data = r.frags := hfr
      rw [hfr'] at hnew hgap
      exact ⟨hnew, hgap⟩
  · rintro (hfar' | ⟨hmem, hgap⟩)
    · exact absurd hfar' hfar
    · simp only [SortedMap.insert_of_mem hmem, flush_gap hgap]

theorem recv_unchanged_iff {r : Reassembler} {seq rcvNxt : U32} {data : Bytes} :
    r.recv seq data rcvNxt = (r, []) ↔ r.Discards seq data rcvNxt := by
  by_cases hne : data = []
  · simp [hne, Discards]
  have hemp : data.isEmpty = false := by simpa using hne
  simp only [recv, Discards, hemp, hne, Bool.false_eq_true, if_false, false_or]
  by_cases hlt : seq - r.base < rcvNxt - r.base
  · simp only [hlt, if_true, true_and, not_true_eq_false, false_and, or_false]
    split_ifs with hold
    · exact ⟨fun _ => hold, fun _ => rfl⟩
    · -- the new part starts at the delivered point and is passed on
      have hpart : data.drop (rcvNxt - r.base - (seq - r.base)).toNat ≠ [] := by
        rw [ne_eq, List.drop_eq_nil_iff]
        exact hold
      rw [buffer_unchanged_iff hpart, BitVec.sub_self]
      refine ⟨?_, fun hle => absurd hle hold⟩
      rintro (hfar | ⟨hmem, hgap⟩)
      · exact absurd hfar (by decide)
      · exact absurd hmem (hgap _)
  · simp only [hlt, if_false, false_and, not_false_eq_true, true_and, false_or]
    exact buffer_unchanged_iff hne

/-- Nothing becomes contiguous: the data is empty, wholly old, too far ahead, or
leaves the gap at the delivered point open. -/
def Withholds (r : Reassembler) (seq : U32) (data : Bytes) (rcvNxt : U32) : Prop :=
  let off := seq - r.base
  let nxtOff := rcvNxt - r.base
  data = [] ∨ (off < nxtOff ∧ data.length ≤ (nxtOff - off).toNat) ∨
    (¬ off < nxtOff ∧ (off - nxtOff > maxAhead ∨
      (off ≠ nxtOff ∧ ∀ v, (nxtOff.toNat, v) ∈ r.frags → v = [])))

/-- The loop delivers something exactly if bytes are held at the delivered point. -/
theorem flush_nil_iff (frags : SortedMap Nat Bytes) (cur : U32) :
    (flush frags.entries.length frags cur []).2 = [] ↔ ∀ v, (cur.toNat, v) ∈ frags → v = [] := by
  constructor
  · intro hnil v hv
    have hpre := (flush_take hv).2
    rw [hnil] at hpre
    exact List.prefix_nil.mp hpre
  · intro hempty
    by_cases hex : ∃ v, (cur.toNat, v) ∈ frags
    · obtain ⟨v, hv⟩ := hex
      obtain rfl := hempty v hv
      obtain ⟨fuel, hfuel⟩ := Nat.exists_eq_succ_of_ne_zero (Nat.ne_of_gt (List.length_pos_of_mem hv))
      -- an empty fragment is dropped and leaves a gap behind
      have hgap : ∀ w, (cur.toNat, w) ∉ frags.erase cur.toNat := fun w hw => (SortedMap.mem_erase.mp hw).2 rfl
      rw [hfuel]
      simp only [flush, SortedMap.firstGE_of_mem hv, ne_eq, not_true_eq_false, if_false, List.length_nil,
        BitVec.add_zero, List.append_nil]
      rw [flush_gap hgap]
    · rw [flush_gap fun v hv => hex ⟨v, hv⟩]

theorem buffer_nil_iff {r : Reassembler} {off nxtOff : U32} {data : Bytes} (hne : data ≠ []) :
    (r.buffer off nxtOff data).2 = [] ↔ off - nxtOff > maxAhead ∨
      (off ≠ nxtOff ∧ ∀ v, (nxtOff.toNat, v) ∈ r.frags → v = []) := by
  unfold buffer
  by_cases hfar : off - nxtOff > maxAhead
  · simp [hfar]
  rw [if_neg hfar]
  simp only [hfar, false_or, flush_nil_iff]
  constructor
  · intro hall
    have hoff : off ≠ nxtOff := by
      rintro rfl
      exact hne (hall data (SortedMap.mem_insert.mpr (.inl rfl)))
    have hkey : nxtOff.toNat ≠ off.toNat := fun heq => hoff (BitVec.eq_of_toNat_eq heq.symm)
    exact ⟨hoff, fun v hv => hall v (SortedMap.mem_insert.mpr (.inr ⟨hkey, hv⟩))⟩
  · rintro ⟨hoff, hall⟩ v hv
    rcases SortedMap.mem_insert.mp hv with heq | ⟨-, hmem⟩
    · exact absurd (BitVec.eq_of_toNat_eq (Prod.mk.inj heq).1.symm) hoff
    · exact hall v hmem

theorem recv_nil_iff {r : Reassembler} {seq rcvNxt : U32} {data : Bytes} :
    (r.recv seq data rcvNxt).2 = [] ↔ r.Withholds seq data rcvNxt := by
  by_cases hne : data = []
  · simp [hne, Withholds]
  have hemp : data.isEmpty = false := by simpa using hne
  simp only [recv, Withholds, hemp, hne, Bool.false_eq_true, if_false, false_or]
  by_cases hlt : seq - r.base < rcvNxt - r.base
  · simp only [hlt, if_true, true_and, not_true_eq_false, false_and, or_false]
    split_ifs with hold
    · exact ⟨fun _ => hold, fun _ => rfl⟩
    · have hpart : data.drop (rcvNxt - r.base - (seq - r.base)).toNat ≠ [] := by
        rw [ne_eq, List.drop_eq_nil_iff]
        exact hold
      rw [buffer_nil_iff hpart, BitVec.sub_self]
      refine ⟨?_, fun hle => absurd hle hold⟩
      rintro (hfar | ⟨hoff, -⟩)
      · exact absurd hfar (by decide)
      · exact absurd rfl hoff
  · simp only [hlt, if_false, false_and, not_false_eq_true, true_and, false_or]
    exact buffer_nil_iff hne

theorem recv_inSequence (r : Reassembler) {data : Bytes} (hne : data ≠ []) (rcvNxt : U32) :
    data <+: (r.recv rcvNxt data rcvNxt).2 := by
  have hemp : data.isEmpty = false := by simpa using hne
  have hmem : ((rcvNxt - r.base).toNat, data) ∈ r.frags.insert (rcvNxt - r.base).toNat data :=
    SortedMap.mem_insert.mpr (.inl rfl)
  have hnear : ¬ (0#32 > maxAhead) := by decide
  simp only [recv, hemp, Bool.false_eq_true, if_false, BitVec.lt_irrefl, buffer, BitVec.sub_self, hnear]
  exact (flush_take hmem).2

end Reassembler
end TcpStack
