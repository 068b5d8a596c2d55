import TcpStack.Intake

/-!
# What the receiver keeps

The reassembler takes fragments that overlap each other as they come. The
module says exactly when a call loses or strands bytes that were held before
it, and bounds the bytes held as long as no two fragments overlap.
-/
namespace TcpStack
open TcpStack.Circle

namespace Reassembler

/-- Fragments lie end to end from `m` to `n`, and none begins at `n`. -/
inductive Abut (frags : SortedMap Nat Bytes) : Nat → Nat → Prop where
  | stop {n : Nat} (gap : ∀ v, (n, v) ∉ frags) : Abut frags n n
  | next {m n : Nat} {v : Bytes} (mem : (m, v) ∈ frags) (rest : Abut frags (m + v.length) n) : Abut frags m n

namespace Abut

variable {frags : SortedMap Nat Bytes} {m n n' : Nat}

theorem unique (h : Abut frags m n) (h' : Abut frags m n') : n = n' := by
  induction h with
  | stop gap =>
      cases h' with
      | stop => rfl
      | next mem => exact absurd mem (gap _)
  | next mem rest ih =>
      cases h' with
      | stop gap => exact absurd mem (gap _)
      | next mem' rest' =>
          obtain rfl := SortedMap.value_unique mem mem'
          exact ih rest'

theorem of_erase {k : Nat} (hk : k < m) (h : Abut (frags.erase k) m n) : Abut frags m n := by
  induction h with
  | stop gap => exact .stop fun v hv => gap v (SortedMap.mem_erase.mpr ⟨hv, Nat.ne_of_gt hk⟩)
  | next mem rest ih => exact .next (SortedMap.mem_erase.mp mem).1 (ih (by omega))

end Abut

/-- The delivery loop stops where the fragments no longer lie end to end. -/
theorem flush_abut {st : Bytes} (hst : st.length < 2 ^ 32) (fuel : Nat) :
    ∀ (frags : SortedMap Nat Bytes) (m : Nat) (out : Bytes), frags.entries.length ≤ fuel →
      FromStream st frags → m ≤ st.length →
      Abut frags m (m + (flush fuel frags (BitVec.ofNat 32 m) out).2.length - out.length) := by
  induction fuel with
  | zero =>
      intro frags m out hf _ _
      have hnil : frags.entries = [] := List.eq_nil_of_length_eq_zero (by omega)
      have hno : ∀ v, (m, v) ∉ frags := by
        intro v hv
        rw [SortedMap.mem_def, hnil] at hv
        cases hv
      rw [flush, Nat.add_sub_cancel]
      exact .stop hno
  | succ fuel ih =>
      intro frags m out hf hs hm
      have hcur : (BitVec.ofNat 32 m).toNat = m := by
        rw [BitVec.toNat_ofNat, Nat.mod_eq_of_lt (by omega)]
      by_cases hex : ∃ v, (m, v) ∈ frags
      · obtain ⟨v, hv⟩ := hex
        have hend : m + v.length ≤ st.length := hs.end_le hv
        have hpos : 0 < v.length := List.length_pos_iff.mpr (hs _ hv).2
        have hlen := SortedMap.length_erase_lt hv
        have hrest := ih (frags.erase m) (m + v.length) (out ++ v) (by omega)
          (hs.subset fun e he => (SortedMap.mem_erase.mp he).1) hend
        simp only [flush, hcur, SortedMap.firstGE_of_mem hv, ne_eq, not_true_eq_false, if_false, ← BitVec.ofNat_add]
        have hpre := (flush_mono fuel (frags.erase m) (BitVec.ofNat 32 (m + v.length)) (out ++ v)).2.length_le
        rw [List.length_append] at hrest hpre
        refine .next hv ?_
        convert hrest.of_erase (by omega) using 1
        omega
      · have hno : ∀ v, (m, v) ∉ frags := fun v hv => hex ⟨v, hv⟩
        rw [flush_gap (by rwa [hcur]), Nat.add_sub_cancel]
        exact .stop hno

/-- What a call takes of data at stream position `off` when `m` bytes have been
delivered: it is not empty, not wholly old and not too far ahead. -/
def Takes (m off : Nat) (data : Bytes) : Prop := data ≠ [] ∧ m < off + data.length ∧ off ≤ m + maxAhead.toNat

instance (m off : Nat) (data : Bytes) : Decidable (Takes m off data) := inferInstanceAs (Decidable (_ ∧ _))

/-- The fragments with what a call takes of the data in place. -/
def placed (frags : SortedMap Nat Bytes) (m off : Nat) (data : Bytes) : SortedMap Nat Bytes :=
  if Takes m off data then frags.insert (off + (m - off)) (data.drop (m - off)) else frags

theorem mem_placed {frags : SortedMap Nat Bytes} {m off : Nat} {data : Bytes} (ht : Takes m off data)
    {e : Nat × Bytes} :
    e ∈ placed frags m off data ↔
      e = (off + (m - off), data.drop (m - off)) ∨ (e.1 ≠ off + (m - off) ∧ e ∈ frags) := by
  rw [placed, if_pos ht, SortedMap.mem_insert]

theorem recv_placed {st data : Bytes} {r : Reassembler} {off n : Nat} (hst : st.length < 2 ^ 32)
    (hs : FromStream st r.frags) (hgap : ∀ v, (n, v) ∉ r.frags) (hd : PieceAt st off data) (hn : n ≤ st.length) :
    ∃ frags' ext, r.recv (point r.base off) data (point r.base n) = (⟨r.base, frags'⟩, ext) ∧
      Flushed st (placed r.frags n off data) frags' n ext ∧ Abut (placed r.frags n off data) n (n + ext.length) := by
  by_cases ht : Takes n off data
  · obtain ⟨hne, hnew, hnear⟩ := ht
    have hend := hd.end_le hne
    have hpos := List.length_pos_iff.mpr hne
    have hcut : data.drop (n - off) ≠ [] := by
      rw [ne_eq, List.drop_eq_nil_iff]
      omega
    have hpart := hd.drop (n - off)
    have hnot : ¬ BitVec.ofNat 32 (off + (n - off)) - BitVec.ofNat 32 n > maxAhead := by
      rw [far_iff (by omega) (by omega)]
      omega
    have hoff : (BitVec.ofNat 32 (off + (n - off))).toNat = off + (n - off) := by
      rw [BitVec.toNat_ofNat, Nat.mod_eq_of_lt (by omega)]
    rw [placed, if_pos ⟨hne, hnew, hnear⟩, recv_new (by omega) (by omega) hne hnew, buffer, if_neg hnot, hoff]
    have hs' : FromStream st (r.frags.insert (off + (n - off)) (data.drop (n - off))) := by
      intro e he
      rcases SortedMap.mem_insert.mp he with rfl | ⟨-, he⟩
      · exact ⟨hpart, hcut⟩
      · exact hs e he
    obtain ⟨frags', ext, heq, hfl⟩ := flush_spec hst _ _ n [] le_rfl hs' hn
    have habut := flush_abut hst _ _ n [] le_rfl hs' hn
    rw [heq, List.nil_append, List.length_nil, Nat.sub_zero] at habut
    dsimp only
    rw [heq]
    exact ⟨frags', ext, rfl, hfl, habut⟩
  · rw [placed, if_neg ht]
    refine ⟨r.frags, [], ?_, .stop hn hgap, .stop hgap⟩
    rcases eq_or_ne data [] with rfl | hne
    · rfl
    by_cases hold : off + data.length ≤ n
    · exact recv_old (by omega) hold
    have hfar : n + maxAhead.toNat < off := by
      by_contra hle
      exact ht ⟨hne, by omega, by omega⟩
    have hend := hd.end_le hne
    rw [recv_new (by omega) (by omega) hne (by omega), show n - off = 0 by omega, Nat.add_zero, buffer,
      if_pos ((far_iff (by omega) (by omega)).mpr hfar)]

end Reassembler
namespace Intake
open Reassembler

theorem feed_placed {st d : Bytes} (hst : st.length < 2 ^ 31) {base : U32} {s : Intake} (h : Sound st base s)
    (hgap : ∀ v, (s.delivered.length, v) ∉ s.reasm.frags) {off : Nat} (hd : PieceAt st off d) :
    ∃ frags' ext, (s.feed (onWire base (off, d))).reasm.frags = frags' ∧
      (s.feed (onWire base (off, d))).delivered = s.delivered ++ ext ∧
      Flushed st (placed s.reasm.frags s.delivered.length off d) frags' s.delivered.length ext ∧
      Abut (placed s.reasm.frags s.delivered.length off d) s.delivered.length (s.delivered.length + ext.length) := by
  obtain ⟨frags', ext, heq, hfl, habut⟩ :=
    recv_placed (r := s.reasm) (by omega) h.fromStream hgap hd h.isPrefix.length_le
  rw [h.base_eq, ← h.rcvNxt_eq] at heq
  have hfeed : s.feed (onWire base (off, d)) =
      ⟨⟨base, frags'⟩, s.rcvNxt + BitVec.ofNat 32 ext.length, s.delivered ++ ext⟩ := by
    simp only [feed, onWire, heq]
  exact ⟨frags', ext, by rw [hfeed], by rw [hfeed], hfl, habut⟩

theorem run_gap {st : Bytes} (hst : st.length < 2 ^ 31) {base : U32} {segs : List (U32 × Bytes)}
    (ha : ∀ seg ∈ segs, Agrees st base seg) :
    ∀ v, ((run base segs).delivered.length, v) ∉ (run base segs).reasm.frags := by
  induction segs using List.reverseRecOn with
  | nil => exact fun v => SortedMap.not_mem_empty
  | append_singleton segs seg ih =>
      have hearlier : ∀ x ∈ segs, Agrees st base x := fun x hx => ha x (List.mem_append_left _ hx)
      obtain ⟨off, hseq, hd⟩ := ha seg (by simp)
      obtain ⟨frags', ext, hfrags, hdel, hfl, -⟩ := feed_placed hst (run_sound hst hearlier) (ih hearlier) hd
      rw [show onWire base (off, seg.2) = seg by rw [onWire, ← hseq]] at hfrags hdel
      rw [run_snoc, hfrags, hdel, List.length_append]
      exact hfl.gap

/-- Delivered, or held in a fragment at or above the delivered point. -/
def Retains (s : Intake) (x : Nat) : Prop :=
  x < s.delivered.length ∨ ∃ e ∈ s.reasm.frags, s.delivered.length ≤ e.1 ∧ e.1 ≤ x ∧ x < e.1 + e.2.length

/-- What was delivered or held stays so, and nothing is left held at the delivered point. -/
structure Keeps (s s' : Intake) : Prop where
  kept : ∀ x, x < s.delivered.length ∨ Held s.reasm.frags x → Retains s' x
  passedOn : ¬ Held s'.reasm.frags s'.delivered.length

/-- Delivery stops at a position that no fragment reaches over, and a fragment
that the data replaces is covered by what was delivered and by the others. -/
def Intact (frags : SortedMap Nat Bytes) (m off : Nat) (d : Bytes) : Prop :=
  ∃ n, Abut (placed frags m off d) m n ∧
    (∀ f ∈ placed frags m off d, f.1 < n → f.1 + f.2.length ≤ n) ∧
    ∀ e ∈ frags, e ∉ placed frags m off d → ∀ x, e.1 ≤ x → x < e.1 + e.2.length →
      x < n ∨ Held (placed frags m off d) x

theorem keeps_iff_intact {st d : Bytes} (hst : st.length < 2 ^ 31) {base : U32} {s : Intake} (h : Sound st base s)
    (hgap : ∀ v, (s.delivered.length, v) ∉ s.reasm.frags) {off : Nat} (hd : PieceAt st off d) :
    Keeps s (s.feed (onWire base (off, d))) ↔ Intact s.reasm.frags s.delivered.length off d := by
  obtain ⟨frags', ext, rfl, hdel, hfl, habut⟩ := feed_placed hst h hgap hd
  unfold Intact
  generalize placed s.reasm.frags s.delivered.length off d = F at hfl habut
  have hlen : (s.feed (onWire base (off, d))).delivered.length = s.delivered.length + ext.length := by
    rw [hdel, List.length_append]
  -- where no fragment reaches over the end, what the fragments hold is retained
  have hretain : (∀ f ∈ F, f.1 < s.delivered.length + ext.length →
      f.1 + f.2.length ≤ s.delivered.length + ext.length) →
      ∀ x, Held F x → Retains (s.feed (onWire base (off, d))) x := by
    rintro hover x ⟨f, hf, hfx, hxf⟩
    rw [Retains, hlen]
    by_cases hlt : f.1 < s.delivered.length + ext.length
    · have hend := hover f hf hlt
      exact .inl (by omega)
    · by_cases hmem : f ∈ (s.feed (onWire base (off, d))).reasm.frags
      · exact .inr ⟨f, hmem, by omega, hfx, hxf⟩
      · have hout := (hfl.removed f hf hmem).2
        exact .inl (by omega)
  constructor
  · intro hkeeps
    refine ⟨_, habut, fun f hf hlt => ?_, fun e he hne x hex hxe => ?_⟩
    · by_contra hover
      by_cases hmem : f ∈ (s.feed (onWire base (off, d))).reasm.frags
      · exact hkeeps.passedOn ⟨f, hmem, by omega, by omega⟩
      · exact hover (hfl.removed f hf hmem).2
    · rcases hkeeps.kept x (.inr ⟨e, he, hex, hxe⟩) with hx | ⟨f, hf, -, hfx, hxf⟩
      · exact .inl (by omega)
      · exact .inr ⟨f, hfl.kept f hf, hfx, hxf⟩
  · rintro ⟨n, hn, hover, hreplaced⟩
    obtain rfl := hn.unique habut
    refine ⟨fun x hx => ?_, ?_⟩
    · rcases hx with hx | ⟨e, he, hex, hxe⟩
      · exact .inl (by omega)
      · by_cases hmem : e ∈ F
        · exact hretain hover x ⟨e, hmem, hex, hxe⟩
        · rcases hreplaced e he hmem x hex hxe with hx | hheld
          · exact .inl (by omega)
          · exact hretain hover x hheld
    · rintro ⟨f, hf, hfx, hxf⟩
      rw [hlen] at hfx hxf
      rcases Nat.lt_or_eq_of_le hfx with hlt | heq
      · have hend := hover f (hfl.kept f hf) hlt
        omega
      · exact hfl.gap f.2 (heq ▸ hf)

/-- What the call takes overlaps no fragment that begins elsewhere, and replaces none that is longer. -/
def Fits (frags : SortedMap Nat Bytes) (m off : Nat) (d : Bytes) : Prop :=
  Takes m off d → ∀ e ∈ frags,
    (e.1 ≠ off + (m - off) → e.1 + e.2.length ≤ off + (m - off) ∨
      off + (m - off) + (d.drop (m - off)).length ≤ e.1) ∧
    (e.1 = off + (m - off) → e.2.length ≤ (d.drop (m - off)).length)

/-- Every call of the run fits the fragments it finds. -/
def Disjoint (base : U32) (received : List (Nat × Bytes)) : Prop :=
  ∀ earlier seg later, received = earlier ++ seg :: later →
    Fits (receive base earlier).reasm.frags (receive base earlier).delivered.length seg.1 seg.2

theorem Disjoint.init {base : U32} {received : List (Nat × Bytes)} {seg : Nat × Bytes}
    (h : Disjoint base (received ++ [seg])) : Disjoint base received := by
  intro earlier x later heq
  refine h earlier x (later ++ [seg]) ?_
  rw [heq, List.append_assoc, List.cons_append]

/-- No two fragments overlap, and none begins before the delivered point. -/
structure Clear (frags : SortedMap Nat Bytes) (m : Nat) : Prop where
  apart : NoOverlap frags
  ahead : ∀ e ∈ frags, m ≤ e.1

theorem Clear.placed {frags : SortedMap Nat Bytes} {m off : Nat} {d : Bytes} (h : Clear frags m)
    (hfit : Fits frags m off d) : Clear (placed frags m off d) m := by
  by_cases ht : Takes m off d
  swap
  · rw [Reassembler.placed, if_neg ht]
    exact h
  have hfits := hfit ht
  constructor
  · intro a ha b hb hab
    rcases (mem_placed ht).mp ha with rfl | ⟨hane, ha⟩
    · rcases (mem_placed ht).mp hb with rfl | ⟨hbne, hb⟩
      · exact absurd hab (Nat.lt_irrefl _)
      · rcases (hfits b hb).1 hbne with hle | hle
        · dsimp only at hab
          omega
        · exact hle
    · rcases (mem_placed ht).mp hb with rfl | ⟨hbne, hb⟩
      · rcases (hfits a ha).1 hane with hle | hle
        · exact hle
        · dsimp only at hab
          omega
      · exact h.apart a ha b hb hab
  · intro e he
    rcases (mem_placed ht).mp he with rfl | ⟨-, he⟩
    · dsimp only
      omega
    · exact h.ahead e he

theorem Clear.feed {st d : Bytes} (hst : st.length < 2 ^ 31) {base : U32} {s : Intake} (h : Sound st base s)
    (hgap : ∀ v, (s.delivered.length, v) ∉ s.reasm.frags) {off : Nat} (hd : PieceAt st off d)
    (hclear : Clear s.reasm.frags s.delivered.length) (hfit : Fits s.reasm.frags s.delivered.length off d) :
    Clear (s.feed (onWire base (off, d))).reasm.frags (s.feed (onWire base (off, d))).delivered.length := by
  obtain ⟨frags', ext, hfrags, hdel, hfl, -⟩ := feed_placed hst h hgap hd
  obtain ⟨hapart, hahead⟩ := hclear.placed hfit
  rw [hfrags, hdel, List.length_append]
  exact ⟨fun a ha b hb => hapart a (hfl.kept a ha) b (hfl.kept b hb), hfl.above hapart hahead⟩

theorem Clear.intact {st d : Bytes} (hst : st.length < 2 ^ 31) {base : U32} {s : Intake} (h : Sound st base s)
    (hgap : ∀ v, (s.delivered.length, v) ∉ s.reasm.frags) {off : Nat} (hd : PieceAt st off d)
    (hclear : Clear s.reasm.frags s.delivered.length) (hfit : Fits s.reasm.frags s.delivered.length off d) :
    Intact s.reasm.frags s.delivered.length off d := by
  obtain ⟨frags', ext, -, -, hfl, habut⟩ := feed_placed hst h hgap hd
  obtain ⟨hapart, hahead⟩ := hclear.placed hfit
  refine ⟨_, habut, fun f hf hlt => ?_, fun e he hne x hex hxe => .inr ?_⟩
  · by_cases hmem : f ∈ frags'
    · have habove := hfl.above hapart hahead f hmem
      omega
    · exact (hfl.removed f hf hmem).2
  · -- only the fragment that begins where the data does is replaced
    have ht : Takes s.delivered.length off d := by
      by_contra ht
      rw [Reassembler.placed, if_neg ht] at hne
      exact hne he
    have hkey : e.1 = off + (s.delivered.length - off) := by
      by_contra hkey
      exact hne ((mem_placed ht).mpr (.inr ⟨hkey, he⟩))
    have hlen := (hfit ht e he).2 hkey
    refine ⟨_, (mem_placed ht).mpr (.inl rfl), ?_, ?_⟩
    · dsimp only
      omega
    · dsimp only
      omega

theorem receive_sound {st : Bytes} (hst : st.length < 2 ^ 31) {base : U32} {received : List (Nat × Bytes)}
    (hp : ∀ seg ∈ received, PieceAt st seg.1 seg.2) :
    Sound st base (receive base received) ∧
      ∀ v, ((receive base received).delivered.length, v) ∉ (receive base received).reasm.frags := by
  have ha : ∀ seg ∈ received.map (onWire base), Agrees st base seg := by
    intro seg hseg
    obtain ⟨x, hx, rfl⟩ := List.mem_map.mp hseg
    exact ⟨x.1, rfl, hp x hx⟩
  exact ⟨run_sound hst ha, run_gap hst ha⟩

theorem receive_clear {st : Bytes} (hst : st.length < 2 ^ 31) {base : U32} {received : List (Nat × Bytes)}
    (hp : ∀ seg ∈ received, PieceAt st seg.1 seg.2) (hdis : Disjoint base received) :
    Clear (receive base received).reasm.frags (receive base received).delivered.length := by
  induction received using List.reverseRecOn with
  | nil => exact ⟨fun a ha => absurd ha SortedMap.not_mem_empty, fun e he => absurd he SortedMap.not_mem_empty⟩
  | append_singleton received seg ih =>
      have hearlier : ∀ x ∈ received, PieceAt st x.1 x.2 := fun x hx => hp x (List.mem_append_left _ hx)
      obtain ⟨hsound, hgap⟩ := receive_sound hst hearlier
      rw [receive_snoc]
      exact (ih hearlier hdis.init).feed hst hsound hgap (hp seg (by simp)) (hdis received seg [] rfl)

/-- In every state that data of one stream leads to, a call keeps what was
delivered and held exactly when it is intact, and where the data never overlaps
fragments that begin elsewhere, nor replaces longer ones, every call is. -/
theorem receiver_keeps_iff_intact {st : Bytes} (hst : st.length < 2 ^ 31) (base : U32) {received : List (Nat × Bytes)}
    (hp : ∀ seg ∈ received, PieceAt st seg.1 seg.2) {off : Nat} {d : Bytes} (hd : PieceAt st off d) :
    (Keeps (receive base received) (receive base (received ++ [(off, d)])) ↔
      Intact (receive base received).reasm.frags (receive base received).delivered.length off d) ∧
    (Disjoint base (received ++ [(off, d)]) →
      Keeps (receive base received) (receive base (received ++ [(off, d)]))) := by
  obtain ⟨hsound, hgap⟩ := receive_sound hst hp
  have hiff := keeps_iff_intact hst hsound hgap hd
  rw [← receive_snoc] at hiff
  refine ⟨hiff, fun hdis => hiff.mpr ?_⟩
  exact (receive_clear hst hp hdis.init).intact hst hsound hgap hd (hdis received (off, d) [] rfl)

/-- Bytes two to four of a stream are held across the wrap, and delivered after the first two. -/
theorem held_bytes_are_kept :
    Keeps (receive 0xFFFFFFFE [(2, [3, 4, 5])]) (receive 0xFFFFFFFE [(2, [3, 4, 5]), (0, [1, 2])]) := by
  have hone : ∀ seg ∈ [((2, [3, 4, 5]) : Nat × Bytes)], PieceAt ([1, 2, 3, 4, 5] : Bytes) seg.1 seg.2 := by
    intro seg hseg
    obtain rfl := List.mem_singleton.mp hseg
    exact ⟨[], rfl⟩
  have hheld : (receive 0xFFFFFFFE [(2, [3, 4, 5])]).reasm.frags.entries = [(2, [3, 4, 5])] := by decide +kernel
  have hnone : (receive 0xFFFFFFFE [(2, [3, 4, 5])]).delivered.length = 0 := by decide +kernel
  refine (receiver_keeps_iff_intact (by decide) 0xFFFFFFFE hone (show PieceAt _ 0 [1, 2] from ⟨[3, 4, 5], rfl⟩)).2 ?_
  intro earlier seg later heq
  match earlier, heq with
  | [], _ => exact fun _ e he => absurd he SortedMap.not_mem_empty
  | [x], heq =>
      obtain ⟨rfl, hrest⟩ := List.cons.inj heq
      obtain ⟨rfl, -⟩ := List.cons.inj hrest
      intro _ e he
      rw [SortedMap.mem_def, hheld, List.mem_singleton] at he
      subst he
      rw [hnone]
      exact ⟨fun _ => .inr (by decide), fun h => absurd h (by decide)⟩
  | x :: y :: earlier, heq => simp at heq

/-- A shorter piece at the same place replaces a held one, and a piece that ends
inside a held one strands the rest of it. -/
theorem overlaps_lose_held_bytes :
    (PieceAt ([1, 2, 3, 4, 5] : Bytes) 2 [3, 4, 5] ∧ PieceAt ([1, 2, 3, 4, 5] : Bytes) 2 [3] ∧
      ¬ Keeps (receive 0 [(2, [3, 4, 5])]) (receive 0 [(2, [3, 4, 5]), (2, [3])])) ∧
    (PieceAt ([1, 2, 3, 4, 5] : Bytes) 0 [1, 2, 3] ∧
      ¬ Keeps (receive 0 [(2, [3, 4, 5])]) (receive 0 [(2, [3, 4, 5]), (0, [1, 2, 3])])) := by
  have hheld : (receive 0 [(2, [3, 4, 5])]).reasm.frags.entries = [(2, [3, 4, 5])] := by decide +kernel
  have hcut : (receive 0 [(2, [3, 4, 5]), (2, [3])]).reasm.frags.entries = [(2, [3])] ∧
      (receive 0 [(2, [3, 4, 5]), (2, [3])]).delivered.length = 0 := by decide +kernel
  have hstranded : (receive 0 [(2, [3, 4, 5]), (0, [1, 2, 3])]).reasm.frags.entries = [(2, [3, 4, 5])] ∧
      (receive 0 [(2, [3, 4, 5]), (0, [1, 2, 3])]).delivered.length = 3 := by decide +kernel
  refine ⟨⟨⟨[], rfl⟩, ⟨[4, 5], rfl⟩, fun hkeeps => ?_⟩, ⟨[4, 5], rfl⟩, fun hkeeps => ?_⟩
  · have hfour : Held (receive 0 [(2, [3, 4, 5])]).reasm.frags 4 :=
      ⟨(2, [3, 4, 5]), by rw [SortedMap.mem_def, hheld]; exact List.mem_singleton_self _, by decide, by decide⟩
    rcases hkeeps.kept 4 (.inr hfour) with hlt | ⟨e, he, -, -, hlt⟩
    · rw [hcut.2] at hlt
      exact absurd hlt (by decide)
    · rw [SortedMap.mem_def, hcut.1, List.mem_singleton] at he
      subst he
      exact absurd hlt (by decide)
  · refine hkeeps.passedOn ⟨(2, [3, 4, 5]), ?_, ?_, ?_⟩
    · rw [SortedMap.mem_def, hstranded.1]
      exact List.mem_singleton_self _
    · rw [hstranded.2]
      decide
    · rw [hstranded.2]
      decide

end Intake
namespace Reassembler

/-- The bytes held in fragments. -/
def held (r : Reassembler) : Nat := (r.frags.entries.map fun e => e.2.length).sum

/-- Stretches that begin at or after `lo`, end by `hi` and do not overlap are no longer than that. -/
theorem sum_lengths_le {es : List (Nat × Bytes)} (hi : Nat) (hend : ∀ e ∈ es, e.1 + e.2.length ≤ hi)
    (hapart : es.Pairwise fun a b => a.1 + a.2.length ≤ b.1) :
    ∀ lo ≤ hi, (∀ e ∈ es, lo ≤ e.1) → lo + (es.map fun e => e.2.length).sum ≤ hi := by
  induction es with
  | nil =>
      intro lo hlo _
      simpa using hlo
  | cons e es ih =>
      intro lo _ hge
      obtain ⟨hfirst, hrest⟩ := List.pairwise_cons.mp hapart
      have hle := hend e (List.mem_cons_self ..)
      have hlater := ih (fun x hx => hend x (List.mem_cons_of_mem _ hx)) hrest (e.1 + e.2.length) hle hfirst
      have hlo := hge e (List.mem_cons_self ..)
      rw [List.map_cons, List.sum_cons]
      omega

/-- What a call takes of its data, and at which offset. -/
def taken (r : Reassembler) (seq : U32) (data : Bytes) (rcvNxt : U32) : Option (U32 × Bytes) :=
  let nxtOff := rcvNxt - r.base
  let off := seq - r.base
  if data = [] then none
  else if off < nxtOff then
    let skip := (nxtOff - off).toNat
    if skip ≥ data.length then none else some (nxtOff, data.drop skip)
  else if off - nxtOff > maxAhead then none
  else some (off, data)

theorem recv_none {r : Reassembler} {seq rcvNxt : U32} {data : Bytes} (h : r.taken seq data rcvNxt = none) :
    r.recv seq data rcvNxt = (r, []) := by
  rw [recv_unchanged_iff]
  unfold taken at h
  unfold Discards
  dsimp only at h ⊢
  split_ifs at h with hemp hold hskip hfar
  · exact .inl hemp
  · exact .inr (.inl ⟨hold, hskip⟩)
  · exact .inr (.inr ⟨hold, .inl hfar⟩)

theorem recv_some {r : Reassembler} {seq rcvNxt k : U32} {data d : Bytes}
    (h : r.taken seq data rcvNxt = some (k, d)) :
    r.recv seq data rcvNxt =
      (⟨r.base, (flush (r.frags.insert k.toNat d).entries.length (r.frags.insert k.toNat d) (rcvNxt - r.base) []).1⟩,
        (flush (r.frags.insert k.toNat d).entries.length (r.frags.insert k.toNat d) (rcvNxt - r.base) []).2) := by
  unfold taken at h
  dsimp only at h
  split_ifs at h with hemp hold hskip hfar
  · obtain ⟨rfl, rfl⟩ := Prod.mk.inj (Option.some.inj h)
    have hnear : ¬ (0#32 > maxAhead) := by decide
    simp only [recv, List.isEmpty_iff, hemp, hold, hskip, if_true, if_false, buffer, BitVec.sub_self, hnear]
  · obtain ⟨rfl, rfl⟩ := Prod.mk.inj (Option.some.inj h)
    simp only [recv, List.isEmpty_iff, hemp, hold, if_false, buffer, hfar]

/-- What is taken is not empty, is no longer than the data, and begins at most
`MAX_AHEAD` beyond the delivered point. -/
theorem taken_spec {r : Reassembler} {seq rcvNxt k : U32} {data d : Bytes}
    (h : r.taken seq data rcvNxt = some (k, d)) :
    d ≠ [] ∧ d.length ≤ data.length ∧ (rcvNxt - r.base).toNat ≤ k.toNat ∧
      k.toNat ≤ (rcvNxt - r.base).toNat + maxAhead.toNat := by
  unfold taken at h
  dsimp only at h
  split_ifs at h with hemp hold hskip hfar
  · obtain ⟨rfl, rfl⟩ := Prod.mk.inj (Option.some.inj h)
    refine ⟨?_, ?_, le_rfl, Nat.le_add_right _ _⟩
    · rw [ne_eq, List.drop_eq_nil_iff]
      exact hskip
    · rw [List.length_drop]
      exact Nat.sub_le _ _
  · obtain ⟨rfl, rfl⟩ := Prod.mk.inj (Option.some.inj h)
    have hle := BitVec.not_lt.mp hold
    have hnear := BitVec.not_lt.mp hfar
    rw [BitVec.le_def, BitVec.toNat_sub_of_le hle] at hnear
    rw [BitVec.le_def] at hle
    exact ⟨hemp, le_rfl, hle, by omega⟩

theorem NoOverlap.insert {frags : SortedMap Nat Bytes} {k : Nat} {d : Bytes} (h : NoOverlap frags)
    (hsep : ∀ e ∈ frags, e.1 ≠ k → e.1 + e.2.length ≤ k ∨ k + d.length ≤ e.1) : NoOverlap (frags.insert k d) := by
  intro a ha b hb hab
  rcases SortedMap.mem_insert.mp ha with rfl | ⟨hane, ha⟩
  · rcases SortedMap.mem_insert.mp hb with rfl | ⟨hbne, hb⟩
    · exact absurd hab (Nat.lt_irrefl _)
    · refine (hsep b hb hbne).resolve_left fun hle => ?_
      dsimp only at hab
      omega
  · rcases SortedMap.mem_insert.mp hb with rfl | ⟨hbne, hb⟩
    · refine (hsep a ha hane).resolve_right fun hle => ?_
      dsimp only at hab
      omega
    · exact h a ha b hb hab

/-- Above the place it starts from, the loop leaves fragments only beyond the
place it stops at, which it reaches without wrapping round. -/
theorem flush_beyond (fuel : Nat) : ∀ (frags : SortedMap Nat Bytes) (cur : U32) (out : Bytes),
    frags.entries.length ≤ fuel → NoOverlap frags → (∀ e ∈ frags, cur.toNat ≤ e.1 ∧ e.1 < 2 ^ 32) →
    ∀ e ∈ (flush fuel frags cur out).1,
      cur.toNat ≤ (cur + BitVec.ofNat 32 ((flush fuel frags cur out).2.length - out.length)).toNat ∧
        (cur + BitVec.ofNat 32 ((flush fuel frags cur out).2.length - out.length)).toNat < e.1 := by
  induction fuel with
  | zero =>
      intro frags cur out hf _ _ e he
      have hnil : frags.entries = [] := List.eq_nil_of_length_eq_zero (by omega)
      rw [flush, SortedMap.mem_def, hnil] at he
      cases he
  | succ fuel ih =>
      intro frags cur out hf hno hge e he
      by_cases hex : ∃ v, (cur.toNat, v) ∈ frags
      · obtain ⟨v, hv⟩ := hex
        have hlen := SortedMap.length_erase_lt hv
        have hpre := (flush_mono fuel (frags.erase cur.toNat) (cur + BitVec.ofNat 32 v.length) (out ++ v)).2.length_le
        have hsub := (flush_mono fuel (frags.erase cur.toNat) (cur + BitVec.ofNat 32 v.length) (out ++ v)).1
        -- the other fragments begin at or after the end of the one taken
        have hpast : ∀ x ∈ frags.erase cur.toNat, cur.toNat + v.length ≤ x.1 ∧ x.1 < 2 ^ 32 := by
          intro x hx
          obtain ⟨hx, hne⟩ := SortedMap.mem_erase.mp hx
          have hlt : cur.toNat < x.1 := lt_of_le_of_ne (hge x hx).1 (Ne.symm hne)
          exact ⟨hno _ hv x hx hlt, (hge x hx).2⟩
        simp only [flush, SortedMap.firstGE_of_mem hv, ne_eq, not_true_eq_false, if_false] at he ⊢
        have hroom := hpast e (hsub e he)
        have hcur : (cur + BitVec.ofNat 32 v.length).toNat = cur.toNat + v.length := by
          rw [BitVec.toNat_add, BitVec.toNat_ofNat, Nat.mod_eq_of_lt (a := v.length) (by omega),
            Nat.mod_eq_of_lt (by omega)]
        have hrest := ih (frags.erase cur.toNat) (cur + BitVec.ofNat 32 v.length) (out ++ v) (by omega)
          (fun a ha b hb => hno a (SortedMap.mem_erase.mp ha).1 b (SortedMap.mem_erase.mp hb).1)
          (fun x hx => hcur ▸ hpast x hx) e he
        rw [hcur, List.length_append, BitVec.add_assoc, ← BitVec.ofNat_add] at hrest
        rw [List.length_append] at hpre
        generalize (flush fuel (frags.erase cur.toNat) (cur + BitVec.ofNat 32 v.length) (out ++ v)).2.length = l
          at hrest hpre ⊢
        rw [show v.length + (l - (out.length + v.length)) = l - out.length by omega] at hrest
        exact ⟨by omega, hrest.2⟩
      · have hgap : ∀ v, (cur.toNat, v) ∉ frags := fun v hv => hex ⟨v, hv⟩
        rw [flush_gap hgap] at he ⊢
        rw [Nat.sub_self, BitVec.add_zero]
        refine ⟨le_rfl, lt_of_le_of_ne (hge e he).1 fun heq => hgap e.2 ?_⟩
        rw [heq]
        exact he

end Reassembler
namespace Intake
open Reassembler

/-- What the call takes overlaps no fragment that begins elsewhere. -/
def Apart (s : Intake) (seg : U32 × Bytes) : Prop :=
  ∀ k d, s.reasm.taken seg.1 seg.2 s.rcvNxt = some (k, d) → ∀ e ∈ s.reasm.frags, e.1 ≠ k.toNat →
    e.1 + e.2.length ≤ k.toNat ∨ k.toNat + d.length ≤ e.1

/-- The offset of RCV.NXT. -/
def nxtOff (s : Intake) : U32 := s.rcvNxt - s.reasm.base

/-- Short fragments that do not overlap, all begun a little beyond the delivered point. -/
structure Bounded (P : Nat) (s : Intake) : Prop where
  apart : NoOverlap s.reasm.frags
  short : ∀ e ∈ s.reasm.frags, e.2.length ≤ P
  beyond : ∀ e ∈ s.reasm.frags, s.nxtOff.toNat < e.1
  near : ∀ e ∈ s.reasm.frags, e.1 ≤ s.nxtOff.toNat + maxAhead.toNat ∧ e.1 < 2 ^ 32

theorem Bounded.held_le {P : Nat} {s : Intake} (h : Bounded P s) : s.reasm.held ≤ maxAhead.toNat + P := by
  have hapart : s.reasm.frags.entries.Pairwise fun a b => a.1 + a.2.length ≤ b.1 :=
    s.reasm.frags.sorted.imp_of_mem fun ha hb hlt => h.apart _ ha _ hb hlt
  have hsum := sum_lengths_le (s.nxtOff.toNat + maxAhead.toNat + P)
    (fun e he => Nat.add_le_add (h.near e he).1 (h.short e he)) hapart s.nxtOff.toNat (by omega)
    fun e he => Nat.le_of_lt (h.beyond e he)
  unfold held
  omega

theorem start_bounded (P : Nat) (base : U32) : Bounded P (start base) where
  apart := fun _ ha => absurd ha SortedMap.not_mem_empty
  short := fun _ he => absurd he SortedMap.not_mem_empty
  beyond := fun _ he => absurd he SortedMap.not_mem_empty
  near := fun _ he => absurd he SortedMap.not_mem_empty

theorem feed_flushed {s : Intake} {seg : U32 × Bytes} {k : U32} {d : Bytes}
    (htaken : s.reasm.taken seg.1 seg.2 s.rcvNxt = some (k, d)) :
    ∃ r, flush (s.reasm.frags.insert k.toNat d).entries.length (s.reasm.frags.insert k.toNat d) s.nxtOff [] = r ∧
      (s.feed seg).reasm.frags = r.1 ∧ (s.feed seg).nxtOff = s.nxtOff + BitVec.ofNat 32 r.2.length := by
  have hfeed : s.feed seg =
      ⟨⟨s.reasm.base, (flush (s.reasm.frags.insert k.toNat d).entries.length
        (s.reasm.frags.insert k.toNat d) s.nxtOff []).1⟩,
      s.rcvNxt + BitVec.ofNat 32 (flush (s.reasm.frags.insert k.toNat d).entries.length
        (s.reasm.frags.insert k.toNat d) s.nxtOff []).2.length,
      s.delivered ++ (flush (s.reasm.frags.insert k.toNat d).entries.length
        (s.reasm.frags.insert k.toNat d) s.nxtOff []).2⟩ := by
    simp only [Intake.feed, recv_some htaken]
    rfl
  refine ⟨_, rfl, by rw [hfeed], ?_⟩
  rw [hfeed, nxtOff, nxtOff, BitVec.sub_eq_add_neg, BitVec.sub_eq_add_neg, BitVec.add_assoc,
    BitVec.add_comm _ (-s.reasm.base), ← BitVec.add_assoc]

theorem Bounded.feed {P : Nat} {s : Intake} (h : Bounded P s) {seg : U32 × Bytes} (hlen : seg.2.length ≤ P)
    (hapart : Apart s seg) : Bounded P (s.feed seg) := by
  cases htaken : s.reasm.taken seg.1 seg.2 s.rcvNxt with
  | none =>
      have hsame : s.feed seg = s := by
        simp [Intake.feed, recv_none htaken]
      rwa [hsame]
  | some kd =>
      obtain ⟨k, d⟩ := kd
      obtain ⟨-, hshort, hfrom, hto⟩ := taken_spec htaken
      obtain ⟨r, hr, hfrags, hoff⟩ := feed_flushed htaken
      have hno : NoOverlap (s.reasm.frags.insert k.toNat d) := h.apart.insert (hapart k d htaken)
      have hall : ∀ e ∈ s.reasm.frags.insert k.toNat d, e.2.length ≤ P ∧ s.nxtOff.toNat ≤ e.1 ∧
          e.1 ≤ s.nxtOff.toNat + maxAhead.toNat ∧ e.1 < 2 ^ 32 := by
        intro e he
        rcases SortedMap.mem_insert.mp he with rfl | ⟨-, he⟩
        · exact ⟨hshort.trans hlen, hfrom, hto, k.isLt⟩
        · exact ⟨h.short e he, Nat.le_of_lt (h.beyond e he), h.near e he⟩
      have hbeyond := flush_beyond _ (s.reasm.frags.insert k.toNat d) s.nxtOff [] le_rfl hno
        fun e he => ⟨(hall e he).2.1, (hall e he).2.2.2⟩
      have hsub := (flush_mono (s.reasm.frags.insert k.toNat d).entries.length (s.reasm.frags.insert k.toNat d)
        s.nxtOff []).1
      rw [hr, List.length_nil, Nat.sub_zero, ← hoff, ← hfrags] at hbeyond
      rw [hr, ← hfrags] at hsub
      constructor
      · exact fun a ha b hb => hno a (hsub a ha) b (hsub b hb)
      · exact fun e he => (hall e (hsub e he)).1
      · exact fun e he => (hbeyond e he).2
      · intro e he
        have hle := (hbeyond e he).1
        have hnear := (hall e (hsub e he)).2.2
        exact ⟨by omega, hnear.2⟩

/-- As long as what each call takes overlaps no fragment that begins elsewhere,
whatever the data, the bytes held exceed `MAX_AHEAD` by one segment at most, and
none of them lies behind RCV.NXT. -/
theorem held_bounded_without_overlap (P : Nat) (base : U32) (segs : List (U32 × Bytes))
    (hlen : ∀ seg ∈ segs, seg.2.length ≤ P)
    (hapart : ∀ earlier seg later, segs = earlier ++ seg :: later → Apart (run base earlier) seg) :
    (run base segs).reasm.held ≤ maxAhead.toNat + P ∧
      ∀ e ∈ (run base segs).reasm.frags, (run base segs).nxtOff.toNat < e.1 := by
  have hbounded : Bounded P (run base segs) := by
    induction segs using List.reverseRecOn with
    | nil => exact start_bounded P base
    | append_singleton segs seg ih =>
        rw [run_snoc]
        refine (ih (fun x hx => hlen x (List.mem_append_left _ hx)) fun earlier x later heq => ?_).feed
          (hlen seg (by simp)) (hapart segs seg [] rfl)
        refine hapart earlier x (later ++ [seg]) ?_
        rw [heq, List.append_assoc, List.cons_append]
  exact ⟨hbounded.held_le, hbounded.beyond⟩

/-- Two fragments with gaps before them. -/
theorem apart_fragments_are_bounded : (run 0 [(2, [3, 4]), (6, [7])]).reasm.held ≤ maxAhead.toNat + 2 := by
  have hheld : (run 0 [(2, [3, 4])]).reasm.frags.entries = [(2, [3, 4])] := by decide +kernel
  have htaken : (run 0 [(2, [3, 4])]).reasm.taken 6 [7] (run 0 [(2, [3, 4])]).rcvNxt = some (6, [7]) := by
    decide +kernel
  refine (held_bounded_without_overlap 2 0 _ (by decide) fun earlier seg later heq => ?_).1
  match earlier, heq with
  | [], _ => exact fun k d _ e he => absurd he SortedMap.not_mem_empty
  | [x], heq =>
      obtain ⟨rfl, hrest⟩ := List.cons.inj heq
      obtain ⟨rfl, -⟩ := List.cons.inj hrest
      intro k d hkd e he _
      obtain ⟨rfl, rfl⟩ := Prod.mk.inj (Option.some.inj (htaken.symm.trans hkd))
      rw [SortedMap.mem_def, hheld, List.mem_singleton] at he
      subst he
      exact .inl (by decide)
  | x :: y :: earlier, heq => simp at heq

theorem feed_held {s : Intake} {seg : U32 × Bytes} {k : U32} {d : Bytes}
    (htaken : s.reasm.taken seg.1 seg.2 s.rcvNxt = some (k, d)) (hk : k ≠ s.nxtOff)
    (hgap : ∀ v, (s.nxtOff.toNat, v) ∉ s.reasm.frags) :
    s.feed seg = ⟨⟨s.reasm.base, s.reasm.frags.insert k.toNat d⟩, s.rcvNxt, s.delivered⟩ := by
  have hopen : ∀ v, ((s.rcvNxt - s.reasm.base).toNat, v) ∉ s.reasm.frags.insert k.toNat d := by
    intro v hv
    rcases SortedMap.mem_insert.mp hv with heq | ⟨-, hv⟩
    · exact hk (BitVec.eq_of_toNat_eq (Prod.mk.inj heq).1.symm)
    · exact hgap v hv
  simp only [feed, recv_some htaken, flush_gap hopen, List.length_nil, BitVec.add_zero, List.append_nil]

theorem feed_near (frags : SortedMap Nat Bytes) {k : U32} {d : Bytes} (hne : d ≠ []) (hpos : k ≠ 0#32)
    (hnear : ¬ k > maxAhead) (hgap : ∀ v, (0, v) ∉ frags) :
    feed ⟨⟨0, frags⟩, 0, []⟩ (k, d) = ⟨⟨0, frags.insert k.toNat d⟩, 0, []⟩ := by
  have htaken : (⟨0, frags⟩ : Reassembler).taken k d 0 = some (k, d) := by
    simp [taken, hne, hnear]
  have hzero : nxtOff ⟨⟨0, frags⟩, 0, []⟩ = 0#32 := by simp [nxtOff]
  refine feed_held (s := ⟨⟨0, frags⟩, 0, []⟩) htaken (hzero ▸ hpos) ?_
  rw [hzero]
  exact hgap

/-- Three segments of forty thousand bytes, each beginning one byte after the last. -/
def pile : List (U32 × Bytes) :=
  [(1, List.replicate 40000 0#8), (2, List.replicate 40000 0#8), (3, List.replicate 40000 0#8)]

theorem pile_frags : (run 0 pile).reasm.frags.entries = [(1, List.replicate 40000 0#8),
    (2, List.replicate 40000 0#8), (3, List.replicate 40000 0#8)] := by
  have hne : List.replicate 40000 0#8 ≠ [] := by
    rw [ne_eq, List.replicate_eq_nil_iff]
    decide
  unfold pile
  generalize List.replicate 40000 0#8 = d at hne
  have hfirst := feed_near .empty hne (k := 1) (by decide) (by decide) fun v => SortedMap.not_mem_empty
  have hsecond := feed_near (SortedMap.empty.insert 1 d) hne (k := 2) (by decide) (by decide)
    fun v => by simp
  have hthird := feed_near ((SortedMap.empty.insert 1 d).insert 2 d) hne (k := 3) (by decide) (by decide)
    fun v => by simp
  have hrun : run 0 [(1, d), (2, d), (3, d)] =
      ⟨⟨0, ((SortedMap.empty.insert 1 d).insert 2 d).insert 3 d⟩, 0, []⟩ := by
    rw [run, List.foldl_cons, List.foldl_cons, List.foldl_cons, List.foldl_nil]
    exact (congrArg (fun s => feed (feed s _) _) hfirst).trans ((congrArg (feed · _) hsecond).trans hthird)
  rw [hrun]
  rfl

/-- Overlapping fragments exceed every bound that counts from where they begin. -/
theorem overlapping_fragments_pile_up :
    (∀ seg ∈ pile, seg.2.length ≤ 40000) ∧ (run 0 pile).reasm.held > maxAhead.toNat + 40000 := by
  constructor
  · intro seg hseg
    simp only [pile, List.mem_cons, List.not_mem_nil, or_false] at hseg
    rcases hseg with rfl | rfl | rfl <;> exact Nat.le_of_eq List.length_replicate
  · rw [held, pile_frags]
    simp only [List.map_cons, List.map_nil, List.sum_cons, List.sum_nil, List.length_replicate]
    decide

end Intake
end TcpStack
