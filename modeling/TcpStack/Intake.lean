import Mathlib.Data.List.Induction
import Mathlib.Order.Bounds.Basic
import TcpStack.Reassembly

/-!
# Runs of arrivals

The caller of the reassembler keeps RCV.NXT and advances it by the length of
what a call returns. This module follows that loop over a whole sequence of
arrivals: with data of one stream, cut up in any way, and with the segments of
one fixed partition of the stream.
-/
namespace TcpStack
open TcpStack.Circle

/-- The buffer, RCV.NXT and everything handed over so far. -/
structure Intake where
  reasm : Reassembler
  rcvNxt : U32
  delivered : Bytes

namespace Intake
open Reassembler

def start (base : U32) : Intake := ⟨.new base, base, []⟩

/-- One call of `recv`; RCV.NXT advances by exactly the returned length. -/
def feed (s : Intake) (seg : U32 × Bytes) : Intake :=
  let (reasm, out) := s.reasm.recv seg.1 seg.2 s.rcvNxt
  ⟨reasm, s.rcvNxt + BitVec.ofNat 32 out.length, s.delivered ++ out⟩

def run (base : U32) (segs : List (U32 × Bytes)) : Intake := segs.foldl feed (start base)

theorem run_snoc (base : U32) (segs : List (U32 × Bytes)) (seg : U32 × Bytes) :
    run base (segs ++ [seg]) = (run base segs).feed seg := List.foldl_concat ..

/-- The data is what the stream holds at the position its sequence number names. -/
def Agrees (st : Bytes) (base : U32) (seg : U32 × Bytes) : Prop :=
  ∃ off, seg.1 = point base off ∧ PieceAt st off seg.2

/-- What has been delivered is a first part of the stream, and RCV.NXT and the
fragments are where that says. -/
structure Sound (st : Bytes) (base : U32) (s : Intake) : Prop where
  base_eq : s.reasm.base = base
  rcvNxt_eq : s.rcvNxt = point base s.delivered.length
  fromStream : FromStream st s.reasm.frags
  isPrefix : s.delivered <+: st

theorem start_sound (st : Bytes) (base : U32) : Sound st base (start base) where
  base_eq := rfl
  rcvNxt_eq := (point_zero base).symm
  fromStream := fun _ he => absurd he SortedMap.not_mem_empty
  isPrefix := List.nil_prefix

theorem prefix_append_piece {st d ext : Bytes} (hd : d <+: st) (hext : PieceAt st d.length ext) :
    d ++ ext <+: st := by
  obtain ⟨t, rfl⟩ := hd
  rw [PieceAt, List.drop_left] at hext
  exact (List.prefix_append_right_inj d).mpr hext

/-- What a call that returns the piece `ext` leaves behind. -/
theorem Sound.advance {st ext : Bytes} {base : U32} {s : Intake} (h : Sound st base s)
    {frags' : SortedMap Nat Bytes} (hs : FromStream st frags')
    (hext : PieceAt st s.delivered.length ext) :
    Sound st base ⟨⟨s.reasm.base, frags'⟩, s.rcvNxt + BitVec.ofNat 32 ext.length, s.delivered ++ ext⟩ where
  base_eq := h.base_eq
  rcvNxt_eq := by
    rw [h.rcvNxt_eq, point_add, List.length_append]
  fromStream := hs
  isPrefix := prefix_append_piece h.isPrefix hext

theorem feed_sound {st : Bytes} (hst : st.length < 2 ^ 31) {base : U32} {s : Intake}
    (h : Sound st base s) {seg : U32 × Bytes} (ha : Agrees st base seg) : Sound st base (s.feed seg) := by
  obtain ⟨off, hseq, hd⟩ := ha
  obtain ⟨frags', ext, heq, hs, hext, -⟩ :=
    recv_fromStream (by omega) h.fromStream hd h.isPrefix.length_le
  rw [h.base_eq, ← hseq, ← h.rcvNxt_eq] at heq
  simp only [feed, heq]
  rw [← h.base_eq]
  exact h.base_eq ▸ h.advance hs hext

theorem run_sound {st : Bytes} (hst : st.length < 2 ^ 31) {base : U32} {segs : List (U32 × Bytes)}
    (ha : ∀ seg ∈ segs, Agrees st base seg) : Sound st base (run base segs) := by
  induction segs using List.reverseRecOn with
  | nil => exact start_sound st base
  | append_singleton segs seg ih =>
      rw [run_snoc]
      exact feed_sound hst (ih fun x hx => ha x (List.mem_append_left _ hx)) (ha seg (by simp))

/-- However the stream's data is cut, repeated, overlapped or reordered, what
has been handed over is always a first part of the stream. -/
theorem delivered_isPrefix {st : Bytes} (hst : st.length < 2 ^ 31) {base : U32}
    {segs : List (U32 × Bytes)} (ha : ∀ seg ∈ segs, Agrees st base seg) :
    (run base segs).delivered <+: st := (run_sound hst ha).isPrefix

/-- Overlapping cuts of one stream across the wrap of the sequence space. -/
theorem overlapping_delivered_isPrefix :
    (run 0xFFFFFFFE [(0, [3, 4, 5]), (0xFFFFFFFF, [2, 3]), (0xFFFFFFFE, [1, 2])]).delivered <+:
      ([1, 2, 3, 4, 5] : Bytes) := by
  refine delivered_isPrefix (by decide) ?_
  intro seg hseg
  simp only [List.mem_cons, List.not_mem_nil, or_false] at hseg
  rcases hseg with rfl | rfl | rfl
  · exact ⟨2, by decide, [], rfl⟩
  · exact ⟨1, by decide, [4, 5], rfl⟩
  · exact ⟨0, by decide, [3, 4, 5], rfl⟩

/-- A segment as it is on the wire: its position becomes a sequence number. -/
def onWire (base : U32) (seg : Nat × Bytes) : U32 × Bytes := (point base seg.1, seg.2)

/-- The run on the segments received, in the order of their arrival. -/
def receive (base : U32) (received : List (Nat × Bytes)) : Intake := run base (received.map (onWire base))

/-- Position `k` lies in a segment that has been received. -/
def Covered (received : List (Nat × Bytes)) (k : Nat) : Prop :=
  ∃ seg ∈ received, seg.1 ≤ k ∧ k < seg.1 + seg.2.length

/-- Each segment starts at most `MAX_AHEAD` beyond RCV.NXT when it arrives. -/
def InReach (base : U32) (received : List (Nat × Bytes)) : Prop :=
  ∀ earlier seg later, received = earlier ++ seg :: later →
    seg.1 ≤ (receive base earlier).delivered.length + maxAhead.toNat

theorem receive_snoc (base : U32) (received : List (Nat × Bytes)) (seg : Nat × Bytes) :
    receive base (received ++ [seg]) = (receive base received).feed (onWire base seg) := by
  rw [receive, List.map_append, List.map_singleton, run_snoc]
  rfl

theorem InReach.init {base : U32} {received : List (Nat × Bytes)} {seg : Nat × Bytes}
    (h : InReach base (received ++ [seg])) : InReach base received := by
  intro earlier x later heq
  refine h earlier x (later ++ [seg]) ?_
  rw [heq, List.append_assoc, List.cons_append]

/-- The delivered part ends where a segment ends, consists of received segments,
and the fragments are the received segments beyond it. -/
structure Exact (ps : List Bytes) (base : U32) (received : List (Nat × Bytes)) (s : Intake) : Prop
    extends Sound ps.flatten base s where
  cut : CutAt ps s.delivered.length
  covered : ∀ k < s.delivered.length, Covered received k
  missing : ∀ seg ∈ received, seg.1 ≠ s.delivered.length
  mem_frags : ∀ e, e ∈ s.reasm.frags ↔ e ∈ received ∧ s.delivered.length < e.1

theorem start_exact (ps : List Bytes) (base : U32) : Exact ps base [] (start base) where
  toSound := start_sound _ _
  cut := .zero ps
  covered := fun k hk => absurd hk (Nat.not_lt_zero k)
  missing := fun _ h => absurd h List.not_mem_nil
  mem_frags := fun _ => ⟨fun he => absurd he SortedMap.not_mem_empty, fun h => absurd h.1 List.not_mem_nil⟩

theorem Covered.snoc {received : List (Nat × Bytes)} {k : Nat} (h : Covered received k) (seg : Nat × Bytes) :
    Covered (received ++ [seg]) k := by
  obtain ⟨x, hx, hk⟩ := h
  exact ⟨x, List.mem_append_left _ hx, hk⟩

section Partition
variable {ps : List Bytes} {base : U32} {received : List (Nat × Bytes)} {s : Intake}

theorem Exact.feed_old (h : Exact ps base received s) (hlen : ps.flatten.length < 2 ^ 31)
    {seg : Nat × Bytes} (hne : seg.2 ≠ []) (hold : seg.1 + seg.2.length ≤ s.delivered.length) :
    Exact ps base (received ++ [seg]) (s.feed (onWire base seg)) := by
  have hpos := List.length_pos_iff.mpr hne
  have hn := h.isPrefix.length_le
  have heq : s.reasm.recv (point base seg.1) seg.2 s.rcvNxt = (s.reasm, []) := by
    rw [h.rcvNxt_eq, ← h.base_eq]
    exact recv_old (by omega) hold
  have hsame : s.feed (onWire base seg) = s := by
    simp [feed, onWire, heq]
  rw [hsame]
  refine ⟨h.toSound, h.cut, fun k hk => (h.covered k hk).snoc seg, ?_, ?_⟩
  · intro x hx
    rcases List.mem_append.mp hx with hx | hx
    · exact h.missing x hx
    · rw [List.mem_singleton.mp hx]
      omega
  · intro e
    rw [h.mem_frags, List.mem_append, List.mem_singleton]
    refine ⟨fun ⟨he, hlt⟩ => ⟨.inl he, hlt⟩, ?_⟩
    rintro ⟨he | rfl, hlt⟩
    · exact ⟨he, hlt⟩
    · omega

theorem Exact.mem_insert (h : Exact ps base received s) (hne : ∀ d ∈ ps, d ≠ [])
    (hrec : ∀ x ∈ received, PieceOf ps x.1 x.2) {seg : Nat × Bytes} (hseg : PieceOf ps seg.1 seg.2)
    (hnew : s.delivered.length ≤ seg.1) (e : Nat × Bytes) :
    e ∈ s.reasm.frags.insert seg.1 seg.2 ↔
      e ∈ received ++ [seg] ∧ s.delivered.length ≤ e.1 := by
  rw [SortedMap.mem_insert, h.mem_frags, List.mem_append, List.mem_singleton]
  constructor
  · rintro (rfl | ⟨-, he, hlt⟩)
    · exact ⟨.inr rfl, hnew⟩
    · exact ⟨.inl he, Nat.le_of_lt hlt⟩
  · rintro ⟨he | rfl, hle⟩
    · by_cases hkey : e.1 = seg.1
      · left
        have hd : e.2 = seg.2 :=
          (hkey ▸ hrec e he).unique hseg (hne _ (hrec e he).mem) (hne _ hseg.mem)
        exact Prod.ext hkey hd
      · exact .inr ⟨hkey, he, lt_of_le_of_ne hle (Ne.symm (h.missing e he))⟩
    · exact .inl rfl

theorem Exact.feed_new (h : Exact ps base received s) (hne : ∀ d ∈ ps, d ≠ [])
    (hlen : ps.flatten.length < 2 ^ 31) (hrec : ∀ x ∈ received, PieceOf ps x.1 x.2) {seg : Nat × Bytes}
    (hseg : PieceOf ps seg.1 seg.2) (hnew : s.delivered.length ≤ seg.1)
    (hreach : seg.1 ≤ s.delivered.length + maxAhead.toNat) :
    Exact ps base (received ++ [seg]) (s.feed (onWire base seg)) := by
  have hmem := h.mem_insert hne hrec hseg hnew
  have hpiece : ∀ x ∈ received ++ [seg], PieceOf ps x.1 x.2 := by
    intro x hx
    rcases List.mem_append.mp hx with hx | hx
    · exact hrec x hx
    · exact List.mem_singleton.mp hx ▸ hseg
  have hpos : ∀ x ∈ received ++ [seg], 0 < x.2.length := fun x hx =>
    List.length_pos_iff.mpr (hne _ (hpiece x hx).mem)
  obtain ⟨frags', ext, heq, hfl⟩ := recv_near (r := s.reasm) (by omega) h.fromStream hseg.pieceAt
    (hne _ hseg.mem) hnew hreach
  rw [h.base_eq, ← h.rcvNxt_eq] at heq
  have hno : NoOverlap (s.reasm.frags.insert seg.1 seg.2) := fun a ha b hb hlt =>
    (hpiece a ((hmem a).mp ha).1).disjoint (hpiece b ((hmem b).mp hb).1) hlt
  have hgone : ∀ x ∈ received ++ [seg], s.delivered.length + ext.length ≤ x.1 → x ∈ frags' := by
    intro x hx hle
    by_contra hout
    have hin := (hmem x).mpr ⟨hx, by omega⟩
    have hr := (hfl.removed x hin hout).2
    have := hpos x hx
    omega
  have hfeed : s.feed (onWire base seg) =
      ⟨⟨s.reasm.base, frags'⟩, s.rcvNxt + BitVec.ofNat 32 ext.length, s.delivered ++ ext⟩ := by
    simp [feed, onWire, heq, h.base_eq]
  have hstream : FromStream ps.flatten frags' := by
    intro e he
    have hx := ((hmem e).mp (hfl.kept e he)).1
    exact ⟨(hpiece e hx).pieceAt, hne _ (hpiece e hx).mem⟩
  rw [hfeed]
  refine ⟨h.toSound.advance hstream hfl.piece, ?_, ?_, ?_, ?_⟩
  · rw [List.length_append]
    rcases hfl.reach with hnil | ⟨e, he, hend⟩
    · simpa [hnil] using h.cut
    · exact hend ▸ (hpiece e ((hmem e).mp he).1).stop
  · intro k hk
    rw [List.length_append] at hk
    by_cases hold : k < s.delivered.length
    · exact (h.covered k hold).snoc seg
    · obtain ⟨e, he, hin⟩ := hfl.held k (by omega) hk
      exact ⟨e, ((hmem e).mp he).1, hin⟩
  · intro x hx heq'
    rw [List.length_append] at heq'
    exact hfl.gap x.2 (heq' ▸ hgone x hx (by omega))
  · intro e
    rw [List.length_append]
    constructor
    · intro he
      have hle := hfl.above hno (fun x hx => ((hmem x).mp hx).2) e he
      refine ⟨((hmem e).mp (hfl.kept e he)).1, lt_of_le_of_ne hle ?_⟩
      intro hat
      exact hfl.gap e.2 (hat ▸ he)
    · rintro ⟨he, hlt⟩
      exact hgone e he (by omega)

theorem Exact.feed (h : Exact ps base received s) (hne : ∀ d ∈ ps, d ≠ [])
    (hlen : ps.flatten.length < 2 ^ 31) (hrec : ∀ x ∈ received, PieceOf ps x.1 x.2) {seg : Nat × Bytes}
    (hseg : PieceOf ps seg.1 seg.2) (hreach : seg.1 ≤ s.delivered.length + maxAhead.toNat) :
    Exact ps base (received ++ [seg]) (s.feed (onWire base seg)) := by
  -- the delivered part ends at a cut, so no segment straddles it
  rcases hseg.cut h.cut with hnew | hold
  · exact h.feed_new hne hlen hrec hseg hnew hreach
  · exact h.feed_old hlen (hne _ hseg.mem) hold

end Partition

theorem receive_exact {ps : List Bytes} (hne : ∀ d ∈ ps, d ≠ []) (hlen : ps.flatten.length < 2 ^ 31)
    {base : U32} {received : List (Nat × Bytes)} (hrec : ∀ x ∈ received, PieceOf ps x.1 x.2)
    (hreach : InReach base received) : Exact ps base received (receive base received) := by
  induction received using List.reverseRecOn with
  | nil => exact start_exact ps base
  | append_singleton received seg ih =>
      have hrec' : ∀ x ∈ received, PieceOf ps x.1 x.2 := fun x hx => hrec x (List.mem_append_left _ hx)
      rw [receive_snoc]
      exact (ih hrec' hreach.init).feed hne hlen hrec' (hrec seg (by simp)) (hreach received seg [] rfl)

/-- Half-open ranges in ascending order, none empty and no two adjacent, that
hold exactly the positions of the fragments. -/
structure MaximalRuns (frags : List (Nat × Bytes)) (runs : List (Nat × Nat)) : Prop where
  ascending : runs.Pairwise (fun a b => a.2 < b.1)
  nonempty : ∀ b ∈ runs, b.1 < b.2
  mem_iff : ∀ k, Covered frags k ↔ ∃ b ∈ runs, b.1 ≤ k ∧ k < b.2

theorem MaximalRuns.nil : MaximalRuns [] [] where
  ascending := .nil
  nonempty := by simp
  mem_iff := by simp [Covered]

theorem covered_snoc {frags : List (Nat × Bytes)} {e : Nat × Bytes} {k : Nat} :
    Covered (frags ++ [e]) k ↔ Covered frags k ∨ (e.1 ≤ k ∧ k < e.1 + e.2.length) := by
  simp only [Covered, List.mem_append, List.mem_singleton, or_and_right, exists_or, exists_eq_left]

theorem MaximalRuns.append {frags : List (Nat × Bytes)} {runs : List (Nat × Nat)} {e : Nat × Bytes}
    (h : MaximalRuns frags runs) (hne : e.2 ≠ []) (hgap : ∀ b ∈ runs, b.2 < e.1) :
    MaximalRuns (frags ++ [e]) (runs ++ [(e.1, e.1 + e.2.length)]) where
  ascending := by
    refine List.pairwise_append.mpr ⟨h.ascending, List.pairwise_singleton _ _, ?_⟩
    intro a ha b hb
    rw [List.mem_singleton.mp hb]
    exact hgap a ha
  nonempty := by
    intro b hb
    rcases List.mem_append.mp hb with hb | hb
    · exact h.nonempty b hb
    · have hpos := List.length_pos_iff.mpr hne
      rw [List.mem_singleton.mp hb]
      exact Nat.lt_add_of_pos_right hpos
  mem_iff := by
    intro k
    rw [covered_snoc, h.mem_iff]
    simp only [List.mem_append, List.mem_singleton, or_and_right, exists_or, exists_eq_left]

theorem MaximalRuns.extend {frags : List (Nat × Bytes)} {runs : List (Nat × Nat)} {i : Nat}
    {e : Nat × Bytes} (h : MaximalRuns frags (runs ++ [(i, e.1)])) :
    MaximalRuns (frags ++ [e]) (runs ++ [(i, e.1 + e.2.length)]) where
  ascending := by
    obtain ⟨hruns, -, hlast⟩ := List.pairwise_append.mp h.ascending
    refine List.pairwise_append.mpr ⟨hruns, List.pairwise_singleton _ _, ?_⟩
    intro a ha b hb
    rw [List.mem_singleton.mp hb]
    exact hlast a ha (i, e.1) (List.mem_singleton_self _)
  nonempty := by
    intro b hb
    rcases List.mem_append.mp hb with hb | hb
    · exact h.nonempty b (List.mem_append_left _ hb)
    · have hi : i < e.1 := h.nonempty (i, e.1) (by simp)
      rw [List.mem_singleton.mp hb]
      exact Nat.lt_add_right _ hi
  mem_iff := by
    intro k
    have hi : i < e.1 := h.nonempty (i, e.1) (by simp)
    rw [covered_snoc, h.mem_iff]
    simp only [List.mem_append, List.mem_singleton, or_and_right, exists_or, exists_eq_left, or_assoc]
    refine or_congr_right ?_
    omega

/-- A range of positions as absolute sequence numbers, right edge exclusive. -/
def edges (base : U32) (b : Nat × Nat) : U32 × U32 := (point base b.1, point base b.2)

/-- One round of `sack_blocks`: the next fragment starts at or after the end of
every range so far. -/
theorem pushBlock_runs (base : U32) {frags : List (Nat × Bytes)} {runs : List (Nat × Nat)} {e : Nat × Bytes}
    (h : MaximalRuns frags runs) (hne : e.2 ≠ []) (hbound : e.1 < 2 ^ 32) (hle : ∀ b ∈ runs, b.2 ≤ e.1) :
    ∃ runs', pushBlock base (runs.map (edges base)) e = runs'.map (edges base) ∧
      MaximalRuns (frags ++ [e]) runs' ∧ ∀ b ∈ runs', b.2 ≤ e.1 + e.2.length := by
  have hright : base + BitVec.ofNat 32 e.1 + BitVec.ofNat 32 e.2.length =
      point base (e.1 + e.2.length) := point_add _ _ _
  have hends : ∀ (init : List (Nat × Nat)) (i : Nat), (∀ b ∈ init, b ∈ runs) →
      ∀ b ∈ init ++ [(i, e.1 + e.2.length)], b.2 ≤ e.1 + e.2.length := by
    intro init i hinit b hb
    rcases List.mem_append.mp hb with hb | hb
    · exact (hle b (hinit b hb)).trans (Nat.le_add_right _ _)
    · rw [List.mem_singleton.mp hb]
  rcases List.eq_nil_or_concat' runs with rfl | ⟨init, ⟨i, j⟩, rfl⟩
  · refine ⟨[(e.1, e.1 + e.2.length)], ?_, h.append hne (by simp), hends [] e.1 (by simp)⟩
    simp only [pushBlock, List.map_nil, List.getLast?_nil, hright, List.nil_append, List.map_singleton]
    rfl
  · have hj : j ≤ e.1 := hle (i, j) (by simp)
    simp only [pushBlock, List.map_append, List.map_singleton, List.getLast?_concat, List.dropLast_concat,
      edges, hright]
    by_cases hadj : j = e.1
    · subst hadj
      refine ⟨init ++ [(i, e.1 + e.2.length)], ?_, h.extend, hends init i fun b hb => by simp [hb]⟩
      have hat : point base e.1 = base + BitVec.ofNat 32 e.1 := rfl
      rw [if_pos hat, List.map_append, List.map_singleton]
      rfl
    · have hneq : point base j ≠ base + BitVec.ofNat 32 e.1 := fun heq =>
        hadj (point_inj (by omega) (by omega) heq)
      refine ⟨init ++ [(i, j)] ++ [(e.1, e.1 + e.2.length)], ?_, h.append hne ?_, hends _ e.1 fun b hb => hb⟩
      · rw [if_neg hneq, List.map_append, List.map_append, List.map_singleton, List.map_singleton]
        rfl
      · -- the ranges before the last end below its start
        obtain ⟨-, -, hbefore⟩ := List.pairwise_append.mp h.ascending
        intro b hb
        rcases List.mem_append.mp hb with hb | hb
        · have h₁ : b.2 < i := hbefore b hb (i, j) (by simp)
          have h₂ : i < j := h.nonempty (i, j) (by simp)
          omega
        · rw [List.mem_singleton.mp hb]
          exact lt_of_le_of_ne hj hadj

/-- The fold of `sack_blocks` over fragments that lie one after the other. -/
theorem foldl_pushBlock_runs {base : U32} {frags : List (Nat × Bytes)} (hne : ∀ e ∈ frags, e.2 ≠ [])
    (hbound : ∀ e ∈ frags, e.1 < 2 ^ 32) (hsep : frags.Pairwise (fun a b => a.1 + a.2.length ≤ b.1)) :
    ∃ runs, frags.foldl (pushBlock base) [] = runs.map (edges base) ∧ MaximalRuns frags runs ∧
      ∀ b ∈ runs, ∃ e ∈ frags, b.2 ≤ e.1 + e.2.length := by
  induction frags using List.reverseRecOn with
  | nil => exact ⟨[], rfl, .nil, by simp⟩
  | append_singleton frags e ih =>
      obtain ⟨hsep', -, hlast⟩ := List.pairwise_append.mp hsep
      obtain ⟨runs, heq, hruns, hends⟩ := ih (fun x hx => hne x (List.mem_append_left _ hx))
        (fun x hx => hbound x (List.mem_append_left _ hx)) hsep'
      have hle : ∀ b ∈ runs, b.2 ≤ e.1 := by
        intro b hb
        obtain ⟨x, hx, hend⟩ := hends b hb
        exact hend.trans (hlast x hx e (List.mem_singleton_self e))
      obtain ⟨runs', heq', hruns', hends'⟩ :=
        pushBlock_runs base hruns (hne e (by simp)) (hbound e (by simp)) hle
      refine ⟨runs', ?_, hruns', fun b hb => ⟨e, by simp, hends' b hb⟩⟩
      rw [List.foldl_concat, heq, heq']

theorem sackBlocks_runs {st : Bytes} {r : Reassembler} (hst : st.length < 2 ^ 32)
    (hs : FromStream st r.frags) (hno : NoOverlap r.frags) :
    ∃ runs, r.sackBlocks = runs.map (edges r.base) ∧ MaximalRuns r.frags.entries runs := by
  have hbound : ∀ e ∈ r.frags.entries, e.1 < 2 ^ 32 := by
    intro e he
    have hend := hs.end_le he
    omega
  have hsep : r.frags.entries.Pairwise (fun a b => a.1 + a.2.length ≤ b.1) :=
    List.Pairwise.imp_of_mem (fun ha hb hlt => hno _ ha _ hb hlt) r.frags.sorted
  obtain ⟨runs, heq, hruns, -⟩ := foldl_pushBlock_runs (fun e he => (hs e he).2) hbound hsep
  exact ⟨runs, heq, hruns⟩

theorem Exact.noOverlap {ps : List Bytes} {base : U32} {received : List (Nat × Bytes)} {s : Intake}
    (h : Exact ps base received s) (hrec : ∀ x ∈ received, PieceOf ps x.1 x.2) : NoOverlap s.reasm.frags := by
  intro a ha b hb hlt
  have ha' := ((h.mem_frags a).mp ha).1
  have hb' := ((h.mem_frags b).mp hb).1
  exact (hrec a ha').disjoint (hrec b hb') hlt

/-- The delivered part is the longest first part of the stream that the received
segments cover. -/
theorem Exact.isGreatest {ps : List Bytes} {base : U32} {received : List (Nat × Bytes)} {s : Intake}
    (h : Exact ps base received s) (hrec : ∀ x ∈ received, PieceOf ps x.1 x.2) :
    IsGreatest {n | n ≤ ps.flatten.length ∧ ∀ k < n, Covered received k} s.delivered.length := by
  refine ⟨⟨h.isPrefix.length_le, h.covered⟩, ?_⟩
  rintro n ⟨-, hall⟩
  by_contra hlt
  obtain ⟨seg, hseg, hlo, hhi⟩ := hall s.delivered.length (by omega)
  rcases (hrec seg hseg).cut h.cut with hle | hle
  · exact h.missing seg hseg (Nat.le_antisymm hlo hle)
  · omega

theorem Exact.unique {ps : List Bytes} {base : U32} {received received' : List (Nat × Bytes)} {s s' : Intake}
    (h : Exact ps base received s) (h' : Exact ps base received' s')
    (hrec : ∀ x ∈ received, PieceOf ps x.1 x.2) (hset : ∀ x, x ∈ received ↔ x ∈ received') : s = s' := by
  have hrec' : ∀ x ∈ received', PieceOf ps x.1 x.2 := fun x hx => hrec x ((hset x).mpr hx)
  have hcov : ∀ k, Covered received k ↔ Covered received' k := by
    intro k
    simp only [Covered, hset]
  have hlen : s.delivered.length = s'.delivered.length := by
    have hg := h'.isGreatest hrec'
    simp only [← hcov] at hg
    exact (h.isGreatest hrec).unique hg
  have hfrags : s.reasm.frags = s'.reasm.frags := by
    apply SortedMap.ext_of_mem
    intro e
    rw [h.mem_frags, h'.mem_frags, hset, hlen]
  have hdel : s.delivered = s'.delivered := by
    rw [List.prefix_iff_eq_take.mp h.isPrefix, List.prefix_iff_eq_take.mp h'.isPrefix, hlen]
  obtain ⟨⟨b, fr⟩, n, d⟩ := s
  obtain ⟨⟨b', fr'⟩, n', d'⟩ := s'
  obtain rfl : b = b' := h.base_eq.trans h'.base_eq.symm
  obtain rfl : fr = fr' := hfrags
  obtain rfl : d = d' := hdel
  obtain rfl : n = n' := h.rcvNxt_eq.trans h'.rcvNxt_eq.symm
  rfl

/-- With the segments of one partition, in any order and with any repetition:
the delivered part is the longest covered one, the fragments are the received
segments beyond it, the advertised ranges are the maximal runs of the fragments,
and the whole state depends on the set of segments received alone. -/
theorem receive_orderIndependent {ps : List Bytes} (hne : ∀ d ∈ ps, d ≠ [])
    (hlen : ps.flatten.length < 2 ^ 31) (base : U32) {received : List (Nat × Bytes)}
    (hrec : ∀ x ∈ received, PieceOf ps x.1 x.2) (hreach : InReach base received) :
    let s := receive base received
    (s.delivered <+: ps.flatten ∧ s.rcvNxt = point base s.delivered.length ∧
      IsGreatest {n | n ≤ ps.flatten.length ∧ ∀ k < n, Covered received k} s.delivered.length) ∧
    ((∀ e, e ∈ s.reasm.frags ↔ e ∈ received ∧ s.delivered.length ≤ e.1) ∧
      (∀ e ∈ s.reasm.frags, s.delivered.length < e.1) ∧
      s.reasm.frags.entries.Pairwise (fun a b => a.1 + a.2.length ≤ b.1)) ∧
    (∃ runs, s.reasm.sackBlocks = runs.map (edges base) ∧ MaximalRuns s.reasm.frags.entries runs) ∧
    ∀ received', (∀ x, x ∈ received ↔ x ∈ received') → InReach base received' →
      receive base received' = s := by
  have h := receive_exact hne hlen hrec hreach
  intro s
  refine ⟨⟨h.isPrefix, h.rcvNxt_eq, h.isGreatest hrec⟩, ⟨?_, ?_, ?_⟩, ?_, ?_⟩
  · intro e
    rw [h.mem_frags]
    constructor
    · exact fun ⟨he, hlt⟩ => ⟨he, Nat.le_of_lt hlt⟩
    · exact fun ⟨he, hle⟩ => ⟨he, lt_of_le_of_ne hle (Ne.symm (h.missing e he))⟩
  · exact fun e he => ((h.mem_frags e).mp he).2
  · exact List.Pairwise.imp_of_mem (fun ha hb hlt => h.noOverlap hrec _ ha _ hb hlt) s.reasm.frags.sorted
  · obtain ⟨runs, heq, hruns⟩ := sackBlocks_runs (by omega) h.fromStream (h.noOverlap hrec)
    rw [h.base_eq] at heq
    exact ⟨runs, heq, hruns⟩
  · intro received' hset hreach'
    have h' := receive_exact hne hlen (fun x hx => hrec x ((hset x).mpr hx)) hreach'
    exact (h.unique h' hrec hset).symm

/-- The last segment of three first, then the first one, across the wrap of the
sequence space, and the last one again. -/
theorem receive_orderIndependent_wrap :
    (receive 0xFFFFFFFF [(3, [5, 6]), (0, [1, 2]), (3, [5, 6])]).delivered.length = 2 ∧
    ∃ runs, (receive 0xFFFFFFFF [(3, [5, 6]), (0, [1, 2]), (3, [5, 6])]).reasm.sackBlocks =
      runs.map (edges 0xFFFFFFFF) ∧
      MaximalRuns (receive 0xFFFFFFFF [(3, [5, 6]), (0, [1, 2]), (3, [5, 6])]).reasm.frags.entries runs := by
  have hrec : ∀ x ∈ [(3, [5, 6]), (0, [1, 2]), (3, ([5, 6] : Bytes))], PieceOf [[1, 2], [4], [5, 6]] x.1 x.2 := by
    intro x hx
    simp only [List.mem_cons, List.not_mem_nil, or_false] at hx
    rcases hx with rfl | rfl | rfl
    · exact ⟨[[1, 2], [4]], [], rfl, rfl⟩
    · exact ⟨[], [[4], [5, 6]], rfl, rfl⟩
    · exact ⟨[[1, 2], [4]], [], rfl, rfl⟩
  have hreach : InReach 0xFFFFFFFF [(3, [5, 6]), (0, [1, 2]), (3, ([5, 6] : Bytes))] := by
    intro earlier seg later heq
    have hmem : seg ∈ [(3, [5, 6]), (0, [1, 2]), (3, ([5, 6] : Bytes))] := heq ▸ by simp
    have hsmall : seg.1 ≤ 3 := by
      simp only [List.mem_cons, List.not_mem_nil, or_false] at hmem
      rcases hmem with rfl | rfl | rfl <;> decide
    exact hsmall.trans (Nat.le_add_left_of_le (by decide))
  exact ⟨by decide, (receive_orderIndependent (by decide) (by decide) 0xFFFFFFFF hrec hreach).2.2.1⟩

end Intake
end TcpStack
