import TcpStack.Handshake

/-!
# Selective acknowledgements

What the receiver advertises it has, and it never gives that up; no number it
acknowledges lies inside a range it has advertised. So a segment the sender
has marked lies inside an advertised range, and the segment that holds SND.UNA
is never one of them.
-/
namespace TcpStack
open Tcp TcpStack.Seq TcpStack.Circle Reassembler

namespace Trace

/-- The receiver has delivered stream position `k` or holds it for reassembly. -/
def Has (y : Trace) (k : Nat) : Prop := k < y.delivered.length ∨ Held y.reasm.frags k

/-- Some packet of `y` acknowledges position `k`. -/
def AckAt (y : Trace) (iss : U32) (k : Nat) : Prop :=
  ∃ p ∈ y.emitted, ∃ s, decode p = some s ∧ hasFlag s.th.flags ACK = true ∧ s.th.ack = point iss k

/-- Some packet of `y` advertises the stream positions from `i` up to `j`. -/
def BlockAt (y : Trace) (iss : U32) (i j : Nat) : Prop :=
  ∃ p ∈ y.emitted, ∃ s, decode p = some s ∧
    (point iss (1 + i), point iss (1 + j)) ∈ s.opts.validBlocks

/-- No acknowledged position lies inside an advertised range. -/
def Apart (y : Trace) (iss : U32) : Prop :=
  ∀ k i j, k < 2 ^ 32 → i < j → j < 2 ^ 31 → AckAt y iss k → BlockAt y iss i j → k ≤ i ∨ j < k

/-- The segment lies inside an advertised range. -/
def SackedBy (y : Trace) (iss : U32) (q : Queued) : Prop :=
  ∃ i j s e, BlockAt y iss i j ∧ i < j ∧ j < 2 ^ 31 ∧ Spans iss q s e ∧ 1 + i ≤ s ∧ e ≤ 1 + j

/-- What holds of the selective acknowledgements from `y` to `x`. -/
structure Selective (x y : Trace) : Prop where
  pieces : ∀ e ∈ y.reasm.frags, PieceOf x.pieces e.1 e.2
  above : ∀ e ∈ y.reasm.frags, y.delivered.length < e.1
  cut : CutAt x.pieces y.delivered.length
  named : ∀ p ∈ y.emitted, ∀ s, decode p = some s → ∀ b ∈ s.opts.validBlocks, ∃ i j, i < j ∧
    j ≤ x.sent.length ∧ b = (point x.iss (1 + i), point x.iss (1 + j)) ∧ ∀ k, i ≤ k → k < j → Has y k
  apart : Apart y x.iss
  sacked : ∀ q ∈ x.queue, q.sacked = true → SackedBy y x.iss q
  unaAck : x.unaPos = 0 ∨ AckAt y x.iss x.unaPos
  head : ∀ q ∈ x.queue.head?, q.sacked = false

theorem AckAt.mono {y y' : Trace} {iss : U32} {k : Nat} (h : AckAt y iss k)
    (hem : ∀ p ∈ y.emitted, p ∈ y'.emitted) : AckAt y' iss k := by
  obtain ⟨p, hp, hrest⟩ := h
  exact ⟨p, hem p hp, hrest⟩

theorem BlockAt.mono {y y' : Trace} {iss : U32} {i j : Nat} (h : BlockAt y iss i j)
    (hem : ∀ p ∈ y.emitted, p ∈ y'.emitted) : BlockAt y' iss i j := by
  obtain ⟨p, hp, hrest⟩ := h
  exact ⟨p, hem p hp, hrest⟩

theorem SackedBy.mono {y y' : Trace} {iss : U32} {q : Queued} (h : SackedBy y iss q)
    (hem : ∀ p ∈ y.emitted, p ∈ y'.emitted) : SackedBy y' iss q := by
  obtain ⟨i, j, s, e, hb, hrest⟩ := h
  exact ⟨i, j, s, e, hb.mono hem, hrest⟩

theorem Selective.has_of_block {x y : Trace} (h : Selective x y) (hx : Own x) {i j : Nat} (hij : i < j)
    (hj : j < 2 ^ 31) (hb : BlockAt y x.iss i j) :
    j ≤ x.sent.length ∧ ∀ k, i ≤ k → k < j → Has y k := by
  obtain ⟨p, hp, s, hd, hmem⟩ := hb
  obtain ⟨i', j', hij', hj', heq, hhas⟩ := h.named p hp s hd _ hmem
  have hlt := hx.sent_lt
  obtain ⟨hl, hr⟩ := Prod.mk.inj heq
  have hi : 1 + i = 1 + i' := point_inj (by omega) (by omega) hl
  have hj'' : 1 + j = 1 + j' := point_inj (by omega) (by omega) hr
  obtain rfl : i = i' := by omega
  obtain rfl : j = j' := by omega
  exact ⟨hj', hhas⟩

theorem head_unsacked {x y : Trace} (hx : Own x) (hlive : x.state.Live) (hap : Apart y x.iss)
    (hs : ∀ q ∈ x.queue, q.sacked = true → SackedBy y x.iss q)
    (hu : x.unaPos = 0 ∨ AckAt y x.iss x.unaPos) : ∀ q ∈ x.queue.head?, q.sacked = false := by
  intro q hq
  have hcov := hx.outstanding.live hlive
  have hlt := hx.nxtPos_lt
  cases hqs : x.queue with
  | nil => simp [hqs] at hq
  | cons r rest =>
      obtain rfl : r = q := by simpa [hqs] using hq
      rw [hqs] at hcov
      obtain ⟨s, e, hspan, hsu, hue, hrest⟩ := hcov
      have hev := hrest.le
      cases hsack : r.sacked with
      | false => rfl
      | true =>
          obtain ⟨i, j, s', e', hb, hij, hj, hspan', his, hej⟩ :=
            hs r (hqs ▸ List.mem_cons_self ..) hsack
          have hpos := hspan'.pos
          obtain rfl : s = s' := point_inj (by omega) (by omega) (hspan.startSeq.symm.trans hspan'.startSeq)
          obtain rfl : e = e' := point_inj (by omega) (by omega) (hspan.endSeq.symm.trans hspan'.endSeq)
          rcases hu with hzero | hack
          · omega
          · rcases hap _ i j (by omega) hij hj hack hb with hk | hk <;> omega

theorem Selective.frame_sender {x x' y : Trace} (h : Selective x y) (hi : x'.iss = x.iss)
    (hp : x.pieces <+: x'.pieces) (hu : x'.unaPos = 0 ∨ AckAt y x.iss x'.unaPos)
    (hs : ∀ q ∈ x'.queue, q.sacked = true → SackedBy y x.iss q)
    (hh : ∀ q ∈ x'.queue.head?, q.sacked = false) : Selective x' y := by
  have hlen : x.sent.length ≤ x'.sent.length := by
    obtain ⟨r, hr⟩ := hp
    simp only [sent, ← hr, List.flatten_append, List.length_append]
    omega
  refine ⟨fun e he => (h.pieces e he).mono hp, h.above, h.cut.mono hp, ?_, hi ▸ h.apart, hi ▸ hs, hi ▸ hu, hh⟩
  intro p hp s hd b hb
  obtain ⟨i, j, hij, hj, heq, hhas⟩ := h.named p hp s hd b hb
  exact ⟨i, j, hij, hj.trans hlen, hi ▸ heq, hhas⟩

theorem covered_point {iss : U32} {q : Queued} {s e i j : Nat} (hq : Spans iss q s e) (he : e ≤ 2 ^ 31 + 1)
    (hij : i < j) (hj : j < 2 ^ 31)
    (h : (!before q.startSeq (point iss (1 + i)) && !after q.endSeq (point iss (1 + j))) = true) :
    1 + i ≤ s ∧ e ≤ 1 + j := by
  have hpos := hq.pos
  rw [hq.startSeq, hq.endSeq, before_point (by omega) (by omega), after_point (by omega) (by omega)] at h
  simp only [Bool.and_eq_true, Bool.not_eq_true', decide_eq_false_iff_not] at h
  omega

theorem Selective.marked {x y : Trace} {inp : Option Segment} {seg : Segment} (h : Selective x y)
    (hx : Own x) (hlive : x.state.Live) (hh : Heard y inp) (hi : inp = some seg) :
    ∀ q ∈ (x.markSacked seg.opts.validBlocks).queue, q.sacked = true → SackedBy y x.iss q := by
  intro q' hq' hsack
  obtain ⟨q, hq, rfl⟩ := List.mem_map.mp hq'
  rcases Bool.or_eq_true_iff.mp hsack with hold | hnew
  · obtain ⟨i, j, s, e, hb, hij, hj, hspan, hrest⟩ := h.sacked q hq hold
    exact ⟨i, j, s, e, hb, hij, hj, ⟨hspan.pos, hspan.short, hspan.startSeq, hspan.endSeq⟩, hrest⟩
  · obtain ⟨b, hb, hin⟩ := List.any_eq_true.mp hnew
    obtain ⟨p, hp, hd⟩ := hh seg hi
    obtain ⟨i, j, hij, hj, rfl, -⟩ := h.named p hp seg hd b hb
    obtain ⟨s, e, hspan, -, hev⟩ := (hx.outstanding.live hlive).spans hq
    have hlt := hx.sent_lt
    have hle := x.nxtPos_le
    have hin' := covered_point hspan (by omega) hij (by omega) hin
    exact ⟨i, j, s, e, ⟨p, hp, seg, hd, hb⟩, hij, by omega,
      ⟨hspan.pos, hspan.short, hspan.startSeq, hspan.endSeq⟩, hin'⟩

theorem heard_ackAt {y : Trace} {inp : Option Segment} {seg : Segment} {iss : U32} {k : Nat}
    (hh : Heard y inp) (hi : inp = some seg) (hf : hasFlag seg.th.flags ACK = true)
    (ha : seg.th.ack = point iss k) : AckAt y iss k := by
  obtain ⟨p, hp, hd⟩ := hh seg hi
  exact ⟨p, hp, seg, hd, hf, ha⟩

theorem head_append {qs : List Queued} {r : Queued} (hr : r.sacked = false)
    (h : ∀ q ∈ qs.head?, q.sacked = false) : ∀ q ∈ (qs ++ [r]).head?, q.sacked = false := by
  cases qs with
  | nil => simpa using hr
  | cons q qs => simpa using h

theorem Selective.launched {x y : Trace} (h : Selective x y) (n : Nat) (pkt : Bytes) :
    ∀ q ∈ (x.launch n pkt).queue, q.sacked = true → SackedBy y x.iss q := by
  intro q hq hsack
  rcases List.mem_append.mp hq with hq | hq
  · exact h.sacked q hq hsack
  · rw [List.mem_singleton.mp hq] at hsack
    cases hsack

theorem Selective.dropped {x y : Trace} (h : Selective x y) (ack : U32) :
    ∀ q ∈ (x.dropAcked ack).queue, q.sacked = true → SackedBy y x.iss q :=
  fun q hq => h.sacked q (List.mem_of_mem_filter hq)

theorem dropAcked_nxt {x : Trace} (hx : Own x) (hlive : x.state.Live) :
    (x.dropAcked x.nxt).queue = [] := by
  have hcov := hx.outstanding.live hlive
  have hnear := hx.near
  have hle := x.nxtPos_le
  rw [hx.stream.nxt]
  exact hcov.filter_eq_nil (by unfold Near at hnear; omega)

theorem Selective.sender {x x' y : Trace} {inp : Option Segment} (h : Selective x y) (hx : Own x)
    (hh : Heard y inp) (hstep : Step inp x x') : Selective x' y := by
  have hx' := hx.step hstep
  cases hstep with
  | ack | resend | deliver | pendFin | takePending | takeFin | die =>
      exact h.frame_sender rfl List.prefix_rfl h.unaAck h.sacked h.head
  | @data n pkt =>
      exact h.frame_sender rfl (List.prefix_append _ _) h.unaAck (h.launched n pkt) (head_append rfl h.head)
  | @fin pkt =>
      exact h.frame_sender rfl List.prefix_rfl h.unaAck (h.launched 1 pkt) (head_append rfl h.head)
  | @ackNew seg hi hf hsend hnew =>
      have huna : AckAt y x.iss ((x.advance seg.th.ack).dropAcked seg.th.ack).unaPos :=
        heard_ackAt hh hi hf hx'.outstanding.una
      refine h.frame_sender rfl List.prefix_rfl (.inr huna) (h.dropped _) ?_
      exact head_unsacked hx' hsend.live h.apart (h.dropped _) (.inr huna)
  | @mark seg hi hf hsend =>
      have hm := h.marked hx hsend.live hh hi
      refine h.frame_sender rfl List.prefix_rfl h.unaAck hm ?_
      exact head_unsacked hx' hsend.live h.apart hm h.unaAck
  | @finAcked seg next hi hf hacked hexact =>
      refine h.frame_sender rfl List.prefix_rfl h.unaAck (h.dropped _) ?_
      change ∀ q ∈ (x.dropAcked seg.th.ack).queue.head?, q.sacked = false
      rw [hexact, dropAcked_nxt hx hacked.live]
      exact fun q hq => nomatch hq
  | @openActive seg hi _ hf hwait hexact =>
      refine h.frame_sender rfl List.prefix_rfl (.inr (heard_ackAt hh hi hf hx'.outstanding.una)) (h.dropped _) ?_
      change ∀ q ∈ (x.dropAcked seg.th.ack).queue.head?, q.sacked = false
      rw [hexact, dropAcked_nxt hx (by simp [hwait, State.Live])]
      exact fun q hq => nomatch hq
  | @openPassive seg hi hf hwait hexact =>
      refine h.frame_sender rfl List.prefix_rfl (.inr (heard_ackAt hh hi hf hx'.outstanding.una)) (h.dropped _) ?_
      change ∀ q ∈ (x.dropAcked seg.th.ack).queue.head?, q.sacked = false
      rw [hexact, dropAcked_nxt hx (by simp [hwait, State.Live])]
      exact fun q hq => nomatch hq

theorem Selective.frame_receiver {x y y' : Trace} (h : Selective x y) (hr : y'.reasm = y.reasm)
    (hdel : y'.delivered = y.delivered) (hem : ∀ p, p ∈ y'.emitted ↔ p ∈ y.emitted) : Selective x y' := by
  have hold : ∀ p ∈ y.emitted, p ∈ y'.emitted := fun p => (hem p).mpr
  have hnew : ∀ p ∈ y'.emitted, p ∈ y.emitted := fun p => (hem p).mp
  refine ⟨hr ▸ h.pieces, ?_, hdel ▸ h.cut, ?_, ?_, fun q hq hs => (h.sacked q hq hs).mono hold, ?_, h.head⟩
  · rw [hr, hdel]
    exact h.above
  · intro p hp s hd b hb
    obtain ⟨i, j, hij, hj, heq, hhas⟩ := h.named p (hnew p hp) s hd b hb
    refine ⟨i, j, hij, hj, heq, ?_⟩
    simp only [Has, hr, hdel]
    exact hhas
  · exact fun k i j hk hij hj ha hb => h.apart k i j hk hij hj (ha.mono hnew) (hb.mono hnew)
  · exact h.unaAck.imp id fun ha => ha.mono hold

theorem Selective.rcvPos_apart {x y : Trace} (h : Selective x y) (hd : Dir x y) {i j : Nat}
    (hj : j ≤ x.sent.length) (hhas : ∀ k, i ≤ k → k < j → Has y k) : y.rcvPos ≤ i ∨ j < y.rcvPos := by
  unfold rcvPos
  cases hf : y.peerFin with
  | true =>
      have hall := (hd.eof hf).2
      rw [hall, Bool.toNat_true]
      omega
  | false =>
      rw [Bool.toNat_false]
      by_contra hin
      rcases hhas y.delivered.length (by omega) (by omega) with hlt | ⟨e, he, hle, -⟩
      · omega
      · have hab := h.above e he
        omega

/-- A range advertised now starts above everything acknowledged so far. -/
theorem Selective.rcvPos_le_block {x y : Trace} (h : Selective x y) (hd : Dir x y) {e : Nat × Bytes}
    (he : e ∈ y.reasm.frags) : y.rcvPos ≤ e.1 := by
  have hab := h.above e he
  unfold rcvPos
  cases hf : y.peerFin with
  | false =>
      rw [Bool.toNat_false]
      omega
  | true =>
      -- after the FIN nothing is left to hold
      have hall := (hd.eof hf).2
      have hend := hd.frags.end_le he
      rw [hall] at hab
      omega

theorem Selective.emit {x y y' : Trace} {p : Bytes} {s : Segment} (h : Selective x y) (hd : Dir x y)
    (hx : Own x) (hr : y'.reasm = y.reasm) (hdel : y'.delivered = y.delivered)
    (hem : y'.emitted = y.emitted ++ [p]) (hdec : decode p = some s) (hack : s.th.ack = y.rcvNxt)
    (hblocks : ∀ b ∈ s.opts.validBlocks, b ∈ y.reasm.sackBlocks) : Selective x y' := by
  have hlt := hx.sent_lt
  have hnlt := hx.nxtPos_lt
  have hrle := hd.rcvPos_le
  have hold : ∀ p ∈ y.emitted, p ∈ y'.emitted := fun p hp => hem ▸ List.mem_append_left _ hp
  have hadv : ∀ b ∈ s.opts.validBlocks, ∃ i j, i < j ∧ j ≤ x.sent.length ∧
      b = (point x.iss (1 + i), point x.iss (1 + j)) ∧ (∀ k, i ≤ k → k < j → Has y k) ∧ y.rcvPos ≤ i := by
    intro b hb
    obtain ⟨i, j, ⟨hij, hl, hright, hall, e, he, rfl⟩, hj⟩ :=
      sackBlocks_sound (by omega) hd.frags b (hblocks b hb)
    rw [hd.base, point_point] at hl hright
    exact ⟨e.1, j, hij, hj, Prod.ext hl hright, fun k h₁ h₂ => .inr (hall k h₁ h₂), h.rcvPos_le_block hd he⟩
  refine ⟨hr ▸ h.pieces, ?_, hdel ▸ h.cut, ?_, ?_, fun q hq hs => (h.sacked q hq hs).mono hold,
    h.unaAck.imp id fun ha => ha.mono hold, h.head⟩
  · rw [hr, hdel]
    exact h.above
  · simp only [Has, hr, hdel]
    intro p' hp' s' hd' b hb
    rw [hem] at hp'
    rcases List.mem_append.mp hp' with hp' | hp'
    · exact h.named p' hp' s' hd' b hb
    · rw [List.mem_singleton.mp hp', hdec] at hd'
      obtain rfl : s = s' := Option.some.inj hd'
      obtain ⟨i, j, hij, hj, heq, hhas, -⟩ := hadv b hb
      exact ⟨i, j, hij, hj, heq, hhas⟩
  · intro k i j hk hij hj ⟨pa, hpa, sa, hda, hfa, haa⟩ ⟨pb, hpb, sb, hdb, hb⟩
    rw [hem] at hpa hpb
    -- what the block says, and whether it is a new one
    have hblock : j ≤ x.sent.length ∧ (∀ k, i ≤ k → k < j → Has y k) ∧
        (BlockAt y x.iss i j ∨ y.rcvPos ≤ i) := by
      rcases List.mem_append.mp hpb with hpb | hpb
      · have hat : BlockAt y x.iss i j := ⟨pb, hpb, sb, hdb, hb⟩
        have hhas := h.has_of_block hx hij hj hat
        exact ⟨hhas.1, hhas.2, .inl hat⟩
      · rw [List.mem_singleton.mp hpb, hdec] at hdb
        obtain rfl : s = sb := Option.some.inj hdb
        obtain ⟨i', j', hij', hj', heq, hhas, habove⟩ := hadv _ hb
        obtain ⟨hl, hright⟩ := Prod.mk.inj heq
        have hi : 1 + i = 1 + i' := point_inj (by omega) (by omega) hl
        have hj'' : 1 + j = 1 + j' := point_inj (by omega) (by omega) hright
        obtain rfl : i = i' := by omega
        obtain rfl : j = j' := by omega
        exact ⟨hj', hhas, .inr habove⟩
    obtain ⟨hj', hhas, hwhich⟩ := hblock
    rcases List.mem_append.mp hpa with hpa | hpa
    · obtain ⟨k', hk', haa'⟩ := hd.acks pa hpa sa hda hfa
      obtain rfl : k = k' := point_inj hk (by omega) (haa.symm.trans haa')
      rcases hwhich with hat | habove
      · exact h.apart k i j hk hij hj ⟨pa, hpa, sa, hda, hfa, haa⟩ hat
      · omega
    · rw [List.mem_singleton.mp hpa, hdec] at hda
      obtain rfl : s = sa := Option.some.inj hda
      obtain rfl : k = y.rcvPos := by
        rw [hack, hd.rcv] at haa
        exact (point_inj (by omega) hk haa).symm
      exact h.rcvPos_apart hd hj' hhas

theorem noOverlap_of_pieces {ps : List Bytes} {frags : SortedMap Nat Bytes}
    (h : ∀ e ∈ frags, PieceOf ps e.1 e.2) : NoOverlap frags :=
  fun a ha b hb hlt => (h a ha).disjoint (h b hb) hlt

/-- What a call of the reassembler on a piece of the stream does to the
receiver's holdings: nothing is given up, and it stops at a cut and a gap. -/
theorem Selective.recv {x y : Trace} (h : Selective x y) (hd : Dir x y) (hx : Own x) {off : Nat}
    {data : Bytes} (hpiece : PieceOf x.pieces off data) (hne : data ≠ []) :
    ∃ frags' ext, y.reasm.recv (point y.reasm.base off) data (point y.reasm.base y.delivered.length) =
        (⟨y.reasm.base, frags'⟩, ext) ∧
      (∀ e ∈ frags', PieceOf x.pieces e.1 e.2) ∧
      (∀ e ∈ frags', y.delivered.length + ext.length < e.1) ∧
      CutAt x.pieces (y.delivered.length + ext.length) ∧
      ∀ k, Has y k → k < y.delivered.length + ext.length ∨ Held frags' k := by
  have hlt := hx.sent_lt
  rcases recv_cases (by omega) hd.frags hpiece.pieceAt hne hd.pre.length_le with heq | ⟨frags', ext, hgt, heq, hfl⟩
  · exact ⟨y.reasm.frags, [], heq, h.pieces, h.above, h.cut, fun k hk => hk⟩
  -- the delivered length is a cut, so the piece lies wholly above it
  have hoff : y.delivered.length ≤ off := by
    rcases hpiece.cut h.cut with hle | hle
    · exact hle
    · omega
  rw [Nat.sub_eq_zero_of_le hoff, Nat.add_zero, List.drop_zero] at hfl
  have hins : ∀ e ∈ y.reasm.frags.insert off data, PieceOf x.pieces e.1 e.2 ∧ y.delivered.length ≤ e.1 := by
    intro e he
    rcases SortedMap.mem_insert.mp he with rfl | ⟨-, he⟩
    · exact ⟨hpiece, hoff⟩
    · exact ⟨h.pieces e he, Nat.le_of_lt (h.above e he)⟩
  have hkept : ∀ e ∈ y.reasm.frags, e ∈ y.reasm.frags.insert off data := by
    intro e he
    by_cases hkey : e.1 = off
    · -- a piece inserted again replaces itself
      have heq : e.2 = data := (hkey ▸ h.pieces e he).unique hpiece (hd.frags e he).2 hne
      exact SortedMap.mem_insert.mpr (.inl (Prod.ext hkey heq))
    · exact SortedMap.mem_insert.mpr (.inr ⟨hkey, he⟩)
  refine ⟨frags', ext, heq, fun e he => (hins e (hfl.kept e he)).1, ?_, ?_, ?_⟩
  · intro e he
    have hge := hfl.above (noOverlap_of_pieces fun e he => (hins e he).1) (fun e he => (hins e he).2) e he
    refine lt_of_le_of_ne hge fun heq => hfl.gap e.2 ?_
    rw [heq]
    exact he
  · rcases hfl.reach with rfl | ⟨e, he, hend⟩
    · exact h.cut
    · rw [← hend]
      exact (hins e he).1.stop
  · rintro k (hk | ⟨e, he, hle, hke⟩)
    · exact .inl (by omega)
    · by_cases hin : e ∈ frags'
      · exact .inr ⟨e, hin, hle, hke⟩
      · have hrem := hfl.removed e (hkept e he) hin
        exact .inl (by omega)

theorem Selective.deliver {x y : Trace} {inp : Option Segment} {seg : Segment} (h : Selective x y)
    (hd : Dir x y) (hx : Own x) (hh : Heard x inp) (hi : inp = some seg) : Selective x (y.deliver seg) := by
  have hnothing : y.reasm.recv seg.th.seq seg.payload y.rcvNxt = (y.reasm, []) →
      Selective x (y.deliver seg) := by
    intro heq
    refine h.frame_receiver ?_ ?_ fun p => Iff.rfl
    · simp [Trace.deliver, heq]
    · simp [Trace.deliver, Trace.delivered, heq]
  by_cases hne : seg.payload = []
  · exact hnothing (by rw [hne]; exact Reassembler.recv_nil _ _ _)
  obtain ⟨off, hseq, hpiece⟩ := (hx.heard hh hi).data hne
  have hlt := hx.sent_lt
  have hend := hpiece.pieceAt.end_le hne
  have hseq' : seg.th.seq = point y.reasm.base off := by rw [hd.base, point_point, hseq]
  have hrcv' : y.rcvNxt = point y.reasm.base (y.delivered.length + y.peerFin.toNat) := by
    rw [hd.base, point_point, hd.rcv, rcvPos, Nat.add_assoc]
  cases hpf : y.peerFin with
  | true =>
      have hall := (hd.eof hpf).2
      refine hnothing ?_
      rw [hseq', hrcv', hpf, hall]
      have hend' : off + seg.payload.length ≤ x.sent.length := hend
      exact Reassembler.recv_old (by simp only [Bool.toNat_true]; omega) (by omega)
  | false =>
      rw [hpf, Bool.toNat_false, Nat.add_zero] at hrcv'
      obtain ⟨frags', ext, heq, hp, hab, hcut, hkeep⟩ := h.recv hd hx hpiece hne
      rw [← hseq', ← hrcv'] at heq
      have hdel : (y.deliver seg).delivered = y.delivered ++ ext := by
        simp only [Trace.delivered, Trace.deliver, heq, List.append_assoc]
      have hre : (y.deliver seg).reasm = ⟨y.reasm.base, frags'⟩ := by simp only [Trace.deliver, heq]
      have hlen : (y.deliver seg).delivered.length = y.delivered.length + ext.length := by
        rw [hdel, List.length_append]
      refine ⟨?_, ?_, hlen ▸ hcut, ?_, h.apart, h.sacked, h.unaAck, h.head⟩
      · rw [hre]
        exact hp
      · rw [hre, hlen]
        exact hab
      · intro p hp' s hds b hb
        obtain ⟨i, j, hij, hj, hbeq, hhas⟩ := h.named p hp' s hds b hb
        refine ⟨i, j, hij, hj, hbeq, fun k h₁ h₂ => ?_⟩
        rw [Has, hre, hlen]
        exact hkeep k (hhas k h₁ h₂)

theorem Selective.receiver {x y y' : Trace} {inp : Option Segment} (h : Selective x y) (hd : Dir x y)
    (hx : Own x) (hy : Own y) (hh : Heard x inp) (hstep : Step inp y y') : Selective x y' := by
  cases hstep with
  | ack _ hc hheld =>
      exact h.emit hd hx rfl rfl rfl hc.decode hc.ack (hc.blocks ▸ fun b hb => hheld.subset hb)
  | resend hq _ =>
      refine h.frame_receiver rfl rfl fun p => ?_
      have hmem := hy.stream.queued _ hq
      simp only [Trace.emit, List.mem_append, List.mem_singleton]
      exact ⟨fun hp => hp.elim id fun heq => heq ▸ hmem, .inl⟩
  | data _ _ _ _ _ hc | fin _ _ hc =>
      refine h.emit hd hx rfl rfl rfl hc.decode hc.ack ?_
      rw [hc.blocks]
      exact fun b hb => nomatch hb
  | deliver hi _ => exact h.deliver hd hx hh hi
  | openActive _ _ _ hwait _ => exact absurd hwait hd.synced
  | ackNew | mark | pendFin | takePending | takeFin | finAcked | openPassive | die =>
      exact h.frame_receiver rfl rfl fun p => Iff.rfl

/-- No packet of `y` carries blocks. -/
def Blockless (y : Trace) : Prop := ∀ p ∈ y.emitted, ∀ s, decode p = some s → s.opts.validBlocks = []

def Unmarked (x : Trace) : Prop := ∀ q ∈ x.queue, q.sacked = false

theorem Blockless.step {a a' : Trace} {inp : Option Segment} (h : Blockless a) (ha : Own a)
    (hst : a.state = .synSent) (hstep : Step inp a a') : Blockless a' := by
  rcases hstep.shut_cases (.inl hst) with ⟨hopen, -⟩ | ⟨q, hq, rfl⟩ | ⟨seg, -, -, -, -, rfl⟩ |
    ⟨seg, -, -, -, rfl⟩ | ⟨-, rfl⟩
  · exact absurd hst hopen
  · intro p hp
    rcases List.mem_append.mp hp with hp | hp
    · exact h p hp
    · rw [List.mem_singleton.mp hp]
      exact h _ (ha.stream.queued _ hq)
  · exact h
  · exact h
  · exact h

theorem Unmarked.step {b b' : Trace} {inp : Option Segment} (h : Unmarked b) (hsend : ¬ b.state.Sending)
    (hstep : Step inp b b') : Unmarked b' := by
  cases hstep with
  | data _ hs => exact absurd hs hsend
  | fin _ hfin => exact absurd hfin.sending hsend
  | mark _ _ hs => exact absurd hs hsend
  | ackNew | finAcked | openActive | openPassive => exact fun q hq => h q (List.mem_of_mem_filter hq)
  | _ => exact h

/-- A direction starts with nothing held, nothing advertised and nothing marked. -/
theorem Selective.opened {x y : Trace} (hu : x.unaPos = 0) (hm : Unmarked x)
    (hfrags : y.reasm.frags = .empty) (hdel : y.delivered = []) (hb : Blockless y) : Selective x y where
  pieces := fun e he => absurd (hfrags ▸ he) SortedMap.not_mem_empty
  above := fun e he => absurd (hfrags ▸ he) SortedMap.not_mem_empty
  cut := by
    rw [hdel]
    exact .zero _
  named := by
    intro p hp s hd b hmem
    rw [hb p hp s hd] at hmem
    cases hmem
  apart := by
    rintro k i j - - - - ⟨p, hp, s, hd, hmem⟩
    rw [hb p hp s hd] at hmem
    cases hmem
  sacked := by
    intro q hmem hs
    rw [hm q hmem] at hs
    cases hs
  unaAck := .inl hu
  head := fun q hmem => hm q (List.mem_of_mem_head? hmem)

/-- The joint invariant with the selective acknowledgements of both directions. -/
structure SackJoint (a b : Trace) : Prop where
  joint : Joint a b
  forth : Selective a b
  waiting : a.state = .synSent → Blockless a ∧ Unmarked b
  back : a.state ≠ .synSent → Selective b a

theorem SackJoint.stepA {a a' b : Trace} {inp : Option Segment} (h : SackJoint a b) (hh : Heard b inp)
    (hstep : Step inp a a') : SackJoint a' b := by
  have hj := h.joint.stepA hh hstep
  have hforth := h.forth.sender h.joint.ownA hh hstep
  rcases h.joint.back with ⟨hv, hw⟩ | hdir
  · obtain ⟨hbl, hum⟩ := h.waiting hv.state
    have hbl' := hbl.step h.joint.ownA hv.state hstep
    rcases hv.step h.joint.ownA.stream (fun seg hi => (h.joint.ownB.heard hh hi).noRst) hstep with
      hv' | ⟨seg, hi, hsyn, rfl⟩
    · exact ⟨hj, hforth, fun _ => ⟨hbl', hum⟩, fun hne => absurd hv'.state hne⟩
    · exact ⟨hj, hforth, (fun hst => nomatch hst), fun _ => .opened hw.unaPos hum rfl hv.delivered hbl'⟩
  · have hne : a'.state ≠ .synSent := (hdir.receiver h.joint.ownB h.joint.ownA hh hstep).synced
    refine ⟨hj, hforth, fun hst => absurd hst hne, fun _ => ?_⟩
    exact (h.back hdir.synced).receiver hdir h.joint.ownB h.joint.ownA hh hstep

theorem SackJoint.stepB {a b b' : Trace} {inp : Option Segment} (h : SackJoint a b) (hh : Heard a inp)
    (hstep : Step inp b b') : SackJoint a b' := by
  refine ⟨h.joint.stepB hh hstep, h.forth.receiver h.joint.forth h.joint.ownA h.joint.ownB hh hstep, ?_,
    fun hne => (h.back hne).sender h.joint.ownB hh hstep⟩
  intro hst
  obtain ⟨hbl, hum⟩ := h.waiting hst
  rcases h.joint.back with ⟨-, hw⟩ | hdir
  · exact ⟨hbl, hum.step (hw.state ▸ not_sending_synRcvd) hstep⟩
  · exact absurd hst hdir.synced

theorem Selective.appCall_sender {x y : Trace} (h : Selective x y) (c : Call) : Selective (x.appCall c) y := by
  cases c <;> exact h.frame_sender rfl List.prefix_rfl h.unaAck h.sacked h.head

theorem Selective.appCall_receiver {x y : Trace} (h : Selective x y) (c : Call) :
    Selective x (y.appCall c) := by
  cases c with
  | takeReceived =>
      refine h.frame_receiver rfl ?_ fun p => Iff.rfl
      simp [Trace.appCall, Trace.delivered]
  | _ => exact h.frame_receiver rfl rfl fun p => Iff.rfl

theorem appCall_frame (t : Trace) (c : Call) :
    (t.appCall c).state = t.state ∧ (t.appCall c).queue = t.queue ∧ (t.appCall c).emitted = t.emitted := by
  cases c <;> exact ⟨rfl, rfl, rfl⟩

theorem SackJoint.appCallA {a b : Trace} (h : SackJoint a b) (x : Call)
    (hs : (a.appCall x).written.length < 2 ^ 31) : SackJoint (a.appCall x) b := by
  obtain ⟨hst, -, hem⟩ := appCall_frame a x
  refine ⟨h.joint.appCallA x hs, h.forth.appCall_sender x, ?_, ?_⟩
  · rw [hst, Blockless, hem]
    exact h.waiting
  · rw [hst]
    exact fun hne => (h.back hne).appCall_receiver x

theorem SackJoint.appCallB {a b : Trace} (h : SackJoint a b) (x : Call)
    (hs : (b.appCall x).written.length < 2 ^ 31) : SackJoint a (b.appCall x) := by
  refine ⟨h.joint.appCallB x hs, h.forth.appCall_receiver x, ?_, fun hne => (h.back hne).appCall_sender x⟩
  rw [Unmarked, (appCall_frame b x).2.1]
  exact h.waiting

end Trace

namespace System
open Trace Host

variable {F : Type} [F64 F]

/-- The active opener by itself. -/
structure Alone (a : Trace) : Prop where
  own : Own a
  virgin : Virgin a
  blockless : Blockless a
  unmarked : Unmarked a

theorem fresh_start {h : Host F} (hf : Fresh h) : Blockless h.start ∧ Unmarked h.start ∧
    h.start.reasm.frags = .empty ∧ h.start.delivered = [] := by
  have hone : ∀ {pkt : Bytes} {s : Segment} {seq ack : U32} {flags : U8},
      Carries pkt s seq ack flags [] [] → ∀ p ∈ [pkt], ∀ s', decode p = some s' → s'.opts.validBlocks = [] := by
    intro pkt s seq ack flags hc p hp s' hd
    rw [List.mem_singleton.mp hp] at hd
    obtain rfl : s = s' := Option.some.inj (hc.decode.symm.trans hd)
    exact hc.blocks
  cases hf with
  | connect localEnd remoteEnd iss now rnd =>
      obtain ⟨s, hc, -⟩ := Connection.connectWithIss_syn (F := F) localEnd remoteEnd iss now rnd
      refine ⟨hone hc, ?_, rfl, rfl⟩
      intro q hq
      obtain rfl := List.mem_singleton.mp hq
      rfl
  | accept ipSrc ipDst seg iss now rnd heq =>
      obtain ⟨⟨c, synack⟩, hr, rfl⟩ := Option.map_eq_some_iff.mp heq
      obtain ⟨rfl, s, hc, -⟩ := Connection.acceptWithIssAt_eq hr
      refine ⟨hone hc, ?_, rfl, rfl⟩
      intro q hq
      obtain rfl := List.mem_singleton.mp hq
      rfl
  | cookie => exact ⟨(fun p hp => nomatch hp), (fun q hq => nomatch hq), rfl, rfl⟩

theorem init_sack_tracked (localEnd remoteEnd : Endpoint) (iss : U32) (now : U64) (rnd : U32) :
    Tracked Alone SackJoint (init (F := F) localEnd remoteEnd iss now rnd) := by
  have hf : Fresh (Host.connect (F := F) localEnd remoteEnd iss now rnd) := .connect ..
  obtain ⟨hbl, hum, -, -⟩ := fresh_start hf
  obtain ⟨hown, hv⟩ := init_virgin (F := F) localEnd remoteEnd iss now rnd
  exact ⟨_, hf.follows, hown, hv, hbl, hum⟩

theorem sack_kept : Kept F Alone SackJoint where
  appI := by
    intro a x h hs
    obtain ⟨-, hq, hem⟩ := appCall_frame a x
    refine ⟨h.own.appCall x hs, h.virgin.appCall x, ?_, ?_⟩
    · rw [Blockless, hem]
      exact h.blockless
    · rw [Unmarked, hq]
      exact h.unmarked
  stepI := by
    intro a a' h hstep
    obtain ⟨hown, hv⟩ := (handshake_kept (F := F)).stepI ⟨h.own, h.virgin⟩ hstep
    exact ⟨hown, hv, h.blockless.step h.own h.virgin.state hstep,
      h.unmarked.step (h.virgin.state ▸ not_sending_synSent) hstep⟩
  join := by
    intro a b ta pkt iss now rnd hfa h hmem hl
    obtain ⟨hfresh, hj⟩ := accept_joint hfa h.own h.virgin hmem hl
    obtain ⟨hbl, hum, hfrags, hdel⟩ := fresh_start hfresh
    refine ⟨_, hfresh.follows, hj, .opened h.virgin.unaPos h.unmarked hfrags hdel hbl, ?_, ?_⟩
    · exact fun _ => ⟨h.blockless, hum⟩
    · exact fun hne => absurd h.virgin.state hne
  appA := fun x h hs => h.appCallA x hs
  appB := fun x h hs => h.appCallB x hs
  stepA := fun h hh hstep => h.stepA hh hstep
  stepB := fun h hh hstep => h.stepB hh hstep

end System
end TcpStack
