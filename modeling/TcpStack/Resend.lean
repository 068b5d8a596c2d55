import TcpStack.Delivery
import TcpStack.Pipe
import TcpStack.Silence

/-!
# What is resent

Five paths put a stored packet on the wire again: the three timers of a tick,
the hole loop of SACK recovery and the fast retransmit of an acknowledgement.
For each call the module says, from the state the call finds, which queued
segments it resends.
-/
namespace TcpStack
open Tcp TcpStack.Seq

namespace RetxQueue

def lostOnce (q : RetxQueue) (s : Unacked) : Bool :=
  !s.sacked && decide (s.retries = 0#32) && isLost q.segments dupThresh s

/-- The first of the segments, as long as the pipe is below the limit; each one
counts before the next is looked at. -/
def holesWithin (limit : U32) : U32 → List Unacked → List Unacked
  | _, [] => []
  | pipe, s :: rest => if pipe < limit then s :: holesWithin limit (pipe + (s.endSeq - s.startSeq)) rest else []

theorem holesWithin_mem {limit pipe : U32} {segments : List Unacked} {s : Unacked}
    (h : s ∈ holesWithin limit pipe segments) : s ∈ segments := by
  induction segments generalizing pipe with
  | nil => cases h
  | cons t rest ih =>
      unfold holesWithin at h
      split_ifs at h
      · rcases List.mem_cons.mp h with rfl | h
        · exact List.mem_cons_self ..
        · exact List.mem_cons_of_mem _ (ih h)
      · cases h

theorem isLost_resend (l r : List Unacked) (s : Unacked) (nowMs : U64) (thresh : Nat) :
    isLost (l ++ s.resend nowMs :: r) thresh = isLost (l ++ s :: r) thresh := by
  funext t
  have hsame : ∀ u : Unacked, ((l ++ s.resend nowMs :: r).filter
      (fun s => s.sacked && after s.startSeq u.startSeq)).length =
      ((l ++ s :: r).filter (fun s => s.sacked && after s.startSeq u.startSeq)).length := by
    intro u
    simp only [List.filter_append, List.filter_cons, List.length_append]
    change _ + (if s.sacked && after s.startSeq u.startSeq then _ else _ : List Unacked).length = _
    split <;> simp
  rw [isLost, isLost, hsame]

theorem pipe_resend {q : RetxQueue} {l r : List Unacked} {s : Unacked} (hq : q.segments = l ++ s :: r)
    (hs : q.lostOnce s = true) (nowMs : U64) :
    RetxQueue.pipe { q with segments := l ++ s.resend nowMs :: r } dupThresh =
      q.pipe dupThresh + (s.endSeq - s.startSeq) := by
  simp only [lostOnce, Bool.and_eq_true, Bool.not_eq_true', decide_eq_true_eq] at hs
  obtain ⟨⟨hsack, hretries⟩, hlost⟩ := hs
  have hcounts : counts (l ++ s.resend nowMs :: r) dupThresh = counts (l ++ s :: r) dupThresh := by
    funext t
    rw [counts, counts, isLost_resend]
  have hold : counts (l ++ s :: r) dupThresh s = false := by
    rw [counts, ← hq, hlost, hretries]
    simp
  have hnew : counts (l ++ s :: r) dupThresh (s.resend nowMs) = true := by
    simp [counts, Unacked.resend, hsack, hretries]
  have hsplit : ∀ a b : List Unacked, total (a ++ b) = total a + total b := by
    intro a b
    rw [total, List.map_append, List.sum_append]
    rfl
  have hlen : s.endSeq - s.startSeq = BitVec.ofNat 32 s.len := by
    rw [Unacked.len, BitVec.ofNat_toNat, BitVec.setWidth_eq]
  rw [pipe_eq, pipe_eq, hq, hcounts, List.filter_append, List.filter_append, List.filter_cons_of_pos hnew,
    List.filter_cons_of_neg (by simp [hold]), hsplit, hsplit, total_cons, hlen, ← BitVec.ofNat_add]
  congr 1
  change _ + (s.len + _) = _
  omega

end RetxQueue

variable {F : Type} [F64 F]

namespace Connection
open RetxQueue

/-- One round of the hole loop: it stops, or sends the first of the lost
segments again, which then counts in the pipe and is no longer looked for. -/
theorem retransmitHoles_round (limit : U32) (now : U64) (q : RetxQueue) :
    ((q.pipe dupThresh < limit → q.segments.filter q.lostOnce = []) ∧
      ∀ fuel, retransmitHoles limit now fuel q = (q, [])) ∨
    ∃ s q', q.pipe dupThresh < limit ∧ q.segments.filter q.lostOnce = s :: q'.segments.filter q'.lostOnce ∧
      q'.pipe dupThresh = q.pipe dupThresh + (s.endSeq - s.startSeq) ∧
      q'.segments.map Unacked.len = q.segments.map Unacked.len ∧
      ∀ fuel, retransmitHoles limit now (fuel + 1) q =
        ((retransmitHoles limit now fuel q').1, s.packet :: (retransmitHoles limit now fuel q').2) := by
  by_cases hroom : q.pipe dupThresh < limit
  swap
  · refine .inl ⟨fun h => absurd h hroom, fun fuel => ?_⟩
    cases fuel with
    | zero => rfl
    | succ fuel => rw [retransmitHoles, if_neg hroom]
  rcases q.nextLostRetransmit_cases dupThresh now with ⟨heq, hall⟩ | ⟨l, s, r, hq, hl, hs, heq⟩
  · refine .inl ⟨fun _ => List.filter_eq_nil_iff.mpr fun s hs => Bool.not_eq_true _ ▸ hall s hs, fun fuel => ?_⟩
    cases fuel with
    | zero => rfl
    | succ fuel => rw [retransmitHoles, if_pos hroom, heq]
  · have hlost : q.lostOnce s = true := hs
    have hnil : l.filter q.lostOnce = [] :=
      List.filter_eq_nil_iff.mpr fun t ht => Bool.not_eq_true _ ▸ hl t ht
    have hfilter : q.segments.filter q.lostOnce = s :: r.filter q.lostOnce := by
      conv_lhs => rw [hq]
      rw [List.filter_append, hnil, List.filter_cons_of_pos hlost, List.nil_append]
    -- the segment is no longer one of those sent only once
    have hagain : q.lostOnce (s.resend now) = false := by
      simp only [lostOnce, Bool.and_eq_true, decide_eq_true_eq] at hlost
      simp [lostOnce, Unacked.resend, hlost.1.2]
    have hrest : (l ++ s.resend now :: r).filter
        (lostOnce { q with segments := l ++ s.resend now :: r }) = r.filter q.lostOnce := by
      have hsame : lostOnce { q with segments := l ++ s.resend now :: r } = q.lostOnce := by
        funext t
        simp only [lostOnce, isLost_resend, hq]
      rw [hsame, List.filter_append, hnil, List.filter_cons_of_neg (Bool.eq_false_iff.mp hagain), List.nil_append]
    refine .inr ⟨s, { q with segments := l ++ s.resend now :: r }, hroom, ?_, pipe_resend hq hlost now, ?_,
      fun fuel => ?_⟩
    · rw [hrest]
      exact hfilter
    · rw [hq, List.map_append, List.map_append]
      rfl
    · rw [retransmitHoles, if_pos hroom, heq]

theorem retransmitHoles_holes (limit : U32) (now : U64) (fuel : Nat) : ∀ q : RetxQueue,
    (q.segments.filter q.lostOnce).length ≤ fuel →
    (retransmitHoles limit now fuel q).2 =
      (holesWithin limit (q.pipe dupThresh) (q.segments.filter q.lostOnce)).map Unacked.packet := by
  induction fuel with
  | zero =>
      intro q hlen
      rw [List.eq_nil_of_length_eq_zero (Nat.le_zero.mp hlen)]
      rfl
  | succ fuel ih =>
      intro q hlen
      rcases retransmitHoles_round limit now q with ⟨hnil, hstop⟩ | ⟨s, q', hroom, hfilter, hpipe, -, hgo⟩
      · rw [hstop]
        by_cases hroom : q.pipe dupThresh < limit
        · rw [hnil hroom]
          rfl
        · cases q.segments.filter q.lostOnce <;> simp [holesWithin, hroom]
      · rw [hfilter, List.length_cons] at hlen
        have hnext := ih q' (by omega)
        rw [hpipe] at hnext
        rw [hgo, hnext, hfilter, holesWithin, if_pos hroom, List.map_cons]

/-- The segment that a tail loss probe would take. -/
def tail (c : Connection F) : Option Unacked := c.retx.segments.reverse.find? (fun s => !s.sacked)

/-- One of the three retransmission timers takes the segment. -/
def TimerTakes (c : Connection F) (now : U64) (s : Unacked) : Prop :=
  s ∈ c.retx.segments ∧ s.sacked = false ∧
    (Exposes c now s ∨ saturatingSub now s.sentAtMs ≥ c.rtt.rto ∨ (ProbeDue c now ∧ c.tail = some s))

/-- A queue in which some packets of `out` were sent again. -/
structure Swept (old new : List Unacked) (out : List Bytes) : Prop where
  back : ∀ t ∈ new, ∃ s ∈ old, t.packet = s.packet ∧ t.sacked = s.sacked ∧ (t = s ∨ s.packet ∈ out)
  forth : ∀ s ∈ old, s ∈ new ∨ s.packet ∈ out

theorem Swept.of_map {old : List Unacked} {out : List Bytes} {f : Unacked → Unacked}
    (hf : ∀ s ∈ old, (f s).packet = s.packet ∧ (f s).sacked = s.sacked ∧ (f s = s ∨ s.packet ∈ out)) :
    Swept old (old.map f) out where
  back := by
    intro t ht
    obtain ⟨s, hs, rfl⟩ := List.mem_map.mp ht
    exact ⟨s, hs, hf s hs⟩
  forth := by
    intro s hs
    rcases (hf s hs).2.2 with heq | hout
    · exact .inl (heq ▸ List.mem_map_of_mem hs)
    · exact .inr hout

theorem Swept.trans {a b d : List Unacked} {out out' : List Bytes} (h : Swept a b out) (h' : Swept b d out') :
    Swept a d (out ++ out') where
  back := by
    intro t ht
    obtain ⟨u, hu, hp', hs', hkeep'⟩ := h'.back t ht
    obtain ⟨s, hs, hp, hsack, hkeep⟩ := h.back u hu
    refine ⟨s, hs, hp'.trans hp, hs'.trans hsack, ?_⟩
    rcases hkeep' with rfl | hout'
    · exact hkeep.imp id (List.mem_append_left _)
    · exact .inr (List.mem_append_right _ (hp ▸ hout'))
  forth := by
    intro s hs
    rcases h.forth s hs with hs | hout
    · exact (h'.forth s hs).imp id (List.mem_append_right _)
    · exact .inr (List.mem_append_left _ hout)

theorem Swept.refl (a : List Unacked) : Swept a a [] :=
  ⟨fun t ht => ⟨t, ht, rfl, rfl, .inl rfl⟩, fun _ hs => .inl hs⟩

theorem resendWhere_swept (p : Unacked → Bool) (now : U64) (segments : List Unacked) :
    Swept segments (resendWhere p now segments).1 (resendWhere p now segments).2 := by
  refine Swept.of_map fun s hs => ?_
  split_ifs with hp
  · exact ⟨rfl, rfl, .inr (List.mem_map_of_mem (List.mem_filter.mpr ⟨hs, hp⟩))⟩
  · exact ⟨rfl, rfl, .inl rfl⟩

theorem mem_resendWhere {p : Unacked → Bool} (now : U64) {segments : List Unacked} {pkt : Bytes} :
    pkt ∈ (resendWhere p now segments).2 ↔ ∃ s ∈ segments, p s = true ∧ s.packet = pkt := by
  simp only [resendWhere, List.mem_map, List.mem_filter, and_assoc]

theorem mem_tickRack {c : Connection F} {now : U64} {p : Bytes} :
    p ∈ (c.tickRack now).2 ↔ ∃ s ∈ c.retx.segments, s.sacked = false ∧ Exposes c now s ∧ s.packet = p := by
  refine (mem_resendWhere now).trans (exists_congr fun s => and_congr_right fun _ => ?_)
  rw [← and_assoc]
  refine and_congr_left fun _ => ?_
  cases s.sacked <;> simp [Exposes, and_assoc]

theorem tickRack_tail (c : Connection F) (now : U64) :
    (c.tickRack now).1.tail.map Unacked.packet = c.tail.map Unacked.packet := by
  simp only [tail, tickRack, rackMarkLost, resendWhere, ← List.map_reverse, List.find?_map, Option.map_map]
  congr 1
  · funext s
    dsimp only [Function.comp]
    split_ifs <;> rfl
  · congr 1
    funext s
    dsimp only [Function.comp]
    split_ifs <;> rfl

theorem tickProbe_swept (c : Connection F) (now : U64) :
    (∀ p, p ∈ (c.tickProbe now).2 ↔ ProbeDue c now ∧ p ∈ c.tail.map Unacked.packet) ∧
      Swept c.retx.segments (c.tickProbe now).1.retx.segments (c.tickProbe now).2 := by
  have hiff : (c.tlpDeadlineMs ≠ 0#64 ∧ now ≥ c.tlpDeadlineMs ∧ c.flightSize > 0#32 ∧
      (!c.cong.inRecovery) = true ∧ (!c.tlpSent) = true) ↔ ProbeDue c now := by simp [ProbeDue]
  have hpacket := resendFirst_packet (fun s => !s.sacked) now c.retx.segments.reverse
  unfold tickProbe
  by_cases hdue : ProbeDue c now
  swap
  · rw [if_neg (mt hiff.mp hdue)]
    exact ⟨fun p => by simp [hdue], .refl _⟩
  rw [if_pos (hiff.mpr hdue), retransmitLast]
  cases hfirst : resendFirst (fun s => !s.sacked) now c.retx.segments.reverse with
  | none =>
      rw [hfirst] at hpacket
      refine ⟨fun p => ?_, .refl _⟩
      rw [tail, ← hpacket]
      simp
  | some found =>
      obtain ⟨segments', pkt⟩ := found
      rw [hfirst] at hpacket
      refine ⟨fun p => ?_, ?_⟩
      · rw [tail, ← hpacket]
        simp [hdue, eq_comm]
      · obtain ⟨l, s, r, hq, -, -, rfl, rfl⟩ := resendFirst_split hfirst
        have hseg : c.retx.segments = r.reverse ++ s :: l.reverse := by
          rw [← List.reverse_reverse c.retx.segments, hq]
          simp
        dsimp only
        rw [hseg]
        constructor
        · intro t ht
          simp only [List.reverse_append, List.reverse_cons, List.append_assoc, List.singleton_append,
            List.mem_append, List.mem_cons] at ht ⊢
          rcases ht with ht | rfl | ht
          · exact ⟨t, .inl ht, rfl, rfl, .inl rfl⟩
          · exact ⟨s, .inr (.inl rfl), rfl, rfl, .inr (.inl rfl)⟩
          · exact ⟨t, .inr (.inr ht), rfl, rfl, .inl rfl⟩
        · intro t ht
          simp only [List.reverse_append, List.reverse_cons, List.append_assoc, List.singleton_append,
            List.mem_append, List.mem_cons] at ht ⊢
          rcases ht with ht | rfl | ht
          · exact .inl (.inl ht)
          · exact .inr (.inl rfl)
          · exact .inl (.inr (.inr ht))

theorem mem_tickDue {c : Connection F} {now : U64} {p : Bytes} : p ∈ (c.tickDue now).2 ↔
    ∃ s ∈ c.retx.segments, s.sacked = false ∧ saturatingSub now s.sentAtMs ≥ c.rtt.rto ∧ s.packet = p := by
  rw [tickDue_packets]
  refine (mem_resendWhere now).trans (exists_congr fun s => and_congr_right fun _ => ?_)
  cases s.sacked <;> simp

theorem mem_timers {c : Connection F} {now : U64} {p : Bytes} :
    p ∈ (c.tickRack now).2 ++ ((c.tickRack now).1.tickProbe now).2 ++
        (((c.tickRack now).1.tickProbe now).1.tickDue now).2 ↔
      ∃ s, TimerTakes c now s ∧ s.packet = p := by
  have hrack : Swept c.retx.segments (c.tickRack now).1.retx.segments (c.tickRack now).2 :=
    resendWhere_swept _ now c.retx.segments
  obtain ⟨hprobe, hswept⟩ := tickProbe_swept (c.tickRack now).1 now
  have hboth := hrack.trans hswept
  have hdue : ProbeDue (c.tickRack now).1 now ↔ ProbeDue c now := Iff.rfl
  rw [tickRack_tail, hdue] at hprobe
  have hrto : ((c.tickRack now).1.tickProbe now).1.rtt.rto = c.rtt.rto := by
    obtain ⟨q, t, sent, hp⟩ := tickProbe_eq (c.tickRack now).1 now
    rw [hp]
    rfl
  have htail : ∀ {s : Unacked}, c.tail = some s → s ∈ c.retx.segments ∧ s.sacked = false := by
    intro s hs
    exact ⟨List.mem_reverse.mp (List.mem_of_find?_eq_some hs), by simpa using List.find?_some hs⟩
  -- the two timers before the last take only what a timer takes
  have hearly : ∀ {p}, p ∈ (c.tickRack now).2 ++ ((c.tickRack now).1.tickProbe now).2 →
      ∃ s, TimerTakes c now s ∧ s.packet = p := by
    intro p hp
    rcases List.mem_append.mp hp with hp | hp
    · obtain ⟨s, hs, hsack, hex, rfl⟩ := mem_tickRack.mp hp
      exact ⟨s, ⟨hs, hsack, .inl hex⟩, rfl⟩
    · obtain ⟨hd, hmem⟩ := (hprobe p).mp hp
      obtain ⟨s, hs, rfl⟩ := Option.map_eq_some_iff.mp hmem
      exact ⟨s, ⟨(htail hs).1, (htail hs).2, .inr (.inr ⟨hd, hs⟩)⟩, rfl⟩
  constructor
  · intro hp
    rcases List.mem_append.mp hp with hp | hp
    · exact hearly hp
    · obtain ⟨t, ht, hsack, hlate, rfl⟩ := mem_tickDue.mp hp
      obtain ⟨s, hs, hpkt, hst, rfl | hout⟩ := hboth.back t ht
      · exact ⟨t, ⟨hs, hsack, .inr (.inl (hrto ▸ hlate))⟩, rfl⟩
      · exact hpkt ▸ hearly hout
  · rintro ⟨s, ⟨hs, hsack, hex | hlate | ⟨hd, htl⟩⟩, rfl⟩
    · exact List.mem_append_left _ (List.mem_append_left _ (mem_tickRack.mpr ⟨s, hs, hsack, hex, rfl⟩))
    · rcases hboth.forth s hs with hkept | hout
      · exact List.mem_append_right _ (mem_tickDue.mpr ⟨s, hkept, hsack, hrto ▸ hlate, rfl⟩)
      · exact List.mem_append_left _ hout
    · refine List.mem_append_left _ (List.mem_append_right _ ((hprobe _).mpr ⟨hd, ?_⟩))
      rw [htl]
      rfl

/-- The answer is none, an ACK or an ACK with SACK blocks, from the state left behind. -/
def Plain (r : Connection F × Option Bytes) : Prop :=
  r.2 = none ∨ r.2 = some r.1.bareAck ∨ r.2 = some (r.1.segmentOpts r.1.send.nxt r.1.recv.nxt ACK r.1.ackOptions [])

theorem maybeChallenge_plain (c : Connection F) (now : U64) (rnd : U32) : Plain (c.maybeChallenge now rnd) := by
  simp only [maybeChallenge]
  split_ifs
  · exact .inl rfl
  · exact .inr (.inl rfl)
  · exact .inl rfl
  · exact .inr (.inl rfl)

theorem receive_plain (c : Connection F) (th : TcpHeader) (payload : Bytes) : Plain (c.receive th payload) := by
  unfold receive
  generalize c.deliver th.seq payload = d
  dsimp only
  split_ifs
  · exact .inr (.inl rfl)
  · exact .inr (.inl rfl)
  · exact .inr (.inr rfl)
  · exact .inl rfl
  · exact .inr (.inl rfl)
  · exact .inr (.inr rfl)
  · exact .inl rfl

/-- The acknowledgement makes the handler send `s` again. -/
def Diverts (c : Connection F) (seg : Segment) (s : Unacked) : Prop :=
  ¬ OldTimestamp c seg ∧ Accepts c seg ∧ c.hole seg = some s

theorem onOpen_answers (c : Connection F) (seg : Segment) (now : U64) (rnd : U32) :
    (∃ s, Diverts c seg s ∧ (c.onOpen seg.th seg.payload seg.opts now rnd).2 = some s.packet) ∨
      ((∀ s, ¬ Diverts c seg s) ∧ Plain (c.onOpen seg.th seg.payload seg.opts now rnd)) := by
  unfold onOpen
  cases hp : c.paws seg.th seg.opts with
  | none =>
      right
      refine ⟨fun s hs => ?_, .inr (.inl rfl)⟩
      have hsome := (paws_isSome_iff c seg).mpr hs.1
      rw [hp] at hsome
      cases hsome
  | some d =>
      have hcur : ¬ OldTimestamp c seg := by
        rw [← paws_isSome_iff, hp]
        rfl
      have hd : d.hole seg = c.hole seg ∧ (Accepts c seg ↔ (hasFlag seg.th.flags ACK = true →
          (d.updateWindow (d.scaledWindow seg.th)).ackAcceptable seg.th.ack = true)) := by
        obtain ⟨t, rfl⟩ := paws_eq hp
        exact ⟨rfl, Iff.rfl⟩
      obtain ⟨hhole, hacc⟩ := hd
      dsimp only
      by_cases hack : hasFlag seg.th.flags ACK = true
      swap
      · have hnone : c.hole seg = none := by
          rw [hole, if_pos (Bool.eq_false_iff.mpr hack)]
        rw [if_neg hack]
        exact .inr ⟨fun s hs => (Option.some_ne_none s (hs.2.2.symm.trans hnone)).elim, receive_plain ..⟩
      have hpkt := processAck_packet d hack now
      rw [if_pos hack]
      generalize d.updateWindow (d.scaledWindow seg.th) = u at hacc hpkt
      cases hok : u.ackAcceptable seg.th.ack with
      | false =>
          rw [if_pos (Bool.not_false : (!false) = true)]
          refine .inr ⟨fun s hs => ?_, maybeChallenge_plain u now rnd⟩
          rw [hacc.mp hs.2.1 hack] at hok
          cases hok
      | true =>
          generalize u.processAck seg.th seg.payload seg.opts d.send.wnd (d.scaledWindow seg.th) now = r at hpkt
          obtain ⟨v, pkt⟩ := r
          dsimp only at hpkt
          rw [hhole] at hpkt
          cases hh : c.hole seg with
          | none =>
              rw [hh] at hpkt
              subst hpkt
              exact .inr ⟨fun s hs => (Option.some_ne_none s (hs.2.2.symm.trans hh)).elim, receive_plain ..⟩
          | some s =>
              rw [hh] at hpkt
              subst hpkt
              exact .inl ⟨s, ⟨hcur, hacc.mpr fun _ => hok, hh⟩, rfl⟩

theorem hole_settled {c : Connection F} (h : c.send.una = c.send.nxt) (seg : Segment) : c.hole seg = none := by
  have hpart : ¬ PartialAck c seg.th := by
    rintro ⟨hb, -⟩
    rw [h] at hb
    simp [between] at hb
  have hdup : ¬ ThirdDupAck c seg := fun hd => hd.2.1 h
  rw [hole, if_neg hpart, if_neg hdup]
  split_ifs <;> rfl

theorem onSynSent_plain (c : Connection F) (th : TcpHeader) (opts : TcpOptions) (now : U64) :
    Plain (c.onSynSent th opts now) := by
  unfold onSynSent
  split_ifs
  · exact .inr (.inl rfl)
  · exact .inl rfl

theorem onRst_plain (c : Connection F) (th : TcpHeader) (now : U64) (rnd : U32) : Plain (c.onRst th now rnd) := by
  unfold onRst
  split_ifs
  · exact .inl rfl
  · exact .inl rfl
  · exact .inl rfl
  · exact .inl rfl
  · exact maybeChallenge_plain c now rnd
  · exact .inl rfl

theorem onState_plain {c : Connection F} (h : ¬ c.state.Sending) (th : TcpHeader) (payload : Bytes)
    (opts : TcpOptions) (now : U64) (rnd : U32) : Plain (c.onState th payload opts now rnd) := by
  unfold onState
  split
  · rename_i hs
    exact absurd (.inl hs) h
  · rename_i hs
    exact absurd (.inr hs) h
  · unfold onLastAck
    split_ifs <;> exact .inl rfl
  · unfold onFinWait1
    generalize c.ackedOurFin th = acked
    dsimp only
    generalize (if acked = true then c.dropAcked th.ack now else c).deliver th.seq payload = d
    split
    · exact .inr (.inl rfl)
    · split
      · exact .inr (.inl rfl)
      · exact .inl rfl
  · unfold onFinWait2
    generalize c.deliver th.seq payload = d
    dsimp only
    split_ifs
    · exact .inr (.inl rfl)
    · exact .inr (.inl rfl)
    · exact .inl rfl
  · unfold onClosing
    split_ifs <;> exact .inl rfl
  · exact .inl rfl

/-- The queued segments that a call resends. -/
def Resent (c : Connection F) : Call → Unacked → Prop
  | .onTick now, s => TimerTakes c now s
  | .pollTransmit _, s => c.state.Sending ∧ c.sackOk = true ∧ c.cong.inRecovery = true ∧
      s ∈ holesWithin (umin c.send.wnd c.cong.window) (c.retx.pipe dupThresh) (c.retx.segments.filter c.retx.lostOnce)
  | .onSegment seg _ _, s => c.state.Sending ∧ hasFlag seg.th.flags RST = false ∧ hasFlag seg.th.flags SYN = false ∧
      Diverts c seg s
  | _, _ => False

theorem Resent.mem {c : Connection F} {x : Call} {s : Unacked} (h : c.Resent x s) : s ∈ c.retx.segments := by
  cases x with
  | onTick now => exact h.1
  | pollTransmit now => exact (List.mem_filter.mp (holesWithin_mem h.2.2.2)).1
  | onSegment seg now rnd =>
      obtain ⟨-, -, -, -, -, hhole⟩ := h
      unfold hole at hhole
      split_ifs at hhole
      · exact List.mem_of_find?_eq_some hhole
      · exact List.mem_of_find?_eq_some hhole
  | write | close | takeReceived | setNodelay | setKeepalive | useBbr => exact h.elim

theorem onSegment_answers (c : Connection F) (seg : Segment) (now : U64) (rnd : U32) :
    (∃ s, c.Resent (.onSegment seg now rnd) s ∧ (c.onSegment seg now rnd).2 = some s.packet) ∨
      ((∀ s, ¬ c.Resent (.onSegment seg now rnd) s) ∧ Plain (c.onSegment seg now rnd)) := by
  by_cases hs : c.state.Sending ∧ hasFlag seg.th.flags RST = false ∧ hasFlag seg.th.flags SYN = false
  · obtain ⟨hs, hrst, hsyn⟩ := hs
    rw [onSegment_open hs hrst hsyn]
    rcases onOpen_answers (c.arrive now) seg now rnd with ⟨s, hd, heq⟩ | ⟨hnone, hplain⟩
    · exact .inl ⟨s, ⟨hs, hrst, hsyn, hd⟩, heq⟩
    · exact .inr ⟨fun s h => hnone s h.2.2.2, hplain⟩
  · refine .inr ⟨fun s h => hs ⟨h.1, h.2.1, h.2.2.1⟩, ?_⟩
    have hstate : (c.arrive now).state = c.state := rfl
    have hsync : c.state.Sending → (c.arrive now).isSynchronized = true := by
      rintro (h | h) <;> rw [isSynchronized, hstate, h]
    unfold onSegment
    dsimp only
    split_ifs with hrst hsent hsyn
    · exact onRst_plain ..
    · exact onSynSent_plain ..
    · exact maybeChallenge_plain ..
    · have hclosed : ¬ c.state.Sending := by
        intro hopen
        rw [hsync hopen, Bool.and_true] at hsyn
        exact hs ⟨hopen, Bool.eq_false_iff.mpr hrst, Bool.eq_false_iff.mpr hsyn⟩
      unfold onSynRcvd
      split_ifs with hrcvd hacks
      · -- the handshake completes with nothing outstanding
        rcases onOpen_answers { c.arrive now with
            send := { (c.arrive now).send with una := seg.th.ack }
            retx := ((c.arrive now).retx.ack seg.th.ack now).1
            state := .established } seg now rnd with ⟨s, hd, -⟩ | ⟨-, hplain⟩
        · cases (hole_settled hacks.2 seg).symm.trans hd.2.2
        · exact hplain
      · exact .inl rfl
      · exact onState_plain (c := c.arrive now) hclosed ..

end Connection
end TcpStack
