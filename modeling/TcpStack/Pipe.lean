import TcpStack.Coverage

/-!
# The pipe estimate

What the scoreboard counts as in flight, as a sum over the queue. Resending
the lost segments lifts the estimate to everything not selectively
acknowledged, and a new segment adds its own length.
-/
namespace TcpStack
open Tcp TcpStack.Seq TcpStack.Circle

namespace Unacked

def len (s : Unacked) : Nat := (s.endSeq - s.startSeq).toNat

end Unacked

namespace RetxQueue

def counts (segments : List Unacked) (thresh : Nat) (s : Unacked) : Bool :=
  !s.sacked && (!isLost segments thresh s || decide (s.retries > 0#32))

def total (segments : List Unacked) : Nat := (segments.map Unacked.len).sum

def unsacked (segments : List Unacked) : Nat := total (segments.filter (fun s => !s.sacked))

theorem total_cons (s : Unacked) (segments : List Unacked) :
    total (s :: segments) = s.len + total segments := List.sum_cons

theorem pipe_eq (q : RetxQueue) (thresh : Nat) :
    q.pipe thresh = BitVec.ofNat 32 (total (q.segments.filter (counts q.segments thresh))) := by
  have hfold : ∀ (segs : List Unacked) (acc : U32), segs.foldl (fun pipe s =>
      if s.sacked then pipe
      else if !isLost q.segments thresh s || decide (s.retries > 0#32) then pipe + (s.endSeq - s.startSeq)
      else pipe) acc = acc + BitVec.ofNat 32 (total (segs.filter (counts q.segments thresh))) := by
    intro segs
    induction segs with
    | nil => intro acc; simp [total]
    | cons s segs ih =>
        intro acc
        have hlen : s.endSeq - s.startSeq = BitVec.ofNat 32 s.len := by
          rw [Unacked.len, BitVec.ofNat_toNat, BitVec.setWidth_eq]
        rw [List.foldl_cons, ih]
        cases hs : s.sacked with
        | true => simp [counts, hs]
        | false =>
            cases hc : (!isLost q.segments thresh s || decide (s.retries > 0#32)) with
            | true =>
                rw [List.filter_cons_of_pos (by simp [counts, hs, hc]), total_cons, hlen, BitVec.ofNat_add]
                simp [BitVec.add_assoc]
            | false => rw [List.filter_cons_of_neg (by simp [counts, hs, hc])]; simp
  rw [pipe, hfold, BitVec.zero_add]

theorem total_filter_le {p q : Unacked → Bool} (segments : List Unacked)
    (h : ∀ s, p s = true → q s = true) :
    total (segments.filter p) ≤ total (segments.filter q) := by
  induction segments with
  | nil => exact le_rfl
  | cons s segments ih =>
      by_cases hp : p s = true
      · rw [List.filter_cons_of_pos hp, List.filter_cons_of_pos (h s hp), total_cons, total_cons]
        omega
      · by_cases hq : q s = true
        · rw [List.filter_cons_of_neg hp, List.filter_cons_of_pos hq, total_cons]
          omega
        · rw [List.filter_cons_of_neg hp, List.filter_cons_of_neg hq]
          exact ih

theorem counts_le_unsacked (segments : List Unacked) (thresh : Nat) :
    total (segments.filter (counts segments thresh)) ≤ unsacked segments :=
  total_filter_le segments fun _ hs => (Bool.and_eq_true_iff.mp hs).1

theorem unsacked_le_total (segments : List Unacked) : unsacked segments ≤ total segments := by
  have h := total_filter_le segments (p := fun s => !s.sacked) (q := fun _ => true) fun _ _ => rfl
  rwa [List.filter_true] at h

theorem unsacked_congr {xs ys : List Unacked} (h : xs.map Unacked.queued = ys.map Unacked.queued) :
    unsacked xs = unsacked ys ∧ total xs = total ys := by
  have hsum : ∀ segs : List Unacked, unsacked segs = (((segs.map Unacked.queued).filter
      (fun q => !q.sacked)).map (fun q => (q.endSeq - q.startSeq).toNat)).sum := by
    intro segs
    rw [List.filter_map, List.map_map]
    rfl
  have htot : ∀ segs : List Unacked, total segs =
      ((segs.map Unacked.queued).map (fun q => (q.endSeq - q.startSeq).toNat)).sum := by
    intro segs
    rw [List.map_map]
    rfl
  rw [hsum, hsum, htot, htot, h]
  exact ⟨rfl, rfl⟩

theorem pipe_of_resent {q : RetxQueue} {thresh : Nat}
    (h : ∀ s ∈ q.segments, s.sacked = false → s.retries = 0#32 → isLost q.segments thresh s = false) :
    q.pipe thresh = BitVec.ofNat 32 (unsacked q.segments) := by
  have hcounts : q.segments.filter (counts q.segments thresh) = q.segments.filter (fun s => !s.sacked) := by
    refine List.filter_congr fun s hs => ?_
    cases hsack : s.sacked with
    | true => simp [counts, hsack]
    | false =>
        by_cases hr : s.retries = 0#32
        · simp [counts, hsack, h s hs hsack hr]
        · simp [counts, hsack, (BitVec.pos_iff_ne_zero _).mpr hr]
  rw [pipe_eq, hcounts, unsacked]

def once (segments : List Unacked) : Nat := (segments.filter (fun s => s.retries = 0#32)).length

theorem once_resend {l r : List Unacked} {s : Unacked} (h : s.retries = 0#32) (nowMs : U64) :
    once (l ++ s.resend nowMs :: r) < once (l ++ s :: r) := by
  have hnew : (s.resend nowMs).retries ≠ 0#32 := h ▸ s.resend_retries nowMs
  simp [once, List.filter_append, h, hnew]

theorem isLost_snoc {segments : List Unacked} {new : Unacked} (h : new.sacked = false) (thresh : Nat) :
    isLost (segments ++ [new]) thresh = isLost segments thresh := by
  funext s
  have hnil : [new].filter (fun r => r.sacked && after r.startSeq s.startSeq) = [] := by simp [h]
  rw [isLost, isLost, List.filter_append, hnil, List.append_nil]

/-- A new segment adds its own length to the estimate, unless it counts as lost. -/
theorem pipe_record (q : RetxQueue) (startSeq endSeq : U32) (pkt : Bytes) (now : U64) (thresh : Nat) :
    (q.record startSeq endSeq pkt now).pipe thresh =
      if isLost q.segments thresh ⟨startSeq, endSeq, pkt, now, 0#32, false⟩ then q.pipe thresh
      else q.pipe thresh + (endSeq - startSeq) := by
  have hlost := @isLost_snoc q.segments ⟨startSeq, endSeq, pkt, now, 0#32, false⟩ rfl thresh
  simp only [pipe, record, hlost, List.foldl_append, List.foldl_cons, List.foldl_nil, Bool.false_eq_true, if_false]
  cases isLost q.segments thresh ⟨startSeq, endSeq, pkt, now, 0#32, false⟩ <;> simp

end RetxQueue

theorem Spans.len {iss : U32} {s : Unacked} {a m : Nat} (h : Spans iss s.queued a m) : s.len = m - a := by
  have hpos := h.pos
  have hshort := h.short
  rw [Unacked.len, show s.startSeq = _ from h.startSeq, show s.endSeq = _ from h.endSeq,
    point_sub_point _ (by omega), Nat.mod_eq_of_lt (by omega)]

theorem Chain.total {iss : U32} {a b : Nat} {segs : List Unacked}
    (h : Chain iss a (segs.map Unacked.queued) b) : RetxQueue.total segs = b - a := by
  induction segs generalizing a with
  | nil =>
      obtain rfl : a = b := h
      exact (Nat.sub_self a).symm
  | cons s rest ih =>
      obtain ⟨m, hs, hrest⟩ := h
      have hpos := hs.pos
      have hle := hrest.le
      rw [RetxQueue.total_cons, ih hrest, hs.len]
      omega

/-- A queue that covers less than half the sequence space adds up to less than all of it. -/
theorem Covers.total_lt {iss : U32} {u v : Nat} {segs : List Unacked}
    (h : Covers iss u (segs.map Unacked.queued) v) (hnear : v - u ≤ 2 ^ 31) :
    RetxQueue.total segs < 2 ^ 32 := by
  cases segs with
  | nil => simp [RetxQueue.total]
  | cons s rest =>
      obtain ⟨a, e, hs, -, hlt, hrest⟩ := h
      have hshort := hs.short
      have hle := hrest.le
      rw [RetxQueue.total_cons, hs.len, hrest.total]
      omega

/-- Nothing in the queue is above its end, so a segment there is not lost. Only
the oldest one can be half the sequence space back and compare as above. -/
theorem Covers.isLost_end {iss : U32} {u v : Nat} {segs : List Unacked}
    (h : Covers iss u (segs.map Unacked.queued) v) (hnear : v - u < 2 ^ 31) {new : Unacked}
    (hnew : new.startSeq = point iss v) : RetxQueue.isLost segs dupThresh new = false := by
  have hfew : (segs.filter (fun s => s.sacked && after s.startSeq new.startSeq)).length ≤ 1 := by
    cases segs with
    | nil => exact Nat.zero_le 1
    | cons s rest =>
        obtain ⟨a, e, hs, -, hlt, hrest⟩ := h
        have hnil : rest.filter (fun s => s.sacked && after s.startSeq new.startSeq) = [] := by
          rw [List.filter_eq_nil_iff]
          intro r hr
          obtain ⟨i, j, hij, hei, hjv⟩ := hrest.spans (List.mem_map_of_mem hr)
          have hpos := hij.pos
          have hafter : after r.startSeq new.startSeq = false := by
            rw [hnew, show r.startSeq = _ from hij.startSeq, after_point (by omega) (by omega),
              decide_eq_false_iff_not]
            omega
          simp [hafter]
        rw [List.filter_cons, hnil]
        split
        · exact le_rfl
        · exact Nat.zero_le 1
  have hthresh : ¬ (segs.filter (fun s => s.sacked && after s.startSeq new.startSeq)).length ≥ dupThresh := by
    rw [dupThresh]
    omega
  rw [RetxQueue.isLost, decide_eq_false hthresh, Bool.and_false]

namespace Connection

/-- The hole loop goes on until the pipe is full or every lost segment was resent. -/
theorem retransmitHoles_pipe (limit : U32) (now : U64) (fuel : Nat) : ∀ q : RetxQueue,
    RetxQueue.once q.segments ≤ fuel →
    (retransmitHoles limit now fuel q).1.segments.map Unacked.queued = q.segments.map Unacked.queued ∧
    (limit ≤ (retransmitHoles limit now fuel q).1.pipe dupThresh ∨
      (retransmitHoles limit now fuel q).1.pipe dupThresh = BitVec.ofNat 32 (RetxQueue.unsacked q.segments)) := by
  induction fuel with
  | zero =>
      intro q honce
      have hnone : ∀ s ∈ q.segments, s.retries ≠ 0#32 := by
        intro s hs hr
        have hmem : s ∈ q.segments.filter (fun s => s.retries = 0#32) := List.mem_filter.mpr ⟨hs, by simpa using hr⟩
        have hpos := List.length_pos_of_mem hmem
        rw [RetxQueue.once] at honce
        omega
      exact ⟨rfl, .inr (RetxQueue.pipe_of_resent fun s hs _ hr => absurd hr (hnone s hs))⟩
  | succ fuel ih =>
      intro q honce
      simp only [retransmitHoles]
      by_cases hroom : q.pipe dupThresh < limit
      · simp only [hroom, if_true]
        have hres := q.nextLostRetransmit_resent dupThresh now
        rcases q.nextLostRetransmit_cases dupThresh now with ⟨heq, hall⟩ | ⟨l, s, r, hsplit, -, hs, heq⟩
        · rw [heq]
          refine ⟨rfl, .inr (RetxQueue.pipe_of_resent fun s hs hsack hr => ?_)⟩
          simpa [hsack, hr] using hall s hs
        · simp only [Bool.and_eq_true, decide_eq_true_eq] at hs
          have hfewer := RetxQueue.once_resend (l := l) (r := r) hs.1.2 now
          rw [heq] at hres ⊢
          obtain ⟨hq, hr⟩ := ih { q with segments := l ++ s.resend now :: r }
              (by rw [hsplit] at honce; dsimp only; omega)
          refine ⟨hq.trans hres.1, ?_⟩
          rw [← (RetxQueue.unsacked_congr hres.1).1]
          exact hr
      · simp only [hroom, if_false]
        exact ⟨trivial, .inl (BitVec.not_lt.mp hroom)⟩

/-- The hole loop leaves room for new data exactly as far as the limit exceeds
everything that is not selectively acknowledged. -/
theorem retransmitHoles_room (limit : U32) (now : U64) {q : RetxQueue} {fuel : Nat}
    (honce : RetxQueue.once q.segments ≤ fuel) (hlt : RetxQueue.total q.segments < 2 ^ 32) :
    (retransmitHoles limit now fuel q).1.segments.map Unacked.queued = q.segments.map Unacked.queued ∧
    limit.toNat - ((retransmitHoles limit now fuel q).1.pipe dupThresh).toNat =
      limit.toNat - RetxQueue.unsacked q.segments := by
  obtain ⟨hq, hpipe⟩ := retransmitHoles_pipe limit now fuel q honce
  refine ⟨hq, ?_⟩
  have hle := RetxQueue.unsacked_le_total q.segments
  rcases hpipe with hfull | heq
  · -- the estimate is at most everything outstanding
    have hcount := RetxQueue.counts_le_unsacked (retransmitHoles limit now fuel q).1.segments dupThresh
    rw [(RetxQueue.unsacked_congr hq).1] at hcount
    rw [BitVec.le_def, RetxQueue.pipe_eq, BitVec.toNat_ofNat, Nat.mod_eq_of_lt (by omega)] at hfull
    rw [RetxQueue.pipe_eq, BitVec.toNat_ofNat, Nat.mod_eq_of_lt (by omega)]
    omega
  · rw [heq, BitVec.toNat_ofNat, Nat.mod_eq_of_lt (by omega)]

end Connection
end TcpStack
