import Mathlib.Data.List.Induction
import TcpStack.Opening

/-!
# Conservation of the sent stream

First transmissions against retransmissions on the wire: the data segments
whose sequence number had not appeared before are the pieces of the stream, in
order and without gap or overlap.
-/
namespace TcpStack
open Tcp TcpStack.Seq TcpStack.Circle

/-- Add a data segment whose sequence number is new. -/
def addFirst (acc : List Segment) (s : Segment) : List Segment :=
  if s.payload.isEmpty || acc.any (fun r => r.th.seq == s.th.seq) then acc else acc ++ [s]

/-- The data segments among the packets that no earlier data segment with the
same sequence number precedes. -/
def firstTransmissions (pkts : List Bytes) : List Segment := (pkts.filterMap decode).foldl addFirst []

/-- Each segment begins where the one before it ends, the first at position `n`. -/
def Contiguous (iss : U32) : Nat → List Segment → Prop
  | _, [] => True
  | n, s :: rest => s.th.seq = point iss n ∧ Contiguous iss (n + s.payload.length) rest

theorem firstTransmissions_snoc {pkts : List Bytes} {p : Bytes} {s : Segment} (h : decode p = some s) :
    firstTransmissions (pkts ++ [p]) = addFirst (firstTransmissions pkts) s := by
  simp [firstTransmissions, List.filterMap_append, h]

theorem firstTransmissions_silent {pkts : List Bytes} {p : Bytes} (h : decode p = none) :
    firstTransmissions (pkts ++ [p]) = firstTransmissions pkts := by
  simp [firstTransmissions, List.filterMap_append, h]

theorem addFirst_extends (acc : List Segment) (s : Segment) : acc <+: addFirst acc s := by
  unfold addFirst
  split
  · exact List.prefix_rfl
  · exact List.prefix_append _ _

theorem exists_firstTransmission {pkts : List Bytes} {p : Bytes} {s : Segment} (hp : p ∈ pkts)
    (hd : decode p = some s) (hne : s.payload ≠ []) :
    ∃ r ∈ firstTransmissions pkts, r.th.seq = s.th.seq := by
  induction pkts using List.reverseRecOn with
  | nil => cases hp
  | append_singleton pkts q ih =>
      rcases List.mem_append.mp hp with hp | hp
      · obtain ⟨r, hr, hseq⟩ := ih hp
        cases hq : decode q with
        | none =>
            rw [firstTransmissions_silent hq]
            exact ⟨r, hr, hseq⟩
        | some u =>
            rw [firstTransmissions_snoc hq]
            exact ⟨r, (addFirst_extends _ u).subset hr, hseq⟩
      · rw [← List.mem_singleton.mp hp, firstTransmissions_snoc hd, addFirst]
        split
        · rename_i hold
          simp only [Bool.or_eq_true, List.isEmpty_iff, hne, false_or, List.any_eq_true, beq_iff_eq] at hold
          exact hold
        · exact ⟨s, by simp, rfl⟩

theorem firstTransmissions_old {pkts : List Bytes} {p : Bytes} {s : Segment} (hd : decode p = some s)
    (hold : s.payload = [] ∨ p ∈ pkts) : firstTransmissions (pkts ++ [p]) = firstTransmissions pkts := by
  rw [firstTransmissions_snoc hd, addFirst, if_pos]
  by_cases hne : s.payload = []
  · simp [hne]
  · obtain ⟨r, hr, hseq⟩ := exists_firstTransmission (hold.resolve_left hne) hd hne
    simp only [Bool.or_eq_true, List.any_eq_true, beq_iff_eq]
    exact .inr ⟨r, hr, hseq⟩

theorem Contiguous.mem {iss : U32} {n : Nat} {segs : List Segment} (h : Contiguous iss n segs)
    {s : Segment} (hs : s ∈ segs) : ∃ k, n ≤ k ∧
      k + s.payload.length ≤ n + (segs.map Segment.payload).flatten.length ∧ s.th.seq = point iss k := by
  induction segs generalizing n with
  | nil => cases hs
  | cons u rest ih =>
      simp only [List.map_cons, List.flatten_cons, List.length_append]
      rcases List.mem_cons.mp hs with rfl | hs
      · exact ⟨n, le_rfl, by omega, h.1⟩
      · obtain ⟨k, hk, hend, hseq⟩ := ih h.2 hs
        exact ⟨k, by omega, by omega, hseq⟩

theorem Contiguous.snoc {iss : U32} {n : Nat} {segs : List Segment} {s : Segment}
    (h : Contiguous iss n segs)
    (hs : s.th.seq = point iss (n + (segs.map Segment.payload).flatten.length)) :
    Contiguous iss n (segs ++ [s]) := by
  induction segs generalizing n with
  | nil => exact ⟨by simpa using hs, trivial⟩
  | cons u rest ih =>
      refine ⟨h.1, ih h.2 ?_⟩
      rw [hs, List.map_cons, List.flatten_cons, List.length_append, Nat.add_assoc]

namespace Trace

/-- The first transmissions are the pieces of the stream, one after the other. -/
structure Conserved (t : Trace) : Prop where
  stream : Stream t
  payloads : (firstTransmissions t.emitted).map Segment.payload = t.pieces
  placed : Contiguous t.iss 1 (firstTransmissions t.emitted)

theorem Conserved.frame {t t' : Trace} (h : Conserved t) (hs : Stream t')
    (he : firstTransmissions t'.emitted = firstTransmissions t.emitted) (hp : t'.pieces = t.pieces)
    (hi : t'.iss = t.iss) : Conserved t' :=
  ⟨hs, by rw [he, hp]; exact h.payloads, by rw [he, hi]; exact h.placed⟩

theorem Conserved.data {t : Trace} {n : Nat} {pkt : Bytes} {s : Segment} {flags : U8} (h : Conserved t)
    (hw : t.written.length < 2 ^ 31) (hs : t.state.Sending) (hn : 0 < n) (hle : n ≤ t.sendBuf.length)
    (hf : flags = PSH ||| ACK ∨ flags = ACK)
    (hc : Carries pkt s t.nxt t.rcvNxt flags (t.sendBuf.take n) []) :
    Conserved { t.launch n pkt with
      sendBuf := t.sendBuf.drop n, pieces := t.pieces ++ [t.sendBuf.take n] } := by
  have hopen : t.closing = none := h.stream.opened hs.preFin
  have hsent : t.sent.length ≤ t.written.length := by
    rw [h.stream.written, List.length_append]
    omega
  have hlen : s.payload ≠ [] := by
    rw [hc.payload, ← List.length_pos_iff, List.length_take]
    omega
  have hseq : s.th.seq = point t.iss (1 + t.sent.length) := by
    rw [hc.seq, h.stream.nxt, nxtPos, hopen]
    rfl
  -- an earlier first transmission sits below the end of what was sent
  have hnew : (firstTransmissions t.emitted).any (fun r => r.th.seq == s.th.seq) = false := by
    rw [List.any_eq_false]
    intro r hr hsame
    obtain ⟨k, hk, hend, hrk⟩ := h.placed.mem hr
    have hpos : r.payload ≠ [] := by
      apply h.stream.pieces
      rw [← h.payloads]
      exact List.mem_map_of_mem hr
    have hpos' := List.length_pos_iff.mpr hpos
    rw [h.payloads] at hend
    change k + r.payload.length ≤ 1 + t.sent.length at hend
    rw [beq_iff_eq, hrk, hseq] at hsame
    have heq := point_inj_near (by omega) (by omega) hsame
    omega
  have hfirst : firstTransmissions (t.emitted ++ [pkt]) = firstTransmissions t.emitted ++ [s] := by
    rw [firstTransmissions_snoc hc.decode, addFirst, if_neg]
    simp only [hnew, Bool.or_false, List.isEmpty_iff, hlen, not_false_eq_true]
  refine ⟨h.stream.data hs hn hle hf hc, ?_, ?_⟩
  · simp only [launch, hfirst, List.map_append, h.payloads, List.map_cons, List.map_nil, hc.payload]
  · simp only [launch, hfirst]
    refine h.placed.snoc ?_
    rw [h.payloads, hseq]
    rfl

theorem Step.conserved {inp : Option Segment} {t t' : Trace} (hstep : Step inp t t')
    (hw : t.written.length < 2 ^ 31) (h : Conserved t) : Conserved t' := by
  have hs := hstep.stream h.stream
  cases hstep with
  | ack _ hc _ => exact h.frame hs (firstTransmissions_old hc.decode (.inl hc.payload)) rfl rfl
  | resend hq _ =>
      have hmem := h.stream.queued _ hq
      obtain ⟨s, hd, -⟩ := h.stream.emitted _ hmem
      exact h.frame hs (firstTransmissions_old hd (.inr hmem)) rfl rfl
  | data _ hsend hn hle hf hc => exact h.data hw hsend hn hle hf hc
  | fin _ hsend hc => exact h.frame hs (firstTransmissions_old hc.decode (.inl hc.payload)) rfl rfl
  | ackNew | mark | deliver | pendFin | takePending | takeFin | finAcked | openActive | openPassive | die =>
      exact h.frame hs rfl rfl rfl

theorem Steps.conserved {inp : Option Segment} {t t' : Trace} (hs : Steps inp t t')
    (hw : t.written.length < 2 ^ 31) (h : Conserved t) : Conserved t' := by
  refine (hs.preserves (P := fun t => t.written.length < 2 ^ 31 ∧ Conserved t) ?_ ⟨hw, h⟩).2
  rintro a b hstep ⟨hwa, ha⟩
  exact ⟨hstep.written ▸ hwa, hstep.conserved hwa ha⟩

theorem Conserved.appCall {t : Trace} (h : Conserved t) (x : Call) : Conserved (t.appCall x) := by
  have hs := h.stream.appCall x
  cases x <;> exact h.frame hs rfl rfl rfl

theorem Run.conserved {t t' : Trace} {xs : List Call} (hr : Run t xs t')
    (hw : t'.written.length < 2 ^ 31) (h : Conserved t) : Conserved t' := by
  induction hr with
  | nil t => exact h
  | @cons t t₁ t' x xs steps rest ih =>
      refine ih hw (steps.conserved ?_ (h.appCall x))
      have hle := rest.written.length_le
      rw [steps.written] at hle
      omega

end Trace

namespace Host

variable {F : Type} [F64 F]

theorem Fresh.conserved {h : Host F} (hf : Fresh h) : Trace.Conserved h.start := by
  have hnil : firstTransmissions h.start.emitted = [] := by
    have hst := hf.stream
    have hall : ∀ p ∈ h.start.emitted, ∃ s, decode p = some s ∧ s.payload = [] := by
      intro p hp
      obtain ⟨s, hd, hs⟩ := hst.emitted p hp
      refine ⟨s, hd, ?_⟩
      by_contra hne
      obtain ⟨off, -, pre, post, heq, -⟩ := hs.data hne
      simp [start] at heq
    generalize h.start.emitted = pkts at hall
    induction pkts using List.reverseRecOn with
    | nil => rfl
    | append_singleton pkts p ih =>
        obtain ⟨s, hd, hs⟩ := hall p (by simp)
        rw [firstTransmissions_snoc hd, ih fun q hq => hall q (List.mem_append_left _ hq)]
        simp [addFirst, hs]
  refine ⟨hf.stream, ?_, ?_⟩
  · rw [hnil]
    rfl
  · rw [hnil]
    trivial

/-- Sender stream conservation, for every local use and every peer. -/
theorem sender_conserves_stream {h : Host F} (hf : Fresh h) (calls : List Call)
    (hw : (h.run calls).written.length < 2 ^ 31) :
    (∀ p ∈ (h.run calls).emitted, ∃ s, decode p = some s ∧ (s.payload ≠ [] →
      let off := (s.th.seq - (h.run calls).conn.send.iss - 1#32).toNat
      off + s.payload.length ≤ (h.run calls).written.length ∧
        s.payload = ((h.run calls).written.drop off).take s.payload.length)) ∧
    Contiguous (h.run calls).conn.send.iss 1 (firstTransmissions (h.run calls).emitted) ∧
    ((firstTransmissions (h.run calls).emitted).map Segment.payload).flatten ++
      (h.run calls).conn.sendBuf = (h.run calls).written := by
  obtain ⟨t, hr, hfol⟩ := run_refines hf.follows calls
  have hcons := hr.conserved (hfol.written ▸ hw) hf.conserved
  have hiss : t.iss = (h.run calls).conn.send.iss := hfol.iss
  have hbuf : t.sendBuf = (h.run calls).conn.sendBuf := hfol.sendBuf
  rw [← hfol.emitted, ← hfol.written, ← hiss, ← hbuf] at *
  refine ⟨fun p hp => ?_, hcons.placed, ?_⟩
  · obtain ⟨s, hd, hst⟩ := hcons.stream.emitted p hp
    refine ⟨s, hd, fun hne => ?_⟩
    obtain ⟨off, hseq, hpiece⟩ := hst.data hne
    have hat : PieceAt t.written off s.payload :=
      hpiece.pieceAt.mono ⟨t.sendBuf, hcons.stream.written.symm⟩
    have hend := hat.end_le hne
    have hoff : (s.th.seq - t.iss - 1#32).toNat = off := by
      rw [hseq, offset_point, Nat.add_comm, BitVec.ofNat_add, BitVec.add_sub_cancel, BitVec.toNat_ofNat,
        Nat.mod_eq_of_lt (by omega)]
    simp only [hoff]
    exact ⟨hend, hat.eq_take⟩
  · rw [hcons.payloads]
    exact hcons.stream.written.symm

/-- Three bytes sent, and sent again by the timer; the rest waits. -/
theorem stream_conserved_over_resend :
    let h := sample.run [.write [7#8, 8#8, 9#8], .pollTransmit 1#64, .write [5#8], .onTick 9000#64]
    h.emitted.length = 2 ∧ h.conn.sendBuf = [5#8] ∧
      ((firstTransmissions h.emitted).map Segment.payload).flatten ++ h.conn.sendBuf = h.written :=
  ⟨by decide +kernel, by decide +kernel, (sender_conserves_stream sample_fresh _ (by decide +kernel)).2.2⟩

end Host
end TcpStack
