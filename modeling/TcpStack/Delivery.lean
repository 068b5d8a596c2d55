import TcpStack.Discipline
import TcpStack.Injection

/-!
# Data, the FIN and the acknowledgement they ride on

In the open states a segment is checked, its acknowledgement is processed, and
only then its data and FIN are looked at. The module says once where a segment
can end up, and derives when in-sequence data is delivered and when anything
is delivered after the peer's FIN.
-/
namespace TcpStack
open Tcp TcpStack.Seq

variable {F : Type} [F64 F]

namespace Connection

def inbox (c : Connection F) : State × RecvSequence × Reassembler × Bytes × Bool × Option U32 :=
  (c.state, c.recv, c.reasm, c.recvBuf, c.peerFin, c.pendingFin)

/-- The acknowledgement passes the test, which already counts the segment's own window. -/
def Accepts (c : Connection F) (seg : Segment) : Prop :=
  hasFlag seg.th.flags ACK = true → (c.updateWindow (c.scaledWindow seg.th)).ackAcceptable seg.th.ack = true

/-- The peer lacks a queued segment, by what it has acknowledged selectively
before and with this segment. -/
def lacks (c : Connection F) (opts : TcpOptions) (s : Unacked) : Bool :=
  !(s.sacked || (c.sackOk && decide (opts.sackBlockCount > 0) && RetxQueue.covered opts.validBlocks s))

/-- New data is acknowledged in recovery, but not all that was sent before it. -/
def PartialAck (c : Connection F) (th : TcpHeader) : Prop :=
  between c.send.una th.ack c.send.nxt = true ∧ c.cong.inRecovery = true ∧ before th.ack c.recover = true

instance (c : Connection F) (th : TcpHeader) : Decidable (PartialAck c th) := inferInstanceAs (Decidable (_ ∧ _))

/-- The third duplicate acknowledgement in a row. -/
def ThirdDupAck (c : Connection F) (seg : Segment) : Prop :=
  seg.th.ack = c.send.una ∧ c.send.una ≠ c.send.nxt ∧ seg.payload = [] ∧
    c.scaledWindow seg.th = c.send.wnd ∧ c.scaledWindow seg.th ≠ 0#32 ∧
    c.cong.dupAcks + 1#32 = dupAckThreshold

instance (c : Connection F) (seg : Segment) : Decidable (ThirdDupAck c seg) := inferInstanceAs (Decidable (_ ∧ _))

/-- The hole that the acknowledgement makes the handler resend before it returns. -/
def hole (c : Connection F) (seg : Segment) : Option Unacked :=
  if hasFlag seg.th.flags ACK = false then none
  else if PartialAck c seg.th then
    c.retx.segments.find? (fun s => before seg.th.ack s.endSeq && c.lacks seg.opts s)
  else if ThirdDupAck c seg then c.retx.segments.find? (c.lacks seg.opts)
  else none

/-- The queue once the segment's SACK blocks are marked. -/
def marked (c : Connection F) (opts : TcpOptions) : Connection F :=
  if c.sackOk ∧ opts.sackBlockCount > 0 then { c with retx := c.retx.markSacked opts.validBlocks } else c

theorem marked_same (c : Connection F) (opts : TcpOptions) :
    (c.marked opts).send = c.send ∧ (c.marked opts).cong = c.cong ∧ (c.marked opts).recover = c.recover := by
  unfold marked
  split_ifs <;> exact ⟨rfl, rfl, rfl⟩

theorem marked_hole (c : Connection F) (opts : TcpOptions) (p : U32 → Bool) :
    (((c.marked opts).retx.segments.find? (fun s => p s.endSeq && !s.sacked)).map Unacked.packet) =
      (c.retx.segments.find? (fun s => p s.endSeq && c.lacks opts s)).map Unacked.packet := by
  unfold marked lacks
  split_ifs with hon
  · simp only [RetxQueue.markSacked, List.find?_map, Option.map_map, hon.1, hon.2, decide_true, Bool.true_and]
    have hsame : ∀ s : Unacked, (if !s.sacked && RetxQueue.covered opts.validBlocks s then
        { s with sacked := true } else s).packet = s.packet := by
      intro s
      split_ifs <;> rfl
    have hpred : (fun s : Unacked => p s.endSeq && !s.sacked) ∘ (fun s : Unacked =>
        if !s.sacked && RetxQueue.covered opts.validBlocks s then { s with sacked := true } else s) =
        fun s => p s.endSeq && !(s.sacked || RetxQueue.covered opts.validBlocks s) := by
      funext s
      cases hs : s.sacked <;> cases hc : RetxQueue.covered opts.validBlocks s <;> simp [hs, hc]
    rw [hpred]
    exact congrArg (Option.map · _) (funext hsame)
  · have hoff : (c.sackOk && decide (opts.sackBlockCount > 0)) = false := by
      simpa using hon
    simp only [hoff, Bool.false_and, Bool.or_false]

theorem onNewAck_packet (c : Connection F) (th : TcpHeader) (opts : TcpOptions) (now : U64) :
    (c.onNewAck th opts now).2 = if c.cong.inRecovery = true ∧ before th.ack c.recover = true then
      (c.retx.segments.find? (fun s => before th.ack s.endSeq && !s.sacked)).map Unacked.packet else none := by
  simp only [onNewAck]
  by_cases hpart : c.cong.inRecovery = true ∧ before th.ack c.recover = true
  · rw [if_pos (by simp [hpart.1, hpart.2]), if_pos hpart]
    simp only [fastRetransmit, RetxQueue.fastRetransmit_packet, RetxQueue.ack, List.find?_filter]
    simp
  · rw [if_neg (by simpa using hpart), if_neg hpart]

theorem onDupAck_packet (c : Connection F) (now : U64) :
    (c.onDupAck now).2 = if c.cong.dupAcks + 1#32 = dupAckThreshold then
      (c.retx.segments.find? (fun s => !s.sacked)).map Unacked.packet else none := by
  have hhit := CongestionControl.onDupAck_hit c.cong c.flightSize
  simp only [onDupAck]
  generalize c.cong.onDupAck c.flightSize = r at hhit
  obtain ⟨cong, hit⟩ := r
  dsimp only at hhit ⊢
  cases hit with
  | true =>
      rw [if_pos rfl, if_pos (hhit.mp rfl)]
      exact RetxQueue.fastRetransmit_packet _ now
  | false => rw [if_neg Bool.false_ne_true, if_neg fun heq => Bool.false_ne_true (hhit.mpr heq)]

theorem processAck_eq (c : Connection F) (th : TcpHeader) (payload : Bytes) (opts : TcpOptions)
    (prevWnd newWnd : U32) (now : U64) :
    c.processAck th payload opts prevWnd newWnd now =
      if between (c.marked opts).send.una th.ack (c.marked opts).send.nxt then
        (c.marked opts).onNewAck th opts now
      else if th.ack = (c.marked opts).send.una ∧ (c.marked opts).send.una ≠ (c.marked opts).send.nxt ∧
          payload.isEmpty ∧ newWnd = prevWnd ∧ newWnd ≠ 0#32 then (c.marked opts).onDupAck now
      else (c.marked opts, none) := rfl

theorem processAck_packet (c : Connection F) {seg : Segment} (hack : hasFlag seg.th.flags ACK = true) (now : U64) :
    ((c.updateWindow (c.scaledWindow seg.th)).processAck seg.th seg.payload seg.opts c.send.wnd
      (c.scaledWindow seg.th) now).2 = (c.hole seg).map Unacked.packet := by
  generalize hu : c.updateWindow (c.scaledWindow seg.th) = u
  have hpast : ((u.marked seg.opts).retx.segments.find?
      (fun s => before seg.th.ack s.endSeq && !s.sacked)).map Unacked.packet =
        (c.retx.segments.find? (fun s => before seg.th.ack s.endSeq && c.lacks seg.opts s)).map Unacked.packet := by
    rw [marked_hole, ← hu]
    rfl
  have hall : ((u.marked seg.opts).retx.segments.find? (fun s => !s.sacked)).map Unacked.packet =
      (c.retx.segments.find? (c.lacks seg.opts)).map Unacked.packet := by
    have hmark := marked_hole u seg.opts (fun _ => true)
    simp only [Bool.true_and] at hmark
    rw [hmark, ← hu]
    rfl
  have hsame : (u.marked seg.opts).send.una = c.send.una ∧ (u.marked seg.opts).send.nxt = c.send.nxt ∧
      (u.marked seg.opts).cong = c.cong ∧ (u.marked seg.opts).recover = c.recover := by
    obtain ⟨hsend, hcong, hrec⟩ := marked_same u seg.opts
    rw [hsend, hcong, hrec, ← hu]
    exact ⟨rfl, rfl, rfl, rfl⟩
  obtain ⟨huna, hnxt, hcong, hrec⟩ := hsame
  have hflag : ¬ hasFlag seg.th.flags ACK = false := by simp [hack]
  rw [processAck_eq, huna, hnxt, hole, if_neg hflag]
  generalize u.marked seg.opts = d at hpast hall hcong hrec
  by_cases hnew : between c.send.una seg.th.ack c.send.nxt = true
  · -- a new acknowledgement is no duplicate
    have hne : seg.th.ack ≠ c.send.una := by
      intro heq
      rw [heq] at hnew
      simp [between] at hnew
    rw [if_pos hnew, onNewAck_packet, hcong, hrec]
    by_cases hpart : c.cong.inRecovery = true ∧ before seg.th.ack c.recover = true
    · rw [if_pos hpart, if_pos (show PartialAck c seg.th from ⟨hnew, hpart⟩), hpast]
    · rw [if_neg hpart, if_neg fun h : PartialAck c seg.th => hpart h.2, if_neg fun h : ThirdDupAck c seg => hne h.1]
      rfl
  · rw [if_neg hnew, if_neg fun h : PartialAck c seg.th => hnew h.1]
    by_cases hdup : seg.th.ack = c.send.una ∧ c.send.una ≠ c.send.nxt ∧ seg.payload.isEmpty ∧
        c.scaledWindow seg.th = c.send.wnd ∧ c.scaledWindow seg.th ≠ 0#32
    · obtain ⟨h₁, h₂, h₃, h₄, h₅⟩ := hdup
      rw [if_pos ⟨h₁, h₂, h₃, h₄, h₅⟩, onDupAck_packet, hcong]
      have hthird : ThirdDupAck c seg ↔ c.cong.dupAcks + 1#32 = dupAckThreshold :=
        ⟨fun h => h.2.2.2.2.2, fun h => ⟨h₁, h₂, List.isEmpty_iff.mp h₃, h₄, h₅, h⟩⟩
      by_cases hhit : c.cong.dupAcks + 1#32 = dupAckThreshold
      · rw [if_pos hhit, if_pos (hthird.mpr hhit), hall]
      · rw [if_neg hhit, if_neg (mt hthird.mp hhit)]
        rfl
    · have hno : ¬ ThirdDupAck c seg := fun h =>
        hdup ⟨h.1, h.2.1, List.isEmpty_iff.mpr h.2.2.1, h.2.2.2.1, h.2.2.2.2.1⟩
      rw [if_neg hdup, if_neg hno]
      rfl

/-- Where a segment without RST and SYN can end up in an open state. -/
inductive Handled (c : Connection F) (seg : Segment) : Connection F × Option Bytes → Prop where
  | stale (old : OldTimestamp c seg) : Handled c seg (c, some c.bareAck)
  | refused {d : Connection F} {out : Option Bytes} (current : ¬ OldTimestamp c seg)
      (bad : ¬ Accepts c seg) (same : d.inbox = c.inbox) : Handled c seg (d, out)
  | diverted {d : Connection F} {s : Unacked} (current : ¬ OldTimestamp c seg) (ok : Accepts c seg)
      (diverts : c.hole seg = some s) (same : d.inbox = c.inbox) : Handled c seg (d, some s.packet)
  | received {d : Connection F} (current : ¬ OldTimestamp c seg) (ok : Accepts c seg)
      (through : c.hole seg = none) (same : d.inbox = c.inbox) : Handled c seg (d.receive seg.th seg.payload)

theorem processAck_inbox (c : Connection F) (th : TcpHeader) (payload : Bytes) (opts : TcpOptions)
    (prevWnd newWnd : U32) (now : U64) :
    (c.processAck th payload opts prevWnd newWnd now).1.inbox = c.inbox := by
  simp only [processAck, onNewAck, onDupAck]
  split_ifs <;> rfl

theorem onOpen_handled (c : Connection F) (seg : Segment) (now : U64) (rnd : U32) :
    Handled c seg (c.onOpen seg.th seg.payload seg.opts now rnd) := by
  unfold onOpen
  cases hp : c.paws seg.th seg.opts with
  | none =>
      refine .stale (not_not.mp fun hcur => ?_)
      have hsome := (paws_isSome_iff c seg).mpr hcur
      rw [hp] at hsome
      cases hsome
  | some d =>
      have hcur : ¬ OldTimestamp c seg := by
        rw [← paws_isSome_iff, hp]
        rfl
      have hd : d.hole seg = c.hole seg ∧ (d.updateWindow (d.scaledWindow seg.th)).inbox = c.inbox ∧
          (Accepts c seg ↔ (hasFlag seg.th.flags ACK = true →
            (d.updateWindow (d.scaledWindow seg.th)).ackAcceptable seg.th.ack = true)) := by
        obtain ⟨t, rfl⟩ := paws_eq hp
        exact ⟨rfl, rfl, Iff.rfl⟩
      obtain ⟨hhole, hin, hacc⟩ := hd
      dsimp only
      by_cases hack : hasFlag seg.th.flags ACK = true
      · have hpkt := processAck_packet d hack now
        have hproc := processAck_inbox (d.updateWindow (d.scaledWindow seg.th)) seg.th seg.payload seg.opts
          d.send.wnd (d.scaledWindow seg.th) now
        rw [if_pos hack]
        generalize d.updateWindow (d.scaledWindow seg.th) = u at hin hacc hpkt hproc
        cases hok : u.ackAcceptable seg.th.ack with
        | false =>
            have hsame : (u.maybeChallenge now rnd).1.inbox = c.inbox := by
              have hcl := (maybeChallenge_clocks u now rnd).1
              rw [hcl]
              exact hin
            rw [if_pos (Bool.not_false : (!false) = true)]
            generalize u.maybeChallenge now rnd = r at hsame
            refine .refused hcur (fun h => ?_) hsame
            rw [hacc.mp h hack] at hok
            cases hok
        | true =>
            generalize u.processAck seg.th seg.payload seg.opts d.send.wnd (d.scaledWindow seg.th)
              now = r at hpkt hproc
            obtain ⟨v, pkt⟩ := r
            dsimp only at hpkt hproc
            rw [hhole] at hpkt
            have haccept : Accepts c seg := hacc.mpr fun _ => hok
            cases hh : c.hole seg with
            | none =>
                rw [hh] at hpkt
                subst hpkt
                exact .received hcur haccept hh (hproc.trans hin)
            | some s =>
                rw [hh] at hpkt
                subst hpkt
                exact .diverted hcur haccept hh (hproc.trans hin)
      · have hnone : c.hole seg = none := by
          rw [hole, if_pos (Bool.eq_false_iff.mpr hack)]
        rw [if_neg hack]
        exact .received hcur (fun h => absurd h hack) hnone hin

theorem onSegment_handled {c : Connection F} (hs : c.state.Sending) {seg : Segment}
    (hrst : hasFlag seg.th.flags RST = false) (hsyn : hasFlag seg.th.flags SYN = false) (now : U64) (rnd : U32) :
    Handled (c.arrive now) seg (c.onSegment seg now rnd) := by
  rw [onSegment_open hs hrst hsyn now rnd]
  exact onOpen_handled (c.arrive now) seg now rnd

/-- The payload was delivered next, then perhaps buffered data and a FIN. -/
def Appended (c c' : Connection F) (payload : Bytes) : Prop :=
  ∃ (more : Bytes) (fin : Bool), c'.recvBuf = c.recvBuf ++ payload ++ more ∧
    c'.recv.nxt = c.recv.nxt + BitVec.ofNat 32 (payload.length + more.length + fin.toNat)

theorem receive_appends {c : Connection F} {seg : Segment} (hseq : seg.th.seq = c.recv.nxt)
    (hne : seg.payload ≠ []) : Appended c (c.receive seg.th seg.payload).1 seg.payload := by
  obtain ⟨more, hmore⟩ := c.reasm.recv_inSequence hne c.recv.nxt
  have hd : (c.deliver seg.th.seq seg.payload).recvBuf = c.recvBuf ++ seg.payload ++ more ∧
      (c.deliver seg.th.seq seg.payload).recv.nxt =
        c.recv.nxt + BitVec.ofNat 32 (seg.payload.length + more.length) := by
    rw [deliver_eq, hseq]
    dsimp only
    rw [← hmore, List.append_assoc, List.length_append]
    exact ⟨rfl, rfl⟩
  unfold receive
  generalize c.deliver seg.th.seq seg.payload = d at hd
  have hstay : Appended c d seg.payload := ⟨more, false, hd.1, hd.2⟩
  have hfin : d.recv.nxt + 1#32 =
      c.recv.nxt + BitVec.ofNat 32 (seg.payload.length + more.length + true.toNat) := by
    rw [hd.2, BitVec.ofNat_add _ true.toNat, ← BitVec.add_assoc]
    rfl
  dsimp only
  split_ifs
  · exact hstay
  · exact ⟨more, true, hd.1, hfin⟩
  · exact hstay
  · exact hstay
  · exact ⟨more, true, hd.1, hfin⟩
  · exact hstay
  · exact hstay

/-- The FIN was consumed and nothing else. -/
def TookFin (c c' : Connection F) : Prop :=
  c'.state = .closeWait ∧ c'.peerFin = true ∧ c'.recv.nxt = c.recv.nxt + 1#32 ∧ c'.recvBuf = c.recvBuf

theorem receive_takes_fin {c : Connection F} {seg : Segment} (hs : c.state = .established)
    (hseq : seg.th.seq = c.recv.nxt) (hnil : seg.payload = []) (hfin : hasFlag seg.th.flags FIN = true) :
    TookFin c (c.receive seg.th seg.payload).1 := by
  have hpos : finSeq seg.th seg.payload = c.recv.nxt := by simp [finSeq, hnil, hseq]
  have hsame : c.deliver seg.th.seq seg.payload = c := by simp [deliver, hnil]
  unfold receive
  simp only [hsame, hpos, hs, hfin, before_self, reduceCtorEq, false_and, and_false, if_false, Bool.not_false,
    and_self, if_true]
  exact ⟨rfl, rfl, rfl, rfl⟩

theorem inbox_buffer {c d : Connection F} (h : d.inbox = c.inbox) :
    d.state = c.state ∧ d.recv = c.recv ∧ d.reasm = c.reasm ∧ d.recvBuf = c.recvBuf ∧
      d.peerFin = c.peerFin ∧ d.pendingFin = c.pendingFin := by
  simpa [inbox] using h

/-- In-sequence data, or a bare FIN, that passes the checks in ESTABLISHED is
taken in exactly if its acknowledgement resends no hole. -/
theorem in_sequence_segment_taken_iff (c : Connection F) (hs : c.state = .established) (seg : Segment) (now : U64)
    (rnd : U32) (hrst : hasFlag seg.th.flags RST = false) (hsyn : hasFlag seg.th.flags SYN = false)
    (hseq : seg.th.seq = c.recv.nxt) (hcur : (c.paws seg.th seg.opts).isSome = true) (hok : Accepts c seg) :
    (seg.payload ≠ [] → (Appended c (c.onSegment seg now rnd).1 seg.payload ↔ c.hole seg = none)) ∧
    (seg.payload = [] → hasFlag seg.th.flags FIN = true →
      (TookFin c (c.onSegment seg now rnd).1 ↔ c.hole seg = none)) := by
  have hold : ¬ OldTimestamp (c.arrive now) seg := (paws_isSome_iff c seg).mp hcur
  have hacc : Accepts (c.arrive now) seg := hok
  have hhole : (c.arrive now).hole seg = c.hole seg := rfl
  have hin : (c.arrive now).inbox = c.inbox := rfl
  have hhandled := onSegment_handled (.inl hs) hrst hsyn now rnd
  generalize c.onSegment seg now rnd = r at hhandled
  cases hhandled with
  | stale old => exact absurd old hold
  | refused _ bad _ => exact absurd hacc bad
  | @diverted d s _ _ diverts same =>
      -- the handler returned with the receive side as it was
      obtain ⟨hst, hrecv, -, hbuf, -, -⟩ := inbox_buffer (same.trans hin)
      have hsome : c.hole seg ≠ none := by
        rw [← hhole, diverts]
        exact Option.some_ne_none s
      refine ⟨fun hne => ⟨?_, fun h => absurd h hsome⟩, fun _ _ => ⟨?_, fun h => absurd h hsome⟩⟩
      · rintro ⟨more, fin, heq, -⟩
        rw [hbuf, List.append_assoc] at heq
        have hnil := List.append_right_eq_self.mp heq.symm
        exact absurd (List.append_eq_nil_iff.mp hnil).1 hne
      · rintro ⟨hcw, -⟩
        rw [hst, hs] at hcw
        cases hcw
  | @received d _ _ through same =>
      obtain ⟨hst, hrecv, -, hbuf, -, -⟩ := inbox_buffer (same.trans hin)
      have hnone : c.hole seg = none := through
      have hseq' : seg.th.seq = d.recv.nxt := by rw [hrecv, hseq]
      refine ⟨fun hne => ⟨fun _ => hnone, fun _ => ?_⟩, fun hnil hfin => ⟨fun _ => hnone, fun _ => ?_⟩⟩
      · have happ := receive_appends hseq' hne
        rwa [Appended, hbuf, hrecv] at happ
      · have htook := receive_takes_fin (hst.trans hs) hseq' hnil hfin
        rwa [TookFin, hbuf, hrecv] at htook

end Connection

namespace Host
open Connection

theorem data_in_sequence_is_taken :
    let seg := samplePeer (PSH ||| ACK) 501#32 101#32 [66#8]
    Appended sample.conn (sample.conn.onSegment seg 1#64 0#32).1 [66#8] :=
  ((in_sequence_segment_taken_iff sample.conn (by decide +kernel) (samplePeer (PSH ||| ACK) 501#32 101#32 [66#8])
    1#64 0#32 (by decide) (by decide) (by decide +kernel) (by decide +kernel) fun _ => by decide +kernel).1
      (by decide)).mpr (by decide +kernel)

/-- Three one-byte segments in flight and three duplicate acknowledgements. -/
def inRecovery : List Call :=
  [.setNodelay true, .write [1#8], .pollTransmit 1#64, .write [2#8], .pollTransmit 1#64, .write [3#8],
    .pollTransmit 1#64] ++ List.replicate 3 (.onSegment (samplePeer ACK 501#32 101#32 []) 2#64 0#32)

/-- The first byte is acknowledged by a segment with data: the second byte is
resent and the data is lost. -/
theorem partial_ack_swallows_data :
    let c := (sample.run inRecovery).conn
    let seg := samplePeer (PSH ||| ACK) 501#32 102#32 [66#8]
    Fresh sample ∧ c.state = .established ∧ seg.th.seq = c.recv.nxt ∧ (c.paws seg.th seg.opts).isSome = true ∧
      Accepts c seg ∧ (c.onSegment seg 3#64 0#32).1.recvBuf = [] ∧
      ¬ Appended c (c.onSegment seg 3#64 0#32).1 seg.payload := by
  intro c seg
  have hbuf : (c.onSegment seg 3#64 0#32).1.recvBuf = [] := by decide +kernel
  refine ⟨sample_fresh, by decide +kernel, by decide +kernel, by decide +kernel, fun _ => by decide +kernel, hbuf, ?_⟩
  rintro ⟨more, fin, heq, -⟩
  rw [hbuf] at heq
  have hnil := (List.append_eq_nil_iff.mp heq.symm).1
  exact absurd (List.append_eq_nil_iff.mp hnil).2 (by decide)

end Host
end TcpStack
