import TcpStack.Refine

/-!
# The sent stream

What a connection sends, against any peer: the bytes written are those put
into segments followed by those still queued, and every packet on the wire,
however often it was resent, carries the piece of the stream its sequence
number names.
-/
namespace TcpStack
open Tcp TcpStack.Seq TcpStack.Circle

/-- The states before our FIN. -/
def State.PreFin (s : State) : Prop :=
  s = .synSent ∨ s = .synRcvd ∨ s = .established ∨ s = .closeWait

theorem State.Sending.preFin {s : State} (h : s.Sending) : s.PreFin := .inr (.inr h)

namespace Trace

theorem FinSent.sending {s next : State} (h : FinSent s next) : s.Sending := by
  cases h with
  | active => exact .inl rfl
  | passive => exact .inr rfl

theorem FinSent.post {s next : State} (h : FinSent s next) : ¬ next.PreFin := by
  cases h <;> simp [State.PreFin]

theorem FinAcked.post {s next : State} (h : FinAcked s next) : ¬ next.PreFin := by
  cases h <;> simp [State.PreFin]

theorem FinTaken.post {s next : State} (h : FinTaken s next) : ¬ next.PreFin := by
  cases h <;> simp [State.PreFin]

/-- What the header of an emitted segment says about the stream. -/
structure Stamped (iss : U32) (pieces : List Bytes) (closed : Bool) (s : Segment) : Prop where
  noRst : hasFlag s.th.flags RST = false
  data : s.payload ≠ [] → ∃ off, s.th.seq = point iss (1 + off) ∧ PieceOf pieces off s.payload
  fin : hasFlag s.th.flags FIN = true →
    closed = true ∧ s.payload = [] ∧ s.th.seq = point iss (1 + pieces.flatten.length)
  syn : hasFlag s.th.flags SYN = true → s.payload = [] ∧ s.th.seq = iss

theorem Stamped.grow {iss : U32} {ps : List Bytes} {s : Segment} (h : Stamped iss ps false s) (d : Bytes) :
    Stamped iss (ps ++ [d]) false s where
  noRst := h.noRst
  data := fun hne => by
    obtain ⟨off, hseq, hp⟩ := h.data hne
    exact ⟨off, hseq, hp.mono (List.prefix_append _ _)⟩
  fin := fun hf => nomatch (h.fin hf).1
  syn := h.syn

theorem Stamped.close {iss : U32} {ps : List Bytes} {s : Segment} (h : Stamped iss ps false s) :
    Stamped iss ps true s where
  noRst := h.noRst
  data := h.data
  fin := fun hf => nomatch (h.fin hf).1
  syn := h.syn

/-- The stamp of a segment without payload and without SYN, FIN and RST. -/
theorem Stamped.bare {iss : U32} {ps : List Bytes} {closed : Bool} {s : Segment} {pkt : Bytes}
    {seq ack : U32} {blocks : List (U32 × U32)} (h : Carries pkt s seq ack ACK [] blocks) :
    Stamped iss ps closed s where
  noRst := by
    rw [h.flags]
    decide
  data := fun hne => absurd h.payload hne
  fin := fun hf => by
    rw [h.flags] at hf
    exact absurd hf (by decide)
  syn := fun hf => by
    rw [h.flags] at hf
    exact absurd hf (by decide)

/-- The sending side of a trace, against any peer. -/
structure Stream (t : Trace) : Prop where
  nxt : t.nxt = point t.iss t.nxtPos
  written : t.written = t.sent ++ t.sendBuf
  pieces : ∀ d ∈ t.pieces, d ≠ []
  emitted : ∀ p ∈ t.emitted, ∃ s, decode p = some s ∧ Stamped t.iss t.pieces t.closing.isSome s
  queued : ∀ q ∈ t.queue, q.packet ∈ t.emitted
  opened : t.state.PreFin → t.closing = none
  closed : ∀ r, t.closing = some r → r.written = t.sent ++ r.queued

def sendPart (t : Trace) : U32 × U32 × Bytes × Bytes × List Bytes × List Bytes × Option CloseRecord :=
  (t.iss, t.nxt, t.written, t.sendBuf, t.pieces, t.emitted, t.closing)

theorem Stream.frame {t t' : Trace} (h : Stream t) (hsame : t'.sendPart = t.sendPart)
    (hq : ∀ q ∈ t'.queue, ∃ r ∈ t.queue, r.packet = q.packet)
    (hst : t'.state.PreFin → t.state.PreFin) : Stream t' := by
  simp only [sendPart, Prod.mk.injEq] at hsame
  obtain ⟨hiss, hnxt, hw, hbuf, hp, he, hc⟩ := hsame
  have hsent : t'.sent = t.sent := by rw [sent, hp, sent]
  refine ⟨?_, ?_, ?_, ?_, ?_, ?_, ?_⟩
  · rw [hiss, hnxt, h.nxt, nxtPos, nxtPos, hsent, hc]
  · rw [hw, hsent, hbuf, h.written]
  · rw [hp]
    exact h.pieces
  · rw [he, hiss, hp, hc]
    exact h.emitted
  · intro q hq'
    obtain ⟨r, hr, hpkt⟩ := hq q hq'
    rw [he, ← hpkt]
    exact h.queued r hr
  · intro hs
    rw [hc]
    exact h.opened (hst hs)
  · rw [hc, hsent]
    exact h.closed

theorem Stream.emit {t : Trace} {p : Bytes} (h : Stream t)
    (hp : ∃ s, decode p = some s ∧ Stamped t.iss t.pieces t.closing.isSome s) : Stream (t.emit p) where
  nxt := h.nxt
  written := h.written
  pieces := h.pieces
  emitted := by
    intro q hq
    rcases List.mem_append.mp hq with hq | hq
    · exact h.emitted q hq
    · rw [List.mem_singleton.mp hq]
      exact hp
  queued := fun q hq => List.mem_append_left _ (h.queued q hq)
  opened := h.opened
  closed := h.closed

theorem Stream.queued_launch {t : Trace} (h : Stream t) (n : Nat) (pkt : Bytes) :
    ∀ q ∈ (t.launch n pkt).queue, q.packet ∈ (t.launch n pkt).emitted := by
  intro q hq
  rcases List.mem_append.mp hq with hq | hq
  · exact List.mem_append_left _ (h.queued q hq)
  · rw [List.mem_singleton.mp hq]
    exact List.mem_append_right _ (List.mem_singleton_self pkt)

theorem Stream.data {t : Trace} {n : Nat} {pkt : Bytes} {s : Segment} {flags : U8} (h : Stream t)
    (hs : t.state.Sending) (hn : 0 < n) (hle : n ≤ t.sendBuf.length)
    (hf : flags = PSH ||| ACK ∨ flags = ACK)
    (hc : Carries pkt s t.nxt t.rcvNxt flags (t.sendBuf.take n) []) :
    Stream { t.launch n pkt with
      sendBuf := t.sendBuf.drop n, pieces := t.pieces ++ [t.sendBuf.take n] } := by
  have hopen : t.closing = none := h.opened hs.preFin
  have hpos : t.nxtPos = 1 + t.sent.length := by simp [nxtPos, hopen]
  have hflag : hasFlag s.th.flags RST = false ∧ hasFlag s.th.flags FIN = false ∧
      hasFlag s.th.flags SYN = false := by
    rw [hc.flags]
    rcases hf with rfl | rfl <;> decide
  have hlen : (t.sendBuf.take n).length = n := by
    rw [List.length_take]
    omega
  constructor
  · simp only [launch, h.nxt, point_add, nxtPos, sent, hopen, List.flatten_append, List.flatten_cons,
      List.flatten_nil, List.append_nil, List.length_append, hlen]
    congr 1
    omega
  · have hsplit := List.take_append_drop n t.sendBuf
    simp only [launch, sent, h.written, List.flatten_append, List.flatten_cons, List.flatten_nil,
      List.append_nil, List.append_assoc, hsplit]
  · intro d hd
    rcases List.mem_append.mp hd with hd | hd
    · exact h.pieces d hd
    · rw [List.mem_singleton.mp hd, ← List.length_pos_iff, hlen]
      exact hn
  · intro p hp
    simp only [launch, hopen, Option.isSome_none] at hp ⊢
    rcases List.mem_append.mp hp with hp | hp
    · obtain ⟨s', hdec, hst⟩ := h.emitted p hp
      rw [hopen] at hst
      exact ⟨s', hdec, hst.grow _⟩
    · rw [List.mem_singleton.mp hp]
      refine ⟨s, hc.decode, hflag.1, fun _ => ⟨t.sent.length, ?_, ?_⟩, ?_, ?_⟩
      · rw [hc.seq, h.nxt, hpos]
      · rw [hc.payload]
        exact PieceOf.last _ _
      · rw [hflag.2.1]
        exact fun hf => nomatch hf
      · rw [hflag.2.2]
        exact fun hf => nomatch hf
  · exact h.queued_launch n pkt
  · exact h.opened
  · intro r hr
    simp [launch, hopen] at hr

theorem Stream.fin {t : Trace} {pkt : Bytes} {s : Segment} {next : State} (h : Stream t)
    (hs : FinSent t.state next) (hc : Carries pkt s t.nxt t.rcvNxt (FIN ||| ACK) [] []) :
    Stream { t.launch 1 pkt with state := next, closing := some ⟨t.written, t.sendBuf⟩ } := by
  have hopen : t.closing = none := h.opened hs.sending.preFin
  have hpos : t.nxtPos = 1 + t.sent.length := by simp [nxtPos, hopen]
  constructor
  · simp only [launch, h.nxt, point_add, nxtPos, hopen, sent]
    rfl
  · exact h.written
  · exact h.pieces
  · intro p hp
    simp only [launch, Option.isSome_some] at hp ⊢
    rcases List.mem_append.mp hp with hp | hp
    · obtain ⟨s', hdec, hst⟩ := h.emitted p hp
      rw [hopen] at hst
      exact ⟨s', hdec, hst.close⟩
    · rw [List.mem_singleton.mp hp]
      refine ⟨s, hc.decode, ?_, fun hne => absurd hc.payload hne, fun _ => ⟨rfl, hc.payload, ?_⟩, ?_⟩
      · rw [hc.flags]
        decide
      · rw [hc.seq, h.nxt, hpos]
        rfl
      · rw [hc.flags]
        exact fun hf => absurd hf (by decide)
  · exact h.queued_launch 1 pkt
  · exact fun hpre => absurd hpre hs.post
  · intro r hr
    simp only [Option.some.injEq] at hr
    subst hr
    exact h.written

theorem mem_queue_dropAcked {t : Trace} {ack : U32} :
    ∀ q ∈ (t.dropAcked ack).queue, ∃ r ∈ t.queue, r.packet = q.packet :=
  fun q hq => ⟨q, (List.mem_filter.mp hq).1, rfl⟩

theorem Step.stream {inp : Option Segment} {t t' : Trace} (hstep : Step inp t t') (h : Stream t) :
    Stream t' := by
  have hid : ∀ q ∈ t.queue, ∃ r ∈ t.queue, r.packet = q.packet := fun q hq => ⟨q, hq, rfl⟩
  cases hstep with
  | ack _ hc _ => exact h.emit ⟨_, hc.decode, .bare hc⟩
  | resend hq _ => exact h.emit (h.emitted _ (h.queued _ hq))
  | data _ hs hn hle hf hc => exact h.data hs hn hle hf hc
  | fin _ hs hc => exact h.fin hs hc
  | ackNew _ _ hs _ => exact h.frame rfl (mem_queue_dropAcked (t := t.advance _)) id
  | mark _ _ hs =>
      refine h.frame rfl ?_ id
      intro q hq
      obtain ⟨r, hr, rfl⟩ := List.mem_map.mp hq
      exact ⟨r, hr, rfl⟩
  | deliver | pendFin => exact h.frame rfl hid id
  | takePending est => exact h.frame rfl hid fun _ => .inr (.inr (.inl est))
  | takeFin _ _ htaken _ => exact h.frame rfl hid fun hpre => absurd hpre htaken.post
  | finAcked _ _ hacked _ => exact h.frame rfl mem_queue_dropAcked fun hpre => absurd hpre hacked.post
  | openActive _ _ _ hwait _ =>
      exact h.frame rfl (mem_queue_dropAcked (t := t.advance _)) fun _ => .inl hwait
  | openPassive _ _ hwait _ =>
      exact h.frame rfl (mem_queue_dropAcked (t := t.advance _)) fun _ => .inr (.inl hwait)
  | die => exact h.frame rfl hid fun hpre => by simp [State.PreFin] at hpre

theorem Steps.stream {inp : Option Segment} {t t' : Trace} (hs : Steps inp t t') (h : Stream t) :
    Stream t' := hs.preserves (fun _ _ hstep => hstep.stream) h

theorem Stream.appCall {t : Trace} (h : Stream t) (x : Call) : Stream (t.appCall x) := by
  cases x with
  | write data =>
      refine ⟨h.nxt, ?_, h.pieces, h.emitted, h.queued, h.opened, h.closed⟩
      simp only [Trace.appCall, h.written, List.append_assoc]
      rfl
  | takeReceived => exact h.frame rfl (fun q hq => ⟨q, hq, rfl⟩) id
  | _ => exact h

theorem Run.stream {t t' : Trace} {xs : List Call} (hr : Run t xs t') (h : Stream t) : Stream t' := by
  induction hr with
  | nil => exact h
  | @cons t t₁ t' x xs steps rest ih => exact ih (steps.stream (h.appCall x))

end Trace

theorem Host.queued_emitted {F : Type} [F64 F] {h : Host F} {t : Trace} (hfol : Host.Follows h t)
    (hst : Trace.Stream t) {p : Bytes} (hp : ∃ s ∈ h.conn.retx.segments, s.packet = p) :
    p ∈ h.emitted := by
  obtain ⟨s, hs, rfl⟩ := hp
  rw [← hfol.emitted]
  exact hst.queued _ (hfol.mem_queue hs)

end TcpStack
