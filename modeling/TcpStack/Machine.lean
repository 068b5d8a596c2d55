import Mathlib.Logic.Relation
import TcpStack.Host

/-!
# The sequence-number machine

A connection without its clocks, windows and congestion control: what is left
is the part that decides which bytes are sent under which sequence numbers and
which bytes are delivered. Its micro-steps say once what any call can do to
that part. A trace adds the history, and for the proofs the pieces the stream
was cut into and the unwrapped position of SND.UNA.
-/
namespace TcpStack
open Tcp TcpStack.Seq

/-- A queued segment without its timer. -/
structure Queued where
  startSeq : U32
  endSeq : U32
  packet : Bytes
  sacked : Bool
  deriving DecidableEq, Repr

def Unacked.queued (s : Unacked) : Queued := ⟨s.startSeq, s.endSeq, s.packet, s.sacked⟩

structure Core where
  state : State
  iss : U32
  una : U32
  nxt : U32
  rcvNxt : U32
  queue : List Queued
  sendBuf : Bytes
  recvBuf : Bytes
  reasm : Reassembler
  peerFin : Bool
  pendingFin : Option U32

def Connection.core {F : Type} [F64 F] (c : Connection F) : Core where
  state := c.state
  iss := c.send.iss
  una := c.send.una
  nxt := c.send.nxt
  rcvNxt := c.recv.nxt
  queue := c.retx.segments.map Unacked.queued
  sendBuf := c.sendBuf
  recvBuf := c.recvBuf
  reasm := c.reasm
  peerFin := c.peerFin
  pendingFin := c.pendingFin

/-- What a host records, the payloads of the data segments in the order they
were made, and the position of SND.UNA counted from the initial sequence number. -/
structure History where
  written : Bytes := []
  taken : Bytes := []
  emitted : List Bytes := []
  removed : List Queued := []
  closing : Option CloseRecord := none
  pieces : List Bytes := []
  unaPos : Nat := 0

/-- A core with its history. -/
structure Trace extends Core, History

/-- The packet reads back as a segment with these fields. -/
structure Carries (pkt : Bytes) (seg : Segment) (seq ack : U32) (flags : U8) (payload : Bytes)
    (blocks : List (U32 × U32)) : Prop where
  decode : decode pkt = some seg
  seq : seg.th.seq = seq
  ack : seg.th.ack = ack
  flags : seg.th.flags = flags
  payload : seg.payload = payload
  blocks : seg.opts.validBlocks = blocks

/-- The send side is open. -/
def State.Sending (s : State) : Prop := s = .established ∨ s = .closeWait

instance (s : State) : Decidable s.Sending := inferInstanceAs (Decidable (_ ∨ _))

/-- The receive side is open. -/
def State.Receiving (s : State) : Prop :=
  s = .established ∨ s = .closeWait ∨ s = .finWait1 ∨ s = .finWait2

instance (s : State) : Decidable s.Receiving := inferInstanceAs (Decidable (_ ∨ _))

namespace Trace

def sent (t : Trace) : Bytes := t.pieces.flatten

/-- The position of SND.NXT: the SYN, the bytes sent and the FIN. -/
def nxtPos (t : Trace) : Nat := 1 + t.sent.length + t.closing.isSome.toNat

def delivered (t : Trace) : Bytes := t.taken ++ t.recvBuf

def emit (t : Trace) (pkt : Bytes) : Trace := { t with emitted := t.emitted ++ [pkt] }

/-- Emit a new segment over the next `n` sequence numbers and queue it. -/
def launch (t : Trace) (n : Nat) (pkt : Bytes) : Trace :=
  { t with nxt := t.nxt + BitVec.ofNat 32 n
           queue := t.queue ++ [⟨t.nxt, t.nxt + BitVec.ofNat 32 n, pkt, false⟩]
           emitted := t.emitted ++ [pkt] }

def dropAcked (t : Trace) (ack : U32) : Trace :=
  { t with queue := t.queue.filter (fun q => before ack q.endSeq)
           removed := t.removed ++ t.queue.filter (fun q => !before ack q.endSeq) }

/-- Advance SND.UNA to `ack`. -/
def advance (t : Trace) (ack : U32) : Trace :=
  { t with una := ack, unaPos := t.unaPos + (ack - t.una).toNat }

def covered (blocks : List (U32 × U32)) (q : Queued) : Bool :=
  blocks.any (fun b => !before q.startSeq b.1 && !after q.endSeq b.2)

def markSacked (t : Trace) (blocks : List (U32 × U32)) : Trace :=
  { t with queue := t.queue.map (fun q => { q with sacked := q.sacked || covered blocks q }) }

def deliver (t : Trace) (seg : Segment) : Trace :=
  let r := t.reasm.recv seg.th.seq seg.payload t.rcvNxt
  { t with reasm := r.1, rcvNxt := t.rcvNxt + BitVec.ofNat 32 r.2.length, recvBuf := t.recvBuf ++ r.2 }

def finSeq (seg : Segment) : U32 := seg.th.seq + BitVec.ofNat 32 seg.payload.length

def takeFin (t : Trace) (next : State) : Trace :=
  { t with rcvNxt := t.rcvNxt + 1#32, peerFin := true, state := next }

/-- The state after our FIN, and after the acknowledgement of it. -/
inductive FinSent : State → State → Prop where
  | active : FinSent .established .finWait1
  | passive : FinSent .closeWait .lastAck

inductive FinAcked : State → State → Prop where
  | active : FinAcked .finWait1 .finWait2
  | both : FinAcked .closing .timeWait
  | passive : FinAcked .lastAck .closed

/-- The state after the peer's FIN, for the two states that take it at once. -/
inductive FinTaken : State → State → Prop where
  | unacked : FinTaken .finWait1 .closing
  | acked : FinTaken .finWait2 .timeWait

/-- One micro-step, while handling the segment `inp` if there is one. -/
inductive Step (inp : Option Segment) : Trace → Trace → Prop where
  | ack {t : Trace} {pkt : Bytes} {s : Segment} {seq : U32} {blocks : List (U32 × U32)}
      (open_ : t.state ≠ .synSent) (carries : Carries pkt s seq t.rcvNxt ACK [] blocks)
      (held : blocks <+: t.reasm.sackBlocks) : Step inp t (t.emit pkt)
  | resend {t : Trace} {q : Queued} (mem : q ∈ t.queue) (hole : q.sacked = false) :
      Step inp t (t.emit q.packet)
  | data {t : Trace} {n : Nat} {pkt : Bytes} {s : Segment} {flags : U8} (idle : inp = none)
      (sending : t.state.Sending) (pos : 0 < n) (le : n ≤ t.sendBuf.length)
      (plain : flags = PSH ||| ACK ∨ flags = ACK)
      (carries : Carries pkt s t.nxt t.rcvNxt flags (t.sendBuf.take n) []) :
      Step inp t { t.launch n pkt with sendBuf := t.sendBuf.drop n, pieces := t.pieces ++ [t.sendBuf.take n] }
  | fin {t : Trace} {pkt : Bytes} {s : Segment} {next : State} (idle : inp = none)
      (sending : FinSent t.state next)
      (carries : Carries pkt s t.nxt t.rcvNxt (FIN ||| ACK) [] []) :
      Step inp t { t.launch 1 pkt with state := next, closing := some ⟨t.written, t.sendBuf⟩ }
  | ackNew {t : Trace} {seg : Segment} (input : inp = some seg) (flag : hasFlag seg.th.flags ACK = true)
      (sending : t.state.Sending) (new : between t.una seg.th.ack t.nxt = true) :
      Step inp t ((t.advance seg.th.ack).dropAcked seg.th.ack)
  | mark {t : Trace} {seg : Segment} (input : inp = some seg) (flag : hasFlag seg.th.flags ACK = true)
      (sending : t.state.Sending) : Step inp t (t.markSacked seg.opts.validBlocks)
  | deliver {t : Trace} {seg : Segment} (input : inp = some seg) (receiving : t.state.Receiving) :
      Step inp t (t.deliver seg)
  | pendFin {t : Trace} {seg : Segment} (input : inp = some seg) (flag : hasFlag seg.th.flags FIN = true)
      (est : t.state = .established) (ahead : before (finSeq seg) t.rcvNxt = false) :
      Step inp t { t with pendingFin := some (finSeq seg) }
  | takePending {t : Trace} (est : t.state = .established) (due : t.pendingFin = some t.rcvNxt) :
      Step inp t { t.takeFin .closeWait with pendingFin := none }
  | takeFin {t : Trace} {seg : Segment} {next : State} (input : inp = some seg)
      (flag : hasFlag seg.th.flags FIN = true) (taken : FinTaken t.state next)
      (due : finSeq seg = t.rcvNxt) : Step inp t (t.takeFin next)
  | finAcked {t : Trace} {seg : Segment} {next : State} (input : inp = some seg)
      (flag : hasFlag seg.th.flags ACK = true) (acked : FinAcked t.state next)
      (exact : seg.th.ack = t.nxt) : Step inp t { t.dropAcked seg.th.ack with state := next }
  | openActive {t : Trace} {seg : Segment} (input : inp = some seg)
      (syn : hasFlag seg.th.flags SYN = true) (flag : hasFlag seg.th.flags ACK = true)
      (wait : t.state = .synSent) (exact : seg.th.ack = t.nxt) :
      Step inp t { (t.advance seg.th.ack).dropAcked seg.th.ack with
        state := .established, rcvNxt := seg.th.seq + 1#32, reasm := .new (seg.th.seq + 1#32) }
  | openPassive {t : Trace} {seg : Segment} (input : inp = some seg)
      (flag : hasFlag seg.th.flags ACK = true) (wait : t.state = .synRcvd) (exact : seg.th.ack = t.nxt) :
      Step inp t { (t.advance seg.th.ack).dropAcked seg.th.ack with state := .established }
  | die {t : Trace} (cause : (t.state ≠ .synSent ∧ t.state ≠ .synRcvd) ∨
      ∃ seg, inp = some seg ∧ hasFlag seg.th.flags RST = true) :
      Step inp t { t with state := .closed }

/-- Any number of micro-steps on one input. -/
def Steps (inp : Option Segment) : Trace → Trace → Prop := Relation.ReflTransGen (Step inp)

theorem Steps.preserves {inp : Option Segment} {P : Trace → Prop} {t t' : Trace}
    (hstep : ∀ a b, Step inp a b → P a → P b) (h : Steps inp t t') (ht : P t) : P t' := by
  induction h with
  | refl => exact ht
  | tail _ hs ih => exact hstep _ _ hs ih

/-- A relation that is reflexive and transitive and holds of one micro-step holds of many. -/
theorem Steps.relates {inp : Option Segment} {R : Trace → Trace → Prop} {t t' : Trace}
    (hrefl : ∀ a, R a a) (htrans : ∀ a b c, R a b → R b c → R a c)
    (hstep : ∀ a b, Step inp a b → R a b) (h : Steps inp t t') : R t t' := by
  induction h with
  | refl => exact hrefl _
  | tail _ hs ih => exact htrans _ _ _ ih (hstep _ _ hs)

def Same (q r : Queued) : Prop := r.startSeq = q.startSeq ∧ r.endSeq = q.endSeq ∧ r.packet = q.packet

theorem Same.refl (q : Queued) : Same q q := ⟨rfl, rfl, rfl⟩

theorem Same.trans {p q r : Queued} (h : Same p q) (h' : Same q r) : Same p r :=
  ⟨h'.1.trans h.1, h'.2.1.trans h.2.1, h'.2.2.trans h.2.2⟩

/-- A queued segment stays queued or is removed, and what is removed stays so. -/
def Accounted (t t' : Trace) : Prop :=
  (∀ r ∈ t.removed, r ∈ t'.removed) ∧
    ∀ q ∈ t.queue, (∃ r ∈ t'.queue, Same q r) ∨ ∃ r ∈ t'.removed, Same q r

theorem Accounted.of_queue {t t' : Trace} (hr : t'.removed = t.removed)
    (hq : t.queue <+: t'.queue) : Accounted t t' := by
  refine ⟨fun r h => hr ▸ h, fun q h => .inl ⟨q, hq.subset h, .refl q⟩⟩

theorem Accounted.refl (t : Trace) : Accounted t t := of_queue rfl (List.prefix_rfl)

theorem Accounted.trans {a b c : Trace} (h : Accounted a b) (h' : Accounted b c) : Accounted a c := by
  refine ⟨fun r hr => h'.1 r (h.1 r hr), fun q hq => ?_⟩
  rcases h.2 q hq with ⟨r, hr, hs⟩ | ⟨r, hr, hs⟩
  · rcases h'.2 r hr with ⟨x, hx, hs'⟩ | ⟨x, hx, hs'⟩
    · exact .inl ⟨x, hx, hs.trans hs'⟩
    · exact .inr ⟨x, hx, hs.trans hs'⟩
  · exact .inr ⟨r, h'.1 r hr, hs⟩

theorem dropAcked_accounted (t : Trace) (ack : U32) : Accounted t (t.dropAcked ack) := by
  refine ⟨fun r hr => List.mem_append_left _ hr, fun q hq => ?_⟩
  cases hb : before ack q.endSeq with
  | true => exact .inl ⟨q, List.mem_filter.mpr ⟨hq, hb⟩, .refl q⟩
  | false =>
      exact .inr ⟨q, List.mem_append_right _ (List.mem_filter.mpr ⟨hq, by simp [hb]⟩), .refl q⟩

theorem Step.accounted {inp : Option Segment} {t t' : Trace} (h : Step inp t t') : Accounted t t' := by
  cases h with
  | data | fin => exact .of_queue rfl (List.prefix_append _ _)
  | ackNew | openActive | openPassive => exact (dropAcked_accounted (t.advance _) _ :)
  | finAcked => exact (dropAcked_accounted t _ :)
  | mark =>
      refine ⟨fun r hr => hr, fun q hq => .inl ⟨_, List.mem_map_of_mem hq, rfl, rfl, rfl⟩⟩
  | ack | resend | deliver | pendFin | takePending | takeFin | die => exact .of_queue rfl List.prefix_rfl

theorem Steps.accounted {inp : Option Segment} {t t' : Trace} (h : Steps inp t t') : Accounted t t' :=
  h.relates .refl (fun _ _ _ => .trans) fun _ _ => Step.accounted

def input : Call → Option Segment
  | .onSegment seg _ _ => some seg
  | _ => none

/-- What the application does to a trace before the connection moves. -/
def appCall (t : Trace) : Call → Trace
  | .write data => { t with sendBuf := t.sendBuf ++ data, written := t.written ++ data }
  | .takeReceived => { t with recvBuf := [], taken := t.taken ++ t.recvBuf }
  | _ => t

/-- A run of calls, each followed by its micro-steps. -/
inductive Run : Trace → List Call → Trace → Prop where
  | nil (t : Trace) : Run t [] t
  | cons {t t₁ t' : Trace} {x : Call} {xs : List Call} (steps : Steps (input x) (t.appCall x) t₁)
      (rest : Run t₁ xs t') : Run t (x :: xs) t'

theorem Step.written {inp : Option Segment} {t t' : Trace} (h : Step inp t t') :
    t'.written = t.written := by
  cases h <;> rfl

theorem Steps.written {inp : Option Segment} {t t' : Trace} (h : Steps inp t t') :
    t'.written = t.written :=
  h.relates (R := fun a b => b.written = a.written) (fun _ => rfl) (fun _ _ _ h₁ h₂ => h₂.trans h₁)
    fun _ _ => Step.written

theorem appCall_written (t : Trace) (x : Call) : t.written <+: (t.appCall x).written := by
  cases x <;> first | exact List.prefix_rfl | exact List.prefix_append _ _

theorem Run.written {t t' : Trace} {xs : List Call} (h : Run t xs t') : t.written <+: t'.written := by
  induction h with
  | nil t => exact List.prefix_rfl
  | @cons t t₁ t' x xs steps rest ih =>
      exact (appCall_written t x).trans (steps.written ▸ ih)

end Trace
end TcpStack
