import TcpStack.Transmit
import TcpStack.OnSegment

/-!
# A connection and its history

A host is a connection together with what its application and the wire have
seen of it. Running a list of calls on a fresh host gives every state the
connection can reach under any local use and any peer.
-/
namespace TcpStack
open Tcp

/-- Everything that can be done to a connection after it was opened. -/
inductive Call where
  | write (data : Bytes)
  | pollTransmit (now : U64)
  | onTick (now : U64)
  | close (now : U64)
  | takeReceived
  | setNodelay (nodelay : Bool)
  | setKeepalive (on : Bool)
  | useBbr
  | onSegment (seg : Segment) (now : U64) (rnd : U32)
  deriving DecidableEq, Repr

def Call.isLocal : Call → Bool
  | .onSegment .. => false
  | _ => true

/-- What was written, and what of it was still queued, when our FIN was sent. -/
structure CloseRecord where
  written : Bytes
  queued : Bytes
  deriving DecidableEq, Repr

structure Host (F : Type) [F64 F] where
  conn : Connection F
  /-- All bytes the application has written. -/
  written : Bytes := []
  /-- All bytes the application has taken. -/
  taken : Bytes := []
  /-- All packets put on the wire, oldest first. -/
  emitted : List Bytes := []
  /-- All segments that acknowledgements removed from the queue. -/
  removed : List Unacked := []
  closing : Option CloseRecord := none

namespace Host

variable {F : Type} [F64 F]

/-- Bytes delivered to the application. -/
def delivered (h : Host F) : Bytes := h.taken ++ h.conn.recvBuf

/-- Two queue entries are the same segment, whatever happened to its timer and marks. -/
def sameSegment (s r : Unacked) : Bool :=
  s.startSeq == r.startSeq && s.endSeq == r.endSeq && s.packet == r.packet

/-- The segments of `old` that `new` no longer holds. -/
def gone (old new : RetxQueue) : List Unacked :=
  old.segments.filter (fun s => !new.segments.any (sameSegment s))

/-- One call on the connection, with its history. -/
def call (h : Host F) : Call → Host F
  | .write data => { h with conn := h.conn.write data, written := h.written ++ data }
  | .pollTransmit now =>
      let r := h.conn.pollTransmit now
      { h with conn := r.1, emitted := h.emitted ++ r.2 }
  | .onTick now =>
      let r := h.conn.onTick now
      { h with conn := r.1, emitted := h.emitted ++ r.2 }
  | .close now =>
      match h.conn.close now with
      | (conn, some fin) =>
          { h with conn, emitted := h.emitted ++ [fin], closing := some ⟨h.written, h.conn.sendBuf⟩ }
      | (conn, none) => { h with conn }
  | .takeReceived =>
      let r := h.conn.takeReceived
      { h with conn := r.1, taken := h.taken ++ r.2 }
  | .setNodelay nodelay => { h with conn := h.conn.setNodelay nodelay }
  | .setKeepalive on => { h with conn := h.conn.setKeepalive on }
  | .useBbr => { h with conn := h.conn.useBbr }
  | .onSegment seg now rnd =>
      let r := h.conn.onSegment seg now rnd
      { h with conn := r.1, emitted := h.emitted ++ r.2.toList
               removed := h.removed ++ gone h.conn.retx r.1.retx }

def run (h : Host F) (calls : List Call) : Host F := calls.foldl call h

@[simp] theorem run_nil (h : Host F) : h.run [] = h := rfl
@[simp] theorem run_cons (h : Host F) (x : Call) (calls : List Call) :
    h.run (x :: calls) = (h.call x).run calls := rfl

theorem run_append (h : Host F) (xs ys : List Call) : h.run (xs ++ ys) = (h.run xs).run ys :=
  List.foldl_append

theorem run_preserves {P : Host F → Prop} (hcall : ∀ h x, P h → P (h.call x)) {h : Host F} (hh : P h)
    (calls : List Call) : P (h.run calls) := by
  induction calls generalizing h with
  | nil => exact hh
  | cons x calls ih => exact ih (hcall h x hh)

/-- Every call of the run meets `P` in the state it finds. -/
def Throughout (P : Connection F → Call → Prop) : Host F → List Call → Prop
  | _, [] => True
  | h, x :: calls => P h.conn x ∧ Throughout P (h.call x) calls

instance decidableThroughout {P : Connection F → Call → Prop} [∀ c x, Decidable (P c x)] :
    (h : Host F) → (calls : List Call) → Decidable (h.Throughout P calls)
  | _, [] => .isTrue trivial
  | h, x :: calls =>
      have := decidableThroughout (P := P) (h.call x) calls
      inferInstanceAs (Decidable (_ ∧ _))

theorem throughout_append {P : Connection F → Call → Prop} {h : Host F} {xs ys : List Call} :
    Throughout P h (xs ++ ys) ↔ Throughout P h xs ∧ Throughout P (h.run xs) ys := by
  induction xs generalizing h with
  | nil => simp only [List.nil_append, Throughout, run_nil, true_and]
  | cons x xs ih =>
      simp only [List.cons_append, Throughout, run_cons, ih, and_assoc]

/-- The host right after an active open. -/
def connect (localEnd remoteEnd : Endpoint) (iss : U32) (now : U64) (rnd : U32) : Host F :=
  let r := Connection.connectWithIss localEnd remoteEnd iss now rnd
  { conn := r.1, emitted := [r.2] }

/-- The host right after a passive open on the segment `seg`, when it is a SYN. -/
def accept (ipSrc ipDst : Ipv4Addr) (seg : Segment) (iss : U32) (now : U64) (rnd : U32) :
    Option (Host F) :=
  (Connection.acceptWithIssAt ipSrc ipDst seg.th seg.opts iss now rnd).map
    (fun r => { conn := r.1, emitted := [r.2] })

/-- The host rebuilt from a SYN cookie. -/
def cookie (localEnd remoteEnd : Endpoint) (peerIsn cookie : U32) (sendMss : U16) (now : U64)
    (rnd : U32) : Host F :=
  { conn := Connection.fromSynCookie localEnd remoteEnd peerIsn cookie sendMss now rnd }

/-- A host that was just opened, in one of the three ways. -/
inductive Fresh : Host F → Prop where
  | connect (localEnd remoteEnd : Endpoint) (iss : U32) (now : U64) (rnd : U32) :
      Fresh (connect localEnd remoteEnd iss now rnd)
  | accept {h : Host F} (ipSrc ipDst : Ipv4Addr) (seg : Segment) (iss : U32) (now : U64) (rnd : U32) :
      accept ipSrc ipDst seg iss now rnd = some h → Fresh h
  | cookie (localEnd remoteEnd : Endpoint) (peerIsn isn : U32) (sendMss : U16) (now : U64) (rnd : U32) :
      Fresh (cookie localEnd remoteEnd peerIsn isn sendMss now rnd)

/-- A host to evaluate: rebuilt from a cookie, with SND.NXT at 101 and RCV.NXT at 501. -/
def sample : Host Rat :=
  cookie (Ipv4Addr.new 10#8 0#8 0#8 1#8, 4000#16) (Ipv4Addr.new 10#8 0#8 0#8 2#8, 80#16) 500#32 100#32 1000#16
    0#64 0#32

theorem sample_fresh : Fresh sample := .cookie ..

/-- A segment from the peer of `sample`, without options. -/
def samplePeer (flags : U8) (seq ack : U32) (payload : Bytes) : Segment :=
  ⟨⟨80#16, 4000#16, seq, ack, 20, flags, 1024#16⟩, payload, {}⟩

end Host
end TcpStack
