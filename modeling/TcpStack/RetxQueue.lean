import TcpStack.Seq

/-!
# The retransmission queue

Sent-but-unacknowledged segments in the order they were recorded, each with
the bytes to resend.
-/
namespace TcpStack
open TcpStack.Seq

def dupThresh : Nat := 3

/-- One sent-but-unacknowledged segment. -/
structure Unacked where
  startSeq : U32
  endSeq : U32
  packet : Bytes
  sentAtMs : U64
  retries : U32
  sacked : Bool
  deriving DecidableEq, Repr

structure RetxQueue where
  segments : List Unacked := []
  rackXmitTs : U64 := 0#64
  rackEndSeq : U32 := 0#32
  deriving DecidableEq, Repr

/-- Count one more transmission, at `nowMs`; the count wraps. -/
def Unacked.resend (s : Unacked) (nowMs : U64) : Unacked :=
  { s with sentAtMs := nowMs, retries := s.retries + 1#32 }

theorem Unacked.resend_retries (s : Unacked) (nowMs : U64) : (s.resend nowMs).retries ≠ s.retries := by
  intro h
  have hval := congrArg BitVec.toNat h
  simp only [Unacked.resend, BitVec.toNat_add, BitVec.toNat_ofNat] at hval
  have hlt := s.retries.isLt
  omega

namespace RetxQueue

def record (q : RetxQueue) (startSeq endSeq : U32) (packet : Bytes) (nowMs : U64) : RetxQueue :=
  { q with segments := q.segments ++
      [{ startSeq, endSeq, packet, sentAtMs := nowMs, retries := 0#32, sacked := false }] }

/-- The most recently sent of the segments seen so far. -/
def rackStep (rack : U64 × U32) (s : Unacked) : U64 × U32 :=
  if s.sentAtMs ≥ rack.1 then (s.sentAtMs, s.endSeq) else rack

/-- The first of the removed segments that was never retransmitted. -/
def sampleStep (nowMs : U64) (sample : Option U64) (s : Unacked) : Option U64 :=
  if s.retries = 0#32 ∧ sample.isNone then some (saturatingSub nowMs s.sentAtMs) else sample

/-- Drop every segment fully acknowledged by `una`; returns an RTT sample. -/
def ack (q : RetxQueue) (una : U32) (nowMs : U64) : RetxQueue × Option U64 :=
  let removed := q.segments.filter (fun s => !before una s.endSeq)
  let rack := removed.foldl rackStep (q.rackXmitTs, q.rackEndSeq)
  ({ segments := q.segments.filter (fun s => before una s.endSeq)
     rackXmitTs := rack.1
     rackEndSeq := rack.2 }, removed.foldl (sampleStep nowMs) none)

/-- Resend every segment for which `p` holds, in order. -/
def resendWhere (p : Unacked → Bool) (nowMs : U64) (segments : List Unacked) :
    List Unacked × List Bytes :=
  (segments.map (fun s => if p s then s.resend nowMs else s),
    (segments.filter p).map Unacked.packet)

/-- Packets whose retransmission timeout has elapsed. -/
def due (q : RetxQueue) (nowMs rtoMs : U64) : RetxQueue × List Bytes :=
  let (segments, out) := resendWhere
    (fun s => !s.sacked && decide (saturatingSub nowMs s.sentAtMs ≥ rtoMs)) nowMs q.segments
  ({ q with segments }, out)

/-- Resend the first segment for which `p` holds. -/
def resendFirst (p : Unacked → Bool) (nowMs : U64) : List Unacked → Option (List Unacked × Bytes)
  | [] => none
  | s :: rest =>
      if p s then some (s.resend nowMs :: rest, s.packet)
      else (resendFirst p nowMs rest).map (fun r => (s :: r.1, r.2))

/-- Fast retransmit: the oldest segment the peer has not selectively acked. -/
def fastRetransmit (q : RetxQueue) (nowMs : U64) : RetxQueue × Option Bytes :=
  match resendFirst (fun s => !s.sacked) nowMs q.segments with
  | some (segments, pkt) => ({ q with segments }, some pkt)
  | none => (q, none)

/-- `[start, end)` lies inside one of the blocks, compared modulo 2³². -/
def covered (blocks : List (U32 × U32)) (s : Unacked) : Bool :=
  blocks.any (fun b => !before s.startSeq b.1 && !after s.endSeq b.2)

def markSacked (q : RetxQueue) (blocks : List (U32 × U32)) : RetxQueue :=
  let fresh := q.segments.filter (fun s => !s.sacked && covered blocks s)
  let rack := fresh.foldl rackStep (q.rackXmitTs, q.rackEndSeq)
  { segments := q.segments.map (fun s =>
      if !s.sacked && covered blocks s then { s with sacked := true } else s)
    rackXmitTs := rack.1
    rackEndSeq := rack.2 }

/-- Resend every hole that a more recently sent, already acknowledged segment exposes. -/
def rackMarkLost (q : RetxQueue) (nowMs reoWndMs : U64) : RetxQueue × List Bytes :=
  let (segments, out) := resendWhere (fun s => !s.sacked &&
    (decide (s.sentAtMs < q.rackXmitTs) && before s.startSeq q.rackEndSeq &&
      decide (saturatingSub nowMs s.sentAtMs > reoWndMs))) nowMs q.segments
  ({ q with segments }, out)

/-- The tail loss probe: the last segment that is not selectively acked. -/
def retransmitLast (q : RetxQueue) (nowMs : U64) : RetxQueue × Option Bytes :=
  match resendFirst (fun s => !s.sacked) nowMs q.segments.reverse with
  | some (segments, pkt) => ({ q with segments := segments.reverse }, some pkt)
  | none => (q, none)

/-- Lost: not selectively acked, with `thresh` selectively acked segments above it. -/
def isLost (segments : List Unacked) (thresh : Nat) (seg : Unacked) : Bool :=
  !seg.sacked &&
    decide ((segments.filter (fun s => s.sacked && after s.startSeq seg.startSeq)).length ≥ thresh)

def pipe (q : RetxQueue) (thresh : Nat) : U32 :=
  q.segments.foldl (fun pipe s =>
    if s.sacked then pipe
    else if !isLost q.segments thresh s || decide (s.retries > 0#32) then pipe + (s.endSeq - s.startSeq)
    else pipe) 0#32

/-- The lowest lost segment that was not retransmitted yet. -/
def nextLostRetransmit (q : RetxQueue) (thresh : Nat) (nowMs : U64) : RetxQueue × Option Bytes :=
  match resendFirst (fun s => !s.sacked && decide (s.retries = 0#32) && isLost q.segments thresh s)
      nowMs q.segments with
  | some (segments, pkt) => ({ q with segments }, some pkt)
  | none => (q, none)

theorem resendWhere_nil {p : Unacked → Bool} {nowMs : U64} {segments : List Unacked} :
    (resendWhere p nowMs segments).2 = [] ↔ ∀ s ∈ segments, p s = false := by
  simp only [resendWhere, List.map_eq_nil_iff, List.filter_eq_nil_iff, Bool.not_eq_true]

theorem resendWhere_self {p : Unacked → Bool} {segments : List Unacked} (nowMs : U64)
    (h : ∀ s ∈ segments, p s = false) : (resendWhere p nowMs segments).1 = segments := by
  refine (List.map_congr_left fun s hs => ?_).trans (List.map_id segments)
  rw [h s hs]
  rfl

theorem resendFirst_none {p : Unacked → Bool} {nowMs : U64} {segments : List Unacked} :
    resendFirst p nowMs segments = none ↔ ∀ s ∈ segments, p s = false := by
  induction segments with
  | nil => simp [resendFirst]
  | cons s rest ih =>
      cases hp : p s with
      | true => simp [resendFirst, hp]
      | false => simp [resendFirst, hp, ih]

theorem resendFirst_packet (p : Unacked → Bool) (nowMs : U64) (segments : List Unacked) :
    (resendFirst p nowMs segments).map Prod.snd = (segments.find? p).map Unacked.packet := by
  induction segments with
  | nil => rfl
  | cons s rest ih =>
      cases hp : p s with
      | true => simp [resendFirst, hp]
      | false =>
          simp only [resendFirst, hp, Bool.false_eq_true, if_false, List.find?_cons, ← ih, Option.map_map]
          rfl

theorem resendFirst_split {p : Unacked → Bool} {nowMs : U64} {segments segments' : List Unacked} {pkt : Bytes}
    (h : resendFirst p nowMs segments = some (segments', pkt)) :
    ∃ l s r, segments = l ++ s :: r ∧ (∀ t ∈ l, p t = false) ∧ p s = true ∧
      segments' = l ++ s.resend nowMs :: r ∧ pkt = s.packet := by
  induction segments generalizing segments' with
  | nil => cases h
  | cons s rest ih =>
      unfold resendFirst at h
      split_ifs at h with hp
      · obtain ⟨rfl, rfl⟩ := Prod.mk.inj (Option.some.inj h)
        exact ⟨[], s, rest, rfl, fun t ht => (nomatch ht), hp, rfl, rfl⟩
      · obtain ⟨⟨rest', b⟩, hrest, heq⟩ := Option.map_eq_some_iff.mp h
        obtain ⟨rfl, rfl⟩ := Prod.mk.inj heq
        obtain ⟨l, t, r, rfl, hl, ht, rfl, rfl⟩ := ih hrest
        refine ⟨s :: l, t, r, rfl, fun u hu => ?_, ht, rfl, rfl⟩
        rcases List.mem_cons.mp hu with rfl | hu
        · exact Bool.eq_false_iff.mpr hp
        · exact hl u hu

/-- The search for a lost segment changes the one segment it resends, the first
that was sent only once. -/
theorem nextLostRetransmit_cases (q : RetxQueue) (thresh : Nat) (nowMs : U64) :
    (q.nextLostRetransmit thresh nowMs = (q, none) ∧
      ∀ s ∈ q.segments, (!s.sacked && decide (s.retries = 0#32) && isLost q.segments thresh s) = false) ∨
    ∃ l s r, q.segments = l ++ s :: r ∧
      (∀ t ∈ l, (!t.sacked && decide (t.retries = 0#32) && isLost q.segments thresh t) = false) ∧
      (!s.sacked && decide (s.retries = 0#32) && isLost q.segments thresh s) = true ∧
      q.nextLostRetransmit thresh nowMs = ({ q with segments := l ++ s.resend nowMs :: r }, some s.packet) := by
  unfold nextLostRetransmit
  split
  · rename_i segments pkt h
    obtain ⟨l, s, r, hq, hl, hs, rfl, rfl⟩ := resendFirst_split h
    exact .inr ⟨l, s, r, hq, hl, hs, rfl⟩
  · rename_i h
    exact .inl ⟨rfl, resendFirst_none.mp h⟩

theorem fastRetransmit_packet (q : RetxQueue) (nowMs : U64) :
    (q.fastRetransmit nowMs).2 = (q.segments.find? (fun s => !s.sacked)).map Unacked.packet := by
  rw [← resendFirst_packet _ nowMs, fastRetransmit]
  cases resendFirst (fun s => !s.sacked) nowMs q.segments <;> rfl

theorem retransmitLast_none {q : RetxQueue} {nowMs : U64} :
    (q.retransmitLast nowMs).2 = none ↔ ∀ s ∈ q.segments, s.sacked = true := by
  have hall : resendFirst (fun s => !s.sacked) nowMs q.segments.reverse = none ↔
      ∀ s ∈ q.segments, s.sacked = true := by simp [resendFirst_none]
  rw [← hall, retransmitLast]
  cases resendFirst (fun s => !s.sacked) nowMs q.segments.reverse <;> simp

end RetxQueue
end TcpStack
