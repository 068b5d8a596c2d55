import TcpStack.Discipline

/-!
# A closed connection

CLOSED is never left, but a connection can enter it with segments still
queued, timers armed and challenge budget left. The module says exactly which
later calls put a packet on the wire.
-/
namespace TcpStack
open Tcp TcpStack.Seq

variable {F : Type} [F64 F]

namespace Connection

/-- A later acknowledged segment exposes `s` as a hole. -/
def Exposes (c : Connection F) (now : U64) (s : Unacked) : Prop :=
  s.sentAtMs < c.retx.rackXmitTs ∧ before s.startSeq c.retx.rackEndSeq = true ∧
    saturatingSub now s.sentAtMs > umax (c.rtt.rto / 4#64) 1#64

/-- The tail loss probe is armed and its time has come. -/
def ProbeDue (c : Connection F) (now : U64) : Prop :=
  c.tlpDeadlineMs ≠ 0#64 ∧ now ≥ c.tlpDeadlineMs ∧ c.flightSize > 0#32 ∧ c.cong.inRecovery = false ∧
    c.tlpSent = false

/-- Every queued segment is selectively acknowledged, or no timer wants it. -/
def TimersIdle (c : Connection F) (now : U64) : Prop :=
  ∀ s ∈ c.retx.segments, s.sacked = false →
    ¬ Exposes c now s ∧ ¬ saturatingSub now s.sentAtMs ≥ c.rtt.rto ∧ ¬ ProbeDue c now

theorem tickRack_nil {c : Connection F} {now : U64} :
    (c.tickRack now).2 = [] ↔ ∀ s ∈ c.retx.segments, s.sacked = false → ¬ Exposes c now s := by
  simp only [tickRack, RetxQueue.rackMarkLost, RetxQueue.resendWhere_nil]
  refine forall₂_congr fun s _ => ?_
  cases s.sacked <;> simp [Exposes]

theorem tickRack_self {c : Connection F} {now : U64} (h : (c.tickRack now).2 = []) :
    (c.tickRack now).1 = c := by
  simp only [tickRack, RetxQueue.rackMarkLost, RetxQueue.resendWhere_nil] at h ⊢
  rw [RetxQueue.resendWhere_self now h]

theorem tickProbe_nil {c : Connection F} {now : U64} :
    (c.tickProbe now).2 = [] ↔ ∀ s ∈ c.retx.segments, s.sacked = false → ¬ ProbeDue c now := by
  have hlast : (c.retx.retransmitLast now).2 = none ↔ ∀ s ∈ c.retx.segments, s.sacked = true :=
    RetxQueue.retransmitLast_none
  have hiff : (c.tlpDeadlineMs ≠ 0#64 ∧ now ≥ c.tlpDeadlineMs ∧ c.flightSize > 0#32 ∧
      (!c.cong.inRecovery) = true ∧ (!c.tlpSent) = true) ↔ ProbeDue c now := by simp [ProbeDue]
  have hsack : (∀ s ∈ c.retx.segments, s.sacked = true) ↔ ∀ s ∈ c.retx.segments, s.sacked = false → False := by
    refine forall₂_congr fun s _ => ?_
    cases s.sacked <;> simp
  unfold tickProbe
  by_cases hdue : ProbeDue c now
  · rw [if_pos (hiff.mpr hdue)]
    simp only [hdue, not_true_eq_false, ← hsack, ← hlast]
    generalize c.retx.retransmitLast now = r
    obtain ⟨retx, pkt⟩ := r
    cases pkt <;> simp
  · rw [if_neg (mt hiff.mp hdue)]
    simp [hdue]

theorem tickProbe_quiet {c : Connection F} {now : U64} (h : (c.tickProbe now).2 = []) :
    (c.tickProbe now).1.retx = c.retx ∧ (c.tickProbe now).1.rtt = c.rtt := by
  have hself : (c.retx.retransmitLast now).2 = none → (c.retx.retransmitLast now).1 = c.retx := by
    unfold RetxQueue.retransmitLast
    split
    · exact fun hnone => nomatch hnone
    · exact fun _ => rfl
  unfold tickProbe at h ⊢
  split_ifs at h ⊢
  · generalize c.retx.retransmitLast now = r at h hself
    obtain ⟨retx, pkt⟩ := r
    cases pkt with
    | some pkt => exact absurd h (by simp)
    | none => exact ⟨hself rfl, rfl⟩
  · exact ⟨rfl, rfl⟩

theorem tickDue_packets (c : Connection F) (now : U64) : (c.tickDue now).2 = (c.retx.due now c.rtt.rto).2 := by
  unfold tickDue
  dsimp only
  split
  · rename_i hnil
    exact (List.isEmpty_iff.mp hnil).symm
  · rfl

theorem tickDue_nil {c : Connection F} {now : U64} :
    (c.tickDue now).2 = [] ↔
      ∀ s ∈ c.retx.segments, s.sacked = false → ¬ saturatingSub now s.sentAtMs ≥ c.rtt.rto := by
  rw [tickDue_packets]
  simp only [RetxQueue.due, RetxQueue.resendWhere_nil]
  refine forall₂_congr fun s _ => ?_
  cases s.sacked <;> simp

/-- Outside the open states there is no window to probe and no peer to keep alive. -/
theorem tick_tail_closed {c : Connection F} (hs : c.state = .closed) (now : U64) :
    (c.tickPersist now).2 = [] ∧ ((c.tickPersist now).1.tickKeepalive now).2 = [] := by
  have hkeep : (c.tickPersist now).1.state = .closed := by
    rw [← still_state, tickPersist_still, still_state, hs]
  constructor
  · simp [tickPersist, hs]
  · simp [tickKeepalive, hkeep]

theorem onTick_closed {c : Connection F} (hs : c.state = .closed) (now : U64) :
    (c.onTick now).2 = [] ↔ TimersIdle c now := by
  have hreap : { c with tsVal := now.setWidth 32 }.reap now = { c with tsVal := now.setWidth 32 } := by
    simp [reap, hs]
  have hidle : TimersIdle c now ↔ TimersIdle { c with tsVal := now.setWidth 32 } now := Iff.rfl
  rw [hidle]
  unfold onTick
  dsimp only
  rw [hreap]
  have hds : { c with tsVal := now.setWidth 32 }.state = .closed := hs
  generalize { c with tsVal := now.setWidth 32 } = d at hds
  have htail := tick_tail_closed (c := (((d.tickRack now).1.tickProbe now).1.tickDue now).1)
    (by rw [← still_state, tickDue_still, tickProbe_still]; exact hds) now
  rw [htail.1, htail.2, List.append_nil, List.append_nil]
  simp only [List.append_eq_nil_iff]
  constructor
  · rintro ⟨⟨hrack, hprobe⟩, hdue⟩
    rw [tickRack_self hrack] at hprobe hdue
    rw [tickDue_nil, (tickProbe_quiet hprobe).1, (tickProbe_quiet hprobe).2] at hdue
    rw [tickRack_nil] at hrack
    rw [tickProbe_nil] at hprobe
    exact fun s hs hsack => ⟨hrack s hs hsack, hdue s hs hsack, hprobe s hs hsack⟩
  · intro h
    have hrack : (d.tickRack now).2 = [] := tickRack_nil.mpr fun s hs hsack => (h s hs hsack).1
    have hprobe : (d.tickProbe now).2 = [] := tickProbe_nil.mpr fun s hs hsack => (h s hs hsack).2.2
    have hdue : ((d.tickProbe now).1.tickDue now).2 = [] := by
      rw [tickDue_nil, (tickProbe_quiet hprobe).1, (tickProbe_quiet hprobe).2]
      exact fun s hs hsack => (h s hs hsack).2.1
    rw [tickRack_self hrack]
    exact ⟨⟨hrack, hprobe⟩, hdue⟩

/-- A reset in the window but off RCV.NXT, while the challenge budget lasts. -/
def Provokes (c : Connection F) (seg : Segment) (now : U64) : Prop :=
  hasFlag seg.th.flags RST = true ∧ seg.th.seq ≠ c.recv.nxt ∧ c.inWindow seg.th.seq = true ∧
    (now - c.challengeWindowMs ≥ challengeRefillMs ∨ c.challengeBudget ≠ 0#32)

theorem freshBudget_ne_zero (rnd : U32) : freshBudget rnd ≠ 0#32 := by
  intro hz
  have hval := congrArg BitVec.toNat hz
  rw [freshBudget_toNat, BitVec.toNat_ofNat] at hval
  omega

theorem maybeChallenge_none (c : Connection F) (now : U64) (rnd : U32) :
    (c.maybeChallenge now rnd).2 = none ↔
      ¬ (now - c.challengeWindowMs ≥ challengeRefillMs ∨ c.challengeBudget ≠ 0#32) := by
  unfold maybeChallenge
  dsimp only
  by_cases hover : now - c.challengeWindowMs ≥ challengeRefillMs
  · simp only [if_pos hover, if_neg (freshBudget_ne_zero rnd)]
    simp [hover]
  · simp only [if_neg hover]
    split_ifs with hb <;> simp [hover, hb]

theorem onSegment_closed {c : Connection F} (hs : c.state = .closed) (seg : Segment) (now : U64) (rnd : U32) :
    (c.onSegment seg now rnd).2 = none ↔ ¬ Provokes c seg now := by
  have hds : (c.arrive now).state = .closed := hs
  have hprov : Provokes c seg now ↔ Provokes (c.arrive now) seg now := Iff.rfl
  rw [hprov]
  unfold onSegment
  generalize c.arrive now = d at hds
  by_cases hrst : hasFlag seg.th.flags RST = true
  · simp only [hrst, if_true, onRst, hds, reduceCtorEq, if_false, Provokes, true_and]
    split_ifs with hseq hin
    · simp [hseq]
    · rw [maybeChallenge_none]
      simp [hseq, hin]
    · simp [hin]
  · simp [hrst, hds, isSynchronized, onSynRcvd, onState, Provokes]

end Connection

namespace Host
open Connection

/-- The call puts nothing on the wire from CLOSED. -/
def Mute (c : Connection F) : Call → Prop
  | .onTick now => TimersIdle c now
  | .onSegment seg now _ => ¬ Provokes c seg now
  | _ => True

theorem call_closed {h : Host F} (hs : h.conn.state = .closed) (x : Call) :
    (h.call x).conn.state = .closed := by
  have hedge := (call_turn h x).edge
  simpa [phase, hs, State.successors] using hedge

theorem call_emitted_closed {h : Host F} (hs : h.conn.state = .closed) (x : Call) :
    ∃ out, (h.call x).emitted = h.emitted ++ out ∧ (out = [] ↔ Mute h.conn x) := by
  cases x with
  | write | takeReceived | setNodelay | setKeepalive | useBbr => exact ⟨[], by simp [call], by simp [Mute]⟩
  | pollTransmit now =>
      have hout : (h.conn.pollTransmit now).2 = [] := by simp [pollTransmit, hs]
      exact ⟨_, rfl, by simp [hout, Mute]⟩
  | onTick now => exact ⟨_, rfl, onTick_closed hs now⟩
  | close now =>
      have hout : h.conn.close now = (h.conn, none) := by simp [close, hs]
      refine ⟨[], ?_, by simp [Mute]⟩
      simp [call, hout]
  | onSegment seg now rnd =>
      refine ⟨_, rfl, ?_⟩
      rw [Option.toList_eq_nil_iff]
      exact onSegment_closed hs seg now rnd

theorem run_emitted_closed (later : List Call) : ∀ h : Host F, h.conn.state = .closed →
    (h.run later).conn.state = .closed ∧
      ∃ out, (h.run later).emitted = h.emitted ++ out ∧ (out = [] ↔ Throughout Mute h later) := by
  induction later with
  | nil => exact fun h hs => ⟨hs, [], by simp, by simp [Throughout]⟩
  | cons x later ih =>
      intro h hs
      obtain ⟨out, hout, hmute⟩ := call_emitted_closed hs x
      obtain ⟨hst, out', hout', hmute'⟩ := ih (h.call x) (call_closed hs x)
      refine ⟨hst, out ++ out', ?_, ?_⟩
      · rw [run_cons, hout', hout, List.append_assoc]
      · rw [List.append_eq_nil_iff, hmute, hmute', Throughout]

/-- CLOSED is never left, and a run from it is silent exactly if no timer finds
a segment to resend and no reset provokes a challenge ACK. -/
theorem closed_is_silent_iff (h : Host F) (hs : h.conn.state = .closed) (later : List Call) :
    (h.run later).conn.state = .closed ∧
      ((h.run later).emitted = h.emitted ↔ Throughout Mute h later) := by
  obtain ⟨hst, out, hout, hmute⟩ := run_emitted_closed later h hs
  refine ⟨hst, ?_⟩
  rw [hout, ← hmute, List.append_right_eq_self]

/-- Reset with nothing in flight: no later call sends. -/
theorem idle_connection_closes_silently :
    let k := sample.run [.onSegment (samplePeer RST 501#32 0#32 []) 1#64 0#32]
    let later := [.write [7#8], .onTick 9000#64, .pollTransmit 9001#64, .close 9002#64]
    k.conn.state = .closed ∧ (k.run later).conn.state = .closed ∧ (k.run later).emitted = k.emitted := by
  intro k later
  have hs : k.conn.state = .closed := by decide +kernel
  obtain ⟨hst, hiff⟩ := closed_is_silent_iff k hs later
  have hempty : (k.call (.write [7#8])).conn.retx.segments = [] := by decide +kernel
  refine ⟨hs, hst, hiff.mpr ⟨trivial, fun s hmem => ?_, trivial, trivial, trivial⟩⟩
  rw [hempty] at hmem
  cases hmem

/-- Reset with a byte in flight: the connection is closed, and the timer sends
the byte again. -/
theorem reset_connection_keeps_sending :
    let k := sample.run [.write [7#8], .pollTransmit 1#64, .onSegment (samplePeer RST 501#32 0#32 []) 2#64 0#32]
    Fresh sample ∧ k.conn.state = .closed ∧ (k.conn.onTick 9000#64).2.length = 1 ∧
      (k.call (.onTick 9000#64)).emitted ≠ k.emitted :=
  ⟨sample_fresh, by decide +kernel, by decide +kernel, by decide +kernel⟩

end Host
end TcpStack
