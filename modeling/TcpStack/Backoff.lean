import Mathlib.Logic.Function.Iterate
import TcpStack.Timers

/-!
# Backing off

Every segment has its own retransmission timer, and the back-off is shared. It
goes up once for each tick on which some segment waited for the whole timeout,
whichever segment that was and however many they were.
-/
namespace TcpStack
open Tcp TcpStack.Seq

variable {F : Type} [F64 F]

namespace Connection
open RetxQueue

/-- The places that the timeout sends again in a tick. -/
def timeoutPlaces (c : Connection F) (now : U64) : List Nat := ((c.tickRack now).1.tickProbe now).1.duePlaces now

def oldest (c : Connection F) : Option Nat := c.retx.segments.findIdx? fun s => !s.sacked

/-- The timeout sends the oldest segment again. -/
def OldestTimesOut (c : Connection F) (now : U64) : Prop := ∃ i ∈ c.oldest, i ∈ c.timeoutPlaces now

instance (c : Connection F) (now : U64) : Decidable (OldestTimesOut c now) :=
  inferInstanceAs (Decidable (∃ i ∈ c.oldest, i ∈ c.timeoutPlaces now))

theorem timesOut_iff {c : Connection F} {now : U64} : TimesOut c now ↔ c.timeoutPlaces now ≠ [] := by
  refine not_congr ⟨fun hnil => ?_, fun hnil => ?_⟩
  · rw [List.eq_nil_iff_forall_not_mem]
    intro i hi
    obtain ⟨s, hs, hsack, hlate⟩ := mem_duePlaces.mp hi
    exact tickDue_nil.mp hnil s (List.mem_of_getElem? hs) hsack hlate
  · rw [← (tickDue_touched ((c.tickRack now).1.tickProbe now).1 now).packetsAt]
    exact (congrArg (packetsAt _) hnil :)

theorem OldestTimesOut.timesOut {c : Connection F} {now : U64} (h : OldestTimesOut c now) : TimesOut c now := by
  obtain ⟨i, -, hi⟩ := h
  exact timesOut_iff.mpr (List.ne_nil_of_mem hi)

theorem mem_timeoutPlaces {c : Connection F} (hrtt : c.rtt.Backed) {now : U64} {i : Nat}
    (h : i ∈ c.timeoutPlaces now) : ∃ s, c.retx.segments[i]? = some s ∧ s.sacked = false ∧
      c.rtt.rto ≤ saturatingSub now s.sentAtMs := by
  have hpos := hrtt.rto_pos
  obtain ⟨s, hs, hsack, hlate⟩ := mem_duePlaces.mp h
  rw [tickProbe_rtt] at hlate
  have hold : s.sentAtMs ≠ now := by
    rintro rfl
    have hzero : saturatingSub s.sentAtMs s.sentAtMs = 0#64 := by simp [saturatingSub]
    rw [hzero] at hlate
    have hle : c.rtt.rto.toNat ≤ 0 := hlate
    omega
  obtain ⟨t, _, ht, hprobe, -⟩ := (tickProbe_touched (c.tickRack now).1 now).at hs
  obtain ⟨u, _, hu, hrack, -⟩ := (c.tickRack_touched now).at ht
  -- neither of the timers before took it, so it stands in the queue as it was
  obtain ⟨hsack', rfl | hat⟩ := hprobe.unsacked hsack
  swap
  · exact absurd hat hold
  obtain ⟨hsack'', rfl | hat⟩ := hrack.unsacked hsack'
  swap
  · exact absurd hat hold
  exact ⟨_, hu, hsack'', hlate⟩

end Connection

namespace Host
open Connection RetxQueue

/-- The states that the ticks of a run find, with their times. -/
def ticks : Host F → List Call → List (Connection F × U64)
  | _, [] => []
  | h, x :: calls =>
      (match x with
        | .onTick now => [(h.conn, now)]
        | _ => []) ++ ticks (h.call x) calls

/-- The ticks on which the timeout sends something again. -/
def timeouts (h : Host F) (calls : List Call) : List (Connection F × U64) :=
  (h.ticks calls).filter fun t => decide (TimesOut t.1 t.2)

theorem ticks_other {x : Call} (hx : ∀ now, x ≠ .onTick now) (h : Host F) (calls : List Call) :
    h.ticks (x :: calls) = (h.call x).ticks calls := by
  cases x with
  | onTick now => exact absurd rfl (hx now)
  | write | takeReceived | setNodelay | setKeepalive | useBbr | pollTransmit | close | onSegment => rfl

theorem timeouts_tick (now : U64) (h : Host F) (calls : List Call) : h.timeouts (.onTick now :: calls) =
    (if TimesOut h.conn now then [(h.conn, now)] else []) ++ (h.call (.onTick now)).timeouts calls := by
  have hcons : h.ticks (.onTick now :: calls) = (h.conn, now) :: (h.call (.onTick now)).ticks calls := rfl
  rw [timeouts, hcons, List.filter_cons]
  by_cases hdue : TimesOut h.conn now
  · rw [if_pos (decide_eq_true hdue), if_pos hdue]
    rfl
  · rw [if_neg (by simpa using hdue), if_neg hdue]
    rfl

theorem timeouts_other {x : Call} (hx : ∀ now, x ≠ .onTick now) (h : Host F) (calls : List Call) :
    h.timeouts (x :: calls) = (h.call x).timeouts calls := by
  rw [timeouts, ticks_other hx]
  rfl

theorem ticks_reached {h : Host F} {calls : List Call} {t : Connection F × U64} (ht : t ∈ h.ticks calls) :
    ∃ pre, t.1 = (h.run pre).conn := by
  induction calls generalizing h with
  | nil => cases ht
  | cons x calls ih =>
      rcases List.mem_append.mp ht with hhead | hrest
      · split at hhead
        · rw [List.mem_singleton.mp hhead]
          exact ⟨[], rfl⟩
        · cases hhead
      · obtain ⟨pre, heq⟩ := ih hrest
        exact ⟨x :: pre, heq⟩

theorem call_cong (h : Host F) {x : Call} (hx : ∀ seg now rnd, x ≠ .onSegment seg now rnd) (hbbr : x ≠ .useBbr) :
    (h.call x).conn.cong = match x with
      | .onTick now => if TimesOut h.conn now then h.conn.cong.onTimeout h.conn.flightSize else h.conn.cong
      | _ => h.conn.cong := by
  rcases h.call_steers hbbr with ⟨seg, now, rnd, _, rfl, -⟩ | ⟨now, rfl, hdue, hhelm⟩ | ⟨-, hquiet, hhelm⟩
  · exact absurd rfl (hx seg now rnd)
  · rw [show (h.call (.onTick now)).conn.cong = _ from congrArg (fun helm => helm.2.1) hhelm]
    dsimp only
    rw [if_pos hdue]
  · rw [show (h.call x).conn.cong = h.conn.cong from congrArg (fun helm => helm.2.1) hhelm]
    split
    · rw [if_neg (hquiet _ rfl)]
    · rfl

theorem run_rtt {calls : List Call} (hx : ∀ x ∈ calls, ∀ seg now rnd, x ≠ .onSegment seg now rnd) (h : Host F) :
    (h.run calls).conn.rtt = RttEstimator.backOff^[(h.timeouts calls).length] h.conn.rtt := by
  induction calls generalizing h with
  | nil => rfl
  | cons x calls ih =>
      have hcall := h.call_rtt (hx x (List.mem_cons_self ..))
      rw [run_cons, ih (fun y hy => hx y (List.mem_cons_of_mem _ hy)), hcall]
      by_cases htick : ∃ now, x = .onTick now
      · obtain ⟨now, rfl⟩ := htick
        rw [timeouts_tick]
        dsimp only
        split_ifs
        · rfl
        · rfl
      · push Not at htick
        rw [timeouts_other htick]
        split
        · exact absurd rfl (htick _)
        · rfl

theorem run_cong {calls : List Call} (hx : ∀ x ∈ calls, ∀ seg now rnd, x ≠ .onSegment seg now rnd)
    (hbbr : .useBbr ∉ calls) (h : Host F) :
    (h.run calls).conn.cong = (h.timeouts calls).foldl (fun cong t => cong.onTimeout t.1.flightSize) h.conn.cong := by
  induction calls generalizing h with
  | nil => rfl
  | cons x calls ih =>
      obtain ⟨hhead, hrest⟩ := not_or.mp (mt List.mem_cons.mpr hbbr)
      have hcall := h.call_cong (hx x (List.mem_cons_self ..)) (Ne.symm hhead)
      rw [run_cons, ih (fun y hy => hx y (List.mem_cons_of_mem _ hy)) hrest, hcall]
      by_cases htick : ∃ now, x = .onTick now
      · obtain ⟨now, rfl⟩ := htick
        rw [timeouts_tick]
        dsimp only
        split_ifs
        · rfl
        · rfl
      · push Not at htick
        rw [timeouts_other htick]
        split
        · exact absurd rfl (htick _)
        · rfl

/-- The back-off counts the ticks on which the timeout sends something again. Each
of these segments waited for the timeout on its own timer, and the timeouts of the
oldest segment are as many only if it is sent again on each of these ticks. -/
theorem one_backoff_per_timeout_tick {h : Host F} (hf : Fresh h) (calls : List Call) {quiet : List Call}
    (hquiet : ∀ x ∈ quiet, ∀ seg now rnd, x ≠ .onSegment seg now rnd) :
    let k := h.run calls
    (k.run quiet).conn.rtt = RttEstimator.backOff^[(k.timeouts quiet).length] k.conn.rtt ∧
    (.useBbr ∉ quiet → (k.run quiet).conn.cong =
      (k.timeouts quiet).foldl (fun cong t => cong.onTimeout t.1.flightSize) k.conn.cong) ∧
    (∀ t ∈ k.ticks quiet, ∀ i ∈ t.1.timeoutPlaces t.2, ∃ s, t.1.retx.segments[i]? = some s ∧ s.sacked = false ∧
      t.1.rtt.rto ≤ saturatingSub t.2 s.sentAtMs) ∧
    (∀ t ∈ k.ticks quiet, t ∈ k.timeouts quiet ↔ t.1.timeoutPlaces t.2 ≠ []) ∧
    ((k.timeouts quiet).length ≤ (k.ticks quiet).countP (fun t => decide (OldestTimesOut t.1 t.2)) ↔
      ∀ t ∈ k.timeouts quiet, OldestTimesOut t.1 t.2) := by
  intro k
  refine ⟨run_rtt hquiet k, fun hbbr => run_cong hquiet hbbr k, fun t ht i hi => ?_, fun t ht => ?_, ?_⟩
  · obtain ⟨pre, heq⟩ := ticks_reached ht
    refine mem_timeoutPlaces ?_ hi
    rw [heq, ← run_append]
    exact run_backed hf (calls ++ pre)
  · rw [timeouts, List.mem_filter, decide_eq_true_eq, ← timesOut_iff]
    exact and_iff_right ht
  · have holdest : (k.ticks quiet).countP (fun t => decide (OldestTimesOut t.1 t.2)) =
        (k.timeouts quiet).countP fun t => decide (OldestTimesOut t.1 t.2) := by
      rw [timeouts, List.countP_filter]
      refine List.countP_congr fun t _ => ?_
      rw [Bool.and_eq_true, decide_eq_true_eq, decide_eq_true_eq]
      exact (and_iff_left_of_imp OldestTimesOut.timesOut).symm
    rw [holdest]
    constructor
    · intro hle t ht
      exact of_decide_eq_true (List.countP_eq_length.mp (List.countP_le_length.antisymm hle) t ht)
    · intro hall
      exact (List.countP_eq_length.mpr fun t ht => decide_eq_true (hall t ht)).ge

/-- Three bytes in three segments, sent at three times. -/
def staggered : List Call :=
  [.onSegment ⟨⟨80#16, 4000#16, 500#32, 101#32, 28, SYN ||| ACK, 8#16⟩, [],
      { mss := some 1#16, sackPermitted := true }⟩ 1#64 0#32,
    .write [0#8], .pollTransmit 3#64, .write [1#8], .pollTransmit 103#64, .write [2#8], .pollTransmit 153#64]

def staggeredTicks : List Call := [.onTick 203#64, .onTick 503#64]

/-- The first segment times out, and later the second; the probe takes the third. -/
theorem second_segment_backs_off_again :
    ((narrow.run staggered).timeouts staggeredTicks).length = 2 ∧
      ((narrow.run staggered).run staggeredTicks).conn.rtt.backoffShift = 2#32 ∧
      ((narrow.run staggered).ticks staggeredTicks).countP (fun t => decide (OldestTimesOut t.1 t.2)) = 1 :=
  ⟨by decide +kernel, by decide +kernel, by decide +kernel⟩

theorem staggered_backs_off_per_tick : ((narrow.run staggered).run staggeredTicks).conn.rtt =
    RttEstimator.backOff^[2] (narrow.run staggered).conn.rtt := by
  have htwo : ((narrow.run staggered).timeouts staggeredTicks).length = 2 := by decide +kernel
  have hquiet : ∀ x ∈ staggeredTicks, ∀ seg now rnd, x ≠ .onSegment seg now rnd := by simp [staggeredTicks]
  rw [← htwo]
  exact (one_backoff_per_timeout_tick (h := narrow) (.connect ..) staggered hquiet).1

end Host
end TcpStack
