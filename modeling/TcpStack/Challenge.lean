import TcpStack.Frame
import TcpStack.Injection
import TcpStack.Opening
import TcpStack.Throttle

/-!
# Blind resets and SYNs

A segment that could come from anybody who guesses the addresses and ports: a
RST away from RCV.NXT, or a SYN. Such segments change nothing but clocks, and
the challenge ACKs they earn are rate limited.
-/
namespace TcpStack
open Tcp TcpStack.Seq

variable {F : Type} [F64 F]

namespace Connection

/-- A reset that does not hit RCV.NXT, or meets TIME_WAIT, or a SYN. -/
def Blind (c : Connection F) (seg : Segment) : Prop :=
  (hasFlag seg.th.flags RST = true ∧ (seg.th.seq ≠ c.recv.nxt ∨ c.state = .timeWait)) ∨
    (hasFlag seg.th.flags RST = false ∧ hasFlag seg.th.flags SYN = true)

def throttle (c : Connection F) : Throttle 64 := ⟨c.challengeWindowMs, c.challengeBudget.toNat⟩

theorem freshBudget_le (rnd : U32) : (freshBudget rnd).toNat ≤ challengeAckMax.toNat := by
  rw [freshBudget_toNat, Nat.add_comm]
  exact Nat.mod_lt _ (by decide)

theorem maybeChallenge_request (c : Connection F) (now : U64) (rnd : U32) :
    ((c.maybeChallenge now rnd).1.throttle, (c.maybeChallenge now rnd).2.isSome) =
      c.throttle.request challengeRefillMs.toNat now (freshBudget rnd).toNat := by
  have hrenew : (if now - c.challengeWindowMs ≥ challengeRefillMs then
      { c with challengeWindowMs := now, challengeBudget := freshBudget rnd } else c).throttle =
        c.throttle.renew challengeRefillMs.toNat now (freshBudget rnd).toNat := by
    have hiff : now - c.challengeWindowMs ≥ challengeRefillMs ↔
        (now - c.throttle.start).toNat ≥ challengeRefillMs.toNat := BitVec.le_def
    unfold Throttle.renew
    by_cases hover : now - c.challengeWindowMs ≥ challengeRefillMs
    · rw [if_pos hover, if_pos (hiff.mp hover)]
      rfl
    · rw [if_neg hover, if_neg (mt hiff.mpr hover)]
  unfold maybeChallenge Throttle.request
  rw [← hrenew]
  generalize (if now - c.challengeWindowMs ≥ challengeRefillMs then
    { c with challengeWindowMs := now, challengeBudget := freshBudget rnd } else c) = d
  have hzero : d.challengeBudget = 0#32 ↔ d.throttle.left = 0 := BitVec.toNat_inj.symm
  dsimp only
  by_cases hb : d.challengeBudget = 0#32
  · rw [if_pos hb, if_pos (hzero.mp hb)]
    rfl
  · rw [if_neg hb, if_neg fun hz => hb (hzero.mpr hz)]
    have hpos : d.challengeBudget.toNat ≠ 0 := fun hz => hb (hzero.mpr hz)
    have hdec : (d.challengeBudget - 1#32).toNat = d.challengeBudget.toNat - 1 := by
      have hlt := d.challengeBudget.isLt
      bv_omega
    simp only [throttle, hdec, Option.isSome_some]

/-- The budget never exceeds its maximum. -/
def Throttled (c : Connection F) : Prop := c.throttle.left ≤ challengeAckMax.toNat

theorem maybeChallenge_throttled {c : Connection F} (h : Throttled c) (now : U64) (rnd : U32) :
    Throttled (c.maybeChallenge now rnd).1 := by
  have hreq := congrArg Prod.fst (maybeChallenge_request c now rnd)
  rw [Throttled, show (c.maybeChallenge now rnd).1.throttle = _ from hreq]
  exact Throttle.request_left_le _ h (freshBudget_le rnd)

theorem Throttled.of_eq {c c' : Connection F} (h : Throttled c) (heq : c'.throttle = c.throttle) :
    Throttled c' := by
  rw [Throttled, heq]
  exact h

theorem Update.throttled {seg : Segment} {now : U64} {rnd : U32} {c c' : Connection F}
    (h : Update seg now rnd c c') (hc : Throttled c) : Throttled c' := by
  cases h with
  | challenge => exact maybeChallenge_throttled hc now rnd
  | paws current =>
      obtain ⟨t, rfl⟩ := paws_eq current
      exact hc
  | newAck =>
      simp only [onNewAck]
      split_ifs <;> exact hc
  | dupAck =>
      simp only [onDupAck]
      split_ifs <;> exact hc
  | deliver =>
      rw [deliver_eq]
      exact hc
  | arrive | goto | linger | advance | dropAcked | window | mark | pend | takeFin => exact hc

theorem onSegment_throttled {c : Connection F} (h : Throttled c) (seg : Segment) (now : U64) (rnd : U32) :
    Throttled (c.onSegment seg now rnd).1 := by
  rcases c.onSegment_reacts seg now rnd with hr | ⟨-, -, heq⟩
  · exact hr.preserves Update.throttled h
  · rw [heq, onSynSent]
    split_ifs <;> exact h

/-- A segment with its arrival time and the draw available to its handler. -/
structure Arrival where
  seg : Segment
  time : U64
  rnd : U32

/-- Handle the segments in order; the answers come with the time of the call. -/
def onSegments : Connection F → List Arrival → Connection F × List (U64 × Bytes)
  | c, [] => (c, [])
  | c, a :: rest =>
      let r := c.onSegment a.seg a.time a.rnd
      let s := onSegments r.1 rest
      (s.1, r.2.toList.map (fun pkt => (a.time, pkt)) ++ s.2)

theorem OnlyClocks.trans {c c₁ c₂ : Connection F} (h : OnlyClocks c c₁) (h' : OnlyClocks c₁ c₂) :
    OnlyClocks c c₂ := by
  unfold OnlyClocks at *
  rw [h'] 
  rw [h]

theorem blind_cases {c : Connection F} (hs : c.isSynchronized = true) {seg : Segment} (hb : Blind c seg)
    (now : U64) (rnd : U32) :
    c.onSegment seg now rnd = (c.arrive now, none) ∨
      c.onSegment seg now rnd = (c.arrive now).maybeChallenge now rnd := by
  have ha : (c.arrive now).state = c.state ∧ (c.arrive now).recv = c.recv ∧
      (c.arrive now).isSynchronized = true := ⟨rfl, rfl, hs⟩
  unfold onSegment
  generalize c.arrive now = d at ha
  obtain ⟨hst, hrecv, hsync⟩ := ha
  have hopen : d.state ≠ .synSent := fun heq => by simp [isSynchronized, heq] at hsync
  rcases hb with ⟨hrst, hmiss⟩ | ⟨hrst, hsyn⟩
  · simp only [hrst, if_true, onRst, hopen, if_false]
    split_ifs with htw hhit hin
    · exact .inl rfl
    · exact absurd (hmiss.resolve_right (hst ▸ htw)) (by rw [← hrecv]; exact not_not.mpr hhit)
    · exact .inr rfl
    · exact .inl rfl
  · right
    simp [hrst, hsyn, hopen, hsync]

theorem onSegment_exact_rst {c : Connection F} {seg : Segment} (hrst : hasFlag seg.th.flags RST = true)
    (hseq : seg.th.seq = c.recv.nxt) (hopen : c.state ≠ .synSent) (htw : c.state ≠ .timeWait) (now : U64)
    (rnd : U32) : (c.onSegment seg now rnd).1.state = .closed := by
  have ha : (c.arrive now).state = c.state ∧ (c.arrive now).recv = c.recv := ⟨rfl, rfl⟩
  unfold onSegment
  generalize c.arrive now = d at ha
  rw [← ha.1] at hopen htw
  rw [← ha.2] at hseq
  simp only [hrst, if_true, onRst, hopen, htw, hseq, if_false]

theorem blind_step {c : Connection F} (hs : c.isSynchronized = true) {seg : Segment} (hb : Blind c seg)
    (now : U64) (rnd : U32) :
    let r := c.onSegment seg now rnd
    OnlyClocks c r.1 ∧ (r.2 = none ∨ r.2 = some r.1.bareAck) := by
  intro r
  have ha : OnlyClocks c (c.arrive now) := rfl
  rcases blind_cases hs hb now rnd with heq | heq
  · rw [show r = _ from heq]
    exact ⟨ha, .inl rfl⟩
  · rw [show r = _ from heq]
    obtain ⟨hc, hout⟩ := maybeChallenge_clocks (c.arrive now) now rnd
    exact ⟨ha.trans hc, hout⟩

theorem OnlyClocks.blind {c c' : Connection F} (h : OnlyClocks c c') {seg : Segment} (hb : Blind c seg) :
    Blind c' seg := by
  rw [h]
  exact hb

theorem OnlyClocks.synchronized {c c' : Connection F} (h : OnlyClocks c c') (hs : c.isSynchronized = true) :
    c'.isSynchronized = true := by
  rw [h]
  exact hs

theorem onSegments_clocks (arrivals : List Arrival) : ∀ c : Connection F, c.isSynchronized = true →
    (∀ a ∈ arrivals, Blind c a.seg) → OnlyClocks c (onSegments c arrivals).1 ∧
      ∀ p ∈ (onSegments c arrivals).2, ∃ d, OnlyClocks c d ∧ p.2 = d.bareAck := by
  induction arrivals with
  | nil => exact fun c _ _ => ⟨rfl, by simp [onSegments]⟩
  | cons a rest ih =>
      intro c hs hb
      obtain ⟨hclocks, hout⟩ := blind_step hs (hb a (List.mem_cons_self ..)) a.time a.rnd
      obtain ⟨hrest, hpkts⟩ := ih (c.onSegment a.seg a.time a.rnd).1 (hclocks.synchronized hs)
        fun b hb' => hclocks.blind (hb b (List.mem_cons_of_mem _ hb'))
      refine ⟨hclocks.trans hrest, fun p hp => ?_⟩
      rcases List.mem_append.mp hp with hp | hp
      · obtain ⟨pkt, hpkt, rfl⟩ := List.mem_map.mp hp
        rcases hout with hnone | hsome
        · simp [hnone] at hpkt
        · refine ⟨_, hclocks, ?_⟩
          simpa [hsome] using hpkt
      · obtain ⟨d, hd, hpd⟩ := hpkts p hp
        exact ⟨d, hclocks.trans hd, hpd⟩

theorem onSegments_grants (arrivals : List Arrival) : ∀ c : Connection F, c.isSynchronized = true →
    (∀ a ∈ arrivals, Blind c a.seg) → ∃ reqs : List (U64 × Nat),
      (reqs.map Prod.fst).Sublist (arrivals.map Arrival.time) ∧ (∀ r ∈ reqs, r.2 ≤ challengeAckMax.toNat) ∧
      (onSegments c arrivals).2.map Prod.fst = Throttle.grants challengeRefillMs.toNat c.throttle reqs := by
  induction arrivals with
  | nil => exact fun c _ _ => ⟨[], .refl _, by simp, rfl⟩
  | cons a rest ih =>
      intro c hs hb
      have hblind := hb a (List.mem_cons_self ..)
      have hclocks := (blind_step hs hblind a.time a.rnd).1
      obtain ⟨reqs, hsub, hfresh, hgrants⟩ := ih (c.onSegment a.seg a.time a.rnd).1 (hclocks.synchronized hs)
        fun b hb' => hclocks.blind (hb b (List.mem_cons_of_mem _ hb'))
      simp only [onSegments, List.map_append, List.map_map, hgrants]
      rcases blind_cases hs hblind a.time a.rnd with heq | heq
      · refine ⟨reqs, .cons _ hsub, hfresh, ?_⟩
        rw [heq]
        rfl
      · refine ⟨(a.time, (freshBudget a.rnd).toNat) :: reqs, hsub.cons_cons _, ?_, ?_⟩
        · exact List.forall_mem_cons.mpr ⟨freshBudget_le a.rnd, hfresh⟩
        · have hreq := maybeChallenge_request (c.arrive a.time) a.time a.rnd
          have hthr : (c.arrive a.time).throttle = c.throttle := rfl
          rw [hthr] at hreq
          rw [heq]
          simp only [Throttle.grants, ← hreq]
          cases ((c.arrive a.time).maybeChallenge a.time a.rnd).2 <;> rfl

end Connection

namespace Host
open Connection

theorem Fresh.throttled {h : Host F} (hf : Fresh h) : Throttled h.conn := by
  cases hf with
  | connect localEnd remoteEnd iss now rnd => exact freshBudget_le rnd
  | accept ipSrc ipDst seg iss now rnd heq =>
      obtain ⟨⟨c, synack⟩, hr, rfl⟩ := Option.map_eq_some_iff.mp heq
      obtain ⟨rfl, -⟩ := acceptWithIssAt_eq hr
      exact freshBudget_le rnd
  | cookie localEnd remoteEnd peerIsn isn sendMss now rnd => exact freshBudget_le rnd

theorem throttled_of_kept {c c' : Connection F} (h : Throttled c) (hk : KeptOrClosed c c') : Throttled c' := by
  have hstill : ∀ d : Connection F, d.throttle = d.still.throttle := fun _ => rfl
  rcases hk with hk | hk
  · exact h.of_eq (by rw [hstill, hk]; rfl)
  · exact h.of_eq (by rw [hstill, hk]; rfl)

theorem close_throttle (c : Connection F) (now : U64) : (c.close now).1.throttle = c.throttle := by
  unfold close
  split <;> rfl

theorem call_throttled (h : Host F) (x : Call) (ht : Throttled h.conn) : Throttled (h.call x).conn := by
  cases x with
  | write | takeReceived | setNodelay | setKeepalive | useBbr => exact ht
  | pollTransmit now => exact throttled_of_kept ht (.inl (pollTransmit_still h.conn now))
  | onTick now =>
      have hk := throttled_of_kept ht (onTick_kept h.conn now)
      simp only [call]
      generalize h.conn.onTick now = r at hk
      exact hk
  | close now =>
      have hc := ht.of_eq (close_throttle h.conn now)
      simp only [call]
      split <;> rename_i heq <;> rw [heq] at hc <;> exact hc
  | onSegment seg now rnd => exact onSegment_throttled ht seg now rnd

/-- Blind segments change nothing but clocks and the challenge budget, and earn
at most two budgets of challenge ACKs in any second; an exact RST closes. -/
theorem blind_segments_are_harmless {h : Host F} (hf : Fresh h) (calls : List Call)
    (hs : (h.run calls).conn.isSynchronized = true) :
    let c := (h.run calls).conn
    (∀ arrivals : List Arrival, (∀ a ∈ arrivals, Blind c a.seg) →
      (arrivals.map Arrival.time).Pairwise (· ≤ ·) →
        OnlyClocks c (c.onSegments arrivals).1 ∧
        (∀ p ∈ (c.onSegments arrivals).2, ∃ s, Carries p.2 s c.send.nxt c.recv.nxt ACK [] []) ∧
        ∀ T : Nat, ((c.onSegments arrivals).2.filter
          (fun p => decide (T ≤ p.1.toNat ∧ p.1.toNat < T + 1000))).length ≤ 2 * challengeAckMax.toNat) ∧
    ∀ seg now rnd, hasFlag seg.th.flags RST = true → seg.th.seq = c.recv.nxt → c.state ≠ .timeWait →
      (c.onSegment seg now rnd).1.state = .closed := by
  intro c
  have ht : Throttled c := run_preserves (P := fun h => Throttled h.conn) call_throttled hf.throttled calls
  refine ⟨fun arrivals hb hord => ⟨?_, ?_, fun T => ?_⟩, fun seg now rnd hrst hseq htw => ?_⟩
  · exact (onSegments_clocks arrivals c hs hb).1
  · intro p hp
    obtain ⟨d, hd, hpd⟩ := (onSegments_clocks arrivals c hs hb).2 p hp
    obtain ⟨s, hcar⟩ := segment_carries d d.send.nxt d.recv.nxt ACK []
    have hsend : d.send = c.send ∧ d.recv = c.recv := by
      rw [hd]
      exact ⟨rfl, rfl⟩
    rw [hpd, ← hsend.1, ← hsend.2]
    exact ⟨s, hcar⟩
  · obtain ⟨reqs, hsub, hfresh, hgrants⟩ := onSegments_grants arrivals c hs hb
    have hsorted : reqs.Pairwise (fun a b => a.1.toNat ≤ b.1.toNat) := by
      have hle := hord.sublist hsub
      rw [List.pairwise_map] at hle
      exact hle.imp fun hab => BitVec.le_def.mp hab
    have hload := Throttle.load_le challengeRefillMs.toNat (T := T) reqs c.throttle ht hsorted hfresh
    rw [Throttle.load, ← hgrants, List.filter_map, List.length_map] at hload
    exact hload
  · have hopen : c.state ≠ .synSent := fun heq => by simp [c, isSynchronized, heq] at hs
    exact onSegment_exact_rst hrst hseq hopen htw now rnd

/-- Seven out-of-place resets in one millisecond earn the one challenge left. -/
theorem blind_resets_are_throttled :
    let arrivals := List.replicate 7 (⟨samplePeer RST 600#32 0#32 [], 5#64, 3#32⟩ : Arrival)
    let r := sample.conn.onSegments arrivals
    OnlyClocks sample.conn r.1 ∧ r.2.length = 1 ∧
      (sample.conn.onSegment (samplePeer RST 501#32 0#32 []) 6#64 0#32).1.state = .closed := by
  intro arrivals r
  obtain ⟨hblind, hexact⟩ := blind_segments_are_harmless sample_fresh [] (by decide +kernel)
  obtain ⟨hclocks, -, -⟩ := hblind arrivals
    (fun a ha => by
      rw [List.eq_of_mem_replicate ha]
      exact .inl ⟨by decide, .inl (by decide +kernel)⟩)
    (by decide +kernel)
  exact ⟨hclocks, by decide +kernel, hexact _ 6#64 0#32 (by decide) (by decide +kernel) (by decide +kernel)⟩

end Host
end TcpStack
