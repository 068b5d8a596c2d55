import TcpStack.FlowControl
import TcpStack.Frame

/-!
# Keepalive

The time of a probe is derived from the last arrival and from the number of
probes sent, not from the probe before. So a probe that leaves late does not
delay the next, and a clock that is read seldom and then often sends them, and
gives the peer up, in quick succession.
-/
namespace TcpStack
open Tcp TcpStack.Seq

variable {F : Type} [F64 F]

namespace Connection

def beforeKeepalive (c : Connection F) (now : U64) : Connection F :=
  (((((({ c with tsVal := now.setWidth 32 } : Connection F).reap now).tickRack now).1.tickProbe now).1.tickDue
    now).1.tickPersist now).1

def Probes (c : Connection F) (now : U64) : Prop := ((c.beforeKeepalive now).tickKeepalive now).2 ≠ []

instance (c : Connection F) (now : U64) : Decidable (Probes c now) := inferInstanceAs (Decidable (_ ≠ _))

/-- The keepalive timer closes the connection in a tick. -/
def GivesUp (c : Connection F) (now : U64) : Prop :=
  (c.beforeKeepalive now).state ≠ .closed ∧ ((c.beforeKeepalive now).tickKeepalive now).1.state = .closed

instance (c : Connection F) (now : U64) : Decidable (GivesUp c now) := inferInstanceAs (Decidable (_ ∧ _))

def nextProbeAt (c : Connection F) : U64 :=
  saturatingAdd (saturatingAdd c.lastActiveMs keepaliveIdleMs) (c.keepaliveProbesSent.setWidth 64 * keepaliveIntvlMs)

def KeepaliveDue (c : Connection F) (now : U64) : Prop :=
  c.keepaliveEnabled = true ∧ c.state = .established ∧ c.flightSize = 0#32 ∧ c.sendBuf = [] ∧ now ≥ c.nextProbeAt

instance (c : Connection F) (now : U64) : Decidable (KeepaliveDue c now) :=
  inferInstanceAs (Decidable (_ ∧ _ ∧ _ ∧ _ ∧ _))

/-- How late a tick is on the schedule, without a bound on the times. -/
def lateness (c : Connection F) (now : U64) : Int :=
  now.toNat - (c.lastActiveMs.toNat + keepaliveIdleMs.toNat + c.keepaliveProbesSent.toNat * keepaliveIntvlMs.toNat)

theorem onTick_keepalive (c : Connection F) (now : U64) :
    (c.onTick now).1 = ((c.beforeKeepalive now).tickKeepalive now).1 ∧
      ∃ out, (c.onTick now).2 = out ++ ((c.beforeKeepalive now).tickKeepalive now).2 := by
  unfold onTick beforeKeepalive
  dsimp only
  exact ⟨rfl, _, rfl⟩

def vigil (c : Connection F) : U64 × U32 × Bool := (c.lastActiveMs, c.keepaliveProbesSent, c.keepaliveEnabled)

theorem beforeKeepalive_vigil (c : Connection F) (now : U64) : (c.beforeKeepalive now).vigil = c.vigil := by
  have hpersist : ∀ d : Connection F, (d.tickPersist now).1.vigil = d.vigil := by
    intro d
    unfold tickPersist
    split_ifs <;> rfl
  obtain ⟨s, hreap⟩ := reap_eq { c with tsVal := now.setWidth 32 } now
  obtain ⟨q, rtt, cong, deadline, sent, htimers⟩ := timers_eq { c with tsVal := now.setWidth 32, state := s } now
  rw [beforeKeepalive, hpersist, hreap, htimers]
  rfl

theorem reap_established (c : Connection F) (now : U64) :
    (c.reap now).state = .established ↔ c.state = .established := by
  unfold reap
  dsimp only
  split_ifs with hwait hlate hlate
  · simp [hwait.1]
  · simp [hwait.1]
  · rcases hlate with ⟨hs, -⟩ | ⟨hs, -⟩ <;> simp [hs]
  · exact Iff.rfl

def Idle (c : Connection F) : Prop := c.state = .established ∧ c.flightSize = 0#32 ∧ c.sendBuf = []

theorem tickPersist_idle (c : Connection F) (now : U64) : Idle (c.tickPersist now).1 ↔ Idle c := by
  unfold tickPersist
  split_ifs with hprobe hoff hnow
  · exact Iff.rfl
  · refine iff_of_false (fun hidle => ?_) fun hidle => ?_
    · have hone : c.flightSize + 1#32 = 0#32 := by
        have hflight : (c.send.nxt + 1#32) - c.send.una = 0#32 := hidle.2.1
        rw [flightSize]
        bv_omega
      rw [hprobe.2.2.2] at hone
      exact absurd hone (by decide)
    · rw [hidle.2.2] at hprobe
      exact absurd hprobe.2.2.1 (by decide)
  · exact Iff.rfl
  · exact Iff.rfl

theorem beforeKeepalive_idle (c : Connection F) (now : U64) : Idle (c.beforeKeepalive now) ↔ Idle c := by
  have hreap := reap_established { c with tsVal := now.setWidth 32 } now
  obtain ⟨s, heq⟩ := reap_eq { c with tsVal := now.setWidth 32 } now
  obtain ⟨q, rtt, cong, deadline, probe, htimers⟩ := timers_eq { c with tsVal := now.setWidth 32, state := s } now
  rw [heq] at hreap
  rw [beforeKeepalive, tickPersist_idle, heq, htimers]
  exact and_congr hreap Iff.rfl

theorem keepaliveDue_iff {c : Connection F} {now : U64} :
    KeepaliveDue c now ↔ Idle c ∧ c.keepaliveEnabled = true ∧ now ≥ c.nextProbeAt := by
  unfold KeepaliveDue Idle
  constructor
  · exact fun ⟨henabled, hs, hflight, hbuf, hat⟩ => ⟨⟨hs, hflight, hbuf⟩, henabled, hat⟩
  · exact fun ⟨⟨hs, hflight, hbuf⟩, henabled, hat⟩ => ⟨henabled, hs, hflight, hbuf, hat⟩

theorem beforeKeepalive_due {c : Connection F} {now : U64} :
    KeepaliveDue (c.beforeKeepalive now) now ↔ KeepaliveDue c now := by
  obtain ⟨hactive, hrest⟩ := Prod.mk.inj (c.beforeKeepalive_vigil now)
  obtain ⟨hsent, henabled⟩ := Prod.mk.inj hrest
  rw [keepaliveDue_iff, keepaliveDue_iff, beforeKeepalive_idle, nextProbeAt, nextProbeAt, hactive, hsent, henabled]

theorem tickKeepalive_probe {c : Connection F} {now : U64} (h : KeepaliveDue c now)
    (hmore : c.keepaliveProbesSent < keepaliveProbes) :
    ∃ probe, c.tickKeepalive now = ({ c with keepaliveProbesSent := c.keepaliveProbesSent + 1#32 }, [probe]) := by
  obtain ⟨henabled, hs, hflight, hbuf, hat⟩ := h
  unfold nextProbeAt at hat
  unfold tickKeepalive
  rw [if_pos ⟨henabled, hs, hflight, by rw [hbuf]; rfl⟩]
  dsimp only
  rw [if_pos hat, if_neg (BitVec.not_le.mpr hmore)]
  exact ⟨_, rfl⟩

theorem tickKeepalive_end {c : Connection F} {now : U64} (h : KeepaliveDue c now)
    (hdone : ¬ c.keepaliveProbesSent < keepaliveProbes) :
    c.tickKeepalive now = ({ c with state := .closed }, []) := by
  obtain ⟨henabled, hs, hflight, hbuf, hat⟩ := h
  unfold nextProbeAt at hat
  unfold tickKeepalive
  rw [if_pos ⟨henabled, hs, hflight, by rw [hbuf]; rfl⟩]
  dsimp only
  rw [if_pos hat, if_pos (BitVec.not_lt.mp hdone)]

theorem tickKeepalive_idle {c : Connection F} {now : U64} (h : ¬ KeepaliveDue c now) :
    c.tickKeepalive now = (c, []) := by
  unfold tickKeepalive
  dsimp only
  split_ifs with hidle hat
  · exact absurd ⟨hidle.1, hidle.2.1, hidle.2.2.1, List.isEmpty_iff.mp hidle.2.2.2, hat⟩ h
  · exact absurd ⟨hidle.1, hidle.2.1, hidle.2.2.1, List.isEmpty_iff.mp hidle.2.2.2, hat⟩ h
  · rfl
  · rfl

/-- When the timer is due, it sends a probe or gives up, and else it does neither. -/
theorem tickKeepalive_acts (c : Connection F) (now : U64) :
    ((c.tickKeepalive now).2 ≠ [] ↔ KeepaliveDue c now ∧ c.keepaliveProbesSent < keepaliveProbes) ∧
      (c.state ≠ .closed ∧ (c.tickKeepalive now).1.state = .closed ↔
        KeepaliveDue c now ∧ ¬ c.keepaliveProbesSent < keepaliveProbes) ∧
      (c.tickKeepalive now).1.vigil = (c.lastActiveMs,
        if KeepaliveDue c now ∧ c.keepaliveProbesSent < keepaliveProbes then c.keepaliveProbesSent + 1#32
        else c.keepaliveProbesSent, c.keepaliveEnabled) := by
  by_cases hdue : KeepaliveDue c now
  swap
  · rw [tickKeepalive_idle hdue, if_neg fun h => hdue h.1]
    exact ⟨by simp [hdue], by simp [hdue], rfl⟩
  have hopen : c.state = .established := hdue.2.1
  by_cases hmore : c.keepaliveProbesSent < keepaliveProbes
  · obtain ⟨probe, heq⟩ := tickKeepalive_probe hdue hmore
    rw [heq, if_pos ⟨hdue, hmore⟩]
    exact ⟨by simp [hdue, hmore], by simp [hmore, hopen], rfl⟩
  · rw [tickKeepalive_end hdue hmore, if_neg fun h => hmore h.2]
    exact ⟨by simp [hmore], by simp [hdue, hmore, hopen], rfl⟩

theorem probes_iff {c : Connection F} {now : U64} :
    Probes c now ↔ KeepaliveDue c now ∧ c.keepaliveProbesSent < keepaliveProbes := by
  have hsent : (c.beforeKeepalive now).keepaliveProbesSent = c.keepaliveProbesSent :=
    congrArg (fun v => v.2.1) (c.beforeKeepalive_vigil now)
  rw [Probes, (tickKeepalive_acts _ now).1, beforeKeepalive_due, hsent]

theorem givesUp_iff {c : Connection F} {now : U64} :
    GivesUp c now ↔ KeepaliveDue c now ∧ ¬ c.keepaliveProbesSent < keepaliveProbes := by
  have hsent : (c.beforeKeepalive now).keepaliveProbesSent = c.keepaliveProbesSent :=
    congrArg (fun v => v.2.1) (c.beforeKeepalive_vigil now)
  rw [GivesUp, (tickKeepalive_acts _ now).2.1, beforeKeepalive_due, hsent]

theorem onTick_vigil (c : Connection F) (now : U64) : (c.onTick now).1.vigil = (c.lastActiveMs,
    if Probes c now then c.keepaliveProbesSent + 1#32 else c.keepaliveProbesSent, c.keepaliveEnabled) := by
  obtain ⟨hactive, hrest⟩ := Prod.mk.inj (c.beforeKeepalive_vigil now)
  obtain ⟨hsent, henabled⟩ := Prod.mk.inj hrest
  rw [(c.onTick_keepalive now).1, (tickKeepalive_acts _ now).2.2, hactive, hsent, henabled]
  simp only [beforeKeepalive_due, probes_iff]

theorem onSegment_unprobed (c : Connection F) (seg : Segment) (now : U64) (rnd : U32) :
    (c.onSegment seg now rnd).1.keepaliveProbesSent = 0#32 := by
  have hagain : c.onSegment seg now rnd = (c.arrive now).onSegment seg now rnd := rfl
  rw [hagain]
  rcases (c.arrive now).onSegment_reacts seg now rnd with hreacts | ⟨-, -, heq⟩
  · exact hreacts.preserves (P := fun d => d.keepaliveProbesSent = 0#32)
      (fun hu hd => hu.spares.probes.elim (fun heq => heq.trans hd) id) rfl
  · rw [heq]
    unfold onSynSent
    split_ifs <;> rfl

end Connection

namespace Host
open Connection

/-- A keepalive probe: when it was sent, and how late. -/
structure Beat where
  time : U64
  late : Int
  deriving DecidableEq, Repr

/-- The probes since the last arriving segment, the newest first. -/
def hearken (h : Host F) (sent : List Beat) : Call → List Beat
  | .onSegment _ _ _ => []
  | .onTick now => if Probes h.conn now then ⟨now, h.conn.lateness now⟩ :: sent else sent
  | _ => sent

/-- Every call of the run meets `P`, with the probes that precede it. -/
def Vigilant (P : Connection F → List Beat → Call → Prop) : Host F → List Beat → List Call → Prop
  | _, _, [] => True
  | h, sent, x :: calls => P h.conn sent x ∧ Vigilant P (h.call x) (h.hearken sent x) calls

/-- A probe follows the last one after an interval, and so does the end, after the
last of all probes. -/
def Patient (c : Connection F) (sent : List Beat) : Call → Prop
  | .onTick now =>
      (Probes c now → ∀ b ∈ sent.head?, b.time.toNat + keepaliveIntvlMs.toNat ≤ now.toNat) ∧
      (GivesUp c now → sent.length = keepaliveProbes.toNat ∧
        ∀ b ∈ sent.head?, b.time.toNat + keepaliveIntvlMs.toNat ≤ now.toNat)
  | _ => True

/-- A tick that finds keepalive due is no less late on the schedule than the last
probe was. A probe that left `l` ms after its own time leaves the next one due
INTVL ms after that time: what is asked for is that no tick falls in the first
`l` ms from then on. Where every due tick comes on time, or all come equally late,
nothing is asked for. -/
def CatchesUpNot (c : Connection F) (sent : List Beat) : Call → Prop
  | .onTick now => KeepaliveDue c now → ∀ b ∈ sent.head?, b.late ≤ c.lateness now
  | _ => True

instance (c : Connection F) (sent : List Beat) : (x : Call) → Decidable (Patient c sent x)
  | .onTick _ => inferInstanceAs (Decidable (_ ∧ _))
  | .write _ | .pollTransmit _ | .onSegment _ _ _ | .close _ | .takeReceived | .setNodelay _ | .setKeepalive _
  | .useBbr => inferInstanceAs (Decidable True)

instance (c : Connection F) (sent : List Beat) : (x : Call) → Decidable (CatchesUpNot c sent x)
  | .onTick now => inferInstanceAs (Decidable (KeepaliveDue c now → ∀ b ∈ sent.head?, b.late ≤ c.lateness now))
  | .write _ | .pollTransmit _ | .onSegment _ _ _ | .close _ | .takeReceived | .setNodelay _ | .setKeepalive _
  | .useBbr => inferInstanceAs (Decidable True)

instance decidableVigilant {P : Connection F → List Beat → Call → Prop} [∀ c sent x, Decidable (P c sent x)] :
    (h : Host F) → (sent : List Beat) → (calls : List Call) → Decidable (Vigilant P h sent calls)
  | _, _, [] => .isTrue trivial
  | h, sent, x :: calls =>
      have := decidableVigilant (P := P) (h.call x) (h.hearken sent x) calls
      inferInstanceAs (Decidable (_ ∧ _))

/-- The connection counts the probes, and knows how late the last one was. -/
structure Counted (c : Connection F) (sent : List Beat) : Prop where
  count : sent.length = c.keepaliveProbesSent.toNat
  bound : c.keepaliveProbesSent ≤ keepaliveProbes
  last : ∀ b ∈ sent.head?, b.late =
    b.time.toNat - (c.lastActiveMs.toNat + keepaliveIdleMs.toNat + (sent.length - 1) * keepaliveIntvlMs.toNat : Int)

theorem Counted.kept {c c' : Connection F} {sent : List Beat} (h : Counted c sent)
    (hactive : c'.lastActiveMs = c.lastActiveMs) (hsent : c'.keepaliveProbesSent = c.keepaliveProbesSent) :
    Counted c' sent :=
  ⟨hsent ▸ h.count, hsent ▸ h.bound, hactive ▸ h.last⟩

/-- An interval passed since the last probe exactly when the tick is no less late. -/
theorem Counted.spaced_iff {c : Connection F} {sent : List Beat} (h : Counted c sent) {b : Beat} (hb : b ∈ sent.head?)
    (now : U64) : b.time.toNat + keepaliveIntvlMs.toNat ≤ now.toNat ↔ b.late ≤ c.lateness now := by
  have hpos : 0 < sent.length := List.length_pos_of_mem (List.mem_of_mem_head? hb)
  have hintvl : keepaliveIntvlMs.toNat = 5000 := rfl
  have hcount := h.count
  rw [h.last b hb, lateness, hintvl]
  omega

theorem Counted.patient_iff {c : Connection F} {sent : List Beat} (h : Counted c sent) (x : Call) :
    Patient c sent x ↔ CatchesUpNot c sent x := by
  cases x with
  | write | takeReceived | setNodelay | setKeepalive | useBbr | pollTransmit | close | onSegment => exact Iff.rfl
  | onTick now =>
      have hspaced : (∀ b ∈ sent.head?, b.time.toNat + keepaliveIntvlMs.toNat ≤ now.toNat) ↔
          ∀ b ∈ sent.head?, b.late ≤ c.lateness now := forall₂_congr fun b hb => h.spaced_iff hb now
      have hall : ¬ c.keepaliveProbesSent < keepaliveProbes → sent.length = keepaliveProbes.toNat := by
        intro hdone
        rw [h.count, BitVec.le_antisymm h.bound (BitVec.not_lt.mp hdone)]
      simp only [Patient, CatchesUpNot, hspaced, probes_iff, givesUp_iff]
      constructor
      · rintro ⟨hprobe, hend⟩ hdue
        by_cases hmore : c.keepaliveProbesSent < keepaliveProbes
        · exact hprobe ⟨hdue, hmore⟩
        · exact (hend ⟨hdue, hmore⟩).2
      · exact fun hdue => ⟨fun hprobe => hdue hprobe.1, fun hend => ⟨hall hend.2, hdue hend.1⟩⟩

theorem call_vigil (h : Host F) {x : Call} (htick : ∀ now, x ≠ .onTick now)
    (hseg : ∀ seg now rnd, x ≠ .onSegment seg now rnd) :
    (h.call x).conn.lastActiveMs = h.conn.lastActiveMs ∧
      (h.call x).conn.keepaliveProbesSent = h.conn.keepaliveProbesSent := by
  cases x with
  | write | takeReceived | setNodelay | setKeepalive | useBbr => exact ⟨rfl, rfl⟩
  | pollTransmit now =>
      have hkept : (h.conn.pollTransmit now).1.vigil = h.conn.vigil :=
        pollTransmit_keeps (fun _ _ _ _ => rfl) (fun _ _ _ _ _ _ => rfl) h.conn now
      obtain ⟨hactive, hrest⟩ := Prod.mk.inj hkept
      exact ⟨hactive, (Prod.mk.inj hrest).1⟩
  | close now =>
      have hkept : (h.conn.close now).1.lastActiveMs = h.conn.lastActiveMs ∧
          (h.conn.close now).1.keepaliveProbesSent = h.conn.keepaliveProbesSent := by
        unfold close
        split <;> exact ⟨rfl, rfl⟩
      simp only [call]
      split <;> rename_i heq <;> rw [heq] at hkept <;> exact hkept
  | onTick now => exact absurd rfl (htick now)
  | onSegment seg now rnd => exact absurd rfl (hseg seg now rnd)

theorem Counted.probe {c c' : Connection F} {sent : List Beat} (h : Counted c sent)
    (hmore : c.keepaliveProbesSent < keepaliveProbes) (hactive : c'.lastActiveMs = c.lastActiveMs)
    (hsent : c'.keepaliveProbesSent = c.keepaliveProbesSent + 1#32) (now : U64) :
    Counted c' (⟨now, c.lateness now⟩ :: sent) := by
  have hthree : keepaliveProbes = 3#32 := rfl
  have hnext : (c.keepaliveProbesSent + 1#32).toNat = c.keepaliveProbesSent.toNat + 1 := by
    rw [hthree] at hmore
    bv_omega
  constructor
  · rw [List.length_cons, h.count, hsent, hnext]
  · rw [hsent]
    rw [hthree] at hmore ⊢
    bv_omega
  · intro b hb
    obtain rfl : (⟨now, c.lateness now⟩ : Beat) = b := Option.some.inj hb
    rw [hactive, List.length_cons, h.count, lateness]
    push_cast
    rw [Int.add_sub_cancel]

theorem Counted.call {h : Host F} {sent : List Beat} (hc : Counted h.conn sent) (x : Call) :
    Counted (h.call x).conn (h.hearken sent x) := by
  by_cases htick : ∃ now, x = .onTick now
  · obtain ⟨now, rfl⟩ := htick
    have hcall : (h.call (.onTick now)).conn = (h.conn.onTick now).1 := by simp only [Host.call]
    have hvigil := h.conn.onTick_vigil now
    rw [hcall]
    generalize (h.conn.onTick now).1 = c at hvigil
    have hactive : c.lastActiveMs = h.conn.lastActiveMs := congrArg Prod.fst hvigil
    have hsent : c.keepaliveProbesSent = _ := congrArg (fun v => v.2.1) hvigil
    simp only [hearken]
    by_cases hprobe : Probes h.conn now
    · rw [if_pos hprobe]
      exact hc.probe (probes_iff.mp hprobe).2 hactive (hsent.trans (if_pos hprobe)) now
    · rw [if_neg hprobe]
      exact hc.kept hactive (hsent.trans (if_neg hprobe))
  by_cases hseg : ∃ seg now rnd, x = .onSegment seg now rnd
  · obtain ⟨seg, now, rnd, rfl⟩ := hseg
    have hzero : (h.call (.onSegment seg now rnd)).conn.keepaliveProbesSent = 0#32 :=
      onSegment_unprobed h.conn seg now rnd
    refine ⟨?_, ?_, fun b hb => ?_⟩
    · rw [hzero]
      rfl
    · rw [hzero]
      decide
    · cases hb
  · push Not at htick hseg
    obtain ⟨hactive, hsent⟩ := h.call_vigil htick hseg
    have hsame : h.hearken sent x = sent := by
      cases x with
      | onTick now => exact absurd rfl (htick now)
      | onSegment seg now rnd => exact absurd rfl (hseg seg now rnd)
      | write | takeReceived | setNodelay | setKeepalive | useBbr | pollTransmit | close => rfl
    rw [hsame]
    exact hc.kept hactive hsent

theorem Fresh.counted {h : Host F} (hf : Fresh h) : Counted h.conn [] := by
  have hzero : h.conn.keepaliveProbesSent = 0#32 := by
    cases hf with
    | connect localEnd remoteEnd iss now rnd => rfl
    | accept ipSrc ipDst seg iss now rnd heq =>
        obtain ⟨⟨c, synack⟩, hr, rfl⟩ := Option.map_eq_some_iff.mp heq
        obtain ⟨rfl, -⟩ := acceptWithIssAt_eq hr
        rfl
    | cookie localEnd remoteEnd peerIsn isn sendMss now rnd => rfl
  refine ⟨?_, ?_, fun b hb => nomatch hb⟩
  · rw [hzero]
    rfl
  · rw [hzero]
    decide

theorem Counted.run_iff {calls : List Call} {h : Host F} {sent : List Beat} (hc : Counted h.conn sent) :
    Vigilant Patient h sent calls ↔ Vigilant CatchesUpNot h sent calls := by
  induction calls generalizing h sent with
  | nil => exact Iff.rfl
  | cons x calls ih => exact and_congr (hc.patient_iff x) (ih (hc.call x))

/-- A run keeps the interval between its keepalive probes, and gives the peer up no
sooner than an interval after the last of them, exactly when no tick that finds
keepalive due is less late on the schedule than the probe before it. -/
theorem keepalive_is_patient_iff {h : Host F} (hf : Fresh h) (calls : List Call) :
    Vigilant Patient h [] calls ↔ Vigilant CatchesUpNot h [] calls :=
  hf.counted.run_iff

/-- Keepalive is switched on late, and then the clock is read four times. -/
def lateTicks (gap : U64) : List Call :=
  [.setKeepalive true, .onTick 100000#64, .onTick (100000#64 + gap), .onTick (100000#64 + 2#64 * gap),
    .onTick (100000#64 + 3#64 * gap)]

/-- A millisecond apart, three probes leave and the peer is given up. -/
theorem late_probes_hurry : ¬ Vigilant Patient sample [] (lateTicks 1#64) ∧
    (sample.run (lateTicks 1#64)).emitted.length = 3 ∧ (sample.run (lateTicks 1#64)).conn.state = .closed :=
  ⟨by decide +kernel, by decide +kernel, by decide +kernel⟩

/-- Read once in an interval, the clock keeps the probes as late as the first. -/
theorem late_probes_wait : Vigilant Patient sample [] (lateTicks 5000#64) ∧
    (sample.run (lateTicks 5000#64)).conn.state = .closed :=
  ⟨(keepalive_is_patient_iff sample_fresh _).mpr (by decide +kernel), by decide +kernel⟩

end Host
end TcpStack
