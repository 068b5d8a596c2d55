import TcpStack.Congestion

/-!
# The modes of BBR

An ACK moves the controller along `Startup`, `Drain`, `ProbeBw` and `ProbeRtt`,
and back to `ProbeBw`; a timeout starts it over. The deadline of `ProbeRtt` is a
plain addition, the one deadline of the stack that can wrap.
-/
namespace TcpStack.Bbr

variable {F : Type} [F64 F]

inductive Event where
  | ack (acked : U32) (rttMs : Option U64) (nowMs : U64)
  | dupAck
  | timeout
  deriving DecidableEq, Repr

def apply (b : Bbr F) : Event → Bbr F
  | .ack acked rttMs nowMs => b.onAck acked rttMs nowMs
  | .dupAck => b.onDupAck.1
  | .timeout => b.onTimeout

def run (b : Bbr F) (events : List Event) : Bbr F := events.foldl apply b

/-- No new minimum of the round-trip time for ten seconds. -/
def aged (b : Bbr F) (nowMs : U64) : Bool := saturatingSub nowMs b.rtpropStampMs > rtpropWindowMs

/-- The ACK that starts a `ProbeRtt` episode leaves room for its deadline. -/
def InRange (b : Bbr F) : Event → Prop
  | .ack _ _ nowMs => b.mode = .probeBw → b.aged nowMs = true → nowMs.toNat + 200 < 2 ^ 64
  | _ => True

/-- Every step of the run is in range. -/
def Ranged (b : Bbr F) : List Event → Prop
  | [] => True
  | e :: events => b.InRange e ∧ (b.apply e).Ranged events

instance (b : Bbr F) : (e : Event) → Decidable (b.InRange e)
  | .ack _ _ _ => inferInstanceAs (Decidable (_ → _ → _))
  | .dupAck | .timeout => inferInstanceAs (Decidable True)

instance instDecidableRanged (b : Bbr F) : (events : List Event) → Decidable (b.Ranged events)
  | [] => inferInstanceAs (Decidable True)
  | e :: events => @instDecidableAnd _ _ _ (instDecidableRanged (b.apply e) events)

/-- The moves of one ACK. -/
inductive Advances : Mode → Mode → Prop where
  | stay (m : Mode) : Advances m m
  | fill : Advances .startup .drain
  | drained : Advances .drain .probeBw
  | probe : Advances .probeBw .probeRtt
  | resume : Advances .probeRtt .probeBw

structure Sound (b : Bbr F) : Prop where
  floor : minPipeCwnd ≤ b.cwnd
  filled : b.mode ≠ .startup → b.filledPipe = true
  pinned : b.mode = .probeRtt → b.cwnd = minPipeCwnd
  deadline : b.mode = .probeRtt → 0#64 < b.probeRttDoneMs
  cycle : b.cycleIndex < 8

/-- What the state machine does on one ACK. -/
inductive Shift (expired : Bool) (nowMs : U64) (b d : Bbr F) : Prop where
  | stay (mode : d.mode = b.mode) (filled : d.filledPipe = b.filledPipe) (done : d.probeRttDoneMs = b.probeRttDoneMs)
      (cycle : b.cycleIndex < 8 → d.cycleIndex < 8) (early : b.mode = .probeRtt → nowMs < b.probeRttDoneMs)
  | fill (before : b.mode = .startup) (mode : d.mode = .drain) (filled : d.filledPipe = true)
      (cycle : d.cycleIndex = b.cycleIndex)
  | drained (before : b.mode = .drain) (mode : d.mode = .probeBw) (filled : d.filledPipe = b.filledPipe)
      (cycle : d.cycleIndex = 2)
  | probe (before : b.mode = .probeBw) (aged : expired = true) (mode : d.mode = .probeRtt)
      (filled : d.filledPipe = b.filledPipe) (done : d.probeRttDoneMs = nowMs + probeRttDurationMs)
      (cycle : b.cycleIndex < 8 → d.cycleIndex < 8)
  | resume (before : b.mode = .probeRtt) (late : b.probeRttDoneMs ≤ nowMs) (full : b.filledPipe = true)
      (mode : d.mode = .probeBw) (filled : d.filledPipe = b.filledPipe) (cycle : d.cycleIndex = 2)
  | restart (before : b.mode = .probeRtt) (late : b.probeRttDoneMs ≤ nowMs) (empty : b.filledPipe = false)

theorem updateModel_shift (b : Bbr F) (roundStart expired : Bool) (nowMs : U64) :
    Shift expired nowMs b (b.updateModel roundStart expired nowMs) := by
  unfold updateModel
  cases hmode : b.mode with
  | startup =>
      dsimp only
      split_ifs
      · exact .stay hmode.symm rfl rfl id (by simp [hmode])
      · exact .fill hmode rfl rfl rfl
      · exact .stay hmode.symm rfl rfl id (by simp [hmode])
      · exact .stay hmode.symm rfl rfl id (by simp [hmode])
  | drain =>
      dsimp only
      split_ifs
      · exact .drained hmode rfl rfl rfl
      · exact .stay hmode.symm rfl rfl id (by simp [hmode])
  | probeBw =>
      have hcycle : ∀ n : Nat, (n + 1) % 8 < 8 := fun n => Nat.mod_lt _ (by decide)
      dsimp only [maybeEnterProbeRtt]
      split_ifs with hage hround hround
      · exact .probe hmode hage rfl rfl rfl fun _ => hcycle _
      · exact .probe hmode hage rfl rfl rfl id
      · exact .stay hmode.symm rfl rfl (fun _ => hcycle _) (by simp [hmode])
      · exact .stay hmode.symm rfl rfl id (by simp [hmode])
  | probeRtt =>
      dsimp only
      split_ifs with hlate hfull
      · exact .resume hmode hlate hfull rfl rfl rfl
      · exact .restart hmode hlate (Bool.not_eq_true _ ▸ hfull)
      · exact .stay hmode.symm rfl rfl id fun _ => BitVec.not_le.mp hlate

theorem onAck_split (b : Bbr F) (acked : U32) (rttMs : Option U64) (nowMs : U64) : ∃ (d : Bbr F) (roundStart : Bool),
    d.mode = b.mode ∧ d.filledPipe = b.filledPipe ∧ d.probeRttDoneMs = b.probeRttDoneMs ∧
    d.cycleIndex = b.cycleIndex ∧
      b.onAck acked rttMs nowMs = (d.updateModel roundStart (b.aged nowMs) nowMs).recomputeCwnd := by
  refine ⟨_, _, ?_, ?_, ?_, ?_, rfl⟩
  all_goals
    cases rttMs <;>
      simp only [apply_ite Bbr.mode, apply_ite Bbr.filledPipe, apply_ite Bbr.probeRttDoneMs, apply_ite Bbr.cycleIndex,
        ite_self]

theorem onAck_shift (b : Bbr F) (acked : U32) (rttMs : Option U64) (nowMs : U64) :
    ∃ d : Bbr F, Shift (b.aged nowMs) nowMs b d ∧ b.onAck acked rttMs nowMs = d.recomputeCwnd := by
  obtain ⟨d, roundStart, hmode, hfilled, hdone, hcycle, heq⟩ := b.onAck_split acked rttMs nowMs
  refine ⟨_, ?_, heq⟩
  cases d.updateModel_shift roundStart (b.aged nowMs) nowMs with
  | stay mode filled done cycle early =>
      rw [hmode] at mode early
      rw [hfilled] at filled
      rw [hdone] at done early
      rw [hcycle] at cycle
      exact .stay mode filled done cycle early
  | fill before mode filled cycle => exact .fill (hmode ▸ before) mode filled (cycle.trans hcycle)
  | drained before mode filled cycle => exact .drained (hmode ▸ before) mode (filled.trans hfilled) cycle
  | probe before aged mode filled done cycle =>
      rw [hcycle] at cycle
      exact .probe (hmode ▸ before) aged mode (filled.trans hfilled) done cycle
  | resume before late full mode filled cycle =>
      exact .resume (hmode ▸ before) (hdone ▸ late) (hfilled ▸ full) mode (filled.trans hfilled) cycle
  | restart before late empty => exact .restart (hmode ▸ before) (hdone ▸ late) (hfilled ▸ empty)

/-- The window is at its floor in `ProbeRtt`, and not below it elsewhere. -/
theorem recomputeCwnd_spec (b : Bbr F) : b.recomputeCwnd.mode = b.mode ∧ b.recomputeCwnd.filledPipe = b.filledPipe ∧
    b.recomputeCwnd.probeRttDoneMs = b.probeRttDoneMs ∧ b.recomputeCwnd.cycleIndex = b.cycleIndex ∧
    minPipeCwnd ≤ b.recomputeCwnd.cwnd ∧ (b.mode = .probeRtt → b.recomputeCwnd.cwnd = minPipeCwnd) := by
  by_cases hprobe : b.mode = .probeRtt
  · have heq : b.recomputeCwnd = { b with cwnd := minPipeCwnd } := if_pos hprobe
    rw [heq]
    exact ⟨rfl, rfl, rfl, rfl, BitVec.le_refl _, fun _ => rfl⟩
  · obtain ⟨target, heq⟩ : ∃ target, b.recomputeCwnd = { b with cwnd := umax target minPipeCwnd } :=
        ⟨_, if_neg hprobe⟩
    rw [heq]
    refine ⟨rfl, rfl, rfl, rfl, ?_, fun h => absurd h hprobe⟩
    rw [BitVec.le_def, umax_toNat]
    exact Nat.le_max_right _ _

theorem sound_new : Sound (F := F) new := by
  refine ⟨BitVec.le_refl _, fun h => absurd rfl h, ?_, ?_, (by decide : 0 < 8)⟩ <;> exact fun h => (by cases h)

theorem Sound.onAck {b : Bbr F} (h : b.Sound) {acked : U32} {rttMs : Option U64} {nowMs : U64}
    (hrange : b.InRange (.ack acked rttMs nowMs)) : (b.onAck acked rttMs nowMs).Sound := by
  obtain ⟨d, hshift, heq⟩ := b.onAck_shift acked rttMs nowMs
  obtain ⟨hmode, hfilled, hdone, hcycle, hfloor, hpinned⟩ := d.recomputeCwnd_spec
  have hall : (d.mode ≠ .startup → d.filledPipe = true) ∧ (d.mode = .probeRtt → 0#64 < d.probeRttDoneMs) ∧
      d.cycleIndex < 8 := by
    cases hshift with
    | stay mode filled done cycle early =>
        rw [mode, filled, done]
        exact ⟨h.filled, h.deadline, cycle h.cycle⟩
    | fill before mode filled cycle =>
        rw [mode, filled, cycle]
        exact ⟨fun _ => rfl, fun h => (by cases h), h.cycle⟩
    | drained before mode filled cycle =>
        rw [mode, filled, cycle]
        exact ⟨fun _ => h.filled (by rw [before]; decide), fun h => (by cases h), by decide⟩
    | probe before aged mode filled done cycle =>
        rw [mode, filled, done]
        refine ⟨fun _ => h.filled (by rw [before]; decide), fun _ => ?_, cycle h.cycle⟩
        have hroom := hrange before aged
        have hduration : probeRttDurationMs.toNat = 200 := rfl
        rw [BitVec.lt_def, BitVec.toNat_add, hduration, Nat.mod_eq_of_lt hroom, BitVec.toNat_zero]
        omega
    | resume before late full mode filled cycle =>
        rw [mode, filled, cycle]
        exact ⟨fun _ => full, fun h => (by cases h), by decide⟩
    | restart before late empty => exact absurd (h.filled (by rw [before]; decide)) (by rw [empty]; decide)
  rw [heq]
  refine ⟨hfloor, ?_, ?_, ?_, ?_⟩
  · rw [hmode, hfilled]
    exact hall.1
  · rw [hmode]
    exact hpinned
  · rw [hmode, hdone]
    exact hall.2.1
  · rw [hcycle]
    exact hall.2.2

theorem Sound.apply {b : Bbr F} (h : b.Sound) {e : Event} (hrange : b.InRange e) : (b.apply e).Sound := by
  cases e with
  | ack acked rttMs nowMs => exact h.onAck hrange
  | dupAck => exact ⟨h.floor, h.filled, h.pinned, h.deadline, h.cycle⟩
  | timeout =>
      refine ⟨BitVec.le_refl _, fun h => absurd rfl h, ?_, ?_, (by decide : 0 < 8)⟩ <;> exact fun h => (by cases h)

theorem Sound.run {b : Bbr F} (h : b.Sound) {events : List Event} (hrange : b.Ranged events) :
    (b.run events).Sound := by
  induction events generalizing b with
  | nil => exact h
  | cons e events ih => exact ih (h.apply hrange.1) hrange.2

theorem Sound.advances {b : Bbr F} (h : b.Sound) (acked : U32) (rttMs : Option U64) (nowMs : U64) :
    Advances b.mode (b.onAck acked rttMs nowMs).mode := by
  obtain ⟨d, hshift, heq⟩ := b.onAck_shift acked rttMs nowMs
  rw [heq, d.recomputeCwnd_spec.1]
  cases hshift with
  | stay mode => exact mode ▸ .stay _
  | fill before mode => exact before ▸ mode ▸ .fill
  | drained before mode => exact before ▸ mode ▸ .drained
  | probe before aged mode => exact before ▸ mode ▸ .probe
  | resume before late full mode => exact before ▸ mode ▸ .resume
  | restart before late empty => exact absurd (h.filled (by rw [before]; decide)) (by rw [empty]; decide)

/-- The ACK that enters `ProbeRtt` sets its deadline. -/
theorem entered_deadline {b : Bbr F} {acked : U32} {rttMs : Option U64} {nowMs : U64}
    (hrange : b.InRange (.ack acked rttMs nowMs)) (hbefore : b.mode ≠ .probeRtt)
    (hentered : (b.onAck acked rttMs nowMs).mode = .probeRtt) :
    (b.onAck acked rttMs nowMs).probeRttDoneMs.toNat = nowMs.toNat + 200 := by
  obtain ⟨d, hshift, heq⟩ := b.onAck_shift acked rttMs nowMs
  rw [heq, d.recomputeCwnd_spec.1] at hentered
  rw [heq, d.recomputeCwnd_spec.2.2.1]
  cases hshift with
  | stay mode => exact absurd (mode.symm.trans hentered) hbefore
  | fill before mode | drained before mode | resume before late full mode => cases mode.symm.trans hentered
  | probe before aged mode filled done =>
      rw [done, BitVec.toNat_add]
      exact Nat.mod_eq_of_lt (hrange before aged)
  | restart before => exact absurd before hbefore

/-- No timeout, and no ACK that comes at `deadline` or later. -/
def Early (deadline : Nat) : Event → Prop
  | .ack _ _ nowMs => nowMs.toNat < deadline
  | .dupAck => True
  | .timeout => False

/-- Before its deadline `ProbeRtt` is not left. -/
theorem probeRtt_held {b : Bbr F} {deadline : Nat} (hmode : b.mode = .probeRtt)
    (hdone : b.probeRttDoneMs.toNat = deadline) {events : List Event} (hearly : ∀ e ∈ events, Early deadline e) :
    (b.run events).mode = .probeRtt := by
  induction events generalizing b with
  | nil => exact hmode
  | cons e events ih =>
      have hrest : ∀ e ∈ events, Early deadline e := fun e he => hearly e (List.mem_cons_of_mem _ he)
      cases e with
      | ack acked rttMs nowMs =>
          have hnow : nowMs.toNat < deadline := hearly _ List.mem_cons_self
          obtain ⟨d, hshift, heq⟩ := b.onAck_shift acked rttMs nowMs
          obtain ⟨hmode', -, hdone', -⟩ := d.recomputeCwnd_spec
          have hlate : ¬ b.probeRttDoneMs ≤ nowMs := by
            rw [BitVec.le_def]
            omega
          cases hshift with
          | stay mode filled done =>
              refine ih ?_ ?_ hrest
              · rw [apply, heq, hmode', mode, hmode]
              · rw [apply, heq, hdone', done, hdone]
          | fill before | drained before | probe before => cases hmode.symm.trans before
          | resume before late | restart before late => exact absurd late hlate
      | dupAck => exact ih hmode hdone hrest
      | timeout => exact (hearly _ List.mem_cons_self).elim

theorem run_append (b : Bbr F) (events more : List Event) : b.run (events ++ more) = (b.run events).run more :=
  List.foldl_append

theorem Ranged.left {b : Bbr F} {events more : List Event} (h : b.Ranged (events ++ more)) : b.Ranged events := by
  induction events generalizing b with
  | nil => exact trivial
  | cons e events ih => exact ⟨h.1, ih h.2⟩

theorem Ranged.step {b : Bbr F} {events more : List Event} {e : Event} (h : b.Ranged (events ++ e :: more)) :
    (b.run events).InRange e := by
  induction events generalizing b with
  | nil => exact h.1
  | cons x events ih => exact ih h.2

/-- In every run that enters `ProbeRtt` with room for its deadline, every state
is sound, every ACK moves one place along the modes, a timeout starts over, and
`ProbeRtt` lasts its time. -/
theorem modes_of_ranged {events : List Event} (hrange : Ranged (new : Bbr F) events) :
    (∀ pre post, events = pre ++ post → Sound (run (new : Bbr F) pre) ∧
      (∀ acked rttMs nowMs, Advances (run (new : Bbr F) pre).mode
        ((run (new : Bbr F) pre).onAck acked rttMs nowMs).mode) ∧
      (run (new : Bbr F) pre).onTimeout.mode = .startup ∧ (run (new : Bbr F) pre).onTimeout.filledPipe = false) ∧
    ∀ pre acked rttMs nowMs mid post, events = pre ++ .ack acked rttMs nowMs :: (mid ++ post) →
      (run (new : Bbr F) pre).mode ≠ .probeRtt →
      ((run (new : Bbr F) pre).onAck acked rttMs nowMs).mode = .probeRtt →
      (∀ e ∈ mid, Early (nowMs.toNat + 200) e) →
      (run (new : Bbr F) (pre ++ .ack acked rttMs nowMs :: mid)).mode = .probeRtt := by
  constructor
  · rintro pre post rfl
    have hsound := sound_new.run hrange.left
    exact ⟨hsound, hsound.advances, rfl, rfl⟩
  · rintro pre acked rttMs nowMs mid post rfl hbefore hentered hearly
    rw [run_append]
    exact probeRtt_held hentered (entered_deadline hrange.step hbefore hentered) hearly

/-- Three rounds at one rate fill the pipe, the next one drains it. -/
def steady : List Event := [.ack 1460#32 none 1#64, .ack 1460#32 none 2#64, .ack 1460#32 none 3#64,
  .ack 1460#32 none 4#64, .ack 1460#32 none 5#64, .ack 1460#32 none 6#64]

/-- After twenty seconds without a measurement the controller probes, and still does 199 ms later. -/
theorem steady_then_probeRtt :
    Sound (run (new : Bbr Rat) (steady ++ [.ack 1460#32 none 20000#64])) ∧
      (run (new : Bbr Rat) (steady ++ [.ack 1460#32 none 20000#64, .dupAck, .ack 1460#32 none 20199#64])).mode =
        .probeRtt := by
  have hrange : Ranged (new : Bbr Rat) (steady ++
      [.ack 1460#32 none 20000#64, .dupAck, .ack 1460#32 none 20199#64]) := by
    decide +kernel
  obtain ⟨hstates, hheld⟩ := modes_of_ranged hrange
  refine ⟨(hstates (steady ++ [.ack 1460#32 none 20000#64]) [.dupAck, .ack 1460#32 none 20199#64] rfl).1, ?_⟩
  exact hheld steady 1460#32 none 20000#64 [.dupAck, .ack 1460#32 none 20199#64] [] rfl (by decide +kernel)
    (by decide +kernel) (by simp [Early])

def lastProbe : List Event := steady ++ [.ack 1460#32 none 18446744073709551416#64]

/-- The deadline wraps to "not probing", and the next ACK at the same time ends the episode. -/
theorem wrapped_deadline_ends_probeRtt :
    (run (new : Bbr Rat) lastProbe).mode = .probeRtt ∧ (run (new : Bbr Rat) lastProbe).probeRttDoneMs = 0#64 ∧
      ¬ Sound (run (new : Bbr Rat) lastProbe) ∧
      (run (new : Bbr Rat) (lastProbe ++ [.ack 1460#32 none 18446744073709551416#64])).mode = .probeBw := by
  have hmode : (run (new : Bbr Rat) lastProbe).mode = .probeRtt := by decide +kernel
  have hdone : (run (new : Bbr Rat) lastProbe).probeRttDoneMs = 0#64 := by decide +kernel
  refine ⟨hmode, hdone, fun h => ?_, by decide +kernel⟩
  have hpos := h.deadline hmode
  rw [hdone] at hpos
  exact absurd hpos (by decide)

end TcpStack.Bbr
