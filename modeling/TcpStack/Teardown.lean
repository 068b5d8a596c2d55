import TcpStack.Discipline
import TcpStack.Paws

/-!
# The two ends of a teardown

Which states the two ends of a connection can be in at once, whatever the
network does, and what an end knows of its peer when it reaches FIN_WAIT_2 or
TIME_WAIT: the peer has consumed its FIN and all that was sent before it.
-/
namespace TcpStack
open Tcp

namespace State

/-- Our FIN was acknowledged, and we had closed first. -/
def Finished (s : State) : Prop := s = .finWait2 ∨ s = .timeWait

def Passive (s : State) : Prop := s = .closeWait ∨ s = .lastAck

/-- We closed before the peer's FIN came, or the connection is gone. -/
def Active (s : State) : Prop := s = .finWait1 ∨ s = .finWait2 ∨ s = .closing ∨ s = .timeWait ∨ s = .closed

/-- Where the passive opener can be while the active one is in a state, but for
CLOSED: either end may give up at any time. -/
def partners : State → List State
  | .synSent => [.synRcvd]
  | .synRcvd => []
  | .established => [.synRcvd, .established, .finWait1]
  | .closeWait => [.finWait1, .finWait2]
  | .lastAck => [.finWait1, .finWait2, .closing, .timeWait]
  | .finWait1 => [.synRcvd, .established, .closeWait, .lastAck, .finWait1, .closing]
  | .finWait2 => [.closeWait, .lastAck, .closing]
  | .closing => [.lastAck, .finWait1, .finWait2, .closing, .timeWait]
  | .timeWait => [.lastAck, .closing, .timeWait]
  | .closed => []

theorem mem_partners {a b : State} (hopen : a = .synSent → b = .synRcvd) (ha : a ≠ .synRcvd) (hb : b ≠ .synSent)
    (consumedA : a ∈ afterPeerFin → ¬ b.PreFin) (consumedB : b ∈ afterPeerFin → ¬ a.PreFin)
    (finishedA : a.Finished → ¬ b.Early) (finishedB : b.Finished → ¬ a.Early)
    (orderA : a.Passive → b.Active) (orderB : b.Passive → a.Active) :
    a = .closed ∨ b = .closed ∨ b ∈ a.partners := by
  cases a <;> cases b <;> simp_all [afterPeerFin, PreFin, Finished, Early, Passive, Active, partners]

end State

namespace Trace

/-- What the end `x` knows of its peer `y` from its own state. -/
structure Parting (x y : Trace) : Prop where
  sent : ¬ x.state.PreFin → x.state = .closed ∨ x.closing.isSome = true
  consumed : x.state ∈ State.afterPeerFin → x.peerFin = true
  finished : x.state.Finished → x.nxtPos ≤ y.rcvPos
  order : x.state.Passive → y.state.Active

theorem Parting.of_open {x y : Trace} (h : x.state = .synSent ∨ x.state = .synRcvd ∨ x.state = .established) :
    Parting x y := by
  rcases h with h | h | h <;>
    constructor <;> simp [h, State.PreFin, State.afterPeerFin, State.Finished, State.Passive]

theorem Step.active {inp : Option Segment} {t t' : Trace} (hstep : Step inp t t') (h : t.state.Active) :
    t'.state.Active := by
  have hopen : ¬ t.state.Sending := by
    rintro (hs | hs) <;> simp [hs, State.Active] at h
  cases hstep with
  | data _ hs => exact absurd hs hopen
  | fin _ hfin => exact absurd hfin.sending hopen
  | takePending hs => exact absurd (.inl hs) hopen
  | takeFin _ _ htaken =>
      generalize t.state = s at htaken
      cases htaken <;> simp [State.Active, Trace.takeFin]
  | finAcked _ _ hacked =>
      generalize t.state = s at hacked
      cases hacked <;> simp [State.Active]
  | openActive _ _ _ hs => simp [hs, State.Active] at h
  | openPassive _ _ hs => simp [hs, State.Active] at h
  | die => simp [State.Active]
  | ack | resend | ackNew | mark | deliver | pendFin => exact h

theorem Parting.receiver {x y y' : Trace} {inp : Option Segment} (h : Parting x y) (hstep : Step inp y y') :
    Parting x y' :=
  ⟨h.sent, h.consumed, fun hf => (h.finished hf).trans hstep.rcvPos_le, fun hp => hstep.active (h.order hp)⟩

theorem Dir.closed_first {x y : Trace} (hd : Dir x y) (hx : Own x) (hpre : x.state.PreFin) (hy : Stream y)
    (hback : Parting y x) (hclosing : y.closing.isSome = true) : y.state.Active := by
  have hnone := hx.stream.opened hpre
  have hearly : y.state ∉ State.afterPeerFin := fun hmem => by
    obtain ⟨hsome, -⟩ := hd.eof (hback.consumed hmem)
    rw [hnone] at hsome
    cases hsome
  have hpost : ¬ y.state.PreFin := fun hp => by
    rw [hy.opened hp] at hclosing
    cases hclosing
  generalize y.state = s at hearly hpost
  cases s <;> simp_all [State.PreFin, State.afterPeerFin, State.Active]

theorem Parting.sender {x x' y : Trace} {inp : Option Segment} (h : Parting x y) (hback : Parting y x) (hx : Own x)
    (hy : Stream y) (hd : Dir x y) (hd' : Dir y x') (hh : Heard y inp) (hstep : Step inp x x') : Parting x' y := by
  cases hstep with
  | ack | resend | ackNew | mark | deliver | pendFin => exact ⟨h.sent, h.consumed, h.finished, h.order⟩
  | data _ hs =>
      refine ⟨h.sent, h.consumed, fun hf => ?_, h.order⟩
      rcases hf with hf | hf <;> rcases hs with hs | hs <;> cases hs.symm.trans hf
  | fin _ hfin =>
      generalize hst : x.state = s at hfin
      cases hfin with
      | active =>
          refine ⟨fun _ => .inr rfl, fun hc => ?_, fun hf => ?_, fun hp => ?_⟩
          · simp [State.afterPeerFin] at hc
          · simp [State.Finished] at hf
          · simp [State.Passive] at hp
      | passive =>
          refine ⟨fun _ => .inr rfl, fun _ => h.consumed ?_, fun hf => ?_, fun _ => h.order (.inl hst)⟩
          · simp [hst, State.afterPeerFin]
          · simp [State.Finished] at hf
  | takePending hest =>
      have hpre : x.state.PreFin := .inr (.inr (.inl hest))
      refine ⟨fun hp => absurd (.inr (.inr (.inr rfl))) hp, fun _ => rfl, fun hf => ?_, fun _ => ?_⟩
      · simp [State.Finished, Trace.takeFin] at hf
      · exact hd.closed_first hx hpre hy hback (hd'.eof rfl).1
  | takeFin _ _ htaken =>
      have hpost : ¬ x.state.PreFin ∧ x.state ≠ .closed := by
        generalize x.state = s at htaken
        cases htaken <;> simp [State.PreFin]
      refine ⟨fun _ => .inr ((h.sent hpost.1).resolve_left hpost.2), fun _ => rfl, fun hf => ?_, fun hp => ?_⟩
      · generalize hst : x.state = s at htaken
        cases htaken with
        | unacked => simp [State.Finished, Trace.takeFin] at hf
        | acked => exact h.finished (.inl hst)
      · generalize x.state = s at htaken
        cases htaken <;> simp [State.Passive, Trace.takeFin] at hp
  | finAcked hi hflag hacked hexact =>
      have hpost : ¬ x.state.PreFin ∧ x.state ≠ .closed := by
        generalize x.state = s at hacked
        cases hacked <;> simp [State.PreFin]
      refine ⟨fun _ => .inr ((h.sent hpost.1).resolve_left hpost.2), fun hc => ?_, fun _ => ?_, fun hp => ?_⟩
      · generalize hst : x.state = s at hacked
        cases hacked with
        | active | passive => simp [State.afterPeerFin] at hc
        | both =>
            refine h.consumed ?_
            simp [hst, State.afterPeerFin]
      · exact hd.heard_nxt hx hh hi hflag hexact
      · generalize x.state = s at hacked
        cases hacked <;> simp [State.Passive] at hp
  | openActive | openPassive => exact .of_open (.inr (.inr rfl))
  | die =>
      refine ⟨fun _ => .inl rfl, fun hc => ?_, fun hf => ?_, fun hp => ?_⟩
      · simp [State.afterPeerFin] at hc
      · simp [State.Finished] at hf
      · simp [State.Passive] at hp

theorem Parting.appCall_sender {x y : Trace} (h : Parting x y) (c : Call) : Parting (x.appCall c) y := by
  cases c <;> exact ⟨h.sent, h.consumed, h.finished, h.order⟩

theorem Parting.appCall_receiver {x y : Trace} (h : Parting x y) (c : Call) : Parting x (y.appCall c) := by
  refine ⟨h.sent, h.consumed, fun hf => ?_, fun hp => ?_⟩
  · rw [(appCall_positions y c).2.2]
    exact h.finished hf
  · rw [(appCall_frame y c).1]
    exact h.order hp

theorem Step.not_synRcvd {inp : Option Segment} {t t' : Trace} (hstep : Step inp t t') (h : t.state ≠ .synRcvd) :
    t'.state ≠ .synRcvd := by
  cases hstep with
  | fin _ hfin =>
      generalize t.state = s at hfin
      cases hfin <;> exact State.noConfusion
  | takeFin _ _ htaken =>
      generalize t.state = s at htaken
      cases htaken <;> exact State.noConfusion
  | finAcked _ _ hacked =>
      generalize t.state = s at hacked
      cases hacked <;> exact State.noConfusion
  | takePending | openActive | openPassive | die => exact State.noConfusion
  | ack | resend | data | ackNew | mark | deliver | pendFin => exact h

/-- The joint invariant with what each end knows of the other. -/
structure PartingJoint (a b : Trace) : Prop where
  joint : Joint a b
  active : a.state ≠ .synRcvd
  forth : Parting a b
  back : Parting b a

theorem PartingJoint.stepA {a a' b : Trace} {inp : Option Segment} (h : PartingJoint a b) (hh : Heard b inp)
    (hstep : Step inp a a') : PartingJoint a' b := by
  have hj := h.joint.stepA hh hstep
  refine ⟨hj, hstep.not_synRcvd h.active, ?_, h.back.receiver hstep⟩
  rcases h.joint.back with ⟨hv, -⟩ | hdir
  · rcases hv.step h.joint.ownA.stream (fun seg hi => (h.joint.ownB.heard hh hi).noRst) hstep with
      hv' | ⟨seg, -, -, rfl⟩
    · exact .of_open (.inl hv'.state)
    · exact .of_open (.inr (.inr rfl))
  · exact h.forth.sender h.back h.joint.ownA h.joint.ownB.stream h.joint.forth
      (hdir.receiver h.joint.ownB h.joint.ownA hh hstep) hh hstep

theorem PartingJoint.stepB {a b b' : Trace} {inp : Option Segment} (h : PartingJoint a b) (hh : Heard a inp)
    (hstep : Step inp b b') : PartingJoint a b' := by
  have hj := h.joint.stepB hh hstep
  refine ⟨hj, h.active, h.forth.receiver hstep, ?_⟩
  rcases h.joint.back with ⟨hv, hw⟩ | hdir
  · have hw' := hw.step (fun seg hi => ⟨(h.joint.ownA.heard hh hi).noRst, by
      obtain ⟨p, hp, hd⟩ := hh seg hi
      exact hv.quiet p hp seg hd⟩) hstep
    exact .of_open (.inr (.inl hw'.state))
  · exact h.back.sender h.forth h.joint.ownB h.joint.ownA.stream hdir hj.forth hh hstep

end Trace

namespace System
open Trace Host

variable {F : Type} [F64 F]

theorem parting_kept : Kept F (fun a => Own a ∧ Virgin a) PartingJoint where
  appI := (handshake_kept (F := F)).appI
  stepI := (handshake_kept (F := F)).stepI
  join := by
    intro a b ta pkt iss now rnd hf h hmem hl
    obtain ⟨hfresh, hj⟩ := accept_joint hf h.1 h.2 hmem hl
    have hwait : b.start.state = .synRcvd := by
      rcases hj.back with ⟨-, hw⟩ | hdir
      · exact hw.state
      · exact absurd h.2.state hdir.synced
    refine ⟨_, hfresh.follows, hj, ?_, .of_open (.inl h.2.state), .of_open (.inr (.inl hwait))⟩
    rw [h.2.state]
    exact State.noConfusion
  appA := by
    intro a b x h hs
    refine ⟨h.joint.appCallA x hs, ?_, h.forth.appCall_sender x, h.back.appCall_receiver x⟩
    rw [(appCall_frame a x).1]
    exact h.active
  appB := fun x h hs => ⟨h.joint.appCallB x hs, h.active, h.forth.appCall_receiver x, h.back.appCall_sender x⟩
  stepA := fun h hh hstep => h.stepA hh hstep
  stepB := fun h hh hstep => h.stepB hh hstep

/-- All that `x` had put into segments when its FIN left has reached `y`'s application. -/
def Drained (x y : Host F) : Prop := ∃ r, x.closing = some r ∧ r.written = y.delivered ++ r.queued

theorem drained_of_dir {x y : Host F} {tx ty : Trace} (hfx : Follows x tx) (hfy : Follows y ty) (hx : Own tx)
    (hd : Dir tx ty) (hfin : ty.peerFin = true) : Drained x y := by
  obtain ⟨hsome, hall⟩ := hd.eof hfin
  obtain ⟨r, hr⟩ := Option.isSome_iff_exists.mp hsome
  refine ⟨r, hfx.closing ▸ hr, ?_⟩
  rw [hx.stream.closed r hr, ← follows_delivered hfy, hall]

theorem Parting.consumedFin {x y : Trace} (h : Parting x y) (hd : Dir x y) (hpost : ¬ x.state.PreFin)
    (hopen : x.state ≠ .closed) (hle : x.nxtPos ≤ y.rcvPos) : y.peerFin = true := by
  have hlen := hd.pre.length_le
  have hclosing : x.closing.isSome = true := (h.sent hpost).resolve_left hopen
  unfold Trace.nxtPos Trace.rcvPos at hle
  rw [hclosing] at hle
  cases hpf : y.peerFin with
  | true => rfl
  | false =>
      rw [hpf] at hle
      simp only [Bool.toNat_true, Bool.toNat_false] at hle
      omega

theorem Parting.peerFin {x y : Trace} (h : Parting x y) (hd : Dir x y) (hf : x.state.Finished) :
    y.peerFin = true := by
  refine Parting.consumedFin h hd (fun hp => ?_) (fun hc => ?_) (h.finished hf)
  · rcases hf with hf | hf <;> simp [hf, State.PreFin] at hp
  · rcases hf with hf | hf <;> cases hf.symm.trans hc

theorem Parting.notPreFin {x y : Trace} (h : Parting x y) (hy : Own y) (hd : Dir y x)
    (hc : x.state ∈ State.afterPeerFin) : ¬ y.state.PreFin := fun hp => by
  obtain ⟨hsome, -⟩ := hd.eof (h.consumed hc)
  rw [hy.stream.opened hp] at hsome
  cases hsome

theorem Parting.notEarly {x y : Trace} (h : Parting x y) (hd : Dir x y) (hf : x.state.Finished) :
    ¬ y.state.Early := fun he => by
  have hpf := Parting.peerFin h hd hf
  rw [hd.early he] at hpf
  cases hpf

theorem PartingJoint.partners {a b : Trace} (h : PartingJoint a b) :
    a.state = .closed ∨ b.state = .closed ∨ b.state ∈ a.state.partners := by
  rcases h.joint.back with ⟨hv, hw⟩ | hdir
  · refine .inr (.inr ?_)
    rw [hv.state, hw.state]
    exact List.mem_singleton_self _
  · refine State.mem_partners (fun hs => absurd hs hdir.synced) h.active h.joint.forth.synced
      (Parting.notPreFin h.forth h.joint.ownB hdir) (Parting.notPreFin h.back h.joint.ownA h.joint.forth)
      (Parting.notEarly h.forth h.joint.forth) (Parting.notEarly h.back hdir) h.forth.order h.back.order

/-- The two ends agree on how far the teardown has come. In every state the
system reaches, an end that is not CLOSED finds its peer in one of the partners
of its state, or CLOSED. -/
theorem ends_are_partners (localEnd remoteEnd : Endpoint) (iss : U32) (now : U64) (rnd : U32)
    (events : List Event) (hb : Bounded ((init (F := F) localEnd remoteEnd iss now rnd).run events)) :
    let s := (init (F := F) localEnd remoteEnd iss now rnd).run events
    ∀ b, s.b = some b → s.a.conn.state = .closed ∨ b.conn.state = .closed ∨
      b.conn.state ∈ s.a.conn.state.partners := by
  intro s b hsb
  have ht : Tracked _ PartingJoint s := parting_kept.run (init_tracked ..) events hb
  obtain ⟨ta, tb, hfa, hfb, hj⟩ := ht.both hsb
  rw [← hfa.state, ← hfb.state]
  exact PartingJoint.partners hj

/-- The passive end closes too, and its FIN reaches the active end. -/
def demoTeardown : List Event :=
  demoClose ++ [.deliverToA 2 7#64 0#32, .callB (.close 8#64), .deliverToA 3 9#64 0#32]

theorem partners_after_teardown : (demo.run demoTeardown).a.conn.state = .timeWait ∧
    ∃ b, (demo.run demoTeardown).b = some b ∧ b.conn.state ∈ State.timeWait.partners := by
  have hb : Bounded (demo.run demoTeardown) := by decide +kernel
  have hstate : (demo.run demoTeardown).a.conn.state = .timeWait := by decide +kernel
  have hlast : (demo.run demoTeardown).b.map (fun b => b.conn.state) = some .lastAck := by decide +kernel
  obtain ⟨b, hsb, hst⟩ := Option.map_eq_some_iff.mp hlast
  refine ⟨hstate, b, hsb, ?_⟩
  rcases ends_are_partners _ _ _ _ _ demoTeardown hb b hsb with h | h | h
  · cases hstate.symm.trans h
  · cases hst.symm.trans h
  · exact hstate ▸ h

/-- Nothing in flight is lost in a teardown. An end in FIN_WAIT_2 or TIME_WAIT has
a peer that has consumed its FIN, and an end that has consumed the peer's FIN, or
whose own FIN was consumed, has delivered, or got delivered, all that was put
into segments before that FIN. -/
theorem finished_ends_are_drained (localEnd remoteEnd : Endpoint) (iss : U32) (now : U64) (rnd : U32)
    (events : List Event) (hb : Bounded ((init (F := F) localEnd remoteEnd iss now rnd).run events)) :
    let s := (init (F := F) localEnd remoteEnd iss now rnd).run events
    ∀ b, s.b = some b →
      (s.a.conn.state.Finished → b.conn.peerClosed = true ∧ Drained s.a b) ∧
      (b.conn.state.Finished → s.a.conn.peerClosed = true ∧ Drained b s.a) ∧
      (s.a.conn.state ∈ State.afterPeerFin → Drained b s.a) ∧
        (b.conn.state ∈ State.afterPeerFin → Drained s.a b) := by
  intro s b hsb
  have ht : Tracked _ PartingJoint s := parting_kept.run (init_tracked ..) events hb
  obtain ⟨ta, tb, hfa, hfb, hj⟩ := ht.both hsb
  rw [← hfa.state, ← hfb.state]
  have hpeerA : ta.peerFin = s.a.conn.peerFin := congrArg Core.peerFin hfa.core
  have hpeerB : tb.peerFin = b.conn.peerFin := congrArg Core.peerFin hfb.core
  have hforth := drained_of_dir hfa hfb hj.joint.ownA hj.joint.forth
  have hback : tb.state.Finished ∨ ta.state ∈ State.afterPeerFin → Dir tb ta := by
    intro hlate
    refine hj.joint.back.resolve_left ?_
    rintro ⟨hv, hw⟩
    rw [hv.state, hw.state] at hlate
    simp [State.Finished, State.afterPeerFin] at hlate
  refine ⟨fun hf => ?_, fun hf => ?_, fun hc => ?_, fun hc => hforth (hj.back.consumed hc)⟩
  · have hpf := Parting.peerFin hj.forth hj.joint.forth hf
    exact ⟨hpeerB.symm.trans hpf, hforth hpf⟩
  · have hdir := hback (.inl hf)
    have hpf := Parting.peerFin hj.back hdir hf
    exact ⟨hpeerA.symm.trans hpf, drained_of_dir hfb hfa hj.joint.ownB hdir hpf⟩
  · exact drained_of_dir hfb hfa hj.joint.ownB (hback (.inr hc)) (hj.forth.consumed hc)

theorem drained_after_teardown : ∃ b, (demo.run demoTeardown).b = some b ∧ b.conn.peerClosed = true ∧
    Drained (demo.run demoTeardown).a b ∧ Drained b (demo.run demoTeardown).a := by
  have hb : Bounded (demo.run demoTeardown) := by decide +kernel
  have hstate : (demo.run demoTeardown).a.conn.state = .timeWait := by decide +kernel
  have hsome : (demo.run demoTeardown).b.isSome = true := by decide +kernel
  obtain ⟨b, hsb⟩ := Option.isSome_iff_exists.mp hsome
  obtain ⟨hfinished, -, htaken, -⟩ := finished_ends_are_drained _ _ _ _ _ demoTeardown hb b hsb
  obtain ⟨hpeer, hforth⟩ := hfinished (.inr hstate)
  have hlate : (demo.run demoTeardown).a.conn.state ∈ State.afterPeerFin := by
    rw [hstate]
    decide
  exact ⟨b, hsb, hpeer, hforth, htaken hlate⟩

end System
end TcpStack
