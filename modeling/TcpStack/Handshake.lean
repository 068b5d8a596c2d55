import TcpStack.Joint

/-!
# Both directions, from the handshake on

Until the SYN-ACK arrives the active opener knows nothing of the peer's
sequence space and the passive opener waits. After it, both directions are
related. The two phases together are kept by every event of the system.
-/
namespace TcpStack
open Tcp TcpStack.Seq TcpStack.Circle

namespace Trace

/-- The active opener before it has heard anything. -/
structure Virgin (a : Trace) : Prop where
  state : a.state = .synSent
  quiet : ∀ p ∈ a.emitted, ∀ s, decode p = some s → hasFlag s.th.flags ACK = false
  delivered : a.delivered = []
  peerFin : a.peerFin = false
  pendingFin : a.pendingFin = none
  unaPos : a.unaPos = 0
  removed : a.removed = []

/-- The passive opener before its SYN-ACK was acknowledged. -/
structure Waiting (b : Trace) : Prop where
  state : b.state = .synRcvd
  unaPos : b.unaPos = 0
  removed : b.removed = []

theorem not_sending_synSent : ¬ State.Sending .synSent := by simp [State.Sending]

theorem not_sending_synRcvd : ¬ State.Sending .synRcvd := by simp [State.Sending]

theorem Step.shut_cases {t t' : Trace} {inp : Option Segment} (h : Step inp t t')
    (hst : t.state = .synSent ∨ t.state = .synRcvd ∨ t.state = .closed) :
    (t.state ≠ .synSent ∧ ∃ pkt, t' = t.emit pkt) ∨
    (∃ q ∈ t.queue, t' = t.emit q.packet) ∨
    (∃ seg, inp = some seg ∧ t.state = .synSent ∧ hasFlag seg.th.flags SYN = true ∧ seg.th.ack = t.nxt ∧
      t' = { (t.advance seg.th.ack).dropAcked seg.th.ack with
        state := .established, rcvNxt := seg.th.seq + 1#32, reasm := .new (seg.th.seq + 1#32) }) ∨
    (∃ seg, inp = some seg ∧ t.state = .synRcvd ∧ hasFlag seg.th.flags ACK = true ∧
      t' = { (t.advance seg.th.ack).dropAcked seg.th.ack with state := .established }) ∨
    ((t.state = .closed ∨ ∃ seg, inp = some seg ∧ hasFlag seg.th.flags RST = true) ∧
      t' = { t with state := .closed }) := by
  have hsend : ¬ t.state.Sending := by rcases hst with hs | hs | hs <;> simp [hs, State.Sending]
  have hrecv : ¬ t.state.Receiving := by rcases hst with hs | hs | hs <;> simp [hs, State.Receiving]
  have hest : t.state ≠ .established := fun hs => hsend (.inl hs)
  cases h with
  | ack hopen => exact .inl ⟨hopen, _, rfl⟩
  | resend hq _ => exact .inr (.inl ⟨_, hq, rfl⟩)
  | data _ hs => exact absurd hs hsend
  | fin _ hfin => exact absurd hfin.sending hsend
  | ackNew _ _ hs => exact absurd hs hsend
  | mark _ _ hs => exact absurd hs hsend
  | deliver _ hr => exact absurd hr hrecv
  | pendFin _ _ hs => exact absurd hs hest
  | takePending hs => exact absurd hs hest
  | takeFin _ _ htaken =>
      generalize t.state = st at htaken hst
      cases htaken <;> simp at hst
  | finAcked _ _ hacked =>
      generalize t.state = st at hacked hst
      cases hacked <;> simp at hst
  | @openActive seg hi hsyn _ hwait hexact => exact .inr (.inr (.inl ⟨seg, hi, hwait, hsyn, hexact, rfl⟩))
  | @openPassive seg hi hf hwait _ => exact .inr (.inr (.inr (.inl ⟨seg, hi, hwait, hf, rfl⟩)))
  | die hcause =>
      refine .inr (.inr (.inr (.inr ⟨hcause.imp_left fun hne => ?_, rfl⟩)))
      rcases hst with hs | hs | hs
      · exact absurd hs hne.1
      · exact absurd hs hne.2
      · exact hs

theorem Virgin.step {a a' : Trace} {inp : Option Segment} (hv : Virgin a) (ha : Stream a)
    (hrst : ∀ seg, inp = some seg → hasFlag seg.th.flags RST = false) (hstep : Step inp a a') :
    Virgin a' ∨ ∃ seg, inp = some seg ∧ hasFlag seg.th.flags SYN = true ∧
      a' = { (a.advance seg.th.ack).dropAcked seg.th.ack with
        state := .established, rcvNxt := seg.th.seq + 1#32, reasm := .new (seg.th.seq + 1#32) } := by
  rcases hstep.shut_cases (.inl hv.state) with ⟨hopen, -⟩ | ⟨q, hq, rfl⟩ | ⟨seg, hi, -, hsyn, -, rfl⟩ |
    ⟨seg, -, hwait, -⟩ | ⟨hcause, rfl⟩
  · exact absurd hv.state hopen
  · refine .inl ⟨hv.state, ?_, hv.delivered, hv.peerFin, hv.pendingFin, hv.unaPos, hv.removed⟩
    intro p hp
    rcases List.mem_append.mp hp with hp | hp
    · exact hv.quiet p hp
    · rw [List.mem_singleton.mp hp]
      exact hv.quiet _ (ha.queued _ hq)
  · exact .inr ⟨seg, hi, hsyn, rfl⟩
  · exact nomatch hv.state.symm.trans hwait
  · rcases hcause with hst | ⟨seg, hi, hr⟩
    · exact nomatch hv.state.symm.trans hst
    · rw [hrst seg hi] at hr
      cases hr

theorem Waiting.step {b b' : Trace} {inp : Option Segment} (hw : Waiting b)
    (hin : ∀ seg, inp = some seg →
      hasFlag seg.th.flags RST = false ∧ hasFlag seg.th.flags ACK = false)
    (hstep : Step inp b b') : Waiting b' := by
  rcases hstep.shut_cases (.inr (.inl hw.state)) with ⟨-, pkt, rfl⟩ | ⟨q, -, rfl⟩ | ⟨seg, -, hwait, -⟩ |
    ⟨seg, hi, -, hf, -⟩ | ⟨hcause, rfl⟩
  · exact ⟨hw.state, hw.unaPos, hw.removed⟩
  · exact ⟨hw.state, hw.unaPos, hw.removed⟩
  · exact nomatch hw.state.symm.trans hwait
  · rw [(hin seg hi).2] at hf
    cases hf
  · rcases hcause with hst | ⟨seg, hi, hr⟩
    · exact nomatch hw.state.symm.trans hst
    · rw [(hin seg hi).1] at hr
      cases hr

theorem Virgin.opened {a b : Trace} {seg : Segment} (hv : Virgin a) (hw : Waiting b)
    (hst : Stamped b.iss b.pieces b.closing.isSome seg) (hsyn : hasFlag seg.th.flags SYN = true) :
    Dir b { (a.advance seg.th.ack).dropAcked seg.th.ack with
      state := .established, rcvNxt := seg.th.seq + 1#32, reasm := .new (seg.th.seq + 1#32) } := by
  have hseq : seg.th.seq + 1#32 = point b.iss 1 := by
    rw [(hst.syn hsyn).2]
    rfl
  have hpos : ({ (a.advance seg.th.ack).dropAcked seg.th.ack with
      state := .established, rcvNxt := seg.th.seq + 1#32
      reasm := .new (seg.th.seq + 1#32) } : Trace).rcvPos = 1 := by
    change 1 + a.delivered.length + a.peerFin.toNat = 1
    rw [hv.delivered, hv.peerFin]
    rfl
  refine ⟨by simp, ?_, hseq, ?_, ?_, ?_, ?_, fun _ => hv.peerFin, ?_, ?_, ?_⟩
  · rw [hpos]
    exact hseq
  · change a.delivered <+: b.sent
    rw [hv.delivered]
    exact List.nil_prefix
  · intro e he
    exact absurd he SortedMap.not_mem_empty
  · intro hf
    exact absurd (hv.peerFin.symm.trans hf) (by simp)
  · intro w hp
    exact absurd (hv.pendingFin.symm.trans hp) (by simp)
  · intro p hp s hd hf
    rw [hv.quiet p hp s hd] at hf
    cases hf
  · rw [hpos, hw.unaPos]
    exact Nat.zero_le 1
  · rw [hw.removed]
    intro q hq
    cases hq

/-- The invariant of the two-endpoint system. -/
structure Joint (a b : Trace) : Prop where
  ownA : Own a
  ownB : Own b
  forth : Dir a b
  back : (Virgin a ∧ Waiting b) ∨ Dir b a

theorem Joint.stepA {a a' b : Trace} {inp : Option Segment} (h : Joint a b) (hh : Heard b inp)
    (hstep : Step inp a a') : Joint a' b := by
  refine ⟨h.ownA.step hstep, h.ownB, h.forth.sender h.ownA hh hstep, ?_⟩
  rcases h.back with ⟨hv, hw⟩ | hdir
  · rcases hv.step h.ownA.stream (fun seg hi => (h.ownB.heard hh hi).noRst) hstep with hv' | ⟨seg, hi, hsyn, rfl⟩
    · exact .inl ⟨hv', hw⟩
    · exact .inr (hv.opened hw (h.ownB.heard hh hi) hsyn)
  · exact .inr (hdir.receiver h.ownB h.ownA hh hstep)

theorem Joint.stepB {a b b' : Trace} {inp : Option Segment} (h : Joint a b) (hh : Heard a inp)
    (hstep : Step inp b b') : Joint a b' := by
  refine ⟨h.ownA, h.ownB.step hstep, h.forth.receiver h.ownA h.ownB hh hstep, ?_⟩
  rcases h.back with ⟨hv, hw⟩ | hdir
  · refine .inl ⟨hv, hw.step (fun seg hi => ⟨(h.ownA.heard hh hi).noRst, ?_⟩) hstep⟩
    obtain ⟨p, hp, hd⟩ := hh seg hi
    exact hv.quiet p hp seg hd
  · exact .inr (hdir.sender h.ownB hh hstep)

theorem Own.appCall {t : Trace} (h : Own t) (x : Call) (hs : (t.appCall x).written.length < 2 ^ 31) :
    Own (t.appCall x) :=
  ⟨h.stream.appCall x, h.outstanding.appCall x, hs⟩

theorem Virgin.appCall {a : Trace} (h : Virgin a) (x : Call) : Virgin (a.appCall x) := by
  have hdel := h.delivered
  cases x with
  | takeReceived =>
      refine ⟨h.state, h.quiet, ?_, h.peerFin, h.pendingFin, h.unaPos, h.removed⟩
      simpa [Trace.appCall, Trace.delivered] using hdel
  | _ => exact ⟨h.state, h.quiet, hdel, h.peerFin, h.pendingFin, h.unaPos, h.removed⟩

theorem Waiting.appCall {b : Trace} (h : Waiting b) (x : Call) : Waiting (b.appCall x) := by
  cases x <;> exact ⟨h.state, h.unaPos, h.removed⟩

theorem Joint.appCallA {a b : Trace} (h : Joint a b) (x : Call)
    (hs : (a.appCall x).written.length < 2 ^ 31) : Joint (a.appCall x) b := by
  refine ⟨h.ownA.appCall x hs, h.ownB, h.forth.appCall_sender x, ?_⟩
  rcases h.back with ⟨hv, hw⟩ | hdir
  · exact .inl ⟨hv.appCall x, hw⟩
  · exact .inr (hdir.appCall_receiver x)

theorem Joint.appCallB {a b : Trace} (h : Joint a b) (x : Call)
    (hs : (b.appCall x).written.length < 2 ^ 31) : Joint a (b.appCall x) := by
  refine ⟨h.ownA, h.ownB.appCall x hs, h.forth.appCall_receiver x, ?_⟩
  rcases h.back with ⟨hv, hw⟩ | hdir
  · exact .inl ⟨hv, hw.appCall x⟩
  · exact .inr (hdir.appCall_sender x)

end Trace

namespace System
open Trace Host

variable {F : Type} [F64 F]

theorem init_virgin (localEnd remoteEnd : Endpoint) (iss : U32) (now : U64) (rnd : U32) :
    Own (Host.connect (F := F) localEnd remoteEnd iss now rnd).start ∧
      Virgin (Host.connect (F := F) localEnd remoteEnd iss now rnd).start := by
  have hf : Fresh (Host.connect (F := F) localEnd remoteEnd iss now rnd) := .connect ..
  obtain ⟨s, hc, -⟩ := Connection.connectWithIss_syn (F := F) localEnd remoteEnd iss now rnd
  refine ⟨⟨hf.stream, hf.outstanding, by simp [start]⟩, rfl, ?_, rfl, rfl, rfl, ?_, rfl⟩
  · intro p hp s' hd
    rw [List.mem_singleton.mp hp] at hd
    obtain rfl : s = s' := Option.some.inj (hc.decode.symm.trans hd)
    rw [hc.flags]
    decide
  · change (iss - iss).toNat = 0
    rw [BitVec.sub_self]
    rfl

theorem init_tracked (localEnd remoteEnd : Endpoint) (iss : U32) (now : U64) (rnd : U32) :
    Tracked (fun a => Own a ∧ Virgin a) Joint (init (F := F) localEnd remoteEnd iss now rnd) :=
  ⟨_, Fresh.follows (.connect ..), init_virgin ..⟩

theorem accept_joint {a b : Host F} {ta : Trace} {pkt : Bytes} {iss : U32} {now : U64} {rnd : U32}
    (hfa : Follows a ta) (hown : Own ta) (hv : Virgin ta) (hmem : pkt ∈ a.emitted)
    (hl : listen pkt iss now rnd = some b) : Fresh b ∧ Joint ta b.start := by
  unfold listen at hl
  split at hl
  · rename_i ip seg hip hdec
    have hfresh : Fresh b := .accept ip.src ip.dst seg iss now rnd hl
    have hheard : Heard ta (some seg) := fun seg' heq => ⟨pkt, hfa.emitted ▸ hmem, heq ▸ hdec⟩
    have hst : Stamped ta.iss ta.pieces ta.closing.isSome seg := hown.heard hheard rfl
    have hsyn : hasFlag seg.th.flags SYN = true := by
      by_contra hno
      simp [Host.accept, Connection.acceptWithIssAt, hno] at hl
    have hseq : seg.th.seq + 1#32 = point ta.iss 1 := by
      rw [(hst.syn hsyn).2]
      rfl
    have hownb : Own b.start := by
      refine ⟨hfresh.stream, hfresh.outstanding, ?_⟩
      simp [start]
    obtain ⟨⟨c, synack⟩, hr, rfl⟩ := Option.map_eq_some_iff.mp hl
    obtain ⟨rfl, s, hc, -⟩ := Connection.acceptWithIssAt_eq hr
    refine ⟨hfresh, hown, hownb, ?_, .inl ⟨hv, rfl, ?_, rfl⟩⟩
    · refine ⟨by simp [start, Connection.core, Connection.synRcvdBlock], hseq, hseq, List.nil_prefix, ?_,
        fun hf => ?_, fun w hw => ?_, fun _ => rfl, ?_, ?_, ?_⟩
      · intro e he
        exact absurd he SortedMap.not_mem_empty
      · cases hf
      · cases hw
      · intro p hp s' hd _
        rw [List.mem_singleton.mp hp] at hd
        obtain rfl : s = s' := Option.some.inj (hc.decode.symm.trans hd)
        exact ⟨1, le_rfl, hc.ack.trans hseq⟩
      · rw [hv.unaPos]
        exact Nat.zero_le _
      · rw [hv.removed]
        intro q hq
        cases hq
    · change (iss - iss).toNat = 0
      rw [BitVec.sub_self]
      rfl
  · cases hl

theorem handshake_kept : Kept F (fun a => Own a ∧ Virgin a) Joint where
  appI := fun x h hs => ⟨h.1.appCall x hs, h.2.appCall x⟩
  stepI := by
    rintro a a' ⟨hown, hv⟩ hstep
    refine ⟨hown.step hstep, ?_⟩
    rcases hv.step hown.stream (fun seg hi => by cases hi) hstep with hv' | ⟨seg, hi, -⟩
    · exact hv'
    · cases hi
  join := by
    intro a b ta pkt iss now rnd hf h hmem hl
    obtain ⟨hfresh, hj⟩ := accept_joint hf h.1 h.2 hmem hl
    exact ⟨_, hfresh.follows, hj⟩
  appA := fun x h hs => h.appCallA x hs
  appB := fun x h hs => h.appCallB x hs
  stepA := fun h hh hstep => h.stepA hh hstep
  stepB := fun h hh hstep => h.stepB hh hstep

end System
end TcpStack
