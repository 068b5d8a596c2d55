import TcpStack.Delivery

/-!
# After the peer's FIN

The peer has said that no more data comes. The module says exactly when the
receive side moves all the same, and when a repeated FIN is acknowledged again.
-/
namespace TcpStack
open Tcp TcpStack.Seq

variable {F : Type} [F64 F]

namespace Connection

/-- What the application and the peer see of the receive side. -/
def progress (c : Connection F) : U32 × Bytes := (c.recv.nxt, c.recvBuf)

/-- A segment that CLOSE_WAIT still takes data from: it passes every check, its
acknowledgement resends nothing, and the reassembler has bytes to release. -/
def Reopens (c : Connection F) (seg : Segment) : Prop :=
  c.state = .closeWait ∧ hasFlag seg.th.flags RST = false ∧ hasFlag seg.th.flags SYN = false ∧
    ¬ OldTimestamp c seg ∧ Accepts c seg ∧ c.hole seg = none ∧
    ¬ c.reasm.Withholds seg.th.seq seg.payload c.recv.nxt

theorem maybeChallenge_progress (c : Connection F) (now : U64) (rnd : U32) :
    (c.maybeChallenge now rnd).1.progress = c.progress := by
  have hcl := (maybeChallenge_clocks c now rnd).1
  rw [hcl]
  rfl

theorem onRst_progress (c : Connection F) (th : TcpHeader) (now : U64) (rnd : U32) :
    (c.onRst th now rnd).1.progress = c.progress := by
  unfold onRst
  split_ifs <;> first | rfl | exact maybeChallenge_progress c now rnd

theorem onState_shut {c : Connection F} (hs : c.state = .lastAck ∨ c.state = .closing ∨ c.state = .timeWait ∨
    c.state = .closed) (th : TcpHeader) (payload : Bytes) (opts : TcpOptions) (now : U64) (rnd : U32) :
    (c.onState th payload opts now rnd).1.progress = c.progress := by
  unfold onState
  rcases hs with hs | hs | hs | hs <;> simp only [hs]
  · unfold onLastAck
    split <;> rfl
  · unfold onClosing
    split <;> rfl

theorem receive_progress {c : Connection F} (hs : c.state = .closeWait) (seg : Segment) :
    (c.receive seg.th seg.payload).1.progress = c.progress ↔
      c.reasm.Withholds seg.th.seq seg.payload c.recv.nxt := by
  have hin : (c.receive seg.th seg.payload).1.intake = (c.deliver seg.th.seq seg.payload).intake := by
    rcases receive_cases c seg with ⟨⟨hest, -⟩, -⟩ | ⟨-, heq⟩
    · rw [deliver_state, hs] at hest
      cases hest
    · exact heq
  have hprog : (c.receive seg.th seg.payload).1.progress = (c.deliver seg.th.seq seg.payload).progress :=
    congrArg (fun t : Bytes × U32 × Reassembler × Bool => (t.2.1, t.1)) hin
  rw [hprog, ← Reassembler.recv_nil_iff, deliver_eq]
  simp only [progress, Prod.mk.injEq, List.append_right_eq_self]
  constructor
  · exact fun h => h.2
  · intro h
    simp [h]

theorem onSegment_shut {c : Connection F} (hs : c.state = .lastAck ∨ c.state = .closing ∨ c.state = .timeWait ∨
    c.state = .closed) (seg : Segment) (now : U64) (rnd : U32) :
    (c.onSegment seg now rnd).1.progress = c.progress := by
  have hds : (c.arrive now).state = .lastAck ∨ (c.arrive now).state = .closing ∨
      (c.arrive now).state = .timeWait ∨ (c.arrive now).state = .closed := hs
  have hprog : (c.arrive now).progress = c.progress := rfl
  rw [← hprog]
  unfold onSegment
  generalize c.arrive now = d at hds
  have hopen : d.state ≠ .synSent ∧ d.state ≠ .synRcvd := by
    rcases hds with h | h | h | h <;> simp [h]
  dsimp only
  split_ifs with hrst hsent hsyn
  · exact onRst_progress d seg.th now rnd
  · exact absurd hsent hopen.1
  · exact maybeChallenge_progress d now rnd
  · rw [onSynRcvd, if_neg hopen.2]
    exact onState_shut hds seg.th seg.payload seg.opts now rnd

theorem onSegment_control {c : Connection F} (hs : c.state = .closeWait) {seg : Segment}
    (h : hasFlag seg.th.flags RST = true ∨ hasFlag seg.th.flags SYN = true) (now : U64) (rnd : U32) :
    (c.onSegment seg now rnd).1.progress = c.progress := by
  have hds : (c.arrive now).state = .closeWait := hs
  have hprog : (c.arrive now).progress = c.progress := rfl
  rw [← hprog]
  unfold onSegment
  generalize c.arrive now = d at hds
  dsimp only
  split_ifs with hrst hsent hsyn
  · exact onRst_progress d seg.th now rnd
  · rw [hds] at hsent
    cases hsent
  · exact maybeChallenge_progress d now rnd
  · rw [isSynchronized, hds, Bool.and_true] at hsyn
    exact absurd (h.resolve_left hrst) hsyn

theorem onSegment_closeWait_iff {c : Connection F} (hs : c.state = .closeWait) (seg : Segment) (now : U64)
    (rnd : U32) : (c.onSegment seg now rnd).1.progress = c.progress ↔ ¬ Reopens c seg := by
  by_cases hctl : hasFlag seg.th.flags RST = true ∨ hasFlag seg.th.flags SYN = true
  · refine ⟨fun _ => ?_, fun _ => onSegment_control hs hctl now rnd⟩
    rintro ⟨-, hrst, hsyn, -⟩
    rcases hctl with h | h
    · rw [hrst] at h
      cases h
    · rw [hsyn] at h
      cases h
  rw [not_or, Bool.not_eq_true, Bool.not_eq_true] at hctl
  have hhandled := onSegment_handled (.inr hs) hctl.1 hctl.2 now rnd
  have hin : (c.arrive now).inbox = c.inbox := rfl
  have hkeep : ∀ d : Connection F, d.inbox = (c.arrive now).inbox → d.progress = c.progress :=
    fun d h => congrArg (fun t => (t.2.1.nxt, t.2.2.2.1)) (h.trans hin)
  generalize c.onSegment seg now rnd = r at hhandled
  cases hhandled with
  | stale old => exact ⟨fun _ h => h.2.2.2.1 old, fun _ => rfl⟩
  | refused _ bad same => exact ⟨fun _ h => bad h.2.2.2.2.1, fun _ => hkeep _ same⟩
  | diverted _ _ diverts same =>
      refine ⟨fun _ h => ?_, fun _ => hkeep _ same⟩
      have hnone : (c.arrive now).hole seg = none := h.2.2.2.2.2.1
      rw [diverts] at hnone
      cases hnone
  | @received d current ok through same =>
      obtain ⟨hst, hrecv, hre, -⟩ := inbox_buffer (same.trans hin)
      rw [← hkeep d same, receive_progress (hst.trans hs), hre, hrecv]
      constructor
      · exact fun hw h => h.2.2.2.2.2.2 hw
      · intro h
        by_contra hw
        exact h ⟨hs, hctl.1, hctl.2, current, ok, through, hw⟩

end Connection

namespace Host
open Connection

/-- A segment leaves RCV.NXT and the receive buffer as they are. -/
def LeavesEof (c : Connection F) : Call → Prop
  | .onSegment seg now rnd => (c.onSegment seg now rnd).1.progress = c.progress
  | _ => True

/-- The call hands CLOSE_WAIT nothing that it would deliver. -/
def NothingReopens (c : Connection F) : Call → Prop
  | .onSegment seg _ _ => ¬ Reopens c seg
  | _ => True

theorem leavesEof_iff {c : Connection F} (hm : Marked c.phase) (hp : c.peerFin = true) (x : Call) :
    LeavesEof c x ↔ NothingReopens c x := by
  cases x with
  | onSegment seg now rnd =>
      rcases hm.afterFin hp with hs | hs
      · exact onSegment_closeWait_iff hs seg now rnd
      · refine ⟨fun _ h => ?_, fun _ => onSegment_shut hs seg now rnd⟩
        have hcw : c.state = .closeWait := h.1
        rcases hs with hs | hs | hs | hs <;> simp [phase, hcw] at hs
  | _ => exact Iff.rfl

/-- After the peer's FIN, RCV.NXT and the receive buffer stand through a run
exactly if no segment of the run reopens CLOSE_WAIT. -/
theorem eof_is_final_iff {h : Host F} (hf : Fresh h) (calls : List Call)
    (hp : (h.run calls).conn.peerClosed = true) (later : List Call) :
    Throughout LeavesEof (h.run calls) later ↔ Throughout NothingReopens (h.run calls) later := by
  have hm := run_marked hf calls
  generalize h.run calls = k at hp hm
  induction later generalizing k with
  | nil => exact Iff.rfl
  | cons x later ih =>
      have hturn := call_turn k x
      exact and_congr (leavesEof_iff hm hp x) (ih (k.call x) (hturn.peerFin_mono hp) (hm.turn hturn))

/-- The FIN again, then our own close: EOF stands. -/
theorem eof_stands_over_repeated_fin :
    let k := sample.run [.onSegment (samplePeer (FIN ||| ACK) 501#32 101#32 []) 1#64 0#32]
    k.conn.peerClosed = true ∧ Throughout LeavesEof k
      [.onSegment (samplePeer (FIN ||| ACK) 501#32 101#32 []) 2#64 0#32, .close 3#64] := by
  intro k
  have hp : k.conn.peerClosed = true := by decide +kernel
  refine ⟨hp, (eof_is_final_iff sample_fresh _ hp _).mpr ⟨fun h => ?_, trivial, trivial⟩⟩
  exact h.2.2.2.2.2.2 (.inl rfl)

/-- A byte behind the FIN is delivered after EOF was reported. -/
theorem data_delivered_after_eof :
    let k := sample.run [.onSegment (samplePeer (FIN ||| ACK) 501#32 101#32 []) 1#64 0#32]
    let seg := samplePeer (PSH ||| ACK) 502#32 101#32 [66#8]
    Fresh sample ∧ k.conn.peerClosed = true ∧ k.conn.recvBuf = [] ∧
      (k.conn.onSegment seg 2#64 0#32).1.recvBuf = [66#8] ∧
      (k.conn.onSegment seg 2#64 0#32).1.recv.nxt ≠ k.conn.recv.nxt ∧
      ¬ Throughout LeavesEof k [.onSegment seg 2#64 0#32] := by
  intro k seg
  have hbuf : (k.conn.onSegment seg 2#64 0#32).1.recvBuf = [66#8] := by decide +kernel
  refine ⟨sample_fresh, by decide +kernel, by decide +kernel, hbuf, by decide +kernel, fun h => ?_⟩
  have hkept : (k.conn.onSegment seg 2#64 0#32).1.recvBuf = k.conn.recvBuf := congrArg Prod.snd h.1
  exact absurd (hbuf.symm.trans hkept) (by decide +kernel)

end Host

namespace Trace

/-- A queued FIN ends at SND.NXT, and LAST_ACK holds one that acknowledges all
that was received. -/
structure FinKept (t : Trace) : Prop where
  last : ∀ q ∈ t.queue, ∀ s, decode q.packet = some s → hasFlag s.th.flags FIN = true → q.endSeq = t.nxt
  held : t.state = .lastAck → ∃ q ∈ t.queue, ∃ s, decode q.packet = some s ∧
    hasFlag s.th.flags FIN = true ∧ s.th.ack = t.rcvNxt

theorem Stream.no_fin {t : Trace} (h : Stream t) (hpre : t.state.PreFin) {q : Queued} (hq : q ∈ t.queue)
    {s : Segment} (hd : decode q.packet = some s) : hasFlag s.th.flags FIN = false := by
  obtain ⟨s', hd', hst⟩ := h.emitted _ (h.queued q hq)
  obtain rfl : s' = s := Option.some.inj (hd'.symm.trans hd)
  rw [h.opened hpre] at hst
  exact Bool.eq_false_iff.mpr fun hfin => nomatch (hst.fin hfin).1

theorem FinKept.shrink {t t' : Trace} (h : FinKept t) (hn : t'.nxt = t.nxt)
    (hq : ∀ q ∈ t'.queue, ∃ r ∈ t.queue, r.packet = q.packet ∧ r.endSeq = q.endSeq)
    (hs : t'.state ≠ .lastAck) : FinKept t' := by
  refine ⟨fun q hmem s hd hfin => ?_, fun hla => absurd hla hs⟩
  obtain ⟨r, hr, hpkt, hend⟩ := hq q hmem
  rw [hn, ← hend]
  exact h.last r hr s (hpkt ▸ hd) hfin

theorem FinTaken.ne_lastAck {s next : State} (h : FinTaken s next) : next ≠ .lastAck := by
  cases h <;> simp

theorem FinAcked.ne_lastAck {s next : State} (h : FinAcked s next) : next ≠ .lastAck := by
  cases h <;> simp

theorem Step.finKept {inp : Option Segment} {t t' : Trace} (hstep : Step inp t t') (hst : Stream t)
    (h : FinKept t) : FinKept t' := by
  have hid : ∀ q ∈ t.queue, ∃ r ∈ t.queue, r.packet = q.packet ∧ r.endSeq = q.endSeq :=
    fun q hq => ⟨q, hq, rfl, rfl⟩
  have hdrop : ∀ ack, ∀ q ∈ (t.dropAcked ack).queue, ∃ r ∈ t.queue, r.packet = q.packet ∧ r.endSeq = q.endSeq :=
    fun ack q hq => ⟨q, (List.mem_filter.mp hq).1, rfl, rfl⟩
  have hsending : t.state.Sending → t.state ≠ .lastAck := by
    rintro (hs | hs) <;> simp [hs]
  cases hstep with
  | ack | resend => exact ⟨h.last, h.held⟩
  | @data n pkt s flags _ hs _ _ plain hc =>
      refine ⟨fun q hq s' hd hfin => ?_, fun hla => absurd hla (hsending hs)⟩
      rcases List.mem_append.mp hq with hq | hq
      · rw [hst.no_fin hs.preFin hq hd] at hfin
        cases hfin
      · rw [List.mem_singleton.mp hq] at hd ⊢
        rfl
  | @fin pkt s next _ hs hc =>
      refine ⟨fun q hq s' hd hfin => ?_, fun _ => ?_⟩
      · rcases List.mem_append.mp hq with hq | hq
        · rw [hst.no_fin hs.sending.preFin hq hd] at hfin
          cases hfin
        · rw [List.mem_singleton.mp hq]
          rfl
      · refine ⟨_, List.mem_append_right _ (List.mem_singleton_self _), s, hc.decode, ?_, hc.ack⟩
        rw [hc.flags]
        decide
  | ackNew _ _ hs => exact h.shrink rfl (hdrop _) (hsending hs)
  | mark _ _ hs =>
      refine h.shrink rfl (fun q hq => ?_) (hsending hs)
      obtain ⟨r, hr, rfl⟩ := List.mem_map.mp hq
      exact ⟨r, hr, rfl, rfl⟩
  | deliver _ hs =>
      refine h.shrink rfl hid fun hla : t.state = .lastAck => ?_
      rcases hs with hs | hs | hs | hs <;> simp [hs] at hla
  | pendFin _ _ hest => exact h.shrink rfl hid fun hla : t.state = .lastAck => by simp [hest] at hla
  | takePending => exact h.shrink rfl hid (by simp [Trace.takeFin])
  | takeFin _ _ htaken => exact h.shrink rfl hid htaken.ne_lastAck
  | finAcked _ _ hacked => exact h.shrink rfl (hdrop _) hacked.ne_lastAck
  | openActive | openPassive => exact h.shrink rfl (hdrop _) (by simp)
  | die => exact h.shrink rfl hid (by simp)

theorem Run.finKept {t t' : Trace} {xs : List Call} (hr : Run t xs t') (hst : Stream t) (h : FinKept t) :
    FinKept t' := by
  induction hr with
  | nil => exact h
  | @cons t t₁ t' x xs steps rest ih =>
      have happ : FinKept (t.appCall x) := by
        cases x <;> exact ⟨h.last, h.held⟩
      have hboth : Stream t₁ ∧ FinKept t₁ :=
        steps.preserves (P := fun t => Stream t ∧ FinKept t)
          (fun _ _ hs hk => ⟨hs.stream hk.1, hs.finKept hk.1 hk.2⟩) ⟨hst.appCall x, happ⟩
      exact ih hboth.1 hboth.2

end Trace

namespace Connection

/-- A packet that acknowledges up to `nxt`. -/
def AcksUpTo (pkt : Bytes) (nxt : U32) : Prop := ∃ s, decode pkt = some s ∧ s.th.ack = nxt

/-- The answer acknowledges all that was received, or LAST_ACK keeps a FIN in the
queue that does. -/
def Reacknowledges (c : Connection F) (r : Connection F × Option Bytes) : Prop :=
  (∃ pkt, r.2 = some pkt ∧ AcksUpTo pkt r.1.recv.nxt) ∨
    (c.state = .lastAck ∧ ∃ q ∈ r.1.retx.segments, ∃ s, decode q.packet = some s ∧
      hasFlag s.th.flags FIN = true ∧ s.th.ack = r.1.recv.nxt)

/-- CLOSE_WAIT answers unless the acknowledgement resends an older segment or the
FIN looks ahead of RCV.NXT; LAST_ACK unless our FIN is acknowledged as well. -/
def Answers (c : Connection F) (seg : Segment) : Prop :=
  (c.state = .closeWait ∧ (∀ s, c.hole seg = some s → AcksUpTo s.packet c.recv.nxt) ∧
    (c.hole seg = none → seg.payload ≠ [] ∨ after (finSeq seg.th seg.payload) c.recv.nxt = false)) ∨
  (c.state = .lastAck ∧ c.ackedOurFin seg.th = false)

theorem bareAck_acks (c : Connection F) : AcksUpTo c.bareAck c.recv.nxt := by
  obtain ⟨s, hc⟩ := c.segment_carries c.send.nxt c.recv.nxt ACK []
  exact ⟨s, hc.decode, hc.ack⟩

theorem receive_fin_closeWait {c : Connection F} (hs : c.state = .closeWait) {seg : Segment}
    (hfin : hasFlag seg.th.flags FIN = true) :
    (∃ pkt, (c.receive seg.th seg.payload).2 = some pkt ∧ AcksUpTo pkt (c.receive seg.th seg.payload).1.recv.nxt) ↔
      seg.payload ≠ [] ∨ after (finSeq seg.th seg.payload) c.recv.nxt = false := by
  have hd : (c.deliver seg.th.seq seg.payload).state = .closeWait := by rw [deliver_state, hs]
  have hnil : seg.payload = [] → c.deliver seg.th.seq seg.payload = c := fun h => by simp [deliver, h]
  unfold receive
  generalize c.deliver seg.th.seq seg.payload = d at hd hnil
  simp only [hfin, hd, true_and, reduceCtorEq, false_and, if_false]
  by_cases hahead : after (finSeq seg.th seg.payload) d.recv.nxt = false
  · rw [if_pos (by rw [hahead]; rfl)]
    refine ⟨fun _ => ?_, fun _ => ⟨_, rfl, bareAck_acks d⟩⟩
    by_cases hp : seg.payload = []
    · rw [hnil hp] at hahead
      exact .inr hahead
    · exact .inl hp
  · rw [if_neg (by simpa using hahead)]
    by_cases hp : seg.payload = []
    · rw [hnil hp] at hahead
      rw [hp] at hahead
      simp [hp, hahead]
    · obtain ⟨s, blocks, hc, -⟩ := d.ackOptions_carries d.send.nxt d.recv.nxt ACK
      rw [if_pos (by simp [hp])]
      exact ⟨fun _ => .inl hp, fun _ => ⟨_, rfl, s, hc.decode, hc.ack⟩⟩

theorem closeWait_reacknowledges_iff {c : Connection F} (hs : c.state = .closeWait) {seg : Segment}
    (hfin : hasFlag seg.th.flags FIN = true) (hrst : hasFlag seg.th.flags RST = false)
    (hsyn : hasFlag seg.th.flags SYN = false) (hcur : ¬ OldTimestamp c seg) (hok : Accepts c seg) (now : U64)
    (rnd : U32) : Reacknowledges c (c.onSegment seg now rnd) ↔ Answers c seg := by
  have hcw : Answers c seg ↔ (∀ s, c.hole seg = some s → AcksUpTo s.packet c.recv.nxt) ∧
      (c.hole seg = none → seg.payload ≠ [] ∨ after (finSeq seg.th seg.payload) c.recv.nxt = false) := by
    simp [Answers, hs]
  have hre : ∀ r, Reacknowledges c r ↔ ∃ pkt, r.2 = some pkt ∧ AcksUpTo pkt r.1.recv.nxt := by
    simp [Reacknowledges, hs]
  rw [hcw, hre]
  have hhole : (c.arrive now).hole seg = c.hole seg := rfl
  have hhandled := onSegment_handled (.inr hs) hrst hsyn now rnd
  generalize c.onSegment seg now rnd = r at hhandled
  cases hhandled with
  | stale old => exact absurd old hcur
  | refused _ bad _ => exact absurd hok bad
  | @diverted d s _ _ diverts same =>
      rw [← hhole, diverts]
      have hrecv : d.recv = c.recv := (inbox_buffer same).2.1
      simp [hrecv]
  | @received d _ _ through same =>
      obtain ⟨hst, hrecv, -⟩ := inbox_buffer same
      rw [receive_fin_closeWait (hst.trans hs) hfin, hrecv, ← hhole, through]
      simp only [reduceCtorEq, false_imp_iff, implies_true, true_imp_iff, true_and]
      rfl

theorem dropAcked_no_fin {c : Connection F} (hlast : ∀ q ∈ c.retx.segments, ∀ s, decode q.packet = some s →
    hasFlag s.th.flags FIN = true → q.endSeq = c.send.nxt) (now : U64) :
    ∀ q ∈ (c.dropAcked c.send.nxt now).retx.segments, ∀ s, decode q.packet = some s →
      hasFlag s.th.flags FIN = false := by
  intro q hq s hd
  obtain ⟨hmem, hkeep⟩ := List.mem_filter.mp hq
  rw [Bool.eq_false_iff]
  intro hfin
  rw [hlast q hmem s hd hfin, before_self] at hkeep
  cases hkeep

theorem lastAck_reacknowledges_iff {c : Connection F} (hs : c.state = .lastAck) {seg : Segment}
    (hrst : hasFlag seg.th.flags RST = false) (hsyn : hasFlag seg.th.flags SYN = false)
    (hlast : ∀ q ∈ c.retx.segments, ∀ s, decode q.packet = some s → hasFlag s.th.flags FIN = true →
      q.endSeq = c.send.nxt)
    (hheld : ∃ q ∈ c.retx.segments, ∃ s, decode q.packet = some s ∧ hasFlag s.th.flags FIN = true ∧
      s.th.ack = c.recv.nxt) (now : U64) (rnd : U32) :
    Reacknowledges c (c.onSegment seg now rnd) ↔ Answers c seg := by
  have hans : Answers c seg ↔ c.ackedOurFin seg.th = false := by simp [Answers, hs]
  have hla : (c.arrive now).onState seg.th seg.payload seg.opts now rnd = (c.arrive now).onLastAck seg.th now := by
    have hst : (c.arrive now).state = .lastAck := hs
    rw [onState, hst]
  rw [hans, onSegment_byState (by simp [isSynchronized, hs]) hrst hsyn, hla, onLastAck]
  have hsame : (c.arrive now).ackedOurFin seg.th = c.ackedOurFin seg.th := rfl
  rw [hsame]
  cases hacked : c.ackedOurFin seg.th with
  | false =>
      simp only [Bool.false_eq_true, if_false, iff_true]
      exact .inr ⟨hs, hheld⟩
  | true =>
      simp only [if_true, Bool.true_eq_false, iff_false]
      have hack : seg.th.ack = c.send.nxt := by simp [ackedOurFin] at hacked; exact hacked.2
      rintro (⟨pkt, hpkt, -⟩ | ⟨-, q, hq, s, hd, hfin, -⟩)
      · cases hpkt
      · rw [hack] at hq
        have hno := dropAcked_no_fin (c := c.arrive now) hlast now q hq s hd
        rw [hno] at hfin
        cases hfin

theorem closing_never_reacknowledges {c : Connection F}
    (hs : c.state = .closing ∨ c.state = .timeWait) {seg : Segment} (hrst : hasFlag seg.th.flags RST = false)
    (hsyn : hasFlag seg.th.flags SYN = false) (now : U64) (rnd : U32) :
    Reacknowledges c (c.onSegment seg now rnd) ↔ Answers c seg := by
  have hsync : c.isSynchronized = true := by rcases hs with hs | hs <;> simp [isSynchronized, hs]
  have hno : ¬ Answers c seg := by rcases hs with hs | hs <;> simp [Answers, hs]
  have hnone : (c.onSegment seg now rnd).2 = none := by
    have hst : (c.arrive now).state = c.state := rfl
    rw [onSegment_byState hsync hrst hsyn, onState, hst]
    rcases hs with hs | hs
    · simp only [hs, onClosing]
      split <;> rfl
    · simp only [hs]
  have hla : c.state ≠ .lastAck := by rcases hs with hs | hs <;> simp [hs]
  refine ⟨?_, fun h => absurd h hno⟩
  rintro (⟨pkt, hpkt, -⟩ | ⟨hst, -⟩)
  · rw [hnone] at hpkt
    cases hpkt
  · exact absurd hst hla

end Connection

namespace Host
open Connection

theorem Fresh.preFin {h : Host F} (hf : Fresh h) : h.conn.state.PreFin := by
  cases hf with
  | connect => exact .inl rfl
  | accept ipSrc ipDst seg iss now rnd heq =>
      obtain ⟨⟨c, synack⟩, hr, rfl⟩ := Option.map_eq_some_iff.mp heq
      obtain ⟨rfl, -⟩ := acceptWithIssAt_eq hr
      exact .inr (.inl rfl)
  | cookie => exact .inr (.inr (.inl rfl))

theorem Fresh.finKept {h : Host F} (hf : Fresh h) : Trace.FinKept h.start := by
  have hpre : h.start.state.PreFin := hf.preFin
  refine ⟨fun q hq s hd hfin => ?_, fun hla => ?_⟩
  · rw [hf.stream.no_fin hpre hq hd] at hfin
    cases hfin
  · rw [hla] at hpre
    simp [State.PreFin] at hpre

/-- A repeated FIN, with a current timestamp and an acceptable acknowledgement,
is acknowledged again exactly in CLOSE_WAIT and LAST_ACK, where each has its
exception. -/
theorem repeated_fin_reacknowledged_iff {h : Host F} (hf : Fresh h) (calls : List Call)
    (hs : (h.run calls).conn.state ∈ State.afterPeerFin) (seg : Segment) (now : U64) (rnd : U32)
    (hfin : hasFlag seg.th.flags FIN = true) (hrst : hasFlag seg.th.flags RST = false)
    (hsyn : hasFlag seg.th.flags SYN = false) (hcur : ¬ OldTimestamp (h.run calls).conn seg)
    (hok : Accepts (h.run calls).conn seg) :
    let c := (h.run calls).conn
    Reacknowledges c (c.onSegment seg now rnd) ↔ Answers c seg := by
  intro c
  obtain ⟨t, hr, hfol⟩ := run_refines hf.follows calls
  have hkept := hr.finKept hf.stream hf.finKept
  have hqueue : t.queue = c.retx.segments.map Unacked.queued := hfol.queue
  have hnxt : t.nxt = c.send.nxt := hfol.nxt
  have hrcv : t.rcvNxt = c.recv.nxt := hfol.rcvNxt
  have hstate : t.state = c.state := hfol.state
  simp only [State.afterPeerFin, List.mem_cons, List.not_mem_nil, or_false] at hs
  rcases hs with hcw | hla | hclosing
  · exact closeWait_reacknowledges_iff hcw hfin hrst hsyn hcur hok now rnd
  · refine lastAck_reacknowledges_iff hla hrst hsyn (fun q hq s hd hf' => ?_) ?_ now rnd
    · rw [← hnxt]
      exact hkept.last q.queued (hqueue ▸ List.mem_map_of_mem hq) s hd hf'
    · obtain ⟨q, hq, s, hd, hf', hack⟩ := hkept.held (hstate.trans hla)
      rw [hqueue] at hq
      obtain ⟨u, hu, rfl⟩ := List.mem_map.mp hq
      exact ⟨u, hu, s, hd, hf', hack.trans hrcv⟩
  · exact closing_never_reacknowledges hclosing hrst hsyn now rnd

/-- The FIN comes again in CLOSE_WAIT, and again after our own close. -/
theorem repeated_fin_reacknowledged_after_passive_open :
    let fin := samplePeer (FIN ||| ACK) 501#32 101#32 []
    let c := (sample.run [.onSegment fin 1#64 0#32]).conn
    let c' := (sample.run [.onSegment fin 1#64 0#32, .close 2#64]).conn
    Reacknowledges c (c.onSegment fin 3#64 0#32) ∧ Reacknowledges c' (c'.onSegment fin 3#64 0#32) := by
  intro fin c c'
  refine ⟨(repeated_fin_reacknowledged_iff sample_fresh [.onSegment fin 1#64 0#32] (by decide +kernel) fin 3#64 0#32
      (by decide) (by decide) (by decide) (fun h => absurd h.1 (by decide +kernel))
      fun _ => by decide +kernel).mpr (.inl ⟨by decide +kernel, ?_, fun _ => .inr (by decide +kernel)⟩),
    (repeated_fin_reacknowledged_iff sample_fresh [.onSegment fin 1#64 0#32, .close 2#64] (by decide +kernel) fin
      3#64 0#32 (by decide) (by decide) (by decide) (fun h => absurd h.1 (by decide +kernel))
      fun _ => by decide +kernel).mpr (.inr ⟨by decide +kernel, by decide +kernel⟩)⟩
  intro s hs
  have hnone : c.hole fin = none := by decide +kernel
  cases hnone.symm.trans hs

/-- The FIN that led to TIME_WAIT comes again, and nothing is sent. -/
theorem repeated_fin_unanswered_in_timeWait :
    let fin := samplePeer (FIN ||| ACK) 501#32 102#32 []
    let c := (sample.run [.close 1#64, .onSegment fin 2#64 0#32]).conn
    Fresh sample ∧ c.state = .timeWait ∧ c.peerFin = true ∧ ¬ OldTimestamp c fin ∧ Accepts c fin ∧
      (c.onSegment fin 3#64 0#32).2 = none ∧ ¬ Reacknowledges c (c.onSegment fin 3#64 0#32) := by
  intro fin c
  have hnone : (c.onSegment fin 3#64 0#32).2 = none := by decide +kernel
  have htw : c.state = .timeWait := by decide +kernel
  refine ⟨sample_fresh, htw, by decide +kernel, fun h => absurd h.1 (by decide +kernel), fun _ => by decide +kernel,
    hnone, ?_⟩
  rintro (⟨pkt, hpkt, -⟩ | ⟨hla, -⟩)
  · cases hnone.symm.trans hpkt
  · cases htw.symm.trans hla

end Host
end TcpStack
