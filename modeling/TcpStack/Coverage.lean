import TcpStack.Chain

/-!
# Coverage of the flight by the queue

The chain of the sequence-number machine read back on the connection, in the
modular order of the code, for every run in which FlightSize stays below half
the sequence space.
-/
namespace TcpStack
open Tcp TcpStack.Seq TcpStack.Circle

variable {F : Type} [F64 F]

/-- The segments reach from `a` to `b`, each beginning where the last ended. -/
def Linked : U32 → List Unacked → U32 → Prop
  | a, [], b => a = b
  | a, s :: rest, b => s.startSeq = a ∧ before s.startSeq s.endSeq = true ∧ Linked s.endSeq rest b

/-- The queue holds exactly what is in flight. -/
structure Coverage (c : Connection F) : Prop where
  chain : c.state.Live → ∀ s rest, c.retx.segments = s :: rest →
    Linked s.startSeq (s :: rest) c.send.nxt ∧
      before c.send.una s.startSeq = false ∧ before c.send.una s.endSeq = true
  empty : c.state.Live → (c.retx.segments = [] ↔ c.send.una = c.send.nxt)
  done : c.state = .finWait2 ∨ c.state = .timeWait → c.retx.segments = []

theorem Spans.before {iss : U32} {q : Queued} {a m : Nat} (h : Spans iss q a m) :
    before q.startSeq q.endSeq = true := by
  have hpos := h.pos
  have hshort := h.short
  rw [h.startSeq, h.endSeq, before_point (by omega) (by omega), decide_eq_true_eq]
  exact hpos

theorem Chain.linked {iss : U32} {a b : Nat} {segs : List Unacked}
    (h : Chain iss a (segs.map Unacked.queued) b) : Linked (point iss a) segs (point iss b) := by
  induction segs generalizing a with
  | nil => exact congrArg (point iss) h
  | cons s rest ih =>
      obtain ⟨m, hs, hrest⟩ := h
      refine ⟨hs.startSeq, hs.before, ?_⟩
      rw [show s.endSeq = point iss m from hs.endSeq]
      exact ih hrest

theorem Trace.Outstanding.coverage {h : Host F} {t : Trace} (hf : Host.Follows h t) (hs : Stream t)
    (ho : Outstanding t) (hnear : t.nxtPos - t.unaPos < 2 ^ 31) : Coverage h.conn := by
  obtain ⟨core, hist⟩ := t
  obtain rfl : core = h.conn.core := hf.core
  have huna : h.conn.send.una = point h.conn.send.iss hist.unaPos := ho.una
  have hnxt := hs.nxt
  generalize hv : (Trace.mk h.conn.core hist).nxtPos = v at *
  have hcov : h.conn.state.Live →
      Covers h.conn.send.iss hist.unaPos (h.conn.retx.segments.map Unacked.queued) v := hv ▸ ho.live
  have hle : hist.unaPos ≤ v := hv ▸ ho.le
  change h.conn.send.nxt = point h.conn.send.iss v at hnxt
  change v - hist.unaPos < 2 ^ 31 at hnear
  constructor
  · intro hl s rest hseg
    have hc := hcov hl
    rw [hseg] at hc
    obtain ⟨a, m, hspan, ham, hum, hrest⟩ := hc
    have hshort := hspan.short
    have hmv := hrest.le
    rw [huna, hnxt, show s.startSeq = point h.conn.send.iss a from hspan.startSeq,
      show s.endSeq = point h.conn.send.iss m from hspan.endSeq]
    refine ⟨⟨hspan.startSeq, hspan.before, ?_⟩, ?_, ?_⟩
    · rw [show s.endSeq = point h.conn.send.iss m from hspan.endSeq]
      exact hrest.linked
    · rw [before_point (by omega) (by omega), decide_eq_false_iff_not]
      omega
    · rw [before_point (by omega) (by omega), decide_eq_true_eq]
      exact hum
  · intro hl
    have hc := hcov hl
    constructor
    · intro hnil
      rw [hnil] at hc
      rw [huna, hnxt, show hist.unaPos = v from hc]
    · intro heq
      rw [huna, hnxt] at heq
      have huv := point_inj_near hle (by omega) heq
      cases hseg : h.conn.retx.segments with
      | nil => rfl
      | cons s rest =>
          rw [hseg] at hc
          obtain ⟨a, m, -, -, hum, hrest⟩ := hc
          have hmv := hrest.le
          omega
  · intro hst
    have hnil := ho.done hst
    exact List.map_eq_nil_iff.mp hnil

namespace Host

theorem Fresh.outstanding {h : Host F} (hf : Fresh h) : Trace.Outstanding h.start := by
  have hsyn : ∀ {h : Host F} (pkt : Bytes) (now : U64), h.conn.send.una = h.conn.send.iss →
      h.conn.send.nxt = h.conn.send.iss + 1#32 →
      h.conn.retx = RetxQueue.record {} h.conn.send.iss (h.conn.send.iss + 1#32) pkt now →
      h.conn.state.Live → ¬ h.conn.state.Sending → Trace.Outstanding h.start := by
    intro h pkt now huna hnxt hretx hlive hns
    have hpos : h.start.unaPos = 0 := by
      simp only [start, huna, BitVec.sub_self, BitVec.toNat_zero]
    have hq : h.start.queue = [⟨h.conn.send.iss, h.conn.send.iss + 1#32, pkt, false⟩] := by
      simp only [start, Connection.core, hretx, RetxQueue.record]
      rfl
    have hone : h.start.nxtPos = 1 := rfl
    refine ⟨?_, ?_, ?_, ?_, .inr rfl, fun hs => absurd hs hns⟩
    · rw [hpos, point_zero]
      exact huna
    · omega
    · intro _
      rw [hpos, hone, hq]
      exact ⟨0, 1, ⟨by omega, by omega, (point_zero _).symm, rfl⟩, le_rfl, Nat.one_pos, rfl⟩
    · rintro (hst | hst) <;> rw [show h.conn.state = _ from hst] at hlive <;> simp [State.Live] at hlive
  cases hf with
  | connect localEnd remoteEnd iss now rnd =>
      exact hsyn _ now rfl rfl rfl (by simp [State.Live, Host.connect, Connection.connectWithIss,
        Connection.synSentBlock]) (by simp [State.Sending, Host.connect, Connection.connectWithIss,
        Connection.synSentBlock])
  | accept ipSrc ipDst seg iss now rnd heq =>
      obtain ⟨⟨c, synack⟩, hr, rfl⟩ := Option.map_eq_some_iff.mp heq
      obtain ⟨rfl, -⟩ := Connection.acceptWithIssAt_eq hr
      exact hsyn _ now rfl rfl rfl (by simp [State.Live, Connection.synRcvdBlock])
        (by simp [State.Sending, Connection.synRcvdBlock])
  | cookie localEnd remoteEnd peerIsn isn sendMss now rnd =>
      have hpos : (isn + 1#32 - isn).toNat = 1 := by
        rw [BitVec.add_comm, BitVec.add_sub_cancel]
        rfl
      refine ⟨?_, ?_, ?_, ?_, .inr rfl, ?_⟩
      · change isn + 1#32 = point isn (isn + 1#32 - isn).toNat
        rw [hpos]
        rfl
      · exact Nat.le_of_eq hpos
      · intro _
        exact hpos
      · exact fun _ => rfl
      · exact fun _ => Nat.le_of_eq hpos.symm

/-- The sequence numbers a call puts on the wire. -/
def consumes (h : Host F) : Call → Nat
  | .pollTransmit now => h.conn.sendBuf.length - (h.conn.pollTransmit now).1.sendBuf.length
  | .onTick now => h.conn.sendBuf.length - (h.conn.onTick now).1.sendBuf.length
  | .close now => (h.conn.close now).2.isSome.toNat
  | _ => 0

/-- FlightSize stays below half the sequence space throughout the run, also at
its highest within a call, after all that the call sends. -/
def FlightBelow (h : Host F) (calls : List Call) : Prop :=
  ∀ pre x post, calls = pre ++ x :: post →
    (h.run pre).conn.flightSize.toNat + (h.run pre).consumes x < 2 ^ 31

theorem flightBelow_cons {h : Host F} {x : Call} {calls : List Call} :
    FlightBelow h (x :: calls) ↔
      h.conn.flightSize.toNat + h.consumes x < 2 ^ 31 ∧ FlightBelow (h.call x) calls := by
  constructor
  · intro hb
    refine ⟨hb [] x calls rfl, fun pre y post heq => hb (x :: pre) y post ?_⟩
    rw [heq]
    rfl
  · rintro ⟨hhead, htail⟩ pre y post heq
    cases pre with
    | nil =>
        obtain ⟨rfl, -⟩ := List.cons.inj heq
        exact hhead
    | cons z pre =>
        obtain ⟨rfl, hrest⟩ := List.cons.inj heq
        exact htail pre y post hrest

instance decidableFlightBelow : (h : Host F) → (calls : List Call) → Decidable (FlightBelow h calls)
  | _, [] => .isTrue fun pre x post heq => by simp at heq
  | h, x :: calls =>
      have := decidableFlightBelow (h.call x) calls
      decidable_of_iff _ flightBelow_cons.symm

end Host

theorem Trace.Step.sendBuf {seg : Segment} {t t' : Trace} (h : Step (some seg) t t') :
    t'.sendBuf = t.sendBuf := by
  cases h with
  | data idle => cases idle
  | fin idle => cases idle
  | _ => rfl

theorem Trace.Steps.sendBuf {seg : Segment} {t t' : Trace} (h : Steps (some seg) t t') :
    t'.sendBuf = t.sendBuf :=
  h.relates (R := fun a b => b.sendBuf = a.sendBuf) (fun _ => rfl) (fun _ _ _ h₁ h₂ => h₂.trans h₁)
    fun _ _ => Step.sendBuf

theorem Trace.Stream.lengths {t : Trace} (h : Stream t) :
    t.written.length = t.sent.length + t.sendBuf.length := by
  rw [h.written, List.length_append]

namespace Host
open Trace

theorem nxtPos_call {h : Host F} {t t' : Trace} {x : Call} (hf : Follows h t)
    (hf' : Follows (h.call x) t') (hs : Stream t) (hs' : Stream t')
    (hsteps : Steps (input x) (t.appCall x) t') : t'.nxtPos ≤ t.nxtPos + h.consumes x := by
  have hl := hs.lengths
  have hl' := hs'.lengths
  have hbuf : t.sendBuf = h.conn.sendBuf := hf.sendBuf
  have hbuf' : t'.sendBuf = (h.call x).conn.sendBuf := hf'.sendBuf
  have hw' := hf'.written
  have hc' := hf'.closing
  rw [hf.written, hbuf] at hl
  rw [hw', hbuf'] at hl'
  unfold nxtPos
  rw [hc', hf.closing]
  cases x with
  | write data =>
      simp only [call, Connection.write, List.length_append, consumes] at hl' ⊢
      omega
  | takeReceived | setNodelay | setKeepalive | useBbr =>
      simp only [call, Connection.takeReceived, Connection.setNodelay, Connection.setKeepalive,
        Connection.useBbr, consumes] at hl' ⊢
      omega
  | pollTransmit now =>
      simp only [call, consumes] at hl' ⊢
      omega
  | onTick now =>
      simp only [call, consumes] at hl' ⊢
      omega
  | onSegment seg now rnd =>
      have hsame : t'.sendBuf = t.sendBuf := Steps.sendBuf hsteps
      rw [← hbuf', hsame, hbuf] at hl'
      simp only [call, consumes] at hl' ⊢
      omega
  | close now =>
      simp only [call, consumes] at hl' ⊢
      have hfin : ∀ next, (h.conn.sendFin next now).1.sendBuf = h.conn.sendBuf := fun _ => rfl
      unfold Connection.close at *
      cases hst : h.conn.state <;> simp only [hst, Connection.sendFin, Connection.launch] at hl' ⊢ <;>
        cases h.closing <;> simp at hl' ⊢ <;> omega

theorem flightSize_eq {h : Host F} {t : Trace} (hf : Follows h t) (hs : Stream t)
    (ho : Outstanding t) (hnear : t.nxtPos - t.unaPos < 2 ^ 32) :
    h.conn.flightSize.toNat = t.nxtPos - t.unaPos := by
  have huna : t.una = h.conn.send.una := hf.una
  have hnxt : t.nxt = h.conn.send.nxt := hf.nxt
  rw [Connection.flightSize, ← huna, ← hnxt, hs.nxt, ho.una, point_sub_point _ ho.le,
    Nat.mod_eq_of_lt hnear]

/-- One call within the flight bound keeps the machine's invariants, and moves
SND.UNA forward only. -/
theorem call_outstanding {h : Host F} {t : Trace} {x : Call} (hf : Follows h t) (hs : Stream t)
    (ho : Outstanding t) (hnear : t.nxtPos - t.unaPos < 2 ^ 31)
    (hb : h.conn.flightSize.toNat + h.consumes x < 2 ^ 31) :
    ∃ t', Steps (input x) (t.appCall x) t' ∧ Follows (h.call x) t' ∧ Stream t' ∧ Outstanding t' ∧
      t'.nxtPos - t'.unaPos < 2 ^ 31 ∧ before (h.call x).conn.send.una h.conn.send.una = false := by
  obtain ⟨t', hsteps, hf'⟩ := call_refines hf x
  have hs₀ := hs.appCall x
  have hs' := hsteps.stream hs₀
  have hle := ho.le
  rw [flightSize_eq hf hs ho (by omega)] at hb
  have hn := nxtPos_call hf hf' hs hs' hsteps
  have hpos₀ : (t.appCall x).unaPos = t.unaPos := by cases x <;> rfl
  have hiss : t'.iss = t.iss := by
    rw [hsteps.iss]
    cases x <;> rfl
  have hsent : 1 + t'.sent.length ≤ t'.nxtPos := by
    unfold nxtPos
    omega
  have hmono := hsteps.unaPos_le
  have ho' := hsteps.outstanding (by omega) hs₀ (ho.appCall x)
  have hle' := ho'.le
  refine ⟨t', hsteps, hf', hs', ho', by omega, ?_⟩
  have huna : t.una = h.conn.send.una := hf.una
  have huna' : t'.una = (h.call x).conn.send.una := hf'.una
  rw [← huna, ← huna', ho.una, ho'.una, hiss, before_point (by omega) (by omega), decide_eq_false_iff_not]
  omega

theorem call_edges {h : Host F} {t : Trace} {x : Call} (hf : Follows h t) (hs : Stream t)
    (ho : Outstanding t) (hnear : t.nxtPos - t.unaPos < 2 ^ 31)
    (hb : h.conn.flightSize.toNat + h.consumes x < 2 ^ 31) :
    ∃ t', Follows (h.call x) t' ∧ Stream t' ∧ Outstanding t' ∧ t'.iss = t.iss ∧ t.unaPos ≤ t'.unaPos ∧
      t.nxtPos ≤ t'.nxtPos ∧ t'.nxtPos - t.unaPos < 2 ^ 31 := by
  obtain ⟨t', hsteps, hf', hs', ho', -, -⟩ := call_outstanding hf hs ho hnear hb
  have hle := ho.le
  have hpos : (t.appCall x).unaPos = t.unaPos ∧ (t.appCall x).iss = t.iss ∧ (t.appCall x).pieces = t.pieces := by
    cases x <;> exact ⟨rfl, rfl, rfl⟩
  have hsent := sent_length_le (hpos.2.2 ▸ hsteps.pieces)
  have hclosing : t.closing.isSome.toNat ≤ t'.closing.isSome.toNat := by
    rw [hf.closing, hf'.closing]
    cases x with
    | close now =>
        simp only [call]
        split
        · exact Bool.toNat_le _
        · exact le_rfl
    | _ =>
        simp only [call]
        exact le_rfl
  have hn := nxtPos_call hf hf' hs hs' hsteps
  rw [flightSize_eq hf hs ho (by omega)] at hb
  refine ⟨t', hf', hs', ho', hsteps.iss.trans hpos.2.1, hpos.1 ▸ hsteps.unaPos_le, ?_, by omega⟩
  unfold nxtPos
  omega

theorem run_outstanding {h : Host F} {t : Trace} (hf : Follows h t) (hs : Stream t)
    (ho : Outstanding t) (hnear : t.nxtPos - t.unaPos < 2 ^ 31) {calls : List Call}
    (hb : FlightBelow h calls) :
    ∃ t', Follows (h.run calls) t' ∧ Stream t' ∧ Outstanding t' ∧ t'.nxtPos - t'.unaPos < 2 ^ 31 := by
  induction calls generalizing h t with
  | nil => exact ⟨t, hf, hs, ho, hnear⟩
  | cons x calls ih =>
      obtain ⟨hhead, htail⟩ := flightBelow_cons.mp hb
      obtain ⟨t', -, hf', hs', ho', hnear', -⟩ := call_outstanding hf hs ho hnear hhead
      exact ih hf' hs' ho' hnear' htail

theorem Fresh.near {h : Host F} (_ : Fresh h) : h.start.nxtPos - h.start.unaPos < 2 ^ 31 := by
  have hone : h.start.nxtPos = 1 := rfl
  omega

theorem FlightBelow.pre {h : Host F} {pre post : List Call} (hb : FlightBelow h (pre ++ post)) :
    FlightBelow h pre := by
  intro p x q heq
  exact hb p x (q ++ post) (by rw [heq, List.append_assoc, List.cons_append])

/-- The retransmission queue covers the flight in every run against any peer,
and SND.UNA never moves backwards. -/
theorem retx_queue_covers_flight {h : Host F} (hf : Fresh h) (calls : List Call)
    (hb : FlightBelow h calls) :
    Coverage (h.run calls).conn ∧
    ∀ pre x post, calls = pre ++ x :: post →
      before (h.run (pre ++ [x])).conn.send.una (h.run pre).conn.send.una = false := by
  constructor
  · obtain ⟨t, hfol, hs, ho, hnear⟩ := run_outstanding hf.follows hf.stream hf.outstanding hf.near hb
    exact ho.coverage hfol hs hnear
  · intro pre x post heq
    subst heq
    obtain ⟨t, hfol, hs, ho, hnear⟩ :=
      run_outstanding hf.follows hf.stream hf.outstanding hf.near hb.pre
    obtain ⟨-, -, -, -, -, -, hmono⟩ := call_outstanding hfol hs ho hnear (hb pre x post rfl)
    rw [run_append]
    exact hmono

/-- A partial acknowledgement inside the second of two segments. -/
theorem coverage_after_partial_ack :
    let calls : List Call := [.setNodelay true, .write [7#8], .pollTransmit 1#64, .write [8#8, 9#8],
        .pollTransmit 2#64,
      .onSegment ⟨⟨80#16, 4000#16, 501#32, 103#32, 20, ACK, 1024#16⟩, [], {}⟩ 3#64 0#32]
    (sample.run calls).conn.send.una = 103#32 ∧ (sample.run calls).conn.retx.segments.length = 1 ∧
      Coverage (sample.run calls).conn :=
  ⟨by decide +kernel, by decide +kernel, (retx_queue_covers_flight sample_fresh _ (by decide +kernel)).1⟩

end Host
end TcpStack
