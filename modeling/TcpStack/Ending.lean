import TcpStack.Incarnation
import TcpStack.Keepalive
import TcpStack.Reset
import TcpStack.Teardown

/-!
# How a connection ends

A connection is closed by a reset that is honoured, by the acknowledgement of its
FIN, or by the clock. Between the two endpoints no reset is ever sent, so an end
is closed by its own clock, or its peer has consumed all it sent. The event loop
forgets a connection exactly when one of these causes is met, and the times that
the clock compares are those of the last segment, or of the entry into TIME_WAIT.
-/
namespace TcpStack
open Tcp

variable {F : Type} [F64 F]

namespace Connection

def HonoursReset (c : Connection F) (th : TcpHeader) : Prop :=
  hasFlag th.flags RST = true ∧
    if c.state = .synSent then hasFlag th.flags ACK = true ∧ th.ack = c.send.nxt
    else c.state ≠ .timeWait ∧ th.seq = c.recv.nxt

/-- The header acknowledges the FIN of a connection whose peer closed first. -/
def LastAcked (c : Connection F) (th : TcpHeader) : Prop :=
  c.state = .lastAck ∧ hasFlag th.flags RST = false ∧ hasFlag th.flags SYN = false ∧ hasFlag th.flags ACK = true ∧
    th.ack = c.send.nxt

/-- TIME_WAIT has lasted long enough. -/
def Lingered (c : Connection F) (now : U64) : Prop :=
  c.state = .timeWait ∧ c.timeWaitMs.toNat + timeWaitLimitMs.toNat ≤ now.toNat

/-- How long a half-closed connection may stay idle. -/
def halfClosedLimit : State → Option U64
  | .finWait2 => some finWait2TimeoutMs
  | .closeWait => some closeWaitTimeoutMs
  | _ => none

/-- A half-closed connection has been idle for too long. -/
def Abandoned (c : Connection F) (now : U64) : Prop :=
  ∃ limit ∈ halfClosedLimit c.state, c.lastActiveMs.toNat + limit.toNat ≤ now.toNat

def Ends (c : Connection F) : Call → Prop
  | .onSegment seg _ _ => HonoursReset c seg.th ∨ LastAcked c seg.th
  | .onTick now => Lingered c now ∨ Abandoned c now ∨ GivesUp c now
  | _ => False

theorem saturatingSub_ge {a b limit : U64} (hpos : 0 < limit.toNat) :
    saturatingSub a b ≥ limit ↔ b.toNat + limit.toNat ≤ a.toNat := by
  rw [ge_iff_le, BitVec.le_def, saturatingSub_toNat]
  omega

theorem reap_closed_iff (c : Connection F) (now : U64) :
    (c.reap now).state = .closed ↔ c.state = .closed ∨ Lingered c now ∨ Abandoned c now := by
  have hlimits : 0 < timeWaitLimitMs.toNat ∧ 0 < finWait2TimeoutMs.toNat ∧ 0 < closeWaitTimeoutMs.toNat := by decide
  unfold Lingered Abandoned
  rw [← saturatingSub_ge hlimits.1]
  cases hs : c.state with
  | finWait2 =>
      have hidle : saturatingSub now c.lastActiveMs ≥ finWait2TimeoutMs ↔ _ := saturatingSub_ge hlimits.2.1
      by_cases hlate : saturatingSub now c.lastActiveMs ≥ finWait2TimeoutMs <;>
        simp [reap, hs, halfClosedLimit, ← hidle, hlate]
  | closeWait =>
      have hidle : saturatingSub now c.lastActiveMs ≥ closeWaitTimeoutMs ↔ _ := saturatingSub_ge hlimits.2.2
      by_cases hlate : saturatingSub now c.lastActiveMs ≥ closeWaitTimeoutMs <;>
        simp [reap, hs, halfClosedLimit, ← hidle, hlate]
  | timeWait =>
      by_cases hlate : saturatingSub now c.timeWaitMs ≥ timeWaitLimitMs <;> simp [reap, hs, hlate, halfClosedLimit]
  | _ => simp [reap, hs, halfClosedLimit]

theorem beforeKeepalive_state (c : Connection F) (now : U64) :
    (c.beforeKeepalive now).state = (c.reap now).state := by
  have hreap : (({ c with tsVal := now.setWidth 32 } : Connection F).reap now).state = (c.reap now).state := by
    simp only [reap]
    split_ifs <;> rfl
  obtain ⟨q, rtt, cong, deadline, probe, htimers⟩ :=
    timers_eq (({ c with tsVal := now.setWidth 32 } : Connection F).reap now) now
  rw [beforeKeepalive, ← still_state, tickPersist_still, still_state, htimers]
  exact hreap

theorem onTick_closed_iff (c : Connection F) (now : U64) :
    (c.onTick now).1.state = .closed ↔ c.state = .closed ∨ Lingered c now ∨ Abandoned c now ∨ GivesUp c now := by
  have hreap := c.reap_closed_iff now
  rw [← beforeKeepalive_state] at hreap
  rw [(c.onTick_keepalive now).1]
  constructor
  · intro hclosed
    by_cases hbefore : (c.beforeKeepalive now).state = .closed
    · rcases hreap.mp hbefore with h | h | h
      · exact .inl h
      · exact .inr (.inl h)
      · exact .inr (.inr (.inl h))
    · exact .inr (.inr (.inr ⟨hbefore, hclosed⟩))
  · intro hcause
    have hstays : (c.beforeKeepalive now).state = .closed →
        ((c.beforeKeepalive now).tickKeepalive now).1.state = .closed := fun hbefore =>
      (tickKeepalive_kept _ now).state_eq.elim (fun h => h.trans hbefore) id
    rcases hcause with h | h | h | h
    · exact hstays (hreap.mpr (.inl h))
    · exact hstays (hreap.mpr (.inr (.inl h)))
    · exact hstays (hreap.mpr (.inr (.inr h)))
    · exact h.2

theorem onState_closed_iff {c : Connection F} (hs : c.state ≠ .closed) (th : TcpHeader) (payload : Bytes)
    (opts : TcpOptions) (now : U64) (rnd : U32) : (c.onState th payload opts now rnd).1.state = .closed ↔
      c.state = .lastAck ∧ hasFlag th.flags ACK = true ∧ th.ack = c.send.nxt := by
  unfold onState
  cases hst : c.state with
  | established | closeWait =>
      have hturn : ((c.onOpen th payload opts now rnd).1.state) ≠ .closed := by
        rcases onOpen_openTurn c th payload opts now rnd with h | ⟨-, h⟩
        · rw [show (c.onOpen th payload opts now rnd).1.state = c.state from congrArg Prod.fst h]
          exact hs
        · rw [show (c.onOpen th payload opts now rnd).1.state = .closeWait from congrArg Prod.fst h]
          exact State.noConfusion
      simpa using hturn
  | lastAck =>
      have hacked : c.ackedOurFin th = true ↔ hasFlag th.flags ACK = true ∧ th.ack = c.send.nxt := by
        simp [ackedOurFin]
      simp only [onLastAck, ← hacked, true_and]
      split_ifs with hack <;> simp [hack, hst]
  | finWait1 =>
      have hd : ∀ b : Connection F, (b.deliver th.seq payload).state = b.state := fun b =>
        congrArg Prod.fst (b.deliver_phase th.seq payload)
      simp only [onFinWait1]
      split_ifs <;> simp [takeFin, hd, dropAcked, hst]
  | finWait2 =>
      have hd : (c.deliver th.seq payload).state = .finWait2 := (congrArg Prod.fst (c.deliver_phase _ _)).trans hst
      simp only [onFinWait2]
      split_ifs <;> simp [takeFin, hd]
  | closing => by_cases hack : c.ackedOurFin th = true <;> simp [onClosing, hack, hst]
  | synSent | synRcvd | timeWait => simp [hst]
  | closed => exact absurd hst hs

theorem onSegment_closed_iff {c : Connection F} (hs : c.state ≠ .closed) (seg : Segment) (now : U64) (rnd : U32) :
    (c.onSegment seg now rnd).1.state = .closed ↔ HonoursReset c seg.th ∨ LastAcked c seg.th := by
  cases hrst : hasFlag seg.th.flags RST with
  | true =>
      rw [onSegment_rst_closes_iff c hrst now rnd]
      simp [hs, HonoursReset, LastAcked, hrst]
  | false =>
      have hcauses : HonoursReset c seg.th ∨ LastAcked c seg.th ↔
          c.state = .lastAck ∧ hasFlag seg.th.flags SYN = false ∧ hasFlag seg.th.flags ACK = true ∧
            seg.th.ack = c.send.nxt := by
        simp [HonoursReset, LastAcked, hrst]
      rw [hcauses]
      have hsame : (c.arrive now).state = c.state ∧ (c.arrive now).send = c.send := ⟨rfl, rfl⟩
      rw [← hsame.1] at hs
      rw [← hsame.1, ← hsame.2, onSegment]
      generalize c.arrive now = d at hs
      simp only [hrst, Bool.false_eq_true, if_false]
      split_ifs with hsent hblind
      · simp only [onSynSent]
        split_ifs <;> simp [hsent]
      · obtain ⟨hsyn, -⟩ := Bool.and_eq_true_iff.mp hblind
        simp [maybeChallenge_state, hs, hsyn]
      · cases hr : d.onSynRcvd seg.th now with
        | none =>
            have hwait : d.state = .synRcvd := by
              by_contra hno
              simp [onSynRcvd, hno] at hr
            simp [hwait]
        | some e =>
            by_cases hwait : d.state = .synRcvd
            · have hest : e.state = .established := by
                rw [onSynRcvd, if_pos hwait] at hr
                split_ifs at hr
                exact congrArg Connection.state (Option.some.inj hr).symm
              have hopen : e.state ≠ .closed := fun h => State.noConfusion (hest.symm.trans h)
              refine (onState_closed_iff hopen ..).trans ?_
              simp [hest, hwait]
            · obtain rfl : d = e := by simpa [onSynRcvd, hwait] using hr
              refine (onState_closed_iff hs ..).trans (and_congr_right fun hlast => ?_)
              simp_all [isSynchronized]

/-- What the clock compares: when the last segment came, when TIME_WAIT was
entered, and whether keepalive is on. -/
def pulse (c : Connection F) : U64 × U64 × Bool := (c.lastActiveMs, c.timeWaitMs, c.keepaliveEnabled)

theorem close_pulse (c : Connection F) (now : U64) : (c.close now).1.pulse = c.pulse ∧
    ((c.close now).1.state = .closed ↔ c.state = .closed) ∧
    ((c.close now).1.state = .timeWait ↔ c.state = .timeWait) := by
  unfold close
  split
  · rename_i hs
    exact ⟨rfl, by simp [sendFin, hs], by simp [sendFin, hs]⟩
  · rename_i hs
    exact ⟨rfl, by simp [sendFin, hs], by simp [sendFin, hs]⟩
  · exact ⟨rfl, Iff.rfl, Iff.rfl⟩

end Connection

namespace Host
open Connection Trace

theorem call_closed_iff {h : Host F} (hs : h.conn.state ≠ .closed) (x : Call) :
    (h.call x).conn.state = .closed ↔ Ends h.conn x := by
  cases x with
  | onSegment seg now rnd => exact onSegment_closed_iff hs seg now rnd
  | onTick now =>
      have hclosed := onTick_closed_iff h.conn now
      simp only [call]
      rw [hclosed]
      exact or_iff_right hs
  | pollTransmit now =>
      have hsame : (h.conn.pollTransmit now).1.state = h.conn.state := by
        rw [← still_state, pollTransmit_still, still_state]
      exact iff_of_false (fun hclosed => hs (hsame.symm.trans hclosed)) id
  | close now =>
      have hclose : (h.call (.close now)).conn = (h.conn.close now).1 := by
        simp only [Host.call]
        cases hr : h.conn.close now with
        | mk c' fin => cases fin <;> rfl
      rw [hclose, (close_pulse h.conn now).2.1]
      exact iff_of_false hs id
  | write | takeReceived | setNodelay | setKeepalive | useBbr => exact iff_of_false hs id

end Host

namespace System
open Connection Trace Host

/-- The call is local, or brings a segment that `y` has sent. -/
def Reaches (y : Host F) (x : Call) : Prop :=
  x.isLocal = true ∨ ∃ p ∈ y.emitted, ∃ seg now rnd, decode p = some seg ∧ x = .onSegment seg now rnd

theorem Reaches.heard {y : Host F} {t : Trace} {x : Call} (h : Reaches y x) (hf : Follows y t) :
    Heard t (input x) := by
  rcases h with hx | ⟨p, hp, seg, now, rnd, hd, rfl⟩
  · rw [input_local hx]
    exact heard_none t
  · exact heard_of_sent hf hp hd

theorem Change.atA {s s' : System F} (h : Change s s') : s'.a = s.a ∨ ∃ x, s'.a = s.a.call x ∧
    (x.isLocal = true ∨ ∃ b, s.b = some b ∧ Reaches b x) := by
  cases h with
  | idle | localB | heardB | join => exact .inl rfl
  | localA hx => exact .inr ⟨_, rfl, .inl hx⟩
  | heardA hb hp hd => exact .inr ⟨_, rfl, .inr ⟨_, hb, .inr ⟨_, hp, _, _, _, hd, rfl⟩⟩⟩

theorem Change.atB {s s' : System F} (h : Change s s') {b b' : Host F} (hb : s.b = some b) (hb' : s'.b = some b') :
    b' = b ∨ ∃ x, b' = b.call x ∧ Reaches s.a x := by
  cases h with
  | idle | localA | heardA => exact .inl (Option.some.inj (hb'.symm.trans hb))
  | localB hsb hx =>
      obtain rfl := Option.some.inj (hsb.symm.trans hb)
      exact .inr ⟨_, (Option.some.inj hb').symm, .inl hx⟩
  | heardB hsb hp hd =>
      obtain rfl := Option.some.inj (hsb.symm.trans hb)
      exact .inr ⟨_, (Option.some.inj hb').symm, .inr ⟨_, hp, _, _, _, hd, rfl⟩⟩
  | join alone => cases alone.symm.trans hb

/-- How a call closes an end `x` whose peer is `y`: the peer has consumed its FIN
and has delivered all that was sent before, or its own clock closes it. -/
inductive Concluded (x y : Host F) : Call → Prop where
  | acked {seg : Segment} {now : U64} {rnd : U32} (last : LastAcked x.conn seg.th) (peer : y.conn.peerClosed = true)
      (drained : Drained x y) : Concluded x y (.onSegment seg now rnd)
  | timedOut {now : U64} (clock : Lingered x.conn now ∨ Abandoned x.conn now ∨ GivesUp x.conn now) :
      Concluded x y (.onTick now)

theorem concluded_of_closed {x y : Host F} {tx ty : Trace} {c : Call} (hfx : Follows x tx) (hfy : Follows y ty)
    (hx : Own tx) (hy : Own ty) (hp : Parting tx ty) (hd : tx.state = .lastAck → Dir tx ty) (hh : Heard ty (input c))
    (hopen : x.conn.state ≠ .closed) (hclosed : (x.call c).conn.state = .closed) : Concluded x y c := by
  have hends := (call_closed_iff hopen c).mp hclosed
  cases c with
  | onSegment seg now rnd =>
      rcases hends with ⟨hrst, -⟩ | hlast
      · rw [(hy.heard hh rfl).noRst] at hrst
        cases hrst
      · obtain ⟨hs, -, -, hack, hexact⟩ := id hlast
        have hst : tx.state = .lastAck := hfx.state.trans hs
        have hnxt : seg.th.ack = tx.nxt := hexact.trans (congrArg Core.nxt hfx.core).symm
        have hle := (hd hst).heard_nxt hx hh rfl hack hnxt
        have hpf : ty.peerFin = true :=
          Parting.consumedFin hp (hd hst) (by simp [hst, State.PreFin]) (by simp [hst]) hle
        exact .acked hlast ((congrArg Core.peerFin hfy.core).symm.trans hpf) (drained_of_dir hfx hfy hx (hd hst) hpf)
  | onTick now => exact .timedOut hends
  | write | pollTransmit | close | takeReceived | setNodelay | setKeepalive | useBbr => exact hends.elim

theorem synSent_survives {x : Host F} {c : Call} (hs : x.conn.state = .synSent) (hc : c.isLocal = true) :
    (x.call c).conn.state ≠ .closed := by
  rw [Ne, call_closed_iff (by simp [hs])]
  cases c with
  | onTick now =>
      rintro (⟨h, -⟩ | ⟨limit, h, -⟩ | h)
      · cases hs.symm.trans h
      · rw [hs] at h
        cases h
      · cases hs.symm.trans (givesUp_iff.mp h).1.2.1
  | onSegment => cases hc
  | write | pollTransmit | close | takeReceived | setNodelay | setKeepalive | useBbr => exact id

/-- No end is ever reset. Whatever the network does, an event that closes an end
acknowledges its FIN, and then the peer has consumed the FIN and has delivered all
that was sent before it, or it is a tick of the end's own clock. -/
theorem ends_are_never_reset (localEnd remoteEnd : Endpoint) (iss : U32) (now : U64) (rnd : U32) (events : List Event)
    (e : Event) (hb : Bounded ((init (F := F) localEnd remoteEnd iss now rnd).run (events ++ [e]))) :
    let s := (init (F := F) localEnd remoteEnd iss now rnd).run events
    let s' := s.step e
    (s.a.conn.state ≠ .closed → s'.a.conn.state = .closed →
      ∃ b x, s.b = some b ∧ s'.a = s.a.call x ∧ Concluded s.a b x) ∧
    ∀ b b', s.b = some b → s'.b = some b' → b.conn.state ≠ .closed → b'.conn.state = .closed →
      ∃ x, b' = b.call x ∧ Concluded b s.a x := by
  intro s s'
  have hbs : Bounded s' := by
    rw [run_append] at hb
    exact hb
  have ht : Tracked _ PartingJoint s := parting_kept.run (init_tracked ..) events hbs.of_step
  have hc : Change s s' := s.step_change e
  clear_value s s'
  constructor
  · intro hopen hclosed
    rcases hc.atA with hsame | ⟨x, hcall, hx⟩
    · exact absurd (hsame ▸ hclosed) hopen
    rw [hcall] at hclosed
    cases hsb : s.b with
    | none =>
        obtain ⟨ta, hfa, hrest⟩ := ht
        simp only [hsb] at hrest
        have hlocal : x.isLocal = true := by
          refine hx.resolve_right ?_
          rintro ⟨b, hb', -⟩
          cases hb'.symm.trans hsb
        exact absurd hclosed (synSent_survives (hfa.state.symm.trans hrest.2.state) hlocal)
    | some b =>
        obtain ⟨ta, tb, hfa, hfb, hj⟩ := ht.both hsb
        have hreach : Reaches b x := by
          rcases hx with hx | ⟨b', hb', hreach⟩
          · exact .inl hx
          · obtain rfl := Option.some.inj (hsb.symm.trans hb')
            exact hreach
        exact ⟨b, x, rfl, hcall, concluded_of_closed hfa hfb hj.joint.ownA hj.joint.ownB hj.forth
          (fun _ => hj.joint.forth) (hreach.heard hfb) hopen hclosed⟩
  · intro b b' hsb hsb' hopen hclosed
    rcases hc.atB hsb hsb' with rfl | ⟨x, rfl, hreach⟩
    · exact absurd hclosed hopen
    obtain ⟨ta, tb, hfa, hfb, hj⟩ := ht.both hsb
    have hback : tb.state = .lastAck → Dir tb ta := by
      intro hlast
      refine hj.joint.back.resolve_left ?_
      rintro ⟨-, hw⟩
      cases hw.state.symm.trans hlast
    exact ⟨x, rfl, concluded_of_closed hfb hfa hj.joint.ownB hj.joint.ownA hj.back hback (hreach.heard hfa) hopen
      hclosed⟩

/-- The acknowledgement of the passive end's FIN arrives. -/
theorem last_ack_concludes : ∃ b b' x, (demo.run demoTeardown).b = some b ∧ b.conn.state = .lastAck ∧
    ((demo.run demoTeardown).step (.deliverToB 4 10#64 0#32)).b = some b' ∧ b'.conn.state = .closed ∧
    Concluded b (demo.run demoTeardown).a x := by
  obtain ⟨hb, hlast, hclosed⟩ : Bounded (demo.run (demoTeardown ++ [.deliverToB 4 10#64 0#32])) ∧
      (demo.run demoTeardown).b.map (fun b => b.conn.state) = some .lastAck ∧
      ((demo.run demoTeardown).step (.deliverToB 4 10#64 0#32)).b.map (fun b => b.conn.state) = some .closed := by
    decide +kernel
  obtain ⟨b, hsb, hs⟩ := Option.map_eq_some_iff.mp hlast
  obtain ⟨b', hsb', hs'⟩ := Option.map_eq_some_iff.mp hclosed
  have hopen : b.conn.state ≠ .closed := by
    rw [hs]
    decide
  obtain ⟨x, -, hconcluded⟩ :=
    (ends_are_never_reset _ _ _ _ _ demoTeardown (.deliverToB 4 10#64 0#32) hb).2 b b' hsb hsb' hopen hs'
  exact ⟨b, b', x, hsb, hs, hsb', hs', hconcluded⟩

end System

namespace Connection

theorem onSegment_lastActive (c : Connection F) (seg : Segment) (now : U64) (rnd : U32) :
    (c.onSegment seg now rnd).1.lastActiveMs = now ∧
      (c.onSegment seg now rnd).1.keepaliveEnabled = c.keepaliveEnabled := by
  have hagain : c.onSegment seg now rnd = (c.arrive now).onSegment seg now rnd := rfl
  rw [hagain]
  rcases (c.arrive now).onSegment_reacts seg now rnd with hreacts | ⟨-, -, heq⟩
  · refine hreacts.preserves (P := fun d => d.lastActiveMs = now ∧ d.keepaliveEnabled = c.keepaliveEnabled)
      (fun hu hd => ?_) ⟨rfl, rfl⟩
    cases hu with
    | arrive => exact ⟨rfl, hd.2⟩
    | challenge =>
        simp only [maybeChallenge]
        split_ifs <;> exact hd
    | paws h =>
        unfold paws at h
        split at h
        · split_ifs at h <;> cases h <;> exact hd
        · cases h
          exact hd
    | newAck =>
        simp only [onNewAck]
        split_ifs <;> exact hd
    | dupAck =>
        simp only [onDupAck]
        split_ifs <;> exact hd
    | deliver =>
        rw [deliver_eq]
        exact hd
    | _ => exact hd
  · rw [heq]
    unfold onSynSent
    split_ifs <;> exact ⟨rfl, rfl⟩

theorem onSegment_timeWait {c : Connection F} (hs : c.state = .timeWait) (seg : Segment) (now : U64) (rnd : U32) :
    (c.onSegment seg now rnd).1.state = .timeWait ∧ (c.onSegment seg now rnd).1.timeWaitMs = c.timeWaitMs := by
  have hsame : (c.arrive now).state = .timeWait ∧ (c.arrive now).timeWaitMs = c.timeWaitMs := ⟨hs, rfl⟩
  rw [onSegment]
  generalize c.arrive now = d at hsame
  obtain ⟨hd, hms⟩ := hsame
  have hchallenge : (d.maybeChallenge now rnd).1.state = .timeWait ∧
      (d.maybeChallenge now rnd).1.timeWaitMs = c.timeWaitMs := by
    simp only [maybeChallenge]
    split_ifs <;> exact ⟨hd, hms⟩
  simp [onRst, onSynRcvd, onState, hd, hms, hchallenge, apply_ite]

theorem onState_enters {c : Connection F} (hs : c.state ≠ .timeWait) {th : TcpHeader} {payload : Bytes}
    {opts : TcpOptions} {now : U64} {rnd : U32} (h : (c.onState th payload opts now rnd).1.state = .timeWait) :
    (c.onState th payload opts now rnd).1.timeWaitMs = now := by
  have hd : ∀ b : Connection F, (b.deliver th.seq payload).state = b.state := fun b =>
    congrArg Prod.fst (b.deliver_phase th.seq payload)
  cases hst : c.state with
  | established | closeWait =>
      have hopen : c.onState th payload opts now rnd = c.onOpen th payload opts now rnd := by rw [onState, hst]
      rw [hopen] at h
      rcases onOpen_openTurn c th payload opts now rnd with hp | ⟨-, hp⟩
      · exact absurd ((congrArg Prod.fst hp).symm.trans h) hs
      · cases (congrArg Prod.fst hp).symm.trans h
  | lastAck =>
      simp only [onState, hst, onLastAck] at h
      split_ifs at h
      exact absurd h hs
  | finWait1 =>
      simp only [onState, hst, onFinWait1] at h ⊢
      split_ifs at h ⊢ <;> simp_all [takeFin, dropAcked]
  | finWait2 =>
      simp only [onState, hst, onFinWait2] at h ⊢
      split_ifs at h ⊢ <;> simp_all [takeFin]
  | closing =>
      simp only [onState, hst, onClosing] at h ⊢
      split_ifs at h ⊢ <;> simp_all
  | synSent | synRcvd | closed =>
      simp only [onState, hst] at h
      cases h
  | timeWait => exact absurd hst hs

theorem onSegment_enters {c : Connection F} (hs : c.state ≠ .timeWait) {seg : Segment} {now : U64} {rnd : U32}
    (h : (c.onSegment seg now rnd).1.state = .timeWait) : (c.onSegment seg now rnd).1.timeWaitMs = now := by
  have hsame : (c.arrive now).state = c.state := rfl
  rw [← hsame] at hs
  rw [onSegment] at h ⊢
  generalize c.arrive now = d at hs h
  split_ifs at h ⊢ with hrst hsent hblind
  · exfalso
    simp only [onRst] at h
    split_ifs at h
    · exact hs h
    · exact hs ((maybeChallenge_state ..).symm.trans h)
    · exact hs h
  · exfalso
    simp only [onSynSent] at h
    split_ifs at h
    exact hs h
  · exact absurd ((maybeChallenge_state ..).symm.trans h) hs
  · cases hr : d.onSynRcvd seg.th now with
    | none =>
        rw [hr] at h
        exact absurd h hs
    | some e =>
        rw [hr] at h
        refine onState_enters ?_ h
        unfold onSynRcvd at hr
        split_ifs at hr
        · obtain rfl := Option.some.inj hr
          exact State.noConfusion
        · obtain rfl := Option.some.inj hr
          exact hs

end Connection

namespace Main
open Connection Lifetime

theorem converse_pulse (conn : Connection F) (hbuf : Option Bytes) (seg : Segment) (d : Draw) :
    let c := (converse conn hbuf seg d).conn
    let r := (conn.onSegment seg d.now d.rnd).1
    c.pulse = r.pulse ∧ (c.state = .closed ↔ r.state = .closed) ∧ (c.state = .timeWait ↔ r.state = .timeWait) := by
  intro c r
  have hcloseIf : ∀ (p : Prop) [Decidable p] (k : Connection F),
      let k' := (if p then k.close d.now else (k, none)).1
      k'.pulse = k.pulse ∧ (k'.state = .closed ↔ k.state = .closed) ∧
        (k'.state = .timeWait ↔ k.state = .timeWait) := by
    intro p _ k
    split_ifs
    · exact close_pulse k d.now
    · exact ⟨rfl, Iff.rfl, Iff.rfl⟩
  generalize happ : Http.onReceived hbuf r.takeReceived.2 = app
  generalize hout : (app.writes.foldl Connection.write r.takeReceived.1).pollTransmit d.now = out
  have hstill : out.1.still = r.takeReceived.1.still := by
    rw [← hout, pollTransmit_still, foldl_write_eq]
    rfl
  have hpulse : out.1.pulse = r.pulse := (congrArg Connection.pulse hstill :)
  have hstate : out.1.state = r.state := (congrArg Connection.state hstill :)
  generalize hfin : (if app.closing = true then out.1.close d.now else (out.1, none)) = fin
  have hfirst := hcloseIf (app.closing = true) out.1
  rw [hfin] at hfirst
  have hlast := hcloseIf (fin.1.state = .closeWait ∧ fin.1.sendBufferEmpty) fin.1
  have hc : c =
      (if fin.1.state = .closeWait ∧ fin.1.sendBufferEmpty then fin.1.close d.now else (fin.1, none)).1 := by
    simp only [c, converse, happ, hout, hfin, r]
  rw [hc, ← hpulse, ← hstate]
  exact ⟨hlast.1.trans hfirst.1, hlast.2.1.trans hfirst.2.1, hlast.2.2.trans hfirst.2.2⟩

theorem onTick_pulse (c : Connection F) (now : U64) : (c.onTick now).1.pulse = c.pulse := by
  have hpulse : ∀ k : Connection F, k.pulse = k.still.pulse := fun _ => rfl
  rw [hpulse, hpulse c]
  rcases onTick_kept c now with h | h <;> rw [h]
  rfl

theorem OpenedBy.pulse {synSecret : U64} {q : Quad} {x : Input F} {h : Host F} (ho : OpenedBy synSecret q x h) :
    ∃ hdr seg d, x = .segment hdr seg d ∧ quadOf hdr seg.th = q ∧ h.conn.lastActiveMs = d.now ∧
      h.conn.keepaliveEnabled = false ∧ h.conn.state ≠ .timeWait := by
  cases ho with
  | syn hquad _ haccept =>
      obtain ⟨⟨c, synack⟩, hr, rfl⟩ := Option.map_eq_some_iff.mp haccept
      obtain ⟨rfl, -⟩ := acceptWithIssAt_eq hr
      exact ⟨_, _, _, rfl, hquad, rfl, rfl, State.noConfusion⟩
  | cookie hquad => exact ⟨_, _, _, rfl, hquad, rfl, rfl, State.noConfusion⟩

def waitStart (conn : Connection F) : Option U64 := if conn.state = .timeWait then some conn.timeWaitMs else none

theorem waitStart_iff {conn : Connection F} {t : U64} :
    waitStart conn = some t ↔ conn.state = .timeWait ∧ conn.timeWaitMs = t := by
  simp [waitStart]

def Input.time : Input F → U64
  | .timers _ now => now
  | .segment _ _ d => d.now

namespace EventLoop

/-- When the connection of a 4-tuple heard its last segment. -/
def activeAt (q : Quad) (m : EventLoop F) : Option U64 := (line q m).conn.map lastActiveMs

/-- A segment for the 4-tuple comes in, at this time. -/
def hears (q : Quad) (_ : EventLoop F) (x : Input F) : Option U64 := (arrivalAt q x).map fun _ => x.time

/-- Since when the connection of a 4-tuple is in TIME_WAIT. -/
def waitsSince (q : Quad) (m : EventLoop F) : Option U64 := (line q m).conn.bind waitStart

/-- The connection goes to TIME_WAIT, at this time. -/
def enters (q : Quad) (m : EventLoop F) (x : Input F) : Option U64 :=
  if waitsSince q m = none ∧ (waitsSince q (m.step x)).isSome = true then some x.time else none

def Quiet (q : Quad) (m : EventLoop F) : Prop := ∀ conn ∈ (line q m).conn, conn.keepaliveEnabled = false

theorem step_quiet {q : Quad} (m : EventLoop F) (x : Input F) (hm : Quiet q m) : Quiet q (m.step x) := by
  have hstep := line_step q m x
  unfold Quiet at hm ⊢
  generalize line q m = l at hstep hm
  generalize line q (m.step x) = l' at hstep ⊢
  generalize sendsFor q m x = sent at hstep
  cases hstep with
  | other | refused => exact hm
  | @tick order now conn hbuf =>
      have hpulse := onTick_pulse conn now
      generalize (conn.onTick now).1 = conn' at hpulse ⊢
      intro c hc
      split_ifs at hc
      · cases hc
      · obtain rfl := Option.some.inj hc
        exact (congrArg (fun p => p.2.2) hpulse).trans (hm conn rfl)
  | @talk hdr seg d conn hbuf =>
      have hkept := (onSegment_lastActive conn seg d.now d.rnd).2.trans (hm conn rfl)
      obtain ⟨hpulse, -⟩ := converse_pulse conn hbuf seg d
      generalize (conn.onSegment seg d.now d.rnd).1 = r at hkept hpulse
      generalize converse conn hbuf seg d = conversed at hpulse ⊢
      intro c hc
      split_ifs at hc
      · cases hc
      · obtain rfl := Option.some.inj hc
        exact (congrArg (fun p => p.2.2) hpulse).trans hkept
  | opened made =>
      obtain ⟨-, -, -, -, -, -, hquiet, -⟩ := made.pulse
      intro c hc
      obtain rfl := Option.some.inj hc
      exact hquiet

theorem hears_last (q : Quad) (m : EventLoop F) (x : Input F) (t : U64) (ht : activeAt q (m.step x) = some t) :
    hears q m x = some t ∨ hears q m x = none ∧ activeAt q m = some t := by
  have hstep := line_step q m x
  unfold activeAt hears at *
  generalize line q m = l at hstep
  generalize line q (m.step x) = l' at hstep ht
  generalize sendsFor q m x = sent at hstep
  cases hstep with
  | other elsewhere =>
      rw [elsewhere]
      exact .inr ⟨rfl, ht⟩
  | refused => cases ht
  | @tick order now conn hbuf =>
      have hpulse := onTick_pulse conn now
      generalize (conn.onTick now).1 = conn' at hpulse ht
      have hactive : conn'.lastActiveMs = conn.lastActiveMs := congrArg Prod.fst hpulse
      split_ifs at ht
      · cases ht
      · exact .inr ⟨rfl, (congrArg some hactive).symm.trans ht⟩
  | @talk hdr seg d conn hbuf quad =>
      have hnow := (onSegment_lastActive conn seg d.now d.rnd).1
      obtain ⟨hpulse, -⟩ := converse_pulse conn hbuf seg d
      generalize (conn.onSegment seg d.now d.rnd).1 = r at hnow hpulse
      generalize converse conn hbuf seg d = conversed at hpulse ht
      split_ifs at ht
      · cases ht
      · rw [arrivalAt, if_pos quad]
        exact .inl ((congrArg some ((congrArg Prod.fst hpulse).trans hnow)).symm.trans ht)
  | @opened _ h hbuf made =>
      obtain ⟨hdr, seg, d, rfl, hquad, hactive, -⟩ := made.pulse
      have hsame : (h.call .useBbr).conn.lastActiveMs = d.now := hactive
      rw [arrivalAt, if_pos hquad]
      exact .inl ((congrArg some hsame).symm.trans ht)

theorem waits_step {q : Quad} {m : EventLoop F} {x : Input F} {t : U64} (ht : waitsSince q (m.step x) = some t) :
    waitsSince q m = some t ∨ waitsSince q m = none ∧ x.time = t := by
  have hstep := line_step q m x
  unfold waitsSince at *
  generalize line q m = l at hstep
  generalize line q (m.step x) = l' at hstep ht
  generalize sendsFor q m x = sent at hstep
  cases hstep with
  | other => exact .inl ht
  | refused => cases ht
  | @tick order now conn hbuf =>
      have hopen := @onTick_open F _ conn now
      have hpulse := onTick_pulse conn now
      generalize (conn.onTick now).1 = conn' at hopen hpulse ht
      split_ifs at ht with hclosed
      · cases ht
      · obtain ⟨hs, hms⟩ := waitStart_iff.mp ht
        refine .inl (waitStart_iff.mpr ⟨(hopen hclosed).1.symm.trans hs, ?_⟩)
        exact (congrArg (fun p => p.2.1) hpulse).symm.trans hms
  | @talk hdr seg d conn hbuf quad =>
      have hold := @onSegment_timeWait F _ conn
      have hnew : conn.state ≠ .timeWait → _ := fun hs => @onSegment_enters F _ conn hs seg d.now d.rnd
      obtain ⟨hpulse, -, hstate⟩ := converse_pulse conn hbuf seg d
      generalize (converse conn hbuf seg d).conn = conn' at hpulse hstate ht
      split_ifs at ht with hclosed
      · cases ht
      · obtain ⟨hs, hms⟩ := waitStart_iff.mp ht
        have hsame := (congrArg (fun p => p.2.1) hpulse).symm.trans hms
        by_cases hwait : conn.state = .timeWait
        · exact .inl (waitStart_iff.mpr ⟨hwait, (hold hwait seg d.now d.rnd).2.symm.trans hsame⟩)
        · exact .inr ⟨if_neg hwait, (hnew hwait (hstate.mp hs)).symm.trans hsame⟩
  | @opened _ h hbuf made =>
      obtain ⟨-, -, -, -, -, -, -, hopen⟩ := made.pulse
      have hs : (h.call .useBbr).conn.state = .timeWait := (waitStart_iff.mp ht).1
      exact absurd hs hopen

theorem enters_last (q : Quad) (m : EventLoop F) (x : Input F) (t : U64) (ht : waitsSince q (m.step x) = some t) :
    enters q m x = some t ∨ enters q m x = none ∧ waitsSince q m = some t := by
  unfold enters
  rcases waits_step ht with hold | ⟨hnew, htime⟩
  · exact .inr ⟨if_neg fun h => Option.some_ne_none t (hold.symm.trans h.1), hold⟩
  · exact .inl (by rw [if_pos ⟨hnew, by rw [ht]; rfl⟩, htime])

/-- Why the loop, after the inputs, forgets the connection of a 4-tuple in a step. -/
inductive Forgets (synSecret : U64) (q : Quad) (inputs : List (Input F)) (conn : Connection F) : Input F → Prop where
  | reset {hdr : Ip.Ipv4Header} {seg : Segment} {d : Draw} (quad : quadOf hdr seg.th = q)
      (honoured : HonoursReset conn seg.th) : Forgets synSecret q inputs conn (.segment hdr seg d)
  | acked {hdr : Ip.Ipv4Header} {seg : Segment} {d : Draw} (quad : quadOf hdr seg.th = q)
      (last : LastAcked conn seg.th) : Forgets synSecret q inputs conn (.segment hdr seg d)
  | lingered {order : Table.Order Quad (Connection F)} {now t : U64} {early late : List (Input F)} {x : Input F}
      (split : inputs = early ++ x :: late)
      (entered : LastSet step (waitsSince q) (enters q) (start synSecret) early x late t)
      (due : t.toNat + timeWaitLimitMs.toNat ≤ now.toNat) : Forgets synSecret q inputs conn (.timers order now)
  | idle {order : Table.Order Quad (Connection F)} {now t limit : U64} {early late : List (Input F)} {x : Input F}
      (half : limit ∈ halfClosedLimit conn.state) (split : inputs = early ++ x :: late)
      (heard : LastSet step (activeAt q) (hears q) (start synSecret) early x late t)
      (due : t.toNat + limit.toNat ≤ now.toNat) : Forgets synSecret q inputs conn (.timers order now)

variable {synSecret : U64} {q : Quad} {inputs : List (Input F)} {conn : Connection F}

theorem forgets_segment_iff {hdr : Ip.Ipv4Header} {seg : Segment} {d : Draw} :
    Forgets synSecret q inputs conn (.segment hdr seg d) ↔
      quadOf hdr seg.th = q ∧ (HonoursReset conn seg.th ∨ LastAcked conn seg.th) := by
  constructor
  · intro h
    cases h with
    | reset hquad honoured => exact ⟨hquad, .inl honoured⟩
    | acked hquad last => exact ⟨hquad, .inr last⟩
  · rintro ⟨hquad, honoured | last⟩
    · exact .reset hquad honoured
    · exact .acked hquad last

theorem forgets_timers_iff (hconn : ((start synSecret).run inputs).stack.connections.lookup q = some conn)
    (order : Table.Order Quad (Connection F)) (now : U64) :
    Forgets synSecret q inputs conn (.timers order now) ↔ Lingered conn now ∨ Abandoned conn now := by
  have hactive : activeAt q ((start synSecret).run inputs) = some conn.lastActiveMs := congrArg (Option.map _) hconn
  have hwaits : waitsSince q ((start synSecret).run inputs) = waitStart conn :=
      congrArg (Option.bind · waitStart) hconn
  constructor
  · intro h
    cases h with
    | lingered hsplit entered due =>
        have hstart := entered.stands _ List.prefix_rfl
        rw [← hsplit] at hstart
        obtain ⟨hs, rfl⟩ := waitStart_iff.mp (hwaits.symm.trans hstart)
        exact .inl ⟨hs, due⟩
    | idle half hsplit heard due =>
        have hlast := heard.stands _ List.prefix_rfl
        rw [← hsplit] at hlast
        obtain rfl := Option.some.inj (hactive.symm.trans hlast)
        exact .inr ⟨_, half, due⟩
  · rintro (⟨hs, due⟩ | ⟨limit, half, due⟩)
    · obtain ⟨early, y, late, hsplit, entered⟩ := last_set (I := fun _ => True) (fun _ _ _ => trivial)
        (fun m x t _ => enters_last q m x t) trivial rfl inputs (hwaits.trans (waitStart_iff.mpr ⟨hs, rfl⟩))
      exact .lingered hsplit entered due
    · obtain ⟨early, y, late, hsplit, heard⟩ := last_set (I := fun _ => True) (fun _ _ _ => trivial)
        (fun m x t _ => hears_last q m x t) trivial rfl inputs hactive
      exact .idle half hsplit heard due

/-- The loop forgets a connection for cause. In every run, the connection of a
4-tuple leaves the table in a step if and only if a segment for it is a reset that
is honoured or acknowledges the FIN of a passive closer, or the timers find that
TIME_WAIT was entered four minutes ago or more, or that the last segment for a
half-closed connection came one or two minutes ago or more. -/
theorem connections_are_forgotten_for_cause (synSecret : U64) (inputs : List (Input F)) (x : Input F) (q : Quad)
    {conn : Connection F} (hconn : ((start synSecret).run inputs).stack.connections.lookup q = some conn) :
    (((start synSecret).run inputs).step x).stack.connections.lookup q = none ↔
      Forgets synSecret q inputs conn x := by
  have hquiet : Quiet q ((start synSecret).run inputs) :=
    run_preserves (I := Quiet q) (fun m x hm => step_quiet m x hm) (fun conn hc => by cases hc) inputs
  obtain ⟨_, _, _, -, -, _, _, hem⟩ := entry_embodies synSecret q inputs (entry_of_lookup hconn)
  have hlive : conn.state ≠ .closed := hem.live
  have hstep := line_step q ((start synSecret).run inputs) x
  have hline : line q ((start synSecret).run inputs) = ⟨some conn,
      ((start synSecret).run inputs).httpBufs.lookup q⟩ :=
    congrArg (Line.mk · _) hconn
  have hoff : conn.keepaliveEnabled = false := hquiet conn hconn
  change (line q (((start synSecret).run inputs).step x)).conn = none ↔ _
  rw [hline] at hstep
  generalize line q (((start synSecret).run inputs).step x) = l' at hstep ⊢
  generalize ((start synSecret).run inputs).httpBufs.lookup q = hbuf at hstep
  generalize sendsFor q ((start synSecret).run inputs) x = sent at hstep
  cases hstep with
  | other elsewhere idle =>
      refine iff_of_false (Option.some_ne_none conn) fun h => ?_
      obtain ⟨hdr, seg, d, rfl⟩ := idle.resolve_right (Option.some_ne_none conn)
      cases (if_pos (forgets_segment_iff.mp h).1).symm.trans elsewhere
  | @tick order now =>
      have hclosed := onTick_closed_iff conn now
      have hpatient : ¬ GivesUp conn now := fun hgive => by
        have henabled := (givesUp_iff.mp hgive).1.1
        rw [hoff] at henabled
        cases henabled
      rw [forgets_timers_iff hconn order now]
      generalize (conn.onTick now).1 = conn' at hclosed ⊢
      have hcauses : conn'.state = .closed ↔ Lingered conn now ∨ Abandoned conn now := by
        rw [hclosed, or_iff_right hlive, or_iff_left hpatient]
      rw [← hcauses]
      by_cases hc : conn'.state = .closed
      · rw [if_pos hc]
        exact iff_of_true rfl hc
      · rw [if_neg hc]
        exact iff_of_false (Option.some_ne_none conn') hc
  | @talk hdr seg d _ _ hquad =>
      have hclosed := (converse_pulse conn hbuf seg d).2.1
      rw [onSegment_closed_iff hlive] at hclosed
      rw [forgets_segment_iff, and_iff_right hquad]
      generalize (converse conn hbuf seg d) = r at hclosed ⊢
      rw [← hclosed]
      by_cases hc : r.conn.state = .closed
      · rw [if_pos hc]
        exact iff_of_true rfl hc
      · rw [if_neg hc]
        exact iff_of_false (Option.some_ne_none r.conn) hc

/-- A client asks for the root, the response closes, and it acknowledges the FIN
but never sends its own. -/
def halfVisit : List (Input Rat) :=
  visit.take 2 ++ [.segment strayHeader ⟨⟨4000#16, 80#16, 6#32, 701#32, 20, PSH ||| ACK, 1024#16⟩,
      Http.ascii "GET / HTTP/1.0\r\n\r\n".toList, {}⟩ ⟨3#64, 0#32, 0#32⟩,
    .segment strayHeader ⟨⟨4000#16, 80#16, 24#32, 840#32, 20, ACK, 1024#16⟩, [], {}⟩ ⟨4#64, 0#32, 0#32⟩]

theorem silent_client_is_forgotten : ∃ conn,
    ((start 7#64).run halfVisit).stack.connections.lookup visitor = some conn ∧
    conn.state = .finWait2 ∧ Forgets 7#64 visitor halfVisit conn (.timers .stored 60004#64) := by
  obtain ⟨hstate, hgone⟩ : (((start 7#64).run halfVisit).stack.connections.lookup visitor).map Connection.state =
      some .finWait2 ∧
      ((((start 7#64).run halfVisit).step (.timers .stored 60004#64)).stack.connections.lookup visitor) = none := by
    decide +kernel
  obtain ⟨conn, hconn, hs⟩ := Option.map_eq_some_iff.mp hstate
  exact ⟨conn, hconn, hs, (connections_are_forgotten_for_cause 7#64 halfVisit
    (.timers .stored 60004#64) visitor hconn).mp
    hgone⟩

end EventLoop
end Main
end TcpStack
