import TcpStack.CubicArithmetic
import TcpStack.Recovery
import TcpStack.SegmentSize

/-!
# Sending into an open window

With nothing in flight no acknowledgement will come, and an open window arms no
persist timer, so a poll that sends nothing would be the last one that could.
Three quantities have to be positive for it to send: the congestion window, the
negotiated segment size and what Nagle lets pass.
-/
namespace TcpStack
open Tcp TcpStack.Seq

variable {F : Type} [F64 F]

/-- A CUBIC controller at its floor or above it. -/
def CongestionControl.Floored (cc : CongestionControl F) : Prop := ∃ k : Cubic, cc = .cubic k ∧ k.Floored

namespace CongestionControl.Floored

variable {cc : CongestionControl F}

theorem onAck (h : cc.Floored) (acked : U32) (rtt : Option U64) (now : U64) : (cc.onAck acked rtt now).Floored := by
  obtain ⟨k, rfl, hk⟩ := h
  exact ⟨_, rfl, hk.onAckTo acked now (k.target F now)⟩

theorem onPartialAck (h : cc.Floored) (acked : U32) : (cc.onPartialAck acked).Floored := by
  obtain ⟨k, rfl, hk⟩ := h
  exact ⟨_, rfl, hk.onPartialAck acked⟩

theorem onDupAck (h : cc.Floored) (flight : U32) : (cc.onDupAck flight).1.Floored := by
  obtain ⟨k, rfl, hk⟩ := h
  exact ⟨_, rfl, hk.onDupAck flight⟩

theorem onTimeout (h : cc.Floored) (flight : U32) : (cc.onTimeout flight).Floored := by
  obtain ⟨k, rfl, -⟩ := h
  exact ⟨_, rfl, Cubic.Floored.onTimeout k flight⟩

end CongestionControl.Floored

namespace Host
open Connection

theorem call_floored {h : Host F} (hc : h.conn.cong.Floored) {x : Call} (hx : x ≠ .useBbr) :
    (h.call x).conn.cong.Floored := by
  have hof : ∀ {cong una stop}, (h.call x).conn.helm = (una, cong, stop) → CongestionControl.Floored cong →
      (h.call x).conn.cong.Floored := by
    intro cong una stop hhelm hcong
    rwa [show (h.call x).conn.cong = cong from congrArg (fun p => p.2.1) hhelm]
  rcases call_steers h hx with ⟨seg, now, rnd, out, rfl, hout, hsteers⟩ | ⟨now, rfl, hdue, hhelm⟩ | ⟨-, -, hhelm⟩
  · cases hsteers with
    | kept hhelm => exact hof hhelm hc
    | opened _ hhelm => exact hof hhelm hc
    | full _ _ _ _ hhelm => exact hof hhelm (hc.onAck ..)
    | part _ hhelm => exact hof hhelm (hc.onPartialAck _)
    | dup _ hhelm => exact hof hhelm (hc.onDupAck _)
  · exact hof hhelm (hc.onTimeout _)
  · exact hof hhelm hc

theorem run_floored {h : Host F} (hc : h.conn.cong.Floored) {calls : List Call} (hcubic : .useBbr ∉ calls) :
    (h.run calls).conn.cong.Floored := by
  induction calls generalizing h with
  | nil => exact hc
  | cons x calls ih =>
      rw [List.mem_cons, not_or] at hcubic
      exact ih (call_floored hc fun hx => hcubic.1 hx.symm) hcubic.2

theorem Fresh.floored {h : Host F} (hf : Fresh h) : h.conn.cong.Floored :=
  ⟨{}, hf.cong, Cubic.floored_default⟩

end Host

/-- A packet that carries data. -/
def CarriesData (p : Bytes) : Prop := ∃ s, decode p = some s ∧ s.payload ≠ []

theorem Sized.carriesData {p : Bytes} {options n : Nat} (h : Sized p options n) : CarriesData p ↔ n ≠ 0 := by
  obtain ⟨s, hd, -, hlen, -⟩ := h.fields
  rw [← hlen]
  constructor
  · rintro ⟨t, ht, hne⟩
    obtain rfl := Option.some.inj (hd.symm.trans ht)
    exact fun h => hne (List.length_eq_zero_iff.mp h)
  · exact fun hne => ⟨s, hd, fun h => hne (List.length_eq_zero_iff.mpr h)⟩

namespace Host
open Connection

/-- Nothing is in flight, the window is open and there is data to send. -/
structure IdleOpen (c : Connection F) : Prop where
  sending : c.state.Sending
  calm : c.cong.inRecovery = false
  buffer : c.sendBuf ≠ []
  idle : c.flightSize = 0#32
  window : c.send.wnd ≠ 0#32

theorem IdleOpen.cutSize {c : Connection F} (hw : IdleOpen c) (hfloor : c.cong.Floored) :
    c.cutSize ≠ 0 ↔ c.sendMss ≠ 0#16 := by
  obtain ⟨k, hk, hfloor⟩ := hfloor
  have hroom : c.room = umin c.send.wnd k.cwnd := by
    have hzero : saturatingSub (umin c.send.wnd k.cwnd) 0#32 = umin c.send.wnd k.cwnd := by
      unfold saturatingSub
      split_ifs <;> bv_omega
    rw [room, hw.calm, Bool.and_false, if_neg Bool.false_ne_true, usableWindow, hw.idle, hk]
    exact hzero
  have hwnd : c.send.wnd.toNat ≠ 0 := fun h => hw.window (BitVec.eq_of_toNat_eq h)
  have hcwnd := hfloor.cwnd
  have hbuf : c.sendBuf.length ≠ 0 := fun h => hw.buffer (List.length_eq_zero_iff.mp h)
  have hpos : (umin c.send.wnd k.cwnd).toNat ≠ 0 := by
    unfold umin
    split_ifs <;> omega
  have hmss : c.sendMss ≠ 0#16 ↔ c.sendMss.toNat ≠ 0 := by
    rw [ne_eq, BitVec.toNat_eq]
    rfl
  rw [hmss, Connection.cutSize, hroom]
  omega

/-- In every reachable state of a CUBIC connection outside recovery with nothing
in flight, an open window and data to send, a poll sends data if and only if the
peer's segment size is not zero. -/
theorem idle_window_sends_iff (hpace : F64.lt (F64.lit 0 1) (F64.lit 0 1 : F) = false) {h : Host F} (hf : Fresh h)
    (calls : List Call) (hcubic : .useBbr ∉ calls) (hw : IdleOpen (h.run calls).conn) (now : U64) :
    (∃ p ∈ ((h.run calls).conn.pollTransmit now).2, CarriesData p) ↔ (h.run calls).conn.sendMss ≠ 0#16 := by
  have hfloor : (h.run calls).conn.cong.Floored := run_floored hf.floored hcubic
  generalize (h.run calls).conn = c at *
  have hrec : (c.sackOk && c.cong.inRecovery) = false := by rw [hw.calm, Bool.and_false]
  have hfree : ¬ HeldBack c now := by
    rintro ⟨-, ⟨-, -, hflight⟩ | ⟨hrate, -⟩⟩
    · rw [hw.idle] at hflight
      exact absurd hflight (BitVec.lt_irrefl _)
    · obtain ⟨k, hk, -⟩ := hfloor
      rw [hk] at hrate
      cases hpace.symm.trans hrate
  rw [← hw.cutSize hfloor]
  constructor
  · rintro ⟨p, hp, hdata⟩
    have hidle : ¬ (c.state ≠ .established ∧ c.state ≠ .closeWait) := by
      rw [not_and_or, not_not, not_not]
      exact hw.sending
    have hcut : c.cutSize = min (min c.usableWindow.toNat c.sendMss.toNat) c.sendBuf.length := by
      rw [Connection.cutSize, room, hrec]
      rfl
    unfold pollTransmit at hp
    rw [if_neg hidle] at hp
    dsimp only at hp
    rw [hrec, if_neg Bool.false_ne_true] at hp
    rw [hcut]
    exact drain_cuts (c := { c with tsVal := now.setWidth 32 }) _ now _ hp
  · intro hne
    obtain ⟨p, hp, hsized⟩ := pollTransmit_cuts hw.sending hrec hfree hne
    exact ⟨p, hp, hsized.carriesData.mpr hne⟩

/-- One byte written to a connection with a segment size of 1000. -/
theorem one_byte_is_sent :
    ∃ p ∈ ((sample.run [.write [7#8]]).conn.pollTransmit 1#64).2, CarriesData p :=
  (idle_window_sends_iff (by decide +kernel) sample_fresh [.write [7#8]] (by decide)
    ⟨by decide +kernel, by decide +kernel, by decide +kernel, by decide +kernel, by decide +kernel⟩ 1#64).mpr
    (by decide +kernel)

/-- A passive open on a SYN whose Maximum Segment Size option is zero. -/
def zeroMss : Option (Host Rat) :=
  accept (Ipv4Addr.new 10#8 0#8 0#8 2#8) (Ipv4Addr.new 10#8 0#8 0#8 1#8)
    ⟨⟨4000#16, 80#16, 500#32, 0#32, 24, SYN, 1024#16⟩, [], { mss := some 0#16 }⟩ 100#32 0#64 0#32

/-- The handshake is completed and one byte is written. -/
def stalledCalls : List Call :=
  [.onSegment ⟨⟨4000#16, 80#16, 501#32, 101#32, 20, ACK, 1024#16⟩, [], {}⟩ 1#64 0#32, .write [7#8]]

/-- A peer that announces a segment size of zero is taken at its word, and the
byte never leaves. -/
theorem zero_segment_size_stalls :
    let c := ((zeroMss.get rfl).run stalledCalls).conn
    Fresh (zeroMss.get rfl) ∧ .useBbr ∉ stalledCalls ∧ IdleOpen c ∧ ∀ now, (c.pollTransmit now).2 = [] := by
  have hqueue : ((zeroMss.get rfl).run stalledCalls).conn.retx.segments = [] := by decide +kernel
  have hcut : ((zeroMss.get rfl).run stalledCalls).conn.cutSize = 0 := by decide +kernel
  refine ⟨.accept _ _ _ _ _ _ (Option.some_get _).symm, by decide, ?_, fun now => ?_⟩
  · exact ⟨by decide +kernel, by decide +kernel, by decide +kernel, by decide +kernel, by decide +kernel⟩
  · refine List.eq_nil_iff_forall_not_mem.mpr fun p hp => ?_
    rcases pollTransmit_sized _ now p hp with ⟨s, hs, -⟩ | ⟨-, -, hne, -⟩
    · rw [hqueue] at hs
      cases hs
    · exact hne hcut

end Host
end TcpStack
