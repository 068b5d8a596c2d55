import TcpStack.Discipline
import TcpStack.FlowControl

/-!
# Segments and the negotiated size

The loops that cut the send buffer into segments bound the payload by the
send MSS, and the Timestamps option is added to it afterwards. The module says
what size the next segment will have, and when every packet with data fits.
-/
namespace TcpStack
open Tcp TcpStack.Seq

variable {F : Type} [F64 F]

/-- A packet with this many option and payload bytes. -/
structure Sized (pkt : Bytes) (options n : Nat) : Prop where
  fields : ∃ s, decode pkt = some s ∧ s.th.dataOffset = 20 + options ∧ s.payload.length = n ∧
    pkt.length = 40 + options + n

/-- The same, with at most `n` bytes of payload. -/
def SizedWithin (pkt : Bytes) (options n : Nat) : Prop := ∃ k ≤ n, Sized pkt options k

theorem SizedWithin.mono {pkt : Bytes} {options n n' : Nat} (h : SizedWithin pkt options n) (hle : n ≤ n') :
    SizedWithin pkt options n' := by
  obtain ⟨k, hk, hs⟩ := h
  exact ⟨k, Nat.le_trans hk hle, hs⟩

namespace Connection

/-- The bytes of the Timestamps option, where it was negotiated. -/
def stampBytes (c : Connection F) : Nat := if c.tsEnabled then 12 else 0

/-- The room for new data: the usable window, or in SACK recovery what the limit
leaves over everything not selectively acknowledged. -/
def room (c : Connection F) : U32 :=
  if c.sackOk && c.cong.inRecovery then
    saturatingSub (umin c.send.wnd c.cong.window) (BitVec.ofNat 32 (RetxQueue.unsacked c.retx.segments))
  else c.usableWindow

/-- The payload of the first segment a poll would cut. -/
def cutSize (c : Connection F) : Nat := min (min c.room.toNat c.sendMss.toNat) c.sendBuf.length

theorem segment_sized (c : Connection F) (seq ack : U32) (flags : U8) (payload : Bytes) :
    Sized (c.segment seq ack flags payload) c.stampBytes payload.length := by
  unfold segment segmentOpts stampBytes
  cases c.tsEnabled with
  | false =>
      refine ⟨_, decode_buildPacket rfl (Nat.zero_le _) (parseFrom_nil {}), rfl, rfl, ?_⟩
      exact buildPacket_length ..
  | true =>
      refine ⟨_, decode_buildPacket (by simp [tsOption_length]) (by simp [tsOption_length])
        (parseOptions_tsOption _ _), rfl, rfl, ?_⟩
      exact buildPacket_length ..

theorem transmit_sized {c : Connection F} {n : Nat} (hle : n ≤ c.sendBuf.length) (flags : U8) (now : U64) :
    Sized (c.transmit n flags now).2 c.stampBytes n := by
  have hseg := segment_sized { c with sendBuf := c.sendBuf.drop n } c.send.nxt c.recv.nxt flags (c.sendBuf.take n)
  rw [List.length_take, Nat.min_eq_left hle] at hseg
  exact hseg

theorem usableWindow_transmit {c : Connection F} {n : Nat} (hle : n ≤ c.usableWindow.toNat) (flags : U8)
    (now : U64) : (c.transmit n flags now).1.usableWindow.toNat ≤ c.usableWindow.toNat := by
  have hflight : (c.transmit n flags now).1.flightSize = c.flightSize + BitVec.ofNat 32 n := by
    change c.send.nxt + BitVec.ofNat 32 n - c.send.una = c.send.nxt - c.send.una + BitVec.ofNat 32 n
    rw [BitVec.sub_eq_add_neg, BitVec.sub_eq_add_neg, BitVec.add_assoc, BitVec.add_assoc, BitVec.add_comm _ (-_)]
  have hlimit : umin (c.transmit n flags now).1.send.wnd (c.transmit n flags now).1.cong.window =
      umin c.send.wnd c.cong.window := rfl
  unfold usableWindow at hle ⊢
  rw [hflight, hlimit]
  generalize umin c.send.wnd c.cong.window = limit at hle
  generalize c.flightSize = flight at hle
  unfold saturatingSub at hle ⊢
  split_ifs at hle ⊢ <;> bv_omega

/-- What is left to cut from, after a segment was cut. -/
structure Cuts (d c : Connection F) : Prop where
  stamp : d.stampBytes = c.stampBytes
  mss : d.sendMss = c.sendMss
  usable : d.usableWindow.toNat ≤ c.usableWindow.toNat
  buffer : d.sendBuf.length ≤ c.sendBuf.length

theorem transmit_cuts {c : Connection F} {n : Nat} (hle : n ≤ c.usableWindow.toNat) (flags : U8) (now : U64) :
    (c.transmit n flags now).1.Cuts c := by
  refine ⟨rfl, rfl, usableWindow_transmit hle flags now, ?_⟩
  change (c.sendBuf.drop n).length ≤ c.sendBuf.length
  rw [List.length_drop]
  omega

theorem pace_eq {c c' : Connection F} {pacing : F} {n : Nat} {now : U64} (h : c.pace pacing n now = some c') :
    ∃ x, c' = { c with nextSendMs := x } := by
  unfold pace at h
  split_ifs at h <;> obtain rfl := Option.some.inj h <;> exact ⟨_, rfl⟩

theorem drain_sized (pacing : F) (now : U64) (fuel : Nat) : ∀ c : Connection F, ∀ p ∈ (drain pacing now fuel c).2,
    SizedWithin p c.stampBytes (min (min c.usableWindow.toNat c.sendMss.toNat) c.sendBuf.length) := by
  induction fuel with
  | zero => exact fun c p hp => nomatch hp
  | succ fuel ih =>
      intro c p hp
      simp only [drain] at hp
      split_ifs at hp with hempty hn hnagle
      · cases hp
      · cases hp
      · cases hp
      cases hpace : c.pace pacing (min (min c.usableWindow.toNat c.sendMss.toNat) c.sendBuf.length) now with
      | none =>
          rw [hpace] at hp
          cases hp
      | some c' =>
          rw [hpace] at hp
          obtain ⟨x, rfl⟩ := pace_eq hpace
          generalize hk : min (min c.usableWindow.toNat c.sendMss.toNat) c.sendBuf.length = n at hp hn
          rcases List.mem_cons.mp hp with rfl | hp
          · have hbuf : n ≤ c.sendBuf.length := by omega
            exact ⟨n, Nat.le_refl n, transmit_sized (c := { c with nextSendMs := x }) hbuf _ now⟩
          · have hle : n ≤ c.usableWindow.toNat := by omega
            have hd : (transmit { c with nextSendMs := x } n (PSH ||| ACK) now).1.Cuts c := by
              obtain ⟨hstamp, hmss, huse, hbuf⟩ := transmit_cuts (c := { c with nextSendMs := x })
                  hle (PSH ||| ACK) now
              exact ⟨hstamp, hmss, huse, hbuf⟩
            generalize (transmit { c with nextSendMs := x } n (PSH ||| ACK) now).1 = d at hp hd
            have hrest := ih d p hp
            rw [hd.stamp, hd.mss] at hrest
            have huse := hd.usable
            have hbuf := hd.buffer
            exact hrest.mono (by omega)

theorem pipe_transmit (c : Connection F) (n : Nat) (flags : U8) (now : U64) :
    (c.transmit n flags now).1.retx.pipe dupThresh = c.retx.pipe dupThresh ∨
      (c.transmit n flags now).1.retx.pipe dupThresh = c.retx.pipe dupThresh + BitVec.ofNat 32 n := by
  have hspan : c.send.nxt + BitVec.ofNat 32 n - (c.send.nxt + BitVec.ofNat 32 n - BitVec.ofNat 32 n) =
      BitVec.ofNat 32 n := by
    rw [BitVec.add_sub_cancel, BitVec.add_comm, BitVec.add_sub_cancel]
  have hrec := RetxQueue.pipe_record c.retx (c.send.nxt + BitVec.ofNat 32 n - BitVec.ofNat 32 n)
    (c.send.nxt + BitVec.ofNat 32 n) (c.transmit n flags now).2 now dupThresh
  rw [hspan] at hrec
  split_ifs at hrec
  · exact .inl hrec
  · exact .inr hrec

theorem fillPipe_sized (limit : U32) (now : U64) (fuel : Nat) : ∀ c : Connection F,
    ∀ p ∈ (fillPipe limit now fuel c).2, c.retx.pipe dupThresh < limit ∧
      min (min (limit - c.retx.pipe dupThresh).toNat c.sendMss.toNat) c.sendBuf.length ≠ 0 ∧
      SizedWithin p c.stampBytes (min (min (limit - c.retx.pipe dupThresh).toNat c.sendMss.toNat)
        c.sendBuf.length) := by
  induction fuel with
  | zero => exact fun c p hp => nomatch hp
  | succ fuel ih =>
      intro c p hp
      simp only [fillPipe] at hp
      split_ifs at hp with hempty hfull hn
      · cases hp
      · cases hp
      · cases hp
      have hroom : c.retx.pipe dupThresh < limit := BitVec.not_le.mp hfull
      refine ⟨hroom, hn, ?_⟩
      generalize hk : min (min (limit - c.retx.pipe dupThresh).toNat c.sendMss.toNat) c.sendBuf.length = n at hp hn
      rcases List.mem_cons.mp hp with rfl | hp
      · exact ⟨n, Nat.le_refl n, transmit_sized (by omega) _ now⟩
      · have hpipe := pipe_transmit c n (PSH ||| ACK) now
        have hsame : (c.transmit n (PSH ||| ACK) now).1.stampBytes = c.stampBytes ∧
            (c.transmit n (PSH ||| ACK) now).1.sendMss = c.sendMss ∧
            (c.transmit n (PSH ||| ACK) now).1.sendBuf.length = c.sendBuf.length - n :=
          ⟨rfl, rfl, List.length_drop⟩
        generalize (c.transmit n (PSH ||| ACK) now).1 = d at hp hpipe hsame
        obtain ⟨hroom', -, hrest⟩ := ih d p hp
        rw [hsame.1, hsame.2.1, hsame.2.2] at hrest
        have hless : (limit - d.retx.pipe dupThresh).toNat ≤ (limit - c.retx.pipe dupThresh).toNat := by
          have hle : n ≤ (limit - c.retx.pipe dupThresh).toNat := by omega
          generalize d.retx.pipe dupThresh = after at hpipe hroom'
          generalize c.retx.pipe dupThresh = before at hpipe hroom hle
          rcases hpipe with rfl | rfl
          · exact Nat.le_refl _
          · bv_omega
        exact hrest.mono (by omega)

/-- The ordinary loop holds its first segment back: Nagle or the pacing gate. -/
def HeldBack (c : Connection F) (now : U64) : Prop :=
  (c.sackOk && c.cong.inRecovery) = false ∧
    ((c.nagle = true ∧ c.cutSize < c.sendMss.toNat ∧ c.flightSize > 0#32) ∨
      (F64.lt (F64.lit 0 1) c.cong.pacingRateBps = true ∧ now < c.nextSendMs))

theorem drain_heldBack {c : Connection F} {now : U64} (h : HeldBack c now) (fuel : Nat) :
    (drain c.cong.pacingRateBps now fuel c).2 = [] := by
  obtain ⟨hrec, hheld⟩ := h
  have hcut : c.cutSize = min (min c.usableWindow.toNat c.sendMss.toNat) c.sendBuf.length := by
    rw [cutSize, room, hrec]
    rfl
  cases fuel with
  | zero => rfl
  | succ fuel =>
      simp only [drain, ← hcut]
      split_ifs with hempty hn hnagle
      · rfl
      · rfl
      · rfl
      · have hgate : F64.lt (F64.lit 0 1) c.cong.pacingRateBps = true ∧ now < c.nextSendMs := by
          rcases hheld with hh | hh
          · exact absurd hh hnagle
          · exact hh
        simp only [pace, hgate.1, hgate.2, if_true]

theorem drain_cuts (pacing : F) (now : U64) (fuel : Nat) {c : Connection F} {p : Bytes}
    (hp : p ∈ (drain pacing now fuel c).2) :
    min (min c.usableWindow.toNat c.sendMss.toNat) c.sendBuf.length ≠ 0 := by
  cases fuel with
  | zero => cases hp
  | succ fuel =>
      simp only [drain] at hp
      split_ifs at hp with hempty hn hnagle
      · cases hp
      · cases hp
      · cases hp
      · exact hn

theorem recoverSack_sized {c : Connection F} (hrec : (c.sackOk && c.cong.inRecovery) = true) (now : U64) :
    ∀ p ∈ (c.recoverSack now).2, (∃ s ∈ c.retx.segments, s.packet = p) ∨
      (c.cutSize ≠ 0 ∧ SizedWithin p c.stampBytes c.cutSize) := by
  intro p hp
  have hholes := retransmitHoles_packets (umin c.send.wnd c.cong.window) now c.retx.segments.length c
  have hpipe := (retransmitHoles_pipe (umin c.send.wnd c.cong.window) now c.retx.segments.length c.retx
    (List.length_filter_le _ _)).2
  simp only [recoverSack] at hp
  rcases List.mem_append.mp hp with hp | hp
  · exact .inl (hholes p hp)
  · obtain ⟨hroom, hne, hsized⟩ := fillPipe_sized _ now _ _ p hp
    right
    have hcut : c.cutSize = min (min (umin c.send.wnd c.cong.window -
        (retransmitHoles (umin c.send.wnd c.cong.window) now c.retx.segments.length c.retx).1.pipe dupThresh).toNat
          c.sendMss.toNat) c.sendBuf.length := by
      have heq := hpipe.resolve_left (BitVec.not_le.mpr hroom)
      have hlt : ¬ umin c.send.wnd c.cong.window ≤ BitVec.ofNat 32 (RetxQueue.unsacked c.retx.segments) := by
        rw [← heq]
        exact BitVec.not_le.mpr hroom
      rw [cutSize, room, if_pos hrec, saturatingSub, if_neg hlt, heq]
    rw [hcut]
    exact ⟨hne, hsized⟩

theorem pollTransmit_sized (c : Connection F) (now : U64) : ∀ p ∈ (c.pollTransmit now).2,
    (∃ s ∈ c.retx.segments, s.packet = p) ∨
      (c.state.Sending ∧ ¬ HeldBack c now ∧ c.cutSize ≠ 0 ∧ SizedWithin p c.stampBytes c.cutSize) := by
  intro p hp
  unfold pollTransmit at hp
  split_ifs at hp with hidle
  · cases hp
  have hs : c.state.Sending := by
    rw [not_and_or, not_not, not_not] at hidle
    exact hidle
  dsimp only at hp
  split_ifs at hp with hrec
  · rcases recoverSack_sized (c := { c with tsVal := now.setWidth 32 }) hrec now p hp with hold | ⟨hne, hsz⟩
    · exact .inl hold
    · refine .inr ⟨hs, fun hheld => ?_, hne, hsz⟩
      rw [hheld.1] at hrec
      cases hrec
  · have hrec' : (c.sackOk && c.cong.inRecovery) = false := Bool.eq_false_iff.mpr hrec
    have hcut : c.cutSize = min (min c.usableWindow.toNat c.sendMss.toNat) c.sendBuf.length := by
      rw [cutSize, room, hrec']
      rfl
    refine .inr ⟨hs, fun hheld => ?_, ?_, ?_⟩
    · have hnil := drain_heldBack (c := { c with tsVal := now.setWidth 32 }) hheld c.sendBuf.length
      rw [hnil] at hp
      cases hp
    · rw [hcut]
      exact drain_cuts (c := { c with tsVal := now.setWidth 32 }) _ now _ hp
    · rw [hcut]
      exact drain_sized _ now _ { c with tsVal := now.setWidth 32 } p hp

theorem drain_first {c c' : Connection F} {pacing : F} {now : U64} {n : Nat} (fuel : Nat)
    (hn : n = min (min c.usableWindow.toNat c.sendMss.toNat) c.sendBuf.length) (hne : n ≠ 0)
    (hnagle : ¬ (c.nagle = true ∧ n < c.sendMss.toNat ∧ c.flightSize > 0#32))
    (hpace : c.pace pacing n now = some c') :
    (c'.transmit n (PSH ||| ACK) now).2 ∈ (drain pacing now (fuel + 1) c).2 := by
  have hbuf : ¬ c.sendBuf.isEmpty = true := by
    rw [List.isEmpty_iff_length_eq_zero]
    omega
  simp only [drain, ← hn]
  rw [if_neg hbuf, if_neg hne, if_neg hnagle, hpace]
  exact List.mem_cons_self ..

theorem pollTransmit_cuts {c : Connection F} {now : U64} (hs : c.state.Sending)
    (hrec : (c.sackOk && c.cong.inRecovery) = false) (hfree : ¬ HeldBack c now) (hne : c.cutSize ≠ 0) :
    ∃ p ∈ (c.pollTransmit now).2, Sized p c.stampBytes c.cutSize := by
  have hcut : c.cutSize = min (min c.usableWindow.toNat c.sendMss.toNat) c.sendBuf.length := by
    rw [cutSize, room, hrec]
    rfl
  obtain ⟨fuel, hfuel⟩ : ∃ fuel, c.sendBuf.length = fuel + 1 := Nat.exists_eq_succ_of_ne_zero (by omega)
  have hidle : ¬ (c.state ≠ .established ∧ c.state ≠ .closeWait) := by
    rw [not_and_or, not_not, not_not]
    exact hs
  have hnagle : ¬ (c.nagle = true ∧ c.cutSize < c.sendMss.toNat ∧ c.flightSize > 0#32) :=
    fun h => hfree ⟨hrec, .inl h⟩
  obtain ⟨c', hpace⟩ : ∃ c', pace { c with tsVal := now.setWidth 32 } c.cong.pacingRateBps c.cutSize now =
      some c' := by
    unfold pace
    split_ifs with hrate hgate
    · exact absurd ⟨hrec, .inr ⟨hrate, hgate⟩⟩ hfree
    · exact ⟨_, rfl⟩
    · exact ⟨_, rfl⟩
  obtain ⟨x, hx⟩ := pace_eq hpace
  have hsized : Sized (c'.transmit c.cutSize (PSH ||| ACK) now).2 c.stampBytes c.cutSize := by
    rw [hx]
    have hle : c.cutSize ≤ c.sendBuf.length := by omega
    exact transmit_sized (c := { c with tsVal := now.setWidth 32, nextSendMs := x }) hle _ now
  have hfirst := drain_first (c := { c with tsVal := now.setWidth 32 }) fuel hcut hne hnagle hpace
  refine ⟨_, ?_, hsized⟩
  unfold pollTransmit
  rw [if_neg hidle]
  dsimp only
  rw [hrec, if_neg Bool.false_ne_true, hfuel]
  exact hfirst

/-- The persist timer is about to probe a closed window. -/
def PersistDue (c : Connection F) (now : U64) : Prop :=
  c.state.Sending ∧ c.send.wnd = 0#32 ∧ c.sendBuf ≠ [] ∧ c.flightSize = 0#32 ∧ c.persistMs ≠ 0#64 ∧ now ≥ c.persistMs

theorem tickPersist_sized (c : Connection F) (now : U64) :
    (PersistDue c now ∧ ∃ p, (c.tickPersist now).2 = [p] ∧ Sized p c.stampBytes 1) ∨
      (¬ PersistDue c now ∧ (c.tickPersist now).2 = []) := by
  unfold tickPersist PersistDue State.Sending
  split_ifs with hopen harm hfire
  · refine .inr ⟨?_, rfl⟩
    simp [harm]
  · obtain ⟨hs, hw, hbuf, hfl⟩ := hopen
    have hbuf' : c.sendBuf ≠ [] := by simpa using hbuf
    refine .inl ⟨⟨hs, hw, hbuf', hfl, harm, hfire⟩, _, rfl, ?_⟩
    exact transmit_sized (List.length_pos_iff.mpr hbuf') ACK now
  · refine .inr ⟨?_, rfl⟩
    simp [hfire]
  · refine .inr ⟨?_, rfl⟩
    rintro ⟨hs, hw, hbuf, hfl, -⟩
    exact hopen ⟨hs, hw, by simpa using hbuf, hfl⟩

theorem tickKeepalive_sized (c : Connection F) (now : U64) : ∀ p ∈ (c.tickKeepalive now).2,
    Sized p c.stampBytes 0 := by
  intro p hp
  simp only [tickKeepalive] at hp
  split_ifs at hp
  · cases hp
  · rw [List.mem_singleton.mp hp]
    exact segment_sized { c with keepaliveProbesSent := c.keepaliveProbesSent + 1#32 } _ _ ACK []
  · cases hp
  · cases hp

theorem still_stampBytes (c : Connection F) : c.still.stampBytes = c.stampBytes := rfl

/-- The last two timers send an empty packet, or the one byte that probes the window. -/
theorem tickTail_sized (c : Connection F) (now : U64) :
    ∀ p ∈ (c.tickPersist now).2 ++ ((c.tickPersist now).1.tickKeepalive now).2,
      Sized p c.stampBytes 0 ∨ (PersistDue c now ∧ Sized p c.stampBytes 1) := by
  intro p hp
  rcases List.mem_append.mp hp with hp | hp
  · rcases tickPersist_sized c now with ⟨hdue, p', hout, hsz⟩ | ⟨-, hout⟩
    · rw [hout, List.mem_singleton] at hp
      exact .inr ⟨hdue, hp ▸ hsz⟩
    · rw [hout] at hp
      cases hp
  · left
    have hkeep := tickKeepalive_sized _ now p hp
    rw [← still_stampBytes, tickPersist_still, still_stampBytes] at hkeep
    exact hkeep

/-- A tick probes the window, or sends nothing but old and empty packets. -/
theorem onTick_sized (c : Connection F) (now : U64) :
    (∀ p ∈ (c.onTick now).2, (∃ s ∈ c.retx.segments, s.packet = p) ∨ Sized p c.stampBytes 0 ∨
      ((c.reap now).PersistDue now ∧ Sized p c.stampBytes 1)) ∧
    ((c.reap now).PersistDue now → ∃ p ∈ (c.onTick now).2, Sized p c.stampBytes 1) := by
  obtain ⟨st, hreap⟩ := reap_eq c now
  have hstamp : { c with tsVal := now.setWidth 32 }.reap now = { c.reap now with tsVal := now.setWidth 32 } := by
    simp only [reap]
    split_ifs <;> rfl
  obtain ⟨q, r, g, t, sent, htimers⟩ := timers_eq { c.reap now with tsVal := now.setWidth 32 } now
  have hresend := timers_resend { c.reap now with tsVal := now.setWidth 32 } now
  have hsame : (((tickRack { c.reap now with tsVal := now.setWidth 32 } now).1.tickProbe now).1.tickDue
      now).1.stampBytes =
        c.stampBytes ∧
      ((((tickRack { c.reap now with tsVal := now.setWidth 32 } now).1.tickProbe now).1.tickDue now).1.PersistDue now
        ↔
        (c.reap now).PersistDue now) := by
    rw [htimers, hreap]
    exact ⟨rfl, Iff.rfl⟩
  simp only [onTick, hstamp]
  dsimp only at hresend
  generalize (((tickRack { c.reap now with tsVal := now.setWidth 32 } now).1.tickProbe now).1.tickDue now).1 = d
    at hresend hsame
  have htail := tickTail_sized d now
  rw [hsame.1, hsame.2] at htail
  constructor
  · intro p hp
    rw [List.append_assoc] at hp
    rcases List.mem_append.mp hp with hp | hp
    · obtain ⟨s, hs, -, hpkt⟩ := hresend.queued p hp
      rw [hreap] at hs
      exact .inl ⟨s, hs, hpkt⟩
    · exact .inr (htail p hp)
  · intro hdue
    rcases tickPersist_sized d now with ⟨-, p, hout, hsz⟩ | ⟨hno, -⟩
    · refine ⟨p, ?_, hsame.1 ▸ hsz⟩
      rw [hout]
      simp
    · exact absurd (hsame.2.mpr hdue) hno

end Connection

/-- With data, options and payload together stay within `m`, and the datagram
within `m + 40` and within the MTU. -/
def FitsSegment (m : Nat) (pkt : Bytes) : Prop :=
  ∃ s, decode pkt = some s ∧
    (s.payload ≠ [] → s.th.dataOffset - 20 + s.payload.length ≤ m ∧ pkt.length ≤ m + 40 ∧ pkt.length ≤ 1500)

theorem FitsSegment.empty {m : Nat} {pkt : Bytes} (h : ∃ s, decode pkt = some s ∧ s.payload = []) :
    FitsSegment m pkt := by
  obtain ⟨s, hd, hnil⟩ := h
  exact ⟨s, hd, fun hne => absurd hnil hne⟩

theorem Sized.fits {m options n : Nat} {pkt : Bytes} (h : Sized pkt options n) (hm : m ≤ 1460)
    (hn : n = 0 ∨ options + n ≤ m) : FitsSegment m pkt := by
  obtain ⟨s, hd, hoff, hlen, htot⟩ := h
  refine ⟨s, hd, fun hne => ?_⟩
  have hpos := List.length_pos_iff.mpr hne
  rw [hoff, hlen, htot]
  omega

theorem Sized.oversized {m options n : Nat} {pkt : Bytes} (h : Sized pkt options n) (hn : n ≠ 0)
    (hm : m < options + n) : ¬ FitsSegment m pkt := by
  obtain ⟨s, hd, hoff, hlen, -⟩ := h
  rintro ⟨s', hd', hfit⟩
  obtain rfl : s = s' := Option.some.inj (hd.symm.trans hd')
  have hne : s.payload ≠ [] := by
    rw [← List.length_pos_iff]
    omega
  have hle := (hfit hne).1
  rw [hoff, hlen] at hle
  omega

namespace Host
open Connection

/-- The call cuts no segment that leaves too little room for its Timestamps option. -/
def CutsFit (c : Connection F) : Call → Prop
  | .pollTransmit now => c.state.Sending → c.tsEnabled = true → ¬ HeldBack c now →
      c.cutSize = 0 ∨ 12 + c.cutSize ≤ c.sendMss.toNat
  | .onTick now => c.tsEnabled = true → (c.reap now).PersistDue now → 0 < c.sendMss.toNat → 12 + 1 ≤ c.sendMss.toNat
  | _ => True

/-- Everything sent so far fits the segment size, which is final once data was sent. -/
structure Measured (h : Host F) : Prop where
  mss : h.conn.sendMss.toNat ≤ 1460
  fits : 0 < h.conn.sendMss.toNat → ∀ p ∈ h.emitted, FitsSegment h.conn.sendMss.toNat p
  waiting : h.conn.state = .synSent → ∀ p ∈ h.emitted, ∃ s, decode p = some s ∧ s.payload = []

theorem Measured.extend {h h' : Host F} {more : List Bytes} (hm : Measured h)
    (he : h'.emitted = h.emitted ++ more) (hmss : h'.conn.sendMss = h.conn.sendMss)
    (hstate : h'.conn.state = .synSent → h.conn.state = .synSent)
    (hmore : ∀ p ∈ more, p ∈ h.emitted ∨ (∃ s, decode p = some s ∧ s.payload = []) ∨
      (h.conn.state ≠ .synSent ∧ (0 < h.conn.sendMss.toNat → FitsSegment h.conn.sendMss.toNat p))) : Measured h' where
  mss := hmss ▸ hm.mss
  fits := by
    rw [hmss, he]
    intro hpos p hp
    rcases List.mem_append.mp hp with hp | hp
    · exact hm.fits hpos p hp
    · rcases hmore p hp with hold | hempty | ⟨-, hfit⟩
      · exact hm.fits hpos p hold
      · exact .empty hempty
      · exact hfit hpos
  waiting := by
    rw [he]
    intro hs p hp
    rcases List.mem_append.mp hp with hp | hp
    · exact hm.waiting (hstate hs) p hp
    · rcases hmore p hp with hold | hempty | ⟨hne, -⟩
      · exact hm.waiting (hstate hs) p hold
      · exact hempty
      · exact absurd (hstate hs) hne

theorem onSegment_repeats {h : Host F} {t : Trace} (hfol : Follows h t) (hst : Trace.Stream t) (seg : Segment)
    (now : U64) (rnd : U32) : ∃ more, (h.call (.onSegment seg now rnd)).emitted = h.emitted ++ more ∧
      ∀ p ∈ more, p ∈ h.emitted ∨ ∃ s, decode p = some s ∧ s.payload = [] := by
  obtain ⟨t', hsteps, hfol'⟩ := call_refines hfol (.onSegment seg now rnd)
  rw [← hfol.emitted, ← hfol'.emitted]
  have hrep : ∀ t', Trace.Steps (some seg) t t' → Trace.Repeats t t' ∧ Trace.Stream t' := by
    intro t' hs
    induction hs with
    | refl => exact ⟨.of_eq rfl, hst⟩
    | tail _ hstep ih => exact ⟨ih.1.trans (hstep.repeats ih.2 (.inl (Option.some_ne_none _))), hstep.stream ih.2⟩
  exact (hrep t' hsteps).1

theorem close_empty {c c' : Connection F} {now : U64} {fin : Bytes} (hc : c.close now = (c', some fin)) :
    ∃ s, decode fin = some s ∧ s.payload = [] := by
  have hfin : ∀ next, c.sendFin next now = (c', some fin) → ∃ s, decode fin = some s ∧ s.payload = [] := by
    intro next heq
    obtain ⟨s, hs⟩ := segment_carries { c with tsVal := now.setWidth 32 } c.send.nxt c.recv.nxt (FIN ||| ACK) []
    obtain rfl := Option.some.inj (congrArg Prod.snd heq)
    exact ⟨s, hs.decode, hs.payload⟩
  unfold close at hc
  split at hc
  · exact hfin _ hc
  · exact hfin _ hc
  · exact absurd (congrArg Prod.snd hc) (by simp)

/-- A packet with new data: what a poll cuts from the buffer, or the one byte
that probes a closed window. -/
inductive NewData (c : Connection F) (p : Bytes) : Call → Prop where
  | cut {now : U64} (sending : c.state.Sending) (free : ¬ HeldBack c now) (room : c.cutSize ≠ 0)
      (size : SizedWithin p c.stampBytes c.cutSize) : NewData c p (.pollTransmit now)
  | probe {now : U64} (due : (c.reap now).PersistDue now) (size : Sized p c.stampBytes 1) :
      NewData c p (.onTick now)

theorem NewData.open {c : Connection F} {p : Bytes} {x : Call} (h : NewData c p x) : c.state ≠ .synSent := by
  intro hs
  cases h with
  | cut sending => rcases sending with h | h <;> rw [hs] at h <;> cases h
  | @probe now due =>
      have hreap : (c.reap now).state = .synSent := by simp [reap, hs]
      rcases due.1 with h | h <;> rw [hreap] at h <;> cases h

theorem call_emits {h : Host F} {t : Trace} (hfol : Follows h t) (hst : Trace.Stream t) (x : Call) :
    ∃ more, (h.call x).emitted = h.emitted ++ more ∧ ∀ p ∈ more, p ∈ h.emitted ∨
      (∃ s, decode p = some s ∧ s.payload = []) ∨ NewData h.conn p x := by
  have hnone : ∃ more, h.emitted = h.emitted ++ more ∧ ∀ p ∈ more, p ∈ h.emitted ∨
      (∃ s, decode p = some s ∧ s.payload = []) ∨ NewData h.conn p x :=
    ⟨[], (List.append_nil _).symm, fun p hp => nomatch hp⟩
  cases x with
  | write | takeReceived | setNodelay | setKeepalive | useBbr => exact hnone
  | onSegment seg now rnd =>
      obtain ⟨more, he, hmore⟩ := onSegment_repeats hfol hst seg now rnd
      exact ⟨more, he, fun p hp => (hmore p hp).imp id .inl⟩
  | close now =>
      cases hc : h.conn.close now with
      | mk c' fin =>
          cases fin with
          | none =>
              simp only [Host.call, hc]
              exact hnone
          | some fin =>
              refine ⟨[fin], (call_close hc).2, fun p hp => ?_⟩
              rw [List.mem_singleton.mp hp]
              exact .inr (.inl (close_empty hc))
  | pollTransmit now =>
      refine ⟨_, rfl, fun p hp => ?_⟩
      rcases pollTransmit_sized h.conn now p hp with hold | ⟨hs, hfree, hne, hsz⟩
      · exact .inl (queued_emitted hfol hst hold)
      · exact .inr (.inr (.cut hs hfree hne hsz))
  | onTick now =>
      have hout := (onTick_sized h.conn now).1
      simp only [Host.call]
      generalize h.conn.onTick now = r at hout
      refine ⟨r.2, rfl, fun p hp => ?_⟩
      rcases hout p hp with hold | ⟨s, hd, -, hlen, -⟩ | ⟨hdue, hsz⟩
      · exact .inl (queued_emitted hfol hst hold)
      · exact .inr (.inl ⟨s, hd, List.eq_nil_of_length_eq_zero hlen⟩)
      · exact .inr (.inr (.probe hdue hsz))

theorem NewData.fits {c : Connection F} {p : Bytes} {x : Call} (h : NewData c p x) (hm : c.sendMss.toNat ≤ 1460)
    (hfit : CutsFit c x) (hpos : 0 < c.sendMss.toNat) : FitsSegment c.sendMss.toNat p := by
  cases h with
  | cut hs hfree hne hsz =>
      obtain ⟨n, hn, hsz⟩ := hsz
      refine hsz.fits hm (.inr ?_)
      have hcut : c.cutSize ≤ c.sendMss.toNat := by
        unfold cutSize
        omega
      unfold stampBytes
      cases hts : c.tsEnabled with
      | false => simpa using Nat.le_trans hn hcut
      | true =>
          have hroom := (hfit hs hts hfree).resolve_left hne
          simp only [if_true]
          omega
  | probe hdue hsz =>
      refine hsz.fits hm (.inr ?_)
      unfold stampBytes
      cases hts : c.tsEnabled with
      | false =>
          simp only [Bool.false_eq_true, if_false]
          omega
      | true =>
          have hroom := hfit hts hdue hpos
          simp only [if_true]
          omega

theorem umin_ourMss (m : U16) : (umin m ourMss).toNat ≤ 1460 := by
  unfold umin
  split
  · rename_i hle
    exact hle
  · exact Nat.le_refl _

theorem getD_mss {opts : TcpOptions} {m : U16} (hm : m.toNat ≤ 1460) :
    ((opts.mss.map (umin · ourMss)).getD m).toNat ≤ 1460 := by
  cases opts.mss with
  | none => exact hm
  | some m' => exact umin_ourMss m'

theorem Measured.segment {h : Host F} {t : Trace} (hm : Measured h) (hfol : Follows h t) (hst : Trace.Stream t)
    (seg : Segment) (now : U64) (rnd : U32) : Measured (h.call (.onSegment seg now rnd)) := by
  obtain ⟨more, he, hmore⟩ := onSegment_repeats hfol hst seg now rnd
  have hmss : ∀ {c' : Connection F}, c'.terms = h.conn.terms → c'.sendMss = h.conn.sendMss :=
    fun heq => congrArg (fun x => x.2.2.1) heq
  by_cases hs : h.conn.state = .synSent
  · have hempty : ∀ p ∈ (h.call (.onSegment seg now rnd)).emitted, ∃ s, decode p = some s ∧ s.payload = [] := by
      rw [he]
      intro p hp
      rcases List.mem_append.mp hp with hp | hp
      · exact hm.waiting hs p hp
      · exact (hmore p hp).elim (hm.waiting hs p) id
    refine ⟨?_, fun _ p hp => .empty (hempty p hp), fun _ => hempty⟩
    rcases onSegment_synSent hs seg now rnd with ⟨hterms, -⟩ | ⟨-, -, -, -, hterms⟩
    · exact (congrArg BitVec.toNat (hmss hterms)).trans_le hm.mss
    · have hopen : (h.conn.onSegment seg now rnd).1.sendMss =
          (seg.opts.mss.map (umin · ourMss)).getD h.conn.sendMss :=
        congrArg (fun x => x.2.2.1) hterms
      exact (congrArg BitVec.toNat hopen).trans_le (getD_mss hm.mss)
  · refine hm.extend he (hmss (congrArg Prod.fst (onSegment_charter hs seg now rnd))) call_synSent fun p hp => ?_
    exact (hmore p hp).imp id .inl

theorem Measured.call {h : Host F} {t : Trace} (hm : Measured h) (hfol : Follows h t) (hst : Trace.Stream t)
    {x : Call} (hfit : CutsFit h.conn x) : Measured (h.call x) := by
  by_cases hx : x.isLocal = true
  · obtain ⟨more, he, hmore⟩ := call_emits hfol hst x
    have hmss : (h.call x).conn.sendMss = h.conn.sendMss :=
      congrArg (fun terms => terms.2.2.1) (call_terms (.inr hx))
    refine hm.extend he hmss call_synSent fun p hp => ?_
    exact (hmore p hp).imp id (.imp id fun hnew => ⟨hnew.open, hnew.fits hm.mss hfit⟩)
  · cases x with
    | onSegment seg now rnd => exact hm.segment hfol hst seg now rnd
    | _ => exact absurd rfl hx

theorem Fresh.emitted_empty {h : Host F} (hf : Fresh h) :
    ∀ p ∈ h.emitted, ∃ s, decode p = some s ∧ s.payload = [] := by
  intro p hp
  obtain ⟨s, hd, hstamp⟩ := hf.stream.emitted p hp
  refine ⟨s, hd, ?_⟩
  by_contra hne
  obtain ⟨off, -, pre, post, hps, -⟩ := hstamp.data hne
  simp [start] at hps

theorem Fresh.measured {h : Host F} (hf : Fresh h) : Measured h := by
  have hempty := hf.emitted_empty
  refine ⟨?_, fun _ p hp => .empty (hempty p hp), fun _ => hempty⟩
  cases hf with
  | connect => exact Nat.le_refl _
  | accept ipSrc ipDst seg iss now rnd heq =>
      obtain ⟨⟨c, synack⟩, hr, rfl⟩ := Option.map_eq_some_iff.mp heq
      obtain ⟨rfl, -⟩ := acceptWithIssAt_eq hr
      exact getD_mss (Nat.le_refl _)
  | cookie localEnd remoteEnd peerIsn isn sendMss now rnd => exact umin_ourMss sendMss

theorem run_measured {h : Host F} {t : Trace} (hm : Measured h) (hfol : Follows h t) (hst : Trace.Stream t)
    {calls : List Call} (hfit : Throughout CutsFit h calls) : Measured (h.run calls) := by
  induction calls generalizing h t with
  | nil => exact hm
  | cons x calls ih =>
      obtain ⟨t', hsteps, hfol'⟩ := call_refines hfol x
      exact ih (hm.call hfol hst hfit.1) hfol' (hsteps.stream (hst.appCall x)) hfit.2

/-- Outside SACK recovery, a call that does not meet the condition sends an
oversized packet. -/
theorem CutsFit.converse {h : Host F} {x : Call} (hrec : (h.conn.sackOk && h.conn.cong.inRecovery) = false)
    (hno : ¬ CutsFit h.conn x) : ∃ p ∈ (h.call x).emitted, ¬ FitsSegment h.conn.sendMss.toNat p := by
  have hstamp : h.conn.tsEnabled = true → h.conn.stampBytes = 12 := fun hts => by simp [stampBytes, hts]
  cases x with
  | pollTransmit now =>
      simp only [CutsFit, Classical.not_imp, not_or, not_le] at hno
      obtain ⟨hs, hts, hfree, hne, hlt⟩ := hno
      obtain ⟨p, hp, hsz⟩ := pollTransmit_cuts hs hrec hfree hne
      rw [hstamp hts] at hsz
      exact ⟨p, List.mem_append_right _ hp, hsz.oversized hne hlt⟩
  | onTick now =>
      simp only [CutsFit, Classical.not_imp, not_le] at hno
      obtain ⟨hts, hdue, -, hlt⟩ := hno
      obtain ⟨p, hp, hsz⟩ := (onTick_sized h.conn now).2 hdue
      rw [hstamp hts] at hsz
      simp only [Host.call]
      generalize h.conn.onTick now = r at hp
      exact ⟨p, List.mem_append_right _ hp, hsz.oversized Nat.one_ne_zero hlt⟩
  | _ => exact absurd trivial hno

/-- Every packet fits the segment size in a run whose polls and ticks leave room
for the Timestamps option; a call that leaves none, outside SACK recovery, sends
one that does not fit. -/
theorem packets_fit_while_cuts_do {h : Host F} (hf : Fresh h) (calls : List Call)
    (hfit : Throughout CutsFit h calls) :
    let k := h.run calls
    (0 < k.conn.sendMss.toNat → ∀ p ∈ k.emitted, FitsSegment k.conn.sendMss.toNat p) ∧
    ∀ x, (k.conn.sackOk && k.conn.cong.inRecovery) = false → ¬ CutsFit k.conn x →
      ∃ p ∈ (k.call x).emitted, ¬ FitsSegment k.conn.sendMss.toNat p := by
  intro k
  have hm : Measured k := run_measured hf.measured hf.follows hf.stream hfit
  exact ⟨hm.fits, fun x hrec hno => CutsFit.converse hrec hno⟩

def stamped : Host Rat :=
  connect (Ipv4Addr.new 10#8 0#8 0#8 1#8, 4000#16) (Ipv4Addr.new 10#8 0#8 0#8 2#8, 80#16) 100#32 0#64 0#32

theorem stamped_fresh : Fresh stamped := .connect ..

/-- The SYN-ACK sets a segment size of 100 and answers the timestamps; then data is sent. -/
def stampedCalls (data : Bytes) : List Call :=
  [.onSegment ⟨⟨80#16, 4000#16, 500#32, 101#32, 36, SYN ||| ACK, 1024#16⟩, [],
      { mss := some 100#16, timestamps := some (7#32, 0#32) }⟩ 1#64 0#32, .write data, .pollTransmit 2#64]

/-- Fifty bytes leave room for the option. -/
theorem half_segment_fits :
    let k := stamped.run (stampedCalls (List.replicate 50 7#8))
    k.conn.sendMss.toNat = 100 ∧ k.emitted.length = 3 ∧ ∀ p ∈ k.emitted, FitsSegment 100 p := by
  intro k
  have hcuts : Throughout CutsFit stamped (stampedCalls (List.replicate 50 7#8)) := by
    refine ⟨trivial, trivial, fun _ _ _ => .inr ?_, trivial⟩
    decide +kernel
  obtain ⟨hfit, -⟩ := packets_fit_while_cuts_do stamped_fresh _ hcuts
  have hmss : k.conn.sendMss.toNat = 100 := by decide +kernel
  change 0 < k.conn.sendMss.toNat → ∀ p ∈ k.emitted, FitsSegment k.conn.sendMss.toNat p at hfit
  rw [hmss] at hfit
  exact ⟨hmss, by decide +kernel, hfit (by decide)⟩

/-- A full segment and the option together exceed the segment size. -/
theorem full_segment_with_timestamps_oversized :
    let k := stamped.run (stampedCalls (List.replicate 100 7#8))
    k.conn.sendMss.toNat = 100 ∧ ∃ p ∈ k.emitted, ∃ s, decode p = some s ∧ s.payload.length = 100 ∧
      s.th.dataOffset - 20 = 12 ∧ p.length = 152 ∧ ¬ FitsSegment 100 p := by
  intro k
  have hlast : (k.emitted.drop 2).map (fun p => ((decode p).map (fun s => (s.payload.length, s.th.dataOffset - 20)),
      p.length)) = [(some (100, 12), 152)] := by decide +kernel
  obtain ⟨p, hp, heq⟩ : ∃ p ∈ k.emitted.drop 2, ((decode p).map (fun s => (s.payload.length, s.th.dataOffset - 20)),
      p.length) = (some (100, 12), 152) := List.mem_map.mp (hlast ▸ List.mem_singleton_self _)
  obtain ⟨hseg, hlen⟩ := Prod.mk.inj heq
  obtain ⟨s, hd, hfields⟩ := Option.map_eq_some_iff.mp hseg
  obtain ⟨hpay, hoff⟩ := Prod.mk.inj hfields
  refine ⟨by decide +kernel, p, List.mem_of_mem_drop hp, s, hd, hpay, hoff, hlen, ?_⟩
  rintro ⟨s', hd', hfit⟩
  obtain rfl : s = s' := Option.some.inj (hd.symm.trans hd')
  have hle := (hfit (List.ne_nil_of_length_pos (by omega))).1
  omega

end Host
end TcpStack
