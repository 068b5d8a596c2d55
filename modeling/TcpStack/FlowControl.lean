import TcpStack.Pipe
import TcpStack.Guards

/-!
# Flow control

How far a poll sends past SND.UNA. The ordinary loop stops at the peer's
window. In SACK recovery the loop is held back by the pipe estimate alone,
which leaves out what the peer acknowledged selectively, so the right edge of
the new data is a matter of the scoreboard.
-/
namespace TcpStack
open Tcp TcpStack.Seq TcpStack.Circle

variable {F : Type} [F64 F]

/-- The queued data packets carry the sequence number of their entry. -/
def Labelled (queue : List Queued) : Prop :=
  ∀ q ∈ queue, ∀ seg, decode q.packet = some seg → seg.payload ≠ [] → seg.th.seq = q.startSeq

namespace Connection

/-- The segments a poll sends for the first time: those that were not queued before it. -/
def firstSent (c : Connection F) (now : U64) : List Segment :=
  ((c.pollTransmit now).2.filter (fun p => !c.retx.segments.any (fun s => s.packet == p))).filterMap decode

/-- Every first transmission of a poll ends within the peer's window. -/
def WithinWindow (c : Connection F) (now : U64) : Prop :=
  ∀ seg ∈ c.firstSent now,
    (seg.th.seq + BitVec.ofNat 32 seg.payload.length - c.send.una).toNat ≤ c.send.wnd.toNat

instance (c : Connection F) (now : U64) : Decidable (c.WithinWindow now) :=
  inferInstanceAs (Decidable (∀ seg ∈ c.firstSent now, _))

/-- The queued bytes that `room` has place for. -/
def bytesInto (c : Connection F) (room : Nat) : Nat :=
  if c.sendMss = 0#16 then 0 else min room c.sendBuf.length

/-- What SACK recovery adds to the pipe: up to the limit, over all that is not
selectively acknowledged. -/
def recoveryBytes (c : Connection F) : Nat :=
  c.bytesInto ((umin c.send.wnd c.cong.window).toNat - RetxQueue.unsacked c.retx.segments)

/-- In SACK recovery, the new data has room in the window above everything outstanding. -/
def Fits (c : Connection F) : Prop :=
  c.state.Sending → c.sackOk = true → c.cong.inRecovery = true →
    c.recoveryBytes = 0 ∨ c.flightSize.toNat + c.recoveryBytes ≤ c.send.wnd.toNat

instance (c : Connection F) : Decidable c.Fits := inferInstanceAs (Decidable (_ → _ → _ → _ ∨ _))

/-- The packet of a data segment over the sequence numbers of its entry. -/
def Labels (s : Unacked) (seg : Segment) : Prop :=
  decode s.packet = some seg ∧ seg.payload ≠ [] ∧ seg.th.seq = s.startSeq ∧
    s.endSeq = s.startSeq + BitVec.ofNat 32 seg.payload.length

/-- New data segments over the `n` sequence numbers from `nxt` on. -/
structure Laid (nxt : U32) (new : List Unacked) (n : Nat) : Prop where
  inside : ∀ s ∈ new, (∃ seg, Labels s seg) ∧ ∃ j k, j < k ∧ k ≤ n ∧
    s.startSeq = nxt + BitVec.ofNat 32 j ∧ s.endSeq = nxt + BitVec.ofNat 32 k
  last : 0 < n → ∃ s ∈ new, s.endSeq = nxt + BitVec.ofNat 32 n

theorem Laid.nil (nxt : U32) : Laid nxt [] 0 := ⟨fun _ hs => (nomatch hs), fun h => (nomatch h)⟩

theorem Laid.append {nxt : U32} {new₁ new₂ : List Unacked} {n m : Nat} (h₁ : Laid nxt new₁ n)
    (h₂ : Laid (nxt + BitVec.ofNat 32 n) new₂ m) : Laid nxt (new₁ ++ new₂) (n + m) := by
  constructor
  · intro s hs
    rcases List.mem_append.mp hs with hs | hs
    · obtain ⟨hl, j, k, hjk, hk, hstart, hend⟩ := h₁.inside s hs
      exact ⟨hl, j, k, hjk, by omega, hstart, hend⟩
    · obtain ⟨hl, j, k, hjk, hk, hstart, hend⟩ := h₂.inside s hs
      rw [BitVec.add_assoc, ← BitVec.ofNat_add] at hstart hend
      exact ⟨hl, n + j, n + k, by omega, by omega, hstart, hend⟩
  · intro hpos
    rcases Nat.eq_zero_or_pos m with rfl | hm
    · obtain ⟨s, hs, hend⟩ := h₁.last hpos
      exact ⟨s, List.mem_append_left _ hs, hend⟩
    · obtain ⟨s, hs, hend⟩ := h₂.last hm
      refine ⟨s, List.mem_append_right _ hs, ?_⟩
      rw [hend, BitVec.add_assoc, ← BitVec.ofNat_add]

/-- From `c` to `c'` the segments `new` went out, over the next `n` sequence numbers. -/
structure Extends (c c' : Connection F) (out : List Bytes) (new : List Unacked) (n : Nat) : Prop where
  packets : out = new.map Unacked.packet
  nxt : c'.send.nxt = c.send.nxt + BitVec.ofNat 32 n
  buffer : c'.sendBuf = c.sendBuf.drop n
  le : n ≤ c.sendBuf.length
  laid : Laid c.send.nxt new n

theorem Extends.refl (c : Connection F) : Extends c c [] [] 0 :=
  ⟨rfl, (BitVec.add_zero _).symm, rfl, Nat.zero_le _, .nil _⟩

theorem Extends.trans {c c₁ c₂ : Connection F} {out₁ out₂ : List Bytes} {new₁ new₂ : List Unacked}
    {n m : Nat} (h₁ : Extends c c₁ out₁ new₁ n) (h₂ : Extends c₁ c₂ out₂ new₂ m) :
    Extends c c₂ (out₁ ++ out₂) (new₁ ++ new₂) (n + m) where
  packets := by rw [h₁.packets, h₂.packets, List.map_append]
  nxt := by rw [h₂.nxt, h₁.nxt, BitVec.add_assoc, ← BitVec.ofNat_add]
  buffer := by rw [h₂.buffer, h₁.buffer, List.drop_drop]
  le := by
    have hle := h₂.le
    rw [h₁.buffer, List.length_drop] at hle
    have hle₁ := h₁.le
    omega
  laid := h₁.laid.append (h₁.nxt ▸ h₂.laid)

theorem Extends.start {c d c' : Connection F} {out : List Bytes} {new : List Unacked} {n : Nat}
    (h : Extends d c' out new n) (hn : d.send.nxt = c.send.nxt) (hb : d.sendBuf = c.sendBuf) :
    Extends c c' out new n :=
  ⟨h.packets, hn ▸ h.nxt, hb ▸ h.buffer, hb ▸ h.le, hn ▸ h.laid⟩

theorem transmit_extends (c : Connection F) {n : Nat} (hn : 0 < n) (hle : n ≤ c.sendBuf.length) (now : U64) :
    ∃ s, Extends c (c.transmit n (PSH ||| ACK) now).1 [(c.transmit n (PSH ||| ACK) now).2] [s] n := by
  obtain ⟨seg, hc⟩ := segment_carries { c with sendBuf := c.sendBuf.drop n } c.send.nxt c.recv.nxt
    (PSH ||| ACK) (c.sendBuf.take n)
  have hlen : seg.payload.length = n := by
    rw [hc.payload, List.length_take]
    omega
  refine ⟨⟨c.send.nxt, c.send.nxt + BitVec.ofNat 32 n, (c.transmit n (PSH ||| ACK) now).2, now, 0#32, false⟩,
    rfl, rfl, rfl, hle, fun s hs => ?_, fun _ => ⟨_, List.mem_singleton_self _, rfl⟩⟩
  rw [List.mem_singleton] at hs
  subst hs
  refine ⟨⟨seg, hc.decode, ?_, hc.seq, ?_⟩, 0, n, hn, le_rfl, (BitVec.add_zero _).symm, rfl⟩
  · rw [← List.length_pos_iff, hlen]
    exact hn
  · rw [hlen]

theorem transmit_covers {c : Connection F} {u v n : Nat}
    (hcov : Covers c.send.iss u (c.retx.segments.map Unacked.queued) v) (hnxt : c.send.nxt = point c.send.iss v)
    (hn : 0 < n) (hnear : v - u + n < 2 ^ 31) (flags : U8) (now : U64) :
    Covers c.send.iss u ((c.transmit n flags now).1.retx.segments.map Unacked.queued) (v + n) ∧
      (c.transmit n flags now).1.retx.pipe dupThresh = c.retx.pipe dupThresh + BitVec.ofNat 32 n := by
  have hstart : c.send.nxt + BitVec.ofNat 32 n - BitVec.ofNat 32 n = c.send.nxt := BitVec.add_sub_cancel _ _
  have hlen : c.send.nxt + BitVec.ofNat 32 n - c.send.nxt = BitVec.ofNat 32 n := by
    rw [BitVec.add_comm, BitVec.add_sub_cancel]
  simp only [transmit, launch, hstart]
  constructor
  · rw [RetxQueue.record, List.map_append]
    refine hcov.snoc ⟨by omega, by omega, hnxt, ?_⟩
    rw [← point_add, ← hnxt]
    rfl
  · have hlost := fun pkt => hcov.isLost_end (by omega) (show (⟨c.send.nxt, c.send.nxt + BitVec.ofNat 32 n,
      pkt, now, 0#32, false⟩ : Unacked).startSeq = point c.send.iss v from hnxt)
    rw [RetxQueue.pipe_record, hlost, if_neg Bool.false_ne_true, hlen]

theorem bytesInto_zero (c : Connection F) : c.bytesInto 0 = 0 := by
  rw [bytesInto, Nat.zero_min, ite_self]

theorem bytesInto_nil {c : Connection F} (h : c.sendBuf.length = 0) (room : Nat) : c.bytesInto room = 0 := by
  rw [bytesInto, h, Nat.min_zero, ite_self]

theorem fillPipe_extends (limit : U32) (now : U64) (fuel : Nat) : ∀ (c : Connection F) (u v : Nat),
    Covers c.send.iss u (c.retx.segments.map Unacked.queued) v → c.send.nxt = point c.send.iss v →
    v - u + (limit.toNat - (c.retx.pipe dupThresh).toNat) < 2 ^ 31 → c.sendBuf.length ≤ fuel →
    ∃ new, Extends c (fillPipe limit now fuel c).1 (fillPipe limit now fuel c).2 new
      (c.bytesInto (limit.toNat - (c.retx.pipe dupThresh).toNat)) := by
  induction fuel with
  | zero =>
      intro c u v _ _ _ hfuel
      rw [bytesInto_nil (by omega)]
      exact ⟨[], .refl c⟩
  | succ fuel ih =>
      intro c u v hcov hnxt hnear hfuel
      unfold fillPipe
      by_cases hempty : c.sendBuf.isEmpty
      · rw [if_pos hempty, bytesInto_nil (by rw [List.isEmpty_iff.mp hempty, List.length_nil])]
        exact ⟨[], .refl c⟩
      rw [if_neg hempty]
      dsimp only
      by_cases hfull : c.retx.pipe dupThresh ≥ limit
      · rw [if_pos hfull, Nat.sub_eq_zero_of_le hfull, bytesInto_zero]
        exact ⟨[], .refl c⟩
      have hroom : (c.retx.pipe dupThresh).toNat < limit.toNat := BitVec.not_le.mp hfull
      rw [if_neg hfull, BitVec.toNat_sub_of_le (Nat.le_of_lt hroom)]
      generalize hm : min (min (limit.toNat - (c.retx.pipe dupThresh).toNat) c.sendMss.toNat)
        c.sendBuf.length = n
      have hpos : 0 < c.sendBuf.length := by
        rw [List.length_pos_iff]
        simpa using hempty
      by_cases hn : n = 0
      · have hmss : c.sendMss = 0#16 := BitVec.eq_of_toNat_eq (by rw [BitVec.toNat_zero]; omega)
        rw [if_pos hn, bytesInto, if_pos hmss]
        exact ⟨[], .refl c⟩
      have hmss : c.sendMss ≠ 0#16 := by
        intro heq
        rw [heq, BitVec.toNat_zero] at hm
        omega
      have hlim := limit.isLt
      obtain ⟨s, hone⟩ := c.transmit_extends (Nat.pos_of_ne_zero hn) (by omega : n ≤ c.sendBuf.length) now
      obtain ⟨hcov', hpipe⟩ :=
        transmit_covers hcov hnxt (Nat.pos_of_ne_zero hn) (by omega) (PSH ||| ACK) now
      have hpipe' : ((c.transmit n (PSH ||| ACK) now).1.retx.pipe dupThresh).toNat =
          (c.retx.pipe dupThresh).toNat + n := by
        rw [hpipe, BitVec.toNat_add, BitVec.toNat_ofNat, Nat.mod_eq_of_lt (by omega : n < 2 ^ 32),
          Nat.mod_eq_of_lt (by omega)]
      obtain ⟨new, hrest⟩ := ih (c.transmit n (PSH ||| ACK) now).1 u (v + n) hcov'
        (by rw [hone.nxt, hnxt, point_add]; rfl) (by rw [hpipe']; omega)
        (by rw [hone.buffer, List.length_drop]; omega)
      have hsum : c.bytesInto (limit.toNat - (c.retx.pipe dupThresh).toNat) =
          n + (c.transmit n (PSH ||| ACK) now).1.bytesInto
            (limit.toNat - ((c.transmit n (PSH ||| ACK) now).1.retx.pipe dupThresh).toNat) := by
        rw [hpipe', bytesInto, bytesInto, hone.buffer, List.length_drop, if_neg hmss,
          if_neg (show (c.transmit n (PSH ||| ACK) now).1.sendMss ≠ 0#16 from hmss)]
        omega
      rw [if_neg hn, hsum]
      exact ⟨_, hone.trans hrest⟩

theorem usableWindow_le (c : Connection F) :
    c.usableWindow.toNat ≤ c.send.wnd.toNat - c.flightSize.toNat := by
  have hmin : (umin c.send.wnd c.cong.window).toNat ≤ c.send.wnd.toNat := umin_le_left _ _
  unfold usableWindow saturatingSub
  split
  · exact Nat.zero_le _
  · rename_i h
    have hlt : c.flightSize.toNat < (umin c.send.wnd c.cong.window).toNat := BitVec.not_le.mp h
    rw [BitVec.toNat_sub_of_le (Nat.le_of_lt hlt)]
    omega

theorem drain_extends (pacing : F) (now : U64) (fuel : Nat) : ∀ c : Connection F, ∃ new n,
    Extends c (drain pacing now fuel c).1 (drain pacing now fuel c).2 new n ∧
      (n = 0 ∨ c.flightSize.toNat + n ≤ c.send.wnd.toNat) := by
  induction fuel with
  | zero => exact fun c => ⟨[], 0, .refl c, .inl rfl⟩
  | succ fuel ih =>
      intro c
      simp only [drain]
      have husable := c.usableWindow_le
      generalize hm : min (min c.usableWindow.toNat c.sendMss.toNat) c.sendBuf.length = n
      split_ifs with hempty hn hnagle
      · exact ⟨[], 0, .refl c, .inl rfl⟩
      · exact ⟨[], 0, .refl c, .inl rfl⟩
      · exact ⟨[], 0, .refl c, .inl rfl⟩
      · cases hp : c.pace pacing n now with
        | none => exact ⟨[], 0, .refl c, .inl rfl⟩
        | some d =>
            obtain ⟨hsend, hbuf⟩ : d.send = c.send ∧ d.sendBuf = c.sendBuf := by
              unfold pace at hp
              split_ifs at hp <;> cases hp <;> exact ⟨rfl, rfl⟩
            obtain ⟨s, hone⟩ := d.transmit_extends (Nat.pos_of_ne_zero hn)
              (by rw [hbuf]; omega : n ≤ d.sendBuf.length) now
            have hone' := hone.start (c := c) (by rw [hsend]) hbuf
            obtain ⟨new, m, hrest, hfit⟩ := ih (d.transmit n (PSH ||| ACK) now).1
            refine ⟨_, n + m, hone'.trans hrest, .inr ?_⟩
            have hwnd := c.send.wnd.isLt
            have huna : (d.transmit n (PSH ||| ACK) now).1.send.una = c.send.una := by
              change d.send.una = c.send.una
              rw [hsend]
            have hsame : (d.transmit n (PSH ||| ACK) now).1.send.wnd = c.send.wnd := by
              change d.send.wnd = c.send.wnd
              rw [hsend]
            have hflight : (d.transmit n (PSH ||| ACK) now).1.flightSize.toNat = c.flightSize.toNat + n := by
              have heq : (d.transmit n (PSH ||| ACK) now).1.flightSize = c.flightSize + BitVec.ofNat 32 n := by
                rw [flightSize, hone'.nxt, huna, flightSize, BitVec.add_sub_comm]
              rw [heq, BitVec.toNat_add, BitVec.toNat_ofNat, Nat.mod_eq_of_lt (by omega : n < 2 ^ 32),
                Nat.mod_eq_of_lt (by omega)]
            rw [hflight, hsame] at hfit
            omega

/-- What a poll puts on the wire: segments sent again, and new ones over `n` sequence numbers. -/
structure Polled (c : Connection F) (now : U64) (n : Nat) : Prop where
  packets : ∃ resent new, Laid c.send.nxt new n ∧ (∀ p ∈ resent, ∃ s ∈ c.retx.segments, s.packet = p) ∧
    (c.pollTransmit now).2 = resent ++ new.map Unacked.packet
  buffer : (c.pollTransmit now).1.sendBuf = c.sendBuf.drop n
  le : n ≤ c.sendBuf.length
  fits : (n = 0 ∨ c.flightSize.toNat + n ≤ c.send.wnd.toNat) ↔ c.Fits

theorem polled_idle {c : Connection F} (h : ¬ c.state.Sending) (now : U64) : Polled c now 0 := by
  have hidle : c.pollTransmit now = (c, []) := by
    rw [State.Sending, not_or] at h
    simp [pollTransmit, h]
  refine ⟨⟨[], [], .nil _, fun _ hp => (List.not_mem_nil hp).elim, ?_⟩, ?_, Nat.zero_le _, fun _ hs =>
    absurd hs h, fun _ => .inl rfl⟩
  · rw [hidle]
    rfl
  · rw [hidle]
    rfl

theorem armProbe_sendBuf (c : Connection F) (now : U64) : (c.armProbe now).sendBuf = c.sendBuf := by
  unfold armProbe
  split_ifs <;> rfl

theorem polled_ordinary {c : Connection F} (hs : c.state.Sending)
    (hrec : (c.sackOk && c.cong.inRecovery) = false) (now : U64) : ∃ n, Polled c now n ∧
      (n = 0 ∨ c.flightSize.toNat + n ≤ c.send.wnd.toNat) := by
  obtain ⟨new, n, hext, hfit⟩ := drain_extends c.cong.pacingRateBps now c.sendBuf.length
    { c with tsVal := now.setWidth 32 }
  have hpoll : c.pollTransmit now =
      ((drain c.cong.pacingRateBps now c.sendBuf.length { c with tsVal := now.setWidth 32 }).1.armProbe now,
        (drain c.cong.pacingRateBps now c.sendBuf.length { c with tsVal := now.setWidth 32 }).2) := by
    unfold pollTransmit
    rw [if_neg (by rw [not_and_or, not_not, not_not]; exact hs)]
    dsimp only
    rw [if_neg (by rw [hrec]; exact Bool.false_ne_true)]
  have hclear : c.Fits := by
    intro _ hok hin
    rw [hok, hin] at hrec
    cases hrec
  refine ⟨n, ⟨⟨[], new, hext.laid, fun _ hp => (nomatch hp), ?_⟩, ?_, hext.le, fun _ => hclear,
    fun _ => hfit⟩, hfit⟩
  · rw [hpoll]
    exact hext.packets
  · rw [hpoll, armProbe_sendBuf]
    exact hext.buffer

/-- In SACK recovery the new bytes are those the limit leaves over what is not
selectively acknowledged. -/
theorem polled_recovery {c : Connection F} {u v : Nat} (hs : c.state.Sending) (hok : c.sackOk = true)
    (hin : c.cong.inRecovery = true) (hcov : Covers c.send.iss u (c.retx.segments.map Unacked.queued) v)
    (hnxt : c.send.nxt = point c.send.iss v) (hnear : v - u + c.send.wnd.toNat < 2 ^ 31) (now : U64) :
    Polled c now c.recoveryBytes ∧ c.recoveryBytes ≤ c.send.wnd.toNat := by
  have hlimit : (umin c.send.wnd c.cong.window).toNat ≤ c.send.wnd.toNat := umin_le_left _ _
  generalize hl : umin c.send.wnd c.cong.window = limit at hlimit
  have honce : RetxQueue.once c.retx.segments ≤ c.retx.segments.length := List.length_filter_le _ _
  obtain ⟨hq, hroom⟩ := retransmitHoles_room limit now honce (hcov.total_lt (by omega))
  have hholes := retransmitHoles_packets limit now c.retx.segments.length c
  have hpoll : c.pollTransmit now = recoverSack { c with tsVal := now.setWidth 32 } now := by
    unfold pollTransmit
    rw [if_neg (by rw [not_and_or, not_not, not_not]; exact hs)]
    dsimp only
    rw [if_pos (by rw [hok, hin]; rfl)]
  simp only [recoverSack, hl] at hpoll
  generalize retransmitHoles limit now c.retx.segments.length c.retx = r at hq hroom hholes hpoll
  obtain ⟨q, holes⟩ := r
  have hbytes : c.recoveryBytes = c.bytesInto (limit.toNat - (q.pipe dupThresh).toNat) := by
    rw [recoveryBytes, hl, hroom]
  obtain ⟨new, hext⟩ := fillPipe_extends limit now c.sendBuf.length
    { c with tsVal := now.setWidth 32, retx := q } u v (by rw [← hq] at hcov; exact hcov) hnxt
    (by dsimp only; omega) le_rfl
  change Extends _ _ _ new (c.bytesInto (limit.toNat - (q.pipe dupThresh).toNat)) at hext
  rw [← hbytes] at hext
  refine ⟨⟨⟨holes, new, hext.laid, hholes, ?_⟩, ?_, hext.le, fun h _ _ _ => h,
    fun h => h hs hok hin⟩, ?_⟩
  · rw [hpoll, ← hext.packets]
  · rw [hpoll]
    exact hext.buffer
  · rw [recoveryBytes, hl, bytesInto]
    split
    · exact Nat.zero_le _
    · omega

theorem Polled.within_iff {c : Connection F} {now : U64} {n u v : Nat} (h : Polled c now n)
    (hl : Labelled (c.retx.segments.map Unacked.queued))
    (hcov : 0 < n → Covers c.send.iss u (c.retx.segments.map Unacked.queued) v)
    (huna : c.send.una = point c.send.iss u) (hnxt : c.send.nxt = point c.send.iss v) (hle : u ≤ v)
    (hnear : v - u + n < 2 ^ 31) :
    c.WithinWindow now ↔ c.Fits := by
  obtain ⟨resent, new, hlaid, hold, hout⟩ := h.packets
  have hflight : c.flightSize.toNat = v - u := by
    rw [flightSize, huna, hnxt, point_sub_point _ hle, Nat.mod_eq_of_lt (by omega)]
  -- how far above SND.UNA the first `k` new bytes end
  have hdist : ∀ k ≤ n, (c.send.nxt + BitVec.ofNat 32 k - c.send.una).toNat = v - u + k := by
    intro k hk
    rw [hnxt, huna, point_add, point_sub_point _ (by omega), Nat.mod_eq_of_lt (by omega)]
    omega
  rw [← h.fits, hflight]
  constructor
  · intro hw
    rcases Nat.eq_zero_or_pos n with rfl | hpos
    · exact .inl rfl
    obtain ⟨s, hs, hend⟩ := hlaid.last hpos
    obtain ⟨⟨seg, hdec, hne, hseq, hlen⟩, j, k, hjk, hkn, hstart, -⟩ := hlaid.inside s hs
    have hfresh : c.retx.segments.any (fun r => r.packet == s.packet) = false := by
      rw [List.any_eq_false]
      intro r hr hsame
      rw [beq_iff_eq] at hsame
      have hmem := List.mem_map_of_mem (f := Unacked.queued) hr
      have hr' : seg.th.seq = r.startSeq := hl _ hmem seg (by rw [← hdec, ← hsame]; rfl) hne
      obtain ⟨a, e, hspan, hue, hev⟩ := (hcov hpos).spans hmem
      have hshort := hspan.short
      have hlt := hspan.pos
      have heq : point c.send.iss a = point c.send.iss (v + j) := by
        rw [← point_add, ← hnxt, ← hstart, ← hseq, hr']
        exact hspan.startSeq.symm
      have := point_inj_near (by omega) (by omega) heq
      omega
    have hmem : seg ∈ c.firstSent now := by
      refine List.mem_filterMap.mpr ⟨s.packet, List.mem_filter.mpr ⟨?_, by simpa using hfresh⟩, hdec⟩
      rw [hout]
      exact List.mem_append_right _ (List.mem_map_of_mem hs)
    have hin := hw seg hmem
    rw [hseq, ← hlen, hend, hdist n le_rfl] at hin
    exact .inr hin
  · intro hfit seg hseg
    obtain ⟨p, hp, hdec⟩ := List.mem_filterMap.mp hseg
    obtain ⟨hp, hfresh⟩ := List.mem_filter.mp hp
    rw [hout] at hp
    rcases List.mem_append.mp hp with hp | hp
    · obtain ⟨r, hr, hpkt⟩ := hold p hp
      have hany : c.retx.segments.any (fun s => s.packet == p) = true :=
        List.any_eq_true.mpr ⟨r, hr, by rw [hpkt, beq_self_eq_true]⟩
      rw [hany] at hfresh
      cases hfresh
    · obtain ⟨s, hs, rfl⟩ := List.mem_map.mp hp
      obtain ⟨⟨seg', hdec', -, hseq, hlen⟩, j, k, hjk, hkn, -, hend⟩ := hlaid.inside s hs
      obtain rfl : seg' = seg := Option.some.inj (hdec'.symm.trans hdec)
      rw [hseq, ← hlen, hend, hdist k hkn]
      omega

theorem onTick_spends (c : Connection F) (now : U64) :
    (c.onTick now).1.sendBuf = c.sendBuf ∨
      (c.flightSize = 0#32 ∧ (c.onTick now).1.sendBuf = c.sendBuf.drop 1) := by
  have hpersist : ∀ d : Connection F, (d.tickPersist now).1.sendBuf = d.sendBuf ∨
      (d.flightSize = 0#32 ∧ (d.tickPersist now).1.sendBuf = d.sendBuf.drop 1) := by
    intro d
    simp only [tickPersist]
    split_ifs with hshut
    · exact .inl rfl
    · exact .inr ⟨hshut.2.2.2, rfl⟩
    · exact .inl rfl
    · exact .inl rfl
  have hkeep : ∀ d : Connection F, (d.tickKeepalive now).1.sendBuf = d.sendBuf := by
    intro d
    simp only [tickKeepalive]
    split_ifs <;> rfl
  simp only [onTick]
  rw [hkeep]
  obtain ⟨st, hreap⟩ := reap_eq { c with tsVal := now.setWidth 32 } now
  rw [hreap]
  obtain ⟨retx, rtt, cong, deadline, sent, htimers⟩ :=
    timers_eq { { c with tsVal := now.setWidth 32 } with state := st } now
  rw [htimers]
  exact hpersist _

end Connection

theorem Labelled.subset {queue queue' : List Queued} (h : Labelled queue)
    (hsub : ∀ q ∈ queue', ∃ r ∈ queue, r.packet = q.packet ∧ r.startSeq = q.startSeq) : Labelled queue' := by
  intro q hq seg hdec hne
  obtain ⟨r, hr, hpkt, hseq⟩ := hsub q hq
  rw [← hseq]
  exact h r hr seg (hpkt ▸ hdec) hne

theorem Labelled.snoc {queue : List Queued} (h : Labelled queue) {q : Queued} {seg : Segment}
    (hdec : decode q.packet = some seg) (hseq : seg.payload ≠ [] → seg.th.seq = q.startSeq) :
    Labelled (queue ++ [q]) := by
  intro r hr seg' hdec' hne
  rcases List.mem_append.mp hr with hr | hr
  · exact h r hr seg' hdec' hne
  · rw [List.mem_singleton] at hr
    subst hr
    obtain rfl : seg = seg' := Option.some.inj (hdec.symm.trans hdec')
    exact hseq hne

namespace Trace

theorem Step.labelled {inp : Option Segment} {t t' : Trace} (hstep : Step inp t t') (h : Labelled t.queue) :
    Labelled t'.queue := by
  cases hstep with
  | data _ _ _ _ _ hc => exact h.snoc hc.decode fun _ => hc.seq
  | fin _ _ hc => exact h.snoc hc.decode fun _ => hc.seq
  | ackNew | finAcked | openActive | openPassive =>
      exact h.subset fun q hq => ⟨q, (List.mem_filter.mp hq).1, rfl, rfl⟩
  | mark =>
      refine h.subset fun q hq => ?_
      obtain ⟨r, hr, rfl⟩ := List.mem_map.mp hq
      exact ⟨r, hr, rfl, rfl⟩
  | ack | resend | deliver | pendFin | takePending | takeFin | die => exact h

theorem appCall_queue (t : Trace) (x : Call) : (t.appCall x).queue = t.queue := by
  cases x <;> rfl

end Trace

namespace Host
open Trace Connection

/-- A host whose flight is small: no more data is outstanding than a window can hold. -/
structure Paced (h : Host F) (t : Trace) : Prop where
  follows : Follows h t
  stream : Stream t
  outstanding : Outstanding t
  labelled : Labelled t.queue
  guarded : Guarded h.conn
  ahead : 1 + t.sent.length ≤ t.unaPos + 2 ^ 30

theorem Paced.near {h : Host F} {t : Trace} (hp : Paced h t) : t.nxtPos - t.unaPos ≤ 2 ^ 30 + 1 := by
  have ha := hp.ahead
  have hn := t.nxtPos_le
  omega

theorem Paced.flight {h : Host F} {t : Trace} (hp : Paced h t) :
    h.conn.flightSize.toNat = t.nxtPos - t.unaPos := by
  have hn := hp.near
  exact flightSize_eq hp.follows hp.stream hp.outstanding (by omega)

theorem Paced.window {h : Host F} {t : Trace} (hp : Paced h t) : h.conn.send.wnd.toNat < 2 ^ 30 :=
  Nat.lt_of_le_of_lt hp.guarded.wnd hp.guarded.small

theorem Paced.poll {h : Host F} {t : Trace} (hp : Paced h t) (now : U64) :
    ∃ n, Polled h.conn now n ∧ (h.conn.WithinWindow now ↔ h.conn.Fits) := by
  have hnear := hp.near
  have hw := hp.window
  have hflight := hp.flight
  have hle := hp.outstanding.le
  have hlive := hp.outstanding.live
  have huna := hp.outstanding.una
  have hnxt := hp.stream.nxt
  have hl := hp.labelled
  have hcore := hp.follows.core
  have hopen : h.conn.state.Sending → t.nxtPos ≤ t.unaPos + 2 ^ 30 := by
    intro hs
    have hstate : t.state = h.conn.state := congrArg Core.state hcore
    rw [nxtPos_open (hp.stream.opened (hstate ▸ hs).preFin)]
    exact hp.ahead
  generalize t.nxtPos = v at *
  generalize t.unaPos = u at *
  rw [hcore] at huna hnxt hlive hl
  by_cases hs : h.conn.state.Sending
  · have hcov : Covers h.conn.send.iss u (h.conn.retx.segments.map Unacked.queued) v := hlive hs.live
    have hdata := hopen hs
    cases hrec : h.conn.sackOk && h.conn.cong.inRecovery with
    | false =>
        obtain ⟨n, hpoll, hfit⟩ := polled_ordinary hs hrec now
        exact ⟨n, hpoll, hpoll.within_iff hl (fun _ => hcov) huna hnxt hle (by omega)⟩
    | true =>
        obtain ⟨hok, hin⟩ := Bool.and_eq_true_iff.mp hrec
        obtain ⟨hpoll, hfew⟩ := polled_recovery hs hok hin hcov hnxt (by omega) now
        exact ⟨_, hpoll, hpoll.within_iff hl (fun _ => hcov) huna hnxt hle (by omega)⟩
  · have hpoll := polled_idle hs now
    exact ⟨0, hpoll, hpoll.within_iff hl (fun h => nomatch h) huna hnxt hle (by omega)⟩

theorem Paced.spends {h : Host F} {t : Trace} (hp : Paced h t) {x : Call}
    (hfits : ∀ now, x = .pollTransmit now → h.conn.Fits) :
    h.consumes x = 0 ∨ h.conn.flightSize.toNat + h.consumes x ≤ 2 ^ 30 ∨ ∃ now, x = .close now := by
  cases x with
  | write | takeReceived | setNodelay | setKeepalive | useBbr | onSegment => exact .inl rfl
  | close now => exact .inr (.inr ⟨now, rfl⟩)
  | pollTransmit now =>
      obtain ⟨n, hpoll, -⟩ := hp.poll now
      have hw := hp.window
      have hfit := hpoll.fits.mpr (hfits now rfl)
      have hle := hpoll.le
      have hsame : h.consumes (.pollTransmit now) = n := by
        rw [consumes, hpoll.buffer, List.length_drop]
        omega
      omega
  | onTick now =>
      rcases h.conn.onTick_spends now with heq | ⟨hflight, heq⟩
      · rw [consumes, heq]
        exact .inl (Nat.sub_self _)
      · rw [consumes, heq, hflight, List.length_drop, BitVec.toNat_zero]
        omega

theorem sent_call {h : Host F} {t t' : Trace} {x : Call} (hf : Follows h t) (hf' : Follows (h.call x) t')
    (hs : Stream t) (hs' : Stream t') (hsteps : Steps (input x) (t.appCall x) t') :
    t'.sent.length ≤ t.sent.length + h.consumes x ∧
      ((∃ now, x = .close now) → t'.sent.length ≤ t.sent.length) := by
  have hn := nxtPos_call hf hf' hs hs' hsteps
  have hl := hs.lengths
  have hl' := hs'.lengths
  have hbuf : t.sendBuf = h.conn.sendBuf := hf.sendBuf
  have hbuf' : t'.sendBuf = (h.call x).conn.sendBuf := hf'.sendBuf
  rw [hf.written, hbuf] at hl
  rw [hf'.written, hbuf'] at hl'
  rw [nxtPos, nxtPos, hf.closing, hf'.closing] at hn
  cases x with
  | write | takeReceived | setNodelay | setKeepalive | useBbr | onSegment | pollTransmit | onTick =>
      constructor
      · simp only [Host.call] at hn
        omega
      · rintro ⟨_, heq⟩
        cases heq
  | close now =>
      have hkept : (h.call (.close now)).written = h.written ∧
          (h.call (.close now)).conn.sendBuf = h.conn.sendBuf := by
        have hc : (h.conn.close now).1.sendBuf = h.conn.sendBuf := by
          unfold Connection.close
          split <;> rfl
        simp only [Host.call]
        generalize h.conn.close now = r at hc
        obtain ⟨c, _ | fin⟩ := r <;> exact ⟨rfl, hc⟩
      rw [hkept.1, hkept.2] at hl'
      exact ⟨by omega, fun _ => by omega⟩

theorem Paced.call {h : Host F} {t : Trace} (hp : Paced h t) {x : Call}
    (hfits : ∀ now, x = .pollTransmit now → h.conn.Fits) : ∃ t', Paced (h.call x) t' := by
  have hnear := hp.near
  have hflight := hp.flight
  have hle := hp.outstanding.le
  have hspent := hp.spends hfits
  have hclose : (∃ now, x = .close now) → h.consumes x ≤ 1 := by
    rintro ⟨now, rfl⟩
    exact Bool.toNat_le _
  have hdata : 1 + t.sent.length ≤ t.nxtPos := by
    unfold nxtPos
    omega
  have hbound : h.conn.flightSize.toNat + h.consumes x < 2 ^ 31 := by
    rcases hspent with hz | hfit | hx
    · omega
    · omega
    · have hone := hclose hx
      omega
  obtain ⟨t', hsteps, hf', hs', ho', -, -⟩ :=
    call_outstanding hp.follows hp.stream hp.outstanding (by omega) hbound
  refine ⟨t', hf', hs', ho', ?_, call_guarded hp.guarded x, ?_⟩
  · refine hsteps.preserves (fun _ _ hstep => hstep.labelled) ?_
    rw [appCall_queue]
    exact hp.labelled
  · have hmono := hsteps.unaPos_le
    rw [show (t.appCall x).unaPos = t.unaPos by cases x <;> rfl] at hmono
    have ha := hp.ahead
    obtain ⟨hsent, hfin⟩ := sent_call hp.follows hf' hp.stream hs' hsteps
    rcases hspent with hz | hfit | hx
    · omega
    · omega
    · have := hfin hx
      omega

theorem Fresh.labelled {h : Host F} (hf : Fresh h) : Labelled h.start.queue := by
  intro q hq seg hdec hne
  obtain ⟨s, hd, hst⟩ := hf.stream.emitted _ (hf.stream.queued q hq)
  obtain rfl : s = seg := Option.some.inj (hd.symm.trans hdec)
  obtain ⟨off, -, pre, post, heq, -⟩ := hst.data hne
  simp [start] at heq

theorem Fresh.paced {h : Host F} (hf : Fresh h) : Paced h h.start := by
  refine ⟨hf.follows, hf.stream, hf.outstanding, hf.labelled, hf.guarded, ?_⟩
  have hzero : h.start.sent.length = 0 := rfl
  omega

/-- Every poll of the run finds a state in which its new data fits. -/
def PollsFit (h : Host F) (calls : List Call) : Prop :=
  ∀ pre now post, calls = pre ++ .pollTransmit now :: post → (h.run pre).conn.Fits

theorem pollsFit_cons {h : Host F} {x : Call} {calls : List Call} :
    PollsFit h (x :: calls) ↔ (∀ now, x = .pollTransmit now → h.conn.Fits) ∧ PollsFit (h.call x) calls := by
  constructor
  · intro hb
    constructor
    · rintro now rfl
      exact hb [] now calls rfl
    · intro pre now post heq
      exact hb (x :: pre) now post (by rw [heq]; rfl)
  · rintro ⟨hhead, htail⟩ pre now post heq
    cases pre with
    | nil => exact hhead now (List.cons.inj heq).1
    | cons y pre =>
        obtain ⟨rfl, hrest⟩ := List.cons.inj heq
        exact htail pre now post hrest

instance decidablePollsFit : (h : Host F) → (calls : List Call) → Decidable (PollsFit h calls)
  | _, [] => .isTrue fun pre now post heq => by simp at heq
  | h, x :: calls =>
      have := decidablePollsFit (h.call x) calls
      have : Decidable (∀ now, x = .pollTransmit now → h.conn.Fits) :=
        match x with
        | .pollTransmit now => decidable_of_iff h.conn.Fits ⟨fun hf _ _ => hf, fun hf => hf now rfl⟩
        | .write _ | .onTick _ | .close _ | .takeReceived | .setNodelay _ | .setKeepalive _ | .useBbr
        | .onSegment .. => .isTrue fun _ heq => nomatch heq
      decidable_of_iff _ pollsFit_cons.symm

theorem run_paced {h : Host F} {t : Trace} (hp : Paced h t) {calls : List Call} (hb : PollsFit h calls) :
    ∃ t', Paced (h.run calls) t' := by
  induction calls generalizing h t with
  | nil => exact ⟨t, hp⟩
  | cons x calls ih =>
      obtain ⟨hfits, hrest⟩ := pollsFit_cons.mp hb
      obtain ⟨t', hp'⟩ := hp.call hfits
      exact ih hp' hrest

theorem PollsFit.pre {h : Host F} {pre post : List Call} (hb : PollsFit h (pre ++ post)) : PollsFit h pre := by
  intro p now q heq
  exact hb p now (q ++ post) (by rw [heq, List.append_assoc, List.cons_append])

/-- Flow control against any peer. In a run whose polls all find room for the
new data of SACK recovery, every poll stays within the peer's window, and in the
state it reaches the next poll does so exactly if it finds room as well. -/
theorem polls_within_window_iff_fits {h : Host F} (hf : Fresh h) (calls : List Call)
    (hb : PollsFit h calls) :
    (∀ pre now post, calls = pre ++ .pollTransmit now :: post → (h.run pre).conn.WithinWindow now) ∧
      ∀ now, (h.run calls).conn.WithinWindow now ↔ (h.run calls).conn.Fits := by
  constructor
  · intro pre now post heq
    subst heq
    obtain ⟨t, hp⟩ := run_paced hf.paced hb.pre
    obtain ⟨n, -, hiff⟩ := hp.poll now
    exact hiff.mpr (hb pre now post rfl)
  · intro now
    obtain ⟨t, hp⟩ := run_paced hf.paced hb
    obtain ⟨n, -, hiff⟩ := hp.poll now
    exact hiff

/-- A connection with SACK and segments of one byte, into a window of eight. -/
def narrow : Host Rat :=
  connect (Ipv4Addr.new 10#8 0#8 0#8 1#8, 4000#16) (Ipv4Addr.new 10#8 0#8 0#8 2#8, 80#16) 100#32 0#64 0#32

/-- An acknowledgement of the SYN alone, with these selective blocks. -/
def narrowAck (blocks : List (U32 × U32)) : Segment :=
  ⟨⟨80#16, 4000#16, 501#32, 101#32, 20 + (if blocks.isEmpty then 0 else 4 + 8 * blocks.length), ACK, 8#16⟩, [],
    { sackBlocks := blocks ++ List.replicate (4 - blocks.length) (0#32, 0#32), sackBlockCount := blocks.length }⟩

/-- Ten bytes are written; eight of them fit and leave. -/
def narrowOpening : List Call :=
  [.onSegment ⟨⟨80#16, 4000#16, 500#32, 101#32, 28, SYN ||| ACK, 8#16⟩, [],
      { mss := some 1#16, sackPermitted := true }⟩ 1#64 0#32,
    .onSegment (narrowAck []) 2#64 0#32, .write [0#8, 1#8, 2#8, 3#8, 4#8, 5#8, 6#8, 7#8, 8#8, 9#8]]

theorem poll_within_narrow_window :
    ((narrow.run narrowOpening).conn.firstSent 3#64).length = 8 ∧
      (narrow.run narrowOpening).conn.WithinWindow 3#64 :=
  ⟨by decide +kernel, (polls_within_window_iff_fits (.connect ..) (narrowOpening ++ [.pollTransmit 3#64])
    (by decide +kernel)).1 narrowOpening 3#64 [] rfl⟩

/-- Three duplicate acknowledgements report the second to fourth byte. Recovery
then sends the last two bytes, ten past SND.UNA. -/
theorem poll_exceeds_narrow_window :
    let h := narrow.run (narrowOpening ++ [.pollTransmit 3#64,
      .onSegment (narrowAck [(102#32, 103#32)]) 4#64 0#32, .onSegment (narrowAck [(102#32, 104#32)]) 5#64 0#32,
      .onSegment (narrowAck [(102#32, 105#32)]) 6#64 0#32])
    Fresh narrow ∧ ¬ h.conn.WithinWindow 7#64 :=
  ⟨.connect .., by decide +kernel⟩

end Host
end TcpStack
