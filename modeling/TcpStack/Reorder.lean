import TcpStack.Injection
import TcpStack.Paws

/-!
# Acknowledgements out of order

SND.UNA is moved by an acknowledgement ahead of it only, so the order of two
does not matter. The window is taken from whatever segment comes last, unless
its timestamp shows that it is old.
-/
namespace TcpStack
open Tcp TcpStack.Seq

variable {F : Type} [F64 F]

namespace Connection

/-- What two acknowledgements share: the sequence numbers of the sender and what was negotiated. -/
def edge (c : Connection F) : U32 × U32 × Bool × WScale := (c.send.una, c.send.nxt, c.tsEnabled, c.sndWscale)

/-- The acknowledgement is taken, once the segment's own window counts. -/
def TakesAck (c : Connection F) (th : TcpHeader) : Prop :=
  (c.updateWindow (c.scaledWindow th)).ackAcceptable th.ack = true ∧ between c.send.una th.ack c.send.nxt = true

instance (c : Connection F) (th : TcpHeader) : Decidable (TakesAck c th) := inferInstanceAs (Decidable (_ ∧ _))

theorem processAck_edge (c : Connection F) (th : TcpHeader) (payload : Bytes) (opts : TcpOptions)
    (prevWnd newWnd : U32) (now : U64) : (c.processAck th payload opts prevWnd newWnd now).1.edge =
      (if between c.send.una th.ack c.send.nxt then th.ack else c.send.una, c.send.nxt,
      c.tsEnabled, c.sndWscale) := by
  unfold processAck
  generalize hd : (if c.sackOk = true ∧ opts.sackBlockCount > 0 then
    { c with retx := c.retx.markSacked opts.validBlocks } else c) = d
  have hsame : d.edge = c.edge := by
    rw [← hd]
    split_ifs <;> rfl
  simp only [edge, Prod.mk.injEq] at hsame
  obtain ⟨huna, hnxt, hts, hscale⟩ := hsame
  dsimp only
  rw [← huna, ← hnxt, ← hts, ← hscale]
  split_ifs
  · simp only [onNewAck]
    split_ifs <;> rfl
  · simp only [onDupAck]
    split_ifs <;> rfl
  · rfl

theorem receive_edge (c : Connection F) (th : TcpHeader) (payload : Bytes) :
    (c.receive th payload).1.edge = c.edge := by
  simp only [receive, deliver_eq, takeFin]
  split_ifs <;> rfl

theorem receive_sending {c : Connection F} (hs : c.state.Sending) (th : TcpHeader) (payload : Bytes) :
    (c.receive th payload).1.state.Sending := by
  simp only [receive, deliver_eq, takeFin]
  split_ifs
  · exact hs
  · exact .inr rfl
  · exact hs
  · exact hs
  · exact .inr rfl
  · exact hs
  · exact hs

theorem onOpen_edge {c d : Connection F} (hs : c.state.Sending) {th : TcpHeader} {opts : TcpOptions}
    (hp : c.paws th opts = some d) (hack : hasFlag th.flags ACK = true) (payload : Bytes) (now : U64) (rnd : U32) :
    (c.onOpen th payload opts now rnd).1.edge =
        (if TakesAck c th then th.ack else c.send.una, c.send.nxt, c.tsEnabled, c.sndWscale) ∧
      (c.onOpen th payload opts now rnd).1.state.Sending := by
  obtain ⟨t, rfl⟩ := paws_eq hp
  have htakes : TakesAck { c with tsRecent := t } th ↔ TakesAck c th := Iff.rfl
  simp only [onOpen, hp, hack, if_true, ← htakes]
  generalize hd : ({ c with tsRecent := t } : Connection F) = d
  have hde : d.edge = c.edge ∧ d.state = c.state := by
    rw [← hd]
    exact ⟨rfl, rfl⟩
  obtain ⟨hde, hds⟩ := hde
  simp only [edge, Prod.mk.injEq] at hde
  obtain ⟨huna, hnxt, hts, hscale⟩ := hde
  rw [← huna, ← hnxt, ← hts, ← hscale]
  rw [← hds] at hs
  by_cases hok : (d.updateWindow (d.scaledWindow th)).ackAcceptable th.ack = true
  swap
  · rw [if_pos (by simpa using hok), if_neg fun h => hok h.1]
    have hclocks := (maybeChallenge_clocks (d.updateWindow (d.scaledWindow th)) now rnd).1
    rw [hclocks]
    exact ⟨rfl, hs⟩
  rw [if_neg (by simpa using hok)]
  have hmoves : TakesAck d th ↔ between d.send.una th.ack d.send.nxt = true := and_iff_right hok
  have hpa := processAck_edge (d.updateWindow (d.scaledWindow th)) th payload opts c.send.wnd (d.scaledWindow th) now
  have hst := processAck_state (d.updateWindow (d.scaledWindow th)) th payload opts c.send.wnd (d.scaledWindow th) now
  have hsame : (d.updateWindow (d.scaledWindow th)).state = d.state := rfl
  rw [hsame] at hst
  simp only [hmoves]
  generalize (d.updateWindow (d.scaledWindow th)).processAck th payload opts c.send.wnd (d.scaledWindow th) now = r
    at hpa hst ⊢
  obtain ⟨v, pkt⟩ := r
  have hv : v.state.Sending := hst ▸ hs
  cases pkt with
  | some pkt => exact ⟨hpa, hv⟩
  | none => exact ⟨(receive_edge v th payload).trans hpa, receive_sending hv th payload⟩

/-- A segment with ACK, and without RST, SYN or payload. -/
structure PureAck (seg : Segment) : Prop where
  ack : hasFlag seg.th.flags ACK = true
  rst : hasFlag seg.th.flags RST = false
  syn : hasFlag seg.th.flags SYN = false
  payload : seg.payload = []

theorem paws_arrive (c : Connection F) (now : U64) (th : TcpHeader) (opts : TcpOptions) :
    (c.arrive now).paws th opts = (c.paws th opts).map fun d => d.arrive now := by
  have hts : (c.arrive now).tsEnabled = c.tsEnabled := rfl
  have hrecent : (c.arrive now).tsRecent = c.tsRecent := rfl
  have hrecv : (c.arrive now).recv = c.recv := rfl
  unfold paws
  rw [hts, hrecent, hrecv]
  split
  · split_ifs <;> rfl
  · rfl

theorem onSegment_old {c : Connection F} (hs : c.state.Sending) {seg : Segment} (hack : PureAck seg)
    (hold : OldTimestamp c seg) (now : U64) (rnd : U32) :
    (c.onSegment seg now rnd).1 = c.arrive now := by
  have hnone : (c.arrive now).paws seg.th seg.opts = none := by
    have hsome := (c.arrive now).paws_isSome_iff seg
    rw [← Option.not_isSome_iff_eq_none, hsome]
    exact not_not.mpr hold
  rw [onSegment_open hs hack.rst hack.syn]
  simp only [onOpen, hnone]

/-- What any other acknowledgement leaves. -/
structure Acked (c : Connection F) (seg : Segment) (c' : Connection F) : Prop where
  una : c'.send.una = if TakesAck c seg.th then seg.th.ack else c.send.una
  nxt : c'.send.nxt = c.send.nxt
  wnd : c'.send.wnd = c.scaledWindow seg.th
  scale : c'.sndWscale = c.sndWscale
  stamps : c'.tsEnabled = c.tsEnabled
  recent : ∀ d, c.paws seg.th seg.opts = some d → c'.tsRecent = d.tsRecent
  sending : c'.state.Sending

theorem onSegment_acked {c : Connection F} (hs : c.state.Sending) {seg : Segment} (hack : PureAck seg)
    (hnew : ¬ OldTimestamp c seg) (now : U64) (rnd : U32) : Acked c seg (c.onSegment seg now rnd).1 := by
  have hsome : ((c.arrive now).paws seg.th seg.opts).isSome = true := ((c.arrive now).paws_isSome_iff seg).mpr hnew
  obtain ⟨d, hd⟩ := Option.isSome_iff_exists.mp hsome
  rw [onSegment_open hs hack.rst hack.syn]
  have hs' : (c.arrive now).state.Sending := hs
  obtain ⟨hedge, hsending⟩ := onOpen_edge hs' hd hack.ack seg.payload now rnd
  obtain ⟨hwnd, hrecent⟩ := onOpen_window hd seg.payload now rnd
  generalize ((c.arrive now).onOpen seg.th seg.payload seg.opts now rnd).1 = c' at hedge hsending hwnd hrecent
  simp only [edge, Prod.mk.injEq] at hedge
  obtain ⟨huna, hnxt, hts, hscale⟩ := hedge
  refine ⟨huna, hnxt, hwnd.trans (paws_passed hd).2.2, hscale, hts, fun e he => hrecent.trans ?_, hsending⟩
  rw [paws_arrive, he] at hd
  rw [← Option.some.inj hd]
  rfl

/-- The peer sent `a₁` and then `a₂`: at one sequence number, `a₂` acknowledging
more of what is in flight, and its clock not going back. -/
structure Successive (c : Connection F) (a₁ a₂ : Segment) : Prop where
  first : PureAck a₁
  second : PureAck a₂
  seq : a₁.th.seq = a₂.th.seq
  order : (a₁.th.ack - c.send.una).toNat < (a₂.th.ack - c.send.una).toNat
  sent : (a₂.th.ack - c.send.una).toNat ≤ c.flightSize.toNat
  clock : ∀ t₁ e₁ t₂ e₂, a₁.opts.timestamps = some (t₁, e₁) → a₂.opts.timestamps = some (t₂, e₂) →
    before t₂ t₁ = false

/-- With little in flight an acknowledgement ahead of SND.UNA is taken, whatever
windows were advertised. -/
theorem takesAck_iff {c : Connection F} (hg : Guarded c) (hflight : c.flightSize.toNat ≤ 2 ^ 30) {th : TcpHeader}
    (hle : (th.ack - c.send.una).toNat ≤ c.flightSize.toNat) : TakesAck c th ↔ th.ack ≠ c.send.una := by
  have hmax : (c.updateWindow (c.scaledWindow th)).maxSndWnd.toNat < 2 ^ 30 :=
    (hg.updateWindow (scaledWindow_lt c th)).small
  have hnxt : after th.ack c.send.nxt = false := by
    unfold flightSize at hle hflight
    rw [after, Bool.eq_false_iff, ne_eq, before_iff, not_le]
    bv_omega
  have hlow : before th.ack (c.send.una - (c.updateWindow (c.scaledWindow th)).maxSndWnd) = false := by
    rw [Bool.eq_false_iff, ne_eq, before_iff, not_le]
    bv_omega
  have hacceptable : (c.updateWindow (c.scaledWindow th)).ackAcceptable th.ack = true := by
    have hsend : (c.updateWindow (c.scaledWindow th)).send.una = c.send.una ∧
        (c.updateWindow (c.scaledWindow th)).send.nxt = c.send.nxt := ⟨rfl, rfl⟩
    simp only [ackAcceptable, hsend.1, hsend.2, hlow, hnxt]
    rfl
  rw [TakesAck, and_iff_right hacceptable, between, hnxt, Bool.not_false, Bool.and_true, after, before_iff]
  constructor
  · rintro h heq
    rw [heq] at h
    simp at h
  · intro hne
    bv_omega

theorem not_takesAck {c : Connection F} {th : TcpHeader} (h : (c.send.una - th.ack).toNat < 2 ^ 31) :
    ¬ TakesAck c th := by
  rintro ⟨-, hnew⟩
  rw [between, Bool.and_eq_true, after, before_iff] at hnew
  omega

theorem scaledWindow_congr {c c' : Connection F} (h : c'.sndWscale = c.sndWscale) (th : TcpHeader) :
    c'.scaledWindow th = c.scaledWindow th := by
  rw [scaledWindow, scaledWindow, h]

variable {c d : Connection F} {a₁ a₂ : Segment}

theorem Acked.una_eq {c' : Connection F} (h : Acked c a₁ c') (hg : Guarded c) (hflight : c.flightSize.toNat ≤ 2 ^ 30)
    (hle : (a₁.th.ack - c.send.una).toNat ≤ c.flightSize.toNat) : c'.send.una = a₁.th.ack := by
  rw [h.una]
  split_ifs with htakes
  · rfl
  · rw [takesAck_iff hg hflight hle, not_not] at htakes
    exact htakes.symm

theorem Successive.inOrder (h : Successive c a₁ a₂) (hg : Guarded c) (hs : c.state.Sending)
    (hflight : c.flightSize.toNat ≤ 2 ^ 30) (hnew : ¬ OldTimestamp c a₂) (now now' : U64) (rnd rnd' : U32) :
    let c' := ((c.onSegment a₁ now rnd).1.onSegment a₂ now' rnd').1
    c'.send.una = a₂.th.ack ∧ c'.send.wnd = c.scaledWindow a₂.th := by
  have horder := h.order
  have hsent := h.sent
  have hmid : ∃ mid, (c.onSegment a₁ now rnd).1 = mid ∧ Guarded mid ∧ mid.state.Sending ∧ ¬ OldTimestamp mid a₂ ∧
      (mid.send.una = c.send.una ∨ mid.send.una = a₁.th.ack) ∧ mid.send.nxt = c.send.nxt ∧
      mid.sndWscale = c.sndWscale := by
    refine ⟨_, rfl, onSegment_guarded hg a₁ now rnd, ?_⟩
    by_cases hold : OldTimestamp c a₁
    · rw [onSegment_old hs h.first hold]
      exact ⟨hs, hnew, .inl rfl, rfl, rfl⟩
    have hacked := onSegment_acked hs h.first hold now rnd
    obtain ⟨e, he⟩ := Option.isSome_iff_exists.mp ((c.paws_isSome_iff a₁).mpr hold)
    refine ⟨hacked.sending, ?_, .inr (hacked.una_eq hg hflight (by omega)), hacked.nxt, hacked.scale⟩
    rintro ⟨hts, t₂, e₂, hopt, hbefore⟩
    rw [hacked.recent e he] at hbefore
    rcases paws_records he with hrecent | ⟨⟨e₁, hopt'⟩, -⟩
    · rw [hrecent] at hbefore
      exact hnew ⟨hacked.stamps ▸ hts, t₂, e₂, hopt, hbefore⟩
    · rw [h.clock _ _ _ _ hopt' hopt] at hbefore
      cases hbefore
  obtain ⟨mid, heq, hgm, hsm, hnewm, huna, hnxt, hscale⟩ := hmid
  have hflightm : mid.flightSize.toNat ≤ 2 ^ 30 ∧ (a₂.th.ack - mid.send.una).toNat ≤ mid.flightSize.toNat ∧
      a₂.th.ack ≠ mid.send.una := by
    unfold flightSize at hflight hsent ⊢
    rw [hnxt]
    rcases huna with huna | huna <;> rw [huna] <;> bv_omega
  have hacked := onSegment_acked hsm h.second hnewm now' rnd'
  rw [heq]
  exact ⟨hacked.una_eq hgm hflightm.1 hflightm.2.1, hacked.wnd.trans (scaledWindow_congr hscale _)⟩

theorem Successive.swapped (h : Successive c a₁ a₂) (hg : Guarded c) (hs : c.state.Sending)
    (hflight : c.flightSize.toNat ≤ 2 ^ 30) (hd : c.paws a₂.th a₂.opts = some d) (now now' : U64) (rnd rnd' : U32) :
    let c' := ((c.onSegment a₂ now rnd).1.onSegment a₁ now' rnd').1
    c'.send.una = a₂.th.ack ∧ (OldTimestamp d a₁ → c'.send.wnd = c.scaledWindow a₂.th) ∧
      (¬ OldTimestamp d a₁ → c'.send.wnd = c.scaledWindow a₁.th) := by
  have horder := h.order
  have hsent := h.sent
  have hnew : ¬ OldTimestamp c a₂ := (c.paws_isSome_iff a₂).mp (Option.isSome_iff_exists.mpr ⟨d, hd⟩)
  have hmid := onSegment_acked hs h.second hnew now rnd
  have huna := hmid.una_eq hg hflight hsent
  have hold : OldTimestamp (c.onSegment a₂ now rnd).1 a₁ ↔ OldTimestamp d a₁ := by
    obtain ⟨t, rfl⟩ := paws_eq hd
    rw [OldTimestamp, OldTimestamp, hmid.recent _ hd, hmid.stamps]
  intro c'
  by_cases hlate : OldTimestamp d a₁
  · have hc' : c' = (c.onSegment a₂ now rnd).1.arrive now' := onSegment_old hmid.sending h.first (hold.mpr hlate) ..
    rw [hc']
    exact ⟨huna, fun _ => hmid.wnd, fun hno => absurd hlate hno⟩
  · have hacked := onSegment_acked hmid.sending h.first (mt hold.mp hlate) now' rnd'
    have hbehind : ¬ TakesAck (c.onSegment a₂ now rnd).1 a₁.th := by
      refine not_takesAck ?_
      rw [huna]
      bv_omega
    refine ⟨?_, fun hyes => absurd hyes hlate, fun _ => hacked.wnd.trans (scaledWindow_congr hmid.scale _)⟩
    rw [show c'.send.una = _ from hacked.una, if_neg hbehind, huna]

end Connection

namespace Host
open Connection

/-- Two acknowledgements in either order leave SND.UNA at the later one. In the
order of sending they leave its window too; in the other order the earlier one's,
if its timestamp does not give it away. -/
theorem reordered_acks_agree_iff {h : Host F} (hf : Fresh h) (calls : List Call) {a₁ a₂ : Segment} {d : Connection F}
    (hs : (h.run calls).conn.state = .established) (hflight : (h.run calls).conn.flightSize.toNat ≤ 2 ^ 30)
    (hpair : Successive (h.run calls).conn a₁ a₂) (hd : (h.run calls).conn.paws a₂.th a₂.opts = some d)
    (now now' : U64) (rnd rnd' : U32) :
    let c := (h.run calls).conn
    let inOrder := ((c.onSegment a₁ now rnd).1.onSegment a₂ now' rnd').1
    let swapped := ((c.onSegment a₂ now rnd).1.onSegment a₁ now' rnd').1
    inOrder.send.una = a₂.th.ack ∧ swapped.send.una = a₂.th.ack ∧ inOrder.send.wnd = c.scaledWindow a₂.th ∧
      (OldTimestamp d a₁ → swapped.send.wnd = c.scaledWindow a₂.th) ∧
      (¬ OldTimestamp d a₁ → swapped.send.wnd = c.scaledWindow a₁.th) ∧
      (inOrder.send.wnd = swapped.send.wnd ↔ OldTimestamp d a₁ ∨ c.scaledWindow a₁.th = c.scaledWindow a₂.th) := by
  intro c inOrder swapped
  have hg : Guarded c := run_guarded hf.guarded calls
  have hnew : ¬ OldTimestamp c a₂ := (c.paws_isSome_iff a₂).mp (Option.isSome_iff_exists.mpr ⟨d, hd⟩)
  obtain ⟨huna, hwnd⟩ := hpair.inOrder hg (.inl hs) hflight hnew now now' rnd rnd'
  obtain ⟨huna', hlate, hfresh⟩ := hpair.swapped hg (.inl hs) hflight hd now now' rnd rnd'
  refine ⟨huna, huna', hwnd, hlate, hfresh, ?_⟩
  rw [show inOrder.send.wnd = _ from hwnd]
  by_cases hold : OldTimestamp d a₁
  · rw [show swapped.send.wnd = _ from hlate hold]
    exact iff_of_true rfl (.inl hold)
  · rw [show swapped.send.wnd = _ from hfresh hold, or_iff_right hold, eq_comm]

def twoBytesOut : List Call := [.write [7#8, 8#8], .pollTransmit 1#64]

/-- An acknowledgement of this position with this window, without timestamps. -/
def plainAck (ack : U32) (window : U16) : Segment := ⟨⟨80#16, 4000#16, 501#32, ack, 20, ACK, window⟩, [], {}⟩

theorem plainAcks_successive : Successive (sample.run twoBytesOut).conn (plainAck 102#32 5#16)
    (plainAck 103#32 9#16) :=
  ⟨⟨by decide, by decide, by decide, rfl⟩, ⟨by decide, by decide, by decide, rfl⟩, rfl, by decide +kernel,
    by decide +kernel, fun _ _ _ _ h => nomatch h⟩

/-- The window of the acknowledgement that comes last wins. -/
theorem stale_window_wins :
    let c := (sample.run twoBytesOut).conn
    Fresh sample ∧ c.state = .established ∧ Successive c (plainAck 102#32 5#16) (plainAck 103#32 9#16) ∧
      ((c.onSegment (plainAck 102#32 5#16) 2#64 0#32).1.onSegment (plainAck 103#32 9#16) 3#64 0#32).1.send.wnd =
      9#32 ∧
      ((c.onSegment (plainAck 103#32 9#16) 2#64 0#32).1.onSegment (plainAck 102#32 5#16) 3#64 0#32).1.send.wnd =
        5#32 :=
  ⟨sample_fresh, by decide +kernel, plainAcks_successive, by decide +kernel, by decide +kernel⟩

theorem swapped_acks_agree_on_una :
    let c := (sample.run twoBytesOut).conn
    ((c.onSegment (plainAck 103#32 9#16) 2#64 0#32).1.onSegment (plainAck 102#32 5#16) 3#64 0#32).1.send.una =
      103#32 := by
  have hd : ∃ d, (sample.run twoBytesOut).conn.paws (plainAck 103#32 9#16).th (plainAck 103#32 9#16).opts = some d :=
    Option.isSome_iff_exists.mp (by decide +kernel)
  obtain ⟨d, hd⟩ := hd
  exact (reordered_acks_agree_iff sample_fresh twoBytesOut (by decide +kernel)
    (by decide +kernel) plainAcks_successive
    hd 2#64 3#64 0#32 0#32).2.1

end Host
end TcpStack
