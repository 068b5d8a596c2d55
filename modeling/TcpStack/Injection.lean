import TcpStack.Guards

/-!
# Segments that must not be trusted

An acknowledgement outside the acceptable range, or a timestamp from the past,
marks a segment as forged or stale. The module says exactly when such a
segment leaves the connection as it was.
-/
namespace TcpStack
open Tcp TcpStack.Seq

variable {F : Type} [F64 F]

namespace Connection

theorem onSegment_open {c : Connection F} (hs : c.state.Sending) {seg : Segment}
    (hrst : hasFlag seg.th.flags RST = false) (hsyn : hasFlag seg.th.flags SYN = false) (now : U64) (rnd : U32) :
    c.onSegment seg now rnd = (c.arrive now).onOpen seg.th seg.payload seg.opts now rnd := by
  have hsync : c.isSynchronized = true := by
    rcases hs with hs | hs <;> rw [isSynchronized, hs]
  have hstate : (c.arrive now).state = c.state := rfl
  rw [onSegment_byState hsync hrst hsyn, onState, hstate]
  rcases hs with hs | hs <;> rw [hs]

/-- The timestamp lies before the recorded one. -/
def OldTimestamp (c : Connection F) (seg : Segment) : Prop :=
  c.tsEnabled = true ∧ ∃ tsval tsecr, seg.opts.timestamps = some (tsval, tsecr) ∧
    before tsval c.tsRecent = true

theorem paws_isSome_iff (c : Connection F) (seg : Segment) :
    (c.paws seg.th seg.opts).isSome = true ↔ ¬ OldTimestamp c seg := by
  unfold paws
  split
  · rename_i tsval tsecr hts hopt
    have hold : OldTimestamp c seg ↔ before tsval c.tsRecent = true := by
      constructor
      · rintro ⟨-, v, e, hopt', hb⟩
        rw [hopt] at hopt'
        obtain ⟨rfl, -⟩ := Prod.mk.inj (Option.some.inj hopt')
        exact hb
      · exact fun hb => ⟨hts, tsval, tsecr, hopt, hb⟩
    rw [hold]
    split_ifs with hb <;> simp [hb]
  · rename_i hno
    refine ⟨fun _ => ?_, fun _ => rfl⟩
    rintro ⟨hts, v, e, hopt, -⟩
    exact hno v e hts hopt

/-- Only the clocks and the challenge budget differ. -/
def OnlyClocks (c c' : Connection F) : Prop :=
  c' = { c with
    tsVal := c'.tsVal
    lastActiveMs := c'.lastActiveMs
    keepaliveProbesSent := c'.keepaliveProbesSent
    challengeBudget := c'.challengeBudget
    challengeWindowMs := c'.challengeWindowMs }

/-- The segment's timestamp, where it would be taken over, is the recorded one. -/
def TimestampStands (c : Connection F) (seg : Segment) : Prop :=
  ∀ tsval tsecr, c.tsEnabled = true → seg.opts.timestamps = some (tsval, tsecr) →
    after seg.th.seq c.recv.nxt = false → tsval = c.tsRecent

theorem maybeChallenge_clocks (c : Connection F) (now : U64) (rnd : U32) :
    OnlyClocks c (c.maybeChallenge now rnd).1 ∧
      ((c.maybeChallenge now rnd).2 = none ∨
        (c.maybeChallenge now rnd).2 = some (c.maybeChallenge now rnd).1.challengeAck) := by
  unfold maybeChallenge OnlyClocks
  dsimp only
  split_ifs
  · exact ⟨rfl, .inl rfl⟩
  · exact ⟨rfl, .inr rfl⟩
  · exact ⟨rfl, .inl rfl⟩
  · exact ⟨rfl, .inr rfl⟩

theorem processAck_window (c : Connection F) (th : TcpHeader) (payload : Bytes) (opts : TcpOptions)
    (prevWnd newWnd : U32) (now : U64) :
    (c.processAck th payload opts prevWnd newWnd now).1.send.wnd = c.send.wnd ∧
      (c.processAck th payload opts prevWnd newWnd now).1.tsRecent = c.tsRecent := by
  simp only [processAck, onNewAck, onDupAck]
  split_ifs <;> exact ⟨rfl, rfl⟩

theorem receive_window (c : Connection F) (th : TcpHeader) (payload : Bytes) :
    (c.receive th payload).1.send.wnd = c.send.wnd ∧ (c.receive th payload).1.tsRecent = c.tsRecent := by
  simp only [receive, deliver_eq, takeFin]
  split_ifs <;> exact ⟨rfl, rfl⟩

/-- Past PAWS the segment's window and timestamp are taken over whatever follows. -/
theorem onOpen_window {c d : Connection F} {th : TcpHeader} {opts : TcpOptions}
    (hp : c.paws th opts = some d) (payload : Bytes) (now : U64) (rnd : U32) :
    (c.onOpen th payload opts now rnd).1.send.wnd = d.scaledWindow th ∧
      (c.onOpen th payload opts now rnd).1.tsRecent = d.tsRecent := by
  simp only [onOpen, hp]
  have hu : (d.updateWindow (d.scaledWindow th)).send.wnd = d.scaledWindow th ∧
      (d.updateWindow (d.scaledWindow th)).tsRecent = d.tsRecent := ⟨rfl, rfl⟩
  generalize d.updateWindow (d.scaledWindow th) = u at hu
  split_ifs with hack hbad
  · have hc := (maybeChallenge_clocks u now rnd).1
    rw [hc]
    exact hu
  · have hpa := processAck_window u th payload opts d.send.wnd (d.scaledWindow th) now
    generalize u.processAck th payload opts d.send.wnd (d.scaledWindow th) now = r at hpa
    obtain ⟨v, pkt⟩ := r
    cases pkt with
    | some pkt => exact ⟨hpa.1.trans hu.1, hpa.2.trans hu.2⟩
    | none =>
        have hr := receive_window v th payload
        exact ⟨(hr.1.trans hpa.1).trans hu.1, (hr.2.trans hpa.2).trans hu.2⟩
  · have hr := receive_window u th payload
    exact ⟨hr.1.trans hu.1, hr.2.trans hu.2⟩

theorem paws_passed {c d : Connection F} {seg : Segment} (hp : c.paws seg.th seg.opts = some d) :
    (d.tsRecent = c.tsRecent ↔ TimestampStands c seg) ∧ (TimestampStands c seg → d = c) ∧
      d.scaledWindow seg.th = c.scaledWindow seg.th := by
  unfold paws at hp
  split at hp
  · rename_i tsval tsecr hts hopt
    split_ifs at hp with hold hleft
    · obtain rfl := Option.some.inj hp
      rw [Bool.not_eq_true'] at hleft
      have hiff : tsval = c.tsRecent ↔ TimestampStands c seg := by
        constructor
        · intro heq v e _ hopt' _
          rw [hopt] at hopt'
          obtain ⟨rfl, -⟩ := Prod.mk.inj (Option.some.inj hopt')
          exact heq
        · exact fun hst => hst tsval tsecr hts hopt hleft
      refine ⟨hiff, fun hst => ?_, rfl⟩
      rw [hiff.mpr hst]
    · obtain rfl := Option.some.inj hp
      have hst : TimestampStands c seg := by
        intro v e _ _ hin
        exact absurd (by simp [hin]) hleft
      exact ⟨⟨fun _ => hst, fun _ => rfl⟩, fun _ => rfl, rfl⟩
  · rename_i hno
    obtain rfl := Option.some.inj hp
    have hst : TimestampStands c seg := fun v e hts hopt _ => absurd hopt (hno v e hts)
    exact ⟨⟨fun _ => hst, fun _ => rfl⟩, fun _ => rfl, rfl⟩

theorem updateWindow_self {c : Connection F} (h : Guarded c) : c.updateWindow c.send.wnd = c := by
  have hmax : umax c.maxSndWnd c.send.wnd = c.maxSndWnd := by
    unfold umax
    split
    · rename_i hle
      exact BitVec.le_antisymm h.wnd hle
    · rfl
  unfold updateWindow
  rw [hmax]

end Connection

namespace Host
open Connection

/-- A rejected acknowledgement changes nothing but clocks and challenge budget
exactly if the segment's window and timestamp repeat the recorded ones. -/
theorem rejected_ack_changes_nothing_iff {h : Host F} (hf : Fresh h) (calls : List Call) (seg : Segment)
    (now : U64) (rnd : U32) (hs : (h.run calls).conn.state.Sending)
    (hrst : hasFlag seg.th.flags RST = false) (hsyn : hasFlag seg.th.flags SYN = false)
    (hack : hasFlag seg.th.flags ACK = true) (hpaws : ((h.run calls).conn.paws seg.th seg.opts).isSome = true)
    (hbad : (h.run calls).conn.ackAcceptable seg.th.ack = false) :
    let c := (h.run calls).conn
    let r := c.onSegment seg now rnd
    (OnlyClocks c r.1 ∧ (r.2 = none ∨ r.2 = some r.1.challengeAck)) ↔
      c.scaledWindow seg.th = c.send.wnd ∧ TimestampStands c seg := by
  intro c r
  have hg : Guarded c := run_guarded hf.guarded calls
  have hfresh : ¬ OldTimestamp (c.arrive now) seg := (paws_isSome_iff c seg).mp hpaws
  obtain ⟨d, hd⟩ := Option.isSome_iff_exists.mp ((paws_isSome_iff _ seg).mpr hfresh)
  have hr : r = (c.arrive now).onOpen seg.th seg.payload seg.opts now rnd := onSegment_open hs hrst hsyn now rnd
  obtain ⟨hts, hsame, hscaled⟩ := paws_passed hd
  constructor
  · rintro ⟨hclocks, -⟩
    obtain ⟨hwnd, hrec⟩ := onOpen_window hd seg.payload now rnd
    rw [← hr] at hwnd hrec
    have hwnd' : r.1.send.wnd = c.send.wnd := by rw [hclocks]
    have hrec' : r.1.tsRecent = c.tsRecent := by rw [hclocks]
    exact ⟨(hscaled.symm.trans hwnd.symm).trans hwnd', hts.mp (hrec.symm.trans hrec')⟩
  · rintro ⟨hwnd, hst⟩
    obtain rfl := hsame hst
    have hga : Guarded (c.arrive now) := ⟨hg.wnd, hg.small, hg.early, hg.due⟩
    have hu : (c.arrive now).updateWindow ((c.arrive now).scaledWindow seg.th) = c.arrive now := by
      rw [show (c.arrive now).scaledWindow seg.th = (c.arrive now).send.wnd from hwnd]
      exact updateWindow_self hga
    have hbad' : (c.arrive now).ackAcceptable seg.th.ack = false := hbad
    have hres : r = (c.arrive now).maybeChallenge now rnd := by
      rw [hr]
      simp only [onOpen, hd, hu, hack, hbad', if_true, Bool.not_false]
    obtain ⟨hclocks, hreply⟩ := maybeChallenge_clocks (c.arrive now) now rnd
    rw [hres]
    refine ⟨?_, hreply⟩
    unfold OnlyClocks at hclocks ⊢
    rw [hclocks]
    rfl

/-- A bare acknowledgement of bytes that were never sent. -/
def forgedAck (window : U16) (payload : Bytes) : Segment :=
  ⟨⟨80#16, 4000#16, 501#32, 5000#32, 20, ACK, window⟩, payload, {}⟩

theorem forged_ack_changes_nothing :
    let r := sample.conn.onSegment (forgedAck 1024#16 []) 1#64 0#32
    OnlyClocks sample.conn r.1 ∧ (r.2 = none ∨ r.2 = some r.1.challengeAck) :=
  (rejected_ack_changes_nothing_iff sample_fresh [] (forgedAck 1024#16 []) 1#64 0#32 (by decide +kernel)
    (by decide) (by decide) (by decide) (by decide +kernel) (by decide +kernel)).mpr
    ⟨by decide +kernel, fun _ _ hts => absurd hts (by decide +kernel)⟩

/-- The window of a rejected acknowledgement is taken over all the same. -/
theorem forged_ack_sets_window :
    let c := sample.conn
    let seg := forgedAck 9#16 []
    Fresh sample ∧ c.state = .established ∧ (c.paws seg.th seg.opts).isSome = true ∧
      c.ackAcceptable seg.th.ack = false ∧ (c.onSegment seg 1#64 0#32).1.send.wnd = 9#32 ∧
      ¬ OnlyClocks c (c.onSegment seg 1#64 0#32).1 := by
  intro c seg
  have hwnd : (c.onSegment seg 1#64 0#32).1.send.wnd = 9#32 := by decide +kernel
  refine ⟨sample_fresh, by decide +kernel, by decide +kernel, by decide +kernel, hwnd, fun hsame => ?_⟩
  have hkept : (c.onSegment seg 1#64 0#32).1.send.wnd = c.send.wnd := by rw [hsame]
  exact absurd (hwnd.symm.trans hkept) (by decide +kernel)

end Host

namespace Connection

/-- A segment that the defences are meant to stop. -/
def Suspect (c : Connection F) (seg : Segment) : Prop :=
  OldTimestamp c seg ∨ (hasFlag seg.th.flags ACK = true ∧ c.ackAcceptable seg.th.ack = false)

/-- No check stops the segment: the closing states make none, and in the open
states its own window can lift the maximum it is tested against. -/
def Exposed (c : Connection F) (seg : Segment) : Prop :=
  c.state = .finWait1 ∨ c.state = .finWait2 ∨
    (¬ OldTimestamp c seg ∧ (c.updateWindow (c.scaledWindow seg.th)).ackAcceptable seg.th.ack = true)

/-- The segment carries nothing new: no data the reassembler would take in and
no FIN that is due. -/
def Inert (c : Connection F) (seg : Segment) : Prop :=
  c.reasm.Discards seg.th.seq seg.payload c.recv.nxt ∧
    ¬ (hasFlag seg.th.flags FIN = true ∧ c.state ≠ .closeWait ∧ finSeq seg.th seg.payload = c.recv.nxt)

/-- What was received: the buffer, RCV.NXT, the reassembler and the peer's FIN. -/
def intake (c : Connection F) : Bytes × U32 × Reassembler × Bool :=
  (c.recvBuf, c.recv.nxt, c.reasm, c.peerFin)

theorem deliver_intake (c : Connection F) (seq : U32) (payload : Bytes) :
    (c.deliver seq payload).intake = c.intake ↔ c.reasm.Discards seq payload c.recv.nxt := by
  rw [← Reassembler.recv_unchanged_iff, deliver_eq]
  simp only [intake, Prod.mk.injEq, and_true]
  constructor
  · rintro ⟨hbuf, -, hre⟩
    exact Prod.ext hre (List.append_right_eq_self.mp hbuf)
  · intro heq
    rw [heq]
    simp

theorem takeFin_intake_ne (c : Connection F) (seq : U32) (payload : Bytes) (next : State) :
    ((c.deliver seq payload).takeFin next).intake ≠ c.intake := by
  intro heq
  rw [deliver_eq] at heq
  simp only [intake, takeFin, Prod.mk.injEq] at heq
  obtain ⟨hbuf, hnxt, -, -⟩ := heq
  rw [List.append_right_eq_self.mp hbuf] at hnxt
  simp only [List.length_nil, BitVec.add_zero] at hnxt
  have hone : (1#32 : U32) = 0#32 := BitVec.add_right_eq_self.mp hnxt
  exact absurd hone (by decide)

theorem intake_iff {c c' : Connection F} {seq : U32} {payload : Bytes} {next : State} {due : Prop}
    (h : (due ∧ c'.intake = ((c.deliver seq payload).takeFin next).intake) ∨
      (¬ due ∧ c'.intake = (c.deliver seq payload).intake)) :
    c'.intake = c.intake ↔ c.reasm.Discards seq payload c.recv.nxt ∧ ¬ due := by
  rcases h with ⟨hdue, heq⟩ | ⟨hdue, heq⟩
  · rw [heq]
    exact ⟨fun h => absurd h (takeFin_intake_ne c seq payload next), fun h => absurd hdue h.2⟩
  · rw [heq, deliver_intake]
    exact ⟨fun h => ⟨h, hdue⟩, fun h => h.1⟩

theorem deliver_nxt {c : Connection F} {seq : U32} {payload : Bytes}
    (h : c.reasm.Discards seq payload c.recv.nxt) : (c.deliver seq payload).recv.nxt = c.recv.nxt := by
  have hin := (deliver_intake c seq payload).mpr h
  exact congrArg (fun t => t.2.1) hin

theorem inert_congr {c c' : Connection F} (hin : c'.intake = c.intake) (hst : c'.state = c.state)
    (seg : Segment) : Inert c' seg ↔ Inert c seg := by
  have hnxt : c'.recv.nxt = c.recv.nxt := congrArg (fun t => t.2.1) hin
  have hre : c'.reasm = c.reasm := congrArg (fun t => t.2.2.1) hin
  rw [Inert, Inert, hnxt, hre, hst]

theorem closing_intake {c c' : Connection F} {seg : Segment} (next : State) (hs : c.state ≠ .closeWait)
    (h : ((hasFlag seg.th.flags FIN = true ∧
          finSeq seg.th seg.payload = (c.deliver seg.th.seq seg.payload).recv.nxt) ∧
        c'.intake = ((c.deliver seg.th.seq seg.payload).takeFin next).intake) ∨
      (¬ (hasFlag seg.th.flags FIN = true ∧
          finSeq seg.th seg.payload = (c.deliver seg.th.seq seg.payload).recv.nxt) ∧
        c'.intake = (c.deliver seg.th.seq seg.payload).intake)) :
    c'.intake = c.intake ↔ Inert c seg := by
  rw [intake_iff h, Inert]
  refine and_congr_right fun hd => ?_
  rw [deliver_nxt hd]
  simp [hs]

theorem onFinWait2_intake {c : Connection F} (hs : c.state = .finWait2) (seg : Segment) (now : U64) :
    (c.onFinWait2 seg.th seg.payload now).1.intake = c.intake ↔ Inert c seg := by
  refine closing_intake .timeWait (by simp [hs]) ?_
  unfold onFinWait2
  dsimp only
  split_ifs with hfin hdata
  · exact .inl ⟨hfin, rfl⟩
  · exact .inr ⟨hfin, rfl⟩
  · exact .inr ⟨hfin, rfl⟩

theorem onFinWait1_intake {c : Connection F} (hs : c.state = .finWait1) (seg : Segment) (now : U64) :
    (c.onFinWait1 seg.th seg.payload now).1.intake = c.intake ↔ Inert c seg := by
  unfold onFinWait1
  dsimp only
  generalize hb : (if c.ackedOurFin seg.th = true then c.dropAcked seg.th.ack now else c) = b
  have hsame : b.intake = c.intake ∧ b.state = c.state := by
    rw [← hb]
    split_ifs <;> exact ⟨rfl, rfl⟩
  rw [← inert_congr hsame.1 hsame.2, ← hsame.1]
  refine closing_intake .closing (by simp [hsame.2, hs]) ?_
  split_ifs with hfin hacked hacked' hdata hdata'
  · exact .inl ⟨hfin, rfl⟩
  · exact .inl ⟨hfin, rfl⟩
  · exact .inr ⟨hfin, rfl⟩
  · exact .inr ⟨hfin, rfl⟩
  · exact .inr ⟨hfin, rfl⟩
  · exact .inr ⟨hfin, rfl⟩

def FinDue (d : Connection F) (seg : Segment) : Prop :=
  d.state = .established ∧
    (if hasFlag seg.th.flags FIN = true ∧ before (finSeq seg.th seg.payload) d.recv.nxt = false then
      some (finSeq seg.th seg.payload) else d.pendingFin) = some d.recv.nxt

theorem receive_cases (c : Connection F) (seg : Segment) :
    (FinDue (c.deliver seg.th.seq seg.payload) seg ∧ (c.receive seg.th seg.payload).1.intake =
        ((c.deliver seg.th.seq seg.payload).takeFin .closeWait).intake) ∨
      (¬ FinDue (c.deliver seg.th.seq seg.payload) seg ∧
        (c.receive seg.th seg.payload).1.intake = (c.deliver seg.th.seq seg.payload).intake) := by
  unfold receive FinDue
  generalize c.deliver seg.th.seq seg.payload = d
  dsimp only
  by_cases hst : d.state = .established
  · -- the re-acknowledged FIN belongs to CLOSE_WAIT
    have hcw : d.state ≠ .closeWait := by simp [hst]
    simp only [hst, reduceCtorEq, false_and, and_false, if_false, true_and, Bool.not_eq_true']
    split_ifs with hfin hdue hdata hdue' hdata'
    · exact .inl ⟨hdue.2, rfl⟩
    · exact .inr ⟨fun h => hdue ⟨rfl, h⟩, rfl⟩
    · exact .inr ⟨fun h => hdue ⟨rfl, h⟩, rfl⟩
    · exact .inl ⟨hdue'.2, rfl⟩
    · exact .inr ⟨fun h => hdue' ⟨hst, h⟩, rfl⟩
    · exact .inr ⟨fun h => hdue' ⟨hst, h⟩, rfl⟩
  · right
    simp only [hst, false_and, and_false, if_false, not_false_eq_true, true_and]
    split_ifs <;> rfl

/-- The open states: with no FIN due before, a FIN is consumed exactly if it
sits at RCV.NXT and none was consumed already. -/
theorem receive_intake {c : Connection F} (hg : Guarded c) (hs : c.state.Sending) (seg : Segment) :
    (c.receive seg.th seg.payload).1.intake = c.intake ↔ Inert c seg := by
  rw [intake_iff (receive_cases c seg), Inert]
  refine and_congr_right fun hd => not_congr ?_
  have hpend : (c.deliver seg.th.seq seg.payload).pendingFin = c.pendingFin := by rw [deliver_eq]
  rw [FinDue, deliver_state, deliver_nxt hd, hpend]
  rcases hs with hest | hcw
  · have hdue := hg.due hest
    simp only [hest, ne_eq, reduceCtorEq, not_false_eq_true, true_and]
    constructor
    · intro heq
      split_ifs at heq with hfin
      · exact ⟨hfin.1, Option.some.inj heq⟩
      · exact absurd heq hdue
    · rintro ⟨hfin, heq⟩
      rw [heq, if_pos ⟨hfin, before_self _⟩]
  · simp [hcw]

/-- An acknowledgement that only the segment's own window makes acceptable is
older than SND.UNA, so it is neither new nor a duplicate. -/
theorem ack_old {c : Connection F} (hg : Guarded c) {w ack : U32} (hw : w.toNat < 2 ^ 30)
    (hbad : c.ackAcceptable ack = false) (hok : (c.updateWindow w).ackAcceptable ack = true) :
    between c.send.una ack c.send.nxt = false ∧ ack ≠ c.send.una := by
  have hmax : (umax c.maxSndWnd w).toNat < 2 ^ 30 := (hg.updateWindow hw).small
  have hle : c.maxSndWnd ≤ umax c.maxSndWnd w := le_umax_left _ _
  have hsmall := hg.small
  have hok' : (!before ack (c.send.una - umax c.maxSndWnd w) && !after ack c.send.nxt) = true := hok
  simp only [ackAcceptable] at hbad
  generalize umax c.maxSndWnd w = M at hmax hle hok'
  generalize c.maxSndWnd = m at hbad hsmall hle
  simp only [Bool.and_eq_true, Bool.not_eq_true'] at hok'
  obtain ⟨hM, hnxt⟩ := hok'
  rw [hnxt, Bool.not_false, Bool.and_true, Bool.not_eq_false'] at hbad
  rw [Bool.eq_false_iff, ne_eq, before_iff, not_le] at hM
  rw [before_iff] at hbad
  have hpast : (c.send.una - ack).toNat < 2 ^ 31 ∧ ack ≠ c.send.una := by
    generalize c.send.una = una at *
    constructor
    · bv_omega
    · rintro rfl
      bv_omega
  refine ⟨?_, hpast.2⟩
  have hafter : after ack c.send.una = false := by
    rw [after, Bool.eq_false_iff, ne_eq, before_iff, not_le]
    exact hpast.1
  rw [between, hafter, Bool.false_and]

/-- The fields a suspect segment can change before the data is looked at leave
what was received alone. -/
theorem processAck_old {c : Connection F} {th : TcpHeader} (payload : Bytes) (opts : TcpOptions)
    (prevWnd newWnd : U32) (now : U64) (hnew : between c.send.una th.ack c.send.nxt = false)
    (hdup : th.ack ≠ c.send.una) :
    (c.processAck th payload opts prevWnd newWnd now).2 = none ∧
      (c.processAck th payload opts prevWnd newWnd now).1.intake = c.intake := by
  unfold processAck
  generalize hd : (if c.sackOk = true ∧ opts.sackBlockCount > 0 then
    { c with retx := c.retx.markSacked opts.validBlocks } else c) = d
  have hsame : d.send = c.send ∧ d.intake = c.intake := by
    rw [← hd]
    split_ifs <;> exact ⟨rfl, rfl⟩
  simp only [hsame.1, hnew, hdup, false_and, Bool.false_eq_true, if_false]
  exact ⟨trivial, hsame.2⟩

theorem onSegment_closing {c : Connection F} {seg : Segment} (now : U64) (rnd : U32)
    (hs : c.state = .finWait1 ∨ c.state = .finWait2) (hrst : hasFlag seg.th.flags RST = false)
    (hsyn : hasFlag seg.th.flags SYN = false) :
    (c.onSegment seg now rnd).1.intake = c.intake ↔ Inert c seg := by
  have hstate : (c.arrive now).state = c.state := rfl
  rw [← inert_congr (show (c.arrive now).intake = c.intake from rfl) hstate,
    ← show (c.arrive now).intake = c.intake from rfl]
  have hsync : c.isSynchronized = true := by
    rcases hs with hs | hs <;> rw [isSynchronized, hs]
  rw [onSegment_byState hsync hrst hsyn, onState, hstate]
  rcases hs with hs | hs <;> rw [hs]
  · exact onFinWait1_intake (hstate.trans hs) seg now
  · exact onFinWait2_intake (hstate.trans hs) seg now

theorem sifted {c d : Connection F} {th : TcpHeader} {opts : TcpOptions} (h : c.paws th opts = some d) :
    let u := d.updateWindow (d.scaledWindow th)
    u.intake = c.intake ∧ u.state = c.state ∧ u.send.una = c.send.una ∧ u.send.nxt = c.send.nxt ∧
      ∀ ack, u.ackAcceptable ack = (c.updateWindow (c.scaledWindow th)).ackAcceptable ack := by
  obtain ⟨t, rfl⟩ := paws_eq h
  exact ⟨rfl, rfl, rfl, rfl, fun _ => rfl⟩

theorem onOpen_suspect {c : Connection F} (hg : Guarded c) (hs : c.state.Sending) {seg : Segment}
    (hsus : Suspect c seg) (now : U64) (rnd : U32) :
    (c.onOpen seg.th seg.payload seg.opts now rnd).1.intake = c.intake ↔ (Exposed c seg → Inert c seg) := by
  have hopen : c.state ≠ .finWait1 ∧ c.state ≠ .finWait2 := by
    rcases hs with hs | hs <;> simp [hs]
  simp only [Exposed, hopen.1, hopen.2, false_or]
  by_cases hold : OldTimestamp c seg
  · -- PAWS answers with an acknowledgement
    have hnone : c.paws seg.th seg.opts = none := by
      rw [← Option.not_isSome_iff_eq_none, paws_isSome_iff, not_not]
      exact hold
    simp only [onOpen, hnone, hold, not_true_eq_false, false_and, false_imp_iff]
  obtain ⟨hack, hbad⟩ := hsus.resolve_left hold
  obtain ⟨d, hd⟩ := Option.isSome_iff_exists.mp ((paws_isSome_iff c seg).mpr hold)
  have hgu := (hg.calm (paws_calm hd)).updateWindow (d.scaledWindow_lt seg.th)
  obtain ⟨hin, hst, huna, hnxt, hacc⟩ := sifted hd
  simp only [onOpen, hd, hack, if_true, hold, not_false_eq_true, true_and]
  generalize d.updateWindow (d.scaledWindow seg.th) = u at *
  rw [hacc]
  cases hok : (c.updateWindow (c.scaledWindow seg.th)).ackAcceptable seg.th.ack with
  | false =>
      -- the acknowledgement is challenged
      have hcl := (maybeChallenge_clocks u now rnd).1
      simp only [Bool.not_false, if_true, Bool.false_eq_true, false_imp_iff, iff_true]
      rw [hcl, ← hin]
      rfl
  | true =>
      obtain ⟨hnew, hdup⟩ := ack_old hg (c.scaledWindow_lt seg.th) hbad hok
      rw [← huna, ← hnxt] at hnew
      rw [← huna] at hdup
      obtain ⟨hnone, hin'⟩ := processAck_old seg.payload seg.opts d.send.wnd (d.scaledWindow seg.th) now hnew hdup
      have hcalm := processAck_calm u seg.th seg.payload seg.opts d.send.wnd (d.scaledWindow seg.th) now
      have hst' := processAck_state u seg.th seg.payload seg.opts d.send.wnd (d.scaledWindow seg.th) now
      simp only [Bool.not_true, Bool.false_eq_true, if_false, true_imp_iff]
      generalize u.processAck seg.th seg.payload seg.opts d.send.wnd (d.scaledWindow seg.th) now = r at *
      obtain ⟨v, pkt⟩ := r
      obtain rfl : pkt = none := hnone
      have hvc : v.intake = c.intake := hin'.trans hin
      have hvs : v.state = c.state := hst'.trans hst
      have hiff := receive_intake (hgu.calm hcalm) (hvs ▸ hs) seg
      rw [inert_congr hvc hvs] at hiff
      rw [← hvc]
      exact hiff

end Connection

namespace Host
open Connection

/-- A suspect segment changes nothing that was received exactly if a check
stops it or it carries nothing new. -/
theorem injection_defences_hold_iff {h : Host F} (hf : Fresh h) (calls : List Call) (seg : Segment)
    (now : U64) (rnd : U32) (hs : (h.run calls).conn.state.Receiving)
    (hrst : hasFlag seg.th.flags RST = false) (hsyn : hasFlag seg.th.flags SYN = false)
    (hsus : Suspect (h.run calls).conn seg) :
    let c := (h.run calls).conn
    (c.onSegment seg now rnd).1.intake = c.intake ↔ (Exposed c seg → Inert c seg) := by
  intro c
  have hg : Guarded (c.arrive now) := by
    have hgc : Guarded c := run_guarded hf.guarded calls
    exact ⟨hgc.wnd, hgc.small, hgc.early, hgc.due⟩
  rcases hs with hs | hs | hs | hs
  · rw [onSegment_open (.inl hs) hrst hsyn now rnd]
    exact onOpen_suspect hg (.inl hs) hsus now rnd
  · rw [onSegment_open (.inr hs) hrst hsyn now rnd]
    exact onOpen_suspect hg (.inr hs) hsus now rnd
  · rw [onSegment_closing now rnd (.inl hs) hrst hsyn]
    exact ⟨fun hin _ => hin, fun hin => hin (.inl hs)⟩
  · rw [onSegment_closing now rnd (.inr hs) hrst hsyn]
    exact ⟨fun hin _ => hin, fun hin => hin (.inr (.inl hs))⟩

theorem forged_data_is_stopped :
    (sample.conn.onSegment (forgedAck 1024#16 [66#8]) 1#64 0#32).1.intake = sample.conn.intake :=
  (injection_defences_hold_iff sample_fresh [] (forgedAck 1024#16 [66#8]) 1#64 0#32 (by decide +kernel)
    (by decide) (by decide) (.inr ⟨by decide, by decide +kernel⟩)).mpr fun hexp => by
      rcases hexp with hst | hst | ⟨-, hok⟩
      · exact absurd hst (by decide +kernel)
      · exact absurd hst (by decide +kernel)
      · exact absurd hok (by decide +kernel)

/-- After our FIN no check is left: the forged byte is delivered. -/
theorem forged_data_delivered_after_close :
    let c := (sample.run [.close 1#64]).conn
    let seg := forgedAck 1024#16 [66#8]
    Fresh sample ∧ c.state = .finWait1 ∧ Suspect c seg ∧
      (c.onSegment seg 2#64 0#32).1.recvBuf = [66#8] ∧ (c.onSegment seg 2#64 0#32).1.intake ≠ c.intake := by
  intro c seg
  have hbuf : (c.onSegment seg 2#64 0#32).1.recvBuf = [66#8] := by decide +kernel
  refine ⟨sample_fresh, by decide +kernel, .inr ⟨by decide, by decide +kernel⟩, hbuf, fun hsame => ?_⟩
  have hkept : (c.onSegment seg 2#64 0#32).1.recvBuf = c.recvBuf := congrArg Prod.fst hsame
  exact absurd (hbuf.symm.trans hkept) (by decide +kernel)

end Host
end TcpStack
