import TcpStack.Machine
import TcpStack.Codec

/-!
# Every call is a run of micro-steps

The connection refines the sequence-number machine: whatever a call does, its
effect on the core and the packets it returns are those of some micro-steps.
-/
namespace TcpStack
open Tcp TcpStack.Seq

variable {F : Type} [F64 F]

namespace Connection

theorem segmentOpts_reads (c : Connection F) (seq ack : U32) (flags : U8) (payload : Bytes)
    {options : Bytes} {opts : TcpOptions} (h4 : options.length % 4 = 0) (h40 : options.length ≤ 40)
    (ho : parseOptions options = .ok opts) :
    ∃ s, Carries (c.segmentOpts seq ack flags options payload) s seq ack flags payload
      opts.validBlocks ∧ s.opts = opts :=
  ⟨_, ⟨decode_buildPacket h4 h40 ho, rfl, rfl, rfl, rfl, rfl⟩, rfl⟩

theorem tsOption_length (tsval tsecr : U32) : (tsOption tsval tsecr).length = 12 := rfl

theorem sackOption_length (blocks : List (U32 × U32)) (hne : blocks ≠ []) :
    (sackOption blocks).length = 4 + 8 * min blocks.length maxSackBlocks := by
  have hpos := List.length_pos_iff.mpr hne
  have hn0 : min blocks.length maxSackBlocks ≠ 0 := by
    simp only [maxSackBlocks]
    omega
  have hflat := flatMap_blockBytes_length (blocks.take (min blocks.length maxSackBlocks))
  rw [List.length_take] at hflat
  have hlen : ((blocks.take (min blocks.length maxSackBlocks)).flatMap
      (fun b => b.1.toBeBytes ++ b.2.toBeBytes)).length = 8 * min blocks.length maxSackBlocks := by
    rw [show (fun b : U32 × U32 => b.1.toBeBytes ++ b.2.toBeBytes) = blockBytes from rfl, hflat]
    omega
  simp only [sackOption]
  rw [if_neg hn0, List.length_append, hlen]
  rfl

theorem parseOptions_tsOption (tsval tsecr : U32) :
    parseOptions (tsOption tsval tsecr) = .ok { timestamps := some (tsval, tsecr) } := by
  have h := parseFrom_tsOption tsval tsecr [] {}
  rwa [List.append_nil, parseFrom_nil] at h

/-- The Timestamps option of an ordinary segment. -/
def stamp (c : Connection F) : Option (U32 × U32) := if c.tsEnabled then some (c.tsVal, c.tsRecent) else none

theorem segment_reads (c : Connection F) (seq ack : U32) (flags : U8) (payload : Bytes) :
    ∃ s, Carries (c.segment seq ack flags payload) s seq ack flags payload [] ∧ s.opts.timestamps = c.stamp := by
  unfold segment stamp
  cases c.tsEnabled with
  | false =>
      obtain ⟨s, hc, ho⟩ := c.segmentOpts_reads seq ack flags payload rfl (Nat.zero_le _) (parseFrom_nil {})
      exact ⟨s, hc, by rw [ho]; rfl⟩
  | true =>
      obtain ⟨s, hc, ho⟩ := c.segmentOpts_reads seq ack flags payload (by simp [tsOption_length])
        (by simp [tsOption_length]) (parseOptions_tsOption c.tsVal c.tsRecent)
      exact ⟨s, hc, by rw [ho]; rfl⟩

theorem segment_carries (c : Connection F) (seq ack : U32) (flags : U8) (payload : Bytes) :
    ∃ s, Carries (c.segment seq ack flags payload) s seq ack flags payload [] := by
  obtain ⟨s, hc, -⟩ := c.segment_reads seq ack flags payload
  exact ⟨s, hc⟩

/-- An ordinary ACK names the first three buffered ranges, or none. -/
theorem ackOptions_reads (c : Connection F) (seq ack : U32) (flags : U8) :
    ∃ s blocks, Carries (c.segmentOpts seq ack flags c.ackOptions []) s seq ack flags [] blocks ∧
      blocks <+: c.reasm.sackBlocks ∧ s.opts.timestamps = c.stamp := by
  have hplain : c.sackOk = false ∨ c.reasm.sackBlocks = [] →
      c.segmentOpts seq ack flags c.ackOptions [] = c.segment seq ack flags [] := by
    intro h
    rcases h with h | h <;> simp [ackOptions, segment, h]
  by_cases hs : c.sackOk = false ∨ c.reasm.sackBlocks = []
  · obtain ⟨s, hc, ht⟩ := c.segment_reads seq ack flags []
    rw [hplain hs]
    exact ⟨s, [], hc, List.nil_prefix, ht⟩
  · rw [not_or, Bool.not_eq_false] at hs
    obtain ⟨hok, hne⟩ := hs
    -- the taken prefix is not empty, so the SACK option is present
    generalize hb : c.reasm.sackBlocks.take (min c.reasm.sackBlocks.length maxSackBlocks) = blocks
    have hbne : blocks ≠ [] := by
      have hpos := List.length_pos_iff.mpr hne
      rw [← hb, ne_eq, List.take_eq_nil_iff, not_or]
      simp only [maxSackBlocks]
      exact ⟨by omega, hne⟩
    have h3 : blocks.take maxSackBlocks = blocks := by
      apply List.take_of_length_le
      rw [← hb, List.length_take]
      omega
    have hlen := sackOption_length blocks hbne
    have hm : min blocks.length maxSackBlocks ≤ 3 := Nat.min_le_right _ _
    have hpre : blocks <+: c.reasm.sackBlocks := hb ▸ List.take_prefix _ _
    have hopt : c.ackOptions =
        (if c.tsEnabled then tsOption c.tsVal c.tsRecent else []) ++ sackOption blocks := by
      simp [ackOptions, hok, hne, hb]
    rw [hopt]
    unfold stamp
    cases c.tsEnabled with
    | false =>
        have hp := parseFrom_sackOption [] {} hbne rfl
        rw [List.append_nil, h3] at hp
        simp only [Bool.false_eq_true, if_false, List.nil_append]
        obtain ⟨s, hc, ho⟩ := c.segmentOpts_reads seq ack flags [] (by omega) (by omega) hp
        refine ⟨s, _, hc, ?_, by rw [ho]⟩
        simpa [TcpOptions.validBlocks] using hpre
    | true =>
        have hp := parseFrom_sackOption [] { timestamps := some (c.tsVal, c.tsRecent) } hbne rfl
        rw [List.append_nil, h3] at hp
        have hp' := (parseFrom_tsOption c.tsVal c.tsRecent (sackOption blocks) {}).trans hp
        simp only [if_true]
        obtain ⟨s, hc, ho⟩ := c.segmentOpts_reads seq ack flags []
          (by rw [List.length_append, hlen, tsOption_length]; omega)
          (by rw [List.length_append, hlen, tsOption_length]; omega) hp'
        refine ⟨s, _, hc, ?_, by rw [ho]⟩
        simpa [TcpOptions.validBlocks] using hpre

theorem ackOptions_carries (c : Connection F) (seq ack : U32) (flags : U8) :
    ∃ s blocks, Carries (c.segmentOpts seq ack flags c.ackOptions []) s seq ack flags [] blocks ∧
      blocks <+: c.reasm.sackBlocks := by
  obtain ⟨s, blocks, hc, hb, -⟩ := c.ackOptions_reads seq ack flags
  exact ⟨s, blocks, hc, hb⟩

theorem launch_core (c : Connection F) (n : Nat) (seg : Bytes) (now : U64) :
    (c.launch n seg now).core = { c.core with
      nxt := c.send.nxt + BitVec.ofNat 32 n
      queue := c.core.queue ++ [⟨c.send.nxt, c.send.nxt + BitVec.ofNat 32 n, seg, false⟩] } := by
  simp only [launch, core, RetxQueue.record, Unacked.queued, List.map_append, List.map_cons, List.map_nil,
    BitVec.add_sub_cancel]

/-- The packets `out` are those of queued segments that are not selectively
acknowledged, and the core is as before. -/
structure Resends (c c₁ : Connection F) (out : List Bytes) : Prop where
  core : c₁.core = c.core
  queued : ∀ pkt ∈ out, ∃ s ∈ c.retx.segments, s.sacked = false ∧ s.packet = pkt

theorem Resends.trans {c c₁ c₂ : Connection F} {out₁ out₂ : List Bytes} (h₁ : Resends c c₁ out₁)
    (h₂ : Resends c₁ c₂ out₂) : Resends c c₂ (out₁ ++ out₂) := by
  refine ⟨h₂.core.trans h₁.core, fun pkt hp => ?_⟩
  rcases List.mem_append.mp hp with hp | hp
  · exact h₁.queued pkt hp
  · obtain ⟨s, hs, hsack, rfl⟩ := h₂.queued pkt hp
    have hqueue : c₁.retx.segments.map Unacked.queued = c.retx.segments.map Unacked.queued :=
      congrArg Core.queue h₁.core
    have hmem : s.queued ∈ c.retx.segments.map Unacked.queued := hqueue ▸ List.mem_map_of_mem hs
    obtain ⟨r, hr, heq⟩ := List.mem_map.mp hmem
    exact ⟨r, hr, (congrArg Queued.sacked heq).trans hsack, congrArg Queued.packet heq⟩

end Connection

open Trace

/-- From `c` to `c'`, with the packets `out`, in micro-steps. -/
def Moves (inp : Option Segment) (c c' : Connection F) (out : List Bytes) : Prop :=
  ∀ h : History, ∃ h' : History, Steps inp ⟨c.core, h⟩ ⟨c'.core, h'⟩ ∧ h'.emitted = h.emitted ++ out ∧
    h'.written = h.written ∧ h'.taken = h.taken ∧ h'.closing = h.closing

namespace Moves

variable {inp : Option Segment} {c c₁ c₂ : Connection F} {out out₁ out₂ : List Bytes}

theorem of_core (h : c₁.core = c.core) : Moves inp c c₁ [] := by
  intro hist
  refine ⟨hist, ?_, by simp, rfl, rfl, rfl⟩
  rw [h]
  exact .refl

theorem refl (c : Connection F) : Moves inp c c [] := of_core rfl

theorem trans (h₁ : Moves inp c c₁ out₁) (h₂ : Moves inp c₁ c₂ out₂) :
    Moves inp c c₂ (out₁ ++ out₂) := by
  intro hist
  obtain ⟨hist₁, hs₁, he₁, hw₁, ht₁, hc₁⟩ := h₁ hist
  obtain ⟨hist₂, hs₂, he₂, hw₂, ht₂, hc₂⟩ := h₂ hist₁
  refine ⟨hist₂, hs₁.trans hs₂, ?_, hw₂.trans hw₁, ht₂.trans ht₁, hc₂.trans hc₁⟩
  rw [he₂, he₁, List.append_assoc]

theorem after (h₁ : Moves inp c c₁ []) (h₂ : Moves inp c₁ c₂ out) : Moves inp c c₂ out := h₁.trans h₂

theorem then_silent (h₁ : Moves inp c c₁ out) (h₂ : Moves inp c₁ c₂ []) : Moves inp c c₂ out := by
  have h := h₁.trans h₂
  rwa [List.append_nil] at h

theorem of_step {f : History → Trace} (hs : ∀ h, Step inp ⟨c.core, h⟩ (f h))
    (hc : ∀ h, (f h).toCore = c₁.core) (hh : ∀ h, (f h).emitted = h.emitted ++ out ∧
      (f h).written = h.written ∧ (f h).taken = h.taken ∧ (f h).closing = h.closing) :
    Moves inp c c₁ out := by
  intro hist
  refine ⟨(f hist).toHistory, .single ?_, hh hist⟩
  rw [← hc hist]
  exact hs hist

theorem ack {pkt : Bytes} {s : Segment} {seq : U32} {blocks : List (U32 × U32)}
    (ho : c.state ≠ .synSent) (hc : Carries pkt s seq c.recv.nxt ACK [] blocks)
    (hb : blocks <+: c.reasm.sackBlocks) : Moves inp c c [pkt] :=
  of_step (fun h => Step.ack (t := ⟨c.core, h⟩) ho hc hb) (fun _ => rfl) fun _ => ⟨rfl, rfl, rfl, rfl⟩

theorem bareAck (ho : c.state ≠ .synSent) : Moves inp c c [c.bareAck] := by
  obtain ⟨s, hc⟩ := c.segment_carries c.send.nxt c.recv.nxt ACK []
  exact ack ho hc List.nil_prefix

theorem resend (h : c.Resends c₁ out) : Moves inp c c₁ out := by
  obtain ⟨hcore, hmem⟩ := h
  refine then_silent ?_ (of_core hcore)
  induction out with
  | nil => exact refl c
  | cons pkt out ih =>
      obtain ⟨s, hs, hsack, hpkt⟩ := hmem pkt (List.mem_cons_self ..)
      have hone : Moves inp c c [pkt] := by
        have hq : ∀ h : History, s.queued ∈ (⟨c.core, h⟩ : Trace).queue :=
          fun _ => List.mem_map_of_mem hs
        rw [← hpkt]
        exact of_step (fun h => Step.resend (hq h) hsack) (fun _ => rfl) fun _ => ⟨rfl, rfl, rfl, rfl⟩
      exact hone.trans (ih fun p hp => hmem p (List.mem_cons_of_mem _ hp))

theorem transmit {n : Nat} {flags : U8} (now : U64) (hs : c.state.Sending) (hn : 0 < n)
    (hle : n ≤ c.sendBuf.length) (hf : flags = PSH ||| ACK ∨ flags = ACK) :
    Moves none c (c.transmit n flags now).1 [(c.transmit n flags now).2] := by
  obtain ⟨s, hc⟩ := Connection.segment_carries { c with sendBuf := c.sendBuf.drop n } c.send.nxt
    c.recv.nxt flags (c.sendBuf.take n)
  refine of_step (fun h => Step.data (t := ⟨c.core, h⟩) rfl hs hn hle hf hc) ?_ fun _ => ⟨rfl, rfl, rfl, rfl⟩
  intro h
  exact (Connection.launch_core { c with sendBuf := c.sendBuf.drop n } n _ now).symm

theorem die (hcause : (c.state ≠ .synSent ∧ c.state ≠ .synRcvd) ∨
    ∃ seg, inp = some seg ∧ hasFlag seg.th.flags RST = true) :
    Moves inp c { c with state := .closed } [] :=
  of_step (fun h => Step.die (t := ⟨c.core, h⟩) hcause) (fun _ => rfl)
    fun h => ⟨(List.append_nil h.emitted).symm, rfl, rfl, rfl⟩

end Moves

namespace RetxQueue

theorem resendWhere_queued (p : Unacked → Bool) (now : U64) (segments : List Unacked) :
    (resendWhere p now segments).1.map Unacked.queued = segments.map Unacked.queued := by
  simp only [resendWhere, List.map_map]
  refine List.map_congr_left fun s _ => ?_
  simp only [Function.comp_apply]
  split
  · rfl
  · rfl

theorem resendWhere_mem (now : U64) {p : Unacked → Bool} {segments : List Unacked} {pkt : Bytes}
    (h : pkt ∈ (resendWhere p now segments).2) : ∃ s ∈ segments, p s = true ∧ s.packet = pkt := by
  obtain ⟨s, hs, rfl⟩ := List.mem_map.mp h
  obtain ⟨hs, hp⟩ := List.mem_filter.mp hs
  exact ⟨s, hs, hp, rfl⟩

theorem resendFirst_spec {p : Unacked → Bool} {now : U64} {segments segments' : List Unacked}
    {pkt : Bytes} (h : resendFirst p now segments = some (segments', pkt)) :
    segments'.map Unacked.queued = segments.map Unacked.queued ∧
      ∃ s ∈ segments, p s = true ∧ s.packet = pkt := by
  obtain ⟨l, s, r, rfl, -, hp, rfl, rfl⟩ := resendFirst_split h
  refine ⟨?_, s, List.mem_append_right _ List.mem_cons_self, hp, rfl⟩
  rw [List.map_append, List.map_append]
  rfl

/-- What the three single-segment retransmissions have in common. -/
def ResentOne (q q' : RetxQueue) (pkt : Option Bytes) : Prop :=
  q'.segments.map Unacked.queued = q.segments.map Unacked.queued ∧
    ∀ b ∈ pkt, ∃ s ∈ q.segments, s.sacked = false ∧ s.packet = b

theorem fastRetransmit_resent (q : RetxQueue) (now : U64) :
    ResentOne q (q.fastRetransmit now).1 (q.fastRetransmit now).2 := by
  unfold fastRetransmit
  split
  · rename_i segments pkt h
    obtain ⟨hq, s, hs, hp, hpkt⟩ := resendFirst_spec h
    refine ⟨hq, fun b hb => ⟨s, hs, by simpa using hp, ?_⟩⟩
    rw [hpkt]
    simpa using hb
  · exact ⟨rfl, by simp⟩

theorem retransmitLast_resent (q : RetxQueue) (now : U64) :
    ResentOne q (q.retransmitLast now).1 (q.retransmitLast now).2 := by
  unfold retransmitLast
  split
  · rename_i segments pkt h
    obtain ⟨hq, s, hs, hp, hpkt⟩ := resendFirst_spec h
    refine ⟨?_, fun b hb => ⟨s, List.mem_reverse.mp hs, by simpa using hp, ?_⟩⟩
    · simp only [List.map_reverse, hq, List.reverse_reverse]
    · rw [hpkt]
      simpa using hb
  · exact ⟨rfl, by simp⟩

theorem nextLostRetransmit_resent (q : RetxQueue) (thresh : Nat) (now : U64) :
    ResentOne q (q.nextLostRetransmit thresh now).1 (q.nextLostRetransmit thresh now).2 := by
  rcases q.nextLostRetransmit_cases thresh now with ⟨heq, -⟩ | ⟨l, s, r, hq, -, hs, heq⟩
  · rw [heq]
    exact ⟨rfl, by simp⟩
  · simp only [Bool.and_eq_true, Bool.not_eq_true'] at hs
    rw [heq, ResentOne, hq]
    refine ⟨?_, fun b hb => ⟨s, List.mem_append_right _ List.mem_cons_self, hs.1.1, by simpa using hb⟩⟩
    rw [List.map_append, List.map_append]
    rfl

theorem ack_queued (q : RetxQueue) (una : U32) (now : U64) :
    (q.ack una now).1.segments.map Unacked.queued =
      (q.segments.map Unacked.queued).filter (fun s => before una s.endSeq) := by
  simp only [ack, List.filter_map]
  rfl

theorem markSacked_queued (q : RetxQueue) (blocks : List (U32 × U32)) :
    (q.markSacked blocks).segments.map Unacked.queued =
      (q.segments.map Unacked.queued).map
        (fun s => { s with sacked := s.sacked || Trace.covered blocks s }) := by
  simp only [markSacked, List.map_map]
  refine List.map_congr_left fun s _ => ?_
  have hcov : Trace.covered blocks s.queued = covered blocks s := rfl
  simp only [Function.comp_apply, hcov]
  cases hs : s.sacked <;> cases hc : covered blocks s <;> simp [Unacked.queued, hs]

end RetxQueue

namespace Connection

variable {inp : Option Segment}

theorem core_retx {c : Connection F} {q : RetxQueue}
    (h : q.segments.map Unacked.queued = c.retx.segments.map Unacked.queued) :
    { c with retx := q }.core = c.core := by
  simp [core, h]

theorem resends_one {c c' : Connection F} {q : RetxQueue} {pkt : Option Bytes}
    (h : RetxQueue.ResentOne c.retx q pkt) (hc : c'.core = { c with retx := q }.core) :
    Resends c c' pkt.toList := by
  refine ⟨hc.trans (core_retx h.1), fun b hb => ?_⟩
  exact h.2 b (by simpa using hb)

theorem retransmitHoles_resends (limit : U32) (now : U64) (fuel : Nat) : ∀ c : Connection F,
    Resends c { c with retx := (retransmitHoles limit now fuel c.retx).1 }
      (retransmitHoles limit now fuel c.retx).2 := by
  induction fuel with
  | zero => exact fun c => ⟨rfl, fun b hb => (nomatch hb)⟩
  | succ fuel ih =>
      intro c
      simp only [retransmitHoles]
      split
      · have hr := c.retx.nextLostRetransmit_resent dupThresh now
        cases hn : c.retx.nextLostRetransmit dupThresh now with
        | mk q pkt =>
            rw [hn] at hr
            cases pkt with
            | none => exact resends_one hr rfl
            | some pkt =>
                have hone : Resends c { c with retx := q } [pkt] := resends_one hr rfl
                exact hone.trans (ih { c with retx := q })
      · exact ⟨rfl, fun b hb => (nomatch hb)⟩

theorem retransmitHoles_packets (limit : U32) (now : U64) (fuel : Nat) (c : Connection F) :
    ∀ p ∈ (retransmitHoles limit now fuel c.retx).2, ∃ s ∈ c.retx.segments, s.packet = p := by
  intro p hp
  obtain ⟨s, hs, -, hpkt⟩ := (retransmitHoles_resends limit now fuel c).queued p hp
  exact ⟨s, hs, hpkt⟩

theorem fillPipe_moves (limit : U32) (now : U64) (fuel : Nat) : ∀ c : Connection F, c.state.Sending →
    Moves none c (fillPipe limit now fuel c).1 (fillPipe limit now fuel c).2 := by
  induction fuel with
  | zero => exact fun c _ => .refl c
  | succ fuel ih =>
      intro c hs
      simp only [fillPipe]
      split_ifs with hempty hfull hn
      · exact .refl c
      · exact .refl c
      · exact .refl c
      · generalize hm : min (min (limit - c.retx.pipe dupThresh).toNat c.sendMss.toNat)
          c.sendBuf.length = n at hn
        have hle : n ≤ c.sendBuf.length := by omega
        have hone := Moves.transmit now hs (Nat.pos_of_ne_zero hn) hle (.inl rfl)
        exact hone.trans (ih _ hs)

theorem pace_core {c c' : Connection F} {pacing : F} {n : Nat} {now : U64}
    (h : c.pace pacing n now = some c') : c'.core = c.core ∧ c'.state = c.state ∧
      c'.sendBuf = c.sendBuf := by
  unfold pace at h
  split_ifs at h <;> simp only [Option.some.injEq] at h <;> subst h <;> exact ⟨rfl, rfl, rfl⟩

theorem drain_moves (pacing : F) (now : U64) (fuel : Nat) : ∀ c : Connection F, c.state.Sending →
    Moves none c (drain pacing now fuel c).1 (drain pacing now fuel c).2 := by
  induction fuel with
  | zero => exact fun c _ => .refl c
  | succ fuel ih =>
      intro c hs
      simp only [drain]
      generalize hm : min (min c.usableWindow.toNat c.sendMss.toNat) c.sendBuf.length = n
      split_ifs with hempty hn hnagle
      · exact .refl c
      · exact .refl c
      · exact .refl c
      · cases hp : c.pace pacing n now with
        | none => exact .refl c
        | some c' =>
            obtain ⟨hcore, hstate, hbuf⟩ := pace_core hp
            have hle : n ≤ c'.sendBuf.length := by
              rw [hbuf]
              omega
            have hs' : c'.state.Sending := hstate ▸ hs
            have hone := Moves.transmit now hs' (Nat.pos_of_ne_zero hn) hle (.inl rfl)
            exact (Moves.of_core hcore).after (hone.trans (ih _ hs'))

theorem armProbe_core (c : Connection F) (now : U64) : (c.armProbe now).core = c.core := by
  unfold armProbe
  split_ifs <;> rfl

theorem pollTransmit_moves (c : Connection F) (now : U64) :
    Moves none c (c.pollTransmit now).1 (c.pollTransmit now).2 := by
  unfold pollTransmit
  split_ifs with hclosed
  · exact .refl c
  have hs : c.state.Sending := by
    rw [not_and_or, not_not, not_not] at hclosed
    exact hclosed
  refine Moves.after (.of_core (show Connection.core { c with tsVal := now.setWidth 32 } = c.core from rfl)) ?_
  generalize hc' : { c with tsVal := now.setWidth 32 } = c'
  have hs' : c'.state.Sending := by
    rw [← hc']
    exact hs
  dsimp only
  split_ifs with hrec
  · unfold recoverSack
    exact (Moves.resend (retransmitHoles_resends _ now _ c')).trans (fillPipe_moves _ now _ _ hs')
  · exact (drain_moves _ now _ c' hs').then_silent (.of_core (armProbe_core _ now))

theorem reap_moves (c : Connection F) (now : U64) : Moves inp c (c.reap now) [] := by
  have hone : ∀ (c : Connection F) (p : Prop) [Decidable p],
      (p → c.state ≠ .synSent ∧ c.state ≠ .synRcvd) →
      Moves inp c (if p then { c with state := .closed } else c) [] := by
    intro c p _ hp
    split_ifs with h
    · exact .die (.inl (hp h))
    · exact .refl c
  unfold reap
  refine (hone c _ ?_).after (hone _ _ ?_)
  · rintro ⟨h, -⟩
    simp [h]
  · rintro (⟨h, -⟩ | ⟨h, -⟩) <;> simp [h]

theorem tickRack_resends (c : Connection F) (now : U64) :
    Resends c (c.tickRack now).1 (c.tickRack now).2 := by
  refine ⟨core_retx (RetxQueue.resendWhere_queued _ _ _), fun b hb => ?_⟩
  obtain ⟨s, hs, hp, hpkt⟩ := RetxQueue.resendWhere_mem now hb
  simp only [Bool.and_eq_true, Bool.not_eq_true'] at hp
  exact ⟨s, hs, hp.1, hpkt⟩

theorem tickProbe_resends (c : Connection F) (now : U64) :
    Resends c (c.tickProbe now).1 (c.tickProbe now).2 := by
  unfold tickProbe
  split_ifs
  · have hr := c.retx.retransmitLast_resent now
    cases hn : c.retx.retransmitLast now with
    | mk q pkt =>
        rw [hn] at hr
        cases pkt with
        | none => exact resends_one hr rfl
        | some pkt => exact resends_one hr rfl
  · exact ⟨rfl, fun b hb => (nomatch hb)⟩

theorem tickDue_resends (c : Connection F) (now : U64) :
    Resends c (c.tickDue now).1 (c.tickDue now).2 := by
  have hcore := core_retx (c := c) (q := (c.retx.due now c.rtt.rto).1)
    (RetxQueue.resendWhere_queued _ _ _)
  unfold tickDue
  dsimp only
  split_ifs
  · exact ⟨hcore, fun b hb => (nomatch hb)⟩
  · refine ⟨hcore, fun b hb => ?_⟩
    obtain ⟨s, hs, hp, hpkt⟩ := RetxQueue.resendWhere_mem now hb
    simp only [Bool.and_eq_true, Bool.not_eq_true'] at hp
    exact ⟨s, hs, hp.1, hpkt⟩

theorem timers_resend (c : Connection F) (now : U64) :
    let rack := c.tickRack now
    let probe := rack.1.tickProbe now
    let due := probe.1.tickDue now
    Resends c due.1 (rack.2 ++ probe.2 ++ due.2) :=
  ((tickRack_resends c now).trans (tickProbe_resends _ now)).trans (tickDue_resends _ now)

theorem tickPersist_moves (c : Connection F) (now : U64) :
    Moves none c (c.tickPersist now).1 (c.tickPersist now).2 := by
  unfold tickPersist
  split_ifs with hopen harm hfire
  · exact .of_core rfl
  · obtain ⟨hs, -, hbuf, -⟩ := hopen
    have hpos : 0 < c.sendBuf.length := by
      rw [List.length_pos_iff]
      simpa using hbuf
    exact (Moves.transmit now hs Nat.one_pos hpos (.inr rfl)).then_silent (.of_core rfl)
  · exact .refl c
  · exact .of_core rfl

theorem tickKeepalive_moves (c : Connection F) (now : U64) :
    Moves inp c (c.tickKeepalive now).1 (c.tickKeepalive now).2 := by
  simp only [tickKeepalive]
  split_ifs with hidle hdue hlast
  · obtain ⟨-, hest, -⟩ := hidle
    exact .die (.inl (by simp [hest]))
  · obtain ⟨-, hest, -⟩ := hidle
    have hcore : Connection.core { c with keepaliveProbesSent := c.keepaliveProbesSent + 1#32 } = c.core := rfl
    refine Moves.after (.of_core hcore) ?_
    obtain ⟨s, hc⟩ := segment_carries
      { c with keepaliveProbesSent := c.keepaliveProbesSent + 1#32 } (c.send.nxt - 1#32) c.recv.nxt
      ACK []
    exact .ack (by simp [hest]) hc List.nil_prefix
  · exact .refl c
  · exact .refl c

theorem onTick_moves (c : Connection F) (now : U64) :
    Moves none c (c.onTick now).1 (c.onTick now).2 := by
  unfold onTick
  have h₀ : Moves none c { c with tsVal := now.setWidth 32 } [] := .of_core rfl
  have h₁ := h₀.after (reap_moves _ now)
  have h₂ := h₁.after (.resend (timers_resend _ now))
  have h₃ := h₂.trans (tickPersist_moves _ now)
  exact h₃.trans (tickKeepalive_moves _ now)

section
variable {seg : Segment}

theorem maybeChallenge_moves {c : Connection F} (now : U64) (rnd : U32) (hs : c.state ≠ .synSent) :
    Moves inp c (c.maybeChallenge now rnd).1 (c.maybeChallenge now rnd).2.toList := by
  unfold maybeChallenge
  generalize hd : (if now - c.challengeWindowMs ≥ challengeRefillMs then
    { c with challengeWindowMs := now, challengeBudget := freshBudget rnd } else c) = d
  have hcore : d.core = c.core := by
    rw [← hd]
    split_ifs <;> rfl
  have hstate : d.state ≠ .synSent := by
    rw [show d.state = c.state from congrArg Core.state hcore]
    exact hs
  dsimp only
  split_ifs
  · exact .of_core hcore
  · have hspent : Connection.core { d with challengeBudget := d.challengeBudget - 1#32 } = c.core := hcore
    refine Moves.after (.of_core hspent) ?_
    exact .bareAck hstate

theorem onRst_moves (c : Connection F) (now : U64) (rnd : U32) (hr : hasFlag seg.th.flags RST = true) :
    Moves (some seg) c (c.onRst seg.th now rnd).1 (c.onRst seg.th now rnd).2.toList := by
  have hdie : Moves (some seg) c { c with state := .closed } [] := .die (.inr ⟨seg, rfl, hr⟩)
  unfold onRst
  split_ifs with hsyn
  · exact hdie
  · exact .refl c
  · exact .refl c
  · exact hdie
  · exact maybeChallenge_moves now rnd hsyn
  · exact .refl c

theorem onSynSent_moves {c : Connection F} (now : U64) (hs : c.state = .synSent) :
    Moves (some seg) c (c.onSynSent seg.th seg.opts now).1
      (c.onSynSent seg.th seg.opts now).2.toList := by
  unfold onSynSent
  split_ifs with hsynack
  · obtain ⟨hflags, hack⟩ := hsynack
    obtain ⟨hsyn, hackf⟩ := hasFlag_of_and hflags
    refine Moves.after ?_ (Moves.bareAck (by simp))
    refine .of_step (fun h => Step.openActive (t := ⟨c.core, h⟩) rfl hsyn hackf hs hack) ?_
      fun h => ⟨(List.append_nil h.emitted).symm, rfl, rfl, rfl⟩
    intro h
    simp [core, Trace.advance, Trace.dropAcked, RetxQueue.ack_queued]
  · exact .refl c

theorem onSynRcvd_moves {c c' : Connection F} (now : U64) (h : c.onSynRcvd seg.th now = some c') :
    Moves (some seg) c c' [] := by
  unfold onSynRcvd at h
  split_ifs at h with hs hack
  · simp only [Option.some.injEq] at h
    subst h
    refine .of_step (fun h => Step.openPassive (t := ⟨c.core, h⟩) rfl hack.1 hs hack.2) ?_
      fun h => ⟨(List.append_nil h.emitted).symm, rfl, rfl, rfl⟩
    intro h
    simp [core, Trace.advance, Trace.dropAcked, RetxQueue.ack_queued]
  · simp only [Option.some.injEq] at h
    subst h
    exact .refl c

theorem paws_core {c c' : Connection F} {th : TcpHeader} {opts : TcpOptions}
    (h : c.paws th opts = some c') : c'.core = c.core := by
  unfold paws at h
  split at h
  · split_ifs at h <;> simp only [Option.some.injEq] at h <;> subst h <;> rfl
  · simp only [Option.some.injEq] at h
    subst h
    rfl

theorem fastRetransmit_moves (c : Connection F) (now : U64) :
    Moves inp c (c.fastRetransmit now).1 (c.fastRetransmit now).2.toList :=
  .resend (resends_one (c.retx.fastRetransmit_resent now) rfl)

theorem onNewAck_moves {c : Connection F} (now : U64) (hf : hasFlag seg.th.flags ACK = true)
    (hs : c.state.Sending) (hb : between c.send.una seg.th.ack c.send.nxt = true) :
    Moves (some seg) c (c.onNewAck seg.th seg.opts now).1
      (c.onNewAck seg.th seg.opts now).2.toList := by
  have hack : ∀ d : Connection F, d.core = { c.core with
      una := seg.th.ack
      queue := (c.retx.ack seg.th.ack now).1.segments.map Unacked.queued } → Moves (some seg) c d [] := by
    intro d hd
    refine .of_step (fun h => Step.ackNew (t := ⟨c.core, h⟩) rfl hf hs hb) ?_
      fun h => ⟨(List.append_nil h.emitted).symm, rfl, rfl, rfl⟩
    intro h
    rw [hd, RetxQueue.ack_queued]
    rfl
  unfold onNewAck
  dsimp only
  split_ifs
  · exact (hack _ rfl).after (fastRetransmit_moves _ now)
  · exact hack _ rfl

theorem onDupAck_moves (c : Connection F) (now : U64) :
    Moves inp c (c.onDupAck now).1 (c.onDupAck now).2.toList := by
  unfold onDupAck
  dsimp only
  split_ifs
  · exact Moves.after (.of_core rfl) (fastRetransmit_moves _ now)
  · exact .of_core rfl

theorem processAck_moves {c : Connection F} (prevWnd newWnd : U32) (now : U64)
    (hf : hasFlag seg.th.flags ACK = true) (hs : c.state.Sending) :
    Moves (some seg) c (c.processAck seg.th seg.payload seg.opts prevWnd newWnd now).1
      (c.processAck seg.th seg.payload seg.opts prevWnd newWnd now).2.toList := by
  unfold processAck
  generalize hd : (if c.sackOk ∧ seg.opts.sackBlockCount > 0 then
    { c with retx := c.retx.markSacked seg.opts.validBlocks } else c) = d
  have hmark : Moves (some seg) c d [] ∧ d.state = c.state := by
    rw [← hd]
    split_ifs
    · refine ⟨.of_step (fun h => Step.mark (t := ⟨c.core, h⟩) rfl hf hs) ?_
        fun h => ⟨(List.append_nil h.emitted).symm, rfl, rfl, rfl⟩, rfl⟩
      intro h
      simp only [core, RetxQueue.markSacked_queued]
      rfl
    · exact ⟨.refl c, rfl⟩
  obtain ⟨hm, hst⟩ := hmark
  dsimp only
  split_ifs with hnew hdup
  · exact hm.after (onNewAck_moves now hf (hst ▸ hs) hnew)
  · exact hm.after (onDupAck_moves d now)
  · exact hm

theorem processAck_state (c : Connection F) (th : TcpHeader) (payload : Bytes) (opts : TcpOptions)
    (prevWnd newWnd : U32) (now : U64) :
    (c.processAck th payload opts prevWnd newWnd now).1.state = c.state := by
  simp only [processAck, onNewAck, onDupAck]
  split_ifs <;> rfl

theorem deliver_eq (c : Connection F) (seq : U32) (payload : Bytes) :
    c.deliver seq payload =
      let r := c.reasm.recv seq payload c.recv.nxt
      { c with reasm := r.1
               recv := { c.recv with nxt := c.recv.nxt + BitVec.ofNat 32 r.2.length }
               recvBuf := c.recvBuf ++ r.2 } := by
  unfold deliver
  split_ifs with hp
  · rw [List.isEmpty_iff.mp hp]
    simp
  · dsimp only
    split_ifs with hd
    · rw [List.isEmpty_iff.mp hd]
      simp
    · rfl

theorem deliver_moves {c : Connection F} (hs : c.state.Receiving) :
    Moves (some seg) c (c.deliver seg.th.seq seg.payload) [] := by
  refine .of_step (fun h => Step.deliver (t := ⟨c.core, h⟩) rfl hs) ?_
    fun h => ⟨(List.append_nil h.emitted).symm, rfl, rfl, rfl⟩
  intro h
  rw [deliver_eq]
  rfl

theorem deliver_state (c : Connection F) (seq : U32) (payload : Bytes) :
    (c.deliver seq payload).state = c.state := by
  rw [deliver_eq]

theorem receive_moves {c : Connection F} (hs : c.state.Sending) :
    Moves (some seg) c (c.receive seg.th seg.payload).1 (c.receive seg.th seg.payload).2.toList := by
  have hrecv : c.state.Receiving := hs.elim .inl (.inr ∘ .inl)
  have hdel : Moves (some seg) c (c.deliver seg.th.seq seg.payload) [] := deliver_moves hrecv
  unfold receive
  generalize hd : c.deliver seg.th.seq seg.payload = d at hdel
  have hsd : d.state.Sending := by
    rw [← hd, deliver_state]
    exact hs
  have hopen : d.state ≠ .synSent := by
    rcases hsd with h | h <;> simp [h]
  dsimp only
  by_cases hre : hasFlag seg.th.flags FIN = true ∧ d.state = .closeWait ∧
      (!after (finSeq seg.th seg.payload) d.recv.nxt) = true
  · rw [if_pos hre]
    exact hdel.after (.bareAck hopen)
  rw [if_neg hre]
  generalize he : (if hasFlag seg.th.flags FIN = true ∧ d.state = .established ∧
    (!before (finSeq seg.th seg.payload) d.recv.nxt) = true then
      { d with pendingFin := some (finSeq seg.th seg.payload) } else d) = e
  have hpend : Moves (some seg) d e [] ∧ e.state = d.state := by
    rw [← he]
    split_ifs with hfin
    · obtain ⟨hflag, hest, hahead⟩ := hfin
      rw [Bool.not_eq_true'] at hahead
      refine ⟨.of_step (fun h => Step.pendFin (t := ⟨d.core, h⟩) rfl hflag hest hahead)
        (fun _ => rfl) fun h => ⟨(List.append_nil h.emitted).symm, rfl, rfl, rfl⟩, rfl⟩
    · exact ⟨.refl d, rfl⟩
  obtain ⟨hpend, hes⟩ := hpend
  have hopen' : e.state ≠ .synSent := hes ▸ hopen
  refine (hdel.after hpend).after ?_
  split_ifs with hdue hdata
  · refine Moves.after ?_ (.bareAck (by simp [takeFin]))
    exact .of_step (fun h => Step.takePending (t := ⟨e.core, h⟩) hdue.1 hdue.2) (fun _ => rfl)
      fun h => ⟨(List.append_nil h.emitted).symm, rfl, rfl, rfl⟩
  · obtain ⟨s, blocks, hc, hb⟩ := e.ackOptions_carries e.send.nxt e.recv.nxt ACK
    exact .ack hopen' hc hb
  · exact .refl e

theorem onOpen_moves {c : Connection F} (now : U64) (rnd : U32) (hs : c.state.Sending) :
    Moves (some seg) c (c.onOpen seg.th seg.payload seg.opts now rnd).1
      (c.onOpen seg.th seg.payload seg.opts now rnd).2.toList := by
  have hopen : c.state ≠ .synSent := by
    rcases hs with h | h <;> simp [h]
  unfold onOpen
  cases hp : c.paws seg.th seg.opts with
  | none => exact .bareAck hopen
  | some d =>
      have hcore := paws_core hp
      have hst : d.state = c.state := congrArg Core.state hcore
      have hcore' : (d.updateWindow (d.scaledWindow seg.th)).core = c.core := hcore
      refine (Moves.of_core hcore').after ?_
      have hsd : (d.updateWindow (d.scaledWindow seg.th)).state.Sending := by
        change d.state.Sending
        exact hst ▸ hs
      dsimp only
      generalize d.updateWindow (d.scaledWindow seg.th) = e at hsd
      have hopen' : e.state ≠ .synSent := by
        rcases hsd with h | h <;> simp [h]
      split_ifs with hf hacc
      · exact maybeChallenge_moves now rnd hopen'
      · have hm := processAck_moves d.send.wnd (d.scaledWindow seg.th) now hf hsd
        have hst' := processAck_state e seg.th seg.payload seg.opts d.send.wnd (d.scaledWindow seg.th) now
        generalize e.processAck seg.th seg.payload seg.opts d.send.wnd (d.scaledWindow seg.th) now = r
          at hm hst'
        obtain ⟨f, pkt⟩ := r
        cases pkt with
        | some pkt => exact hm
        | none => exact hm.after (receive_moves (hst' ▸ hsd))
      · exact receive_moves hsd

theorem finAcked_moves {c : Connection F} {next : State} (now : U64)
    (hf : c.ackedOurFin seg.th = true) (hs : Trace.FinAcked c.state next) :
    Moves (some seg) c { c.dropAcked seg.th.ack now with state := next } [] := by
  simp only [ackedOurFin, Bool.and_eq_true, beq_iff_eq] at hf
  refine .of_step (fun h => Step.finAcked (t := ⟨c.core, h⟩) rfl hf.1 hs hf.2) ?_
    fun h => ⟨(List.append_nil h.emitted).symm, rfl, rfl, rfl⟩
  intro h
  simp only [core, dropAcked, RetxQueue.ack_queued]
  rfl

theorem takeFin_moves {c : Connection F} {next : State} (hf : hasFlag seg.th.flags FIN = true)
    (hs : Trace.FinTaken c.state next) (hdue : finSeq seg.th seg.payload = c.recv.nxt) :
    Moves (some seg) c (c.takeFin next) [] :=
  .of_step (fun h => Step.takeFin (t := ⟨c.core, h⟩) rfl hf hs hdue) (fun _ => rfl)
    fun h => ⟨(List.append_nil h.emitted).symm, rfl, rfl, rfl⟩

theorem onLastAck_moves {c : Connection F} (now : U64) (hs : c.state = .lastAck) :
    Moves (some seg) c (c.onLastAck seg.th now).1 (c.onLastAck seg.th now).2.toList := by
  unfold onLastAck
  split_ifs with hf
  · exact finAcked_moves now hf (by rw [hs]; exact .passive)
  · exact .refl c

theorem onClosing_moves {c : Connection F} (now : U64) (hs : c.state = .closing) :
    Moves (some seg) c (c.onClosing seg.th now).1 (c.onClosing seg.th now).2.toList := by
  unfold onClosing
  split_ifs with hf
  · exact (finAcked_moves now hf (by rw [hs]; exact .both)).then_silent (.of_core rfl)
  · exact .refl c

theorem onFinWait2_moves {c : Connection F} (now : U64) (hs : c.state = .finWait2) :
    Moves (some seg) c (c.onFinWait2 seg.th seg.payload now).1
      (c.onFinWait2 seg.th seg.payload now).2.toList := by
  have hdel : Moves (some seg) c (c.deliver seg.th.seq seg.payload) [] := deliver_moves (.inr (.inr (.inr hs)))
  have hst := c.deliver_state seg.th.seq seg.payload
  unfold onFinWait2
  generalize c.deliver seg.th.seq seg.payload = d at hdel hst
  rw [hs] at hst
  refine hdel.after ?_
  dsimp only
  split_ifs with hfin hdata
  · refine (takeFin_moves hfin.1 (by rw [hst]; exact .acked) hfin.2).after ?_
    exact (Moves.of_core rfl).after (.bareAck (by simp [takeFin]))
  · exact .bareAck (by simp [hst])
  · exact .refl d

/-- In FIN_WAIT_1 an acknowledgement of our FIN can be counted first: what
follows is what FIN_WAIT_2 does. -/
theorem onFinWait1_moves {c : Connection F} (now : U64) (hs : c.state = .finWait1) :
    Moves (some seg) c (c.onFinWait1 seg.th seg.payload now).1
      (c.onFinWait1 seg.th seg.payload now).2.toList := by
  unfold onFinWait1
  cases hf : c.ackedOurFin seg.th with
  | true =>
      have hack := finAcked_moves now hf (show FinAcked c.state .finWait2 by rw [hs]; exact .active)
      have hnext : Moves (some seg) { c.dropAcked seg.th.ack now with state := .finWait2 } _ _ :=
        onFinWait2_moves now rfl
      refine hack.after ?_
      unfold onFinWait2 at hnext
      simp only [deliver_eq] at hnext ⊢
      simp only [if_true]
      split_ifs at hnext ⊢ with hfin hdata
      · exact hnext
      · exact hnext
      · exact hnext
  | false =>
      have hdel : Moves (some seg) c (c.deliver seg.th.seq seg.payload) [] := deliver_moves (.inr (.inr (.inl hs)))
      have hst := c.deliver_state seg.th.seq seg.payload
      simp only [Bool.false_eq_true, if_false]
      generalize c.deliver seg.th.seq seg.payload = d at hdel hst
      rw [hs] at hst
      refine hdel.after ?_
      split_ifs with hfin hdata
      · exact (takeFin_moves hfin.1 (by rw [hst]; exact .unacked) hfin.2).after (.bareAck (by simp [takeFin]))
      · exact .bareAck (by simp [hst])
      · exact .refl d

theorem onState_moves (c : Connection F) (now : U64) (rnd : U32) :
    Moves (some seg) c (c.onState seg.th seg.payload seg.opts now rnd).1
      (c.onState seg.th seg.payload seg.opts now rnd).2.toList := by
  unfold onState
  cases hs : c.state with
  | established => exact onOpen_moves now rnd (.inl hs)
  | closeWait => exact onOpen_moves now rnd (.inr hs)
  | lastAck => exact onLastAck_moves now hs
  | finWait1 => exact onFinWait1_moves now hs
  | finWait2 => exact onFinWait2_moves now hs
  | closing => exact onClosing_moves now hs
  | synSent | synRcvd | timeWait | closed => exact .refl c

theorem onSegment_moves (c : Connection F) (seg : Segment) (now : U64) (rnd : U32) :
    Moves (some seg) c (c.onSegment seg now rnd).1 (c.onSegment seg now rnd).2.toList := by
  unfold onSegment
  refine Moves.after (.of_core (show (c.arrive now).core = c.core from rfl)) ?_
  generalize c.arrive now = d
  dsimp only
  split_ifs with hrst hsyn hblind
  · exact onRst_moves d now rnd hrst
  · exact onSynSent_moves now hsyn
  · exact maybeChallenge_moves now rnd hsyn
  · cases hr : d.onSynRcvd seg.th now with
    | none => exact .refl d
    | some e => exact (onSynRcvd_moves now hr).after (onState_moves e now rnd)

end

theorem close_cases (c : Connection F) (now : U64) (h : History) :
    c.close now = (c, none) ∨ ∃ c' fin, c.close now = (c', some fin) ∧
      Step none ⟨c.core, h⟩ ⟨c'.core, { h with
        emitted := h.emitted ++ [fin], closing := some ⟨h.written, c.sendBuf⟩ }⟩ := by
  have hfin : ∀ next, FinSent c.state next → ∃ c' fin, c.sendFin next now = (c', some fin) ∧
      Step none ⟨c.core, h⟩ ⟨c'.core, { h with
        emitted := h.emitted ++ [fin], closing := some ⟨h.written, c.sendBuf⟩ }⟩ := by
    intro next hs
    obtain ⟨s, hc⟩ := segment_carries { c with tsVal := now.setWidth 32 } c.send.nxt c.recv.nxt
      (FIN ||| ACK) []
    refine ⟨_, _, rfl, ?_⟩
    have hst := Step.fin (t := ⟨c.core, h⟩) (rfl : none = none) hs hc
    have hcore := launch_core { c with tsVal := now.setWidth 32 } 1
      ({ c with tsVal := now.setWidth 32 }.segment c.send.nxt c.recv.nxt (FIN ||| ACK) []) now
    change Step none _ ⟨{ (launch { c with tsVal := now.setWidth 32 } 1 _ now).core with state := next }, _⟩
    rw [hcore]
    exact hst
  unfold close
  cases hs : c.state with
  | established => exact .inr (hfin _ (by rw [hs]; exact .active))
  | closeWait => exact .inr (hfin _ (by rw [hs]; exact .passive))
  | synSent | synRcvd | lastAck | finWait1 | finWait2 | closing | timeWait | closed => exact .inl rfl

end Connection

namespace Host

/-- The trace `t` is what has happened at the host. -/
structure Follows (h : Host F) (t : Trace) : Prop where
  core : t.toCore = h.conn.core
  written : t.written = h.written
  taken : t.taken = h.taken
  emitted : t.emitted = h.emitted
  closing : t.closing = h.closing
  removed : ∀ s ∈ h.removed, ∃ r ∈ t.removed, Same s.queued r

namespace Follows

variable {h : Host F} {t : Trace}

theorem state (hf : Follows h t) : t.state = h.conn.state := congrArg Core.state hf.core
theorem iss (hf : Follows h t) : t.iss = h.conn.send.iss := congrArg Core.iss hf.core
theorem una (hf : Follows h t) : t.una = h.conn.send.una := congrArg Core.una hf.core
theorem nxt (hf : Follows h t) : t.nxt = h.conn.send.nxt := congrArg Core.nxt hf.core
theorem rcvNxt (hf : Follows h t) : t.rcvNxt = h.conn.recv.nxt := congrArg Core.rcvNxt hf.core
theorem sendBuf (hf : Follows h t) : t.sendBuf = h.conn.sendBuf := congrArg Core.sendBuf hf.core
theorem recvBuf (hf : Follows h t) : t.recvBuf = h.conn.recvBuf := congrArg Core.recvBuf hf.core
theorem queue (hf : Follows h t) : t.queue = h.conn.retx.segments.map Unacked.queued := congrArg Core.queue hf.core

theorem mem_queue (hf : Follows h t) {s : Unacked} (hs : s ∈ h.conn.retx.segments) : s.queued ∈ t.queue :=
  hf.queue ▸ List.mem_map_of_mem hs

end Follows

theorem gone_removed {old new : RetxQueue} {t t' : Trace} (ha : Accounted t t')
    (hq : t.queue = old.segments.map Unacked.queued) (hq' : t'.queue = new.segments.map Unacked.queued)
    {s : Unacked} (hs : s ∈ gone old new) : ∃ r ∈ t'.removed, Same s.queued r := by
  obtain ⟨hs, hgone⟩ := List.mem_filter.mp hs
  rcases ha.2 s.queued (hq ▸ List.mem_map_of_mem hs) with ⟨r, hr, hsame⟩ | h
  · rw [hq'] at hr
    obtain ⟨x, hx, rfl⟩ := List.mem_map.mp hr
    have hany : new.segments.any (sameSegment s) = true := by
      refine List.any_eq_true.mpr ⟨x, hx, ?_⟩
      obtain ⟨h₁, h₂, h₃⟩ := hsame
      simp only [Unacked.queued] at h₁ h₂ h₃
      simp [sameSegment, h₁, h₂, h₃]
    simp [hany] at hgone
  · exact h

theorem follows_moves {h h' : Host F} {t : Trace} {inp : Option Segment} {out : List Bytes}
    (hf : Follows h t) (hm : Moves inp h.conn h'.conn out) (hw : h'.written = h.written)
    (ht : h'.taken = h.taken) (he : h'.emitted = h.emitted ++ out) (hc : h'.closing = h.closing)
    (hr : h'.removed = h.removed ++ gone h.conn.retx h'.conn.retx ∨ h'.removed = h.removed) :
    ∃ t', Steps inp t t' ∧ Follows h' t' := by
  obtain ⟨core, hist⟩ := t
  obtain rfl : core = h.conn.core := hf.core
  obtain ⟨hist', hs, he', hw', ht', hc'⟩ := hm hist
  refine ⟨⟨h'.conn.core, hist'⟩, hs, ⟨rfl, ?_, ?_, ?_, ?_, ?_⟩⟩
  · exact hw'.trans (hf.written.trans hw.symm)
  · exact ht'.trans (hf.taken.trans ht.symm)
  · rw [he]
    exact he'.trans (congrArg (· ++ out) hf.emitted)
  · exact hc'.trans (hf.closing.trans hc.symm)
  · have ha := hs.accounted
    have hold : ∀ s ∈ h.removed, ∃ r ∈ hist'.removed, Same s.queued r := by
      intro s hs'
      obtain ⟨r, hr', hsame⟩ := hf.removed s hs'
      exact ⟨r, ha.1 r hr', hsame⟩
    intro s hs'
    rcases hr with hr | hr
    · rw [hr] at hs'
      rcases List.mem_append.mp hs' with hs' | hs'
      · exact hold s hs'
      · exact gone_removed ha rfl rfl hs'
    · exact hold s (hr ▸ hs')

theorem call_refines {h : Host F} {t : Trace} (hf : Follows h t) (x : Call) :
    ∃ t', Steps (input x) (t.appCall x) t' ∧ Follows (h.call x) t' := by
  cases x with
  | write data =>
      refine ⟨_, .refl, ⟨?_, ?_, hf.taken, hf.emitted, hf.closing, hf.removed⟩⟩
      · have hcore := hf.core
        obtain ⟨core, hist⟩ := t
        subst hcore
        rfl
      · exact congrArg (· ++ data) hf.written
  | takeReceived =>
      have hbuf : t.recvBuf = h.conn.recvBuf := hf.recvBuf
      refine ⟨_, .refl, ⟨?_, hf.written, ?_, hf.emitted, hf.closing, hf.removed⟩⟩
      · have hcore := hf.core
        obtain ⟨core, hist⟩ := t
        subst hcore
        rfl
      · simp only [appCall, call, Connection.takeReceived]
        rw [hf.taken, hbuf]
  | pollTransmit now =>
      have hm := h.conn.pollTransmit_moves now
      simp only [call]
      generalize h.conn.pollTransmit now = r at hm
      exact follows_moves hf hm rfl rfl rfl rfl (.inr rfl)
  | onTick now =>
      have hm := h.conn.onTick_moves now
      simp only [call]
      generalize h.conn.onTick now = r at hm
      exact follows_moves hf hm rfl rfl rfl rfl (.inr rfl)
  | onSegment seg now rnd =>
      have hm := h.conn.onSegment_moves seg now rnd
      simp only [call]
      generalize h.conn.onSegment seg now rnd = r at hm
      exact follows_moves hf hm rfl rfl rfl rfl (.inl rfl)
  | setNodelay nodelay =>
      have hm : Moves none h.conn (h.conn.setNodelay nodelay) [] := .of_core rfl
      exact follows_moves hf hm rfl rfl (List.append_nil _).symm rfl (.inr rfl)
  | setKeepalive on =>
      have hm : Moves none h.conn (h.conn.setKeepalive on) [] := .of_core rfl
      exact follows_moves hf hm rfl rfl (List.append_nil _).symm rfl (.inr rfl)
  | useBbr =>
      have hm : Moves none h.conn h.conn.useBbr [] := .of_core rfl
      exact follows_moves hf hm rfl rfl (List.append_nil _).symm rfl (.inr rfl)
  | close now =>
      obtain ⟨core, hist⟩ := t
      obtain rfl : core = h.conn.core := hf.core
      simp only [call]
      rcases h.conn.close_cases now hist with heq | ⟨c', fin, heq, hst⟩
      · rw [heq]
        exact ⟨_, .refl, hf⟩
      · rw [heq]
        refine ⟨_, .single hst, ⟨rfl, hf.written, hf.taken, ?_, ?_, hf.removed⟩⟩
        · exact congrArg (· ++ [fin]) hf.emitted
        · exact congrArg (fun w => some (CloseRecord.mk w h.conn.sendBuf)) hf.written

theorem run_refines {h : Host F} {t : Trace} (hf : Follows h t) (xs : List Call) :
    ∃ t', Trace.Run t xs t' ∧ Follows (h.run xs) t' := by
  induction xs generalizing h t with
  | nil => exact ⟨t, .nil t, hf⟩
  | cons x xs ih =>
      obtain ⟨t₁, hs, hf₁⟩ := call_refines hf x
      obtain ⟨t', hr, hf'⟩ := ih hf₁
      exact ⟨t', .cons hs hr, hf'⟩

end Host
end TcpStack
