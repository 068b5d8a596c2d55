import TcpStack.Address

/-!
# Outgoing packets

Everything that a connection puts on the wire, on whatever way it was opened, is
a datagram from its own end to the peer's whose checksums verify and whose
segment the peer's receive path hands to its table.
-/
namespace TcpStack
open Tcp

variable {F : Type} [F64 F]

/-- A datagram from `src` to `dst`, as the receiver takes it apart; its length is
the one it declares, and the checksum of its segment verifies. -/
structure Posted (src dst : Endpoint) (p : Bytes) : Prop where
  unwraps : ∃ seg hdr, Main.Unwraps p src dst seg hdr ∧ hdr.totalLen = p.length
  tcpChecksum : tcpChecksum src.1 dst.1 (p.drop 20) = 0#16

theorem buildPacket_posted (src dst : Endpoint) (seq ack : U32) (flags : U8) (window : U16) {options payload : Bytes}
    (hfit : options.length % 4 = 0 ∧ options.length ≤ 40) (hlen : payload.length ≤ 1460) :
    Posted src dst (buildPacket src dst seq ack flags window options payload) := by
  obtain ⟨opts, ho, -⟩ := Main.parseOptionsLoop_returns options.length options {}
  have hsize : 40 + options.length + payload.length ≤ 65535 := by omega
  have harr := buildPacket_arrives src dst seq ack flags window hfit.1 hfit.2 hsize
  obtain ⟨hdr, hunwraps⟩ := Main.buildPacket_unwraps src dst seq ack flags window hfit.1 hfit.2 hsize ho
  refine ⟨⟨_, hdr, hunwraps, ?_⟩, harr.tcpChecksum⟩
  obtain ⟨hdr', hip, -, -, htotal, -⟩ := harr.ip
  have hip' := hunwraps.ip
  generalize buildPacket src dst seq ack flags window options payload = p at hip hip' htotal
  rw [hip'] at hip
  obtain rfl := Except.ok.inj (Except.ok.inj hip)
  exact htotal

theorem Posted.arrives {src dst : Endpoint} {p : Bytes} (h : Posted src dst p) :
    ∃ hdr seg, Main.arriving p = some (hdr, seg) ∧ decode p = some seg ∧ Ip.parse p = .ok (.ok hdr) ∧
      Main.quadOf hdr seg.th = ⟨src, dst⟩ := by
  obtain ⟨seg, hdr, hu, -⟩ := h.unwraps
  refine ⟨hdr, seg, ?_, ?_, hu.ip, hu.quad⟩
  · have hdispatch : Main.dispatch p = Main.answer hdr p (p.drop 20) := by
      unfold Main.dispatch
      rw [hu.ip, Checked.ok_bind]
      dsimp only
      rw [hu.headerLen, hu.header, Checked.ok_bind, hu.checksum, hu.l4]
      rfl
    rw [Main.arriving, hdispatch, Main.answer, hu.protocol, if_neg (by decide), if_pos rfl, hu.segment]
    rfl
  · rw [decode, hu.segment]

namespace Connection

theorem segmentOpts_posted (c : Connection F) (seq ack : U32) (flags : U8) {options payload : Bytes}
    (hfit : options.length % 4 = 0 ∧ options.length ≤ 40) (hlen : payload.length ≤ 1460) :
    Posted c.localEnd c.remoteEnd (c.segmentOpts seq ack flags options payload) :=
  buildPacket_posted _ _ _ _ _ _ hfit hlen

theorem Made.posted {b a : Connection F} {p : Bytes} (h : Made b a p)
    (hlen : ∀ s, decode p = some s → s.payload.length ≤ 1460) : Posted a.localEnd a.remoteEnd p := by
  have hfits := a.optionBlobs_fit {}
  cases h with
  | @plain seq flags payload =>
      obtain ⟨s, hc, -⟩ := a.segment_reads seq a.recv.nxt flags payload
      have hle := hlen s hc.decode
      rw [hc.payload] at hle
      exact a.segmentOpts_posted _ _ _ (hfits _ (by simp [optionBlobs])) hle
  | sack => exact a.segmentOpts_posted _ _ _ a.ackOptions_length (Nat.zero_le _)

theorem onSegment_ends (c : Connection F) (seg : Segment) (now : U64) (rnd : U32) :
    (c.onSegment seg now rnd).1.localEnd = c.localEnd ∧ (c.onSegment seg now rnd).1.remoteEnd = c.remoteEnd := by
  rcases c.onSegment_reacts seg now rnd with h | ⟨-, -, heq⟩
  · exact Prod.mk.inj (congrArg Prod.snd h.charter)
  · rw [heq]
    unfold onSynSent
    split_ifs <;> exact ⟨rfl, rfl⟩

theorem onSegment_mss {c : Connection F} (hm : c.sendMss.toNat ≤ 1460) (seg : Segment) (now : U64) (rnd : U32) :
    (c.onSegment seg now rnd).1.sendMss.toNat ≤ 1460 := by
  by_cases hs : c.state = .synSent
  · rcases onSegment_synSent hs seg now rnd with ⟨hterms, -⟩ | ⟨-, -, -, -, hterms⟩
    · rw [show (c.onSegment seg now rnd).1.sendMss = c.sendMss from congrArg (fun t => t.2.2.1) hterms]
      exact hm
    · rw [show (c.onSegment seg now rnd).1.sendMss = (seg.opts.mss.map (umin · ourMss)).getD c.sendMss from
        congrArg (fun t => t.2.2.1) hterms]
      cases seg.opts.mss with
      | none => exact hm
      | some m => exact umin_le_right m ourMss
  · have hcharter := onSegment_charter hs seg now rnd
    rw [show (c.onSegment seg now rnd).1.sendMss = c.sendMss from congrArg (fun t => t.1.2.2.1) hcharter]
    exact hm

end Connection

namespace Host
open Connection

/-- All that the host has sent or may send again goes from its end to the peer's. -/
structure Posting (localEnd remoteEnd : Endpoint) (h : Host F) : Prop where
  ends : h.conn.localEnd = localEnd ∧ h.conn.remoteEnd = remoteEnd
  mss : h.conn.sendMss.toNat ≤ 1460
  stored : ∀ p, h.conn.Stored p → Posted localEnd remoteEnd p
  emitted : ∀ p ∈ h.emitted, Posted localEnd remoteEnd p

theorem call_ends (h : Host F) (x : Call) : (h.call x).conn.localEnd = h.conn.localEnd ∧
    (h.call x).conn.remoteEnd = h.conn.remoteEnd := by
  cases hx : x.isLocal with
  | true => exact Prod.mk.inj (congrArg Prod.snd (call_charter (.inr hx)))
  | false =>
      cases x with
      | onSegment seg now rnd => exact h.conn.onSegment_ends seg now rnd
      | _ => cases hx

theorem call_mss {h : Host F} (hm : h.conn.sendMss.toNat ≤ 1460) (x : Call) :
    (h.call x).conn.sendMss.toNat ≤ 1460 := by
  cases hx : x.isLocal with
  | true =>
      have hterms := call_terms (h := h) (.inr hx)
      rw [show (h.call x).conn.sendMss = h.conn.sendMss from congrArg (fun t => t.2.2.1) hterms]
      exact hm
  | false =>
      cases x with
      | onSegment seg now rnd => exact onSegment_mss hm seg now rnd
      | _ => cases hx

theorem Posting.call {localEnd remoteEnd : Endpoint} {h : Host F} (hp : Posting localEnd remoteEnd h) {x : Call}
    (hcap : Capped (h.call x)) : Posting localEnd remoteEnd (h.call x) := by
  obtain ⟨hl, hr⟩ := call_ends h x
  have hends := And.intro (hl.trans hp.ends.1) (hr.trans hp.ends.2)
  have hmss := call_mss hp.mss x
  obtain ⟨hstored, hemitted⟩ := call_packets hp.stored hp.emitted fun p hmem hmade => by
    have hposted := hmade.posted fun s hd => by
      have hle := hcap.capped p hmem s hd
      omega
    rwa [hends.1, hends.2] at hposted
  exact ⟨hends, hmss, hstored, hemitted⟩

theorem run_posting {localEnd remoteEnd : Endpoint} {h : Host F} {t : Trace} (hp : Posting localEnd remoteEnd h)
    (hc : Capped h) (hfol : Follows h t) (hst : Trace.Stream t) (calls : List Call) :
    Posting localEnd remoteEnd (h.run calls) := by
  induction calls generalizing h t with
  | nil => exact hp
  | cons x calls ih =>
      obtain ⟨t', hsteps, hfol'⟩ := call_refines hfol x
      have hcap := hc.call hfol hst x
      exact ih (hp.call hcap) hcap hfol' (hsteps.stream (hst.appCall x))

theorem Fresh.posting {h : Host F} (hf : Fresh h) : Posting h.conn.localEnd h.conn.remoteEnd h := by
  have hopen : ∀ {k : Host F} {p : Bytes} {u : Unacked}, k.conn.sendMss.toNat ≤ 1460 →
      Posted k.conn.localEnd k.conn.remoteEnd p → k.conn.retx.segments = [u] → u.packet = p → k.emitted = [p] →
      Posting k.conn.localEnd k.conn.remoteEnd k := by
    intro k p u hm hp hq hu he
    refine ⟨⟨rfl, rfl⟩, hm, ?_, ?_⟩
    · rintro p' ⟨s, hmem, rfl⟩
      rw [hq, List.mem_singleton] at hmem
      rwa [hmem, hu]
    · intro p' hmem
      rw [he, List.mem_singleton] at hmem
      rwa [hmem]
  cases hf with
  | connect localEnd remoteEnd iss now rnd =>
      refine hopen (k := Host.connect localEnd remoteEnd iss now rnd) (show defaultSendMss.toNat ≤ 1460 by decide) ?_
        rfl rfl rfl
      refine segmentOpts_posted (synSentBlock localEnd remoteEnd iss now rnd) _ _ _ ?_ (Nat.zero_le _)
      rw [synOptions_length]
      decide
  | accept ipSrc ipDst seg iss now rnd ha =>
      obtain ⟨⟨c, synack⟩, hr, rfl⟩ := Option.map_eq_some_iff.mp ha
      simp only [acceptWithIssAt] at hr
      split_ifs at hr
      obtain ⟨rfl, rfl⟩ := Prod.mk.inj (Option.some.inj hr)
      refine hopen ?_ (segmentOpts_posted (synRcvdBlock ipSrc ipDst seg.th seg.opts iss now rnd) _ _ _
        (synackOptions_length _ _) (Nat.zero_le _)) rfl rfl rfl
      simp only [synRcvdBlock]
      cases seg.opts.mss with
      | none => exact BitVec.le_refl ourMss
      | some m => exact umin_le_right m ourMss
  | cookie localEnd remoteEnd peerIsn isn sendMss now rnd =>
      refine ⟨⟨rfl, rfl⟩, umin_le_right _ ourMss, ?_, fun p hp => absurd hp List.not_mem_nil⟩
      rintro p ⟨s, hmem, -⟩
      exact absurd hmem List.not_mem_nil

theorem run_posted {h : Host F} (hf : Fresh h) (calls : List Call) :
    Posting h.conn.localEnd h.conn.remoteEnd (h.run calls) :=
  run_posting hf.posting hf.capped hf.follows hf.stream calls

/-- Every packet of every run is a datagram from the connection's end to its
peer's: the IP header parses, declares the packet's length and verifies, the
TCP checksum verifies, and the receive path hands the segment that is decoded
from it to the table under the 4-tuple of the two ends. -/
theorem emitted_packets_arrive {h : Host F} (hf : Fresh h) (calls : List Call) :
    ∀ p ∈ (h.run calls).emitted, Posted h.conn.localEnd h.conn.remoteEnd p ∧ ∃ hdr seg,
      Main.dispatch p = .ok (.segment hdr seg) ∧ decode p = some seg ∧
        Main.quadOf hdr seg.th = ⟨h.conn.localEnd, h.conn.remoteEnd⟩ := by
  intro p hp
  have hposted := (run_posted hf calls).emitted p hp
  obtain ⟨hdr, seg, harr, hd, -, hquad⟩ := hposted.arrives
  refine ⟨hposted, hdr, seg, ?_, hd, hquad⟩
  unfold Main.arriving at harr
  split at harr
  · rename_i hdr' seg' heq
    obtain ⟨rfl, rfl⟩ := Prod.mk.inj (Option.some.inj harr)
    exact heq
  · cases harr

/-- A byte and the FIN behind it arrive. -/
theorem sample_packets_arrive : (sample.run [.write [7#8], .pollTransmit 1#64, .close 2#64]).emitted.length = 2 ∧
    ∀ p ∈ (sample.run [.write [7#8], .pollTransmit 1#64, .close 2#64]).emitted, ∃ hdr seg,
      Main.dispatch p = .ok (.segment hdr seg) := by
  refine ⟨by decide +kernel, fun p hp => ?_⟩
  obtain ⟨-, hdr, seg, hdispatch, -⟩ := emitted_packets_arrive sample_fresh _ p hp
  exact ⟨hdr, seg, hdispatch⟩

end Host
end TcpStack
