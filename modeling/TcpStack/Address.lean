import TcpStack.Dispatch
import TcpStack.Issued
import TcpStack.Mss

/-!
# The addresses of outgoing packets

A connection is opened for one 4-tuple and keeps it. Every packet it builds
goes from its own end to the peer's, and so does every copy it resends.
-/
namespace TcpStack
open Tcp

variable {F : Type} [F64 F]

def Addressed (q : Quad) (p : Bytes) : Prop := ∃ seg hdr, Main.Unwraps p q.localEnd q.remoteEnd seg hdr

namespace Connection

def Joins (c : Connection F) (q : Quad) : Prop := c.localEnd = q.localEnd ∧ c.remoteEnd = q.remoteEnd

theorem Joins.segmentOpts {c : Connection F} {q : Quad} (h : c.Joins q) (seq ack : U32) (flags : U8)
    {options payload : Bytes} (hfit : options.length % 4 = 0 ∧ options.length ≤ 40) (hlen : payload.length ≤ 1460) :
    Addressed q (c.segmentOpts seq ack flags options payload) := by
  obtain ⟨opts, ho, -⟩ := Main.parseOptionsLoop_returns options.length options {}
  have hsize : 40 + options.length + payload.length ≤ 65535 := by omega
  obtain ⟨hdr, hunwraps⟩ := Main.buildPacket_unwraps q.localEnd q.remoteEnd seq ack flags c.recv.wnd hfit.1 hfit.2
    hsize ho
  rw [Connection.segmentOpts, h.1, h.2]
  exact ⟨_, hdr, hunwraps⟩

theorem Made.addressed {b a : Connection F} {p : Bytes} (h : Made b a p) {q : Quad} (hq : a.Joins q)
    (hlen : ∀ s, decode p = some s → s.payload.length ≤ 1460) : Addressed q p := by
  have hfits := a.optionBlobs_fit {}
  cases h with
  | @plain seq flags payload =>
      obtain ⟨s, hc, -⟩ := a.segment_reads seq a.recv.nxt flags payload
      have hle := hlen s hc.decode
      rw [hc.payload] at hle
      exact hq.segmentOpts _ _ _ (hfits _ (by simp [optionBlobs])) hle
  | sack => exact hq.segmentOpts _ _ _ a.ackOptions_length (Nat.zero_le _)

end Connection

namespace Host
open Connection

/-- A host for the 4-tuple: all it has sent or may send again is addressed to the peer. -/
structure Serves (q : Quad) (h : Host F) : Prop where
  joins : h.conn.Joins q
  settled : h.conn.state ≠ .synSent
  mss : h.conn.sendMss.toNat ≤ 1460
  stored : ∀ p, h.conn.Stored p → Addressed q p
  emitted : ∀ p ∈ h.emitted, Addressed q p

theorem Serves.call {q : Quad} {h : Host F} (hs : Serves q h) {x : Call} (hcap : Capped (h.call x)) :
    Serves q (h.call x) := by
  have hcharter := call_charter (x := x) (.inl hs.settled)
  have hjoins : (h.call x).conn.Joins q := by
    have hends : (h.call x).conn.localEnd = h.conn.localEnd ∧ (h.call x).conn.remoteEnd = h.conn.remoteEnd :=
      Prod.mk.inj (congrArg Prod.snd hcharter)
    exact ⟨hends.1.trans hs.joins.1, hends.2.trans hs.joins.2⟩
  have hmss : (h.call x).conn.sendMss.toNat ≤ 1460 := by
    rw [show (h.call x).conn.sendMss = h.conn.sendMss from congrArg (fun charter => charter.1.2.2.1) hcharter]
    exact hs.mss
  have hlen : ∀ p ∈ (h.call x).emitted, ∀ s, decode p = some s → s.payload.length ≤ 1460 := by
    intro p hp s hd
    have := hcap.capped p hp s hd
    omega
  obtain ⟨hstored, hemitted⟩ := call_packets hs.stored hs.emitted fun p hp hmade =>
    hmade.addressed hjoins (hlen p hp)
  exact ⟨hjoins, mt call_synSent hs.settled, hmss, hstored, hemitted⟩

theorem run_serves {q : Quad} {h : Host F} {t : Trace} (hs : Serves q h) (hc : Capped h) (hfol : Follows h t)
    (hst : Trace.Stream t) (calls : List Call) : Serves q (h.run calls) := by
  induction calls generalizing h t with
  | nil => exact hs
  | cons x calls ih =>
      obtain ⟨t', hsteps, hfol'⟩ := call_refines hfol x
      have hcap := hc.call hfol hst x
      exact ih (hs.call hcap) hcap hfol' (hsteps.stream (hst.appCall x))

theorem accept_serves {q : Quad} {seg : Segment} {iss : U32} {now : U64} {rnd : U32} {h : Host F}
    (hr : q.remoteEnd.2 = seg.th.srcPort) (hl : q.localEnd.2 = seg.th.dstPort)
    (ha : accept q.remoteEnd.1 q.localEnd.1 seg iss now rnd = some h) : Serves q h := by
  obtain ⟨⟨c, synack⟩, haccept, rfl⟩ := Option.map_eq_some_iff.mp ha
  simp only [acceptWithIssAt] at haccept
  split_ifs at haccept
  simp only [Option.some.injEq, Prod.mk.injEq] at haccept
  obtain ⟨rfl, rfl⟩ := haccept
  have hjoins : (synRcvdBlock (F := F) q.remoteEnd.1 q.localEnd.1 seg.th seg.opts iss now rnd).Joins q := by
    refine ⟨?_, ?_⟩
    · exact Prod.ext rfl hl.symm
    · exact Prod.ext rfl hr.symm
  have hmss : (synRcvdBlock (F := F) q.remoteEnd.1 q.localEnd.1 seg.th seg.opts iss now rnd).sendMss ≤ ourMss := by
    simp only [synRcvdBlock]
    cases seg.opts.mss with
    | none => exact BitVec.le_refl _
    | some m => exact umin_le_right m ourMss
  generalize hb : synRcvdBlock (F := F) q.remoteEnd.1 q.localEnd.1 seg.th seg.opts iss now rnd = b at hjoins hmss
  have hsynack : Addressed q (b.segmentOpts b.send.iss b.recv.nxt (SYN ||| ACK) (b.synackOptions seg.opts) []) :=
    hjoins.segmentOpts _ _ _ (b.synackOptions_length seg.opts) (Nat.zero_le _)
  have hqueue : b.retx = {} := by rw [← hb]; rfl
  refine ⟨hjoins, ?_, hmss, ?_, ?_⟩
  · rw [show b.state = .synRcvd from hb ▸ rfl]
    exact State.noConfusion
  · rintro p ⟨s, hmem, rfl⟩
    rw [hqueue] at hmem
    rw [List.mem_singleton.mp hmem]
    exact hsynack
  · intro p hp
    rw [List.mem_singleton.mp hp]
    exact hsynack

end Host
end TcpStack
