import TcpStack.Emission

/-!
# The options blobs of outgoing packets

Every packet of every run is built by a connection from one of a few options
blobs, and each of these is aligned and fits into the option space.
-/
namespace TcpStack
open Tcp

variable {F : Type} [F64 F]

namespace Connection

/-- Every options blob that goes into a packet: those of the SYN and the SYN-ACK,
of an ordinary segment and of an ACK, of the cookie SYN-ACK and of a reset. -/
def optionBlobs (c : Connection F) (opts : TcpOptions) : List Bytes :=
  [c.synOptions, c.synackOptions opts, if c.tsEnabled then tsOption c.tsVal c.tsRecent else [], c.ackOptions,
    mssOption ourMss, []]

theorem ackOptions_length (c : Connection F) : c.ackOptions.length % 4 = 0 ∧ c.ackOptions.length ≤ 40 := by
  have hts : (if c.tsEnabled then tsOption c.tsVal c.tsRecent else []).length = 0 ∨
      (if c.tsEnabled then tsOption c.tsVal c.tsRecent else []).length = 12 := by
    cases c.tsEnabled
    · exact .inl rfl
    · exact .inr rfl
  have hsack : ∀ blocks : List (U32 × U32), blocks ≠ [] →
      ∃ n ≤ 3, (sackOption (blocks.take (min blocks.length maxSackBlocks))).length = 4 + 8 * n := by
    intro blocks hne
    refine ⟨min (blocks.take (min blocks.length maxSackBlocks)).length maxSackBlocks, Nat.min_le_right _ _, ?_⟩
    apply sackOption_length
    rw [Ne, List.take_eq_nil_iff, not_or]
    have hpos := List.length_pos_iff.mpr hne
    exact ⟨by simp only [maxSackBlocks]; omega, hne⟩
  unfold ackOptions
  rw [List.length_append]
  generalize (if c.tsEnabled then tsOption c.tsVal c.tsRecent else []).length = k at hts ⊢
  dsimp only
  split_ifs with hok hnil
  · simp only [List.length_nil]
    omega
  · obtain ⟨n, hn, hlen⟩ := hsack c.reasm.sackBlocks (by simpa using hnil)
    rw [hlen]
    omega
  · simp only [List.length_nil]
    omega

theorem optionBlobs_fit (c : Connection F) (opts : TcpOptions) :
    ∀ blob ∈ c.optionBlobs opts, blob.length % 4 = 0 ∧ blob.length ≤ 40 := by
  have hts : (if c.tsEnabled then tsOption c.tsVal c.tsRecent else []).length % 4 = 0 ∧
      (if c.tsEnabled then tsOption c.tsVal c.tsRecent else []).length ≤ 40 := by
    cases c.tsEnabled <;> simp [tsOption_length]
  intro blob hb
  simp only [optionBlobs, List.mem_cons, List.not_mem_nil, or_false] at hb
  rcases hb with rfl | rfl | rfl | rfl | rfl | rfl
  · rw [synOptions_length]
    decide
  · exact c.synackOptions_length opts
  · exact hts
  · exact c.ackOptions_length
  · decide
  · decide

/-- The packet was built by a connection from one of its options blobs. -/
def Issued (F : Type) [F64 F] (pkt : Bytes) : Prop :=
  ∃ (c : Connection F) (opts : TcpOptions) (seq ack : U32) (flags : U8) (payload : Bytes),
    ∃ blob ∈ c.optionBlobs opts, pkt = c.segmentOpts seq ack flags blob payload

theorem segment_issued (c : Connection F) (seq ack : U32) (flags : U8) (payload : Bytes) :
    Issued F (c.segment seq ack flags payload) :=
  ⟨c, {}, seq, ack, flags, payload, _, by simp [optionBlobs], rfl⟩

theorem ackOptions_issued (c : Connection F) (seq ack : U32) (flags : U8) (payload : Bytes) :
    Issued F (c.segmentOpts seq ack flags c.ackOptions payload) :=
  ⟨c, {}, seq, ack, flags, payload, _, by simp [optionBlobs], rfl⟩

/-- Everything in the retransmission queue and every packet of `out` was so built. -/
structure AllIssued (c : Connection F) (out : List Bytes) : Prop where
  queue : ∀ q ∈ c.core.queue, Issued F q.packet
  out : ∀ pkt ∈ out, Issued F pkt

theorem Made.issued {b a : Connection F} {p : Bytes} (h : Made b a p) : Issued F p := by
  cases h with
  | plain => exact a.segment_issued ..
  | sack => exact a.ackOptions_issued ..

theorem AllIssued.stored {c : Connection F} {out : List Bytes} (h : AllIssued c out) : ∀ p,
    c.Stored p → Issued F p := by
  rintro p ⟨s, hmem, rfl⟩
  exact h.queue s.queued (List.mem_map_of_mem hmem)

end Connection

namespace Host

theorem call_issued {h : Host F} (hh : Connection.AllIssued h.conn h.emitted) (x : Call) :
    Connection.AllIssued (h.call x).conn (h.call x).emitted := by
  obtain ⟨hstored, hemitted⟩ := call_packets (x := x) hh.stored hh.out fun p _ hmade => hmade.issued
  refine ⟨fun q hq => ?_, hemitted⟩
  obtain ⟨s, hmem, rfl⟩ := List.mem_map.mp hq
  exact hstored s.packet ⟨s, hmem, rfl⟩

theorem Fresh.issued {h : Host F} (hf : Fresh h) : Connection.AllIssued h.conn h.emitted := by
  -- A fresh queue holds the opening packet only.
  have hopen : ∀ {c : Connection F} {pkt : Bytes} {start stop : U32}, Connection.Issued F pkt →
      c.core.queue = [⟨start, stop, pkt, false⟩] → Connection.AllIssued c [pkt] := by
    intro c pkt start stop hp hq
    refine ⟨fun q hmem => ?_, fun p hmem => List.mem_singleton.mp hmem ▸ hp⟩
    rw [hq, List.mem_singleton] at hmem
    rw [hmem]
    exact hp
  cases hf with
  | connect localEnd remoteEnd iss now rnd =>
      have hsyn : Connection.Issued F (Connection.connectWithIss (F := F) localEnd remoteEnd iss now rnd).2 :=
        ⟨_, {}, _, _, _, _, _, by simp [Connection.optionBlobs], rfl⟩
      exact hopen hsyn rfl
  | accept ipSrc ipDst seg iss now rnd ha =>
      obtain ⟨⟨c, synack⟩, hr, rfl⟩ := Option.map_eq_some_iff.mp ha
      simp only [Connection.acceptWithIssAt] at hr
      split_ifs at hr
      obtain ⟨rfl, rfl⟩ := Prod.mk.inj (Option.some.inj hr)
      exact hopen ⟨_, seg.opts, _, _, _, _, _, by simp [Connection.optionBlobs], rfl⟩ rfl
  | cookie localEnd remoteEnd peerIsn isn sendMss now rnd =>
      exact ⟨fun q hq => (List.not_mem_nil hq).elim, fun p hp => (List.not_mem_nil hp).elim⟩

theorem run_issued {h : Host F} (hf : Fresh h) (calls : List Call) :
    Connection.AllIssued (h.run calls).conn (h.run calls).emitted := by
  apply Host.run_preserves (P := fun h => Connection.AllIssued h.conn h.emitted)
  · exact fun h x hh => call_issued hh x
  · exact hf.issued

end Host

end TcpStack
