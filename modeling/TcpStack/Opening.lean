import TcpStack.Stream

/-!
# Freshly opened connections

What the two handshake packets carry, and the trace each of the three ways to
open a connection starts with.
-/
namespace TcpStack
open Tcp TcpStack.Seq TcpStack.Circle Trace

variable {F : Type} [F64 F]

namespace Connection

def synOpts (now : U64) : TcpOptions where
  mss := some ourMss
  windowScale := some ourRcvWscale
  timestamps := some (now.setWidth 32, 0#32)
  sackPermitted := true

/-- The options of the SYN-ACK: each one answers an offer. -/
def synackOpts (opts : TcpOptions) (now : U64) : TcpOptions where
  mss := some ourMss
  windowScale := if opts.windowScale.isSome then some ourRcvWscale else none
  timestamps := opts.timestamps.map (fun ts => (now.setWidth 32, ts.1))
  sackPermitted := opts.sackPermitted

theorem synOptions_length (c : Connection F) : c.synOptions.length = 24 := rfl

theorem connectWithIss_syn (localEnd remoteEnd : Endpoint) (iss : U32) (now : U64) (rnd : U32) :
    ∃ s, Carries (connectWithIss (F := F) localEnd remoteEnd iss now rnd).2 s iss 0#32 SYN [] [] ∧
      s.opts = synOpts now := by
  generalize hc : synSentBlock (F := F) localEnd remoteEnd iss now rnd = c
  have hlen := c.synOptions_length
  have hp : parseOptions c.synOptions = .ok (synOpts now) := by
    rw [← hc]
    simp only [synOptions, parseOptions_eq]
    rw [List.append_assoc, List.append_assoc, parseFrom_mssOption, parseFrom_wsOption,
      parseFrom_tsOption, ← List.append_nil sackPermOption, parseFrom_sackPermOption, parseFrom_nil]
    rfl
  have hiss : c.send.iss = iss := by
    rw [← hc]
    rfl
  simp only [connectWithIss, hc]
  exact ⟨_, ⟨decode_buildPacket (by omega) (by omega) hp, hiss, rfl, rfl, rfl, rfl⟩, rfl⟩

theorem parseFrom_sackPerm (perm : Bool) {out : TcpOptions} (hout : out.sackPermitted = false) :
    parseFrom (if perm then sackPermOption else []) out = .ok { out with sackPermitted := perm } := by
  cases perm with
  | false =>
      have hsame : { out with sackPermitted := false } = out := by rw [← hout]
      rw [hsame]
      exact parseFrom_nil out
  | true =>
      have h := parseFrom_sackPermOption [] out
      rwa [List.append_nil, parseFrom_nil] at h

theorem parseOptions_synack (ws ts perm : Bool) (tsval tsecr : U32) :
    parseOptions (mssOption ourMss ++ (if ws then wsOption ourRcvWscale else []) ++
      (if ts then tsOption tsval tsecr else []) ++ (if perm then sackPermOption else [])) =
    .ok { mss := some ourMss
          windowScale := if ws then some ourRcvWscale else none
          timestamps := if ts then some (tsval, tsecr) else none
          sackPermitted := perm } := by
  rw [parseOptions_eq, List.append_assoc, List.append_assoc, parseFrom_mssOption]
  cases ws <;> cases ts <;>
    simp only [if_true, Bool.false_eq_true, if_false, List.nil_append]
  · exact parseFrom_sackPerm perm rfl
  · rw [parseFrom_tsOption]
    exact parseFrom_sackPerm perm rfl
  · rw [parseFrom_wsOption]
    exact parseFrom_sackPerm perm rfl
  · rw [parseFrom_wsOption, parseFrom_tsOption]
    exact parseFrom_sackPerm perm rfl

theorem synackOptions_length (c : Connection F) (opts : TcpOptions) :
    (c.synackOptions opts).length % 4 = 0 ∧ (c.synackOptions opts).length ≤ 40 := by
  unfold synackOptions
  cases opts.windowScale.isSome <;> cases c.tsEnabled <;> cases c.sackOk <;>
    simp [mssOption, wsOption, sackPermOption, tsOption_length]

theorem acceptWithIssAt_eq {ipSrc ipDst : Ipv4Addr} {th : TcpHeader} {opts : TcpOptions} {iss : U32}
    {now : U64} {rnd : U32} {c : Connection F} {synack : Bytes}
    (h : acceptWithIssAt ipSrc ipDst th opts iss now rnd = some (c, synack)) :
    c = { synRcvdBlock ipSrc ipDst th opts iss now rnd with
          retx := RetxQueue.record {} iss (iss + 1#32) synack now } ∧
    ∃ s, Carries synack s iss (th.seq + 1#32) (SYN ||| ACK) [] [] ∧ s.opts = synackOpts opts now := by
  simp only [acceptWithIssAt] at h
  split_ifs at h
  generalize hb : synRcvdBlock (F := F) ipSrc ipDst th opts iss now rnd = b at h ⊢
  have hfields : b.send.iss = iss ∧ b.send.nxt = iss + 1#32 ∧ b.recv.nxt = th.seq + 1#32 ∧ b.retx = {} := by
    rw [← hb]
    exact ⟨rfl, rfl, rfl, rfl⟩
  obtain ⟨hiss, hnxt, hrcv, hretx⟩ := hfields
  obtain ⟨h4, h40⟩ := b.synackOptions_length opts
  have hp : parseOptions (b.synackOptions opts) = .ok (synackOpts opts now) := by
    rw [← hb]
    refine (parseOptions_synack _ _ _ _ _).trans ?_
    unfold synackOpts synRcvdBlock
    cases opts.timestamps <;> rfl
  simp only [Option.some.injEq, Prod.mk.injEq] at h
  obtain ⟨rfl, rfl⟩ := h
  refine ⟨?_, _, ⟨decode_buildPacket h4 h40 hp, hiss, hrcv, rfl, rfl, rfl⟩, rfl⟩
  rw [hretx, hiss, hnxt]

end Connection

namespace Host

def start (h : Host F) : Trace :=
  ⟨h.conn.core, { emitted := h.emitted, unaPos := (h.conn.send.una - h.conn.send.iss).toNat }⟩

theorem Fresh.follows {h : Host F} (hf : Fresh h) : Follows h h.start := by
  cases hf with
  | connect => exact ⟨rfl, rfl, rfl, rfl, rfl, by simp [Host.connect]⟩
  | accept ipSrc ipDst seg iss now rnd heq =>
      obtain ⟨r, -, rfl⟩ := Option.map_eq_some_iff.mp heq
      exact ⟨rfl, rfl, rfl, rfl, rfl, by simp⟩
  | cookie => exact ⟨rfl, rfl, rfl, rfl, rfl, by simp [Host.cookie]⟩

theorem stamped_syn {iss ack : U32} {ps : List Bytes} {closed : Bool} {s : Segment} {pkt : Bytes}
    {flags : U8} {blocks : List (U32 × U32)} (h : Carries pkt s iss ack flags [] blocks)
    (hf : flags = SYN ∨ flags = SYN ||| ACK) : Stamped iss ps closed s where
  noRst := by
    rw [h.flags]
    rcases hf with rfl | rfl <;> decide
  data := fun hne => absurd h.payload hne
  fin := fun hfin => by
    rw [h.flags] at hfin
    rcases hf with rfl | rfl <;> exact absurd hfin (by decide)
  syn := fun _ => ⟨h.payload, h.seq⟩

theorem start_stream {h : Host F} (hnxt : h.conn.send.nxt = h.conn.send.iss + 1#32)
    (hbuf : h.conn.sendBuf = [])
    (hem : ∀ p ∈ h.emitted, ∃ s, decode p = some s ∧ Stamped h.conn.send.iss [] false s)
    (hq : ∀ s ∈ h.conn.retx.segments, s.packet ∈ h.emitted) : Stream h.start where
  nxt := hnxt
  written := by
    change [] = [] ++ h.conn.sendBuf
    rw [hbuf]
    rfl
  pieces := by simp [start]
  emitted := hem
  queued := by
    intro q hq'
    obtain ⟨s, hs, rfl⟩ := List.mem_map.mp hq'
    exact hq s hs
  opened := fun _ => rfl
  closed := by simp [start]

theorem Fresh.stream {h : Host F} (hf : Fresh h) : Stream h.start := by
  cases hf with
  | connect localEnd remoteEnd iss now rnd =>
      obtain ⟨s, hc, -⟩ := Connection.connectWithIss_syn (F := F) localEnd remoteEnd iss now rnd
      refine start_stream rfl rfl ?_ ?_
      · intro p hp
        rw [List.mem_singleton.mp hp]
        exact ⟨s, hc.decode, stamped_syn hc (.inl rfl)⟩
      · intro u hu
        rw [List.mem_singleton.mp hu]
        exact List.mem_singleton_self _
  | accept ipSrc ipDst seg iss now rnd heq =>
      obtain ⟨⟨c, synack⟩, hr, rfl⟩ := Option.map_eq_some_iff.mp heq
      obtain ⟨rfl, s, hc, -⟩ := Connection.acceptWithIssAt_eq hr
      refine start_stream rfl rfl ?_ ?_
      · intro p hp
        rw [List.mem_singleton.mp hp]
        exact ⟨s, hc.decode, stamped_syn hc (.inr rfl)⟩
      · intro u hu
        rw [List.mem_singleton.mp hu]
        exact List.mem_singleton_self _
  | cookie => exact start_stream rfl rfl (by simp [Host.cookie]) (by simp [Host.cookie, Connection.fromSynCookie])

end Host
end TcpStack
