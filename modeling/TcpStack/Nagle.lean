import TcpStack.FlowControl
import TcpStack.SegmentSize

/-!
# Nagle's one small segment

A short segment leaves only when nothing is in flight, and then it is the first
of the queue. Acknowledgements take segments out of the queue and put none in,
so what was behind the first stays full.
-/
namespace TcpStack
open Tcp TcpStack.Seq

variable {F : Type} [F64 F]

def State.Opening (s : State) : Prop := s = .synSent ∨ s = .synRcvd

theorem State.Sending.not_opening {s : State} (h : s.Sending) : ¬ s.Opening := by
  rcases h with rfl | rfl <;> simp [Opening]

def Queued.len (q : Queued) : Nat := (q.endSeq - q.startSeq).toNat

/-- Only the first segment of the queue may be shorter than `mss`. -/
def FullBehind (mss : Nat) (queue : List Queued) : Prop := ∀ n ∈ (queue.map Queued.len).tail, mss ≤ n

theorem FullBehind.sublist {mss : Nat} {queue queue' : List Queued} (h : FullBehind mss queue)
    (hsub : (queue'.map Queued.len).Sublist (queue.map Queued.len)) : FullBehind mss queue' :=
  fun n hn => h n (hsub.tail.subset hn)

theorem FullBehind.of_short {mss : Nat} {queue : List Queued} (h : queue.length ≤ 1) : FullBehind mss queue := by
  match queue with
  | [] => exact fun n hn => nomatch hn
  | [_] => exact fun n hn => nomatch hn
  | _ :: _ :: _ => simp at h

namespace Trace

theorem Step.lengths {seg : Segment} {t t' : Trace} (h : Step (some seg) t t') :
    (t'.queue.map Queued.len).Sublist (t.queue.map Queued.len) := by
  cases h with
  | data idle => cases idle
  | fin idle => cases idle
  | ackNew | finAcked | openActive | openPassive => exact List.Sublist.map _ List.filter_sublist
  | mark =>
      simp only [markSacked, List.map_map]
      exact .refl _
  | ack | resend | deliver | pendFin | takePending | takeFin | die => exact .refl _

theorem Steps.lengths {seg : Segment} {t t' : Trace} (h : Steps (some seg) t t') :
    (t'.queue.map Queued.len).Sublist (t.queue.map Queued.len) :=
  h.relates (R := fun a b => (b.queue.map Queued.len).Sublist (a.queue.map Queued.len)) (fun _ => .refl _)
    (fun _ _ _ h h' => h'.trans h) fun _ _ => Step.lengths

end Trace

namespace Connection

/-- Behind the first segment the queue is full, and it is empty when nothing is in flight. -/
structure Nagled (c : Connection F) : Prop where
  full : FullBehind c.sendMss.toNat c.core.queue
  idle : c.flightSize = 0#32 → c.core.queue = []

theorem flightSize_transmit (c : Connection F) (n : Nat) (flags : U8) (now : U64) :
    (c.transmit n flags now).1.flightSize = c.flightSize + BitVec.ofNat 32 n := by
  change c.send.nxt + BitVec.ofNat 32 n - c.send.una = c.send.nxt - c.send.una + BitVec.ofNat 32 n
  rw [BitVec.add_sub_comm]

theorem transmit_queue (c : Connection F) (n : Nat) (flags : U8) (now : U64) : ∃ pkt,
    (c.transmit n flags now).1.core.queue =
      c.core.queue ++ [⟨c.send.nxt, c.send.nxt + BitVec.ofNat 32 n, pkt, false⟩] :=
  ⟨_, congrArg Core.queue (launch_core { c with sendBuf := c.sendBuf.drop n } n _ now)⟩

theorem Nagled.transmit_full {c : Connection F} (h : c.Nagled) {n : Nat} (hn : n < 2 ^ 32)
    (hcut : c.flightSize = 0#32 ∨ c.sendMss.toNat ≤ n) (flags : U8) (now : U64) :
    FullBehind c.sendMss.toNat (c.transmit n flags now).1.core.queue := by
  obtain ⟨pkt, hqueue⟩ := c.transmit_queue n flags now
  rw [hqueue]
  rcases hcut with hflight | hfull
  · rw [h.idle hflight]
    exact .of_short (Nat.le_refl _)
  · intro m hm
    rw [List.map_append, List.map_singleton] at hm
    have hlen : Queued.len ⟨c.send.nxt, c.send.nxt + BitVec.ofNat 32 n, pkt, false⟩ = n := by
      rw [Queued.len, BitVec.add_comm, BitVec.add_sub_cancel, BitVec.toNat_ofNat, Nat.mod_eq_of_lt hn]
    cases hold : c.core.queue.map Queued.len with
    | nil =>
        rw [hold] at hm
        cases hm
    | cons first rest =>
        rw [hold, List.cons_append, List.tail_cons, hlen] at hm
        rcases List.mem_append.mp hm with hm | hm
        · exact h.full m (by rw [hold]; exact hm)
        · rwa [List.mem_singleton.mp hm]

theorem Nagled.drain (pacing : F) (now : U64) (fuel : Nat) : ∀ {c : Connection F}, c.Nagled → c.nagle = true →
    FullBehind c.sendMss.toNat (drain pacing now fuel c).1.core.queue := by
  induction fuel with
  | zero => exact fun h _ => h.full
  | succ fuel ih =>
      intro c h hnagle
      have husable := c.usableWindow_le
      simp only [Connection.drain]
      generalize hm : min (min c.usableWindow.toNat c.sendMss.toNat) c.sendBuf.length = n
      split_ifs with hempty hn hheld
      · exact h.full
      · exact h.full
      · exact h.full
      · have hcut : c.flightSize = 0#32 ∨ c.sendMss.toNat ≤ n := by
          by_cases hzero : c.flightSize = 0#32
          · exact .inl hzero
          · refine .inr (Nat.le_of_not_lt fun hlt => hheld ⟨hnagle, hlt, ?_⟩)
            bv_omega
        cases hp : c.pace pacing n now with
        | none => exact h.full
        | some d =>
            obtain ⟨x, rfl⟩ := pace_eq hp
            have hwnd := c.send.wnd.isLt
            have hmss := c.sendMss.isLt
            have hd : Nagled { c with nextSendMs := x } := ⟨h.full, h.idle⟩
            refine ih ⟨hd.transmit_full (by omega) hcut _ now, fun hzero => ?_⟩ hnagle
            rw [flightSize_transmit] at hzero
            have hnat := congrArg BitVec.toNat hzero
            rw [BitVec.toNat_add, BitVec.toNat_ofNat, Nat.mod_eq_of_lt (by omega : n < 2 ^ 32)] at hnat
            change (c.flightSize.toNat + n) % 2 ^ 32 = 0 at hnat
            omega

theorem Nagled.pollTransmit {c : Connection F} (h : c.Nagled) (hnagle : c.nagle = true) (hsack : c.sackOk = false)
    (now : U64) : FullBehind c.sendMss.toNat (c.pollTransmit now).1.core.queue := by
  unfold Connection.pollTransmit
  split_ifs with hclosed
  · exact h.full
  have hstamp : Nagled { c with tsVal := now.setWidth 32 } := ⟨h.full, h.idle⟩
  have hrec : (c.sackOk && c.cong.inRecovery) = false := by rw [hsack, Bool.false_and]
  dsimp only
  rw [hrec, if_neg Bool.false_ne_true, armProbe_core]
  exact hstamp.drain c.cong.pacingRateBps now c.sendBuf.length hnagle

theorem tickPersist_queue (c : Connection F) (now : U64) : (c.tickPersist now).1.core.queue = c.core.queue ∨
    (c.state.Sending ∧ c.flightSize = 0#32 ∧ ∃ q, (c.tickPersist now).1.core.queue = c.core.queue ++ [q]) := by
  unfold tickPersist
  split_ifs with hopen harm hfire
  · exact .inl rfl
  · obtain ⟨pkt, hqueue⟩ := c.transmit_queue 1 ACK now
    exact .inr ⟨hopen.1, hopen.2.2.2, _, hqueue⟩
  · exact .inl rfl
  · exact .inl rfl

theorem tickKeepalive_core_queue (c : Connection F) (now : U64) :
    (c.tickKeepalive now).1.core.queue = c.core.queue := by
  unfold tickKeepalive
  dsimp only
  split_ifs <;> rfl

theorem onTick_queue (c : Connection F) (now : U64) : (c.onTick now).1.core.queue = c.core.queue ∨
    (c.state.Sending ∧ c.flightSize = 0#32 ∧ ∃ q, (c.onTick now).1.core.queue = c.core.queue ++ [q]) := by
  obtain ⟨s, hreap⟩ := reap_eq { c with tsVal := now.setWidth 32 } now
  have hstate : s = c.state ∨ s = .closed := by
    have hkept := (reap_kept { c with tsVal := now.setWidth 32 } now).state_eq
    rwa [hreap] at hkept
  have hcore := (timers_resend { c with tsVal := now.setWidth 32, state := s } now).core
  unfold Connection.onTick
  dsimp only
  rw [tickKeepalive_core_queue, hreap]
  generalize ((tickDue _ now).1 : Connection F) = d at hcore ⊢
  have hqueue : d.core.queue = c.core.queue := (congrArg Core.queue hcore :)
  have hflight : d.flightSize = c.flightSize := by
    have huna : d.send.una = c.send.una := (congrArg Core.una hcore :)
    have hnxt : d.send.nxt = c.send.nxt := (congrArg Core.nxt hcore :)
    rw [flightSize, huna, hnxt]
    rfl
  have hsame : d.state = s := (congrArg Core.state hcore :)
  rw [← hqueue, ← hflight]
  rcases d.tickPersist_queue now with hkept | ⟨hs, hprobe⟩
  · exact .inl hkept
  · have hs' : s = c.state := hstate.resolve_right fun heq => by
      rw [hsame, heq] at hs
      simp [State.Sending] at hs
    exact .inr ⟨hs' ▸ hsame ▸ hs, hprobe⟩

theorem close_ends (c : Connection F) (now : U64) :
    (¬ (c.close now).1.state.Opening ∧ ¬ (c.close now).1.state.Sending) ∨ (c.close now).1 = c := by
  unfold close
  split
  · exact .inl (by simp [sendFin, State.Opening, State.Sending])
  · exact .inl (by simp [sendFin, State.Opening, State.Sending])
  · exact .inr rfl

theorem still_nagle (c : Connection F) : c.still.nagle = c.nagle := rfl

theorem KeptOrClosed.nagle {c c' : Connection F} (h : KeptOrClosed c c') : c'.nagle = c.nagle := by
  rw [← still_nagle c']
  rcases h with h | h <;> rw [h] <;> rfl

theorem onSegment_nagle (c : Connection F) (seg : Segment) (now : U64) (rnd : U32) :
    (c.onSegment seg now rnd).1.nagle = c.nagle := by
  rcases c.onSegment_reacts seg now rnd with hr | ⟨-, -, heq⟩
  · exact hr.preserves (P := fun d => d.nagle = c.nagle) (fun hu hd => hu.spares.nagle.trans hd) rfl
  · rw [heq, onSynSent]
    split_ifs <;> rfl

end Connection

namespace Host
open Trace Connection

/-- Before the handshake is over the queue holds the SYN alone; after it, one
short segment at most. -/
structure NagleHeld (h : Host F) : Prop where
  on : h.conn.nagle = true
  opening : h.conn.state.Opening → h.conn.core.queue.length ≤ 1
  sending : h.conn.state.Sending → h.conn.sackOk = false → FullBehind h.conn.sendMss.toNat h.conn.core.queue

theorem call_nagle {h : Host F} {x : Call} (hx : x ≠ .setNodelay true) (hon : h.conn.nagle = true) :
    (h.call x).conn.nagle = true := by
  cases x with
  | write | takeReceived | setKeepalive | useBbr => exact hon
  | setNodelay b =>
      cases b with
      | true => exact absurd rfl hx
      | false => rfl
  | pollTransmit now => exact (KeptOrClosed.nagle (.inl (h.conn.pollTransmit_still now))).trans hon
  | onTick now =>
      have ht := (h.conn.onTick_kept now).nagle
      simp only [Host.call]
      generalize h.conn.onTick now = r at ht
      exact ht.trans hon
  | close now =>
      have ht : (h.conn.close now).1.nagle = h.conn.nagle := by
        unfold Connection.close
        split <;> rfl
      simp only [Host.call]
      split <;> rename_i heq <;> rw [heq] at ht <;> exact ht.trans hon
  | onSegment seg now rnd =>
      have ht := h.conn.onSegment_nagle seg now rnd
      simp only [Host.call]
      generalize h.conn.onSegment seg now rnd = r at ht
      exact ht.trans hon

theorem call_past (h : Host F) (x : Call) :
    ((h.call x).conn.state.Opening → h.conn.state.Opening) ∧
      ((h.call x).conn.state.Sending → h.conn.state.Opening ∨ h.conn.state.Sending) := by
  rcases (call_turn h x).edge with heq | hmem
  · change (h.call x).conn.state = h.conn.state at heq
    rw [heq]
    exact ⟨id, .inr⟩
  · change (h.call x).conn.state ∈ h.conn.state.successors at hmem
    generalize (h.call x).conn.state = s at hmem
    cases hst : h.conn.state <;> rw [hst] at hmem <;> cases s <;>
      simp [State.successors, State.Opening, State.Sending] at hmem ⊢

/-- What the segments after the first need of the call `x`. -/
theorem NagleHeld.of_lengths {h h' : Host F} (hn : NagleHeld h) (hon : h'.conn.nagle = true)
    (hpast : (h'.conn.state.Opening → h.conn.state.Opening) ∧
      (h'.conn.state.Sending → h.conn.state.Opening ∨ h.conn.state.Sending))
    (hterms : h.conn.state ≠ .synSent → h'.conn.terms = h.conn.terms)
    (hsub : (h'.conn.core.queue.map Queued.len).Sublist (h.conn.core.queue.map Queued.len)) : NagleHeld h' := by
  have hlen : h'.conn.core.queue.length ≤ h.conn.core.queue.length := by
    have hle := hsub.length_le
    rwa [List.length_map, List.length_map] at hle
  refine ⟨hon, fun ho => hlen.trans (hn.opening (hpast.1 ho)), fun hs hsack => ?_⟩
  rcases hpast.2 hs with ho | hs'
  · exact .of_short (hlen.trans (hn.opening ho))
  · have hne : h.conn.state ≠ .synSent := fun heq => hs'.not_opening (.inl heq)
    have ht := hterms hne
    have hmss : h'.conn.sendMss = h.conn.sendMss := congrArg (fun t => t.2.2.1) ht
    have hok : h'.conn.sackOk = h.conn.sackOk := congrArg (fun t => t.2.2.2.2.2) ht
    rw [hmss]
    exact (hn.sending hs' (hok ▸ hsack)).sublist hsub

theorem queue_idle {h : Host F} {t : Trace} (hf : Follows h t) (hs : Stream t) (ho : Outstanding t)
    (hnear : t.nxtPos - t.unaPos < 2 ^ 31) (hsend : h.conn.state.Sending) (hzero : h.conn.flightSize = 0#32) :
    h.conn.core.queue = [] := by
  have hempty := (ho.coverage hf hs hnear).empty hsend.live
  have heq : h.conn.send.una = h.conn.send.nxt := by
    rw [flightSize] at hzero
    bv_omega
  exact congrArg (List.map Unacked.queued) (hempty.mpr heq)

theorem NagleHeld.call {h : Host F} {t : Trace} (hn : NagleHeld h) (hf : Follows h t) (hs : Stream t)
    (ho : Outstanding t) (hnear : t.nxtPos - t.unaPos < 2 ^ 31) {x : Call} (hx : x ≠ .setNodelay true) :
    NagleHeld (h.call x) := by
  have hon := call_nagle hx hn.on
  have hpast := call_past h x
  have hterms : h.conn.state ≠ .synSent → (h.call x).conn.terms = h.conn.terms := fun hne => call_terms (.inl hne)
  have hidle : h.conn.state.Sending → h.conn.flightSize = 0#32 → h.conn.core.queue = [] :=
    queue_idle hf hs ho hnear
  cases x with
  | write | takeReceived | setNodelay | setKeepalive | useBbr => exact ⟨hon, hn.opening, hn.sending⟩
  | close now =>
      have hclose : (h.call (.close now)).conn = (h.conn.close now).1 := by
        simp only [Host.call]
        split <;> rename_i heq <;> rw [heq]
      rcases h.conn.close_ends now with ⟨hopening, hsending⟩ | hsame
      · rw [← hclose] at hopening hsending
        exact ⟨hon, fun ho => absurd ho hopening, fun hs => absurd hs hsending⟩
      · refine hn.of_lengths hon hpast hterms ?_
        rw [hclose, hsame]
  | pollTransmit now =>
      by_cases hs' : h.conn.state.Sending
      · have hne : h.conn.state ≠ .synSent := fun heq => hs'.not_opening (.inl heq)
        have hmss : (h.call (.pollTransmit now)).conn.sendMss = h.conn.sendMss :=
          congrArg (fun t => t.2.2.1) (hterms hne)
        have hok : (h.call (.pollTransmit now)).conn.sackOk = h.conn.sackOk :=
          congrArg (fun t => t.2.2.2.2.2) (hterms hne)
        refine ⟨hon, fun ho => absurd (hpast.1 ho) hs'.not_opening, fun _ hsack => ?_⟩
        rw [hok] at hsack
        rw [hmss]
        exact Nagled.pollTransmit ⟨hn.sending hs' hsack, hidle hs'⟩ hn.on hsack now
      · refine hn.of_lengths hon hpast hterms ?_
        rw [State.Sending, not_or] at hs'
        have hsame : h.conn.pollTransmit now = (h.conn, []) := by simp [Connection.pollTransmit, hs']
        simp only [Host.call, hsame]
        exact .refl _
  | onTick now =>
      rcases h.conn.onTick_queue now with hsame | ⟨hs', hzero, q, hone⟩
      · refine hn.of_lengths hon hpast hterms ?_
        simp only [Host.call, hsame]
        exact .refl _
      · rw [hidle hs' hzero] at hone
        refine ⟨hon, fun ho => absurd (hpast.1 ho) hs'.not_opening, fun _ _ => ?_⟩
        simp only [Host.call, hone]
        exact .of_short (Nat.le_refl _)
  | onSegment seg now rnd =>
      refine hn.of_lengths hon hpast hterms ?_
      obtain ⟨t', hsteps, hf'⟩ := call_refines hf (.onSegment seg now rnd)
      have hsub := Trace.Steps.lengths hsteps
      rwa [hf'.queue, show (t.appCall (.onSegment seg now rnd)).queue = _ from hf.queue] at hsub

theorem Fresh.nagleHeld {h : Host F} (hf : Fresh h) : NagleHeld h := by
  cases hf with
  | connect => exact ⟨rfl, fun _ => Nat.le_refl 1, fun hs => by simp [Host.connect, connectWithIss, synSentBlock,
      State.Sending] at hs⟩
  | accept ipSrc ipDst seg iss now rnd heq =>
      obtain ⟨⟨c, synack⟩, hr, rfl⟩ := Option.map_eq_some_iff.mp heq
      obtain ⟨rfl, -⟩ := acceptWithIssAt_eq hr
      exact ⟨rfl, fun _ => Nat.le_refl 1, fun hs => by simp [synRcvdBlock, State.Sending] at hs⟩
  | cookie => exact ⟨rfl, fun _ => Nat.zero_le 1, fun _ _ => .of_short (Nat.zero_le 1)⟩

theorem run_nagleHeld {h : Host F} {t : Trace} (hn : NagleHeld h) (hf : Follows h t) (hs : Stream t)
    (ho : Outstanding t) (hnear : t.nxtPos - t.unaPos < 2 ^ 31) {calls : List Call}
    (hon : .setNodelay true ∉ calls) (hb : FlightBelow h calls) : NagleHeld (h.run calls) := by
  induction calls generalizing h t with
  | nil => exact hn
  | cons x calls ih =>
      obtain ⟨hhead, htail⟩ := flightBelow_cons.mp hb
      rw [List.mem_cons, not_or] at hon
      obtain ⟨t', -, hf', hs', ho', hnear', -⟩ := call_outstanding hf hs ho hnear hhead
      exact ih (hn.call hf hs ho hnear fun hx => hon.1 hx.symm) hf' hs' ho' hnear' hon.2 htail

/-- Nagle's rule over whole runs. Without SACK, and with Nagle never switched
off, every queued segment but the first is full, whatever the peer sends. -/
theorem nagle_keeps_one_small {h : Host F} (hf : Fresh h) (calls : List Call) (hon : .setNodelay true ∉ calls)
    (hb : FlightBelow h calls) (hsack : (h.run calls).conn.sackOk = false)
    (hs : (h.run calls).conn.state.Sending) :
    ∀ s ∈ (h.run calls).conn.retx.segments.tail, (h.run calls).conn.sendMss.toNat ≤ s.len := by
  have hn := run_nagleHeld hf.nagleHeld hf.follows hf.stream hf.outstanding hf.near hon hb
  intro s hmem
  refine hn.sending hs hsack s.len ?_
  have hlens : (h.run calls).conn.core.queue.map Queued.len = (h.run calls).conn.retx.segments.map Unacked.len :=
    List.map_map
  rw [hlens, ← List.map_tail]
  exact List.mem_map_of_mem hmem

/-- A connection with segments of two bytes. -/
def paired : Host Rat :=
  cookie (Ipv4Addr.new 10#8 0#8 0#8 1#8, 4000#16) (Ipv4Addr.new 10#8 0#8 0#8 2#8, 80#16) 500#32 100#32 2#16
    0#64 0#32

/-- Of five bytes the last one waits for the acknowledgement of the others. -/
theorem odd_byte_waits :
    let h := paired.run [.write [1#8, 2#8, 3#8, 4#8, 5#8], .pollTransmit 1#64]
    h.conn.sendBuf = [5#8] ∧ h.conn.retx.segments.length = 2 ∧
      ∀ s ∈ h.conn.retx.segments.tail, h.conn.sendMss.toNat ≤ s.len :=
  ⟨by decide +kernel, by decide +kernel, nagle_keeps_one_small (h := paired) (.cookie ..) _ (by decide)
    (by decide +kernel) (by decide +kernel) (by decide +kernel)⟩

end Host
end TcpStack
