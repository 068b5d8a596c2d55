import TcpStack.FlowControl
import TcpStack.Resend
import TcpStack.SegmentSize

/-!
# A round of SACK recovery

In recovery a poll first resends holes and then sends new data. The number of
lost segments that were sent only once falls with every hole, and the send
buffer with every new segment, so both loops end by themselves.
-/
namespace TcpStack
open Tcp TcpStack.Seq TcpStack.Circle

theorem Chain.apart {iss : U32} {a b : Nat} {segs : List Unacked} (h : Chain iss a (segs.map Unacked.queued) b)
    (hnear : b - a < 2 ^ 31) : segs.Pairwise fun s t => after s.endSeq t.startSeq = false := by
  induction segs generalizing a with
  | nil => exact .nil
  | cons s rest ih =>
      obtain ⟨m, hs, hrest⟩ := h
      have hpos := hs.pos
      refine .cons (fun t ht => ?_) (ih hrest (by omega))
      obtain ⟨i, j, hij, hmi, hjb⟩ := hrest.spans (List.mem_map_of_mem ht)
      have hlt := hij.pos
      rw [show s.endSeq = _ from hs.endSeq, show t.startSeq = _ from hij.startSeq,
        after_point (by omega) (by omega), decide_eq_false_iff_not]
      omega

theorem Covers.apart {iss : U32} {u v : Nat} {segs : List Unacked}
    (h : Covers iss u (segs.map Unacked.queued) v) (hnear : v - u < 2 ^ 31) :
    segs.Pairwise fun s t => after s.endSeq t.startSeq = false := by
  cases segs with
  | nil => exact .nil
  | cons s rest =>
      obtain ⟨a, m, hs, -, hum, hrest⟩ := h
      refine .cons (fun t ht => ?_) (hrest.apart (by omega))
      obtain ⟨i, j, hij, hmi, hjb⟩ := hrest.spans (List.mem_map_of_mem ht)
      have hlt := hij.pos
      rw [show s.endSeq = _ from hs.endSeq, show t.startSeq = _ from hij.startSeq,
        after_point (by omega) (by omega), decide_eq_false_iff_not]
      omega

theorem Covers.nodup {iss : U32} {u v : Nat} {segs : List Unacked}
    (h : Covers iss u (segs.map Unacked.queued) v) (hnear : v - u < 2 ^ 31) : segs.Nodup := by
  refine (h.apart hnear).imp_of_mem fun {s t} hs _ hap heq => ?_
  subst heq
  obtain ⟨i, j, hij, -, -⟩ := h.spans (List.mem_map_of_mem hs)
  have hpos := hij.pos
  have hshort := hij.short
  rw [show s.endSeq = _ from hij.endSeq, show s.startSeq = _ from hij.startSeq,
    after_point (by omega) (by omega), decide_eq_false_iff_not] at hap
  exact hap hpos

namespace RetxQueue

def longest (q : RetxQueue) : Nat := (q.segments.map Unacked.len).foldr max 0

theorem len_le_longest {q : RetxQueue} {s : Unacked} (hs : s ∈ q.segments) : s.len ≤ q.longest := by
  rw [longest]
  generalize q.segments = segs at hs
  induction segs with
  | nil => cases hs
  | cons t rest ih =>
      rw [List.map_cons, List.foldr_cons]
      rcases List.mem_cons.mp hs with rfl | hs
      · exact Nat.le_max_left ..
      · exact (ih hs).trans (Nat.le_max_right ..)

/-- A queued segment that the scoreboard reports lost and that was sent only once. -/
structure LostOnce (q : RetxQueue) (s : Unacked) : Prop where
  queued : s ∈ q.segments
  unsacked : s.sacked = false
  untried : s.retries = 0#32
  lost : 3 ≤ (q.segments.filter fun t => t.sacked && after t.startSeq s.startSeq).length

theorem mem_lostOnce {q : RetxQueue} {s : Unacked} : s ∈ q.segments.filter q.lostOnce ↔ q.LostOnce s := by
  have hiff : q.lostOnce s = true ↔ s.sacked = false ∧ s.retries = 0#32 ∧
      3 ≤ (q.segments.filter fun t => t.sacked && after t.startSeq s.startSeq).length := by
    simp only [lostOnce, isLost, dupThresh, Bool.and_eq_true, Bool.not_eq_true', decide_eq_true_eq, ge_iff_le]
    constructor
    · rintro ⟨⟨h, hr⟩, -, hl⟩
      exact ⟨h, hr, hl⟩
    · rintro ⟨h, hr, hl⟩
      exact ⟨⟨h, hr⟩, h, hl⟩
  rw [List.mem_filter, hiff]
  constructor
  · rintro ⟨hm, hs, hr, hl⟩
    exact ⟨hm, hs, hr, hl⟩
  · rintro ⟨hm, hs, hr, hl⟩
    exact ⟨hm, hs, hr, hl⟩

theorem holesWithin_prefix (limit pipe : U32) (segments : List Unacked) :
    holesWithin limit pipe segments <+: segments := by
  induction segments generalizing pipe with
  | nil => exact List.prefix_rfl
  | cons s rest ih =>
      unfold holesWithin
      split_ifs
      · exact (List.cons_prefix_cons).mpr ⟨rfl, ih _⟩
      · exact List.nil_prefix

end RetxQueue

variable {F : Type} [F64 F]

namespace Connection
open RetxQueue

theorem retransmitHoles_stable (limit : U32) (now : U64) (more fuel : Nat) : ∀ q : RetxQueue,
    (q.segments.filter q.lostOnce).length ≤ fuel →
    retransmitHoles limit now (fuel + more) q = retransmitHoles limit now fuel q := by
  induction fuel with
  | zero =>
      intro q hlen
      rcases retransmitHoles_round limit now q with ⟨-, hstop⟩ | ⟨s, q', -, hfilter, -⟩
      · rw [hstop, hstop]
      · rw [hfilter] at hlen
        cases hlen
  | succ fuel ih =>
      intro q hlen
      rcases retransmitHoles_round limit now q with ⟨-, hstop⟩ | ⟨s, q', -, hfilter, -, -, hgo⟩
      · rw [hstop, hstop]
      · rw [hfilter, List.length_cons] at hlen
        rw [Nat.add_right_comm, hgo, hgo, ih q' (by omega)]

theorem retransmitHoles_exhausts (limit : U32) (now : U64) (fuel : Nat) : ∀ q : RetxQueue,
    (q.segments.filter q.lostOnce).length ≤ fuel → (retransmitHoles limit now fuel q).1.pipe dupThresh < limit →
    holesWithin limit (q.pipe dupThresh) (q.segments.filter q.lostOnce) = q.segments.filter q.lostOnce := by
  induction fuel with
  | zero =>
      intro q hlen _
      rw [List.eq_nil_of_length_eq_zero (Nat.le_zero.mp hlen)]
      rfl
  | succ fuel ih =>
      intro q hlen hroom
      rcases retransmitHoles_round limit now q with ⟨hnil, hstop⟩ | ⟨s, q', hroom', hfilter, hpipe, -, hgo⟩
      · rw [hstop] at hroom
        rw [hnil hroom]
        rfl
      · rw [hfilter, List.length_cons] at hlen
        rw [hgo] at hroom
        have hnext := ih q' (by omega) hroom
        rw [hpipe] at hnext
        rw [hfilter, holesWithin, if_pos hroom', hnext]

theorem retransmitHoles_within (limit : U32) (now : U64) (fuel : Nat) : ∀ q : RetxQueue,
    ((retransmitHoles limit now fuel q).1.pipe dupThresh).toNat ≤
      max (q.pipe dupThresh).toNat (limit.toNat + (q.longest - 1)) := by
  induction fuel with
  | zero => exact fun q => Nat.le_max_left ..
  | succ fuel ih =>
      intro q
      rcases retransmitHoles_round limit now q with ⟨-, hstop⟩ | ⟨s, q', hroom, hfilter, hpipe, hlens, hgo⟩
      · rw [hstop]
        exact Nat.le_max_left ..
      · have hmem : s ∈ q.segments.filter q.lostOnce := by
          rw [hfilter]
          exact List.mem_cons_self ..
        have hlen := len_le_longest (mem_lostOnce.mp hmem).queued
        have hnext := ih q'
        have hsame : q'.longest = q.longest := by rw [longest, longest, hlens]
        have hstep : (q'.pipe dupThresh).toNat ≤ (q.pipe dupThresh).toNat + s.len := by
          rw [hpipe, BitVec.toNat_add]
          exact Nat.mod_le _ _
        have hlt : (q.pipe dupThresh).toNat < limit.toNat := hroom
        rw [hsame] at hnext
        rw [hgo]
        dsimp only
        omega

theorem fillPipe_stable (limit : U32) (now : U64) (more fuel : Nat) : ∀ c : Connection F,
    c.sendBuf.length ≤ fuel → fillPipe limit now (fuel + more) c = fillPipe limit now fuel c := by
  induction fuel with
  | zero =>
      intro c hlen
      have hempty : c.sendBuf.isEmpty = true := List.isEmpty_iff_length_eq_zero.mpr (Nat.le_zero.mp hlen)
      cases more with
      | zero => rfl
      | succ more => simp only [fillPipe, hempty, if_true]
  | succ fuel ih =>
      intro c hlen
      rw [Nat.add_right_comm]
      simp only [fillPipe]
      split_ifs with hempty hfull hn
      · rfl
      · rfl
      · rfl
      · generalize hk : min (min (limit - c.retx.pipe dupThresh).toNat c.sendMss.toNat) c.sendBuf.length = n at hn
        have hdrop : (c.transmit n (PSH ||| ACK) now).1.sendBuf.length ≤ fuel := by
          change (c.sendBuf.drop n).length ≤ fuel
          rw [List.length_drop]
          omega
        rw [ih _ hdrop]

theorem fillPipe_within (limit : U32) (now : U64) (fuel : Nat) : ∀ c : Connection F, ∃ new n,
    Extends c (fillPipe limit now fuel c).1 (fillPipe limit now fuel c).2 new n ∧
      (new ≠ [] → c.retx.pipe dupThresh < limit) ∧
      ((fillPipe limit now fuel c).1.retx.pipe dupThresh).toNat ≤ max (c.retx.pipe dupThresh).toNat limit.toNat := by
  induction fuel with
  | zero => exact fun c => ⟨[], 0, .refl c, fun h => absurd rfl h, Nat.le_max_left ..⟩
  | succ fuel ih =>
      intro c
      simp only [fillPipe]
      split_ifs with hempty hfull hn
      · exact ⟨[], 0, .refl c, fun h => absurd rfl h, Nat.le_max_left ..⟩
      · exact ⟨[], 0, .refl c, fun h => absurd rfl h, Nat.le_max_left ..⟩
      · exact ⟨[], 0, .refl c, fun h => absurd rfl h, Nat.le_max_left ..⟩
      · have hroom : c.retx.pipe dupThresh < limit := BitVec.not_le.mp hfull
        generalize hk : min (min (limit - c.retx.pipe dupThresh).toNat c.sendMss.toNat) c.sendBuf.length = n at hn
        obtain ⟨s, hone⟩ := c.transmit_extends (Nat.pos_of_ne_zero hn) (by omega : n ≤ c.sendBuf.length) now
        have hpipe := pipe_transmit c n (PSH ||| ACK) now
        generalize c.transmit n (PSH ||| ACK) now = r at hone hpipe ⊢
        obtain ⟨d, seg⟩ := r
        obtain ⟨new, m, hrest, -, hle⟩ := ih d
        refine ⟨s :: new, n + m, hone.trans hrest, fun _ => hroom, ?_⟩
        have hstep : (d.retx.pipe dupThresh).toNat ≤ limit.toNat := by
          have hn' : n ≤ (limit - c.retx.pipe dupThresh).toNat := by omega
          dsimp only at hpipe
          generalize d.retx.pipe dupThresh = after at hpipe
          generalize c.retx.pipe dupThresh = before at hpipe hroom hn'
          rcases hpipe with rfl | rfl <;> bv_omega
        dsimp only at hle ⊢
        omega

def pipeLimit (c : Connection F) : U32 := umin c.send.wnd c.cong.window

/-- The queue lies end to end around SND.UNA up to SND.NXT, and FlightSize is
less than half the sequence space. -/
structure Consecutive (c : Connection F) (u v : Nat) : Prop where
  una : c.send.una = point c.send.iss u
  nxt : c.send.nxt = point c.send.iss v
  queue : Covers c.send.iss u (c.retx.segments.map Unacked.queued) v
  near : v - u < 2 ^ 31

/-- A poll that resends the segments `holes` and then sends `new`. -/
structure RecoveryRound (c : Connection F) (now : U64) (holes new : List Unacked) : Prop where
  packets : (c.pollTransmit now).2 = holes.map Unacked.packet ++ new.map Unacked.packet
  lost : ∀ s ∈ holes, c.retx.LostOnce s
  inOrder : holes.Sublist c.retx.segments
  ascending : holes.Pairwise fun s t => after s.endSeq t.startSeq = false
  distinct : holes.Nodup
  data : ∃ n, Extends c (c.pollTransmit now).1 (new.map Unacked.packet) new n
  holesFirst : new ≠ [] → ∀ s, c.retx.LostOnce s → s ∈ holes
  pipe : ((c.pollTransmit now).1.retx.pipe dupThresh).toNat ≤
    max (c.retx.pipe dupThresh).toNat (c.pipeLimit.toNat + (c.retx.longest - 1))

/-- With more rounds allowed neither loop of the poll goes on. -/
def LoopsEnd (c : Connection F) (now : U64) : Prop :=
  ∀ more, retransmitHoles c.pipeLimit now (c.retx.segments.length + more) c.retx =
      retransmitHoles c.pipeLimit now c.retx.segments.length c.retx ∧
    let d := { c with
      tsVal := now.setWidth 32, retx := (retransmitHoles c.pipeLimit now c.retx.segments.length c.retx).1 }
    fillPipe c.pipeLimit now (c.sendBuf.length + more) d = fillPipe c.pipeLimit now c.sendBuf.length d

theorem pollTransmit_recovery {c : Connection F} (hs : c.state.Sending) (hok : c.sackOk = true)
    (hin : c.cong.inRecovery = true) (now : U64) :
    c.pollTransmit now = recoverSack { c with tsVal := now.setWidth 32 } now := by
  have hopen : ¬ (c.state ≠ .established ∧ c.state ≠ .closeWait) := by
    rw [not_and_or, not_not, not_not]
    exact hs
  unfold pollTransmit
  rw [if_neg hopen]
  dsimp only
  rw [hok, hin, Bool.and_true, if_pos rfl]

theorem loopsEnd (c : Connection F) (now : U64) : LoopsEnd c now := fun more =>
  ⟨retransmitHoles_stable _ now more _ c.retx (List.length_filter_le _ _), fillPipe_stable _ now more _ _ le_rfl⟩

theorem recoveryRound_nil {c : Connection F} (hs : ¬ c.state.Sending) (now : U64) : RecoveryRound c now [] [] := by
  rw [State.Sending, not_or] at hs
  have hpoll : c.pollTransmit now = (c, []) := if_pos hs
  refine ⟨by rw [hpoll]; rfl, fun s hmem => (List.not_mem_nil hmem).elim, List.nil_sublist _, .nil, .nil, ?_,
    fun hne => absurd rfl hne, ?_⟩
  · rw [hpoll]
    exact ⟨0, Extends.refl c⟩
  · rw [hpoll]
    exact Nat.le_max_left ..

theorem recoveryRound_sending {c : Connection F} {u v : Nat} (hs : c.state.Sending) (hok : c.sackOk = true)
    (hin : c.cong.inRecovery = true) (hq : Consecutive c u v) (now : U64) :
    ∃ holes new, RecoveryRound c now holes new := by
  have hfew : (c.retx.segments.filter c.retx.lostOnce).length ≤ c.retx.segments.length := List.length_filter_le _ _
  have hpoll := pollTransmit_recovery hs hok hin now
  have hholes := retransmitHoles_holes c.pipeLimit now _ c.retx hfew
  have hwithin := retransmitHoles_within c.pipeLimit now c.retx.segments.length c.retx
  have hexhaust := retransmitHoles_exhausts c.pipeLimit now _ c.retx hfew
  have hkept := holesWithin_prefix c.pipeLimit (c.retx.pipe dupThresh) (c.retx.segments.filter c.retx.lostOnce)
  obtain ⟨new, n, hext, hroom, hpipe⟩ := fillPipe_within c.pipeLimit now c.sendBuf.length
    { c with
      tsVal := now.setWidth 32, retx := (retransmitHoles c.pipeLimit now c.retx.segments.length c.retx).1 }
  refine ⟨holesWithin c.pipeLimit (c.retx.pipe dupThresh) (c.retx.segments.filter c.retx.lostOnce), new, ?_⟩
  have hsub : (holesWithin c.pipeLimit (c.retx.pipe dupThresh) (c.retx.segments.filter c.retx.lostOnce)).Sublist
      c.retx.segments := hkept.sublist.trans List.filter_sublist
  refine ⟨?_, fun s hmem => mem_lostOnce.mp (hkept.subset hmem), hsub, (hq.queue.apart hq.near).sublist hsub,
    (hq.queue.nodup hq.near).sublist hsub, ?_, fun hne s hlost => ?_, ?_⟩
  · rw [← hholes, ← hext.packets, hpoll]
    rfl
  · rw [hpoll]
    exact ⟨n, rfl, hext.nxt, hext.buffer, hext.le, hext.laid⟩
  · rw [hexhaust (hroom hne)]
    exact mem_lostOnce.mpr hlost
  · rw [hpoll]
    refine hpipe.trans ?_
    dsimp only
    omega

/-- SACK recovery stays within the pipe. A poll ends by itself; it resends
holes, each reported lost and sent only once before, in ascending order, and
sends new data only when none of them is left; and the pipe it leaves behind
exceeds the limit by less than one segment, unless it was above it before. -/
theorem sack_recovery_stays_within_pipe {c : Connection F} {u v : Nat} (hok : c.sackOk = true)
    (hin : c.cong.inRecovery = true) (hq : Consecutive c u v) (now : U64) :
    LoopsEnd c now ∧ ∃ holes new, RecoveryRound c now holes new := by
  refine ⟨loopsEnd c now, ?_⟩
  by_cases hs : c.state.Sending
  · exact recoveryRound_sending hs hok hin hq now
  · exact ⟨[], [], recoveryRound_nil hs now⟩

end Connection

namespace Host
open Trace Connection

theorem run_contiguous {h : Host F} (hf : Fresh h) {calls : List Call} (hb : FlightBelow h calls)
    (hs : (h.run calls).conn.state.Sending) : ∃ u v, Consecutive (h.run calls).conn u v := by
  obtain ⟨⟨core, hist⟩, hfol, hst, ho, hnear⟩ := run_outstanding hf.follows hf.stream hf.outstanding hf.near hb
  obtain rfl : core = (h.run calls).conn.core := hfol.core
  exact ⟨_, _, ho.una, hst.nxt, ho.live hs.live, hnear⟩

/-- Six bytes in six segments, and a seventh to send; all but the first and the
third are reported to have arrived. -/
def twoHoles : List Call :=
  [.onSegment ⟨⟨80#16, 4000#16, 500#32, 101#32, 28, SYN ||| ACK, 8#16⟩, [],
      { mss := some 1#16, sackPermitted := true }⟩ 1#64 0#32,
    .onSegment (narrowAck []) 2#64 0#32, .write [0#8, 1#8, 2#8, 3#8, 4#8, 5#8], .pollTransmit 3#64, .write [6#8],
    .onSegment (narrowAck [(102#32, 103#32)]) 4#64 0#32, .onSegment (narrowAck [(104#32, 106#32)]) 5#64 0#32,
    .onSegment (narrowAck [(104#32, 107#32)]) 6#64 0#32]

/-- The third segment and then the new byte leave in one round. -/
theorem second_hole_precedes_new_data :
    let c := (narrow.run twoHoles).conn
    (c.pollTransmit 7#64).2.length = 2 ∧ ∃ holes new, RecoveryRound c 7#64 holes new := by
  have hb : FlightBelow narrow twoHoles := by decide +kernel
  obtain ⟨u, v, hq⟩ := run_contiguous (.connect ..) hb (by decide +kernel)
  exact ⟨by decide +kernel, (sack_recovery_stays_within_pipe (by decide +kernel) (by decide +kernel) hq 7#64).2⟩

end Host
end TcpStack
