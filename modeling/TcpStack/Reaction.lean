import Mathlib.Logic.Relation
import TcpStack.Host

/-!
# What a segment can do

The way of a segment through the handler is a sequence of updates of the
control block, and the answer is one of four kinds of packet. What every
update keeps is kept by the handler. The SYN-ACK of an active open stands
apart.
-/
namespace TcpStack

theorem RetxQueue.fastRetransmit_mem {q : RetxQueue} {nowMs : U64} {pkt : Bytes}
    (h : (q.fastRetransmit nowMs).2 = some pkt) : ∃ s ∈ (q.fastRetransmit nowMs).1.segments, s.packet = pkt := by
  unfold fastRetransmit at h ⊢
  cases hr : resendFirst (fun s => !s.sacked) nowMs q.segments with
  | none =>
      rw [hr] at h
      cases h
  | some r =>
      rw [hr] at h
      obtain ⟨segments, pkt'⟩ := r
      obtain rfl := Option.some.inj h
      obtain ⟨l, s, rest, -, -, -, rfl, rfl⟩ := resendFirst_split hr
      exact ⟨s.resend nowMs, List.mem_append_right _ List.mem_cons_self, rfl⟩

namespace Connection
open Tcp TcpStack.Seq

variable {F : Type} [F64 F]

/-- One update on the way of `seg` through the handler. -/
inductive Update (seg : Segment) (now : U64) (rnd : U32) (c : Connection F) : Connection F → Prop where
  | arrive : Update seg now rnd c (c.arrive now)
  | challenge : Update seg now rnd c (c.maybeChallenge now rnd).1
  | goto {s : State} (past : s ≠ .synSent ∧ s ≠ .synRcvd) : Update seg now rnd c { c with state := s }
  | linger : Update seg now rnd c { c with timeWaitMs := now }
  | advance : Update seg now rnd c { c with send := { c.send with una := seg.th.ack } }
  | dropAcked : Update seg now rnd c (c.dropAcked seg.th.ack now)
  | paws {c' : Connection F} (current : c.paws seg.th seg.opts = some c') : Update seg now rnd c c'
  | window : Update seg now rnd c (c.updateWindow (c.scaledWindow seg.th))
  | mark : Update seg now rnd c { c with retx := c.retx.markSacked seg.opts.validBlocks }
  | newAck (new : between c.send.una seg.th.ack c.send.nxt = true) :
      Update seg now rnd c (c.onNewAck seg.th seg.opts now).1
  | dupAck (same : seg.th.ack = c.send.una ∧ c.send.una ≠ c.send.nxt) : Update seg now rnd c (c.onDupAck now).1
  | deliver : Update seg now rnd c (c.deliver seg.th.seq seg.payload)
  | pend (fin : Option U32) : Update seg now rnd c { c with pendingFin := fin }
  | takeFin {s : State} (past : s ≠ .synSent ∧ s ≠ .synRcvd) : Update seg now rnd c (c.takeFin s)

/-- The answer, built from the state the handler leaves. -/
inductive Answer (c : Connection F) : Option Bytes → Prop where
  | none : Answer c none
  | ack : Answer c (some c.bareAck)
  | sack : Answer c (some (c.segmentOpts c.send.nxt c.recv.nxt ACK c.ackOptions []))
  | resend {s : Unacked} (mem : s ∈ c.retx.segments) : Answer c (some s.packet)

/-- Updates lead from `c` to the state of `r`, which answers. -/
structure Reacts (seg : Segment) (now : U64) (rnd : U32) (c : Connection F) (r : Connection F × Option Bytes) :
    Prop where
  path : Relation.ReflTransGen (Update seg now rnd) c r.1
  answer : Answer r.1 r.2

variable {seg : Segment} {now : U64} {rnd : U32} {c d : Connection F} {r : Connection F × Option Bytes}

theorem Reacts.preserves {P : Connection F → Prop} (h : Reacts seg now rnd c r)
    (hupdate : ∀ {c c' : Connection F}, Update seg now rnd c c' → P c → P c') (hc : P c) : P r.1 := by
  have hpath := h.path
  generalize r.1 = c' at hpath
  induction hpath with
  | refl => exact hc
  | tail _ hstep ih => exact hupdate hstep ih

namespace Reacts

theorem along (hpath : Relation.ReflTransGen (Update seg now rnd) c d) (h : Reacts seg now rnd d r) :
    Reacts seg now rnd c r := ⟨hpath.trans h.path, h.answer⟩

theorem after (hu : Update seg now rnd c d) (h : Reacts seg now rnd d r) : Reacts seg now rnd c r :=
  h.along (.single hu)

theorem silent : Reacts seg now rnd c (c, none) := ⟨.refl, .none⟩

theorem ack : Reacts seg now rnd c (c, some c.bareAck) := ⟨.refl, .ack⟩

theorem sack : Reacts seg now rnd c (c, some (c.segmentOpts c.send.nxt c.recv.nxt ACK c.ackOptions [])) :=
  ⟨.refl, .sack⟩

end Reacts

theorem maybeChallenge_reacts : Reacts seg now rnd c (c.maybeChallenge now rnd) := by
  refine ⟨.single .challenge, ?_⟩
  simp only [maybeChallenge]
  split_ifs
  · exact .none
  · exact .ack
  · exact .none
  · exact .ack

theorem onRst_reacts : Reacts seg now rnd c (c.onRst seg.th now rnd) := by
  have hclose : Reacts seg now rnd c ({ c with state := .closed }, none) := .after (.goto (by simp)) .silent
  unfold onRst
  split_ifs
  · exact hclose
  · exact .silent
  · exact .silent
  · exact hclose
  · exact maybeChallenge_reacts
  · exact .silent

theorem fastRetransmit_answers (c : Connection F) (now : U64) :
    Answer (c.fastRetransmit now).1 (c.fastRetransmit now).2 := by
  cases hp : (c.fastRetransmit now).2 with
  | none => exact .none
  | some pkt =>
      obtain ⟨s, hs, rfl⟩ := RetxQueue.fastRetransmit_mem hp
      exact .resend hs

theorem processAck_reacts (prevWnd newWnd : U32) :
    Reacts seg now rnd c (c.processAck seg.th seg.payload seg.opts prevWnd newWnd now) := by
  have hack : ∀ d : Connection F, Reacts seg now rnd d
      (if between d.send.una seg.th.ack d.send.nxt then d.onNewAck seg.th seg.opts now
      else if seg.th.ack = d.send.una ∧ d.send.una ≠ d.send.nxt ∧ seg.payload.isEmpty ∧ newWnd = prevWnd ∧
        newWnd ≠ 0#32 then d.onDupAck now
      else (d, none)) := by
    intro d
    split_ifs with hnew hdup
    · refine ⟨.single (.newAck hnew), ?_⟩
      simp only [onNewAck]
      split_ifs
      · exact fastRetransmit_answers _ now
      · exact .none
    · refine ⟨.single (.dupAck ⟨hdup.1, hdup.2.1⟩), ?_⟩
      simp only [onDupAck]
      split_ifs
      · exact fastRetransmit_answers _ now
      · exact .none
    · exact .silent
  unfold processAck
  dsimp only
  by_cases hmark : c.sackOk = true ∧ seg.opts.sackBlockCount > 0
  · rw [if_pos hmark]
    exact .after .mark (hack _)
  · rw [if_neg hmark]
    exact hack c

theorem receive_reacts : Reacts seg now rnd c (c.receive seg.th seg.payload) := by
  refine .after .deliver ?_
  unfold receive
  generalize c.deliver seg.th.seq seg.payload = d
  have hfin : ∀ e : Connection F, Reacts seg now rnd e
      ({ e with pendingFin := none }.takeFin .closeWait,
        some ({ e with pendingFin := none }.takeFin .closeWait).bareAck) :=
    fun e => .after (.pend none) (.after (.takeFin (by simp)) .ack)
  dsimp only
  split_ifs
  · exact .ack
  · exact .after (.pend _) (hfin _)
  · exact .after (.pend _) .sack
  · exact .after (.pend _) .silent
  · exact hfin d
  · exact .sack
  · exact .silent

theorem onOpen_reacts : Reacts seg now rnd c (c.onOpen seg.th seg.payload seg.opts now rnd) := by
  unfold onOpen
  cases hp : c.paws seg.th seg.opts with
  | none => exact .ack
  | some d =>
      refine .after (.paws hp) (.after .window ?_)
      dsimp only
      generalize d.updateWindow (d.scaledWindow seg.th) = u
      split_ifs
      · exact maybeChallenge_reacts
      · have hack : Reacts seg now rnd u
          (u.processAck seg.th seg.payload seg.opts d.send.wnd (d.scaledWindow seg.th) now) := processAck_reacts ..
        split
        · rename_i heq
          rwa [heq] at hack
        · rename_i e heq
          rw [heq] at hack
          exact .along hack.path receive_reacts
      · exact receive_reacts

theorem onState_reacts : Reacts seg now rnd c (c.onState seg.th seg.payload seg.opts now rnd) := by
  unfold onState
  split
  · exact onOpen_reacts
  · exact onOpen_reacts
  · unfold onLastAck
    split_ifs
    · exact .after .dropAcked (.after (.goto (by simp)) .silent)
    · exact .silent
  · unfold onFinWait1
    have hdrop : Relation.ReflTransGen (Update seg now rnd) c
        ((if c.ackedOurFin seg.th then c.dropAcked seg.th.ack now else c).deliver seg.th.seq seg.payload) := by
      split_ifs
      · exact (Relation.ReflTransGen.single .dropAcked).tail .deliver
      · exact .single .deliver
    refine .along hdrop ?_
    dsimp only
    generalize (if c.ackedOurFin seg.th then c.dropAcked seg.th.ack now else c).deliver seg.th.seq seg.payload = d
    split_ifs
    · exact .after (.takeFin (by simp)) (.after .linger .ack)
    · exact .after (.takeFin (by simp)) .ack
    · exact .after (.goto (by simp)) .ack
    · exact .ack
    · exact .after (.goto (by simp)) .silent
    · exact .silent
  · unfold onFinWait2
    refine .after .deliver ?_
    dsimp only
    split_ifs
    · exact .after (.takeFin (by simp)) (.after .linger .ack)
    · exact .ack
    · exact .silent
  · unfold onClosing
    split_ifs
    · exact .after .dropAcked (.after (.goto (by simp)) (.after .linger .silent))
    · exact .silent
  · exact .silent

theorem onSegment_reacts (c : Connection F) (seg : Segment) (now : U64) (rnd : U32) :
    Reacts seg now rnd c (c.onSegment seg now rnd) ∨
      (c.state = .synSent ∧ hasFlag seg.th.flags RST = false ∧
        c.onSegment seg now rnd = (c.arrive now).onSynSent seg.th seg.opts now) := by
  have hstate : (c.arrive now).state = c.state := rfl
  have harrive : Update seg now rnd c (c.arrive now) := .arrive
  unfold onSegment
  generalize c.arrive now = d at hstate harrive
  dsimp only
  split_ifs with hrst hsent hsyn
  · exact .inl (.after harrive onRst_reacts)
  · exact .inr ⟨hstate ▸ hsent, by simpa using hrst, rfl⟩
  · exact .inl (.after harrive maybeChallenge_reacts)
  · left
    cases hr : d.onSynRcvd seg.th now with
    | none => exact .after harrive .silent
    | some e =>
        have he : Relation.ReflTransGen (Update seg now rnd) d e := by
          unfold onSynRcvd at hr
          split_ifs at hr <;> obtain rfl := Option.some.inj hr
          · exact ((Relation.ReflTransGen.single .advance).tail .dropAcked).tail (.goto (by simp))
          · exact .refl
        exact .after harrive (.along he onState_reacts)

end Connection
end TcpStack
