import Mathlib.Data.List.Induction
import Mathlib.Data.List.Nodup
import TcpStack.RetxQueue

/-!
# The life of a queued segment

A book is kept beside the queue: for every segment the times at which it was
sent, and a list of the segments whose packets were returned. The queue knows
nothing of the book, and after any operations the two agree, but for the retry
counts, which wrap. As long as none does, the count tells a segment sent once
from one sent again, and that is Karn's rule.
-/
namespace TcpStack.RetxQueue
open TcpStack.Seq

/-- The operations of the queue, with the clock where they read it. -/
inductive Op where
  | record (startSeq endSeq : U32) (packet : Bytes) (nowMs : U64)
  | ack (una : U32) (nowMs : U64)
  | markSacked (blocks : List (U32 × U32))
  | due (nowMs rtoMs : U64)
  | fastRetransmit (nowMs : U64)
  | rackMarkLost (nowMs reoWndMs : U64)
  | retransmitLast (nowMs : U64)
  | nextLostRetransmit (thresh : Nat) (nowMs : U64)
  deriving DecidableEq, Repr

def Op.time : Op → Option U64
  | .record _ _ _ nowMs | .ack _ nowMs | .due nowMs _ | .fastRetransmit nowMs | .rackMarkLost nowMs _
  | .retransmitLast nowMs | .nextLostRetransmit _ nowMs => some nowMs
  | .markSacked _ => none

/-- The queue after an operation, the packets it returns and the RTT sample. -/
def perform (q : RetxQueue) : Op → RetxQueue × List Bytes × Option U64
  | .record startSeq endSeq packet nowMs => (q.record startSeq endSeq packet nowMs, [], none)
  | .ack una nowMs => ((q.ack una nowMs).1, [], (q.ack una nowMs).2)
  | .markSacked blocks => (q.markSacked blocks, [], none)
  | .due nowMs rtoMs => ((q.due nowMs rtoMs).1, (q.due nowMs rtoMs).2, none)
  | .fastRetransmit nowMs => ((q.fastRetransmit nowMs).1, (q.fastRetransmit nowMs).2.toList, none)
  | .rackMarkLost nowMs reoWndMs => ((q.rackMarkLost nowMs reoWndMs).1, (q.rackMarkLost nowMs reoWndMs).2, none)
  | .retransmitLast nowMs => ((q.retransmitLast nowMs).1, (q.retransmitLast nowMs).2.toList, none)
  | .nextLostRetransmit thresh nowMs =>
      ((q.nextLostRetransmit thresh nowMs).1, (q.nextLostRetransmit thresh nowMs).2.toList, none)

def picked (q : RetxQueue) : Op → List Unacked
  | .due nowMs rtoMs => q.segments.filter fun s => !s.sacked && decide (saturatingSub nowMs s.sentAtMs ≥ rtoMs)
  | .fastRetransmit _ => (q.segments.find? fun s => !s.sacked).toList
  | .rackMarkLost nowMs reoWndMs => q.segments.filter fun s => !s.sacked &&
      (decide (s.sentAtMs < q.rackXmitTs) && before s.startSeq q.rackEndSeq &&
        decide (saturatingSub nowMs s.sentAtMs > reoWndMs))
  | .retransmitLast _ => (q.segments.reverse.find? fun s => !s.sacked).toList
  | .nextLostRetransmit thresh _ =>
      (q.segments.find? fun s => !s.sacked && decide (s.retries = 0#32) && isLost q.segments thresh s).toList
  | .record _ _ _ _ | .ack _ _ | .markSacked _ => []

/-- No retry count that is full is counted up. -/
def Counts (q : RetxQueue) (op : Op) : Prop := ∀ s ∈ q.picked op, s.retries ≠ BitVec.allOnes 32

instance (q : RetxQueue) (op : Op) : Decidable (q.Counts op) := inferInstanceAs (Decidable (∀ s ∈ q.picked op, _))

/-- Nor by any of the operations that follow. -/
def CountsThroughout : RetxQueue → List Op → Prop
  | _, [] => True
  | q, op :: ops => q.Counts op ∧ CountsThroughout (q.perform op).1 ops

instance decidableCountsThroughout : (q : RetxQueue) → (ops : List Op) → Decidable (CountsThroughout q ops)
  | _, [] => .isTrue trivial
  | q, op :: ops =>
      have := decidableCountsThroughout (q.perform op).1 ops
      inferInstanceAs (Decidable (_ ∧ _))

/-- What is known of one recorded segment. -/
structure Life where
  /-- Its number in the order of recording. -/
  id : Nat
  startSeq : U32
  endSeq : U32
  packet : Bytes
  /-- When it was sent, the first time and again. -/
  sent : List U64
  sacked : Bool
  deriving DecidableEq, Repr

def Life.returns (l : Life) : Nat := l.sent.length - 1

/-- The queue entry of a segment with this life. -/
def Life.entry (l : Life) : Unacked :=
  { startSeq := l.startSeq, endSeq := l.endSeq, packet := l.packet, sentAtMs := l.sent.getLast?.getD 0#64,
    retries := BitVec.ofNat 32 l.returns, sacked := l.sacked }

/-- The life goes on as the entry `s` says: a change of its retry count tells a new transmission. -/
def Life.follow (l : Life) (s : Unacked) : Life :=
  { l with sent := if l.entry.retries ≠ s.retries then l.sent ++ [s.sentAtMs] else l.sent, sacked := s.sacked }

structure Book where
  queue : RetxQueue := {}
  /-- The lives of the queued segments. -/
  held : List Life := []
  /-- The lives of the segments that acknowledgements removed. -/
  gone : List Life := []
  recorded : Nat := 0
  /-- The numbers of the segments that were sent again, in the order of their packets. -/
  returned : List Nat := []
  deriving DecidableEq, Repr

/-- The lives that the new entries of their segments say were sent again. -/
def resentIn (held : List Life) (segments : List Unacked) : List Life :=
  ((held.zip segments).filter fun p => decide (p.1.entry.retries ≠ p.2.retries)).map Prod.fst

namespace Book

/-- Perform an operation and keep the book. -/
def post (b : Book) (op : Op) : Book :=
  let q := (b.queue.perform op).1
  match op with
  | .record startSeq endSeq packet nowMs =>
      { b with queue := q
               held := b.held ++ [⟨b.recorded, startSeq, endSeq, packet, [nowMs], false⟩]
               recorded := b.recorded + 1 }
  | .ack una _ =>
      { b with queue := q
               held := b.held.filter fun l => before una l.endSeq
               gone := b.gone ++ b.held.filter fun l => !before una l.endSeq }
  | _ =>
      { b with queue := q
               held := List.zipWith Life.follow b.held q.segments
               returned := b.returned ++ (resentIn b.held q.segments).map Life.id }

def run (b : Book) (ops : List Op) : Book := ops.foldl post b

end Book

/-- From the entry `s` to the next: nothing, one more transmission, which returns
the packet, or the SACK mark. -/
inductive Touch (nowMs : U64) (s : Unacked) : Unacked → List Bytes → Prop where
  | keep : Touch nowMs s s []
  | again (unsacked : s.sacked = false) : Touch nowMs s (s.resend nowMs) [s.packet]
  | mark : Touch nowMs s { s with sacked := true } []

/-- Each entry is touched, in its place. -/
inductive Touched (nowMs : U64) : List Unacked → List Unacked → List Bytes → Prop where
  | nil : Touched nowMs [] [] []
  | cons {s s' : Unacked} {old new : List Unacked} {out out' : List Bytes} (head : Touch nowMs s s' out)
      (rest : Touched nowMs old new out') : Touched nowMs (s :: old) (s' :: new) (out ++ out')

namespace Touched

theorem refl (nowMs : U64) (segments : List Unacked) : Touched nowMs segments segments [] := by
  induction segments with
  | nil => exact .nil
  | cons s rest ih => exact .cons .keep ih

theorem one (nowMs : U64) (l r : List Unacked) {s : Unacked} (unsacked : s.sacked = false) :
    Touched nowMs (l ++ s :: r) (l ++ s.resend nowMs :: r) [s.packet] := by
  induction l with
  | nil => exact .cons (.again unsacked) (refl nowMs r)
  | cons t l ih => exact .cons .keep ih

theorem resendWhere (nowMs : U64) {p : Unacked → Bool} (hp : ∀ s, p s = true → s.sacked = false)
    (segments : List Unacked) :
    Touched nowMs segments (resendWhere p nowMs segments).1 (resendWhere p nowMs segments).2 := by
  induction segments with
  | nil => exact .nil
  | cons s rest ih =>
      simp only [RetxQueue.resendWhere, List.map_cons, List.filter_cons]
      split_ifs with hs
      · exact .cons (.again (hp s hs)) ih
      · exact .cons .keep ih

theorem due (q : RetxQueue) (nowMs rtoMs : U64) :
    Touched nowMs q.segments (q.due nowMs rtoMs).1.segments (q.due nowMs rtoMs).2 :=
  resendWhere nowMs (fun s hs => by simp only [Bool.and_eq_true, Bool.not_eq_true'] at hs; exact hs.1) q.segments

theorem rackMarkLost (q : RetxQueue) (nowMs reoWndMs : U64) :
    Touched nowMs q.segments (q.rackMarkLost nowMs reoWndMs).1.segments (q.rackMarkLost nowMs reoWndMs).2 :=
  resendWhere nowMs (fun s hs => by simp only [Bool.and_eq_true, Bool.not_eq_true'] at hs; exact hs.1) q.segments

theorem fastRetransmit (q : RetxQueue) (nowMs : U64) :
    Touched nowMs q.segments (q.fastRetransmit nowMs).1.segments (q.fastRetransmit nowMs).2.toList := by
  unfold RetxQueue.fastRetransmit
  split
  · rename_i h
    obtain ⟨l, s, r, hq, -, hs, rfl, rfl⟩ := resendFirst_split h
    rw [hq]
    exact one nowMs l r (by simpa using hs)
  · exact refl nowMs _

theorem retransmitLast (q : RetxQueue) (nowMs : U64) :
    Touched nowMs q.segments (q.retransmitLast nowMs).1.segments (q.retransmitLast nowMs).2.toList := by
  unfold RetxQueue.retransmitLast
  split
  · rename_i h
    obtain ⟨l, s, r, hq, -, hs, rfl, rfl⟩ := resendFirst_split h
    have hq' : q.segments = r.reverse ++ s :: l.reverse := by
      rw [← List.reverse_reverse q.segments, hq]
      simp
    have hnew : (l ++ s.resend nowMs :: r).reverse = r.reverse ++ s.resend nowMs :: l.reverse := by simp
    dsimp only
    rw [hq', hnew]
    exact one nowMs _ _ (by simpa using hs)
  · exact refl nowMs _

theorem nextLostRetransmit (q : RetxQueue) (thresh : Nat) (nowMs : U64) :
    Touched nowMs q.segments (q.nextLostRetransmit thresh nowMs).1.segments
      (q.nextLostRetransmit thresh nowMs).2.toList := by
  rcases q.nextLostRetransmit_cases thresh nowMs with ⟨heq, -⟩ | ⟨l, s, r, hq, -, hs, heq⟩
  · rw [heq]
    exact refl nowMs _
  · simp only [Bool.and_eq_true, Bool.not_eq_true'] at hs
    rw [heq, hq]
    exact one nowMs l r hs.1.1

theorem markSacked (q : RetxQueue) (nowMs : U64) (blocks : List (U32 × U32)) :
    Touched nowMs q.segments (q.markSacked blocks).segments [] := by
  simp only [RetxQueue.markSacked]
  generalize q.segments = segments
  induction segments with
  | nil => exact .nil
  | cons s rest ih =>
      rw [List.map_cons]
      split_ifs
      · exact .cons .mark ih
      · exact .cons .keep ih

end Touched

/-- The segments whose retry counts differ. -/
def changed (old new : List Unacked) : List Unacked :=
  ((old.zip new).filter fun p => decide (p.1.retries ≠ p.2.retries)).map Prod.fst

theorem changed_cons (s s' : Unacked) (old new : List Unacked) :
    changed (s :: old) (s' :: new) = if s.retries ≠ s'.retries then s :: changed old new else changed old new := by
  unfold changed
  rw [List.zip_cons_cons, List.filter_cons]
  split_ifs with h h' h'
  · rfl
  · exact absurd (of_decide_eq_true h) h'
  · exact absurd (decide_eq_true h') h
  · rfl

theorem changed_self (segments : List Unacked) : changed segments segments = [] := by
  induction segments with
  | nil => rfl
  | cons s rest ih => rw [changed_cons, if_neg fun hne => hne rfl, ih]

theorem changed_one (nowMs : U64) (l : List Unacked) (s : Unacked) (r : List Unacked) :
    changed (l ++ s :: r) (l ++ s.resend nowMs :: r) = [s] := by
  induction l with
  | nil => rw [List.nil_append, List.nil_append, changed_cons, if_pos (s.resend_retries nowMs).symm, changed_self]
  | cons t l ih => rw [List.cons_append, List.cons_append, changed_cons, if_neg fun hne => hne rfl, ih]

theorem changed_resendWhere (p : Unacked → Bool) (nowMs : U64) (segments : List Unacked) :
    changed segments (resendWhere p nowMs segments).1 = segments.filter p := by
  induction segments with
  | nil => rfl
  | cons s rest ih =>
      simp only [resendWhere, List.map_cons] at ih ⊢
      rw [changed_cons, ih, List.filter_cons]
      cases p s with
      | true => exact if_pos (s.resend_retries nowMs).symm
      | false => exact if_neg fun hne => hne rfl

theorem find_split {p : Unacked → Bool} {l r : List Unacked} {s : Unacked} (hl : ∀ t ∈ l, p t = false)
    (hs : p s = true) :
    (l ++ s :: r).find? p = some s := by
  rw [List.find?_append, List.find?_eq_none.mpr fun t ht => by simp [hl t ht], List.find?_cons_of_pos hs]
  rfl

theorem changed_markSacked (q : RetxQueue) (blocks : List (U32 × U32)) :
    changed q.segments (q.markSacked blocks).segments = [] := by
  simp only [RetxQueue.markSacked]
  generalize q.segments = segments
  induction segments with
  | nil => rfl
  | cons s rest ih =>
      rw [List.map_cons, changed_cons, ih]
      refine if_neg fun hne => hne ?_
      split_ifs <;> rfl

theorem changed_fastRetransmit (q : RetxQueue) (nowMs : U64) :
    changed q.segments (q.fastRetransmit nowMs).1.segments = q.picked (.fastRetransmit nowMs) := by
  simp only [RetxQueue.fastRetransmit, picked]
  split
  · rename_i h
    obtain ⟨l, s, r, hq, hl, hs, rfl, rfl⟩ := resendFirst_split h
    rw [hq, changed_one, find_split hl hs]
    rfl
  · rename_i h
    rw [changed_self, List.find?_eq_none.mpr fun s hs => by simpa using resendFirst_none.mp h s hs]
    rfl

theorem changed_retransmitLast (q : RetxQueue) (nowMs : U64) :
    changed q.segments (q.retransmitLast nowMs).1.segments = q.picked (.retransmitLast nowMs) := by
  simp only [RetxQueue.retransmitLast, picked]
  split
  · rename_i h
    obtain ⟨l, s, r, hq, hl, hs, rfl, rfl⟩ := resendFirst_split h
    have hsegments : q.segments = r.reverse ++ s :: l.reverse := by
      rw [← List.reverse_reverse q.segments, hq]
      simp
    have hnew : (l ++ s.resend nowMs :: r).reverse = r.reverse ++ s.resend nowMs :: l.reverse := by simp
    rw [hq, find_split hl hs, hsegments, hnew, changed_one]
    rfl
  · rename_i h
    rw [changed_self, List.find?_eq_none.mpr fun s hs => by simpa using resendFirst_none.mp h s hs]
    rfl

theorem changed_nextLostRetransmit (q : RetxQueue) (thresh : Nat) (nowMs : U64) :
    changed q.segments (q.nextLostRetransmit thresh nowMs).1.segments =
    q.picked (.nextLostRetransmit thresh nowMs) := by
  simp only [picked]
  rcases q.nextLostRetransmit_cases thresh nowMs with ⟨heq, hnone⟩ | ⟨l, s, r, hq, hl, hs, heq⟩
  · rw [heq, changed_self, List.find?_eq_none.mpr fun s hs => by rw [hnone s hs]; exact Bool.false_ne_true]
    rfl
  · rw [heq]
    generalize isLost q.segments thresh = lost at hl hs
    rw [hq, changed_one, find_split hl hs]
    rfl

/-- The same segment, later. -/
structure Life.Becomes (l l' : Life) : Prop where
  id : l'.id = l.id
  startSeq : l'.startSeq = l.startSeq
  endSeq : l'.endSeq = l.endSeq
  packet : l'.packet = l.packet
  sent : l.sent <+: l'.sent

theorem Life.Becomes.refl (l : Life) : l.Becomes l := ⟨rfl, rfl, rfl, rfl, List.prefix_rfl⟩

theorem Life.Becomes.trans {l l' l'' : Life} (h : l.Becomes l') (h' : l'.Becomes l'') : l.Becomes l'' :=
  ⟨h'.id.trans h.id, h'.startSeq.trans h.startSeq, h'.endSeq.trans h.endSeq, h'.packet.trans h.packet,
    h.sent.trans h'.sent⟩

/-- The entry of the life that follows, and what it tells. -/
structure Life.Follows (nowMs : U64) (l : Life) (s : Unacked) (out : List Bytes) : Prop where
  entry : (l.follow s).entry = s
  becomes : l.Becomes (l.follow s)
  times : ∀ t ∈ (l.follow s).sent, t ∈ l.sent ∨ (t = nowMs ∧ out ≠ [])
  sacked : l.sacked = true → l.follow s = l
  again : (l.entry.retries ≠ s.retries ∧ l.sacked = false ∧ out = [l.packet] ∧ (l.follow s).returns = l.returns + 1) ∨
    (l.entry.retries = s.retries ∧ out = [] ∧ (l.follow s).returns = l.returns)

theorem Touch.follows {nowMs : U64} {l : Life} (hsent : l.sent ≠ []) {s : Unacked} {out : List Bytes}
    (h : Touch nowMs l.entry s out) : l.Follows nowMs s out := by
  have hkeep : ∀ s : Unacked, l.entry.retries = s.retries → l.follow s = { l with sacked := s.sacked } := by
    intro s hs
    rw [Life.follow, if_neg fun hne => hne hs]
  cases h with
  | keep =>
      have hf : l.follow l.entry = l := hkeep l.entry rfl
      exact ⟨by rw [hf], by rw [hf]; exact .refl l, fun t ht => .inl (hf ▸ ht), fun _ => hf,
        .inr ⟨rfl, rfl, by rw [hf]⟩⟩
  | mark =>
      have hf : l.follow { l.entry with sacked := true } = { l with sacked := true } := hkeep _ rfl
      refine ⟨by rw [hf]; rfl, by rw [hf]; exact ⟨rfl, rfl, rfl, rfl, List.prefix_rfl⟩,
        fun t ht => .inl ?_, fun hs => ?_, .inr ⟨rfl, rfl, by rw [hf]; rfl⟩⟩
      · rw [hf] at ht
        exact ht
      · rw [hf, ← hs]
  | again unsacked =>
      have hne : l.entry.retries ≠ (l.entry.resend nowMs).retries := (l.entry.resend_retries nowMs).symm
      have hf : l.follow (l.entry.resend nowMs) = { l with sent := l.sent ++ [nowMs] } := by
        rw [Life.follow, if_pos hne]
        rfl
      have hret : ({ l with sent := l.sent ++ [nowMs] } : Life).returns = l.returns + 1 := by
        have hpos := List.length_pos_iff.mpr hsent
        simp only [Life.returns, List.length_append, List.length_singleton]
        omega
      refine ⟨?_, ?_, fun t ht => ?_, fun hs => ?_, .inl ⟨hne, unsacked, rfl, by rw [hf, hret]⟩⟩
      · rw [hf, Life.entry, hret, List.getLast?_concat, BitVec.ofNat_add]
        rfl
      · rw [hf]
        exact ⟨rfl, rfl, rfl, rfl, List.prefix_append _ _⟩
      · rw [hf] at ht
        exact (List.mem_append.mp ht).imp id fun h => ⟨List.mem_singleton.mp h, List.cons_ne_nil _ _⟩
      · rw [show l.sacked = false from unsacked] at hs
        cases hs

theorem resentIn_cons (l : Life) (held : List Life) (s : Unacked) (segments : List Unacked) :
    resentIn (l :: held) (s :: segments) =
      if l.entry.retries ≠ s.retries then l :: resentIn held segments else resentIn held segments := by
  unfold resentIn
  rw [List.zip_cons_cons, List.filter_cons]
  split_ifs with h h' h'
  · rfl
  · exact absurd (of_decide_eq_true h) h'
  · exact absurd (decide_eq_true h') h
  · rfl

theorem resentIn_entry (held : List Life) (segments : List Unacked) :
    (resentIn held segments).map Life.entry = changed (held.map Life.entry) segments := by
  induction held generalizing segments with
  | nil => rfl
  | cons l held ih =>
      cases segments with
      | nil => rfl
      | cons s segments =>
          rw [resentIn_cons, List.map_cons, changed_cons]
          split_ifs
          · rw [List.map_cons, ih]
          · exact ih segments

/-- The lives follow the entries of the whole queue. -/
structure Followed (nowMs : U64) (held : List Life) (new : List Unacked) (out : List Bytes) : Prop where
  entries : (List.zipWith Life.follow held new).map Life.entry = new
  ids : (List.zipWith Life.follow held new).map Life.id = held.map Life.id
  sublist : (resentIn held new).Sublist held
  unsacked : ∀ l ∈ resentIn held new, l.sacked = false
  packets : (resentIn held new).map Life.packet = out
  each : ∀ l' ∈ List.zipWith Life.follow held new, ∃ l ∈ held, l.Becomes l' ∧
    (∀ t ∈ l'.sent, t ∈ l.sent ∨ (t = nowMs ∧ out ≠ [])) ∧
    l'.returns = l.returns + ((resentIn held new).map Life.id).count l.id
  later : ∀ l ∈ held, ∃ l' ∈ List.zipWith Life.follow held new, l.Becomes l' ∧ (l.sacked = true → l' = l) ∧
    (l ∈ resentIn held new → l'.returns = l.returns + 1)

section Cons
variable {nowMs : U64} {l : Life} {held : List Life} {s : Unacked} {new : List Unacked} {out out' : List Bytes}

theorem Life.Follows.resentIn (hl : l.Follows nowMs s out) (held : List Life) (new : List Unacked) :
    (resentIn (l :: held) (s :: new) = l :: resentIn held new ∧ l.sacked = false ∧ out = [l.packet] ∧
      (l.follow s).returns = l.returns + 1) ∨
    (resentIn (l :: held) (s :: new) = resentIn held new ∧ out = [] ∧ (l.follow s).returns = l.returns) := by
  rw [resentIn_cons]
  rcases hl.again with ⟨hne, hrest⟩ | ⟨heq, hrest⟩
  · exact .inl ⟨if_pos hne, hrest⟩
  · exact .inr ⟨if_neg fun hne => hne heq, hrest⟩

theorem Followed.each_cons (h : Followed nowMs held new out') (hl : l.Follows nowMs s out)
    (hnew : l.id ∉ held.map Life.id) : ∀ l' ∈ List.zipWith Life.follow (l :: held) (s :: new), ∃ k ∈ l :: held,
      k.Becomes l' ∧ (∀ t ∈ l'.sent, t ∈ k.sent ∨ (t = nowMs ∧ out ++ out' ≠ [])) ∧
      l'.returns = k.returns + ((resentIn (l :: held) (s :: new)).map Life.id).count k.id := by
  intro l' hl'
  rw [List.zipWith_cons_cons] at hl'
  rcases List.mem_cons.mp hl' with rfl | hl'
  · have hzero : ((RetxQueue.resentIn held new).map Life.id).count l.id = 0 :=
      List.count_eq_zero.mpr fun hmem => hnew ((h.sublist.map _).subset hmem)
    refine ⟨l, List.mem_cons_self .., hl.becomes, fun t ht => (hl.times t ht).imp id (.imp id ?_), ?_⟩
    · exact fun hne heq => hne (List.append_eq_nil_iff.mp heq).1
    rcases hl.resentIn held new with ⟨heq, -, -, hret⟩ | ⟨heq, -, hret⟩
    · rw [heq, List.map_cons, List.count_cons_self, hzero, hret]
    · rw [heq, hzero, hret, Nat.add_zero]
  · obtain ⟨k, hk, hbecomes, htimes, hret⟩ := h.each l' hl'
    refine ⟨k, List.mem_cons_of_mem _ hk, hbecomes, fun t ht => (htimes t ht).imp id (.imp id ?_), ?_⟩
    · exact fun hne heq => hne (List.append_eq_nil_iff.mp heq).2
    have hother : l.id ≠ k.id := fun heq => hnew (heq ▸ List.mem_map_of_mem hk)
    rcases hl.resentIn held new with ⟨heq, -⟩ | ⟨heq, -⟩
    · rw [heq, List.map_cons, List.count_cons_of_ne hother]
      exact hret
    · rw [heq]
      exact hret

theorem Followed.later_cons (h : Followed nowMs held new out') (hl : l.Follows nowMs s out)
    (hnew : l.id ∉ held.map Life.id) : ∀ k ∈ l :: held, ∃ l' ∈ List.zipWith Life.follow (l :: held) (s :: new),
      k.Becomes l' ∧ (k.sacked = true → l' = k) ∧
      (k ∈ resentIn (l :: held) (s :: new) → l'.returns = k.returns + 1) := by
  intro k hk
  rw [List.zipWith_cons_cons]
  rcases List.mem_cons.mp hk with rfl | hk
  · refine ⟨_, List.mem_cons_self .., hl.becomes, hl.sacked, fun hmem => ?_⟩
    rcases hl.resentIn held new with ⟨-, -, -, hret⟩ | ⟨heq, -⟩
    · exact hret
    · rw [heq] at hmem
      exact absurd (List.mem_map_of_mem (h.sublist.subset hmem)) hnew
  · obtain ⟨k', hk', hbecomes, hsacked, hret⟩ := h.later k hk
    refine ⟨k', List.mem_cons_of_mem _ hk', hbecomes, hsacked, fun hmem => hret ?_⟩
    rcases hl.resentIn held new with ⟨heq, -⟩ | ⟨heq, -⟩
    · rw [heq] at hmem
      refine (List.mem_cons.mp hmem).resolve_left fun heq => hnew ?_
      exact heq ▸ List.mem_map_of_mem hk
    · rwa [heq] at hmem

theorem Followed.cons (h : Followed nowMs held new out') (hl : l.Follows nowMs s out)
    (hnew : l.id ∉ held.map Life.id) : Followed nowMs (l :: held) (s :: new) (out ++ out') where
  entries := by rw [List.zipWith_cons_cons, List.map_cons, hl.entry, h.entries]
  ids := by rw [List.zipWith_cons_cons, List.map_cons, List.map_cons, hl.becomes.id, h.ids]
  sublist := by
    rcases hl.resentIn held new with ⟨heq, -⟩ | ⟨heq, -⟩
    · exact heq ▸ h.sublist.cons_cons l
    · exact heq ▸ h.sublist.cons l
  unsacked := by
    rcases hl.resentIn held new with ⟨heq, huns, -⟩ | ⟨heq, -⟩
    · exact heq ▸ List.forall_mem_cons.mpr ⟨huns, h.unsacked⟩
    · exact heq ▸ h.unsacked
  packets := by
    rcases hl.resentIn held new with ⟨heq, -, rfl, -⟩ | ⟨heq, rfl, -⟩
    · rw [heq, List.map_cons, h.packets]
      rfl
    · rw [heq, h.packets]
      rfl
  each := h.each_cons hl hnew
  later := h.later_cons hl hnew

end Cons

theorem Touched.followed {nowMs : U64} {held : List Life} (hsent : ∀ l ∈ held, l.sent ≠ [])
    (hids : (held.map Life.id).Nodup) {new : List Unacked} {out : List Bytes}
    (h : Touched nowMs (held.map Life.entry) new out) : Followed nowMs held new out := by
  induction held generalizing new out with
  | nil =>
      cases h with
      | nil =>
          exact ⟨rfl, rfl, .slnil, fun l hl => (nomatch hl), rfl, fun l hl => (nomatch hl), fun l hl => (nomatch hl)⟩
  | cons l held ih =>
      rw [List.map_cons, List.nodup_cons] at hids
      obtain ⟨hnew, hids⟩ := hids
      cases h with
      | cons head rest =>
          have hl := head.follows (hsent l (List.mem_cons_self ..))
          exact (ih (fun k hk => hsent k (List.mem_cons_of_mem _ hk)) hids rest).cons hl hnew

namespace Book

/-- The book agrees with the queue. -/
structure Balanced (b : Book) : Prop where
  /-- The entries are as recorded, and their retry counts are the numbers of returns, modulo 2³². -/
  entries : b.queue.segments = b.held.map Life.entry
  order : (b.held.map Life.id).Pairwise (· < ·)
  distinct : ((b.held ++ b.gone).map Life.id).Nodup
  returns : ∀ l ∈ b.held ++ b.gone, b.returned.count l.id = l.returns
  sent : ∀ l ∈ b.held ++ b.gone, l.sent ≠ []
  numbered : ∀ i ∈ (b.held ++ b.gone).map Life.id ++ b.returned, i < b.recorded

theorem balanced_start : Balanced {} :=
  ⟨rfl, .nil, .nil, fun _ hl => (nomatch hl), fun _ hl => (nomatch hl), fun _ hi => (nomatch hi)⟩

/-- What one operation does to the queue, by the book. -/
structure Fair (b : Book) (op : Op) : Prop where
  queue : (b.post op).queue = (b.queue.perform op).1
  /-- The packets are those of some queued segments that are not selectively
  acknowledged, in order, and each is put down once. -/
  returned : ∃ lives : List Life, lives.Sublist b.held ∧ (∀ l ∈ lives, l.sacked = false) ∧
    (b.post op).returned = b.returned ++ lives.map Life.id ∧ (b.queue.perform op).2.1 = lives.map Life.packet
  inOrder : ((b.post op).held.map Life.id).Sublist (b.held.map Life.id ++ [b.recorded])
  kept : ∀ l ∈ b.held ++ b.gone, ∃ l' ∈ (b.post op).held ++ (b.post op).gone, l.Becomes l'
  /-- A selectively acknowledged segment stays so and is not sent again. -/
  settled : ∀ l ∈ b.held ++ b.gone, l.sacked = true → l ∈ (b.post op).held ++ (b.post op).gone

/-- The retry counts are the numbers of returns. -/
def Exact (b : Book) : Prop := ∀ l ∈ b.held, b.returned.count l.id = l.entry.retries.toNat

/-- A sample times a removed segment that was sent once. -/
def Timed (b : Book) (op : Op) : Prop :=
  ∀ rtt, (b.queue.perform op).2.2 = some rtt → ∃ (una : U32) (nowMs : U64) (l : Life) (t : U64), op = .ack una nowMs ∧
    l ∈ b.held ∧ l ∈ (b.post op).gone ∧ l.sent = [t] ∧ t ≤ nowMs ∧ rtt = nowMs - t

theorem post_cases (op : Op) :
    (∃ startSeq endSeq packet nowMs, op = .record startSeq endSeq packet nowMs) ∨ (∃ una nowMs, op = .ack una nowMs) ∨
    ((∀ b : Book, b.post op = { b with
        queue := (b.queue.perform op).1
        held := List.zipWith Life.follow b.held (b.queue.perform op).1.segments
        returned := b.returned ++ (resentIn b.held (b.queue.perform op).1.segments).map Life.id }) ∧
      ∃ nowMs, ∀ q : RetxQueue, Touched nowMs q.segments (q.perform op).1.segments (q.perform op).2.1 ∧
        (q.perform op).2.2 = none ∧ ((q.perform op).2.1 ≠ [] → op.time = some nowMs) ∧
        changed q.segments (q.perform op).1.segments = q.picked op) := by
  cases op with
  | record => exact .inl ⟨_, _, _, _, rfl⟩
  | ack => exact .inr (.inl ⟨_, _, rfl⟩)
  | markSacked blocks =>
      exact .inr (.inr ⟨fun _ => rfl, 0#64, fun q =>
        ⟨.markSacked q _ blocks, rfl, fun hne => absurd rfl hne, changed_markSacked q blocks⟩⟩)
  | due nowMs rtoMs =>
      exact .inr (.inr ⟨fun _ => rfl, nowMs, fun q =>
        ⟨.due q nowMs rtoMs, rfl, fun _ => rfl, changed_resendWhere ..⟩⟩)
  | fastRetransmit nowMs =>
      exact .inr (.inr ⟨fun _ => rfl, nowMs, fun q =>
        ⟨.fastRetransmit q nowMs, rfl, fun _ => rfl, changed_fastRetransmit q nowMs⟩⟩)
  | rackMarkLost nowMs reoWndMs =>
      exact .inr (.inr ⟨fun _ => rfl, nowMs, fun q =>
        ⟨.rackMarkLost q nowMs reoWndMs, rfl, fun _ => rfl, changed_resendWhere ..⟩⟩)
  | retransmitLast nowMs =>
      exact .inr (.inr ⟨fun _ => rfl, nowMs, fun q =>
        ⟨.retransmitLast q nowMs, rfl, fun _ => rfl, changed_retransmitLast q nowMs⟩⟩)
  | nextLostRetransmit thresh nowMs =>
      exact .inr (.inr ⟨fun _ => rfl, nowMs, fun q =>
        ⟨.nextLostRetransmit q thresh nowMs, rfl, fun _ => rfl, changed_nextLostRetransmit q thresh nowMs⟩⟩)

/-- The times in the book are those of the operations `ops`. -/
def Dated (b : Book) (times : List U64) : Prop := ∀ l ∈ b.held ++ b.gone, ∀ t ∈ l.sent, t ∈ times

variable {b : Book}

theorem Balanced.followed (hb : b.Balanced) {nowMs : U64} {new : List Unacked} {out : List Bytes}
    (h : Touched nowMs b.queue.segments new out) : Followed nowMs b.held new out := by
  rw [hb.entries] at h
  refine h.followed (fun l hl => hb.sent l (List.mem_append_left _ hl)) ?_
  exact hb.order.imp fun hlt => Nat.ne_of_lt hlt

theorem mem_ack {una : U32} {nowMs : U64} {l : Life} :
    l ∈ (b.post (.ack una nowMs)).held ++ (b.post (.ack una nowMs)).gone ↔ l ∈ b.held ++ b.gone := by
  simp only [post, List.mem_append, List.mem_filter]
  cases before una l.endSeq <;> simp [or_comm]

theorem Balanced.record (hb : b.Balanced) (startSeq endSeq : U32) (packet : Bytes) (nowMs : U64) :
    (b.post (.record startSeq endSeq packet nowMs)).Balanced := by
  have hid : ∀ l ∈ b.held ++ b.gone, l.id < b.recorded := fun l hl =>
    hb.numbered _ (List.mem_append_left _ (List.mem_map_of_mem hl))
  have hmem : ∀ l ∈ b.held ++ [⟨b.recorded, startSeq, endSeq, packet, [nowMs], false⟩] ++ b.gone,
      l ∈ b.held ++ b.gone ∨ l = ⟨b.recorded, startSeq, endSeq, packet, [nowMs], false⟩ := by
    intro l hl
    simp only [List.mem_append, List.mem_singleton] at hl ⊢
    tauto
  constructor
  · simp only [post, perform, RetxQueue.record, List.map_append, hb.entries]
    rfl
  · simp only [post, List.map_append, List.map_singleton]
    refine List.pairwise_append.mpr ⟨hb.order, List.pairwise_singleton .., fun i hi j hj => ?_⟩
    obtain ⟨l, hl, rfl⟩ := List.mem_map.mp hi
    rw [List.mem_singleton.mp hj]
    exact hid l (List.mem_append_left _ hl)
  · simp only [post, List.map_append, List.map_singleton, List.append_assoc]
    refine List.nodup_middle.mpr (List.nodup_cons.mpr ⟨fun hi => ?_, List.map_append ▸ hb.distinct⟩)
    replace hi : b.recorded ∈ (b.held ++ b.gone).map Life.id := by rwa [List.map_append]
    obtain ⟨l, hl, heq⟩ := List.mem_map.mp hi
    exact absurd (hid l hl) (by rw [heq]; exact Nat.lt_irrefl _)
  · intro l hl
    rcases hmem l hl with hl | rfl
    · exact hb.returns l hl
    · refine List.count_eq_zero.mpr fun hi => ?_
      exact absurd (hb.numbered _ (List.mem_append_right _ hi)) (Nat.lt_irrefl _)
  · intro l hl
    rcases hmem l hl with hl | rfl
    · exact hb.sent l hl
    · exact List.cons_ne_nil _ _
  · intro i hi
    rcases List.mem_append.mp hi with hi | hi
    · obtain ⟨l, hl, rfl⟩ := List.mem_map.mp hi
      rcases hmem l hl with hl | rfl
      · exact Nat.lt_succ_of_lt (hid l hl)
      · exact Nat.lt_succ_self _
    · exact Nat.lt_succ_of_lt (hb.numbered i (List.mem_append_right _ hi))

theorem Balanced.ack (hb : b.Balanced) (una : U32) (nowMs : U64) : (b.post (.ack una nowMs)).Balanced := by
  constructor
  · simp only [post, perform, RetxQueue.ack, hb.entries, List.filter_map]
    rfl
  · exact hb.order.sublist (List.filter_sublist.map _)
  · refine (List.Perm.nodup_iff ?_).mpr hb.distinct
    refine List.Perm.map _ ?_
    simp only [post]
    exact ((List.Perm.append_left _ List.perm_append_comm).trans (by rw [← List.append_assoc])).trans
      (List.Perm.append_right _ (List.filter_append_perm _ _))
  · exact fun l hl => hb.returns l (mem_ack.mp hl)
  · exact fun l hl => hb.sent l (mem_ack.mp hl)
  · intro i hi
    rcases List.mem_append.mp hi with hi | hi
    · obtain ⟨l, hl, rfl⟩ := List.mem_map.mp hi
      exact hb.numbered _ (List.mem_append_left _ (List.mem_map_of_mem (mem_ack.mp hl)))
    · exact hb.numbered i (List.mem_append_right _ hi)

theorem Balanced.touch (hb : b.Balanced) {nowMs : U64} {q : RetxQueue} {out : List Bytes}
    (h : Touched nowMs b.queue.segments q.segments out) :
    Balanced { b with
      queue := q
      held := List.zipWith Life.follow b.held q.segments
      returned := b.returned ++ (resentIn b.held q.segments).map Life.id } := by
  have hf := hb.followed h
  have hids : (List.zipWith Life.follow b.held q.segments ++ b.gone).map Life.id =
      (b.held ++ b.gone).map Life.id := by
    rw [List.map_append, hf.ids, List.map_append]
  have hgone : ∀ l ∈ b.gone, ((resentIn b.held q.segments).map Life.id).count l.id = 0 := by
    intro l hl
    refine List.count_eq_zero.mpr fun hi => ?_
    have hd := hb.distinct
    rw [List.map_append, List.nodup_append] at hd
    exact hd.2.2 _ ((hf.sublist.map _).subset hi) _ (List.mem_map_of_mem hl) rfl
  constructor
  · exact hf.entries.symm
  · rw [hf.ids]
    exact hb.order
  · rw [hids]
    exact hb.distinct
  · intro l' hl'
    rw [List.count_append]
    rcases List.mem_append.mp hl' with hl' | hl'
    · obtain ⟨l, hl, hbecomes, -, hret⟩ := hf.each l' hl'
      rw [hbecomes.id, hb.returns l (List.mem_append_left _ hl), hret]
    · rw [hgone l' hl', hb.returns l' (List.mem_append_right _ hl'), Nat.add_zero]
  · intro l' hl'
    rcases List.mem_append.mp hl' with hl' | hl'
    · obtain ⟨l, hl, hbecomes, -⟩ := hf.each l' hl'
      intro hnil
      have hpre := hbecomes.sent
      rw [hnil, List.prefix_nil] at hpre
      exact hb.sent l (List.mem_append_left _ hl) hpre
    · exact hb.sent l' (List.mem_append_right _ hl')
  · rw [hids]
    intro i hi
    rcases List.mem_append.mp hi with hi | hi
    · exact hb.numbered i (List.mem_append_left _ hi)
    · rcases List.mem_append.mp hi with hi | hi
      · exact hb.numbered i (List.mem_append_right _ hi)
      · refine hb.numbered i (List.mem_append_left _ ?_)
        rw [List.map_append]
        exact List.mem_append_left _ ((hf.sublist.map _).subset hi)

theorem Balanced.post (hb : b.Balanced) (op : Op) : (b.post op).Balanced := by
  rcases post_cases op with ⟨_, _, _, _, rfl⟩ | ⟨_, _, rfl⟩ | ⟨hpost, nowMs, htouch⟩
  · exact hb.record ..
  · exact hb.ack ..
  · rw [hpost]
    exact hb.touch (htouch b.queue).1

theorem Dated.post (hb : b.Balanced) {times : List U64} (hd : b.Dated times) (op : Op) :
    (b.post op).Dated (times ++ op.time.toList) := by
  have hold : ∀ {l t}, l ∈ b.held ++ b.gone → t ∈ l.sent → t ∈ times ++ op.time.toList :=
    fun hl ht => List.mem_append_left _ (hd _ hl _ ht)
  intro l hl t ht
  rcases post_cases op with ⟨_, _, _, nowMs, rfl⟩ | ⟨_, _, rfl⟩ | ⟨hpost, nowMs, htouch⟩
  · simp only [Book.post, List.append_assoc, List.mem_append, List.mem_singleton] at hl
    rcases hl with hl | rfl | hl
    · exact hold (List.mem_append_left _ hl) ht
    · rw [List.mem_singleton.mp ht]
      exact List.mem_append_right _ (List.mem_singleton_self _)
    · exact hold (List.mem_append_right _ hl) ht
  · exact hold (mem_ack.mp hl) ht
  · obtain ⟨htouched, -, htime, -⟩ := htouch b.queue
    rw [hpost] at hl
    rcases List.mem_append.mp hl with hl | hl
    · obtain ⟨k, hk, -, htimes, -⟩ := (hb.followed htouched).each l hl
      rcases htimes t ht with ht | ⟨rfl, hne⟩
      · exact hold (List.mem_append_left _ hk) ht
      · rw [htime hne]
        exact List.mem_append_right _ (List.mem_singleton_self _)
    · exact hold (List.mem_append_right _ hl) ht

theorem sample_once {nowMs : U64} {removed : List Unacked} {rtt : U64}
    (h : removed.foldl (sampleStep nowMs) none = some rtt) :
    ∃ s ∈ removed, s.retries = 0#32 ∧ rtt = saturatingSub nowMs s.sentAtMs := by
  have hfold : ∀ (segs : List Unacked) (acc : Option U64), segs.foldl (sampleStep nowMs) acc = some rtt →
      acc = some rtt ∨ ∃ s ∈ segs, s.retries = 0#32 ∧ rtt = saturatingSub nowMs s.sentAtMs := by
    intro segs
    induction segs with
    | nil => exact fun acc h => .inl h
    | cons s segs ih =>
        intro acc h
        rcases ih _ h with hacc | ⟨t, ht, hrest⟩
        · unfold sampleStep at hacc
          split_ifs at hacc with hs
          · exact .inr ⟨s, List.mem_cons_self .., hs.1, (Option.some.inj hacc).symm⟩
          · exact .inl hacc
        · exact .inr ⟨t, List.mem_cons_of_mem _ ht, hrest⟩
  rcases hfold removed none h with hnone | hsome
  · cases hnone
  · exact hsome

theorem Balanced.exact_iff (hb : b.Balanced) : b.Exact ↔ ∀ l ∈ b.held, l.returns < 2 ^ 32 := by
  refine forall₂_congr fun l hl => ?_
  rw [hb.returns l (List.mem_append_left _ hl), Life.entry, BitVec.toNat_ofNat]
  omega

theorem Balanced.exact_post (hb : b.Balanced) (hx : b.Exact) (op : Op) : (b.post op).Exact ↔ b.queue.Counts op := by
  have hbound := hb.exact_iff.mp hx
  rw [(hb.post op).exact_iff]
  rcases post_cases op with ⟨startSeq, endSeq, packet, nowMs, rfl⟩ | ⟨una, nowMs, rfl⟩ | ⟨hpost, nowMs, htouch⟩
  · refine iff_of_true (fun l hl => ?_) fun s hs => nomatch hs
    rcases List.mem_append.mp hl with hl | hl
    · exact hbound l hl
    · rw [List.mem_singleton.mp hl]
      exact Nat.two_pow_pos 32
  · exact iff_of_true (fun l hl => hbound l (List.mem_filter.mp hl).1) fun s hs => nomatch hs
  · obtain ⟨htouched, -, -, hpicked⟩ := htouch b.queue
    have hf := hb.followed htouched
    have hids : ((resentIn b.held (b.queue.perform op).1.segments).map Life.id).Nodup :=
      (hb.order.imp fun hlt => Nat.ne_of_lt hlt).sublist (hf.sublist.map _)
    rw [hpost, Counts, ← hpicked, hb.entries, ← resentIn_entry]
    have hfull : ∀ l : Life, l.returns < 2 ^ 32 → (l.entry.retries ≠ BitVec.allOnes 32 ↔ l.returns + 1 < 2 ^ 32) := by
      intro l hl
      rw [Life.entry, Ne, ← BitVec.toNat_inj, BitVec.toNat_ofNat, BitVec.toNat_allOnes]
      omega
    rw [List.forall_mem_map]
    constructor
    · intro hall l hl
      have hheld := hf.sublist.subset hl
      obtain ⟨l', hl', -, -, hret⟩ := hf.later l hheld
      rw [hfull l (hbound l hheld), ← hret hl]
      exact hall l' hl'
    · intro hall l' hl'
      obtain ⟨l, hl, -, -, hret⟩ := hf.each l' hl'
      rw [hret]
      by_cases hmem : l.id ∈ (resentIn b.held (b.queue.perform op).1.segments).map Life.id
      · obtain ⟨k, hk, heq⟩ := List.mem_map.mp hmem
        obtain rfl : k = l := List.inj_on_of_nodup_map (hb.order.imp fun hlt => Nat.ne_of_lt hlt)
          (hf.sublist.subset hk) hl heq
        rw [List.count_eq_one_of_mem hids hmem]
        exact (hfull k (hbound k hl)).mp (hall k hk)
      · rw [List.count_eq_zero_of_not_mem hmem]
        exact hbound l hl

theorem Balanced.timed (hb : b.Balanced) (hx : b.Exact) {op : Op}
    (hle : ∀ nowMs, op.time = some nowMs → ∀ l ∈ b.held, ∀ t ∈ l.sent, t ≤ nowMs) : b.Timed op := by
  intro rtt hrtt
  rcases post_cases op with ⟨startSeq, endSeq, packet, nowMs, rfl⟩ | ⟨una, nowMs, rfl⟩ | ⟨-, nowMs, htouch⟩
  · cases hrtt
  · obtain ⟨s, hs, hretries, rfl⟩ := sample_once hrtt
    rw [hb.entries, List.filter_map] at hs
    obtain ⟨l, hl, rfl⟩ := List.mem_map.mp hs
    have hheld := (List.mem_filter.mp hl).1
    obtain ⟨t, hsent⟩ : ∃ t, l.sent = [t] := by
      refine List.length_eq_one_iff.mp ?_
      have hpos := List.length_pos_iff.mpr (hb.sent l (List.mem_append_left _ hheld))
      have hzero := hx l hheld
      rw [hb.returns l (List.mem_append_left _ hheld), hretries, Life.returns, BitVec.toNat_zero] at hzero
      omega
    have ht := hle nowMs rfl l hheld t (by rw [hsent]; exact List.mem_singleton_self t)
    refine ⟨una, nowMs, l, t, rfl, hheld, List.mem_append_right _ hl, hsent, ht, ?_⟩
    have hat : l.entry.sentAtMs = t := by
      rw [Life.entry, hsent]
      rfl
    rw [hat, saturatingSub]
    split_ifs with h
    · bv_omega
    · rfl
  · rw [(htouch b.queue).2.1] at hrtt
    cases hrtt

theorem Balanced.fair (hb : b.Balanced) (op : Op) : b.Fair op := by
  rcases post_cases op with ⟨startSeq, endSeq, packet, nowMs, rfl⟩ | ⟨una, nowMs, rfl⟩ | ⟨hpost, nowMs, htouch⟩
  · have hmem : ∀ l ∈ b.held ++ b.gone, l ∈ (b.post (.record startSeq endSeq packet nowMs)).held ++ b.gone := by
      intro l hl
      simp only [Book.post, List.mem_append] at hl ⊢
      exact hl.imp .inl id
    refine ⟨rfl, ⟨[], List.nil_sublist _, fun _ hl => (nomatch hl), (List.append_nil _).symm, rfl⟩, ?_,
      fun l hl => ⟨l, hmem l hl, .refl l⟩, fun l hl _ => hmem l hl⟩
    simp only [Book.post, List.map_append]
    exact .refl _
  · refine ⟨rfl, ⟨[], List.nil_sublist _, fun _ hl => (nomatch hl), (List.append_nil _).symm, rfl⟩, ?_,
      fun l hl => ⟨l, mem_ack.mpr hl, .refl l⟩, fun l hl _ => mem_ack.mpr hl⟩
    exact (List.filter_sublist.map _).trans (List.sublist_append_left _ _)
  · have hf := hb.followed (htouch b.queue).1
    constructor
    · rw [hpost]
    · rw [hpost]
      exact ⟨_, hf.sublist, hf.unsacked, rfl, hf.packets.symm⟩
    · rw [hpost, hf.ids]
      exact List.sublist_append_left _ _
    · intro l hl
      rw [hpost]
      rcases List.mem_append.mp hl with hl | hl
      · obtain ⟨l', hl', hbecomes, -⟩ := hf.later l hl
        exact ⟨l', List.mem_append_left _ hl', hbecomes⟩
      · exact ⟨l, List.mem_append_right _ hl, .refl l⟩
    · intro l hl hs
      rw [hpost]
      rcases List.mem_append.mp hl with hl | hl
      · obtain ⟨l', hl', -, hsame, -⟩ := hf.later l hl
        exact List.mem_append_left _ (hsame hs ▸ hl')
      · exact List.mem_append_right _ hl

theorem run_snoc (b : Book) (pre : List Op) (op : Op) : b.run (pre ++ [op]) = (b.run pre).post op := by
  rw [run, List.foldl_append]
  rfl

theorem run_balanced (ops : List Op) : (run {} ops).Balanced ∧ (run {} ops).Dated (ops.filterMap Op.time) := by
  induction ops using List.reverseRecOn with
  | nil => exact ⟨balanced_start, fun _ hl => nomatch hl⟩
  | append_singleton pre op ih =>
      rw [run_snoc]
      refine ⟨ih.1.post op, ?_⟩
      have hd := ih.2.post ih.1 op
      rw [List.filterMap_append]
      cases hop : op.time <;> simpa [hop] using hd

/-- Over fair operations every life goes on, and a selectively acknowledged one does not change. -/
theorem run_later {post : List Op} : ∀ {pre : List Op},
    (∀ p op q, pre ++ post = p ++ op :: q → (run {} p).Fair op) →
    ∀ l ∈ (run {} pre).held ++ (run {} pre).gone,
      (∃ l' ∈ (run {} (pre ++ post)).held ++ (run {} (pre ++ post)).gone, l.Becomes l') ∧
        (l.sacked = true → l ∈ (run {} (pre ++ post)).held ++ (run {} (pre ++ post)).gone) := by
  induction post with
  | nil =>
      intro pre _ l hl
      rw [List.append_nil]
      exact ⟨⟨l, hl, .refl l⟩, fun _ => hl⟩
  | cons op post ih =>
      intro pre hfair l hl
      have hone := hfair pre op post rfl
      have hsplit : pre ++ op :: post = pre ++ [op] ++ post := by rw [List.append_assoc, List.singleton_append]
      rw [hsplit] at hfair ⊢
      have hrest := ih hfair
      rw [run_snoc] at hrest
      obtain ⟨k, hk, hbecomes⟩ := hone.kept l hl
      obtain ⟨l', hl', hlater⟩ := (hrest k hk).1
      exact ⟨⟨l', hl', hbecomes.trans hlater⟩, fun hs => (hrest l (hone.settled l hl hs)).2 hs⟩

theorem run_queue (b : Book) (ops : List Op) :
    (b.run ops).queue = ops.foldl (fun q op => (q.perform op).1) b.queue := by
  induction ops generalizing b with
  | nil => rfl
  | cons op ops ih =>
      rw [run, List.foldl_cons, ← run, ih, List.foldl_cons]
      cases op <;> rfl

end Book

theorem countsThroughout_append (q : RetxQueue) (pre post : List Op) : CountsThroughout q (pre ++ post) ↔
    CountsThroughout q pre ∧ CountsThroughout (pre.foldl (fun q op => (q.perform op).1) q) post := by
  induction pre generalizing q with
  | nil => simp only [List.nil_append, CountsThroughout, true_and, List.foldl_nil]
  | cons op pre ih =>
      simp only [List.cons_append, CountsThroughout, ih, List.foldl_cons]
      exact and_assoc.symm

namespace Book

/-- What holds of the operations however often they send a segment again: the
queue and the book agree after them, but for the retry counts, and every one of
them goes by the book. A segment stays the segment it was recorded as, and once
it is selectively acknowledged its life does not change any more. -/
structure Conserved (ops : List Op) : Prop where
  balanced : ∀ pre post, ops = pre ++ post → (run {} pre).Balanced
  fair : ∀ pre op post, ops = pre ++ op :: post → (run {} pre).Fair op
  later : ∀ pre post, ops = pre ++ post → ∀ l ∈ (run {} pre).held ++ (run {} pre).gone,
    (∃ l' ∈ (run {} ops).held ++ (run {} ops).gone, l.Becomes l') ∧
      (l.sacked = true → l ∈ (run {} ops).held ++ (run {} ops).gone)

/-- Karn's rule besides: each packet was returned as often as its retry count
says, and each sample times a segment that was sent once. -/
structure Accounted (ops : List Op) : Prop extends Conserved ops where
  exact : ∀ pre post, ops = pre ++ post → (run {} pre).Exact
  timed : ∀ pre op post, ops = pre ++ op :: post → (run {} pre).Timed op

theorem run_conserved (ops : List Op) : Conserved ops where
  balanced := fun pre _ _ => (run_balanced pre).1
  fair := fun pre op _ _ => (run_balanced pre).1.fair op
  later := by
    rintro pre post rfl
    exact run_later fun p op _ _ => (run_balanced p).1.fair op

theorem run_exact {ops : List Op} : (∀ pre post, ops = pre ++ post → (run {} pre).Exact) ↔
    CountsThroughout {} ops := by
  induction ops using List.reverseRecOn with
  | nil =>
      refine iff_of_true (fun pre post h => ?_) trivial
      rw [(List.append_eq_nil_iff.mp h.symm).1]
      exact fun l hl => nomatch hl
  | append_singleton ops op ih =>
      rw [countsThroughout_append, ← ih, ← run_queue {} ops]
      have hstep : (run {} ops).Exact → ((run {} (ops ++ [op])).Exact ↔ (run {} ops).queue.Counts op) := by
        intro hx
        rw [run_snoc]
        exact (run_balanced ops).1.exact_post hx op
      constructor
      · intro h
        have hall : ∀ pre post, ops = pre ++ post → (run {} pre).Exact := by
          rintro pre post rfl
          exact h pre (post ++ [op]) (List.append_assoc ..)
        exact ⟨hall, (hstep (hall ops [] (List.append_nil _).symm)).mp (h _ [] (List.append_nil _).symm), trivial⟩
      · rintro ⟨hall, hcounts, -⟩ pre post heq
        rcases List.eq_nil_or_concat post with rfl | ⟨post, op', rfl⟩
        · rw [List.append_nil] at heq
          exact heq ▸ (hstep (hall ops [] (List.append_nil _).symm)).mpr hcounts
        · rw [List.concat_eq_append, ← List.append_assoc] at heq
          exact hall pre post (List.append_inj_left' heq rfl)

/-- Karn's rule and the SACK marks, for all operations of the queue at times
that never decrease. The marks, the order and the segments are kept whatever
the operations are, and the accounts are right exactly when none of them counts
up a retry count that is full. -/
theorem retransmissions_are_accounted_iff (ops : List Op) (hsorted : (ops.filterMap Op.time).Pairwise (· ≤ ·)) :
    Conserved ops ∧ (Accounted ops ↔ CountsThroughout {} ops) := by
  refine ⟨run_conserved ops, fun h => run_exact.mp h.exact, fun h => ?_⟩
  have hexact := run_exact.mpr h
  refine { run_conserved ops with exact := hexact, timed := ?_ }
  rintro pre op post rfl
  obtain ⟨hb, hd⟩ := run_balanced pre
  refine hb.timed (hexact pre (op :: post) rfl) fun nowMs htime l hl t ht => ?_
  rw [List.filterMap_append, List.filterMap_cons, htime] at hsorted
  exact (List.pairwise_append.mp hsorted).2.2 t (hd l (List.mem_append_left _ hl) t ht) nowMs
    (List.mem_cons_self ..)

/-- Two segments: the first is selectively acknowledged, the second times out
twice, and only the first gives a sample. -/
def twoLives : List Op :=
  [.record 0#32 1#32 [1#8] 10#64, .record 1#32 2#32 [2#8] 20#64, .markSacked [(0#32, 1#32)], .due 300#64 200#64,
    .fastRetransmit 310#64, .ack 2#32 400#64]

theorem two_lives_are_accounted :
    (run {} twoLives).returned = [1, 1] ∧ ((run {} (twoLives.take 5)).queue.perform (.ack 2#32 400#64)).2.2 =
    some 390#64 ∧
      Accounted twoLives :=
  ⟨by decide, by decide, (retransmissions_are_accounted_iff twoLives (by decide)).2.mpr (by decide)⟩

/-- A segment that is sent again `n` times. -/
def laps (n : Nat) : List Op := .record 0#32 1#32 [1#8] 0#64 :: List.replicate n (.fastRetransmit 0#64)

/-- The segment and its life after `n` returns. -/
def lapped (n : Nat) : Unacked := ⟨0#32, 1#32, [1#8], 0#64, BitVec.ofNat 32 n, false⟩
def lappedLife (n : Nat) : Life := ⟨0, 0#32, 1#32, [1#8], List.replicate (n + 1) 0#64, false⟩

theorem lappedLife_entry (n : Nat) : (lappedLife n).entry = lapped n := by
  simp only [Life.entry, Life.returns, lappedLife, lapped, List.getLast?_replicate, List.length_replicate]
  simp

theorem lapped_resend (n : Nat) : (lapped n).resend 0#64 = lapped (n + 1) := by
  rw [lapped, lapped, BitVec.ofNat_add]
  rfl

theorem lappedLife_follow (n : Nat) : (lappedLife n).follow (lapped (n + 1)) = lappedLife (n + 1) := by
  have hne : (lappedLife n).entry.retries ≠ (lapped (n + 1)).retries := by
    rw [lappedLife_entry, ← lapped_resend]
    exact ((lapped n).resend_retries 0#64).symm
  rw [Life.follow, if_pos hne]
  simp only [lappedLife, lapped, ← List.replicate_succ']

theorem run_laps (n : Nat) : run {} (laps n) =
    { queue := { segments := [lapped n] }, held := [lappedLife n], recorded := 1,
      returned := List.replicate n 0 } := by
  induction n with
  | zero => rfl
  | succ n ih =>
      have hsplit : laps (n + 1) = laps n ++ [.fastRetransmit 0#64] := by
        rw [laps, List.replicate_succ', ← List.cons_append]
        rfl
      have hresent : resentIn [lappedLife n] [lapped (n + 1)] = [lappedLife n] := by
        rw [resentIn_cons, lappedLife_entry, ← lapped_resend, if_pos ((lapped n).resend_retries 0#64).symm]
        rfl
      have hheld : List.zipWith Life.follow [lappedLife n] [lapped (n + 1)] = [lappedLife (n + 1)] := by
        rw [List.zipWith_cons_cons, lappedLife_follow]
        rfl
      have hqueue : (RetxQueue.perform { segments := [lapped n] } (.fastRetransmit 0#64)).1 =
          { segments := [lapped (n + 1)] } := by
        rw [← lapped_resend]
        rfl
      rw [hsplit, run_snoc, ih]
      simp only [post, hqueue, hheld, hresent, List.replicate_succ']
      rfl

/-- After 2³² returns the count is zero, and the acknowledgement of a segment
that was sent 2³² + 1 times gives a sample. -/
theorem full_count_forgets_the_returns : ((laps (2 ^ 32)).filterMap Op.time).Pairwise (· ≤ ·) ∧
    (run {} (laps (2 ^ 32))).returned.count 0 = 2 ^ 32 ∧
    (run {} (laps (2 ^ 32))).queue.segments.map Unacked.retries = [0#32] ∧
    ((run {} (laps (2 ^ 32))).queue.perform (.ack 1#32 5#64)).2.2 = some 5#64 ∧
    ¬ Accounted (laps (2 ^ 32)) := by
  have hrun := run_laps (2 ^ 32)
  generalize hn : (2 ^ 32 : Nat) = n at hrun
  refine ⟨?_, ?_, ?_, ?_, fun h => ?_⟩
  · have htimes : (laps n).filterMap Op.time = List.replicate (n + 1) 0#64 := by
      rw [laps, List.filterMap_cons, List.filterMap_replicate]
      rfl
    rw [htimes]
    exact List.pairwise_replicate.mpr (.inr (BitVec.le_refl _))
  · rw [hrun]
    exact List.count_replicate_self
  · rw [hrun, ← hn]
    rfl
  · rw [hrun, ← hn]
    rfl
  · have hexact := h.exact (laps n) [] (List.append_nil _).symm
    rw [hrun] at hexact
    have hlife := hexact _ (List.mem_singleton_self _)
    rw [lappedLife_entry, show (lappedLife n).id = 0 from rfl, List.count_replicate_self, ← hn] at hlife
    cases hlife

end Book

end TcpStack.RetxQueue
