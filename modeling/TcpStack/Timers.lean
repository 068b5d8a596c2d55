import TcpStack.FlowControl
import TcpStack.Karn
import TcpStack.Recovery
import TcpStack.RttBounds

/-!
# Three timers over one queue

A tick runs RACK, the tail loss probe and the retransmission timeout in this
order. What one of them sends again is no longer due for the timeout, but the
probe looks at no timer: it can follow RACK on the last segment.
-/
namespace TcpStack
open Tcp TcpStack.Seq

namespace RetxQueue

def retriesAt (segments : List Unacked) (i : Nat) : U32 := (segments[i]?.map Unacked.retries).getD 0#32

/-- The places whose segments were sent again from `old` to `new`: their retry counts changed. -/
def resentPlaces (old new : List Unacked) : List Nat :=
  (List.range old.length).filter fun i => decide (retriesAt old i ≠ retriesAt new i)

def packetsAt (segments : List Unacked) (places : List Nat) : List Bytes :=
  places.filterMap fun i => segments[i]?.map Unacked.packet

theorem resentPlaces_nodup (old new : List Unacked) : (resentPlaces old new).Nodup := List.nodup_range.filter _

theorem resentPlaces_cons (s s' : Unacked) (old new : List Unacked) : resentPlaces (s :: old) (s' :: new) =
    (if s.retries ≠ s'.retries then [0] else []) ++ (resentPlaces old new).map Nat.succ := by
  have hzero : retriesAt (s :: old) 0 = s.retries ∧ retriesAt (s' :: new) 0 = s'.retries := ⟨rfl, rfl⟩
  have hsucc : ((List.range old.length).map Nat.succ).filter
      (fun i => decide (retriesAt (s :: old) i ≠ retriesAt (s' :: new) i)) = (resentPlaces old new).map Nat.succ := by
    rw [List.filter_map]
    rfl
  rw [resentPlaces, List.length_cons, List.range_succ_eq_map, List.filter_cons, hsucc, hzero.1, hzero.2]
  split_ifs with h h' h'
  · rfl
  · exact absurd (of_decide_eq_true h) h'
  · exact absurd (decide_eq_true h') h
  · rfl

theorem packetsAt_succ (s : Unacked) (segments : List Unacked) (places : List Nat) :
    packetsAt (s :: segments) (places.map Nat.succ) = packetsAt segments places := by
  rw [packetsAt, List.filterMap_map]
  rfl

variable {nowMs : U64} {old new : List Unacked} {out : List Bytes}

theorem Touched.packetsAt (h : Touched nowMs old new out) : packetsAt old (resentPlaces old new) = out := by
  induction h with
  | nil => rfl
  | @cons s s' old new out out' head rest ih =>
      rw [resentPlaces_cons, RetxQueue.packetsAt, List.filterMap_append]
      have hrest := packetsAt_succ s old (resentPlaces old new)
      rw [RetxQueue.packetsAt, ih] at hrest
      rw [hrest]
      cases head with
      | keep => rw [if_neg fun hne => hne rfl]; rfl
      | mark => rw [if_neg fun hne => hne rfl]; rfl
      | again => rw [if_pos (s.resend_retries nowMs).symm]; rfl

theorem Touched.packets (h : Touched nowMs old new out) : new.map Unacked.packet = old.map Unacked.packet := by
  induction h with
  | nil => rfl
  | cons head rest ih =>
      rw [List.map_cons, List.map_cons, ih]
      cases head <;> rfl

theorem mem_resentPlaces {i : Nat} : i ∈ resentPlaces old new ↔ i < old.length ∧
    retriesAt old i ≠ retriesAt new i := by
  simp only [resentPlaces, List.mem_filter, List.mem_range, decide_eq_true_eq]

theorem Touched.at (h : Touched nowMs old new out) {i : Nat} {s' : Unacked} (hs' : new[i]? = some s') :
    ∃ s out, old[i]? = some s ∧ Touch nowMs s s' out ∧ (i ∈ resentPlaces old new ↔ s.retries ≠ s'.retries) := by
  obtain ⟨s, out, hs, htouch⟩ : ∃ s out, old[i]? = some s ∧ Touch nowMs s s' out := by
    induction h generalizing i with
    | nil => cases hs'
    | @cons s t old new out out' head rest ih =>
        cases i with
        | zero =>
            obtain rfl : t = s' := Option.some.inj hs'
            exact ⟨s, out, rfl, head⟩
        | succ i => exact ih hs'
  refine ⟨s, out, hs, htouch, ?_⟩
  rw [mem_resentPlaces, retriesAt, retriesAt, hs, hs']
  exact and_iff_right (List.getElem?_eq_some_iff.mp hs).1

theorem Touch.resent {s s' : Unacked} (h : Touch nowMs s s' out) (hne : s.retries ≠ s'.retries) :
    s.sacked = false ∧ s' = s.resend nowMs := by
  cases h with
  | keep | mark => exact absurd rfl hne
  | again unsacked => exact ⟨unsacked, rfl⟩

theorem Touch.sentAt {s s' : Unacked} (h : Touch nowMs s s' out) (hat : s.sentAtMs = nowMs) :
    s'.sentAtMs = nowMs := by
  cases h with
  | keep | mark => exact hat
  | again => rfl

theorem Touch.unsacked {s s' : Unacked} (h : Touch nowMs s s' out) (hs : s'.sacked = false) :
    s.sacked = false ∧ (s' = s ∨ s'.sentAtMs = nowMs) := by
  cases h with
  | keep => exact ⟨hs, .inl rfl⟩
  | mark => cases hs
  | again unsacked => exact ⟨unsacked, .inr rfl⟩

theorem mem_resendWhere_places {p : Unacked → Bool} {segments : List Unacked} {i : Nat} :
    i ∈ resentPlaces segments (resendWhere p nowMs segments).1 ↔ ∃ s, segments[i]? = some s ∧ p s = true := by
  rw [mem_resentPlaces]
  simp only [retriesAt, resendWhere, List.getElem?_map]
  cases hs : segments[i]? with
  | none => simp
  | some s =>
      have hi := (List.getElem?_eq_some_iff.mp hs).1
      cases hp : p s <;> simp [hi, hp, Unacked.resend]

theorem resentPlaces_self (segments : List Unacked) : resentPlaces segments segments = [] := by
  rw [resentPlaces, List.filter_eq_nil_iff]
  simp

theorem resentPlaces_one (nowMs : U64) (l : List Unacked) (s : Unacked) (r : List Unacked) :
    resentPlaces (l ++ s :: r) (l ++ s.resend nowMs :: r) = [l.length] := by
  induction l with
  | nil =>
      rw [List.nil_append, List.nil_append, resentPlaces_cons, resentPlaces_self]
      rw [if_pos (s.resend_retries nowMs).symm]
      rfl
  | cons t l ih =>
      rw [List.cons_append, List.cons_append, resentPlaces_cons, ih, if_neg fun hne => hne rfl]
      rfl

end RetxQueue

variable {F : Type} [F64 F]

namespace Connection
open RetxQueue

theorem tickDue_rtt (c : Connection F) (now : U64) :
    (c.tickDue now).1.rtt = if (c.tickDue now).2 ≠ [] then c.rtt.backOff else c.rtt := by
  unfold tickDue
  generalize c.retx.due now c.rtt.rto = r
  obtain ⟨q, due⟩ := r
  cases due <;> rfl

theorem onTick_rtt (c : Connection F) (now : U64) :
    (c.onTick now).1.rtt = if TimesOut c now then c.rtt.backOff else c.rtt := by
  obtain ⟨d, ⟨ts, s, rfl⟩, heq⟩ := c.onTick_timers now
  obtain ⟨q, t, sent, hp⟩ := tickProbe_eq (c.tickRack now).1 now
  have hpersist : ∀ d : Connection F, (d.tickPersist now).1.rtt = d.rtt := by
    intro d
    unfold tickPersist
    split_ifs <;> rfl
  have hkeepalive : ∀ d : Connection F, (d.tickKeepalive now).1.rtt = d.rtt := by
    intro d
    simp only [tickKeepalive]
    split_ifs <;> rfl
  have hdue : (((c.tickRack now).1.tickProbe now).1.tickDue now).1.rtt =
      if TimesOut c now then ((c.tickRack now).1.tickProbe now).1.rtt.backOff
      else ((c.tickRack now).1.tickProbe now).1.rtt := tickDue_rtt _ now
  rw [heq, hkeepalive, hpersist]
  refine hdue.trans ?_
  rw [hp]
  rfl

def rackPlaces (c : Connection F) (now : U64) : List Nat :=
  resentPlaces c.retx.segments (c.tickRack now).1.retx.segments

/-- The place that the tail loss probe sends again. -/
def probePlaces (c : Connection F) (now : U64) : List Nat :=
  resentPlaces c.retx.segments (c.tickProbe now).1.retx.segments

def duePlaces (c : Connection F) (now : U64) : List Nat :=
  resentPlaces c.retx.segments (c.tickDue now).1.retx.segments

/-- The places of the queue that a tick sends again, in the order of the timers. -/
def tickPlaces (c : Connection F) (now : U64) : List Nat :=
  c.rackPlaces now ++ (c.tickRack now).1.probePlaces now ++ ((c.tickRack now).1.tickProbe now).1.duePlaces now

theorem tickRack_touched (c : Connection F) (now : U64) :
    Touched now c.retx.segments (c.tickRack now).1.retx.segments (c.tickRack now).2 :=
  .rackMarkLost c.retx now _

theorem tickProbe_touched (c : Connection F) (now : U64) :
    Touched now c.retx.segments (c.tickProbe now).1.retx.segments (c.tickProbe now).2 := by
  have hlast := Touched.retransmitLast c.retx now
  unfold tickProbe
  split_ifs
  · generalize c.retx.retransmitLast now = r at hlast
    obtain ⟨q, probe⟩ := r
    cases probe <;> exact hlast
  · exact .refl ..

theorem tickDue_retx (c : Connection F) (now : U64) : (c.tickDue now).1.retx = (c.retx.due now c.rtt.rto).1 := by
  simp only [tickDue]
  split_ifs <;> rfl

theorem tickDue_touched (c : Connection F) (now : U64) :
    Touched now c.retx.segments (c.tickDue now).1.retx.segments (c.tickDue now).2 := by
  rw [tickDue_packets, tickDue_retx]
  exact .due c.retx now c.rtt.rto

theorem mem_rackPlaces {c : Connection F} {now : U64} {i : Nat} :
    i ∈ c.rackPlaces now ↔ ∃ s, c.retx.segments[i]? = some s ∧ s.sacked = false ∧ Exposes c now s := by
  refine mem_resendWhere_places.trans (exists_congr fun s => and_congr_right fun _ => ?_)
  cases s.sacked <;> simp [Exposes, and_assoc]

theorem mem_duePlaces {c : Connection F} {now : U64} {i : Nat} : i ∈ c.duePlaces now ↔
    ∃ s, c.retx.segments[i]? = some s ∧ s.sacked = false ∧ saturatingSub now s.sentAtMs ≥ c.rtt.rto := by
  rw [duePlaces, tickDue_retx]
  refine mem_resendWhere_places.trans (exists_congr fun s => and_congr_right fun _ => ?_)
  cases s.sacked <;> simp

/-- The segment at this place is the last one that is not selectively acknowledged. -/
structure TailAt (segments : List Unacked) (i : Nat) (s : Unacked) : Prop where
  place : segments[i]? = some s
  unsacked : s.sacked = false
  last : ∀ t ∈ segments.drop (i + 1), t.sacked = true

theorem tailAt_split {l r : List Unacked} {s : Unacked} (hs : s.sacked = false) (hr : ∀ t ∈ r, t.sacked = true) :
    TailAt (l ++ s :: r) l.length s := by
  refine ⟨by simp, hs, fun t ht => hr t ?_⟩
  simpa using ht

theorem TailAt.unique {segments : List Unacked} {i j : Nat} {s t : Unacked} (h : TailAt segments i s)
    (h' : TailAt segments j t) : i = j := by
  have hle : ∀ {i j : Nat} {s t : Unacked}, TailAt segments i s → TailAt segments j t → j ≤ i := by
    intro i j s t h h'
    by_contra hlt
    have hmem : t ∈ segments.drop (i + 1) := by
      refine List.mem_iff_getElem?.mpr ⟨j - (i + 1), ?_⟩
      rw [List.getElem?_drop, show i + 1 + (j - (i + 1)) = j by omega]
      exact h'.place
    have hsacked := h.last t hmem
    rw [h'.unsacked] at hsacked
    cases hsacked
  exact Nat.le_antisymm (hle h' h) (hle h h')

theorem tail_eq_some {c : Connection F} {s : Unacked} : c.tail = some s ↔ ∃ i, TailAt c.retx.segments i s := by
  rw [tail, List.find?_eq_some_iff_append, Bool.not_eq_true']
  constructor
  · rintro ⟨hs, r, l, hq, hr⟩
    have hseg : c.retx.segments = l.reverse ++ s :: r.reverse := by
      rw [← List.reverse_reverse c.retx.segments, hq]
      simp
    rw [hseg]
    exact ⟨_, tailAt_split hs fun t ht => by simpa using hr t (List.mem_reverse.mp ht)⟩
  · rintro ⟨i, hplace, hs, hlast⟩
    refine ⟨hs, (c.retx.segments.drop (i + 1)).reverse, (c.retx.segments.take i).reverse, ?_, fun t ht => ?_⟩
    · obtain ⟨hi, rfl⟩ := List.getElem?_eq_some_iff.mp hplace
      conv_lhs => rw [← List.take_append_drop i c.retx.segments, List.drop_eq_getElem_cons hi]
      simp
    · simpa using hlast t (List.mem_reverse.mp ht)

theorem mem_probePlaces {c : Connection F} {now : U64} {i : Nat} :
    i ∈ c.probePlaces now ↔ ProbeDue c now ∧ ∃ s, TailAt c.retx.segments i s := by
  have hiff : (c.tlpDeadlineMs ≠ 0#64 ∧ now ≥ c.tlpDeadlineMs ∧ c.flightSize > 0#32 ∧
      (!c.cong.inRecovery) = true ∧ (!c.tlpSent) = true) ↔ ProbeDue c now := by simp [ProbeDue]
  unfold probePlaces tickProbe
  by_cases hdue : ProbeDue c now
  swap
  · rw [if_neg (mt hiff.mp hdue), resentPlaces_self]
    simp [hdue]
  rw [if_pos (hiff.mpr hdue), retransmitLast]
  cases hfirst : resendFirst (fun s => !s.sacked) now c.retx.segments.reverse with
  | none =>
      have hall := resendFirst_none.mp hfirst
      refine ⟨fun h => ?_, ?_⟩
      · rw [show resentPlaces c.retx.segments c.retx.segments = [] from resentPlaces_self _] at h
        cases h
      · rintro ⟨-, s, htail⟩
        have hsack := hall s (List.mem_reverse.mpr (List.mem_of_getElem? htail.place))
        rw [htail.unsacked] at hsack
        cases hsack
  | some found =>
      obtain ⟨segments', pkt⟩ := found
      obtain ⟨r, s, l, hq, hr, hs, rfl, rfl⟩ := resendFirst_split hfirst
      have hseg : c.retx.segments = l.reverse ++ s :: r.reverse := by
        rw [← List.reverse_reverse c.retx.segments, hq]
        simp
      have hnew : (r ++ s.resend now :: l).reverse = l.reverse ++ s.resend now :: r.reverse := by simp
      have htail : TailAt (l.reverse ++ s :: r.reverse) l.reverse.length s :=
        tailAt_split (by simpa using hs) fun t ht => by simpa using hr t (List.mem_reverse.mp ht)
      dsimp only
      rw [hseg, hnew, resentPlaces_one, List.mem_singleton]
      constructor
      · rintro rfl
        exact ⟨hdue, s, htail⟩
      · rintro ⟨-, t, ht⟩
        exact ht.unique htail

theorem tailAt_tickRack {c : Connection F} {now : U64} {i : Nat} :
    (∃ s, TailAt (c.tickRack now).1.retx.segments i s) ↔ ∃ s, TailAt c.retx.segments i s := by
  have hmap : (c.tickRack now).1.retx.segments.map Unacked.sacked = c.retx.segments.map Unacked.sacked := by
    simp only [tickRack, rackMarkLost, resendWhere, List.map_map]
    refine List.map_congr_left fun s _ => ?_
    dsimp only [Function.comp]
    split_ifs <;> rfl
  have hmark : ∀ segments : List Unacked, (∃ s, TailAt segments i s) ↔
      (segments.map Unacked.sacked)[i]? = some false ∧
      ∀ b ∈ (segments.map Unacked.sacked).drop (i + 1), b = true := by
    intro segments
    rw [← List.map_drop, List.forall_mem_map, List.getElem?_map, Option.map_eq_some_iff]
    constructor
    · rintro ⟨s, hplace, hs, hlast⟩
      exact ⟨⟨s, hplace, hs⟩, hlast⟩
    · rintro ⟨⟨s, hplace, hs⟩, hlast⟩
      exact ⟨s, hplace, hs, hlast⟩
  rw [hmark, hmark, hmap]

theorem tickProbe_rtt (c : Connection F) (now : U64) : ((c.tickRack now).1.tickProbe now).1.rtt = c.rtt := by
  obtain ⟨q, t, sent, hp⟩ := tickProbe_eq (c.tickRack now).1 now
  rw [hp]
  rfl

/-- What was sent in this tick is not due for the timeout: its timer starts anew. -/
theorem resent_not_due {c : Connection F} (hrtt : c.rtt.Backed) {now : U64} {i : Nat}
    (h : i ∈ c.rackPlaces now ∨ i ∈ (c.tickRack now).1.probePlaces now) :
    i ∉ ((c.tickRack now).1.tickProbe now).1.duePlaces now := by
  intro hdue
  obtain ⟨s, hs, -, hlate⟩ := mem_duePlaces.mp hdue
  obtain ⟨t, _, ht, hprobe, hprobed⟩ := (tickProbe_touched (c.tickRack now).1 now).at hs
  obtain ⟨u, _, -, hrack, hracked⟩ := (c.tickRack_touched now).at ht
  have hat : s.sentAtMs = now := by
    rcases h with h | h
    · exact hprobe.sentAt (congrArg Unacked.sentAtMs (hrack.resent (hracked.mp h)).2)
    · exact congrArg Unacked.sentAtMs (hprobe.resent (hprobed.mp h)).2
  have hzero : saturatingSub now s.sentAtMs = 0#64 := by
    rw [hat]
    simp [saturatingSub]
  have hpos := hrtt.rto_pos
  rw [hzero, tickProbe_rtt] at hlate
  have hle : c.rtt.rto.toNat ≤ 0 := hlate
  omega

/-- The three timers take a segment twice exactly when the probe follows RACK on the tail. -/
theorem tickPlaces_nodup {c : Connection F} (hrtt : c.rtt.Backed) (now : U64) :
    (c.tickPlaces now).Nodup ↔ ¬ (ProbeDue c now ∧ ∃ s, c.tail = some s ∧ Exposes c now s) := by
  have hdue : ∀ i ∈ c.rackPlaces now ++ (c.tickRack now).1.probePlaces now,
      ∀ j ∈ ((c.tickRack now).1.tickProbe now).1.duePlaces now, i ≠ j := by
    rintro i hi j hj rfl
    exact resent_not_due hrtt (List.mem_append.mp hi) hj
  have hprobe : ∀ i, i ∈ (c.tickRack now).1.probePlaces now ↔ ProbeDue c now ∧ ∃ s, TailAt c.retx.segments i s := by
    intro i
    rw [mem_probePlaces, tailAt_tickRack]
    rfl
  rw [tickPlaces, List.nodup_append, List.nodup_append]
  constructor
  · rintro ⟨⟨-, -, hapart⟩, -, -⟩ ⟨hd, s, htail, hexposed⟩
    obtain ⟨i, hi⟩ := tail_eq_some.mp htail
    exact hapart i (mem_rackPlaces.mpr ⟨s, hi.place, hi.unsacked, hexposed⟩) i ((hprobe i).mpr ⟨hd, s, hi⟩) rfl
  · intro hnot
    refine ⟨⟨resentPlaces_nodup .., resentPlaces_nodup .., ?_⟩, resentPlaces_nodup .., hdue⟩
    rintro i hi j hj rfl
    obtain ⟨s, hs, -, hexposed⟩ := mem_rackPlaces.mp hi
    obtain ⟨hd, t, ht⟩ := (hprobe i).mp hj
    obtain rfl : s = t := Option.some.inj (hs.symm.trans ht.place)
    exact hnot ⟨hd, s, tail_eq_some.mpr ⟨i, ht⟩, hexposed⟩

theorem packetsAt_congr {old new : List Unacked} (places : List Nat)
    (h : new.map Unacked.packet = old.map Unacked.packet) : packetsAt new places = packetsAt old places := by
  refine List.filterMap_congr fun i _ => ?_
  rw [← List.getElem?_map, ← List.getElem?_map, h]

theorem tickPackets_eq (c : Connection F) (now : U64) : packetsAt c.retx.segments (c.tickPlaces now) =
    (c.tickRack now).2 ++ ((c.tickRack now).1.tickProbe now).2 ++
      (((c.tickRack now).1.tickProbe now).1.tickDue now).2 := by
  have hrack := c.tickRack_touched now
  have hprobe := tickProbe_touched (c.tickRack now).1 now
  have hdue := tickDue_touched ((c.tickRack now).1.tickProbe now).1 now
  rw [← hrack.packetsAt, ← hprobe.packetsAt, ← hdue.packetsAt, packetsAt_congr _ (hprobe.packets.trans hrack.packets),
    packetsAt_congr _ hrack.packets, tickPlaces, packetsAt, List.filterMap_append, List.filterMap_append]
  rfl

theorem idle_probes {d : Connection F} {now : U64}
    (h : (d.tickPersist now).2 ++ ((d.tickPersist now).1.tickKeepalive now).2 ≠ []) : d.flightSize = 0#32 := by
  by_contra hflight
  have hoff : d.tickPersist now = ({ d with persistMs := 0#64 }, []) := by
    rw [tickPersist, if_neg fun h => hflight h.2.2.2]
  have hpersist : (d.tickPersist now).2 = [] := congrArg Prod.snd hoff
  have hstill : (d.tickPersist now).1.flightSize ≠ 0#32 := by rwa [hoff]
  have hkeepalive : ((d.tickPersist now).1.tickKeepalive now).2 = [] := by simp [tickKeepalive, hstill]
  rw [hpersist, hkeepalive] at h
  exact h rfl

/-- The packets of a tick: those of the places sent again, and the probes of the
persist and the keepalive timer. -/
theorem onTick_packets (c : Connection F) (now : U64) : ∃ probes,
    (c.onTick now).2 = packetsAt c.retx.segments (c.tickPlaces now) ++ probes ∧
      (probes ≠ [] → c.flightSize = 0#32) := by
  obtain ⟨d, ⟨ts, s, hd⟩, heq⟩ := c.onTick_timers now
  obtain ⟨_, _, _, _, _, htimers⟩ := c.timers_eq now
  have hflight : d.flightSize = c.flightSize := by
    rw [hd, htimers]
    rfl
  refine ⟨(d.tickPersist now).2 ++ ((d.tickPersist now).1.tickKeepalive now).2, ?_, fun h => hflight ▸ idle_probes h⟩
  rw [heq, tickPackets_eq]
  simp only [List.append_assoc]

end Connection

namespace Host
open Connection RetxQueue

variable {h : Host F}

theorem Fresh.backed (hf : Fresh h) : h.conn.rtt.Backed := by
  cases hf with
  | connect localEnd remoteEnd iss now rnd => exact Nat.zero_le _
  | accept ipSrc ipDst seg iss now rnd heq =>
      obtain ⟨⟨c, synack⟩, hr, rfl⟩ := Option.map_eq_some_iff.mp heq
      obtain ⟨rfl, -⟩ := acceptWithIssAt_eq hr
      exact Nat.zero_le _
  | cookie localEnd remoteEnd peerIsn isn sendMss now rnd => exact Nat.zero_le _

theorem onSegment_backed {c : Connection F} (hc : c.rtt.Backed) (seg : Segment) (now : U64) (rnd : U32) :
    (c.onSegment seg now rnd).1.rtt.Backed := by
  rcases c.onSegment_reacts seg now rnd with hreacts | ⟨-, -, heq⟩
  · refine hreacts.preserves (P := fun d => d.rtt.Backed) (fun hu hd => ?_) hc
    rcases hu.spares.rtt with heq | ⟨rttMs, heq⟩
    · rwa [heq]
    · rw [heq]
      exact RttEstimator.sample_backed ..
  · rw [heq]
    unfold onSynSent
    split_ifs <;> exact hc

theorem call_rtt (h : Host F) {x : Call} (hx : ∀ seg now rnd, x ≠ .onSegment seg now rnd) : (h.call x).conn.rtt =
    match x with
    | .onTick now => if TimesOut h.conn now then h.conn.rtt.backOff else h.conn.rtt
    | _ => h.conn.rtt := by
  cases x with
  | write | takeReceived | setNodelay | setKeepalive | useBbr => rfl
  | pollTransmit now => exact pollTransmit_keeps (fun _ _ _ _ => rfl) (fun _ _ _ _ _ _ => rfl) h.conn now
  | onTick now =>
      simp only [call]
      exact onTick_rtt h.conn now
  | close now =>
      have hkept : (h.conn.close now).1.rtt = h.conn.rtt := by
        unfold close
        split <;> rfl
      simp only [call]
      split <;> rename_i heq <;> rw [heq] at hkept <;> exact hkept
  | onSegment seg now rnd => exact absurd rfl (hx seg now rnd)

theorem run_backed (hf : Fresh h) (calls : List Call) : (h.run calls).conn.rtt.Backed := by
  refine run_preserves (P := fun h => h.conn.rtt.Backed) (fun h x hb => ?_) hf.backed calls
  by_cases hx : ∀ seg now rnd, x ≠ .onSegment seg now rnd
  · rw [h.call_rtt hx]
    split
    · split_ifs
      · exact RttEstimator.backOff_backed _
      · exact hb
    · exact hb
  · push Not at hx
    obtain ⟨seg, now, rnd, rfl⟩ := hx
    exact onSegment_backed hb seg now rnd

/-- A tick of a reachable connection sends no segment twice exactly when it is not
one on which the tail loss probe is due for a tail that RACK takes too. -/
theorem tick_resends_once_iff (hf : Fresh h) (calls : List Call) (now : U64) :
    let c := (h.run calls).conn
    (∃ probes, (c.onTick now).2 = packetsAt c.retx.segments (c.tickPlaces now) ++ probes ∧
      (probes ≠ [] → c.flightSize = 0#32)) ∧
    (∀ i ∈ c.tickPlaces now, ∃ s, c.retx.segments[i]? = some s ∧ s.sacked = false) ∧
    ((c.tickPlaces now).Nodup ↔ ¬ (ProbeDue c now ∧ ∃ s, c.tail = some s ∧ Exposes c now s)) := by
  intro c
  refine ⟨c.onTick_packets now, fun i hi => ?_, tickPlaces_nodup (run_backed hf calls) now⟩
  rcases List.mem_append.mp hi with hi | hdue
  · rcases List.mem_append.mp hi with hrack | hprobe
    · obtain ⟨s, hs, hsack, -⟩ := mem_rackPlaces.mp hrack
      exact ⟨s, hs, hsack⟩
    · obtain ⟨-, s, hs⟩ := mem_probePlaces.mp hprobe
      obtain ⟨u, _, hu, htouch, -⟩ := (c.tickRack_touched now).at hs.place
      exact ⟨u, hu, (htouch.unsacked hs.unsacked).1⟩
  · obtain ⟨s, hs, hsack, -⟩ := mem_duePlaces.mp hdue
    obtain ⟨t, _, ht, hprobe, -⟩ := (tickProbe_touched (c.tickRack now).1 now).at hs
    obtain ⟨u, _, hu, hrack, -⟩ := (c.tickRack_touched now).at ht
    exact ⟨u, hu, (hrack.unsacked (hprobe.unsacked hsack).1).1⟩

/-- Two bytes in two segments. The second is selectively acknowledged, and the
clock is read when the first has waited for the reordering window and the probe. -/
def tailHole : List Call :=
  [.onSegment ⟨⟨80#16, 4000#16, 500#32, 101#32, 28, SYN ||| ACK, 8#16⟩, [],
      { mss := some 1#16, sackPermitted := true }⟩ 1#64 0#32,
    .write [0#8], .pollTransmit 3#64, .write [1#8], .pollTransmit 10#64,
    .onSegment (narrowAck [(102#32, 103#32)]) 20#64 0#32]

/-- RACK and the probe send the first segment in the same tick. -/
theorem probe_repeats_rack : ∃ s, (narrow.run tailHole).conn.retx.segments[0]? = some s ∧
    (∀ t ∈ (narrow.run tailHole).conn.retx.segments, t.sentAtMs ≤ 153#64) ∧
    (narrow.run tailHole).conn.tickPlaces 153#64 = [0, 0] ∧
    ((narrow.run tailHole).conn.onTick 153#64).2 = [s.packet, s.packet] := by
  refine ⟨((narrow.run tailHole).conn.retx.segments.head (by decide +kernel)), ?_, ?_, ?_, ?_⟩
  · decide +kernel
  · decide +kernel
  · decide +kernel
  · decide +kernel

/-- A little earlier the probe is not due, and RACK alone sends it. -/
theorem rack_before_probe : (narrow.run tailHole).conn.tickPlaces 90#64 = [0] ∧
    ((narrow.run tailHole).conn.tickPlaces 90#64).Nodup := by
  refine ⟨by decide +kernel, (tick_resends_once_iff (.connect ..) tailHole 90#64).2.2.mpr ?_⟩
  rintro ⟨hdue, -⟩
  exact absurd hdue.2.1 (by decide +kernel)

end Host

end TcpStack
