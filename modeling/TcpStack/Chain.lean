import TcpStack.Opening

/-!
# The retransmission queue covers what is in flight

The queued segments are a gapless chain from the segment that holds SND.UNA up
to SND.NXT. Positions are unwrapped, so the chain is an order on natural
numbers however often the sequence space has wrapped.
-/
namespace TcpStack
open Tcp TcpStack.Seq TcpStack.Circle

/-- The segment covers the positions from `a` up to `m`. -/
structure Spans (iss : U32) (q : Queued) (a m : Nat) : Prop where
  pos : a < m
  short : m < a + 2 ^ 31
  startSeq : q.startSeq = point iss a
  endSeq : q.endSeq = point iss m

/-- The segments cover `a` up to `b`, each beginning where the last ended. -/
def Chain (iss : U32) : Nat → List Queued → Nat → Prop
  | a, [], b => a = b
  | a, q :: qs, b => ∃ m, Spans iss q a m ∧ Chain iss m qs b

/-- The segments cover `u` up to `v`, and the first of them holds `u`. -/
def Covers (iss : U32) (u : Nat) : List Queued → Nat → Prop
  | [], v => u = v
  | q :: qs, v => ∃ s e, Spans iss q s e ∧ s ≤ u ∧ u < e ∧ Chain iss e qs v

namespace Chain

variable {iss : U32} {a b x : Nat} {qs : List Queued}

theorem le (h : Chain iss a qs b) : a ≤ b := by
  induction qs generalizing a with
  | nil => exact Nat.le_of_eq h
  | cons q qs ih =>
      obtain ⟨m, hq, hrest⟩ := h
      exact (Nat.le_of_lt hq.pos).trans (ih hrest)

theorem snoc {q : Queued} {c : Nat} (h : Chain iss a qs b) (hq : Spans iss q b c) :
    Chain iss a (qs ++ [q]) c := by
  induction qs generalizing a with
  | nil =>
      obtain rfl : a = b := h
      exact ⟨c, hq, rfl⟩
  | cons r qs ih =>
      obtain ⟨m, hr, hrest⟩ := h
      exact ⟨m, hr, ih hrest⟩

theorem spans (h : Chain iss a qs b) {q : Queued} (hq : q ∈ qs) :
    ∃ s e, Spans iss q s e ∧ a ≤ s ∧ e ≤ b := by
  induction qs generalizing a with
  | nil => cases hq
  | cons r qs ih =>
      obtain ⟨m, hr, hrest⟩ := h
      rcases List.mem_cons.mp hq with rfl | hq
      · exact ⟨a, m, hr, le_rfl, hrest.le⟩
      · obtain ⟨s, e, hse, hle, heb⟩ := ih hrest hq
        exact ⟨s, e, hse, (Nat.le_of_lt hr.pos).trans hle, heb⟩

theorem filter_eq_self (h : Chain iss a qs b) (hx : x ≤ a) (hnear : b - x < 2 ^ 31) :
    qs.filter (fun q => before (point iss x) q.endSeq) = qs := by
  rw [List.filter_eq_self]
  intro q hq
  obtain ⟨s, e, hse, has, heb⟩ := h.spans hq
  have hpos := hse.pos
  rw [hse.endSeq, before_point (by omega) (by omega), decide_eq_true_eq]
  omega

theorem filter (h : Chain iss a qs b) (hax : a ≤ x) (hxb : x ≤ b) (hnear : b - a < 2 ^ 31) :
    Covers iss x (qs.filter (fun q => before (point iss x) q.endSeq)) b := by
  induction qs generalizing a with
  | nil =>
      obtain rfl : a = b := h
      exact Nat.le_antisymm hxb hax
  | cons q qs ih =>
      obtain ⟨m, hq, hrest⟩ := h
      have hmb := hrest.le
      have hpos := hq.pos
      have hkeep : before (point iss x) q.endSeq = decide (x < m) := by
        rw [hq.endSeq, before_point (by omega) (by omega)]
      by_cases hxm : x < m
      · rw [List.filter_cons_of_pos (by simp [hkeep, hxm]),
          hrest.filter_eq_self (Nat.le_of_lt hxm) (by omega)]
        exact ⟨a, m, hq, hax, hxm, hrest⟩
      · rw [List.filter_cons_of_neg (by simp [hkeep, hxm])]
        exact ih hrest (Nat.le_of_not_lt hxm) (by omega)

theorem map (h : Chain iss a qs b) {f : Queued → Queued}
    (hf : ∀ q, (f q).startSeq = q.startSeq ∧ (f q).endSeq = q.endSeq) : Chain iss a (qs.map f) b := by
  induction qs generalizing a with
  | nil => exact h
  | cons q qs ih =>
      obtain ⟨m, hq, hrest⟩ := h
      exact ⟨m, ⟨hq.pos, hq.short, (hf q).1 ▸ hq.startSeq, (hf q).2 ▸ hq.endSeq⟩, ih hrest⟩

end Chain

namespace Covers

variable {iss : U32} {u v x : Nat} {qs : List Queued}

theorem snoc {q : Queued} {w : Nat} (h : Covers iss u qs v) (hq : Spans iss q v w) :
    Covers iss u (qs ++ [q]) w := by
  cases qs with
  | nil =>
      obtain rfl : u = v := h
      exact ⟨u, w, hq, le_rfl, hq.pos, rfl⟩
  | cons r qs =>
      obtain ⟨s, e, hr, hle, hlt, hrest⟩ := h
      exact ⟨s, e, hr, hle, hlt, hrest.snoc hq⟩

theorem filter (h : Covers iss u qs v) (hux : u ≤ x) (hxv : x ≤ v) (hnear : v - u < 2 ^ 31) :
    Covers iss x (qs.filter (fun q => before (point iss x) q.endSeq)) v := by
  cases qs with
  | nil =>
      obtain rfl : u = v := h
      exact Nat.le_antisymm hxv hux
  | cons q qs =>
      obtain ⟨s, e, hq, hsu, hue, hrest⟩ := h
      have hev := hrest.le
      have hkeep : before (point iss x) q.endSeq = decide (x < e) := by
        rw [hq.endSeq, before_point (by omega) (by omega)]
      by_cases hxe : x < e
      · rw [List.filter_cons_of_pos (by simp [hkeep, hxe]),
          hrest.filter_eq_self (Nat.le_of_lt hxe) (by omega)]
        exact ⟨s, e, hq, by omega, hxe, hrest⟩
      · rw [List.filter_cons_of_neg (by simp [hkeep, hxe])]
        exact hrest.filter (Nat.le_of_not_lt hxe) hxv (by omega)

theorem spans (h : Covers iss u qs v) {q : Queued} (hq : q ∈ qs) :
    ∃ s e, Spans iss q s e ∧ u < e ∧ e ≤ v := by
  cases qs with
  | nil => cases hq
  | cons r qs =>
      obtain ⟨s, e, hr, -, hue, hrest⟩ := h
      rcases List.mem_cons.mp hq with rfl | hq
      · exact ⟨s, e, hr, hue, hrest.le⟩
      · obtain ⟨s', e', hse, hle, hev⟩ := hrest.spans hq
        have hpos := hse.pos
        exact ⟨s', e', hse, by omega, hev⟩

theorem filter_eq_nil (h : Covers iss u qs v) (hnear : v - u ≤ 2 ^ 31) :
    qs.filter (fun q => before (point iss v) q.endSeq) = [] := by
  rw [List.filter_eq_nil_iff]
  intro q hq
  obtain ⟨s, e, hse, hlt, hle⟩ := h.spans hq
  rw [hse.endSeq, before_point (by omega) (by omega), decide_eq_true_eq]
  omega

theorem map (h : Covers iss u qs v) {f : Queued → Queued}
    (hf : ∀ q, (f q).startSeq = q.startSeq ∧ (f q).endSeq = q.endSeq) : Covers iss u (qs.map f) v := by
  cases qs with
  | nil => exact h
  | cons q qs =>
      obtain ⟨s, e, hq, hsu, hue, hrest⟩ := h
      exact ⟨s, e, ⟨hq.pos, hq.short, (hf q).1 ▸ hq.startSeq, (hf q).2 ▸ hq.endSeq⟩, hsu, hue,
        hrest.map hf⟩

end Covers

/-- The states in which the queue covers the flight. -/
def State.Live (s : State) : Prop := s ≠ .finWait2 ∧ s ≠ .timeWait ∧ s ≠ .closed

theorem State.Sending.live {s : State} (h : s.Sending) : s.Live := by
  rcases h with rfl | rfl <;> simp [State.Live]

namespace Trace

theorem FinAcked.live {s next : State} (h : FinAcked s next) : s.Live := by
  cases h <;> simp [State.Live]

theorem FinAcked.done {s next : State} (h : FinAcked s next) : ¬ next.Live := by
  cases h <;> simp [State.Live]

theorem FinTaken.live_or_done {s next : State} (h : FinTaken s next) :
    (s.Live ∧ next.Live) ∨ (s = .finWait2 ∧ next = .timeWait) := by
  cases h <;> simp [State.Live]

/-- Less than half the sequence space of data is outstanding. -/
def Near (t : Trace) : Prop := 1 + t.sent.length < t.unaPos + 2 ^ 31

/-- SND.UNA, SND.NXT and the queue fit together. -/
structure Outstanding (t : Trace) : Prop where
  una : t.una = point t.iss t.unaPos
  le : t.unaPos ≤ t.nxtPos
  live : t.state.Live → Covers t.iss t.unaPos t.queue t.nxtPos
  done : t.state = .finWait2 ∨ t.state = .timeWait → t.queue = []
  begun : 1 ≤ t.unaPos ∨ t.pieces = []
  sending : t.state.Sending → 1 ≤ t.unaPos

theorem nxtPos_le (t : Trace) : t.nxtPos ≤ 2 + t.sent.length := by
  have h := Bool.toNat_le t.closing.isSome
  unfold nxtPos
  omega

theorem nxtPos_open {t : Trace} (h : t.closing = none) : t.nxtPos = 1 + t.sent.length := by
  simp [nxtPos, h]

theorem Near.flight {t : Trace} (h : Near t) : t.nxtPos - t.unaPos ≤ 2 ^ 31 := by
  have hle := t.nxtPos_le
  unfold Near at h
  omega

theorem Outstanding.advance_nxt {t : Trace} (hs : Stream t) (h : Outstanding t) (hnear : Near t) :
    (t.nxt - t.una).toNat = t.nxtPos - t.unaPos := by
  have hf := hnear.flight
  rw [hs.nxt, h.una, point_sub_point _ h.le, Nat.mod_eq_of_lt (by omega)]

theorem Outstanding.opened {t t' : Trace} (hs : Stream t) (h : Outstanding t) (hnear : Near t)
    (hlive : t.state.Live) (ht : t'.iss = t.iss ∧ t'.una = t.nxt ∧ t'.nxtPos = t.nxtPos ∧
      t'.unaPos = t.unaPos + (t.nxt - t.una).toNat ∧
      t'.queue = t.queue.filter (fun q => before t.nxt q.endSeq)) (hst : t'.state = .established) :
    Outstanding t' := by
  obtain ⟨hiss, huna, hnxt, hpos, hq⟩ := ht
  have hle := h.le
  have hadv := h.advance_nxt hs hnear
  have hpos' : t'.unaPos = t'.nxtPos := by
    rw [hpos, hadv, hnxt]
    omega
  have hone : 1 ≤ t'.nxtPos := by
    simp only [nxtPos]
    omega
  constructor
  · rw [huna, hiss, hpos', hnxt, hs.nxt]
  · exact Nat.le_of_eq hpos'
  · intro _
    have hnil := (h.live hlive).filter_eq_nil hnear.flight
    rw [hq, hs.nxt, hnil]
    exact hpos'
  · simp [hst]
  · exact .inl (hpos' ▸ hone)
  · exact fun _ => hpos' ▸ hone

theorem Outstanding.frame {t t' : Trace} (h : Outstanding t) (hi : t'.iss = t.iss) (hu : t'.una = t.una)
    (hup : t'.unaPos = t.unaPos) (hn : t'.nxtPos = t.nxtPos) (hp : t'.pieces = t.pieces)
    (hq : t'.state.Live → Covers t.iss t.unaPos t'.queue t.nxtPos)
    (hd : t'.state = .finWait2 ∨ t'.state = .timeWait → t'.queue = [])
    (hst : t'.state.Sending → t.state.Sending) : Outstanding t' := by
  refine ⟨?_, ?_, ?_, hd, ?_, ?_⟩
  · rw [hu, hi, hup, h.una]
  · rw [hup, hn]
    exact h.le
  · rw [hi, hup, hn]
    exact hq
  · rw [hup, hp]
    exact h.begun
  · rw [hup]
    exact fun hs => h.sending (hst hs)

theorem Outstanding.launch {t t' : Trace} {n : Nat} {pkt : Bytes} (hs : Stream t) (h : Outstanding t)
    (hsend : t.state.Sending) (hn : 0 < n) (hshort : n < 2 ^ 31) (hnxt : t'.nxtPos = t.nxtPos + n)
    (ht : t'.iss = t.iss ∧ t'.una = t.una ∧ t'.unaPos = t.unaPos ∧ t'.queue = (t.launch n pkt).queue)
    (hst : t'.state.Live) : Outstanding t' := by
  obtain ⟨hi, hu, hup, hq⟩ := ht
  have hone := h.sending hsend
  have hle := h.le
  refine ⟨?_, ?_, ?_, ?_, ?_, ?_⟩
  · rw [hu, hi, hup, h.una]
  · rw [hup, hnxt]
    omega
  · intro _
    rw [hi, hup, hnxt, hq]
    refine (h.live hsend.live).snoc ⟨by omega, by omega, hs.nxt, ?_⟩
    simp only
    rw [hs.nxt, point_add]
  · rintro (heq | heq) <;> simp [heq, State.Live] at hst
  · exact .inl (hup ▸ hone)
  · exact fun _ => hup ▸ hone

/-- A new acknowledgement moves the left edge to a position inside the flight. -/
theorem Outstanding.acked {t : Trace} {ack : U32} (h : Outstanding t) (hs : Stream t) (hnear : Near t)
    (hsend : t.state.Sending) (hnew : between t.una ack t.nxt = true) :
    Outstanding ((t.advance ack).dropAcked ack) := by
  have hopen := hs.opened hsend.preFin
  rw [h.una, hs.nxt] at hnew
  have hnear0 := hnear
  rw [Near, ← nxtPos_open hopen] at hnear0
  obtain ⟨a, hlt, hle, heq⟩ := between_point h.le hnew
  have hdist : (point t.iss a - t.una).toNat = a - t.unaPos := by
    rw [h.una, point_sub_point _ (Nat.le_of_lt hlt), Nat.mod_eq_of_lt (by omega)]
  have hpos : t.unaPos + (point t.iss a - t.una).toNat = a := by omega
  rw [heq]
  constructor
  · simp only [dropAcked, advance, hpos]
  · simp only [dropAcked, advance, hpos]
    exact hle
  · intro _
    simp only [dropAcked, advance, hpos]
    exact (h.live hsend.live).filter (Nat.le_of_lt hlt) hle (by omega)
  · rintro (hst | hst) <;> rcases hsend with h' | h' <;>
      simp only [dropAcked, advance, h', reduceCtorEq] at hst
  · simp only [dropAcked, advance, hpos]
    exact .inl (by omega)
  · simp only [dropAcked, advance, hpos]
    exact fun _ => by omega

theorem Step.outstanding {inp : Option Segment} {t t' : Trace} (hstep : Step inp t t') (hs : Stream t)
    (hnear : Near t) (hnear' : Near t') (h : Outstanding t) : Outstanding t' := by
  have hlive : t.state.Live → Covers t.iss t.unaPos t.queue t.nxtPos := h.live
  cases hstep with
  | ack | resend | deliver | pendFin => exact h.frame rfl rfl rfl rfl rfl h.live h.done id
  | data _ hsend hn hle _ hc =>
      have hopen := hs.opened hsend.preFin
      have hlen : (t.sendBuf.take _).length = _ := List.length_take_of_le hle
      have hbound := h.le
      rw [nxtPos_open hopen] at hbound
      simp only [Near, sent, List.flatten_append, List.flatten_cons, List.flatten_nil, List.append_nil,
        List.length_append, hlen] at hnear' hbound
      refine h.launch hs hsend hn ?_ ?_ ⟨rfl, rfl, rfl, rfl⟩ hsend.live
      · simp only [Trace.launch] at hnear'
        omega
      · simp only [nxtPos, sent, List.flatten_append, List.flatten_cons, List.flatten_nil,
          List.append_nil, List.length_append, hlen, Trace.launch]
        omega
  | fin _ hfin hc =>
      have hopen := hs.opened hfin.sending.preFin
      refine h.launch (n := 1) hs hfin.sending Nat.one_pos (by omega) ?_ ⟨rfl, rfl, rfl, rfl⟩ ?_
      · simp [nxtPos, hopen, Trace.launch, sent]
      · generalize t.state = st at hfin
        cases hfin <;> simp [State.Live]
  | ackNew _ _ hsend hnew => exact h.acked hs hnear hsend hnew
  | mark _ _ hsend =>
      refine h.frame rfl rfl rfl rfl rfl (fun hl => (hlive hl).map fun q => ⟨rfl, rfl⟩) ?_ id
      rintro (hst | hst) <;> rcases hsend with h' | h' <;>
        simp only [markSacked, h', reduceCtorEq] at hst
  | takePending est =>
      refine h.frame rfl rfl rfl rfl rfl (fun _ => hlive (by simp [est, State.Live])) ?_ fun _ => .inl est
      simp [Trace.takeFin]
  | takeFin _ _ htaken _ =>
      rcases htaken.live_or_done with ⟨hl, hl'⟩ | ⟨hl, hl'⟩
      · refine h.frame rfl rfl rfl rfl rfl (fun _ => hlive hl) ?_ fun hsend => ?_
        · rintro (hst | hst) <;> simp only [Trace.takeFin] at hst <;> simp [hst, State.Live] at hl'
        · exact absurd hsend.preFin htaken.post
      · refine h.frame rfl rfl rfl rfl rfl ?_ (fun _ => h.done (.inl hl)) fun hsend => ?_
        · intro hlv
          simp [Trace.takeFin, hl', State.Live] at hlv
        · exact absurd hsend.preFin htaken.post
  | finAcked _ _ hacked hexact =>
      have hnil := (hlive hacked.live).filter_eq_nil hnear.flight
      rw [← hs.nxt, ← hexact] at hnil
      exact h.frame rfl rfl rfl rfl rfl (fun hl => absurd hl hacked.done) (fun _ => hnil)
        fun hsend => absurd hsend.preFin hacked.post
  | openActive _ _ _ hwait hexact =>
      rw [hexact]
      exact h.opened hs hnear (by simp [hwait, State.Live]) ⟨rfl, rfl, rfl, rfl, rfl⟩ rfl
  | openPassive _ _ hwait hexact =>
      rw [hexact]
      exact h.opened hs hnear (by simp [hwait, State.Live]) ⟨rfl, rfl, rfl, rfl, rfl⟩ rfl
  | die =>
      refine h.frame rfl rfl rfl rfl rfl ?_ ?_ ?_
      · simp [State.Live]
      · simp
      · simp [State.Sending]

theorem Step.pieces {inp : Option Segment} {t t' : Trace} (h : Step inp t t') :
    t.pieces <+: t'.pieces := by
  cases h <;> first | exact List.prefix_rfl | exact List.prefix_append _ _

theorem Step.unaPos_le {inp : Option Segment} {t t' : Trace} (h : Step inp t t') :
    t.unaPos ≤ t'.unaPos := by
  cases h <;> first | exact le_rfl | exact Nat.le_add_right _ _

theorem Steps.pieces {inp : Option Segment} {t t' : Trace} (h : Steps inp t t') :
    t.pieces <+: t'.pieces :=
  h.relates (R := fun a b => a.pieces <+: b.pieces) (fun _ => List.prefix_rfl)
    (fun _ _ _ => List.IsPrefix.trans) fun _ _ => Step.pieces

theorem Steps.unaPos_le {inp : Option Segment} {t t' : Trace} (h : Steps inp t t') :
    t.unaPos ≤ t'.unaPos :=
  h.relates (R := fun a b => a.unaPos ≤ b.unaPos) (fun _ => le_rfl) (fun _ _ _ => le_trans)
    fun _ _ => Step.unaPos_le

theorem Steps.iss {inp : Option Segment} {t t' : Trace} (h : Steps inp t t') : t'.iss = t.iss :=
  h.relates (R := fun a b => b.iss = a.iss) (fun _ => rfl) (fun _ _ _ h₁ h₂ => h₂.trans h₁)
    fun _ _ hst => by cases hst <;> rfl

theorem sent_length_le {t t' : Trace} (h : t.pieces <+: t'.pieces) : t.sent.length ≤ t'.sent.length := by
  obtain ⟨r, hr⟩ := h
  rw [sent, sent, ← hr, List.flatten_append, List.length_append]
  exact Nat.le_add_right _ _

/-- A whole call keeps the edges and the queue together, if what is sent by
its end stays within half the sequence space of where SND.UNA began. -/
theorem Steps.outstanding {inp : Option Segment} {t t' : Trace} (hsteps : Steps inp t t')
    (hnear : 1 + t'.sent.length < t.unaPos + 2 ^ 31) (hs : Stream t) (h : Outstanding t) :
    Outstanding t' := by
  induction hsteps using Relation.ReflTransGen.head_induction_on with
  | refl => exact h
  | @head a b hstep hrest ih =>
      have hlen := sent_length_le (Steps.pieces hrest)
      have hlen' := sent_length_le hstep.pieces
      have hup := hstep.unaPos_le
      refine ih (by omega) (hstep.stream hs) (hstep.outstanding hs ?_ ?_ h)
      · unfold Near
        omega
      · unfold Near
        omega

theorem Outstanding.appCall {t : Trace} (h : Outstanding t) (x : Call) : Outstanding (t.appCall x) := by
  cases x <;> exact h.frame rfl rfl rfl rfl rfl h.live h.done id

end Trace
end TcpStack
