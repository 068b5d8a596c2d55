import Mathlib.Data.List.Induction
import TcpStack.EndToEnd
import TcpStack.Discipline

/-!
# Agreement after the handshake

Whatever the network does with the packets of the two ends, the passive opener
leaves SYN_RCVD only after the active opener was established, and from then on
both have settled the same terms. Nothing here bounds what is written.
-/
namespace TcpStack
open Tcp TcpStack.Seq TcpStack.Circle

namespace Trace

/-- The only packet with the SYN flag on the wire is the handshake packet `first`. -/
structure Voice (first : Bytes) (t : Trace) : Prop where
  stream : Stream t
  sent : first ∈ t.emitted
  syn : ∀ p ∈ t.emitted, ∀ s, decode p = some s → hasFlag s.th.flags SYN = true → p = first

theorem Voice.emit {first p : Bytes} {t t' : Trace} {s : Segment} (h : Voice first t) (hs : Stream t')
    (he : t'.emitted = t.emitted ++ [p]) (hd : decode p = some s) (hno : hasFlag s.th.flags SYN = false) :
    Voice first t' := by
  refine ⟨hs, he ▸ List.mem_append_left _ h.sent, fun q hq s' hd' hsyn => ?_⟩
  rw [he] at hq
  rcases List.mem_append.mp hq with hq | hq
  · exact h.syn q hq s' hd' hsyn
  · obtain rfl := List.mem_singleton.mp hq
    obtain rfl : s = s' := Option.some.inj (hd.symm.trans hd')
    rw [hno] at hsyn
    cases hsyn

theorem Step.voice {inp : Option Segment} {t t' : Trace} {first : Bytes} (hstep : Step inp t t')
    (h : Voice first t) : Voice first t' := by
  have hs := hstep.stream h.stream
  cases hstep with
  | ack _ hc _ =>
      refine h.emit hs rfl hc.decode ?_
      rw [hc.flags]
      decide
  | resend hq _ =>
      refine ⟨hs, List.mem_append_left _ h.sent, fun p hp => ?_⟩
      rcases List.mem_append.mp hp with hp | hp
      · exact h.syn p hp
      · rw [List.mem_singleton.mp hp]
        exact h.syn _ (h.stream.queued _ hq)
  | data _ _ _ _ hf hc =>
      refine h.emit hs rfl hc.decode ?_
      rw [hc.flags]
      rcases hf with rfl | rfl <;> decide
  | fin _ _ hc =>
      refine h.emit hs rfl hc.decode ?_
      rw [hc.flags]
      decide
  | _ => exact ⟨hs, h.sent, h.syn⟩

theorem Voice.appCall {first : Bytes} {t : Trace} (h : Voice first t) (x : Call) : Voice first (t.appCall x) := by
  refine ⟨h.stream.appCall x, ?_, ?_⟩
  · cases x <;> exact h.sent
  · cases x <;> exact h.syn

theorem Voice.noRst {first : Bytes} {t : Trace} (h : Voice first t) {inp : Option Segment} (hh : Heard t inp)
    {seg : Segment} (hi : inp = some seg) : hasFlag seg.th.flags RST = false := by
  obtain ⟨p, hp, hd⟩ := hh seg hi
  obtain ⟨s, hd', hst⟩ := h.stream.emitted p hp
  obtain rfl : s = seg := Option.some.inj (hd'.symm.trans hd)
  exact hst.noRst

def VirginOrOpen (t : Trace) : Prop := Virgin t ∨ t.state ≠ .synSent

theorem Step.synSent_only_from {inp : Option Segment} {t t' : Trace} (hstep : Step inp t t')
    (hs : t.state ≠ .synSent) : t'.state ≠ .synSent := by
  cases hstep with
  | fin _ hfin => exact hfin.synced
  | takeFin _ _ htaken => exact htaken.synced
  | finAcked _ _ hacked => exact hacked.synced
  | ack | resend | data | ackNew | mark | deliver | pendFin => exact hs
  | takePending | openActive | openPassive | die => exact fun h => nomatch h

theorem VirginOrOpen.step {a a' : Trace} {inp : Option Segment} (h : VirginOrOpen a) (hst : Stream a)
    (hrst : ∀ seg, inp = some seg → hasFlag seg.th.flags RST = false) (hstep : Step inp a a') :
    VirginOrOpen a' := by
  rcases h with hv | hs
  · rcases hv.step hst hrst hstep with hv' | ⟨seg, -, -, rfl⟩
    · exact .inl hv'
    · exact .inr fun h => nomatch h
  · exact .inr (hstep.synSent_only_from hs)

theorem VirginOrOpen.appCall {a : Trace} (h : VirginOrOpen a) (x : Call) : VirginOrOpen (a.appCall x) := by
  rcases h with hv | hs
  · exact .inl (hv.appCall x)
  · right
    cases x <;> exact hs

end Trace

namespace Host
open Trace

variable {F : Type} [F64 F]

theorem call_keeps {h : Host F} {t : Trace} {x : Call} {P : Trace → Prop} (hf : Follows h t) (happ : P (t.appCall x))
    (hstep : ∀ a b, Step (input x) a b → P a → P b) : ∃ t', Follows (h.call x) t' ∧ P t' := by
  obtain ⟨t', hsteps, hf'⟩ := call_refines hf x
  exact ⟨t', hf', hsteps.preserves hstep happ⟩

theorem call_active {h : Host F} {t : Trace} {x : Call} {first : Bytes} (hf : Follows h t) (hv : Voice first t)
    (ho : VirginOrOpen t) (hrst : ∀ seg, input x = some seg → hasFlag seg.th.flags RST = false) :
    ∃ t', Follows (h.call x) t' ∧ Voice first t' ∧ VirginOrOpen t' := by
  refine call_keeps (P := fun t => Voice first t ∧ VirginOrOpen t) hf ⟨hv.appCall x, ho.appCall x⟩ ?_
  rintro a b hstep ⟨hva, hoa⟩
  exact ⟨hstep.voice hva, hoa.step hva.stream hrst hstep⟩

theorem call_waiting {h : Host F} {t : Trace} {x : Call} {first : Bytes} (hf : Follows h t) (hv : Voice first t)
    (hw : Waiting t) (hin : ∀ seg, input x = some seg →
      hasFlag seg.th.flags RST = false ∧ hasFlag seg.th.flags ACK = false) :
    ∃ t', Follows (h.call x) t' ∧ Voice first t' ∧ Waiting t' := by
  refine call_keeps (P := fun t => Voice first t ∧ Waiting t) hf ⟨hv.appCall x, hw.appCall x⟩ ?_
  rintro a b hstep ⟨hva, hwa⟩
  exact ⟨hstep.voice hva, hwa.step hin hstep⟩

theorem call_voice {h : Host F} {t : Trace} {first : Bytes} (hf : Follows h t) (hv : Voice first t) (x : Call) :
    ∃ t', Follows (h.call x) t' ∧ Voice first t' :=
  call_keeps hf (hv.appCall x) fun _ _ hstep hva => hstep.voice hva

end Host

namespace System
open Trace Host

variable {F : Type} [F64 F]

/-- The terms both ends end up with. -/
def settled (mine peers : U32) : U32 × U32 × U16 × Bool × WScale × Bool :=
  (mine, peers, umin ourMss ourMss, true, ourRcvWscale, true)

/-- The handshake packet of an end: its initial sequence number, and the options both ends can use. -/
structure Offer (first : Bytes) (iss : U32) : Prop where
  packet : ∃ s, decode first = some s ∧ hasFlag s.th.flags SYN = true ∧ s.th.seq = iss ∧
    s.opts.mss = some ourMss ∧ s.opts.windowScale = some ourRcvWscale ∧ s.opts.timestamps.isSome = true ∧
    s.opts.sackPermitted = true

/-- How far the handshake has come. -/
inductive Phase (syn : Bytes) (iss : U32) : System F → Prop where
  | alone {a : Host F} {ta : Trace} (followsA : Follows a ta) (voiceA : Voice syn ta) (virgin : Virgin ta)
      (termsA : a.conn.terms = (iss, 0#32, defaultSendMss, false, 0, false)) : Phase syn iss ⟨a, none⟩
  | offered {a b : Host F} {ta tb : Trace} {synack : Bytes} {issB : U32} (followsA : Follows a ta)
      (voiceA : Voice syn ta) (virgin : Virgin ta)
      (termsA : a.conn.terms = (iss, 0#32, defaultSendMss, false, 0, false)) (followsB : Follows b tb)
      (voiceB : Voice synack tb) (waiting : Waiting tb) (termsB : b.conn.terms = settled issB iss)
      (offer : Offer synack issB) : Phase syn iss ⟨a, some b⟩
  | agreed {a b : Host F} {ta tb : Trace} {synack : Bytes} {issB : U32} (followsA : Follows a ta)
      (voiceA : Voice syn ta) (openA : a.conn.state ≠ .synSent) (termsA : a.conn.terms = settled iss issB)
      (followsB : Follows b tb) (voiceB : Voice synack tb) (openB : b.conn.state ≠ .synSent)
      (termsB : b.conn.terms = settled issB iss) (offer : Offer synack issB) : Phase syn iss ⟨a, some b⟩

variable {syn : Bytes} {iss : U32} {s : System F}

theorem init_phase (localEnd remoteEnd : Endpoint) (iss : U32) (now : U64) (rnd : U32) :
    ∃ syn, Offer syn iss ∧ Phase syn iss (init (F := F) localEnd remoteEnd iss now rnd) := by
  obtain ⟨s, hc, hopts⟩ := Connection.connectWithIss_syn (F := F) localEnd remoteEnd iss now rnd
  have hf : Fresh (Host.connect (F := F) localEnd remoteEnd iss now rnd) := .connect ..
  refine ⟨_, ⟨s, hc.decode, ?_, hc.seq, by rw [hopts]; rfl, by rw [hopts]; rfl, by rw [hopts]; rfl,
    by rw [hopts]; rfl⟩, .alone hf.follows ⟨hf.stream, List.mem_singleton_self _, ?_⟩ (init_virgin ..).2 rfl⟩
  · rw [hc.flags]
    decide
  · intro p hp s' _ _
    exact List.mem_singleton.mp hp

theorem Offer.opens {synack p : Bytes} {issB : U32} {tb : Trace} {seg : Segment} {c : Connection F}
    (ho : Offer synack issB) (hv : Voice synack tb) (hp : p ∈ tb.emitted) (hd : decode p = some seg)
    (hsyn : hasFlag seg.th.flags SYN = true) (hc : c.terms = (iss, 0#32, defaultSendMss, false, 0, false)) :
    c.openTerms seg = settled iss issB := by
  obtain ⟨s, hd', -, hseq, hmss, hws, hts, hsack⟩ := ho.packet
  obtain rfl : p = synack := hv.syn p hp seg hd hsyn
  obtain rfl : s = seg := Option.some.inj (hd'.symm.trans hd)
  have hiss : c.send.iss = iss := congrArg Prod.fst hc
  simp only [Connection.openTerms, settled, hiss, hseq, hmss, hws, hts, hsack]
  rfl

theorem virgin_local {a : Host F} {ta : Trace} {x : Call} (hf : Follows a ta) (hv : Voice syn ta) (hvir : Virgin ta)
    (hx : x.isLocal = true) : ∃ ta', Follows (a.call x) ta' ∧ Voice syn ta' ∧ Virgin ta' := by
  refine call_keeps (P := fun t => Voice syn t ∧ Virgin t) hf ⟨hv.appCall x, hvir.appCall x⟩ ?_
  rw [input_local hx]
  rintro t t' hstep ⟨hvt, hvirt⟩
  refine ⟨hstep.voice hvt, ?_⟩
  rcases hvirt.step hvt.stream (fun seg hi => by cases hi) hstep with h | ⟨seg, hi, -⟩
  · exact h
  · cases hi

theorem virgin_heard {a : Host F} {ta tb : Trace} {synack p : Bytes} {issB : U32} {seg : Segment} (hf : Follows a ta)
    (hv : Voice syn ta) (hvir : Virgin ta) (hterms : a.conn.terms = (iss, 0#32, defaultSendMss, false, 0, false))
    (ho : Offer synack issB) (hvb : Voice synack tb) (hp : p ∈ tb.emitted) (hd : decode p = some seg)
    (now : U64) (rnd : U32) :
    ∃ ta', Follows (a.call (.onSegment seg now rnd)) ta' ∧ Voice syn ta' ∧
      ((Virgin ta' ∧ (a.call (.onSegment seg now rnd)).conn.terms = a.conn.terms) ∨
        ((a.call (.onSegment seg now rnd)).conn.state = .established ∧
          (a.call (.onSegment seg now rnd)).conn.terms = settled iss issB)) := by
  have hheard : Heard tb (some seg) := fun seg' heq => ⟨p, hp, heq ▸ hd⟩
  have hrst : hasFlag seg.th.flags RST = false := hvb.noRst hheard rfl
  have hs : a.conn.state = .synSent := hf.state.symm.trans hvir.state
  obtain ⟨ta', hf', hv', ho'⟩ := call_active (x := .onSegment seg now rnd) hf hv (.inl hvir) fun seg' heq => by
    obtain rfl : seg = seg' := Option.some.inj heq
    exact hrst
  have hstate : ta'.state = (a.call (.onSegment seg now rnd)).conn.state := hf'.state
  refine ⟨ta', hf', hv', ?_⟩
  rcases Connection.onSegment_synSent hs seg now rnd with ⟨hsame, hst | ⟨hbad, -⟩⟩ | ⟨hsyn, -, -, hst, hopen⟩
  · refine .inl ⟨ho'.resolve_right ?_, hsame⟩
    rw [not_not, hstate]
    exact hst
  · rw [hrst] at hbad
    cases hbad
  · exact .inr ⟨hst, hopen.trans (ho.opens hvb hp hd hsyn hterms)⟩

theorem Offer.accepts {ta : Trace} {p : Bytes} {issB : U32} {now : U64} {rnd : U32} {b : Host F} (ho : Offer syn iss)
    (hv : Voice syn ta) (hp : p ∈ ta.emitted) (hl : listen p issB now rnd = some b) :
    ∃ tb synack, Follows b tb ∧ Voice synack tb ∧ Waiting tb ∧ b.conn.terms = settled issB iss ∧
      Offer synack issB := by
  unfold listen at hl
  split at hl
  · rename_i ip seg hip hd
    have hfresh : Fresh b := .accept ip.src ip.dst seg issB now rnd hl
    have hsyn : hasFlag seg.th.flags SYN = true := by
      by_contra hno
      simp [Host.accept, Connection.acceptWithIssAt, hno] at hl
    obtain ⟨s, hd', -, hseq, hmss, hws, hts, hsack⟩ := ho.packet
    obtain rfl : p = syn := hv.syn p hp seg hd hsyn
    obtain rfl : s = seg := Option.some.inj (hd'.symm.trans hd)
    obtain ⟨⟨c, synack⟩, hr, rfl⟩ := Option.map_eq_some_iff.mp hl
    obtain ⟨rfl, r, hc, hopts⟩ := Connection.acceptWithIssAt_eq hr
    refine ⟨_, synack, hfresh.follows, ⟨hfresh.stream, List.mem_singleton_self _, ?_⟩, ⟨rfl, ?_, rfl⟩, ?_,
      r, hc.decode, ?_, hc.seq, ?_, ?_, ?_, ?_⟩
    · intro q hq s' _ _
      exact List.mem_singleton.mp hq
    · change (issB - issB).toNat = 0
      rw [BitVec.sub_self]
      rfl
    · simp only [Connection.terms, Connection.synRcvdBlock, settled, hseq, hmss, hws, hts, hsack]
      rfl
    · rw [hc.flags]
      decide
    · rw [hopts]
      rfl
    · rw [hopts, Connection.synackOpts, hws]
      rfl
    · rw [hopts, Connection.synackOpts, Option.isSome_map]
      exact hts
    · rw [hopts]
      exact hsack
  · cases hl

theorem open_call {h : Host F} {t : Trace} {first : Bytes} (hf : Follows h t) (hv : Voice first t)
    (hs : h.conn.state ≠ .synSent) (x : Call) : ∃ t', Follows (h.call x) t' ∧ Voice first t' ∧
      (h.call x).conn.state ≠ .synSent ∧ (h.call x).conn.terms = h.conn.terms := by
  obtain ⟨t', hf', hv'⟩ := call_voice hf hv x
  exact ⟨t', hf', hv', mt call_synSent hs, call_terms (.inl hs)⟩

/-- In SYN_SENT, an event leaves the active opener there or establishes it. -/
def Opens (s s' : System F) : Prop :=
  s.a.conn.state = .synSent → s'.a.conn.state = .synSent ∨ s'.a.conn.state = .established

theorem virgin_synSent {a : Host F} {ta : Trace} (hf : Follows a ta) (hv : Virgin ta) : a.conn.state = .synSent :=
  hf.state.symm.trans hv.state

theorem waiting_synRcvd {b : Host F} {tb : Trace} (hf : Follows b tb) (hw : Waiting tb) : b.conn.state = .synRcvd :=
  hf.state.symm.trans hw.state

theorem Change.alone (ho : Offer syn iss) {a : Host F} {ta : Trace} (hfa : Follows a ta) (hva : Voice syn ta)
    (hvir : Virgin ta) (hta : a.conn.terms = (iss, 0#32, defaultSendMss, false, 0, false)) {s' : System F}
    (hc : Change ⟨a, none⟩ s') : Phase syn iss s' ∧ Opens ⟨a, none⟩ s' := by
  cases hc with
  | idle => exact ⟨.alone hfa hva hvir hta, .inl⟩
  | localA hx =>
      obtain ⟨ta', hfa', hva', hvir'⟩ := virgin_local hfa hva hvir hx
      exact ⟨.alone hfa' hva' hvir' ((call_terms (.inr hx)).trans hta), fun _ => .inl (virgin_synSent hfa' hvir')⟩
  | localB hb => cases hb
  | heardA hb => cases hb
  | heardB hb => cases hb
  | join _ hp hl =>
      obtain ⟨tb, synack, hfb, hvb, hw, htb, hob⟩ := ho.accepts hva (hfa.emitted ▸ hp) hl
      exact ⟨.offered hfa hva hvir hta hfb hvb hw htb hob, .inl⟩

theorem Change.offered {a b : Host F} {ta tb : Trace} {synack : Bytes} {issB : U32} (hfa : Follows a ta)
    (hva : Voice syn ta) (hvir : Virgin ta) (hta : a.conn.terms = (iss, 0#32, defaultSendMss, false, 0, false))
    (hfb : Follows b tb) (hvb : Voice synack tb) (hw : Waiting tb) (htb : b.conn.terms = settled issB iss)
    (hob : Offer synack issB) {s' : System F} (hc : Change ⟨a, some b⟩ s') :
    Phase syn iss s' ∧ Opens ⟨a, some b⟩ s' := by
  have hsb : b.conn.state ≠ .synSent := by simp [waiting_synRcvd hfb hw]
  have hwaits : ∀ {x : Call} {tb' : Trace}, Follows (b.call x) tb' → Voice synack tb' → Waiting tb' →
      Phase syn iss ⟨a, some (b.call x)⟩ ∧ Opens ⟨a, some b⟩ ⟨a, some (b.call x)⟩ := fun hfb' hvb' hw' =>
    ⟨.offered hfa hva hvir hta hfb' hvb' hw' ((call_terms (.inl hsb)).trans htb) hob, .inl⟩
  cases hc with
  | idle => exact ⟨.offered hfa hva hvir hta hfb hvb hw htb hob, .inl⟩
  | localA hx =>
      obtain ⟨ta', hfa', hva', hvir'⟩ := virgin_local hfa hva hvir hx
      exact ⟨.offered hfa' hva' hvir' ((call_terms (.inr hx)).trans hta) hfb hvb hw htb hob,
        fun _ => .inl (virgin_synSent hfa' hvir')⟩
  | localB hb hx =>
      obtain rfl := Option.some.inj hb
      obtain ⟨tb', hfb', hvb', hw'⟩ := call_waiting hfb hvb hw fun seg hi => by
        rw [input_local hx] at hi
        cases hi
      exact hwaits hfb' hvb' hw'
  | @heardA b' p seg now rnd hb hp hd =>
      obtain rfl := Option.some.inj hb
      obtain ⟨ta', hfa', hva', ⟨hvir', hta'⟩ | ⟨hest, hta'⟩⟩ :=
        virgin_heard hfa hva hvir hta hob hvb (hfb.emitted ▸ hp) hd now rnd
      · exact ⟨.offered hfa' hva' hvir' (hta'.trans hta) hfb hvb hw htb hob,
          fun _ => .inl (virgin_synSent hfa' hvir')⟩
      · exact ⟨.agreed hfa' hva' (by simp [hest]) hta' hfb hvb hsb htb hob, fun _ => .inr hest⟩
  | @heardB b' p seg now rnd hb hp hd =>
      obtain rfl := Option.some.inj hb
      have hpa : p ∈ ta.emitted := hfa.emitted ▸ hp
      obtain ⟨tb', hfb', hvb', hw'⟩ := call_waiting (x := .onSegment seg now rnd) hfb hvb hw fun seg' heq => by
        obtain rfl : seg = seg' := Option.some.inj heq
        exact ⟨hva.noRst (heard_of_sent hfa hp hd) rfl, hvir.quiet p hpa seg hd⟩
      exact hwaits hfb' hvb' hw'
  | join hnone => cases hnone

theorem Change.agreed {a b : Host F} {ta tb : Trace} {synack : Bytes} {issB : U32} (hfa : Follows a ta)
    (hva : Voice syn ta) (hoa : a.conn.state ≠ .synSent) (hta : a.conn.terms = settled iss issB) (hfb : Follows b tb)
    (hvb : Voice synack tb) (hopb : b.conn.state ≠ .synSent) (htb : b.conn.terms = settled issB iss)
    (hob : Offer synack issB) {s' : System F} (hc : Change ⟨a, some b⟩ s') :
    Phase syn iss s' ∧ Opens ⟨a, some b⟩ s' := by
  have hA : ∀ x, Phase syn iss ⟨a.call x, some b⟩ ∧ Opens ⟨a, some b⟩ ⟨a.call x, some b⟩ := by
    intro x
    obtain ⟨ta', hfa', hva', hoa', hta'⟩ := open_call hfa hva hoa x
    exact ⟨.agreed hfa' hva' hoa' (hta'.trans hta) hfb hvb hopb htb hob, fun h => absurd h hoa⟩
  have hB : ∀ x, Phase syn iss ⟨a, some (b.call x)⟩ ∧ Opens ⟨a, some b⟩ ⟨a, some (b.call x)⟩ := by
    intro x
    obtain ⟨tb', hfb', hvb', hopb', htb'⟩ := open_call hfb hvb hopb x
    exact ⟨.agreed hfa hva hoa hta hfb' hvb' hopb' (htb'.trans htb) hob, .inl⟩
  cases hc with
  | idle => exact ⟨.agreed hfa hva hoa hta hfb hvb hopb htb hob, .inl⟩
  | localA => exact hA _
  | heardA => exact hA _
  | localB hb =>
      obtain rfl := Option.some.inj hb
      exact hB _
  | heardB hb =>
      obtain rfl := Option.some.inj hb
      exact hB _
  | join hnone => cases hnone

theorem Phase.step (ho : Offer syn iss) (h : Phase syn iss s) (e : Event) :
    Phase syn iss (s.step e) ∧ Opens s (s.step e) := by
  have hc := s.step_change e
  generalize s.step e = s' at hc
  cases h with
  | alone hfa hva hvir hta => exact hc.alone ho hfa hva hvir hta
  | offered hfa hva hvir hta hfb hvb hw htb hob => exact hc.offered hfa hva hvir hta hfb hvb hw htb hob
  | agreed hfa hva hoa hta hfb hvb hopb htb hob => exact hc.agreed hfa hva hoa hta hfb hvb hopb htb hob

/-- The active opener has been in ESTABLISHED at some point of the run. -/
def Reached (s : System F) (events : List Event) : Prop :=
  ∃ pre, pre <+: events ∧ (s.run pre).a.conn.state = .established

theorem step_synSent {s : System F} {e : Event} (h : (s.step e).a.conn.state = .synSent) :
    s.a.conn.state = .synSent := by
  have hc := s.step_change e
  generalize s.step e = s' at hc h
  cases hc with
  | idle | localB | heardB | join => exact h
  | localA | heardA => exact call_synSent h

theorem run_synSent {s : System F} {events : List Event} (h : (s.run events).a.conn.state = .synSent) :
    s.a.conn.state = .synSent := by
  induction events generalizing s with
  | nil => exact h
  | cons e events ih => exact step_synSent (ih (s := s.step e) h)

theorem Reached.left {s : System F} {events : List Event} (h : Reached s events) :
    (s.run events).a.conn.state ≠ .synSent := by
  obtain ⟨pre, ⟨post, rfl⟩, hest⟩ := h
  intro hs
  rw [run_append] at hs
  have hback := run_synSent hs
  rw [hest] at hback
  cases hback

theorem run_phase (ho : Offer syn iss) (hs : s.a.conn.state = .synSent) (h : Phase syn iss s) (events : List Event) :
    Phase syn iss (s.run events) ∧ ((s.run events).a.conn.state ≠ .synSent → Reached s events) := by
  induction events using List.reverseRecOn with
  | nil => exact ⟨h, fun hne => absurd hs hne⟩
  | append_singleton events e ih =>
      obtain ⟨hphase, hreach⟩ := ih
      obtain ⟨hphase', hopens⟩ := hphase.step ho e
      rw [run_append]
      refine ⟨hphase', fun hne => ?_⟩
      by_cases hwait : (s.run events).a.conn.state = .synSent
      · refine ⟨events ++ [e], List.prefix_rfl, ?_⟩
        rw [run_append]
        exact (hopens hwait).resolve_left hne
      · obtain ⟨pre, hpre, hest⟩ := hreach hwait
        exact ⟨pre, hpre.trans (List.prefix_append _ _), hest⟩

/-- The one handshake packet of `x` carries the shift `y` scales by, and a segment
size that `y` keeps to. -/
def Advertised (x y : Host F) : Prop :=
  ∃ p ∈ x.emitted, (∀ q ∈ x.emitted, ∀ r, decode q = some r → hasFlag r.th.flags SYN = true → q = p) ∧
    ∃ r m, decode p = some r ∧ hasFlag r.th.flags SYN = true ∧ r.opts.windowScale = some y.conn.sndWscale ∧
      r.opts.mss = some m ∧ y.conn.sendMss ≤ m

theorem Offer.advertised {x y : Host F} {tx : Trace} {first : Bytes} {isn mine peers : U32} (ho : Offer first isn)
    (hf : Follows x tx) (hv : Voice first tx) (hy : y.conn.terms = settled mine peers) : Advertised x y := by
  obtain ⟨r, hd, hsyn, -, hmss, hws, -⟩ := ho.packet
  simp only [Connection.terms, settled, Prod.mk.injEq] at hy
  obtain ⟨-, -, hm, -, hw, -⟩ := hy
  refine ⟨first, hf.emitted ▸ hv.sent, hf.emitted ▸ hv.syn, r, ourMss, hd, hsyn, ?_, hmss, ?_⟩
  · rw [hws, hw]
  · rw [hm]
    decide

/-- Handshake agreement: a passive opener past SYN_RCVD has an active opener that
was established, and an active opener that was established has agreed with it
on both initial sequence numbers and on every option. -/
theorem handshake_agrees (localEnd remoteEnd : Endpoint) (iss : U32) (now : U64) (rnd : U32) (events : List Event) :
    let s₀ := init (F := F) localEnd remoteEnd iss now rnd
    let s := s₀.run events
    (∀ b, s.b = some b → b.conn.state ≠ .synRcvd → Reached s₀ events) ∧
    (Reached s₀ events → ∃ b, s.b = some b ∧
      s.a.conn.recv.irs = b.conn.send.iss ∧ b.conn.recv.irs = s.a.conn.send.iss ∧
      s.a.conn.tsEnabled = b.conn.tsEnabled ∧ s.a.conn.sackOk = b.conn.sackOk ∧
      Advertised b s.a ∧ Advertised s.a b) := by
  intro s₀ s
  obtain ⟨syn, ho, hinit⟩ := init_phase (F := F) localEnd remoteEnd iss now rnd
  obtain ⟨hphase, hreach⟩ := run_phase ho (virgin_synSent (Fresh.follows (.connect ..))
      (init_virgin ..).2) hinit events
  change Phase syn iss s at hphase
  change s.a.conn.state ≠ .synSent → Reached s₀ events at hreach
  constructor
  · intro b hb hopen
    apply hreach
    generalize s = s at hphase hb
    cases hphase with
    | alone => cases hb
    | offered _ _ _ _ hfb _ hw =>
        obtain rfl := Option.some.inj hb
        exact absurd (waiting_synRcvd hfb hw) hopen
    | agreed _ _ hoa => exact hoa
  · intro hr
    have hleft : s.a.conn.state ≠ .synSent := hr.left
    generalize s = s at hphase hleft
    cases hphase with
    | alone hfa _ hvir => exact absurd (virgin_synSent hfa hvir) hleft
    | offered hfa _ hvir => exact absurd (virgin_synSent hfa hvir) hleft
    | @agreed a b ta tb synack issB hfa hva _ hta hfb hvb _ htb hob =>
        refine ⟨b, rfl, ?_⟩
        have hadvB := hob.advertised hfb hvb hta
        have hadvA := ho.advertised hfa hva htb
        simp only [Connection.terms, settled, Prod.mk.injEq] at hta htb
        obtain ⟨hissA, hirsA, -, htsA, -, hsackA⟩ := hta
        obtain ⟨hissB, hirsB, -, htsB, -, hsackB⟩ := htb
        exact ⟨hirsA.trans hissB.symm, hirsB.trans hissA.symm, htsA.trans htsB.symm, hsackA.trans hsackB.symm,
          hadvB, hadvA⟩

theorem agreement_after_transfer :
    ∃ b, (demo.run demoTransfer).b = some b ∧ b.conn.state = .established ∧ Reached demo demoTransfer ∧
      (demo.run demoTransfer).a.conn.recv.irs = b.conn.send.iss ∧ Advertised b (demo.run demoTransfer).a := by
  obtain ⟨hleft, hright⟩ := handshake_agrees (F := Rat) _ _ 100#32 0#64 0#32 demoTransfer
  have hest : (demo.run demoTransfer).b.map (fun b => b.conn.state) = some .established := by decide +kernel
  obtain ⟨b, hb, hst⟩ := Option.map_eq_some_iff.mp hest
  have hr : Reached demo demoTransfer := hleft b hb (by simp [hst])
  obtain ⟨b', hb', hirs, -, -, -, hadv, -⟩ := hright hr
  obtain rfl : b = b' := Option.some.inj (hb.symm.trans hb')
  exact ⟨b, hb, hst, hr, hirs, hadv⟩

end System
end TcpStack
