import TcpStack.System

/-!
# Invariants of the two-endpoint system

Both ends of a system are described by traces. A property of the active
opener's trace alone, and one of both traces, that every micro-step keeps and
that the passive open connects, hold in every state the system reaches.
-/
namespace TcpStack
open Tcp

namespace Trace

/-- The packets the peer has put on the wire are the only input. -/
def Heard (y : Trace) (inp : Option Segment) : Prop :=
  ∀ seg, inp = some seg → ∃ p ∈ y.emitted, decode p = some seg

theorem heard_none (y : Trace) : Heard y none := fun _ h => nomatch h

theorem input_local {x : Call} (h : x.isLocal = true) : input x = none := by
  cases x <;> first | rfl | cases h

end Trace

namespace System
open Trace Host

variable {F : Type} [F64 F]

/-- A state of the system is described by traces that satisfy the invariant. -/
def Tracked (I : Trace → Prop) (J : Trace → Trace → Prop) (s : System F) : Prop :=
  ∃ ta, Follows s.a ta ∧
    match s.b with
    | none => I ta
    | some b => ∃ tb, Follows b tb ∧ J ta tb

/-- `I` of the active opener alone and `J` of both ends survive every step. -/
structure Kept (F : Type) [F64 F] (I : Trace → Prop) (J : Trace → Trace → Prop) : Prop where
  appI : ∀ {a : Trace} (x : Call), I a → (a.appCall x).written.length < 2 ^ 31 → I (a.appCall x)
  stepI : ∀ {a a' : Trace}, I a → Step none a a' → I a'
  join : ∀ {a b : Host F} {ta : Trace} {pkt : Bytes} {iss : U32} {now : U64} {rnd : U32}, Follows a ta →
    I ta → pkt ∈ a.emitted → listen pkt iss now rnd = some b → ∃ tb, Follows b tb ∧ J ta tb
  appA : ∀ {a b : Trace} (x : Call), J a b → (a.appCall x).written.length < 2 ^ 31 → J (a.appCall x) b
  appB : ∀ {a b : Trace} (x : Call), J a b → (b.appCall x).written.length < 2 ^ 31 → J a (b.appCall x)
  stepA : ∀ {a a' b : Trace} {inp : Option Segment}, J a b → Heard b inp → Step inp a a' → J a' b
  stepB : ∀ {a b b' : Trace} {inp : Option Segment}, J a b → Heard a inp → Step inp b b' → J a b'

theorem call_written (h : Host F) (x : Call) : h.written <+: (h.call x).written := by
  cases x with
  | write data => exact List.prefix_append _ _
  | close now =>
      simp only [call]
      split <;> exact List.prefix_rfl
  | _ =>
      simp only [call]
      exact List.prefix_rfl

theorem appCall_small {h : Host F} {t t' : Trace} {x : Call} (hsteps : Steps (input x) (t.appCall x) t')
    (hf' : Follows (h.call x) t') (hs : (h.call x).written.length < 2 ^ 31) :
    (t.appCall x).written.length < 2 ^ 31 := by
  rw [← hsteps.written, hf'.written]
  exact hs

theorem heard_of_sent {h : Host F} {t : Trace} {p : Bytes} {seg : Segment} (hf : Follows h t)
    (hp : p ∈ h.emitted) (hd : decode p = some seg) : Heard t (some seg) := by
  intro seg' heq
  obtain rfl : seg = seg' := Option.some.inj heq
  exact ⟨p, hf.emitted ▸ hp, hd⟩

variable {I : Trace → Prop} {J : Trace → Trace → Prop} {s : System F}

theorem Tracked.both {b : Host F} (ht : Tracked I J s) (hb : s.b = some b) :
    ∃ ta tb, Follows s.a ta ∧ Follows b tb ∧ J ta tb := by
  obtain ⟨ta, hfa, hrest⟩ := ht
  simp only [hb] at hrest
  obtain ⟨tb, hfb, hj⟩ := hrest
  exact ⟨ta, tb, hfa, hfb, hj⟩

theorem Kept.callA (hk : Kept F I J) {x : Call} (ht : Tracked I J s)
    (hin : match s.b with
      | none => x.isLocal = true
      | some b => ∀ tb, Follows b tb → Heard tb (input x))
    (hb : Bounded { s with a := s.a.call x }) : Tracked I J { s with a := s.a.call x } := by
  obtain ⟨ta, hfa, hrest⟩ := ht
  obtain ⟨ta', hsteps, hfa'⟩ := call_refines hfa x
  have hsmall := appCall_small hsteps hfa' hb.1
  refine ⟨ta', hfa', ?_⟩
  cases hsb : s.b with
  | none =>
      simp only [hsb] at hrest hin
      rw [input_local hin] at hsteps
      exact hsteps.preserves (fun _ _ hstep h => hk.stepI h hstep) (hk.appI x hrest hsmall)
  | some b =>
      simp only [hsb] at hrest hin
      obtain ⟨tb, hfb, hj⟩ := hrest
      refine ⟨tb, hfb, ?_⟩
      exact hsteps.preserves (P := fun t => J t tb) (fun _ _ hstep h => hk.stepA h (hin tb hfb) hstep)
        (hk.appA x hj hsmall)

theorem Kept.callB (hk : Kept F I J) {b : Host F} {x : Call} (ht : Tracked I J s) (hsb : s.b = some b)
    (hin : ∀ ta, Follows s.a ta → Heard ta (input x))
    (hb : Bounded { s with b := some (b.call x) }) : Tracked I J { s with b := some (b.call x) } := by
  obtain ⟨ta, hfa, hrest⟩ := ht
  simp only [hsb] at hrest
  obtain ⟨tb, hfb, hj⟩ := hrest
  obtain ⟨tb', hsteps, hfb'⟩ := call_refines hfb x
  have hsmall := appCall_small hsteps hfb' (hb.2 _ rfl)
  refine ⟨ta, hfa, tb', hfb', ?_⟩
  exact hsteps.preserves (P := fun t => J ta t) (fun _ _ hstep h => hk.stepB h (hin ta hfa) hstep)
    (hk.appB x hj hsmall)

theorem Kept.step (hk : Kept F I J) (ht : Tracked I J s) (e : Event) (hb : Bounded (s.step e)) :
    Tracked I J (s.step e) := by
  have hc := s.step_change e
  generalize s.step e = s' at hc hb
  cases hc with
  | idle => exact ht
  | @localA x hx =>
      refine hk.callA ht ?_ hb
      split
      · exact hx
      · intro tb _
        rw [input_local hx]
        exact heard_none tb
  | @localB b x hsb hx =>
      refine hk.callB ht hsb (fun ta _ => ?_) hb
      rw [input_local hx]
      exact heard_none ta
  | heardA hsb hp hd =>
      refine hk.callA ht ?_ hb
      rw [hsb]
      exact fun tb hf => heard_of_sent hf hp hd
  | heardB hsb hp hd => exact hk.callB ht hsb (fun ta hf => heard_of_sent hf hp hd) hb
  | join hsb hp hl =>
      obtain ⟨ta, hfa, hrest⟩ := ht
      simp only [hsb] at hrest
      exact ⟨ta, hfa, hk.join hfa hrest hp hl⟩

theorem Bounded.of_step {s : System F} {e : Event} (hb : Bounded (s.step e)) : Bounded s := by
  have hcallA : ∀ x, Bounded { s with a := s.a.call x } → Bounded s := by
    intro x h
    have hle := (call_written s.a x).length_le
    exact ⟨Nat.lt_of_le_of_lt hle h.1, h.2⟩
  have hcallB : ∀ b x, s.b = some b → Bounded { s with b := some (b.call x) } → Bounded s := by
    intro b x hsb h
    refine ⟨h.1, fun b' hb' => ?_⟩
    obtain rfl : b = b' := Option.some.inj (hsb.symm.trans hb')
    exact Nat.lt_of_le_of_lt (call_written b x).length_le (h.2 _ rfl)
  have hc := s.step_change e
  generalize s.step e = s' at hc hb
  cases hc with
  | idle => exact hb
  | localA => exact hcallA _ hb
  | heardA => exact hcallA _ hb
  | localB hsb => exact hcallB _ _ hsb hb
  | heardB hsb => exact hcallB _ _ hsb hb
  | join hsb =>
      refine ⟨hb.1, fun b' hb' => ?_⟩
      rw [hsb] at hb'
      cases hb'

theorem Bounded.of_run {s : System F} {events : List Event} (hb : Bounded (s.run events)) : Bounded s := by
  induction events generalizing s with
  | nil => exact hb
  | cons e events ih => exact (ih (s := s.step e) hb).of_step

theorem Kept.run (hk : Kept F I J) (ht : Tracked I J s) (events : List Event)
    (hb : Bounded (s.run events)) : Tracked I J (s.run events) := by
  induction events generalizing s with
  | nil => exact ht
  | cons e events ih =>
      have hb' : Bounded (s.step e) := Bounded.of_run hb
      exact ih (hk.step ht e hb') hb

end System
end TcpStack
