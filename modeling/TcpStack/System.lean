import TcpStack.Coverage

/-!
# Two endpoints and a lossy network

The active opener, the passive opener once it exists, and the packets each has
put on the wire. The network delivers any packet of the peer's log, in any
order and any number of times, or never: it loses, duplicates, delays and
reorders, and it neither alters nor invents.
-/
namespace TcpStack
open Tcp

structure System (F : Type) [F64 F] where
  a : Host F
  b : Option (Host F) := none

inductive Event where
  /-- A local call at either end. -/
  | callA (x : Call)
  | callB (x : Call)
  /-- The `i`-th packet the peer has put on the wire arrives. -/
  | deliverToA (i : Nat) (now : U64) (rnd : U32)
  | deliverToB (i : Nat) (now : U64) (rnd : U32)
  /-- The `i`-th packet of the active opener arrives where nobody listens yet. -/
  | accept (i : Nat) (iss : U32) (now : U64) (rnd : U32)
  deriving DecidableEq, Repr

namespace System

variable {F : Type} [F64 F]

/-- The segment in the `i`-th packet of a log. -/
def packet (log : List Bytes) (i : Nat) : Option Segment := log[i]?.bind decode

/-- The passive open on a packet of the active opener. -/
def listen (pkt : Bytes) (iss : U32) (now : U64) (rnd : U32) : Option (Host F) :=
  match Ip.parse pkt, decode pkt with
  | .ok (.ok ip), some seg => Host.accept ip.src ip.dst seg iss now rnd
  | _, _ => none

/-- One event; an event that does not apply changes nothing. -/
def step (s : System F) : Event → System F
  | .callA x => if x.isLocal then { s with a := s.a.call x } else s
  | .callB x =>
      match s.b with
      | some b => if x.isLocal then { s with b := some (b.call x) } else s
      | none => s
  | .deliverToA i now rnd =>
      match s.b with
      | some b =>
          match packet b.emitted i with
          | some seg => { s with a := s.a.call (.onSegment seg now rnd) }
          | none => s
      | none => s
  | .deliverToB i now rnd =>
      match s.b, packet s.a.emitted i with
      | some b, some seg => { s with b := some (b.call (.onSegment seg now rnd)) }
      | _, _ => s
  | .accept i iss now rnd =>
      match s.b, s.a.emitted[i]? with
      | none, some pkt => { s with b := listen pkt iss now rnd }
      | _, _ => s

def run (s : System F) (events : List Event) : System F := events.foldl step s

/-- The active opener has just sent its SYN. -/
def init (localEnd remoteEnd : Endpoint) (iss : U32) (now : U64) (rnd : U32) : System F :=
  { a := Host.connect localEnd remoteEnd iss now rnd }

theorem run_append (s : System F) (xs ys : List Event) : s.run (xs ++ ys) = (s.run xs).run ys :=
  List.foldl_append

theorem run_localA {s : System F} {calls : List Call} (hlocal : ∀ x ∈ calls, x.isLocal = true) :
    s.run (calls.map .callA) = { s with a := s.a.run calls } := by
  induction calls generalizing s with
  | nil => rfl
  | cons x calls ih =>
      obtain ⟨hx, hrest⟩ := List.forall_mem_cons.mp hlocal
      change (s.step (.callA x)).run (calls.map .callA) = _
      rw [step, if_pos hx, ih hrest]
      rfl

theorem run_localB {s : System F} {b : Host F} (hb : s.b = some b) {calls : List Call}
    (hlocal : ∀ x ∈ calls, x.isLocal = true) : s.run (calls.map .callB) = { s with b := some (b.run calls) } := by
  induction calls generalizing s b with
  | nil =>
      rw [Host.run_nil, ← hb]
      rfl
  | cons x calls ih =>
      obtain ⟨hx, hrest⟩ := List.forall_mem_cons.mp hlocal
      have hstep : s.step (.callB x) = { s with b := some (b.call x) } := by
        simp only [step, hb, hx, if_true]
      change (s.step (.callB x)).run (calls.map .callB) = _
      rw [hstep, ih rfl hrest]
      rfl

/-- What an event can do to the system. -/
inductive Change (s : System F) : System F → Prop where
  | idle : Change s s
  | localA {x : Call} (isLocal : x.isLocal = true) : Change s { s with a := s.a.call x }
  | localB {b : Host F} {x : Call} (joined : s.b = some b) (isLocal : x.isLocal = true) :
      Change s { s with b := some (b.call x) }
  | heardA {b : Host F} {p : Bytes} {seg : Segment} {now : U64} {rnd : U32} (joined : s.b = some b)
      (sent : p ∈ b.emitted) (decoded : decode p = some seg) :
      Change s { s with a := s.a.call (.onSegment seg now rnd) }
  | heardB {b : Host F} {p : Bytes} {seg : Segment} {now : U64} {rnd : U32} (joined : s.b = some b)
      (sent : p ∈ s.a.emitted) (decoded : decode p = some seg) :
      Change s { s with b := some (b.call (.onSegment seg now rnd)) }
  | join {b : Host F} {p : Bytes} {iss : U32} {now : U64} {rnd : U32} (alone : s.b = none)
      (sent : p ∈ s.a.emitted) (listened : listen p iss now rnd = some b) : Change s { s with b := some b }

/-- What one given event can do. -/
inductive Move (s : System F) : Event → System F → Prop where
  | idle {e : Event} : Move s e s
  | localA {x : Call} (isLocal : x.isLocal = true) : Move s (.callA x) { s with a := s.a.call x }
  | localB {b : Host F} {x : Call} (joined : s.b = some b) (isLocal : x.isLocal = true) :
      Move s (.callB x) { s with b := some (b.call x) }
  | heardA {b : Host F} {p : Bytes} {seg : Segment} {i : Nat} {now : U64} {rnd : U32} (joined : s.b = some b)
      (sent : p ∈ b.emitted) (decoded : decode p = some seg) :
      Move s (.deliverToA i now rnd) { s with a := s.a.call (.onSegment seg now rnd) }
  | heardB {b : Host F} {p : Bytes} {seg : Segment} {i : Nat} {now : U64} {rnd : U32} (joined : s.b = some b)
      (sent : p ∈ s.a.emitted) (decoded : decode p = some seg) :
      Move s (.deliverToB i now rnd) { s with b := some (b.call (.onSegment seg now rnd)) }
  | join {b : Host F} {p : Bytes} {i : Nat} {iss : U32} {now : U64} {rnd : U32} (alone : s.b = none)
      (sent : p ∈ s.a.emitted) (listened : listen p iss now rnd = some b) :
      Move s (.accept i iss now rnd) { s with b := some b }

theorem Move.change {s s' : System F} {e : Event} (h : Move s e s') : Change s s' := by
  cases h with
  | idle => exact .idle
  | localA hx => exact .localA hx
  | localB hb hx => exact .localB hb hx
  | heardA hb hp hd => exact .heardA hb hp hd
  | heardB hb hp hd => exact .heardB hb hp hd
  | join hb hp hl => exact .join hb hp hl

theorem packet_sent {log : List Bytes} {i : Nat} {seg : Segment} (h : packet log i = some seg) :
    ∃ p ∈ log, decode p = some seg := by
  obtain ⟨p, hget, hd⟩ := Option.bind_eq_some_iff.mp h
  exact ⟨p, List.mem_of_getElem? hget, hd⟩

theorem step_move (s : System F) (e : Event) : Move s e (s.step e) := by
  cases e with
  | callA x =>
      simp only [step]
      split_ifs with hx
      · exact .localA hx
      · exact .idle
  | callB x =>
      cases hb : s.b with
      | none =>
          simp only [step, hb]
          exact .idle
      | some b =>
          simp only [step, hb]
          split_ifs with hx
          · exact .localB hb hx
          · exact .idle
  | deliverToA i now rnd =>
      cases hb : s.b with
      | none =>
          simp only [step, hb]
          exact .idle
      | some b =>
          cases hp : packet b.emitted i with
          | none =>
              simp only [step, hb, hp]
              exact .idle
          | some seg =>
              obtain ⟨p, hmem, hd⟩ := packet_sent hp
              have hsame : s.step (.deliverToA i now rnd) = { s with a := s.a.call (.onSegment seg now rnd) } := by
                simp only [step, hb, hp]
              rw [hsame]
              exact .heardA hb hmem hd
  | deliverToB i now rnd =>
      cases hb : s.b with
      | none =>
          simp only [step, hb]
          exact .idle
      | some b =>
          cases hp : packet s.a.emitted i with
          | none =>
              simp only [step, hb, hp]
              exact .idle
          | some seg =>
              obtain ⟨p, hmem, hd⟩ := packet_sent hp
              simp only [step, hb, hp]
              exact .heardB hb hmem hd
  | accept i iss now rnd =>
      cases hb : s.b with
      | some b =>
          simp only [step, hb]
          exact .idle
      | none =>
          cases hp : s.a.emitted[i]? with
          | none =>
              simp only [step, hb, hp]
              exact .idle
          | some pkt =>
              simp only [step, hb, hp]
              cases hl : listen (F := F) pkt iss now rnd with
              | none => exact hb ▸ .idle
              | some b => exact .join hb (List.mem_of_getElem? hp) hl

theorem step_change (s : System F) (e : Event) : Change s (s.step e) := (s.step_move e).change

/-- Fewer than 2³¹ bytes were written in each direction. -/
def Bounded (s : System F) : Prop :=
  s.a.written.length < 2 ^ 31 ∧ ∀ b, s.b = some b → b.written.length < 2 ^ 31

instance (s : System F) : Decidable (Bounded s) :=
  inferInstanceAs (Decidable (s.a.written.length < 2 ^ 31 ∧ ∀ b ∈ s.b, b.written.length < 2 ^ 31))

end System
end TcpStack
