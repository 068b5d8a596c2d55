import Mathlib.Data.Finset.Basic
import TcpStack.Address
import TcpStack.EarlyReturn

/-!
# The multi-connection server

The socket façade's server: one transport, a table of connections, and a
backlog of the ones the application has not taken yet. A poll drives all
connections, in an order that the hash map chooses anew for each loop, up to a
send that fails. While none does, the server does for one 4-tuple what a server
with that connection alone would do, so nobody else's traffic shows in it.
-/
namespace TcpStack.Socket
open Tcp Checked Main

variable {F : Type} [F64 F]

/-- The 4-tuple and the segment of a datagram. -/
def parseAny (packet : Bytes) : Checked (Option (Quad × Segment)) := do
  match ← Ip.parse packet with
  | .error _ => return none
  | .ok iph =>
      if iph.protocol ≠ 6#8 then
        return none
      let l4 ← slice packet iph.headerLen packet.length
      match ← readSegment l4 with
      | none => return none
      | some seg => return some (quadOf iph seg.th, seg)

/-- A datagram as the transport hands it over, with the random draws that the
connection it reaches would make. -/
structure Arrival where
  packet : Bytes
  iss : U32
  rnd : U32
  deriving DecidableEq, Repr

/-- Where a datagram goes. Reading never panics, so the error is no case of its own. -/
def Arrival.route (a : Arrival) : Option (Quad × Segment) :=
  match parseAny a.packet with
  | .ok r => r
  | .error _ => none

structure TcpServer (F : Type) [F64 F] where
  /-- The packets that the transport has taken, each with the 4-tuple it was sent for. -/
  sent : List (Quad × Bytes) := []
  /-- How many more it takes before a send fails; `none` when no send fails. -/
  room : Option Nat := none
  localEnd : Endpoint
  conns : Table Quad (Connection F) := ∅
  /-- Connections that just reached ESTABLISHED. -/
  backlog : List Quad := []
  /-- The 4-tuples already handed to the backlog. -/
  announced : Finset Quad := ∅

/-- What one poll meets: the clock, the datagrams that are ready, whether a
receive fails after them, how many packets the transport takes before a send
fails, and the orders of the two loops over the table. -/
structure Round (F : Type) [F64 F] where
  now : U64
  batch : List Arrival
  failed : Bool := false
  room : Option Nat := none
  timers : Table.Order Quad (Connection F) := .stored
  flushes : Table.Order Quad (Connection F) := .stored

namespace TcpServer

def bind (localEnd : Endpoint) : TcpServer F := { localEnd := localEnd }

/-- `self.io.send(..)?`: a packet that the transport does not take ends the call. -/
def put (quad : Quad) (s : TcpServer F) (packet : Bytes) : Except (TcpServer F) (TcpServer F) :=
  match s.room with
  | some 0 => .error s
  | room => .ok { s with sent := s.sent ++ [(quad, packet)], room := room.map Nat.pred }

/-- A call on the connection of a 4-tuple, and the packets it returns. -/
def drive (f : Connection F → Connection F × List Bytes) (s : TcpServer F) (quad : Quad) :
    Except (TcpServer F) (TcpServer F) :=
  match s.conns.lookup quad with
  | some conn => (f conn).2.foldlM (put quad) { s with conns := s.conns.insert quad (f conn).1 }
  | none => .ok s

def tick (s : TcpServer F) (o : Table.Order Quad (Connection F)) (now : U64) : Except (TcpServer F) (TcpServer F) :=
  (s.conns.reorder o).keys.foldlM (drive fun conn => conn.onTick now) s

/-- Route a datagram. A new connection enters the table once its SYN-ACK is sent. -/
def ingest (now : U64) (s : TcpServer F) (a : Arrival) : Except (TcpServer F) (TcpServer F) :=
  match a.route with
  | none => .ok s
  | some (quad, seg) =>
      if quad.localEnd ≠ s.localEnd then .ok s
      else if (s.conns.lookup quad).isSome then
        s.drive (fun conn => ((conn.onSegment seg now a.rnd).1, (conn.onSegment seg now a.rnd).2.toList)) quad
      else if isSyn seg.th then
        match Connection.acceptWithIssAt quad.remoteEnd.1 quad.localEnd.1 seg.th seg.opts a.iss now a.rnd with
        | some (conn, synack) => do
            let s ← s.put quad synack
            return { s with conns := s.conns.insert quad conn }
        | none => .ok s
      else .ok s

/-- Announce a connection that is established and was not announced before. -/
def announce (s : TcpServer F) (quad : Quad) : TcpServer F :=
  if (∃ conn ∈ s.conns.lookup quad, conn.state = .established) ∧ quad ∉ s.announced then
    { s with announced := insert quad s.announced, backlog := s.backlog ++ [quad] }
  else s

def flushOne (now : U64) (s : TcpServer F) (quad : Quad) : Except (TcpServer F) (TcpServer F) := do
  let s ← s.drive (fun conn => conn.pollTransmit now) quad
  return s.announce quad

def flush (s : TcpServer F) (o : Table.Order Quad (Connection F)) (now : U64) : Except (TcpServer F) (TcpServer F) :=
  (s.conns.reorder o).keys.foldlM (flushOne now) s

def reap (s : TcpServer F) : TcpServer F :=
  { s with
    conns := s.conns.retain (fun _ conn => decide (conn.state ≠ .closed))
    announced := s.conns.entries.foldl (fun announced e =>
      if e.2.state = .closed then announced.erase e.1 else announced) s.announced }

def intake (s : TcpServer F) (r : Round F) : Except (TcpServer F) (TcpServer F) := do
  let s ← tick { s with room := r.room } r.timers r.now
  r.batch.foldlM (ingest r.now) s

def pump (s : TcpServer F) (r : Round F) : Except (TcpServer F) (TcpServer F) := do
  let s ← s.intake r
  if r.failed then .error s else s.flush r.flushes r.now

/-- A transport that fails ends the poll early. -/
def poll (s : TcpServer F) (r : Round F) : TcpServer F :=
  match s.pump r with
  | .ok s => s.reap
  | .error s => s

def acceptOne (s : TcpServer F) : TcpServer F × Option Quad :=
  match s.backlog with
  | [] => (s, none)
  | quad :: backlog => ({ s with backlog }, some quad)

def send (s : TcpServer F) (quad : Quad) (data : Bytes) : TcpServer F :=
  match s.conns.lookup quad with
  | some conn => { s with conns := s.conns.insert quad (conn.write data) }
  | none => s

def recv (s : TcpServer F) (quad : Quad) : TcpServer F × Bytes :=
  match s.conns.lookup quad with
  | some conn =>
      let r := conn.takeReceived
      ({ s with conns := s.conns.insert quad r.1 }, r.2)
  | none => (s, [])

/-- The connection is closed also when its FIN is not sent. -/
def close (s : TcpServer F) (quad : Quad) (now : U64) (room : Option Nat) : TcpServer F :=
  endState (drive (fun conn => ((conn.close now).1, (conn.close now).2.toList)) { s with room } quad)

end TcpServer

/-- The calls of an application on its server. -/
inductive Event (F : Type) [F64 F] where
  | poll (r : Round F)
  | acceptOne
  | send (quad : Quad) (data : Bytes)
  | recv (quad : Quad)
  | close (quad : Quad) (now : U64) (room : Option Nat)

/-- The transport takes every packet of the call. -/
def Event.Sends : Event F → Prop
  | .poll r => r.room = none
  | .close _ _ room => room = none
  | .acceptOne | .send _ _ | .recv _ => True

instance : DecidablePred (Event.Sends (F := F))
  | .poll r => inferInstanceAs (Decidable (r.room = none))
  | .close _ _ room => inferInstanceAs (Decidable (room = none))
  | .acceptOne | .send _ _ | .recv _ => .isTrue trivial

/-- A server and what its `recv` calls have returned. -/
structure Session (F : Type) [F64 F] where
  server : TcpServer F
  received : List (Quad × Bytes) := []

namespace Session

def start (localEnd : Endpoint) : Session F := ⟨.bind localEnd, []⟩

def step (x : Session F) : Event F → Session F
  | .poll r => { x with server := x.server.poll r }
  | .acceptOne => { x with server := x.server.acceptOne.1 }
  | .send quad data => { x with server := x.server.send quad data }
  | .recv quad =>
      let r := x.server.recv quad
      ⟨r.1, x.received ++ [(quad, r.2)]⟩
  | .close quad now room => { x with server := x.server.close quad now room }

def run (x : Session F) (events : List (Event F)) : Session F := events.foldl step x

end Session

/-- What a segment does to the entry of its 4-tuple; `none` when it is ignored. -/
def routed (entry : Option (Connection F)) (quad : Quad) (seg : Segment) (a : Arrival) (now : U64) :
    Option (Connection F × Option Bytes) :=
  match entry with
  | some conn => some (conn.onSegment seg now a.rnd)
  | none =>
      if isSyn seg.th then
        (Connection.acceptWithIssAt quad.remoteEnd.1 quad.localEnd.1 seg.th seg.opts a.iss now a.rnd).map
          (fun r => (r.1, some r.2))
      else none

/-- What a server holds for one 4-tuple, and what it has sent for it. -/
@[ext] structure Slot (F : Type) [F64 F] where
  localEnd : Endpoint
  conn : Option (Connection F)
  sent : List Bytes

namespace Slot

def advance (f : Connection F → Connection F × List Bytes) (x : Slot F) : Slot F :=
  { x with
    conn := x.conn.map (fun c => (f c).1)
    sent := x.sent ++ (x.conn.map (fun c => (f c).2)).getD [] }

def ingest (q : Quad) (now : U64) (x : Slot F) (a : Arrival) : Slot F :=
  match a.route with
  | none => x
  | some (_, seg) =>
      if q.localEnd ≠ x.localEnd then x
      else
        match routed x.conn q seg a now with
        | some (conn, out) => { x with conn := some conn, sent := x.sent ++ out.toList }
        | none => x

theorem ingest_routed {q : Quad} {x : Slot F} {a : Arrival} {seg : Segment} (hroute : a.route = some (q, seg))
    (hl : q.localEnd = x.localEnd) (now : U64) : x.ingest q now a =
      (routed x.conn q seg a now).elim x fun r => { x with conn := some r.1, sent := x.sent ++ r.2.toList } := by
  simp only [ingest, hroute]
  rw [if_neg fun hne => hne hl]
  cases routed x.conn q seg a now <;> rfl

/-- What `advance` does, when the transport takes a first part of the packets. -/
structure Cut (f : Connection F → Connection F × List Bytes) (x y : Slot F) : Prop where
  localEnd : y.localEnd = x.localEnd
  conn : y.conn = x.conn.map (fun c => (f c).1)
  sent : ∃ taken, taken <+: (x.conn.map (fun c => (f c).2)).getD [] ∧ y.sent = x.sent ++ taken

theorem cut_advance (f : Connection F → Connection F × List Bytes) (x : Slot F) : Cut f x (x.advance f) :=
  ⟨rfl, rfl, _, List.prefix_rfl, rfl⟩

def reap (x : Slot F) : Slot F := { x with conn := x.conn.filter (fun c => decide (c.state ≠ .closed)) }

end Slot

/-- A call as one 4-tuple sees it. -/
inductive Own where
  | poll (now : U64) (batch : List Arrival) (failed : Bool)
  | send (data : Bytes)
  | recv
  | close (now : U64)
  deriving DecidableEq, Repr

def Arrival.isFor (q : Quad) (a : Arrival) : Bool := a.route.any (fun r => decide (r.1 = q))

/-- What of a call concerns a 4-tuple: the polls with the datagrams for it, and
the calls on it. -/
def Event.view (q : Quad) : Event F → Option Own
  | .poll r => some (.poll r.now (r.batch.filter (Arrival.isFor q)) r.failed)
  | .acceptOne => none
  | .send quad data => if quad = q then some (.send data) else none
  | .recv quad => if quad = q then some .recv else none
  | .close quad now _ => if quad = q then some (.close now) else none

/-- A slot and what the `recv` calls on it have returned. -/
@[ext] structure Solo (F : Type) [F64 F] where
  slot : Slot F
  received : List Bytes

/-- A server for one 4-tuple alone. -/
def Solo.step (q : Quad) (x : Solo F) : Own → Solo F
  | .poll now batch failed =>
      let taken := batch.foldl (Slot.ingest q now) (x.slot.advance (fun c => c.onTick now))
      { x with slot := if failed then taken else (taken.advance (fun c => c.pollTransmit now)).reap }
  | .send data => { x with slot := x.slot.advance (fun c => (c.write data, [])) }
  | .recv =>
      { slot := x.slot.advance (fun c => (c.takeReceived.1, []))
        received := x.received ++ [(x.slot.conn.map (fun c => c.takeReceived.2)).getD []] }
  | .close now => { x with slot := x.slot.advance (fun c => ((c.close now).1, (c.close now).2.toList)) }

namespace TcpServer

def slot (q : Quad) (s : TcpServer F) : Slot F := ⟨s.localEnd, s.conns.lookup q, Table.select q s.sent⟩

theorem slot_conn (q : Quad) (s : TcpServer F) : (s.slot q).conn = s.conns.lookup q := rfl

/-- The transport has taken `out` for the 4-tuple, and nothing else has changed. -/
structure Took (quad : Quad) (out : List Bytes) (s s' : TcpServer F) : Prop where
  eq : s' = { s with sent := s.sent ++ out.map (Prod.mk quad), room := s'.room }
  room : s.room = none → s'.room = none

theorem put_leaves (quad : Quad) (s : TcpServer F) (packet : Bytes) :
    Leaves (Took quad [packet] s) (fun s' => s.room ≠ none ∧ s' = s) (s.put quad packet) := by
  unfold put
  split
  · rename_i hroom
    exact ⟨by rw [hroom]; exact Option.some_ne_none 0, rfl⟩
  · exact ⟨rfl, fun h => by rw [h]; rfl⟩

theorem puts_leaves (quad : Quad) (s : TcpServer F) (out : List Bytes) :
    Leaves (Took quad out s) (fun s' => s.room ≠ none ∧ ∃ taken, taken <+: out ∧ Took quad taken s s')
      (out.foldlM (put quad) s) := by
  have hloop := Leaves.foldlM (g := put quad) (l := out) (s := s)
    (I := fun rest s' => ∃ taken, taken ++ rest = out ∧ Took quad taken s s')
    (Q := fun s' => s.room ≠ none ∧ ∃ taken, taken <+: out ∧ Took quad taken s s') ?_
    ⟨[], rfl, by simp, id⟩
  · refine hloop.mono ?_ fun _ h => h
    rintro s' ⟨taken, rfl, htook⟩
    rwa [List.append_nil]
  · rintro packet rest s' ⟨taken, rfl, htook⟩
    refine (put_leaves quad s' packet).mono (fun s'' h =>
      ⟨taken ++ [packet], by simp, ?_, fun hroom => h.room (htook.room hroom)⟩)
      ?_
    · rw [h.eq, htook.eq]
      simp
    · rintro s'' ⟨hroom, rfl⟩
      exact ⟨mt htook.room hroom, taken, List.prefix_append .., htook⟩

/-- A call has done `R` to the slot of a 4-tuple and nothing to the others. -/
structure Did (R : Slot F → Slot F → Prop) (quad : Quad) (s s' : TcpServer F) : Prop where
  own : R (s.slot quad) (s'.slot quad)
  others : ∀ q, q ≠ quad → s'.slot q = s.slot q
  room : s.room = none → s'.room = none

theorem slot_replace (q quad : Quad) {s s' : TcpServer F} {conn : Connection F} {out : List Bytes}
    (h : Took quad out { s with conns := s.conns.insert quad conn } s') : s'.slot q =
      if quad = q then { s.slot q with conn := some conn, sent := (s.slot q).sent ++ out } else s.slot q := by
  rw [h.eq]
  split_ifs with hq
  · subst hq
    simp only [slot, AList.lookup_insert, Table.select_append, Table.select_tag]
  · simp only [slot, AList.lookup_insert_ne (Ne.symm hq), Table.select_append,
      Table.select_tag_ne hq, List.append_nil]

theorem drive_leaves (f : Connection F → Connection F × List Bytes) (s : TcpServer F) (quad : Quad) :
    Leaves (Did (fun x y => y = x.advance f) quad s) (fun s' => s.room ≠ none ∧ Did (Slot.Cut f) quad s s')
      (s.drive f quad) := by
  unfold drive
  cases hc : s.conns.lookup quad with
  | none =>
      refine ⟨?_, fun _ _ => rfl, id⟩
      simp [slot, Slot.advance, hc]
  | some conn =>
      have hslot : ∀ {taken : List Bytes} {s' : TcpServer F},
          Took quad taken { s with conns := s.conns.insert quad (f conn).1 } s' →
          s'.slot quad = { s.slot quad with conn := some (f conn).1, sent := (s.slot quad).sent ++ taken } ∧
            ∀ q, q ≠ quad → s'.slot q = s.slot q := fun h =>
        ⟨(slot_replace quad quad h).trans (if_pos rfl), fun q hq => (slot_replace q quad h).trans (if_neg hq.symm)⟩
      refine (puts_leaves quad _ (f conn).2).mono (fun s' h => ⟨?_, (hslot h).2, h.room⟩) ?_
      · rw [(hslot h).1]
        simp [slot, Slot.advance, hc]
      · rintro s' ⟨hroom, taken, hpre, h⟩
        refine ⟨hroom, ⟨?_, ?_, taken, ?_, ?_⟩, (hslot h).2, h.room⟩
        · rw [(hslot h).1]
        · rw [(hslot h).1, slot_conn, hc]
          rfl
        · rwa [slot_conn, hc]
        · rw [(hslot h).1]

theorem drive_did (f : Connection F → Connection F × List Bytes) (s : TcpServer F) (quad : Quad) :
    Did (Slot.Cut f) quad s (endState (s.drive f quad)) :=
  ((drive_leaves f s quad).mono (fun _ h => ⟨h.own ▸ Slot.cut_advance f _, h.others, h.room⟩) fun _ h => h.2).endState

theorem loop_leaves {f : Connection F → Connection F × List Bytes}
    {g : TcpServer F → Quad → Except (TcpServer F) (TcpServer F)}
    (hg : ∀ s quad, Leaves (Did (fun x y => y = x.advance f) quad s)
      (fun s' => s.room ≠ none ∧ Did (Slot.Cut f) quad s s') (g s quad))
    (s : TcpServer F) (o : Table.Order Quad (Connection F)) :
    Leaves (fun s' => (s.room = none → s'.room = none) ∧ ∀ q, s'.slot q = (s.slot q).advance f)
      (fun s' => s.room ≠ none ∧ ∀ q, s'.slot q = s.slot q ∨ (s.slot q).Cut f (s'.slot q))
      ((s.conns.reorder o).keys.foldlM g s) := by
  have hloop := Leaves.foldlM (g := g) (l := (s.conns.reorder o).keys) (s := s)
    (I := fun rest s' => rest.Nodup ∧ (s.room = none → s'.room = none) ∧ (∀ q ∈ rest, s'.slot q = s.slot q) ∧
      ∀ q ∉ rest, s'.slot q = (s.slot q).advance f)
    (Q := fun s' => s.room ≠ none ∧ ∀ q, s'.slot q = s.slot q ∨ (s.slot q).Cut f (s'.slot q)) ?_ ?_
  · exact hloop.mono (fun s' h => ⟨h.2.1, fun q => h.2.2.2 q List.not_mem_nil⟩) fun _ h => h
  · rintro quad rest s' ⟨hnodup, hroom, hrest, hdone⟩
    obtain ⟨hout, hnodup⟩ := List.nodup_cons.mp hnodup
    refine (hg s' quad).mono (fun s'' h => ⟨hnodup, fun hr => h.room (hroom hr), fun q hq => ?_, fun q hq => ?_⟩) ?_
    · rw [h.others q (ne_of_mem_of_not_mem hq hout), hrest q (List.mem_cons_of_mem _ hq)]
    · by_cases heq : q = quad
      · subst heq
        rw [h.own, hrest q List.mem_cons_self]
      · rw [h.others q heq, hdone q fun hmem => (List.mem_cons.mp hmem).elim heq hq]
    · rintro s'' ⟨hne, h⟩
      refine ⟨mt hroom hne, fun q => ?_⟩
      by_cases heq : q = quad
      · subst heq
        exact .inr (hrest q List.mem_cons_self ▸ h.own)
      · rw [h.others q heq]
        by_cases hmem : q ∈ rest
        · exact .inl (hrest q (List.mem_cons_of_mem _ hmem))
        · rw [hdone q fun hcons => (List.mem_cons.mp hcons).elim heq hmem]
          exact .inr (Slot.cut_advance f _)
  · refine ⟨AList.keys_nodup _, id, fun _ _ => rfl, fun q hq => ?_⟩
    have hnone : s.conns.lookup q = none := by
      rw [← Table.lookup_reorder o]
      exact AList.lookup_eq_none.mpr hq
    simp [slot, Slot.advance, hnone]

theorem tick_leaves (s : TcpServer F) (o : Table.Order Quad (Connection F)) (now : U64) :
    Leaves (fun s' => (s.room = none → s'.room = none) ∧ ∀ q, s'.slot q = (s.slot q).advance (fun c => c.onTick now))
      (fun s' => s.room ≠ none ∧ ∀ q, s'.slot q = s.slot q ∨ (s.slot q).Cut (fun c => c.onTick now) (s'.slot q))
      (s.tick o now) :=
  loop_leaves (drive_leaves _) s o

theorem slot_announce (q : Quad) (s : TcpServer F) (quad : Quad) :
    (s.announce quad).slot q = s.slot q ∧ (s.announce quad).room = s.room := by
  unfold announce
  split_ifs <;> exact ⟨rfl, rfl⟩

theorem flushOne_leaves (now : U64) (s : TcpServer F) (quad : Quad) :
    Leaves (Did (fun x y => y = x.advance (fun c => c.pollTransmit now)) quad s)
      (fun s' => s.room ≠ none ∧ Did (Slot.Cut (fun c => c.pollTransmit now)) quad s s') (s.flushOne now quad) := by
  refine (drive_leaves (fun c => c.pollTransmit now) s quad).bind fun s' h => ?_
  refine ⟨?_, fun q hq => (slot_announce q s' quad).1.trans (h.others q hq), fun hroom => ?_⟩
  · rw [(slot_announce quad s' quad).1, h.own]
  · exact (slot_announce quad s' quad).2.trans (h.room hroom)

theorem flush_leaves (s : TcpServer F) (o : Table.Order Quad (Connection F)) (now : U64) :
    Leaves (fun s' => (s.room = none → s'.room = none) ∧
        ∀ q, s'.slot q = (s.slot q).advance (fun c => c.pollTransmit now))
      (fun s' => s.room ≠ none ∧ ∀ q, s'.slot q = s.slot q ∨ (s.slot q).Cut (fun c => c.pollTransmit now) (s'.slot q))
      (s.flush o now) :=
  loop_leaves (flushOne_leaves now) s o

theorem slots_ingest {s s' : TcpServer F} {a : Arrival} {quad : Quad} {seg : Segment} {now : U64}
    (hroute : a.route = some (quad, seg)) (hown : s'.slot quad = (s.slot quad).ingest quad now a)
    (hothers : ∀ q, q ≠ quad → s'.slot q = s.slot q) (q : Quad) :
    s'.slot q = if a.isFor q then (s.slot q).ingest q now a else s.slot q := by
  have hfor : a.isFor q = decide (quad = q) := by simp [Arrival.isFor, hroute]
  by_cases hq : quad = q
  · subst hq
    rw [hown, hfor, decide_eq_true rfl, if_pos rfl]
  · rw [hothers q (Ne.symm hq), hfor, decide_eq_false hq, if_neg Bool.false_ne_true]

theorem admit_leaves (quad : Quad) (s : TcpServer F) (conn : Connection F) (synack : Bytes) :
    Leaves (fun s' => (s.room = none → s'.room = none) ∧
        s'.slot quad = { s.slot quad with conn := some conn, sent := (s.slot quad).sent ++ [synack] } ∧
        ∀ q, q ≠ quad → s'.slot q = s.slot q)
      (fun s' => s.room ≠ none ∧ s' = s)
      (do
        let s ← s.put quad synack
        return { s with conns := s.conns.insert quad conn }) := by
  refine Leaves.bind ((put_leaves quad s synack).mono (fun _ h => h) fun _ h => h) fun s' h => ?_
  have htook : Took quad [synack] { s with conns := s.conns.insert quad conn }
      { s' with conns := s'.conns.insert quad conn } := ⟨by rw [h.eq], h.room⟩
  refine ⟨h.room, ?_, fun q hq => (slot_replace q quad htook).trans (if_neg hq.symm)⟩
  rw [slot_replace quad quad htook, if_pos rfl]

/-- A datagram is nothing to the other 4-tuples. When its answer is not taken, a
connection has it all the same, and a SYN opens none. -/
theorem ingest_leaves (now : U64) (s : TcpServer F) (a : Arrival) :
    Leaves (fun s' => (s.room = none → s'.room = none) ∧
        ∀ q, s'.slot q = if a.isFor q then (s.slot q).ingest q now a else s.slot q)
      (fun s' => s.room ≠ none ∧ ∃ quad seg, a.route = some (quad, seg) ∧
        Did (fun x y => y = x ∨ (x.conn.isSome = true ∧
          x.Cut (fun c => ((c.onSegment seg now a.rnd).1, (c.onSegment seg now a.rnd).2.toList)) y)) quad s s')
      (s.ingest now a) := by
  unfold ingest
  cases hroute : a.route with
  | none =>
      refine ⟨id, fun q => ?_⟩
      simp [Arrival.isFor, hroute]
  | some e =>
      obtain ⟨quad, seg⟩ := e
      dsimp only
      split_ifs with hl hsome hsyn
      · refine ⟨id, slots_ingest hroute ?_ fun _ _ => rfl⟩
        simp only [Slot.ingest, hroute]
        exact (if_pos hl).symm
      · obtain ⟨c, hc⟩ := Option.isSome_iff_exists.mp hsome
        refine (drive_leaves _ s quad).mono (fun s' h => ⟨h.room, slots_ingest hroute ?_ h.others⟩) fun s' h =>
          ⟨h.1, quad, seg, rfl, .inr ⟨hsome, h.2.own⟩, h.2.others, h.2.room⟩
        rw [h.own, Slot.ingest_routed hroute (not_not.mp hl), slot_conn, hc]
        simp only [Slot.advance, slot_conn, hc]
        rfl
      · have hnone : s.conns.lookup quad = none := by simpa using hsome
        have hrouted := Slot.ingest_routed (x := s.slot quad) hroute (not_not.mp hl) now
        rw [slot_conn, hnone, routed, if_pos hsyn] at hrouted
        cases hacc : Connection.acceptWithIssAt (F := F) quad.remoteEnd.1 quad.localEnd.1 seg.th seg.opts
          a.iss now a.rnd with
        | none =>
            rw [hacc] at hrouted
            exact ⟨id, slots_ingest hroute hrouted.symm fun _ _ => rfl⟩
        | some r =>
            rw [hacc] at hrouted
            refine (admit_leaves quad s r.1 r.2).mono
              (fun s' h => ⟨h.1, slots_ingest hroute (h.2.1.trans hrouted.symm) h.2.2⟩) ?_
            rintro s' ⟨hroom, rfl⟩
            exact ⟨hroom, quad, seg, rfl, .inl rfl, fun _ _ => rfl, id⟩
      · have hnone : s.conns.lookup quad = none := by simpa using hsome
        refine ⟨id, slots_ingest hroute ?_ fun _ _ => rfl⟩
        rw [Slot.ingest_routed hroute (not_not.mp hl), slot_conn, hnone, routed, if_neg hsyn]
        rfl

theorem intake_leaves (s : TcpServer F) (r : Round F) :
    Leaves (fun s' => (r.room = none → s'.room = none) ∧ ∀ q, s'.slot q =
        (r.batch.filter (Arrival.isFor q)).foldl (Slot.ingest q r.now) ((s.slot q).advance (fun c => c.onTick r.now)))
      (fun _ => r.room ≠ none) (s.intake r) := by
  unfold intake
  refine Leaves.bind ((tick_leaves { s with room := r.room } r.timers r.now).mono (fun _ h => h) fun _ h => h.1)
    fun s₁ h₁ => ?_
  have hloop := Leaves.foldlM (g := ingest r.now) (l := r.batch) (s := s₁)
    (I := fun rest s' => (r.room = none → s'.room = none) ∧
      ∀ q, (rest.filter (Arrival.isFor q)).foldl (Slot.ingest q r.now) (s'.slot q) =
        (r.batch.filter (Arrival.isFor q)).foldl (Slot.ingest q r.now) ((s.slot q).advance (fun c => c.onTick r.now)))
    (Q := fun _ => r.room ≠ none) ?_ ⟨h₁.1, fun q => by rw [h₁.2 q]; rfl⟩
  · exact hloop
  · intro a rest s' h
    refine (ingest_leaves r.now s' a).mono (fun s'' h' => ⟨fun hroom => h'.1 (h.1 hroom), fun q => ?_⟩) fun s'' h' =>
      mt h.1 h'.1
    rw [h'.2 q, ← h.2 q, List.filter_cons]
    split_ifs <;> rfl

theorem slot_reap (q : Quad) (s : TcpServer F) : s.reap.slot q = (s.slot q).reap := by
  simp only [slot, reap, Slot.reap, Table.lookup_retain]

theorem slot_poll (q : Quad) (s : TcpServer F) {r : Round F} (hroom : r.room = none) : (s.poll r).slot q =
    let taken := (r.batch.filter (Arrival.isFor q)).foldl (Slot.ingest q r.now)
        ((s.slot q).advance (fun c => c.onTick r.now))
    if r.failed then taken else (taken.advance (fun c => c.pollTransmit r.now)).reap := by
  have hintake := s.intake_leaves r
  unfold poll pump
  cases hx : s.intake r with
  | error s' =>
      rw [hx] at hintake
      exact absurd hroom hintake
  | ok s' =>
      rw [hx] at hintake
      obtain ⟨hroom', hslot⟩ := hintake
      have hflush := s'.flush_leaves r.flushes r.now
      rw [show (Except.ok s' >>= fun s => if r.failed then .error s else s.flush r.flushes r.now) =
        if r.failed then .error s' else s'.flush r.flushes r.now from rfl]
      split_ifs with hf
      · rw [← hslot q]
      · cases hy : s'.flush r.flushes r.now with
        | error s'' =>
            rw [hy] at hflush
            exact absurd (hroom' hroom) hflush.1
        | ok s'' =>
            rw [hy] at hflush
            change s''.reap.slot q = _
            rw [slot_reap, hflush.2 q, hslot q]

theorem slot_drive (q quad : Quad) (s : TcpServer F) {f : Connection F → Connection F × List Bytes}
    (h : s.room = none ∨ ∀ c, (f c).2 = []) :
    (endState (s.drive f quad)).slot q = if quad = q then (s.slot q).advance f else s.slot q := by
  have hdid : Did (fun x y => y = x.advance f) quad s (endState (s.drive f quad)) := by
    refine ((drive_leaves f s quad).mono (fun _ h => h) fun s' hcut => ?_).endState
    rcases h with hroom | hsilent
    · exact absurd hroom hcut.1
    · obtain ⟨out, hpre, hsent⟩ := hcut.2.own.sent
      have hnil : ((s.slot quad).conn.map (fun c => (f c).2)).getD [] = [] := by
        cases (s.slot quad).conn with
        | none => rfl
        | some c => exact hsilent c
      rw [hnil, List.prefix_nil] at hpre
      refine ⟨Slot.ext hcut.2.own.localEnd hcut.2.own.conn ?_, hcut.2.others, hcut.2.room⟩
      rw [hsent, hpre, Slot.advance, hnil]
  split_ifs with hq
  · subst hq
    exact hdid.own
  · exact hdid.others q (Ne.symm hq)

theorem send_eq (s : TcpServer F) (quad : Quad) (data : Bytes) :
    s.send quad data = endState (s.drive (fun c => (c.write data, [])) quad) := by
  unfold send drive
  cases s.conns.lookup quad <;> rfl

theorem slot_send (q quad : Quad) (s : TcpServer F) (data : Bytes) : (s.send quad data).slot q =
    if quad = q then (s.slot q).advance (fun c => (c.write data, [])) else s.slot q := by
  rw [send_eq]
  exact slot_drive q quad s (.inr fun c => rfl)

theorem recv_eq (s : TcpServer F) (quad : Quad) : s.recv quad =
    (endState (s.drive (fun c => (c.takeReceived.1, [])) quad),
      ((s.slot quad).conn.map (fun c => c.takeReceived.2)).getD []) := by
  simp only [recv, drive, slot_conn]
  cases s.conns.lookup quad <;> rfl

theorem slot_recv (q quad : Quad) (s : TcpServer F) : (s.recv quad).1.slot q =
    if quad = q then (s.slot q).advance (fun c => (c.takeReceived.1, [])) else s.slot q := by
  rw [recv_eq]
  exact slot_drive q quad s (.inr fun c => rfl)

end TcpServer

namespace Session

def solo (q : Quad) (x : Session F) : Solo F := ⟨x.server.slot q, Table.select q x.received⟩

theorem solo_step (q : Quad) (x : Session F) {e : Event F} (hsends : e.Sends) :
    (x.step e).solo q = match e.view q with
      | some v => (x.solo q).step q v
      | none => x.solo q := by
  cases e with
  | poll r => simp only [step, solo, Event.view, Solo.step, TcpServer.slot_poll q x.server hsends]
  | acceptOne =>
      simp only [step, solo, Event.view, TcpServer.acceptOne]
      split <;> rfl
  | send quad data =>
      simp only [step, solo, Event.view, TcpServer.slot_send]
      split_ifs <;> rfl
  | recv quad =>
      have hbytes : (x.server.recv quad).2 = ((x.server.slot quad).conn.map (fun c => c.takeReceived.2)).getD [] :=
        congrArg Prod.snd (x.server.recv_eq quad)
      simp only [step, solo, Event.view, TcpServer.slot_recv, hbytes, Table.select_append]
      split_ifs with hq
      · subst hq
        simp only [Solo.step]
        exact congrArg (fun bytes => Solo.mk _ (_ ++ bytes)) (Table.select_tag quad [_])
      · exact congrArg (Solo.mk _) ((congrArg (_ ++ ·) (Table.select_tag_ne hq [_])).trans (List.append_nil _))
  | close quad now room =>
      simp only [step, solo, Event.view, TcpServer.close,
        TcpServer.slot_drive q quad { x.server with room } (.inl hsends)]
      split_ifs <;> rfl

theorem solo_run (q : Quad) (x : Session F) {events : List (Event F)} (hsends : ∀ e ∈ events, e.Sends) :
    (x.run events).solo q = (events.filterMap (Event.view q)).foldl (Solo.step q) (x.solo q) := by
  induction events generalizing x with
  | nil => rfl
  | cons e events ih =>
      obtain ⟨hfirst, hrest⟩ := List.forall_mem_cons.mp hsends
      have hstep := solo_step q x hfirst
      rw [run, List.foldl_cons, ← run, ih _ hrest]
      cases hv : e.view q with
      | none =>
          rw [hv] at hstep
          rw [List.filterMap_cons_none hv, hstep]
      | some v =>
          rw [hv] at hstep
          rw [List.filterMap_cons_some hv, List.foldl_cons, hstep]

end Session

theorem parseAny_returns (packet : Bytes) : (parseAny packet).Returns fun r =>
    ∀ e ∈ r, ∃ iph, e.1 = quadOf iph e.2.th := by
  have hnone : ∀ e ∈ (none : Option (Quad × Segment)), ∃ iph, e.1 = quadOf iph e.2.th := fun e he => nomatch he
  unfold parseAny
  by_cases h : Accepted packet
  · obtain ⟨iph, hip, hlen, -⟩ := parse_accepted h
    have hfits : iph.headerLen ≤ packet.length := hlen ▸ h.fits
    rw [hip, Checked.ok_bind]
    dsimp only
    split_ifs
    · exact .pure hnone
    · refine (slice_returns hfits (Nat.le_refl _)).bind fun l4 _ => ?_
      refine (readSegment_returns l4).bind fun r _ => ?_
      cases r with
      | none => exact .pure hnone
      | some seg =>
          refine .pure fun e he => ⟨iph, ?_⟩
          rw [← Option.some.inj he]
  · obtain ⟨e, he⟩ := parse_rejected h
    rw [he, Checked.ok_bind]
    exact .pure hnone

theorem Arrival.route_ports {a : Arrival} {q : Quad} {seg : Segment} (h : a.route = some (q, seg)) :
    q.remoteEnd.2 = seg.th.srcPort ∧ q.localEnd.2 = seg.th.dstPort := by
  obtain ⟨r, hr, hquad⟩ := parseAny_returns a.packet
  rw [Arrival.route, hr] at h
  obtain ⟨iph, hq⟩ := hquad _ h
  dsimp only at hq
  rw [hq]
  exact ⟨rfl, rfl⟩

theorem parseAny_addressed {q : Quad} {p : Bytes} (h : Addressed q p) : ∃ seg,
    parseAny p = .ok (some (q.flip, seg)) := by
  obtain ⟨seg, hdr, hu⟩ := h
  refine ⟨seg, ?_⟩
  simp only [parseAny, hu.ip, Checked.ok_bind, hu.protocol, ne_eq, not_true_eq_false, if_false, hu.headerLen, hu.l4,
    hu.segment, hu.quad, Checked.pure_eq, Quad.flip]

def Performs (x : Call) (f : Connection F → Connection F × List Bytes) : Prop :=
  ∀ h : Host F, (h.call x).conn = (f h.conn).1 ∧ (h.call x).emitted = h.emitted ++ (f h.conn).2

theorem performs_onTick (now : U64) : Performs (.onTick now) (fun c : Connection F => c.onTick now) := by
  intro h
  simp only [Host.call, and_self]

theorem performs_close (now : U64) :
    Performs (.close now) (fun c : Connection F => ((c.close now).1, (c.close now).2.toList)) := by
  intro h
  simp only [Host.call]
  split <;> rename_i heq <;> simp [heq]

/-- The connection of the slot was opened for its 4-tuple, and all that was sent
is addressed to the peer. -/
structure Slot.Sound (q : Quad) (x : Slot F) : Prop where
  opened : ∀ c, x.conn = some c → ∃ (h : Host F) (calls : List Call), Host.Fresh h ∧ Host.Serves q h ∧
    (h.run calls).conn = c
  sent : ∀ p ∈ x.sent, Addressed q p

namespace Slot.Sound

variable {q : Quad} {x : Slot F}

theorem advance (hx : Sound q x) {y : Call} {f : Connection F → Connection F × List Bytes} (hf : Performs y f) :
    Sound q (x.advance f) := by
  cases hc : x.conn with
  | none =>
      refine ⟨fun c h => ?_, fun p hp => hx.sent p ?_⟩
      · simp [Slot.advance, hc] at h
      · simpa [Slot.advance, hc] using hp
  | some c =>
      obtain ⟨h, calls, hfresh, hserves, rfl⟩ := hx.opened c hc
      obtain ⟨hconn, hout⟩ := hf (h.run calls)
      have hrun : h.run (calls ++ [y]) = (h.run calls).call y := Host.run_append h calls [y]
      have hall := Host.run_serves hserves hfresh.capped hfresh.follows hfresh.stream (calls ++ [y])
      refine ⟨fun c' h' => ⟨h, calls ++ [y], hfresh, hserves, ?_⟩, fun p hp => ?_⟩
      · rw [hrun, hconn]
        simpa [Slot.advance, hc] using h'
      · simp only [Slot.advance, hc, Option.map_some, Option.getD_some] at hp
        rcases List.mem_append.mp hp with hp | hp
        · exact hx.sent p hp
        · apply hall.emitted
          rw [hrun, hout]
          exact List.mem_append_right _ hp

theorem accept (hx : Sound q x) {seg : Segment} {iss : U32} {now : U64} {rnd : U32} {r : Connection F × Bytes}
    (hports : q.remoteEnd.2 = seg.th.srcPort ∧ q.localEnd.2 = seg.th.dstPort)
    (h : Connection.acceptWithIssAt q.remoteEnd.1 q.localEnd.1 seg.th seg.opts iss now rnd = some r) :
    Sound q { x with conn := some r.1, sent := x.sent ++ [r.2] } := by
  have hacc : Host.accept q.remoteEnd.1 q.localEnd.1 seg iss now rnd = some { conn := r.1, emitted := [r.2] } := by
    rw [Host.accept, h]
    rfl
  have hserves := Host.accept_serves hports.1 hports.2 hacc
  refine ⟨fun c hc => ?_, fun p hp => ?_⟩
  · obtain rfl := Option.some.inj hc
    exact ⟨_, [], .accept _ _ seg iss now rnd hacc, hserves, rfl⟩
  · rcases List.mem_append.mp hp with hp | hp
    · exact hx.sent p hp
    · exact hserves.emitted p hp

theorem ingest (hx : Sound q x) {a : Arrival} (ha : a.isFor q = true) (now : U64) : Sound q (x.ingest q now a) := by
  unfold Slot.ingest
  unfold Arrival.isFor at ha
  cases hroute : a.route with
  | none => exact hx
  | some r =>
      obtain ⟨quad, seg⟩ := r
      rw [hroute, Option.any_some, decide_eq_true_eq] at ha
      subst ha
      dsimp only
      split_ifs
      · exact hx
      · cases hc : x.conn with
        | some c =>
            have hadv := hx.advance (y := .onSegment seg now a.rnd)
              (f := fun c => ((c.onSegment seg now a.rnd).1, (c.onSegment seg now a.rnd).2.toList)) fun h =>
              ⟨rfl, rfl⟩
            simpa [routed, Slot.advance, hc] using hadv
        | none =>
            unfold routed
            dsimp only
            split_ifs
            · cases hacc : Connection.acceptWithIssAt (F := F) quad.remoteEnd.1 quad.localEnd.1
                seg.th seg.opts a.iss now
                a.rnd with
              | none => exact hx
              | some r => exact hx.accept (Arrival.route_ports hroute) hacc
            · exact hx

theorem reap (hx : Sound q x) : Sound q x.reap := by
  refine ⟨fun c h => hx.opened c ?_, hx.sent⟩
  exact (Option.filter_eq_some_iff.mp h).1

end Slot.Sound

def Own.Meant (q : Quad) : Own → Prop
  | .poll _ batch _ => ∀ a ∈ batch, a.isFor q = true
  | _ => True

theorem Event.view_meant {q : Quad} {e : Event F} {v : Own} (h : e.view q = some v) : v.Meant q := by
  cases e with
  | poll r =>
      obtain rfl := Option.some.inj h
      exact fun a ha => (List.mem_filter.mp ha).2
  | acceptOne => cases h
  | send | recv | close =>
      simp only [Event.view] at h
      split_ifs at h
      obtain rfl := Option.some.inj h
      trivial

theorem Solo.step_sound {q : Quad} {x : Solo F} (hx : x.slot.Sound q) {v : Own} (hv : v.Meant q) :
    (x.step q v).slot.Sound q := by
  cases v with
  | poll now batch failed =>
      have htaken : ∀ (batch : List Arrival) {y : Slot F}, y.Sound q → (∀ a ∈ batch, a.isFor q = true) →
          (batch.foldl (Slot.ingest q now) y).Sound q := by
        intro batch
        induction batch with
        | nil => exact fun hy _ => hy
        | cons a batch ih =>
            intro y hy hall
            exact ih (hy.ingest (hall a List.mem_cons_self) now) fun b hb => hall b (List.mem_cons_of_mem _ hb)
      have hbatch := htaken batch (hx.advance (performs_onTick now)) hv
      simp only [Solo.step]
      split_ifs
      · exact hbatch
      · exact (hbatch.advance (y := .pollTransmit now) fun h => ⟨rfl, rfl⟩).reap
  | send data => exact hx.advance (y := .write data) fun h => ⟨rfl, (List.append_nil _).symm⟩
  | recv => exact hx.advance (y := .takeReceived) fun h => ⟨rfl, (List.append_nil _).symm⟩
  | close now => exact hx.advance (performs_close now)

theorem Session.run_sound {q : Quad} {x : Session F} (hx : (x.solo q).slot.Sound q) {events : List (Event F)}
    (hsends : ∀ e ∈ events, e.Sends) : ((x.run events).solo q).slot.Sound q := by
  induction events generalizing x with
  | nil => exact hx
  | cons e events ih =>
      obtain ⟨hfirst, hrest⟩ := List.forall_mem_cons.mp hsends
      refine ih ?_ hrest
      rw [Session.solo_step q x hfirst]
      cases hv : e.view q with
      | none => exact hx
      | some v => exact Solo.step_sound hx (Event.view_meant hv)

/-- While no send fails, two runs that differ only in what concerns other
4-tuples leave the same connection, have returned the same bytes and have sent
the same packets, all from our end of the 4-tuple to the peer's. -/
theorem connections_do_not_interfere (localEnd : Endpoint) (q : Quad) {events₁ events₂ : List (Event F)}
    (hsends : ∀ e ∈ events₁ ++ events₂, e.Sends)
    (h : events₁.filterMap (Event.view q) = events₂.filterMap (Event.view q)) :
    let x₁ := (Session.start localEnd).run events₁
    let x₂ := (Session.start localEnd).run events₂
    x₁.server.conns.lookup q = x₂.server.conns.lookup q ∧
      Table.select q x₁.received = Table.select q x₂.received ∧
      Table.select q x₁.server.sent = Table.select q x₂.server.sent ∧
      ∀ p ∈ Table.select q x₁.server.sent, ∃ seg,
        parseAny p = .ok (some ({ remoteEnd := q.localEnd, localEnd := q.remoteEnd }, seg)) := by
  intro x₁ x₂
  have hsends₁ : ∀ e ∈ events₁, e.Sends := fun e he => hsends e (List.mem_append_left _ he)
  have hsends₂ : ∀ e ∈ events₂, e.Sends := fun e he => hsends e (List.mem_append_right _ he)
  have heq : x₁.solo q = x₂.solo q := by
    rw [Session.solo_run q _ hsends₁, Session.solo_run q _ hsends₂, h]
  have hslot : x₁.server.slot q = x₂.server.slot q := congrArg Solo.slot heq
  have hstart : ((Session.start (F := F) localEnd).solo q).slot.Sound q :=
    ⟨fun c hc => (nomatch hc), fun p hp => (nomatch hp)⟩
  refine ⟨congrArg Slot.conn hslot, congrArg Solo.received heq, congrArg Slot.sent hslot, fun p hp => ?_⟩
  exact parseAny_addressed ((Session.run_sound hstart hsends₁).sent p hp)

/-- The address of a server to evaluate, and two clients of it. -/
def sampleEnd : Endpoint := (Ipv4Addr.new 192#8 168#8 0#8 2#8, 80#16)
def clientA : Quad := ⟨(Ipv4Addr.new 192#8 168#8 0#8 1#8, 40001#16), sampleEnd⟩
def clientB : Quad := ⟨(Ipv4Addr.new 192#8 168#8 0#8 1#8, 40002#16), sampleEnd⟩

/-- A datagram from a client; a connection it opens starts at 100. -/
def sampleArrival (q : Quad) (flags : U8) (seq ack : U32) (payload : Bytes) : Arrival :=
  ⟨buildPacket q.remoteEnd q.localEnd seq ack flags 1024#16 [] payload, 100#32, 0#32⟩

/-- Client A opens and sends a byte, with what else arrives in the two polls. -/
def sampleEvents (first second : List Arrival) : List (Event Rat) :=
  [.poll { now := 0#64, batch := sampleArrival clientA SYN 500#32 0#32 [] :: first },
    .poll { now := 1#64, batch := second ++ [sampleArrival clientA ACK 501#32 101#32 [],
      sampleArrival clientA (PSH ||| ACK) 501#32 101#32 [7#8]] },
    .recv clientA]

theorem second_client_does_not_interfere :
    let x := (Session.start sampleEnd).run (sampleEvents [sampleArrival clientB SYN 900#32 0#32 []]
      [sampleArrival clientB ACK 901#32 101#32 []])
    Table.select clientA x.received = [[7#8]] ∧ (x.server.conns.lookup clientB).isSome ∧
      x.server.conns.lookup clientA =
        ((Session.start sampleEnd).run (sampleEvents [] [])).server.conns.lookup clientA :=
  ⟨by decide +kernel, by decide +kernel, (connections_do_not_interfere sampleEnd clientA (by decide +kernel)
    (by decide +kernel)).1⟩

end TcpStack.Socket
