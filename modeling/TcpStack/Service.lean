import TcpStack.Sockets

/-!
# A socket and the multi-connection server

A stream that connects to the server of many connections, and a network between
the two that loses, duplicates, delays and reorders. The server's application
drives any number of other connections meanwhile, on arbitrary datagrams. As long
as a poll does not reap the client's connection, the two applications read what
the other one has sent.
-/
namespace TcpStack.Socket
open Tcp Checked Main

variable {F : Type} [F64 F]

structure Service (F : Type) [F64 F] where
  client : Held F
  session : Session F
  /-- What the server's application has sent on the client's connection. -/
  said : Bytes := []

/-- A datagram of a batch. -/
inductive Delivery where
  /-- The `i`-th packet that the client's transport took. -/
  | mail (i : Nat) (iss : U32) (rnd : U32)
  /-- A datagram of anybody for another 4-tuple. -/
  | stray (a : Arrival)
  deriving DecidableEq, Repr

def Delivery.arrival (q : Quad) (wire : List Bytes) : Delivery → Option Arrival
  | .mail i iss rnd => wire[i]?.map fun packet => ⟨packet, iss, rnd⟩
  | .stray a => if a.isFor q then none else some a

namespace Service

inductive Event (F : Type) [F64 F] where
  | client (a : Action)
  /-- The `i`-th packet that the server sent for the client comes out at its transport. -/
  | toClient (i : Nat) (now : U64) (rnd : U32)
  /-- A poll of the server, with this batch for its own. -/
  | poll (r : Round F) (batch : List Delivery)
  /-- Any other call of the server's application. -/
  | call (e : Socket.Event F)

/-- What a call sends on the connection of a 4-tuple, when there is one. -/
def saying (q : Quad) (x : Session F) : Socket.Event F → Bytes
  | .send quad data => if quad = q ∧ (x.server.conns.lookup q).isSome then data else []
  | _ => []

def serve (q : Quad) (v : Service F) (e : Socket.Event F) : Service F :=
  { v with session := v.session.step e, said := v.said ++ saying q v.session e }

variable (near : Environment) (q : Quad)

def round (v : Service F) (r : Round F) (batch : List Delivery) : Round F :=
  { r with batch := batch.filterMap (Delivery.arrival q (v.client.stream.io.wire near)) }

def step (v : Service F) : Event F → Service F
  | .client a => if a.own v.client.stream.quad then { v with client := v.client.act near a } else v
  | .toClient i now rnd =>
      match (Table.select q v.session.server.sent)[i]? with
      | some packet => { v with client := v.client.act near (.receive (.ready ⟨packet, 0#32, rnd⟩) now) }
      | none => v
  | .poll r batch => v.serve q (.poll (v.round near q r batch))
  | .call (.poll _) => v
  | .call e => v.serve q e

def run (v : Service F) (events : List (Event F)) : Service F := events.foldl (step near q) v

/-- The client has connected, and the server is bound. -/
def start (stream : TcpStream F) (localEnd : Endpoint) : Service F :=
  { client := { stream }, session := .start localEnd }

/-- A poll does not reap the client's connection. -/
def Keeps (v : Service F) : Event F → Prop
  | .poll r batch => Leaves (fun s => (s.conns.lookup q).isSome = true → (s.reap.conns.lookup q).isSome = true)
      (fun _ => True) (v.session.server.pump (v.round near q r batch))
  | _ => True

def KeepsThroughout : Service F → List (Event F) → Prop
  | _, [] => True
  | v, e :: events => v.Keeps near q e ∧ KeepsThroughout (v.step near q e) events

instance : (v : Service F) → (e : Event F) → Decidable (v.Keeps near q e)
  | _, .poll _ _ => inferInstanceAs (Decidable (Leaves _ _ _))
  | _, .client _ => .isTrue trivial
  | _, .toClient _ _ _ => .isTrue trivial
  | _, .call _ => .isTrue trivial

instance decidableKeepsThroughout : (v : Service F) → (events : List (Event F)) →
    Decidable (KeepsThroughout near q v events)
  | _, [] => .isTrue trivial
  | v, e :: events =>
      have := decidableKeepsThroughout (v.step near q e) events
      inferInstanceAs (Decidable (_ ∧ _))

end Service

theorem Slot.ingest_localEnd (q : Quad) (now : U64) (x : Slot F) (a : Arrival) :
    (x.ingest q now a).localEnd = x.localEnd := by
  unfold ingest
  cases a.route with
  | none => rfl
  | some r =>
      obtain ⟨-, seg⟩ := r
      dsimp only
      split_ifs
      · rfl
      · cases routed x.conn q seg a now <;> rfl

theorem Slot.reap_kept {x : Slot F} (h : x.conn.isSome = true → x.reap.conn.isSome = true) : x.reap = x := by
  unfold reap at h ⊢
  cases hc : x.conn with
  | none =>
      rw [Option.filter_none, ← hc]
  | some c =>
      rw [hc] at h
      have hkept := h rfl
      rw [Option.filter_some] at hkept ⊢
      split_ifs at hkept ⊢
      · rw [← hc]
      · cases hkept

/-- The system goes on without its active end. -/
def Onwards (s s' : System F) : Prop := (∃ events, s' = s.run events) ∧ s'.a = s.a

theorem Onwards.refl (s : System F) : Onwards s s := ⟨⟨[], rfl⟩, rfl⟩

theorem Onwards.trans {s t u : System F} (h : Onwards s t) (h' : Onwards t u) : Onwards s u := by
  obtain ⟨⟨first, rfl⟩, ha⟩ := h
  obtain ⟨⟨rest, rfl⟩, ha'⟩ := h'
  exact ⟨⟨first ++ rest, by rw [System.run_append]⟩, ha'.trans ha⟩

/-- What the server holds for the client: nothing yet, or the system's passive end. -/
inductive Standing (localEnd remoteEnd : Endpoint) (x : Solo F) (said : Bytes) (s : System F) : Prop where
  | absent (free : x.slot.conn = none) (alone : s.b = none) (silent : x.slot.sent = [])
    (unread : x.received.flatten = [])
      (unsaid : said = []) : Standing localEnd remoteEnd x said s
  | present {b : Host F} (entry : x.slot.conn = some b.conn) (joined : s.b = some b)
    (sent : ∀ p ∈ x.slot.sent, p ∈ b.emitted)
      (read : x.received.flatten = b.taken) (written : b.written = said)
      (opened : ∃ k calls, Host.Fresh k ∧ k.conn.localEnd = remoteEnd ∧
        k.conn.remoteEnd = localEnd ∧ b = k.run calls) :
      Standing localEnd remoteEnd x said s

namespace Standing

variable {localEnd remoteEnd : Endpoint} {x : Solo F} {said : Bytes} {s : System F}

theorem called (h : Standing localEnd remoteEnd x said s) (received : List Bytes) (said' : Bytes) {c : Call}
    (hc : c.isLocal = true) {f : Connection F → Connection F × List Bytes} (hf : Performs c f) {y : Slot F}
    (hcut : x.slot.Cut f y)
    (hread : ∀ b : Host F, x.slot.conn = some b.conn → x.received.flatten = b.taken →
      received.flatten = (b.call c).taken)
    (hwritten : ∀ b : Host F, x.slot.conn = some b.conn → b.written = said → (b.call c).written = said')
    (habsent : x.slot.conn = none → received.flatten = x.received.flatten ∧ said' = said) :
    ∃ s', Onwards s s' ∧ Standing localEnd remoteEnd ⟨y, received⟩ said' s' := by
  obtain ⟨taken, hpre, hsent⟩ := hcut.sent
  cases h with
  | absent free alone silent unread unsaid =>
      obtain ⟨hr, hs⟩ := habsent free
      rw [free, Option.map_none, Option.getD_none, List.prefix_nil] at hpre
      refine ⟨s, .refl s, .absent ?_ alone ?_ (hr.trans unread) (hs.trans unsaid)⟩
      · rw [hcut.conn, free, Option.map_none]
      · rw [hsent, hpre, List.append_nil, silent]
  | @present b entry joined sent read written opened =>
      obtain ⟨hconn, hout⟩ := hf b
      obtain ⟨k, calls, hfresh, hl, hr, rfl⟩ := opened
      rw [entry, Option.map_some, Option.getD_some] at hpre
      refine ⟨{ s with b := some ((k.run calls).call c) }, ⟨⟨[.callB c], ?_⟩, rfl⟩, .present ?_ rfl (fun p hp => ?_)
        (hread _ entry read) (hwritten _ entry written) ⟨k, calls ++ [c], hfresh, hl, hr, ?_⟩⟩
      · simp only [System.run, List.foldl_cons, List.foldl_nil, System.step, joined, hc, if_true]
      · rw [hcut.conn, entry, Option.map_some, hconn]
      · rw [hsent] at hp
        rw [hout]
        exact List.mem_append.mpr ((List.mem_append.mp hp).imp (sent p) fun hp => hpre.subset hp)
      · rw [Host.run_append]
        rfl

theorem driven (h : Standing localEnd remoteEnd x said s) {c : Call} (hc : c.isLocal = true)
    {f : Connection F → Connection F × List Bytes} (hf : Performs c f) (hp : passes c = false) {y : Slot F}
    (hcut : x.slot.Cut f y) : ∃ s', Onwards s s' ∧ Standing localEnd remoteEnd { x with slot := y } said s' :=
  h.called x.received said hc hf hcut
    (fun b _ hread => hread.trans (call_ledger b hp).2.symm) (fun b _ hwritten => (call_ledger b hp).1.trans hwritten)
    fun _ => ⟨rfl, rfl⟩

theorem heard_present (h : Standing localEnd remoteEnd x said s) {a : Arrival}
    (hsent : a.packet ∈ s.a.emitted) {seg : Segment} (hd : decode a.packet = some seg)
    (hsome : x.slot.conn.isSome = true) (now : U64) {y : Slot F}
    (hcut : x.slot.Cut (fun c => ((c.onSegment seg now a.rnd).1, (c.onSegment seg now a.rnd).2.toList)) y) :
    ∃ s', Onwards s s' ∧ Standing localEnd remoteEnd { x with slot := y } said s' := by
  cases h with
  | absent free =>
      rw [free] at hsome
      cases hsome
  | @present b entry joined sent read written opened =>
      obtain ⟨taken, hpre, houtgoing⟩ := hcut.sent
      obtain ⟨k, calls, hfresh, hkl, hkr, rfl⟩ := opened
      obtain ⟨j, hj⟩ := List.mem_iff_getElem?.mp hsent
      rw [entry, Option.map_some, Option.getD_some] at hpre
      refine ⟨{ s with b := some ((k.run calls).call (.onSegment seg now a.rnd)) },
        ⟨⟨[.deliverToB j now a.rnd], ?_⟩, rfl⟩, .present ?_ rfl (fun p hp => ?_) read written
          ⟨k, calls ++ [.onSegment seg now a.rnd], hfresh, hkl, hkr, ?_⟩⟩
      · simp only [System.run, List.foldl_cons, List.foldl_nil, System.step, joined, System.packet,
          hj, Option.bind_some,
          hd]
      · exact hcut.conn.trans (congrArg (Option.map _) entry)
      · rw [show ({ x with slot := y } : Solo F).slot.sent = _ from houtgoing] at hp
        exact List.mem_append.mpr ((List.mem_append.mp hp).imp (sent p) fun hp => hpre.subset hp)
      · rw [Host.run_append]
        rfl

theorem heard (h : Standing localEnd remoteEnd x said s) (hl : x.slot.localEnd = remoteEnd) {a : Arrival}
    (hsent : a.packet ∈ s.a.emitted) (hposted : Posted localEnd remoteEnd a.packet) (now : U64) :
    ∃ s', Onwards s s' ∧
      Standing localEnd remoteEnd { x with slot := x.slot.ingest ⟨localEnd, remoteEnd⟩ now a } said s' := by
  obtain ⟨-, seg, -, -, hd, -, hany⟩ := posted_reads hposted
  have hroute : a.route = some (⟨localEnd, remoteEnd⟩, seg) := by
    rw [Arrival.route, hany]
  rw [Slot.ingest_routed hroute hl.symm]
  cases hc : x.slot.conn with
  | some c =>
      refine h.heard_present hsent hd (by rw [hc]; rfl) now ?_
      rw [routed]
      exact ⟨rfl, by rw [hc]; rfl, _, List.prefix_rfl, by rw [hc]; rfl⟩
  | none =>
      cases h with
      | present entry => cases hc.symm.trans entry
      | absent free alone silent unread unsaid =>
          rw [routed]
          split_ifs with hsyn
          · cases hacc : Connection.acceptWithIssAt (F := F) localEnd.1 remoteEnd.1 seg.th seg.opts
              a.iss now a.rnd with
            | none => exact ⟨s, .refl s, .absent free alone silent unread unsaid⟩
            | some r =>
                have haccept : Host.accept localEnd.1 remoteEnd.1 seg a.iss now a.rnd =
                    some { conn := r.1, emitted := [r.2] } := by
                  rw [Host.accept, hacc]
                  rfl
                obtain ⟨j, hrun⟩ := posted_opens hposted hsent alone hroute haccept
                obtain ⟨hr, hl'⟩ := Arrival.route_ports hroute
                have hjoins := (Host.accept_serves hr hl' haccept).joins
                refine ⟨_, ⟨⟨[.accept j a.iss now a.rnd], hrun.symm⟩, rfl⟩, .present rfl rfl (fun p hp => ?_) unread
                  unsaid.symm ⟨_, [], .accept _ _ _ _ _ _ haccept, hjoins.1, hjoins.2, rfl⟩⟩
                rw [silent] at hp
                exact hp
          · exact ⟨s, .refl s, .absent free alone silent unread unsaid⟩

end Standing

namespace Service

/-- The pair of applications is the system. -/
structure Simulates (near : Environment) (localEnd remoteEnd : Endpoint) (v : Service F) (s : System F) : Prop where
  client : Ends near localEnd remoteEnd s.a v.client
  bound : v.session.server.localEnd = remoteEnd
  standing : Standing localEnd remoteEnd (v.session.solo ⟨localEnd, remoteEnd⟩) v.said s

namespace Simulates

variable {near : Environment} {localEnd remoteEnd : Endpoint} {v : Service F} {s : System F}

theorem client_acts (h : Simulates near localEnd remoteEnd v s) {a : Action}
    (ha : a.own v.client.stream.quad = true) :
    ∃ events, Simulates near localEnd remoteEnd { v with client := v.client.act near a } (s.run events) := by
  refine ⟨(a.calls v.client.stream.quad).map .callA, ?_⟩
  rw [System.run_localA (Ends.calls_local ha)]
  refine ⟨h.client.act a, h.bound, ?_⟩
  cases h.standing with
  | absent free alone silent unread unsaid => exact .absent free alone silent unread unsaid
  | present entry joined sent read written opened => exact .present entry joined sent read written opened

theorem client_hears (h : Simulates near localEnd remoteEnd v s) {packet : Bytes}
    (hp : packet ∈ Table.select ⟨localEnd, remoteEnd⟩ v.session.server.sent) (now : U64) (rnd : U32) :
    ∃ events, Simulates near localEnd remoteEnd
      { v with client := v.client.act near (.receive (.ready ⟨packet, 0#32, rnd⟩) now) } (s.run events) := by
  cases h.standing with
  | absent free alone silent =>
      rw [show Table.select ⟨localEnd, remoteEnd⟩ v.session.server.sent = [] from silent] at hp
      exact absurd hp List.not_mem_nil
  | @present b entry joined sent read written opened =>
      have hsent : packet ∈ b.emitted := sent packet hp
      have hposted : Posted remoteEnd localEnd packet := by
        obtain ⟨k, calls, hfresh, hl, hr, rfl⟩ := opened
        have := (Host.run_posted hfresh calls).emitted packet hsent
        rwa [hl, hr] at this
      obtain ⟨seg, hd, hclient⟩ := h.client.heard hposted 0#32 now rnd
      obtain ⟨j, hj⟩ := List.mem_iff_getElem?.mp hsent
      refine ⟨[.deliverToA j now rnd], ?_⟩
      have hstep : s.run [.deliverToA j now rnd] = { s with a := s.a.call (.onSegment seg now rnd) } := by
        simp only [System.run, List.foldl_cons, List.foldl_nil, System.step, joined, System.packet, hj,
          Option.bind_some, hd]
      rw [hstep]
      exact ⟨hclient, h.bound, .present entry joined sent read written opened⟩

theorem onwards (h : Simulates near localEnd remoteEnd v s) {e : Socket.Event F} {s' : System F}
    (honwards : Onwards s s') (hbound : (v.session.step e).server.localEnd = v.session.server.localEnd)
    (hstanding : Standing localEnd remoteEnd ((v.session.step e).solo ⟨localEnd, remoteEnd⟩)
      (v.said ++ saying ⟨localEnd, remoteEnd⟩ v.session e) s') :
    ∃ events, Simulates near localEnd remoteEnd (v.serve ⟨localEnd, remoteEnd⟩ e) (s.run events) := by
  obtain ⟨⟨events, rfl⟩, ha⟩ := honwards
  refine ⟨events, ?_, hbound.trans h.bound, hstanding⟩
  rw [ha]
  exact h.client

theorem unseen (h : Simulates near localEnd remoteEnd v s) {e : Socket.Event F}
    (hsaying : saying ⟨localEnd, remoteEnd⟩ v.session e = [])
    (hslot : (v.session.step e).server.slot ⟨localEnd, remoteEnd⟩ = v.session.server.slot ⟨localEnd, remoteEnd⟩)
    (hreceived : Table.select ⟨localEnd, remoteEnd⟩ (v.session.step e).received =
      Table.select ⟨localEnd, remoteEnd⟩ v.session.received) :
    ∃ events, Simulates near localEnd remoteEnd (v.serve ⟨localEnd, remoteEnd⟩ e) (s.run events) := by
  refine h.onwards (.refl s) (congrArg Slot.localEnd hslot) ?_
  rw [hsaying, List.append_nil, Session.solo, hslot, hreceived]
  exact h.standing

theorem sends (h : Simulates near localEnd remoteEnd v s) (quad : Quad) (data : Bytes) :
    ∃ events, Simulates near localEnd remoteEnd (v.serve ⟨localEnd, remoteEnd⟩ (.send quad data)) (s.run events) := by
  have hslot := TcpServer.slot_send ⟨localEnd, remoteEnd⟩ quad v.session.server data
  by_cases hq : quad = ⟨localEnd, remoteEnd⟩
  · subst hq
    rw [if_pos rfl] at hslot
    have hwrite : Performs (.write data) (fun c : Connection F => (c.write data, [])) :=
      fun b => ⟨rfl, (List.append_nil _).symm⟩
    obtain ⟨s', honwards, hstanding⟩ := h.standing.called (v.session.solo ⟨localEnd, remoteEnd⟩).received
      (v.said ++ saying ⟨localEnd, remoteEnd⟩ v.session (.send ⟨localEnd, remoteEnd⟩ data)) rfl hwrite
      (Slot.cut_advance _ _) (fun b _ hread => hread) (fun b hentry hwritten => by
        have hsome : (v.session.server.conns.lookup ⟨localEnd, remoteEnd⟩).isSome = true :=
            congrArg Option.isSome hentry
        rw [saying, if_pos ⟨rfl, hsome⟩, ← hwritten]
        rfl)
      (fun hnone => ⟨rfl, by
        have hfree : ¬ (v.session.server.conns.lookup ⟨localEnd, remoteEnd⟩).isSome = true := by
          rw [show v.session.server.conns.lookup ⟨localEnd, remoteEnd⟩ = none from hnone]
          exact Bool.false_ne_true
        rw [saying, if_neg fun hboth => hfree hboth.2, List.append_nil]⟩)
    refine h.onwards honwards (congrArg Slot.localEnd hslot) ?_
    rw [show (v.session.step (.send ⟨localEnd, remoteEnd⟩ data)).solo ⟨localEnd, remoteEnd⟩ = ⟨_, _⟩ from
      congrArg (Solo.mk · _) hslot]
    exact hstanding
  · rw [if_neg hq] at hslot
    exact h.unseen (if_neg fun hboth => hq hboth.1) hslot rfl

theorem receives (h : Simulates near localEnd remoteEnd v s) (quad : Quad) :
    ∃ events, Simulates near localEnd remoteEnd (v.serve ⟨localEnd, remoteEnd⟩ (.recv quad)) (s.run events) := by
  have hslot := TcpServer.slot_recv ⟨localEnd, remoteEnd⟩ quad v.session.server
  have hbytes : (v.session.server.recv quad).2 =
      ((v.session.server.slot quad).conn.map (fun c => c.takeReceived.2)).getD [] :=
    congrArg Prod.snd (v.session.server.recv_eq quad)
  by_cases hq : quad = ⟨localEnd, remoteEnd⟩
  · subst hq
    rw [if_pos rfl] at hslot
    have hreceived : Table.select ⟨localEnd, remoteEnd⟩ (v.session.step (.recv ⟨localEnd, remoteEnd⟩)).received =
        ((v.session.solo ⟨localEnd, remoteEnd⟩).step ⟨localEnd, remoteEnd⟩ .recv).received := by
      refine (Table.select_append _ _ _).trans (congrArg (_ ++ ·) ((Table.select_tag _ [_]).trans ?_))
      rw [hbytes]
      rfl
    have htake : Performs .takeReceived (fun c : Connection F => (c.takeReceived.1, [])) :=
      fun b => ⟨rfl, (List.append_nil _).symm⟩
    obtain ⟨s', honwards, hstanding⟩ := h.standing.called
      ((v.session.solo ⟨localEnd, remoteEnd⟩).step ⟨localEnd, remoteEnd⟩ .recv).received v.said rfl htake
      (Slot.cut_advance _ _) (fun b hentry hread => by
        rw [Solo.step, hentry, List.flatten_append, hread, List.flatten_singleton]
        rfl)
      (fun b _ hwritten => hwritten)
      (fun hnone => ⟨by
        rw [Solo.step, hnone, List.flatten_append]
        exact List.append_nil _, rfl⟩)
    refine h.onwards honwards (congrArg Slot.localEnd hslot) ?_
    rw [show saying ⟨localEnd, remoteEnd⟩ v.session (.recv ⟨localEnd, remoteEnd⟩) = [] from rfl, List.append_nil]
    rw [show (v.session.step (.recv ⟨localEnd, remoteEnd⟩)).solo ⟨localEnd, remoteEnd⟩ = ⟨_, _⟩ from
      congrArg₂ Solo.mk hslot hreceived]
    exact hstanding
  · rw [if_neg hq] at hslot
    exact h.unseen rfl hslot ((Table.select_append _ _ _).trans
      ((congrArg (_ ++ ·) (Table.select_tag_ne hq [_])).trans (List.append_nil _)))

theorem closes (h : Simulates near localEnd remoteEnd v s) (quad : Quad) (now : U64) (room : Option Nat) :
    ∃ events, Simulates near localEnd remoteEnd (v.serve ⟨localEnd, remoteEnd⟩ (.close quad now room))
    (s.run events) := by
  have hdid := TcpServer.drive_did (fun c : Connection F => ((c.close now).1, (c.close now).2.toList))
    { v.session.server with room } quad
  by_cases hq : quad = ⟨localEnd, remoteEnd⟩
  · subst hq
    obtain ⟨s', honwards, hstanding⟩ := h.standing.driven rfl (performs_close now) rfl hdid.own
    refine h.onwards honwards hdid.own.localEnd ?_
    rw [show saying ⟨localEnd, remoteEnd⟩ v.session (.close ⟨localEnd, remoteEnd⟩ now room) = [] from rfl,
      List.append_nil]
    exact hstanding
  · exact h.unseen rfl (hdid.others ⟨localEnd, remoteEnd⟩ (Ne.symm hq)) rfl

/-- The slot of the client's 4-tuple in the middle of a poll. -/
def Midway (localEnd remoteEnd : Endpoint) (received : List Bytes) (said : Bytes) (s : System F)
    (t : TcpServer F) : Prop :=
  t.localEnd = remoteEnd ∧ ∃ s', Onwards s s' ∧
    Standing localEnd remoteEnd ⟨t.slot ⟨localEnd, remoteEnd⟩, received⟩ said s'

theorem Midway.driven {received : List Bytes} {said : Bytes} {t t' : TcpServer F}
    (h : Midway localEnd remoteEnd received said s t) {c : Call} (hc : c.isLocal = true)
    {f : Connection F → Connection F × List Bytes} (hf : Performs c f) (hp : passes c = false)
    (hslot : t'.slot ⟨localEnd, remoteEnd⟩ = t.slot ⟨localEnd, remoteEnd⟩ ∨
      (t.slot ⟨localEnd, remoteEnd⟩).Cut f (t'.slot ⟨localEnd, remoteEnd⟩)) :
    Midway localEnd remoteEnd received said s t' := by
  obtain ⟨hbound, s', honwards, hstanding⟩ := h
  rcases hslot with hsame | hcut
  · exact ⟨(congrArg Slot.localEnd hsame).trans hbound, s', honwards, by rw [hsame]; exact hstanding⟩
  · obtain ⟨s'', honwards', hnext⟩ := hstanding.driven hc hf hp hcut
    exact ⟨hcut.localEnd.trans hbound, s'', honwards.trans honwards', hnext⟩

theorem Midway.ingest {received : List Bytes} {said : Bytes} {t : TcpServer F}
    (h : Midway localEnd remoteEnd received said s t) (now : U64) {a : Arrival}
    (hmail : a.isFor ⟨localEnd, remoteEnd⟩ = true → a.packet ∈ s.a.emitted ∧ Posted localEnd remoteEnd a.packet) :
    Leaves (Midway localEnd remoteEnd received said s) (Midway localEnd remoteEnd received said s)
      (t.ingest now a) := by
  obtain ⟨hbound, s', honwards, hstanding⟩ := h
  have hsent : a.isFor ⟨localEnd, remoteEnd⟩ = true → a.packet ∈ s'.a.emitted ∧
      Posted localEnd remoteEnd a.packet := by
    rw [honwards.2]
    exact hmail
  refine (t.ingest_leaves now a).mono ?_ ?_
  · rintro t' ⟨-, hslots⟩
    have hslot := hslots ⟨localEnd, remoteEnd⟩
    split_ifs at hslot with hfor
    · obtain ⟨s'', honwards', hnext⟩ := hstanding.heard hbound (hsent hfor).1 (hsent hfor).2 now
      refine ⟨?_, s'', honwards.trans honwards', by rw [hslot]; exact hnext⟩
      exact (congrArg Slot.localEnd hslot).trans ((Slot.ingest_localEnd ..).trans hbound)
    · exact ⟨(congrArg Slot.localEnd hslot).trans hbound, s', honwards, by rw [hslot]; exact hstanding⟩
  · rintro t' ⟨-, quad, seg, hroute, hdid⟩
    by_cases hq : quad = ⟨localEnd, remoteEnd⟩
    · subst hq
      have hfor : a.isFor ⟨localEnd, remoteEnd⟩ = true := by simp [Arrival.isFor, hroute]
      rcases hdid.own with hsame | ⟨hsome, hcut⟩
      · exact ⟨(congrArg Slot.localEnd hsame).trans hbound, s', honwards, by rw [hsame]; exact hstanding⟩
      · obtain ⟨-, seg', -, -, hd, -, hany⟩ := posted_reads (hsent hfor).2
        obtain rfl : seg' = seg := by
          rw [Arrival.route, hany] at hroute
          exact (Prod.mk.inj (Option.some.inj hroute)).2
        obtain ⟨s'', honwards', hnext⟩ := hstanding.heard_present (hsent hfor).1 hd hsome now hcut
        exact ⟨hcut.localEnd.trans hbound, s'', honwards.trans honwards', hnext⟩
    · have hsame := hdid.others ⟨localEnd, remoteEnd⟩ (Ne.symm hq)
      exact ⟨(congrArg Slot.localEnd hsame).trans hbound, s', honwards, by rw [hsame]; exact hstanding⟩

theorem pumps (h : Simulates near localEnd remoteEnd v s) {r : Round F}
    (hmail : ∀ a ∈ r.batch, a.isFor ⟨localEnd, remoteEnd⟩ = true → a.packet ∈ v.client.stream.io.wire near) :
    Leaves (Midway localEnd remoteEnd (v.session.solo ⟨localEnd, remoteEnd⟩).received v.said s)
      (Midway localEnd remoteEnd (v.session.solo ⟨localEnd, remoteEnd⟩).received v.said s)
      (v.session.server.pump r) := by
  have hstart : Midway localEnd remoteEnd (v.session.solo ⟨localEnd, remoteEnd⟩).received v.said s
      { v.session.server with room := r.room } := ⟨h.bound, s, .refl s, h.standing⟩
  generalize (v.session.solo ⟨localEnd, remoteEnd⟩).received = received at hstart
  have htick : Leaves (Midway localEnd remoteEnd received v.said s) (Midway localEnd remoteEnd received v.said s)
      (TcpServer.tick { v.session.server with room := r.room } r.timers r.now) :=
    (TcpServer.tick_leaves _ r.timers r.now).mono
      (fun t ht => hstart.driven rfl (performs_onTick r.now) rfl (.inr (ht.2 _ ▸ Slot.cut_advance _ _)))
      fun t ht => hstart.driven rfl (performs_onTick r.now) rfl (ht.2 _)
  have hbatch : ∀ t, Midway localEnd remoteEnd received v.said s t →
      Leaves (Midway localEnd remoteEnd received v.said s) (Midway localEnd remoteEnd received v.said s)
        (r.batch.foldlM (TcpServer.ingest r.now) t) := by
    intro t ht
    have hloop := Leaves.foldlM (g := TcpServer.ingest r.now) (l := r.batch) (s := t)
      (I := fun rest t' => (∀ a ∈ rest, a ∈ r.batch) ∧ Midway localEnd remoteEnd received v.said s t')
      (Q := Midway localEnd remoteEnd received v.said s) ?_ ⟨fun a ha => ha, ht⟩
    · exact hloop.mono (fun _ h => h.2) fun _ h => h
    · rintro a rest t' ⟨hrest, ht'⟩
      obtain ⟨ha, hrest⟩ := List.forall_mem_cons.mp hrest
      exact (ht'.ingest r.now fun hfor => h.client.posted (hmail a ha hfor)).mono (fun _ h => ⟨hrest, h⟩) fun _ h => h
  refine (htick.bind hbatch).bind fun t ht => ?_
  split_ifs
  · exact ht
  · exact (TcpServer.flush_leaves t r.flushes r.now).mono
      (fun t' ht' => ht.driven rfl (performs_pollTransmit r.now) rfl (.inr (ht'.2 _ ▸ Slot.cut_advance _ _)))
      fun t' ht' => ht.driven rfl (performs_pollTransmit r.now) rfl (ht'.2 _)

theorem polls (h : Simulates near localEnd remoteEnd v s) {r : Round F}
    (hmail : ∀ a ∈ r.batch, a.isFor ⟨localEnd, remoteEnd⟩ = true → a.packet ∈ v.client.stream.io.wire near)
    (hkeeps : Leaves (fun t => (t.conns.lookup ⟨localEnd, remoteEnd⟩).isSome = true →
      (t.reap.conns.lookup ⟨localEnd, remoteEnd⟩).isSome = true) (fun _ => True) (v.session.server.pump r)) :
    ∃ events, Simulates near localEnd remoteEnd (v.serve ⟨localEnd, remoteEnd⟩ (.poll r)) (s.run events) := by
  have hpump := h.pumps hmail
  have hpolled : Midway localEnd remoteEnd (v.session.solo ⟨localEnd, remoteEnd⟩).received v.said s
      (v.session.server.poll r) := by
    unfold TcpServer.poll
    cases hx : v.session.server.pump r with
    | error t =>
        rw [hx] at hpump
        exact hpump
    | ok t =>
        rw [hx] at hpump hkeeps
        obtain ⟨hbound, s', honwards, hstanding⟩ := hpump
        have hslot := t.slot_reap ⟨localEnd, remoteEnd⟩
        rw [Slot.reap_kept fun hsome => hslot ▸ hkeeps hsome] at hslot
        exact ⟨hbound, s', honwards, by rw [hslot]; exact hstanding⟩
  obtain ⟨hbound, s', honwards, hstanding⟩ := hpolled
  refine h.onwards honwards (hbound.trans h.bound.symm) ?_
  rw [show saying ⟨localEnd, remoteEnd⟩ v.session (.poll r) = [] from rfl, List.append_nil]
  exact hstanding

theorem step (h : Simulates near localEnd remoteEnd v s) {e : Event F}
    (hkeeps : v.Keeps near ⟨localEnd, remoteEnd⟩ e) :
    ∃ events, Simulates near localEnd remoteEnd (v.step near ⟨localEnd, remoteEnd⟩ e) (s.run events) := by
  cases e with
  | client a =>
      unfold Service.step
      dsimp only
      split_ifs with ha
      · exact h.client_acts ha
      · exact ⟨[], h⟩
  | toClient i now rnd =>
      unfold Service.step
      dsimp only
      cases hp : (Table.select ⟨localEnd, remoteEnd⟩ v.session.server.sent)[i]? with
      | none => exact ⟨[], h⟩
      | some packet => exact h.client_hears (List.mem_of_getElem? hp) now rnd
  | poll r batch =>
      refine h.polls (fun a ha hfor => ?_) hkeeps
      obtain ⟨d, -, hd⟩ := List.mem_filterMap.mp ha
      cases d with
      | mail i iss rnd =>
          obtain ⟨packet, hget, rfl⟩ := Option.map_eq_some_iff.mp hd
          exact List.mem_of_getElem? hget
      | stray b =>
          simp only [Delivery.arrival] at hd
          split_ifs at hd with hb
          cases hd
          exact absurd hfor hb
  | call e =>
      cases e with
      | poll r => exact ⟨[], h⟩
      | acceptOne =>
          refine h.unseen rfl ?_ rfl
          simp only [Session.step, TcpServer.acceptOne]
          split <;> rfl
      | send quad data => exact h.sends quad data
      | recv quad => exact h.receives quad
      | close quad now room => exact h.closes quad now room

theorem run (h : Simulates near localEnd remoteEnd v s) {events : List (Event F)}
    (hkeeps : KeepsThroughout near ⟨localEnd, remoteEnd⟩ v events) :
    ∃ es, Simulates near localEnd remoteEnd (v.run near ⟨localEnd, remoteEnd⟩ events) (s.run es) := by
  induction events generalizing v s with
  | nil => exact ⟨[], h⟩
  | cons e events ih =>
      obtain ⟨first, hfirst⟩ := h.step hkeeps.1
      obtain ⟨rest, hrest⟩ := ih hfirst hkeeps.2
      exact ⟨first ++ rest, by rwa [System.run_append]⟩

end Simulates

/-- A socket and a server of many connections read what the other one was given.
What `recv` has returned for the client's 4-tuple is a first part of what the
client's stream was fed, and what the client was handed is a first part of what
`send` was given for it while there was a connection, whoever else the server
serves and however its polls interleave with the client's actions. Once the
server has consumed the client's FIN, only what was queued at the client's close
is missing. -/
theorem service_reads_what_was_sent (near : Environment) {localEnd remoteEnd : Endpoint} {iss : U32}
    {now : U64} {rnd : U32} {io : Channel} {stream : TcpStream F}
    (hconnect : TcpStream.connect near {} localEnd remoteEnd iss now rnd = (io, .ok stream)) (events : List (Event F))
    (hkeeps : KeepsThroughout near ⟨localEnd, remoteEnd⟩ (start stream remoteEnd) events)
    (hclient : ((start stream remoteEnd).run near ⟨localEnd, remoteEnd⟩ events).client.fed.length < 2 ^ 31)
    (hserver : ((start stream remoteEnd).run near ⟨localEnd, remoteEnd⟩ events).said.length < 2 ^ 31) :
    let v := (start stream remoteEnd).run near ⟨localEnd, remoteEnd⟩ events
    let received := (Table.select ⟨localEnd, remoteEnd⟩ v.session.received).flatten
    received <+: v.client.fed ∧ v.client.got <+: v.said ∧
    ∀ conn, v.session.server.conns.lookup ⟨localEnd, remoteEnd⟩ = some conn → conn.peerClosed = true →
      ∃ r, v.client.closing = some r ∧ received ++ conn.recvBuf ++ r.queued = r.written := by
  intro v received
  have hstart : Simulates near localEnd remoteEnd (start stream remoteEnd)
      (System.init localEnd remoteEnd iss now rnd) := by
    obtain ⟨hplays, hquad⟩ := connect_plays hconnect
    exact ⟨⟨hplays, hquad, _, [], .connect .., rfl, rfl, rfl⟩, rfl, .absent rfl rfl rfl rfl rfl⟩
  obtain ⟨es, hsim⟩ := hstart.run hkeeps
  have hplays := hsim.client.plays
  have hbounded : System.Bounded ((System.init (F := F) localEnd remoteEnd iss now rnd).run es) := by
    refine ⟨hplays.fed ▸ hclient, fun b hb => ?_⟩
    cases hsim.standing with
    | absent free alone => cases alone.symm.trans hb
    | @present b' entry joined sent read written opened =>
        obtain rfl : b' = b := Option.some.inj (joined.symm.trans hb)
        rw [written]
        exact hserver
  have htracked := System.handshake_kept.run (System.init_tracked ..) es hbounded
  generalize (System.init (F := F) localEnd remoteEnd iss now rnd).run es = s at hsim hplays htracked
  cases hsim.standing with
  | absent free alone silent unread unsaid =>
      obtain ⟨ta, hfa, hrest⟩ := htracked
      simp only [alone] at hrest
      have hgot := got_delivered hplays hfa
      rw [hrest.2.delivered] at hgot
      refine ⟨?_, ?_, fun conn hconn => ?_⟩
      · rw [show received = [] from unread]
        exact List.nil_prefix
      · rw [show v.client.got = [] from List.prefix_nil.mp hgot]
        exact List.nil_prefix
      · cases (show v.session.server.conns.lookup ⟨localEnd, remoteEnd⟩ = none from free).symm.trans hconn
  | @present b entry joined sent read written opened =>
      obtain ⟨ta, tb, hfa, hfb, hj⟩ := htracked.both joined
      refine ⟨?_, ?_, fun conn hconn hfin => ?_⟩
      · rw [show received = b.taken from read, hplays.fed]
        refine List.IsPrefix.trans ?_ (hj.forth.pre.trans (System.sent_written hfa hj.ownA))
        rw [System.follows_delivered hfb]
        exact List.prefix_append _ _
      · rw [show v.said = b.written from written.symm]
        exact (got_delivered hplays hfa).trans ((System.delivered_sent hj).trans (System.sent_written hfb hj.ownB))
      · obtain rfl : b.conn = conn := by
          have hentry : v.session.server.conns.lookup ⟨localEnd, remoteEnd⟩ = some b.conn := entry
          exact Option.some.inj (hentry.symm.trans hconn)
        obtain ⟨r, hr, hall⟩ := delivered_to_end hfa hfb hj.ownA hj.forth hfin
        rw [Host.delivered] at hall
        refine ⟨r, hplays.closing.trans hr, ?_⟩
        rw [show received = b.taken from read]
        exact hall

def guest : Quad := ⟨TcpStream.caller, TcpStream.called⟩

/-- A SYN of somebody else, for the same server. -/
def passerBy : Arrival :=
  ⟨buildPacket (TcpStream.caller.1, 4001#16) TcpStream.called 9#32 0#32 SYN 1024#16 [] [], 900#32, 0#32⟩

/-- Two bytes to the server, one back, and the client's close. -/
def chat : List (Event Rat) :=
  [.poll { now := 1#64, batch := [] } [.mail 0 700#32 0#32], .toClient 0 2#64 0#32, .client (.feed [7#8, 8#8]),
    .client (.transmit 3#64), .poll { now := 4#64, batch := [] }
    [.mail 1 0#32 0#32, .stray passerBy, .mail 2 0#32 0#32],
    .call (.recv guest), .call (.send guest [9#8]), .poll { now := 5#64, batch := [] } [], .toClient 2 6#64 0#32,
    .client .drain, .client (.hand 1), .client (.close 7#64), .poll { now := 8#64, batch := [] } [.mail 4 0#32 0#32]]

def chatted (stream : TcpStream Rat) : Service Rat := (start stream TcpStream.called).run .silent guest chat

theorem chat_is_read : ∃ stream : TcpStream Rat, KeepsThroughout .silent guest (start stream TcpStream.called) chat ∧
    (chatted stream).session.server.conns.entries.length = 2 ∧ (chatted stream).client.got = [9#8] ∧
    (Table.select guest (chatted stream).session.received).flatten = [7#8, 8#8] ∧
    (Table.select guest (chatted stream).session.received).flatten <+: (chatted stream).client.fed ∧
    (chatted stream).client.got <+: (chatted stream).said := by
  obtain ⟨io, stream, hconnect, hkeeps, hentries, hgot, hreceived, hfed, hsaid⟩ := connected_of_any (F := Rat) .silent
    TcpStream.caller TcpStream.called 5#32 0#64 0#32 (fun stream =>
      KeepsThroughout .silent guest (start stream TcpStream.called) chat ∧
      (chatted stream).session.server.conns.entries.length = 2 ∧ (chatted stream).client.got = [9#8] ∧
      (Table.select guest (chatted stream).session.received).flatten = [7#8, 8#8] ∧
      (chatted stream).client.fed.length = 2 ∧ (chatted stream).said.length = 1) (by decide +kernel)
  refine ⟨stream, hkeeps, hentries, hgot, hreceived, ?_⟩
  have hclient : (chatted stream).client.fed.length < 2 ^ 31 := by
    rw [hfed]
    decide
  have hserver : (chatted stream).said.length < 2 ^ 31 := by
    rw [hsaid]
    decide
  unfold chatted at hclient hserver ⊢
  obtain ⟨hread, hheard, -⟩ := service_reads_what_was_sent .silent hconnect chat hkeeps hclient hserver
  exact ⟨hread, hheard⟩

end Service

end TcpStack.Socket
