import TcpStack.Actions
import TcpStack.EndToEnd
import TcpStack.Outgoing

/-!
# Two sockets

A stream that connects, a listener, the stream it hands over, and two transports
with a network between them: whatever one transport has taken may come out of
the other, in any order and any number of times, or never, among datagrams of
others. The two programs run in any interleaving of their streams' actions.
-/
namespace TcpStack.Socket
open Tcp Checked Main

variable {F : Type} [F64 F]

structure Pair (F : Type) [F64 F] where
  client : Held F
  listener : TcpListener
  server : Option (Held F) := none

/-- An action that hears nothing for the 4-tuple. -/
def Action.own (quad : Quad) : Action → Bool
  | .receive (.ready a) _ => (a.segmentFor quad).isNone
  | _ => true

def Received.opens (localEnd : Endpoint) : Received → Bool
  | .ready a => a.opens localEnd
  | _ => false

namespace Pair

inductive Event where
  | client (a : Action)
  | server (a : Action)
  /-- The `i`-th packet that the other end's transport took comes out of this one's. -/
  | toClient (i : Nat) (now : U64) (rnd : U32)
  | toServer (i : Nat) (now : U64) (rnd : U32)
  | toListener (i : Nat) (iss : U32) (now : U64) (rnd : U32)
  /-- The listener's transport has a datagram that opens nothing, or none. -/
  | listener (r : Received) (now : U64)
  deriving DecidableEq, Repr

variable (near far : Environment)

/-- A turn of the loop of `poll_accept`. -/
def hark (p : Pair F) (r : Received) (now : U64) : Pair F :=
  match p.listener.pollAccept (far.having r) 1 now with
  | (listener, .ok (some stream)) => { p with listener, server := some { stream } }
  | (listener, _) => { p with listener }

def step (p : Pair F) : Event → Pair F
  | .client a => if a.own p.client.stream.quad then { p with client := p.client.act near a } else p
  | .server a => { p with server := p.server.map fun y => if a.own y.stream.quad then y.act far a else y }
  | .toClient i now rnd =>
      match p.server.bind fun y => (y.stream.io.wire far)[i]? with
      | some packet => { p with client := p.client.act near (.receive (.ready ⟨packet, 0#32, rnd⟩) now) }
      | none => p
  | .toServer i now rnd =>
      match (p.client.stream.io.wire near)[i]? with
      | some packet => { p with server := p.server.map (Held.act far · (.receive (.ready ⟨packet, 0#32, rnd⟩) now)) }
      | none => p
  | .toListener i iss now rnd =>
      match (p.client.stream.io.wire near)[i]? with
      | some packet => p.hark far (.ready ⟨packet, iss, rnd⟩) now
      | none => p
  | .listener r now => if r.opens p.listener.localEnd then p else p.hark far r now

def run (p : Pair F) (events : List Event) : Pair F := events.foldl (step near far) p

/-- The client has connected, and nobody has come to the listener. -/
def start (stream : TcpStream F) (bound : Endpoint) : Pair F := { client := { stream }, listener := .bind bound }

end Pair

theorem posted_reads {src dst : Endpoint} {p : Bytes} (h : Posted src dst p) :
    ∃ hdr seg, Ip.parse p = .ok (.ok hdr) ∧ quadOf hdr seg.th = ⟨src, dst⟩ ∧ decode p = some seg ∧
      parseFor ⟨src, dst⟩ p = .ok (some seg) ∧ parseAny p = .ok (some (⟨src, dst⟩, seg)) := by
  obtain ⟨seg, hdr, hu, -⟩ := h.unwraps
  refine ⟨hdr, seg, hu.ip, hu.quad, by rw [decode, hu.segment], ?_, ?_⟩
  · simp only [parseFor, hu.ip, Checked.ok_bind, hu.protocol, ne_eq, not_true_eq_false, if_false, hu.headerLen, hu.l4,
      hu.segment, hu.quad, Checked.pure_eq]
  · simp only [parseAny, hu.ip, Checked.ok_bind, hu.protocol, ne_eq, not_true_eq_false, if_false, hu.headerLen, hu.l4,
      hu.segment, hu.quad, Checked.pure_eq]

theorem posted_opens {s : System F} {src dst : Endpoint} {a : Arrival} (h : Posted src dst a.packet)
    (hsent : a.packet ∈ s.a.emitted) (alone : s.b = none) {seg : Segment} (hroute : a.route = some (⟨src, dst⟩, seg))
    {now : U64} {k : Host F} (haccept : Host.accept src.1 dst.1 seg a.iss now a.rnd = some k) :
    ∃ j, s.run [.accept j a.iss now a.rnd] = { s with b := some k } := by
  obtain ⟨hdr, seg', hip, hquad, hd, -, hany⟩ := posted_reads h
  obtain rfl : seg' = seg := by
    rw [Arrival.route, hany] at hroute
    exact (Prod.mk.inj (Option.some.inj hroute)).2
  obtain ⟨j, hj⟩ := List.mem_iff_getElem?.mp hsent
  have hsrc : hdr.src = src.1 := congrArg (fun q => q.remoteEnd.1) hquad
  have hdst : hdr.dst = dst.1 := congrArg (fun q => q.localEnd.1) hquad
  refine ⟨j, ?_⟩
  simp only [System.run, List.foldl_cons, List.foldl_nil, System.step, alone, hj, System.listen, hip, hd, hsrc, hdst]
  rw [haccept]

/-- The stream at `here`, whose peer is `there`, and the host it is. -/
structure Ends (env : Environment) (here there : Endpoint) (h : Host F) (x : Held F) : Prop where
  plays : Plays env h x
  quad : x.stream.quad = ⟨there, here⟩
  opened : ∃ k calls, Host.Fresh k ∧ k.conn.localEnd = here ∧ k.conn.remoteEnd = there ∧ h = k.run calls

namespace Ends

variable {env : Environment} {here there : Endpoint} {h : Host F} {x : Held F}

theorem act (he : Ends env here there h x) (a : Action) :
    Ends env here there (h.run (a.calls x.stream.quad)) (x.act env a) := by
  obtain ⟨hplays, hquad, k, calls, hfresh, hl, hr, rfl⟩ := he
  refine ⟨hplays.act a, (x.act_quad env a).trans hquad, k, calls ++ a.calls x.stream.quad, hfresh, hl, hr, ?_⟩
  rw [Host.run_append]

theorem calls_local {quad : Quad} {a : Action} (ha : a.own quad = true) : ∀ c ∈ a.calls quad, c.isLocal = true := by
  intro c hc
  cases a with
  | receive r now =>
      cases r with
      | ready a =>
          unfold Action.own at ha
          dsimp only at ha
          generalize hr : a.segmentFor quad = r at ha
          unfold Action.calls at hc
          dsimp only at hc
          rw [hr] at hc
          cases r with
          | none => cases hc
          | some seg => cases ha
      | empty | failed => exact absurd hc List.not_mem_nil
  | look | hand => exact absurd hc List.not_mem_nil
  | tick | transmit | feed | drain | close =>
      rw [List.mem_singleton.mp hc]
      rfl

theorem heard (he : Ends env here there h x) {p : Bytes} (hp : Posted there here p) (iss : U32)
    (now : U64) (rnd : U32) :
    ∃ seg, decode p = some seg ∧
      Ends env here there (h.call (.onSegment seg now rnd)) (x.act env (.receive (.ready ⟨p, iss, rnd⟩) now)) := by
  obtain ⟨-, seg, -, -, hd, hparse, -⟩ := posted_reads hp
  have hact := he.act (.receive (.ready ⟨p, iss, rnd⟩) now)
  have hseg : (⟨p, iss, rnd⟩ : Arrival).segmentFor x.stream.quad = some seg := by
    rw [Arrival.segmentFor, he.quad, hparse]
  unfold Action.calls at hact
  dsimp only at hact
  rw [hseg] at hact
  exact ⟨seg, hd, hact⟩

theorem posted (he : Ends env here there h x) {p : Bytes} (hp : p ∈ x.stream.io.wire env) :
    p ∈ h.emitted ∧ Posted here there p := by
  have hmem := he.plays.wire.subset hp
  obtain ⟨-, -, k, calls, hfresh, hl, hr, rfl⟩ := he
  have hposted := (Host.run_posted hfresh calls).emitted p hmem
  rw [hl, hr] at hposted
  exact ⟨hmem, hposted⟩

end Ends

section
variable (near far : Environment) (localEnd remoteEnd : Endpoint)

/-- The passive end: nobody yet, or the stream that was handed over. -/
inductive Serving (p : Pair F) (s : System F) : Prop where
  | listening {io : Channel} (alone : s.b = none) (nobody : p.server = none) (transport : p.listener.io = some io)
      (silent : io.wire far = []) : Serving p s
  | serving {b : Host F} {y : Held F} (joined : s.b = some b) (accepted : p.server = some y)
      (ends : Ends far remoteEnd localEnd b y) (spent : p.listener.io = none) : Serving p s

structure Simulates (p : Pair F) (s : System F) : Prop where
  client : Ends near localEnd remoteEnd s.a p.client
  serving : Serving far localEnd remoteEnd p s

end

namespace Simulates

variable {near far : Environment} {localEnd remoteEnd : Endpoint} {p : Pair F} {s : System F}

theorem client_acts (h : Simulates near far localEnd remoteEnd p s) {a : Action}
    (ha : a.own p.client.stream.quad = true) :
    ∃ events, Simulates near far localEnd remoteEnd { p with client := p.client.act near a } (s.run events) := by
  refine ⟨(a.calls p.client.stream.quad).map .callA, ?_⟩
  rw [System.run_localA (Ends.calls_local ha)]
  refine ⟨h.client.act a, ?_⟩
  cases h.serving with
  | listening alone nobody io silent => exact .listening alone nobody io silent
  | serving joined accepted ends spent => exact .serving joined accepted ends spent

theorem server_acts (h : Simulates near far localEnd remoteEnd p s) (a : Action) :
    ∃ events, Simulates near far localEnd remoteEnd
      { p with server := p.server.map fun y => if a.own y.stream.quad then y.act far a else y } (s.run events) := by
  cases h.serving with
  | listening alone nobody io silent =>
      refine ⟨[], h.client, .listening alone ?_ io silent⟩
      rw [nobody]
      rfl
  | @serving b y joined accepted ends spent =>
      by_cases ha : a.own y.stream.quad = true
      · refine ⟨(a.calls y.stream.quad).map .callB, ?_⟩
        rw [System.run_localB joined (Ends.calls_local ha)]
        refine ⟨h.client, .serving rfl ?_ (ends.act a) spent⟩
        rw [accepted, Option.map_some, if_pos ha]
      · refine ⟨[], h.client, .serving joined ?_ ends spent⟩
        rw [accepted, Option.map_some, if_neg ha]

theorem client_hears (h : Simulates near far localEnd remoteEnd p s) {y : Held F} (hy : p.server = some y)
    {packet : Bytes} (hp : packet ∈ y.stream.io.wire far) (now : U64) (rnd : U32) :
    ∃ events, Simulates near far localEnd remoteEnd
      { p with client := p.client.act near (.receive (.ready ⟨packet, 0#32, rnd⟩) now) } (s.run events) := by
  cases h.serving with
  | listening alone nobody =>
      rw [nobody] at hy
      cases hy
  | @serving b y' joined accepted ends spent =>
      obtain rfl : y' = y := Option.some.inj (accepted.symm.trans hy)
      obtain ⟨hsent, hposted⟩ := ends.posted hp
      obtain ⟨seg, hd, hclient⟩ := h.client.heard hposted 0#32 now rnd
      obtain ⟨j, hj⟩ := List.mem_iff_getElem?.mp hsent
      refine ⟨[.deliverToA j now rnd], ?_⟩
      have hstep : s.run [.deliverToA j now rnd] = { s with a := s.a.call (.onSegment seg now rnd) } := by
        simp only [System.run, List.foldl_cons, List.foldl_nil, System.step, joined, System.packet, hj,
          Option.bind_some, hd]
      rw [hstep]
      exact ⟨hclient, .serving joined accepted ends spent⟩

theorem server_hears (h : Simulates near far localEnd remoteEnd p s) {packet : Bytes}
    (hp : packet ∈ p.client.stream.io.wire near) (now : U64) (rnd : U32) :
    ∃ events, Simulates near far localEnd remoteEnd
      { p with server := p.server.map (Held.act far · (.receive (.ready ⟨packet, 0#32, rnd⟩) now)) }
      (s.run events) := by
  obtain ⟨hsent, hposted⟩ := h.client.posted hp
  cases h.serving with
  | listening alone nobody io silent =>
      refine ⟨[], h.client, .listening alone ?_ io silent⟩
      rw [nobody]
      rfl
  | @serving b y joined accepted ends spent =>
      obtain ⟨seg, hd, hserver⟩ := ends.heard hposted 0#32 now rnd
      obtain ⟨j, hj⟩ := List.mem_iff_getElem?.mp hsent
      refine ⟨[.deliverToB j now rnd], ?_⟩
      have hstep : s.run [.deliverToB j now rnd] = { s with b := some (b.call (.onSegment seg now rnd)) } := by
        simp only [System.run, List.foldl_cons, List.foldl_nil, System.step, joined, System.packet, hj,
          Option.bind_some, hd]
      rw [hstep]
      refine ⟨h.client, .serving rfl ?_ hserver spent⟩
      rw [accepted, Option.map_some]

theorem opens_end (h : Simulates near far localEnd remoteEnd p s) (alone : s.b = none)
    {packet : Bytes} {iss rnd : U32} (hp : packet ∈ p.client.stream.io.wire near) {quad : Quad} {seg : Segment}
    {now : U64} {k : Host F} (hroute : (⟨packet, iss, rnd⟩ : Arrival).route = some (quad, seg))
    (haccept : Host.accept quad.remoteEnd.1 quad.localEnd.1 seg iss now rnd = some k) :
    quad = ⟨localEnd, remoteEnd⟩ ∧ k.conn.localEnd = remoteEnd ∧ k.conn.remoteEnd = localEnd ∧
      ∃ j, s.run [.accept j iss now rnd] = { s with b := some k } := by
  obtain ⟨hsent, hposted⟩ := h.client.posted hp
  obtain ⟨-, seg', -, -, -, -, hany⟩ := posted_reads hposted
  have hroute' : (⟨packet, iss, rnd⟩ : Arrival).route = some (⟨localEnd, remoteEnd⟩, seg') := by
    rw [Arrival.route, hany]
  obtain ⟨rfl, -⟩ := Prod.mk.inj (Option.some.inj (hroute.symm.trans hroute'))
  obtain ⟨hr, hl⟩ := Arrival.route_ports hroute
  have hjoins := (Host.accept_serves hr hl haccept).joins
  exact ⟨rfl, hjoins.1, hjoins.2, posted_opens hposted hsent alone hroute haccept⟩

theorem listener_harks (h : Simulates near far localEnd remoteEnd p s) {r : Received}
    (hr : r.opens p.listener.localEnd = true → ∃ packet ∈ p.client.stream.io.wire near, ∃ iss rnd,
      r = .ready ⟨packet, iss, rnd⟩) (now : U64) :
    ∃ events, Simulates near far localEnd remoteEnd (p.hark far r now) (s.run events) := by
  unfold Pair.hark
  cases h.serving with
  | serving joined accepted ends spent =>
      have hnone : p.listener.pollAccept (F := F) (far.having r) 1 now = (p.listener, .ok none) := by
        rw [TcpListener.pollAccept, spent]
      rw [hnone]
      exact ⟨[], h.client, .serving joined accepted ends spent⟩
  | @listening io alone nobody transport silent =>
      have hl : p.listener = ⟨some io, p.listener.localEnd⟩ := by
        rw [← transport]
      generalize hpoll : p.listener.pollAccept (F := F) (far.having r) 1 now = result
      obtain ⟨listener, found⟩ := result
      rw [hl] at hpoll
      have htaken := TcpListener.pollAccept_taken (far.having r) 1 (by exact silent) hpoll
      cases found with
      | failed | running =>
          obtain ⟨io', hl', hsilent⟩ := htaken
          exact ⟨[], h.client, .listening alone nobody (congrArg TcpListener.io hl') hsilent⟩
      | ok found =>
          cases found with
          | none =>
              obtain ⟨io', hl', hsilent⟩ := htaken
              exact ⟨[], h.client, .listening alone nobody (congrArg TcpListener.io hl') hsilent⟩
          | some stream =>
              obtain ⟨hover, k, hplays, -, i, a, seg, now', hready, hopens, hroute, haccept⟩ := htaken
              obtain rfl : r = .ready a := hready
              obtain ⟨packet, hp, iss, rnd, heq⟩ := hr hopens
              obtain rfl : a = ⟨packet, iss, rnd⟩ := Received.ready.inj heq
              obtain ⟨hquad, hhere, hthere, j, hrun⟩ := h.opens_end alone hp hroute haccept
              refine ⟨[.accept j iss now' rnd], ?_⟩
              rw [hrun]
              refine ⟨h.client, .serving rfl rfl ⟨?_, hquad, k, [], ?_, hhere, hthere, rfl⟩ hover⟩
              · exact ⟨hplays.conn, hplays.wire, hplays.fed, hplays.got, hplays.closing⟩
              · exact .accept _ _ _ _ _ _ haccept

theorem step (h : Simulates near far localEnd remoteEnd p s) (e : Pair.Event) :
    ∃ events, Simulates near far localEnd remoteEnd (p.step near far e) (s.run events) := by
  cases e with
  | client a =>
      unfold Pair.step
      dsimp only
      split_ifs with ha
      · exact h.client_acts ha
      · exact ⟨[], h⟩
  | server a => exact h.server_acts a
  | toClient i now rnd =>
      unfold Pair.step
      dsimp only
      cases hp : p.server.bind fun y => (y.stream.io.wire far)[i]? with
      | none => exact ⟨[], h⟩
      | some packet =>
          obtain ⟨y, hy, hget⟩ := Option.bind_eq_some_iff.mp hp
          exact h.client_hears hy (List.mem_of_getElem? hget) now rnd
  | toServer i now rnd =>
      unfold Pair.step
      dsimp only
      cases hp : (p.client.stream.io.wire near)[i]? with
      | none => exact ⟨[], h⟩
      | some packet => exact h.server_hears (List.mem_of_getElem? hp) now rnd
  | toListener i iss now rnd =>
      unfold Pair.step
      dsimp only
      cases hp : (p.client.stream.io.wire near)[i]? with
      | none => exact ⟨[], h⟩
      | some packet => exact h.listener_harks (fun _ => ⟨packet, List.mem_of_getElem? hp, iss, rnd, rfl⟩) now
  | listener r now =>
      unfold Pair.step
      dsimp only
      split_ifs with hr
      · exact ⟨[], h⟩
      · exact h.listener_harks (fun hopens => absurd hopens hr) now

theorem run (h : Simulates near far localEnd remoteEnd p s) (events : List Pair.Event) :
    ∃ es, Simulates near far localEnd remoteEnd (p.run near far events) (s.run es) := by
  induction events generalizing p s with
  | nil => exact ⟨[], h⟩
  | cons e events ih =>
      obtain ⟨first, hfirst⟩ := h.step e
      obtain ⟨rest, hrest⟩ := ih hfirst
      exact ⟨first ++ rest, by rwa [System.run_append]⟩

end Simulates

theorem start_simulates {near far : Environment} {localEnd remoteEnd bound : Endpoint} {iss : U32}
    {now : U64} {rnd : U32} {io : Channel} {stream : TcpStream F}
    (h : TcpStream.connect near {} localEnd remoteEnd iss now rnd = (io, .ok stream)) :
    Simulates near far localEnd remoteEnd (Pair.start stream bound) (System.init localEnd remoteEnd iss now rnd) := by
  obtain ⟨hplays, hquad⟩ := connect_plays h
  exact ⟨⟨hplays, hquad, _, [], .connect .., rfl, rfl, rfl⟩, .listening rfl rfl rfl rfl⟩

theorem delivered_to_end {h k : Host F} {t u : Trace} (hfh : Host.Follows h t)
    (hfk : Host.Follows k u) (ho : Trace.Own t) (hdir : Trace.Dir t u) (hfin : k.conn.peerClosed = true) :
    ∃ r, h.closing = some r ∧ k.delivered ++ r.queued = r.written := by
  have hpeer : u.peerFin = true := (congrArg Core.peerFin hfk.core).trans hfin
  obtain ⟨hclosing, hall⟩ := hdir.eof hpeer
  obtain ⟨r, hr⟩ := Option.isSome_iff_exists.mp hclosing
  refine ⟨r, hfh.closing ▸ hr, ?_⟩
  rw [← System.follows_delivered hfk, hall]
  exact (ho.stream.closed r hr).symm

theorem read_to_end {h k : Host F} {t u : Trace} {env env' : Environment} {x y : Held F} (hh : Plays env' h x)
    (hk : Plays env k y) (hfh : Host.Follows h t) (hfk : Host.Follows k u) (ho : Trace.Own t)
    (hdir : Trace.Dir t u) (hfin : y.stream.conn.peerClosed = true) :
    ∃ r, x.closing = some r ∧ y.got ++ y.stream.rbuf ++ y.stream.conn.recvBuf ++ r.queued = r.written := by
  obtain ⟨r, hr, hall⟩ := delivered_to_end hfh hfk ho hdir (hk.conn ▸ hfin)
  exact ⟨r, hh.closing.trans hr, hk.delivered ▸ hall⟩

theorem got_delivered {k : Host F} {u : Trace} {env : Environment} {y : Held F} (hk : Plays env k y)
    (hfk : Host.Follows k u) :
    y.got <+: u.delivered := by
  rw [System.follows_delivered hfk, hk.delivered, List.append_assoc]
  exact List.prefix_append _ _

/-- Two sockets over a network that loses, duplicates, delays and reorders, and
transports that may fail. Each application has been handed a first part of what
the other one has fed to its stream; a client that is not accepted yet has been
handed nothing. Once a stream has seen the peer's FIN, what it has handed out and
what it still holds is all that the peer was fed before it closed, but for what
was queued then. -/
theorem sockets_read_what_was_fed (near far : Environment) (bound : Endpoint) {localEnd remoteEnd : Endpoint}
    {iss : U32} {now : U64} {rnd : U32} {io : Channel} {stream : TcpStream F}
    (hconnect : TcpStream.connect near {} localEnd remoteEnd iss now rnd = (io, .ok stream))
      (events : List Pair.Event)
    (hclient : ((Pair.start stream bound).run near far events).client.fed.length < 2 ^ 31)
    (hserver : ∀ y ∈ ((Pair.start stream bound).run near far events).server, y.fed.length < 2 ^ 31) :
    let p := (Pair.start stream bound).run near far events
    (p.server = none → p.client.got = []) ∧
    ∀ y, p.server = some y → y.got <+: p.client.fed ∧ p.client.got <+: y.fed ∧
      (y.stream.conn.peerClosed = true → ∃ r, p.client.closing = some r ∧
        y.got ++ y.stream.rbuf ++ y.stream.conn.recvBuf ++ r.queued = r.written) ∧
      (p.client.stream.conn.peerClosed = true → ∃ r, y.closing = some r ∧
        p.client.got ++ p.client.stream.rbuf ++ p.client.stream.conn.recvBuf ++ r.queued = r.written) := by
  intro p
  have hstart : Simulates near far localEnd remoteEnd (Pair.start stream bound) _ := start_simulates hconnect
  obtain ⟨es, hsim⟩ := hstart.run events
  have hclientEnd := hsim.client.plays
  have hbounded : System.Bounded ((System.init (F := F) localEnd remoteEnd iss now rnd).run es) := by
    refine ⟨hclientEnd.fed ▸ hclient, fun b hb => ?_⟩
    cases hsim.serving with
    | listening alone => cases alone.symm.trans hb
    | @serving b' y joined accepted ends =>
        obtain rfl : b' = b := Option.some.inj (joined.symm.trans hb)
        rw [← ends.plays.fed]
        exact hserver y accepted
  have htracked := System.handshake_kept.run (System.init_tracked ..) es hbounded
  generalize (System.init (F := F) localEnd remoteEnd iss now rnd).run es = s at hsim hclientEnd htracked
  cases hsim.serving with
  | listening alone nobody =>
      refine ⟨fun _ => ?_, fun y hy => absurd (nobody.symm.trans hy) (by simp)⟩
      obtain ⟨ta, hfa, hrest⟩ := htracked
      simp only [alone] at hrest
      have hgot := got_delivered hclientEnd hfa
      rw [hrest.2.delivered] at hgot
      exact List.prefix_nil.mp hgot
  | @serving b y joined accepted ends =>
      refine ⟨fun hnone => absurd (accepted.symm.trans hnone) (by simp), fun y' hy => ?_⟩
      obtain rfl : y = y' := Option.some.inj (accepted.symm.trans hy)
      obtain ⟨ta, tb, hfa, hfb, hj⟩ := htracked.both joined
      refine ⟨?_, ?_, read_to_end hclientEnd ends.plays hfa hfb hj.ownA hj.forth, fun hfin => ?_⟩
      · rw [hclientEnd.fed]
        exact (got_delivered ends.plays hfb).trans (hj.forth.pre.trans (System.sent_written hfa hj.ownA))
      · rw [ends.plays.fed]
        exact (got_delivered hclientEnd hfa).trans
          ((System.delivered_sent hj).trans (System.sent_written hfb hj.ownB))
      · rcases hj.back with ⟨virgin, -⟩ | back
        · rw [hclientEnd.conn] at hfin
          have hpeer : ta.peerFin = true := (congrArg Core.peerFin hfa.core).trans hfin
          rw [virgin.peerFin] at hpeer
          cases hpeer
        · exact read_to_end ends.plays hclientEnd hfb hfa hj.ownB back hfin

/-- A transfer of two bytes and the client's close. -/
def parley : List Pair.Event :=
  [.toListener 0 700#32 1#64 0#32, .toClient 0 2#64 0#32, .toServer 1 3#64 0#32, .client (.feed [7#8, 8#8]),
    .client (.transmit 4#64), .toServer 2 5#64 0#32, .server .drain, .server (.hand 1), .client (.close 6#64),
    .toServer 3 7#64 0#32]

def parleyed (stream : TcpStream F) : Pair F := (Pair.start stream TcpStream.called).run .silent .silent parley

theorem connected_of_any (env : Environment) (localEnd remoteEnd : Endpoint) (iss : U32)
    (now : U64) (rnd : U32) (p : TcpStream F → Prop) [DecidablePred p]
    (h : ((TcpStream.connect env {} localEnd remoteEnd iss now rnd).2.value.any fun s => decide (p s)) = true) :
    ∃ io, ∃ s : TcpStream F, TcpStream.connect env {} localEnd remoteEnd iss now rnd = (io, .ok s) ∧ p s := by
  obtain ⟨s, hs, hp⟩ := (Option.any_eq_true _ _).mp h
  generalize TcpStream.connect (F := F) env {} localEnd remoteEnd iss now rnd = r at hs
  exact ⟨r.1, s, Prod.ext rfl (Ended.value_some hs), of_decide_eq_true hp⟩

/-- The application has been handed one byte, the other one is in the read buffer,
and that was all. -/
theorem parley_is_read : ∃ stream : TcpStream Rat, ∃ y, (parleyed stream).server = some y ∧ y.got = [7#8] ∧
    y.got <+: (parleyed stream).client.fed ∧ y.stream.conn.peerClosed = true ∧
    ∃ r, (parleyed stream).client.closing = some r ∧
      y.got ++ y.stream.rbuf ++ y.stream.conn.recvBuf ++ r.queued = r.written := by
  obtain ⟨io, stream, hconnect, hfed, hserver⟩ := connected_of_any (F := Rat) .silent TcpStream.caller
    TcpStream.called 5#32 0#64 0#32 (fun stream => (parleyed stream).client.fed.length = 2 ∧
    ((parleyed stream).server.any fun y =>
      decide (y.got = [7#8] ∧ y.fed = [] ∧ y.stream.conn.peerClosed = true)) = true) (by decide +kernel)
  obtain ⟨y, hy, hfacts⟩ := (Option.any_eq_true _ _).mp hserver
  obtain ⟨hgot, hsaid, hfin⟩ := of_decide_eq_true hfacts
  have hclient : (parleyed stream).client.fed.length < 2 ^ 31 := by
    rw [hfed]
    decide
  have hquiet : ∀ y' ∈ (parleyed stream).server, y'.fed.length < 2 ^ 31 := by
    intro y' hy'
    obtain rfl := Option.some.inj (hy.symm.trans hy')
    rw [hsaid]
    decide
  unfold parleyed at hy hclient hquiet ⊢
  obtain ⟨-, hboth⟩ := sockets_read_what_was_fed .silent .silent TcpStream.called hconnect parley hclient hquiet
  obtain ⟨hread, -, hend, -⟩ := hboth y hy
  exact ⟨stream, y, hy, hgot, hread, hfin, hend hfin⟩

end TcpStack.Socket
