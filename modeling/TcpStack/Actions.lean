import TcpStack.Blocking

/-!
# What a stream does

The calls of an application on its stream, blocking or not, are lists of
actions: the timers, one datagram, a transmission, a close, and what passes
between the application and the stream's buffers. Which actions a call comes to
depends on the transport. To the connection behind the stream each action is a
call of its own or none.
-/
namespace TcpStack.Socket
open Tcp Checked Main

variable {F : Type} [F64 F]

/-- The transport when `r` is what it has ready. -/
def Environment.having (env : Environment) (r : Received) : Environment := { env with tryRecv := fun _ => r }

/-- The packets that the transport has taken. -/
def Channel.wire (env : Environment) (io : Channel) : List Bytes :=
  (io.sent.zipIdx.filter fun e => env.takes e.2).map Prod.fst

namespace TcpStream

/-- Active open: send a SYN. -/
def connect (env : Environment) (io : Channel) (localEnd remoteEnd : Endpoint) (iss : U32) (now : U64) (rnd : U32) :
    Channel × Ended (TcpStream F) :=
  let r := Connection.connectWithIss localEnd remoteEnd iss now rnd
  andThen ({ io with passed := [now] }.send env r.2) fun io _ =>
    (io, .ok { conn := r.1, io := { io with readings := io.readings + 1 }, quad := ⟨remoteEnd, localEnd⟩,
               start := env.clock io.readings })

/-- Queue bytes, which go out on the next pump. -/
def feed (data : Bytes) (s : TcpStream F) : TcpStream F := { s with conn := s.conn.write data }

/-- Everything received in order, the read buffer first. -/
def recvAll (s : TcpStream F) : TcpStream F × Bytes :=
  let s := s.drainDelivered
  ({ s with rbuf := [] }, s.rbuf)

end TcpStream

/-- A stream, what its application has fed to it and what it has been handed. -/
structure Held (F : Type) [F64 F] where
  stream : TcpStream F
  fed : Bytes := []
  got : Bytes := []
  closing : Option CloseRecord := none

/-- The calls of an application on its stream. -/
inductive Use where
  | blocking (x : Blocking)
  | poll (now : U64)
  | feed (data : Bytes)
  | recvAll
  | close (now : U64)
  deriving DecidableEq, Repr

inductive Action where
  /-- A reading of the clock. -/
  | look
  | tick (now : U64)
  /-- One `try_recv`, and what comes of it. -/
  | receive (r : Received) (now : U64)
  | transmit (now : U64)
  | feed (data : Bytes)
  /-- Delivered bytes go to the read buffer. -/
  | drain
  /-- Bytes of the read buffer go to the caller. -/
  | hand (n : Nat)
  | close (now : U64)
  deriving DecidableEq, Repr

namespace Held

variable (env : Environment) (turns : Nat)

/-- What our FIN was sent with, once it is. -/
def closed (x : Held F) (now : U64) : Option CloseRecord :=
  if (x.stream.conn.close now).2.isSome then some ⟨x.fed, x.stream.conn.sendBuf⟩ else x.closing

def use (x : Held F) : Use → Held F
  | .blocking (.read len) =>
      let r := x.stream.read env turns len turns
      { x with stream := r.1, got := x.got ++ r.2.value.getD [] }
  | .blocking (.write data) => { x with stream := (x.stream.write env turns data).1, fed := x.fed ++ data }
  | .blocking .flush => { x with stream := (x.stream.flush env turns turns).1 }
  | .poll now => { x with stream := (x.stream.poll env turns now).1 }
  | .feed data => { x with stream := x.stream.feed data, fed := x.fed ++ data }
  | .recvAll => { x with stream := x.stream.recvAll.1, got := x.got ++ x.stream.recvAll.2 }
  | .close now => { x with stream := (x.stream.close env now).1, closing := x.closed now }

/-- One action. A `try_recv` is a turn of the loop of `poll`, on what it returns. -/
def act (x : Held F) : Action → Held F
  | .look => { x with stream := (x.stream.now env).2 }
  | .tick now => { x with stream := (x.stream.drive env now fun c => c.onTick now).1 }
  | .receive r now => { x with stream := (x.stream.ingest (env.having r) now 1).1 }
  | .transmit now => { x with stream := (x.stream.drive env now fun c => c.pollTransmit now).1 }
  | .feed data => { x with stream := x.stream.feed data, fed := x.fed ++ data }
  | .drain => { x with stream := x.stream.drainDelivered }
  | .hand n =>
      { x with stream := { x.stream with rbuf := x.stream.rbuf.drop n }, got := x.got ++ x.stream.rbuf.take n }
  | .close now => { x with stream := (x.stream.close env now).1, closing := x.closed now }

def run (x : Held F) (actions : List Action) : Held F := actions.foldl (act env) x

def uses (x : Held F) (us : List Use) : Held F := us.foldl (use env turns) x

end Held

theorem Channel.sendAll_having (env : Environment) (r : Received) (packets : List Bytes) : ∀ io : Channel,
    io.sendAll (env.having r) packets = io.sendAll env packets := by
  induction packets with
  | nil => exact fun _ => rfl
  | cons packet rest ih => exact fun io => congrArg (andThen _) (funext fun io => funext fun _ => ih io)

namespace TcpStream

theorem drive_having (env : Environment) (r : Received) (now : U64) (f : Connection F → Connection F × List Bytes)
    (s : TcpStream F) : s.drive (env.having r) now f = s.drive env now f := by
  unfold drive
  dsimp only
  rw [Channel.sendAll_having]

/-- The stream after one `try_recv`. -/
def received (s : TcpStream F) : TcpStream F := { s with io := { s.io with received := s.io.received + 1 } }

/-- What `poll` makes of a segment. -/
def hear (env : Environment) (now : U64) (seg : Segment) (rnd : U32) (s : TcpStream F) : TcpStream F × Ended Unit :=
  s.drive env now fun c => ((c.onSegment seg now rnd).1, (c.onSegment seg now rnd).2.toList)

theorem ingest_turn (env : Environment) (now : U64) (turns : Nat) (s : TcpStream F) :
    s.ingest env now (turns + 1) =
      match env.tryRecv s.io.received with
      | .failed => (s.received, .failed)
      | .empty => (s.received, .ok ())
      | .ready a =>
          match a.segmentFor s.quad with
          | none => s.received.ingest env now turns
          | some seg => andThen (s.received.hear env now seg a.rnd) fun s _ => s.ingest env now turns := rfl

/-- One turn of the loop of `poll`. -/
theorem ingest_one (env : Environment) (now : U64) (s : TcpStream F) (r : Received) :
    (s.ingest (env.having r) now 1).1 =
      match r with
      | .ready a =>
          match a.segmentFor s.quad with
          | none => s.received
          | some seg => (s.received.hear env now seg a.rnd).1
      | _ => s.received := by
  rw [ingest_turn]
  cases r with
  | empty | failed => rfl
  | ready a =>
      rw [show (env.having (.ready a)).tryRecv s.io.received = .ready a from rfl]
      dsimp only
      cases a.segmentFor s.quad with
      | none => rfl
      | some seg =>
          have hhear : s.received.hear (env.having (.ready a)) now seg a.rnd = s.received.hear env now seg a.rnd :=
            drive_having env _ now _ _
          dsimp only
          rw [hhear]
          generalize s.received.hear env now seg a.rnd = r
          obtain ⟨s', e⟩ := r
          cases e <;> rfl

end TcpStream

namespace Held

variable {env : Environment}

/-- From `x` to `y` by actions that receive what the transport has ready. -/
def Acts (env : Environment) (x y : Held F) : Prop :=
  ∃ actions, y = x.run env actions ∧ ∀ r now, .receive r now ∈ actions → ∃ i, env.tryRecv i = r

theorem Acts.refl (x : Held F) : Acts env x x := ⟨[], rfl, fun _ _ h => absurd h List.not_mem_nil⟩

theorem Acts.trans {x y z : Held F} (h : Acts env x y) (h' : Acts env y z) : Acts env x z := by
  obtain ⟨first, rfl, hfirst⟩ := h
  obtain ⟨rest, rfl, hrest⟩ := h'
  refine ⟨first ++ rest, by rw [run, run, run, List.foldl_append], fun r now hmem => ?_⟩
  exact (List.mem_append.mp hmem).elim (hfirst r now) (hrest r now)

theorem Acts.one {x : Held F} (a : Action) (ha : ∀ r now, a = .receive r now → ∃ i, env.tryRecv i = r) :
    Acts env x (x.act env a) :=
  ⟨[a], rfl, fun r now hmem => ha r now (List.mem_singleton.mp hmem).symm⟩

theorem Acts.own {x : Held F} (a : Action) (ha : ∀ r now, a ≠ .receive r now) : Acts env x (x.act env a) :=
  .one a fun r now h => absurd h (ha r now)

/-- The `try_recv` of one turn. -/
theorem Acts.receive {x : Held F} {r : Received} {now : U64} (h : env.tryRecv x.stream.io.received = r) :
    Acts env x (x.act env (.receive r now)) :=
  .one _ fun r' now' heq => by
    cases heq
    exact ⟨_, h⟩

variable (env)

theorem ingest_acts (now : U64) (turns : Nat) : ∀ x : Held F,
    Acts env x { x with stream := (x.stream.ingest env now turns).1 } := by
  induction turns with
  | zero => exact fun x => .refl x
  | succ turns ih =>
      intro x
      have hreceive : Acts env x (x.act env (.receive (env.tryRecv x.stream.io.received) now)) := .receive rfl
      rw [act, TcpStream.ingest_one] at hreceive
      rw [TcpStream.ingest_turn]
      cases hr : env.tryRecv x.stream.io.received with
      | failed | empty =>
          rw [hr] at hreceive
          exact hreceive
      | ready a =>
          rw [hr] at hreceive
          dsimp only at hreceive ⊢
          cases hseg : a.segmentFor x.stream.quad with
          | none =>
              rw [hseg] at hreceive
              exact hreceive.trans (ih _)
          | some seg =>
              rw [hseg] at hreceive
              dsimp only at hreceive ⊢
              generalize x.stream.received.hear env now seg a.rnd = r at hreceive ⊢
              obtain ⟨s, e⟩ := r
              cases e with
              | ok => exact hreceive.trans (ih _)
              | failed | running => exact hreceive

theorem poll_acts (now : U64) (turns : Nat) (x : Held F) :
    Acts env x { x with stream := (x.stream.poll env turns now).1 } := by
  have htick : Acts env x (x.act env (.tick now)) := .own _ fun _ _ h => by cases h
  unfold act at htick
  unfold TcpStream.poll
  dsimp only at htick
  generalize x.stream.drive env now _ = r at htick
  obtain ⟨s, e⟩ := r
  cases e with
  | failed | running => exact htick
  | ok =>
      have hingest := htick.trans (ingest_acts env now turns _)
      dsimp only [andThen]
      generalize s.ingest env now turns = r at hingest
      obtain ⟨s', e⟩ := r
      cases e with
      | failed | running => exact hingest
      | ok => exact hingest.trans (.own (.transmit now) fun _ _ h => by cases h)

theorem pollNow_acts (turns : Nat) (x : Held F) : Acts env x { x with stream := (x.stream.pollNow env turns).1 } :=
  (Acts.own .look fun _ _ h => by cases h).trans (poll_acts env (x.stream.now env).1 turns _)

theorem read_acts (turns len more : Nat) : ∀ x : Held F,
    Acts env x { x with stream := (x.stream.read env turns len more).1,
                        got := x.got ++ (x.stream.read env turns len more).2.value.getD [] } := by
  have hnothing : ∀ (x : Held F) (s : TcpStream F),
      ({ x with stream := s, got := x.got ++ [] } : Held F) = { x with stream := s } :=
    fun x s => by rw [List.append_nil]
  induction more with
  | zero =>
      intro x
      refine (hnothing x x.stream).symm ▸ ?_
      exact .refl x
  | succ more ih =>
      intro x
      have hpump := pollNow_acts env turns x
      unfold TcpStream.read
      generalize x.stream.pollNow env turns = r at hpump
      obtain ⟨s, e⟩ := r
      cases e with
      | failed | running =>
          refine (hnothing x s).symm ▸ ?_
          exact hpump
      | ok =>
          have hdrain := hpump.trans (.own .drain fun _ _ h => by cases h)
          dsimp only [andThen]
          split_ifs
          · exact hdrain.trans (.own (.hand (min len s.drainDelivered.rbuf.length)) fun _ _ h => by cases h)
          · refine (hnothing x s.drainDelivered).symm ▸ ?_
            exact hdrain
          · exact hdrain.trans (ih _)

theorem flush_acts (turns more : Nat) : ∀ x : Held F,
    Acts env x { x with stream := (x.stream.flush env turns more).1 } := by
  induction more with
  | zero => exact fun x => .refl x
  | succ more ih =>
      intro x
      have hpump := pollNow_acts env turns x
      unfold TcpStream.flush
      split_ifs
      · exact .refl x
      · generalize x.stream.pollNow env turns = r at hpump
        obtain ⟨s, e⟩ := r
        cases e with
        | failed | running => exact hpump
        | ok => exact hpump.trans (ih _)

theorem use_acts (turns : Nat) (x : Held F) (u : Use) : Acts env x (x.use env turns u) := by
  cases u with
  | blocking b =>
      cases b with
      | read len => exact read_acts env turns len turns x
      | write data =>
          have hfeed : Acts env x (x.act env (.feed data)) := .own _ fun _ _ h => by cases h
          have hpump := hfeed.trans (pollNow_acts env turns _)
          unfold use TcpStream.write
          dsimp only [act, TcpStream.feed] at hpump ⊢
          generalize TcpStream.pollNow (F := F) env turns _ = r at hpump ⊢
          obtain ⟨s, e⟩ := r
          cases e with
          | ok | failed | running => exact hpump
      | flush => exact flush_acts env turns turns x
  | poll now => exact poll_acts env now turns x
  | feed data => exact .own (.feed data) fun _ _ h => by cases h
  | recvAll =>
      have hdrain : Acts env x (x.act env .drain) := .own _ fun _ _ h => by cases h
      refine hdrain.trans ?_
      have hhand : (x.act env .drain).act env (.hand x.stream.drainDelivered.rbuf.length) =
          x.use env turns .recvAll := by
        simp only [act, use, TcpStream.recvAll, List.drop_length, List.take_length]
      rw [← hhand]
      exact .own _ fun _ _ h => by cases h
  | close now => exact .own (.close now) fun _ _ h => by cases h

theorem awaitEstablished_acts (turns more : Nat) : ∀ x : Held F,
    Acts env x { x with stream := (x.stream.awaitEstablished env turns more).1 } := by
  induction more with
  | zero => exact fun x => .refl x
  | succ more ih =>
      intro x
      have hpump := pollNow_acts env turns x
      unfold TcpStream.awaitEstablished
      split_ifs
      · exact .refl x
      · generalize x.stream.pollNow env turns = r at hpump
        obtain ⟨s, e⟩ := r
        cases e with
        | failed | running => exact hpump
        | ok => exact hpump.trans (ih _)

theorem uses_acts (turns : Nat) (us : List Use) : ∀ x : Held F, Acts env x (x.uses env turns us) := by
  induction us with
  | nil => exact fun x => .refl x
  | cons u us ih => exact fun x => (use_acts env turns x u).trans (ih _)

end Held

/-- What an action is to the connection. -/
def Action.calls (quad : Quad) : Action → List Call
  | .tick now => [.onTick now]
  | .receive (.ready a) now => ((a.segmentFor quad).map fun seg => .onSegment seg now a.rnd).toList
  | .transmit now => [.pollTransmit now]
  | .feed data => [.write data]
  | .drain => [.takeReceived]
  | .close now => [.close now]
  | _ => []

theorem Channel.send_wire (env : Environment) (io : Channel) (packet : Bytes) :
    (io.send env packet).1.wire env = io.wire env ++ if env.takes io.sent.length then [packet] else [] := by
  simp only [wire, send, List.zipIdx_append, List.filter_append, List.map_append, Nat.zero_add, List.zipIdx_singleton]
  cases hx : env.takes io.sent.length <;> simp [hx]

theorem Channel.sendAll_wire (env : Environment) (packets : List Bytes) : ∀ io : Channel,
    ∃ sent, sent <+: packets ∧ (io.sendAll env packets).1.wire env = io.wire env ++ sent := by
  induction packets with
  | nil => exact fun io => ⟨[], List.nil_prefix, (List.append_nil _).symm⟩
  | cons packet rest ih =>
      intro io
      have hsend := io.send_wire env packet
      unfold sendAll
      by_cases htakes : env.takes io.sent.length = true
      · obtain ⟨sent, hsent, hwire⟩ := ih (io.send env packet).1
        rw [if_pos htakes] at hsend
        rw [hsend, List.append_assoc] at hwire
        refine ⟨packet :: sent, List.prefix_cons_inj packet |>.mpr hsent, ?_⟩
        rw [show io.send env packet = ((io.send env packet).1, .ok ()) by simp [send, htakes]]
        exact hwire
      · rw [if_neg htakes, List.append_nil] at hsend
        refine ⟨[], List.nil_prefix, ?_⟩
        rw [show io.send env packet = ((io.send env packet).1, .failed) by simp [send, htakes], List.append_nil]
        exact hsend

theorem performs_pollTransmit (now : U64) : Performs (.pollTransmit now)
    (fun c : Connection F => c.pollTransmit now) := by
  intro h
  simp only [Host.call, and_self]

theorem performs_onSegment (seg : Segment) (now : U64) (rnd : U32) : Performs (.onSegment seg now rnd)
    (fun c : Connection F => ((c.onSegment seg now rnd).1, (c.onSegment seg now rnd).2.toList)) := by
  intro h
  simp only [Host.call, and_self]

/-- The calls that pass bytes between the application and the connection. -/
def passes : Call → Bool
  | .write _ | .takeReceived => true
  | _ => false

theorem call_ledger (h : Host F) {c : Call} (hc : passes c = false) :
    (h.call c).written = h.written ∧ (h.call c).taken = h.taken := by
  cases c with
  | write data | takeReceived => cases hc
  | close now =>
      simp only [Host.call]
      split <;> exact ⟨rfl, rfl⟩
  | _ => simp only [Host.call, and_self]

/-- The stream of a host in the hands of its application: the transport has taken
some of what the connection has sent, in order. -/
structure Plays (env : Environment) (h : Host F) (x : Held F) : Prop where
  conn : x.stream.conn = h.conn
  wire : (x.stream.io.wire env).Sublist h.emitted
  fed : x.fed = h.written
  got : x.got ++ x.stream.rbuf = h.taken
  closing : x.closing = h.closing

namespace Plays

variable {env : Environment} {h : Host F} {x : Held F}

theorem delivered (hp : Plays env h x) : h.delivered = x.got ++ x.stream.rbuf ++ x.stream.conn.recvBuf := by
  rw [Host.delivered, hp.got, hp.conn]

theorem drive_wire (hp : Plays env h x) (now : U64) (f : Connection F → Connection F × List Bytes) :
    ((x.stream.drive env now f).1.io.wire env).Sublist (h.emitted ++ (f h.conn).2) := by
  obtain ⟨sent, hsent, hwire⟩ := Channel.sendAll_wire env (f x.stream.conn).2
    { x.stream.io with passed := x.stream.io.passed ++ [now] }
  rw [hp.conn] at hsent
  have hio : (x.stream.drive env now f).1.io.wire env = x.stream.io.wire env ++ sent := hwire
  rw [hio]
  exact hp.wire.append hsent.sublist

theorem driven (hp : Plays env h x) (now : U64) {f : Connection F → Connection F × List Bytes} {c : Call}
    (hcall : Performs c f) (hc : passes c = false) {closing : Option CloseRecord}
    (hclosing : closing = (h.call c).closing) :
    Plays env (h.call c) { x with stream := (x.stream.drive env now f).1, closing } := by
  obtain ⟨hconn, hsent⟩ := hcall h
  obtain ⟨hwritten, htaken⟩ := call_ledger h hc
  refine ⟨?_, hsent ▸ hp.drive_wire now f, hp.fed.trans hwritten.symm, hp.got.trans htaken.symm, hclosing⟩
  rw [hconn, ← hp.conn]
  rfl

theorem moved (hp : Plays env h x) {k : Host F} {s : TcpStream F} {fed got : Bytes}
    (hio : s.io.sent = x.stream.io.sent) (hconn : s.conn = k.conn) (hsent : k.emitted = h.emitted)
    (hfed : fed = k.written) (hgot : got ++ s.rbuf = k.taken) (hclosing : k.closing = h.closing) :
    Plays env k { x with stream := s, fed, got } :=
  ⟨hconn, by rw [Channel.wire, hio, hsent]; exact hp.wire, hfed, hgot, hp.closing.trans hclosing.symm⟩

theorem act (hp : Plays env h x) (a : Action) : Plays env (h.run (a.calls x.stream.quad)) (x.act env a) := by
  cases a with
  | look => exact hp.moved rfl hp.conn rfl hp.fed hp.got rfl
  | tick now =>
      refine hp.driven now (performs_onTick now) rfl ?_
      simp only [Host.call]
      exact hp.closing
  | receive r now =>
      have hskip : Plays env h { x with stream := x.stream.received } :=
          ⟨hp.conn, hp.wire, hp.fed, hp.got, hp.closing⟩
      rw [Held.act, TcpStream.ingest_one]
      cases r with
      | empty | failed => exact hskip
      | ready a =>
          unfold Action.calls
          dsimp only
          cases a.segmentFor x.stream.quad with
          | none => exact hskip
          | some seg => exact hskip.driven now (performs_onSegment seg now a.rnd) rfl hp.closing
  | transmit now =>
      refine hp.driven now (performs_pollTransmit now) rfl ?_
      simp only [Host.call]
      exact hp.closing
  | feed data =>
      refine hp.moved rfl ?_ rfl (congrArg (· ++ data) hp.fed) hp.got rfl
      exact congrArg (Connection.write · data) hp.conn
  | drain =>
      refine hp.moved rfl (congrArg (fun c => c.takeReceived.1) hp.conn) rfl hp.fed ?_ rfl
      rw [TcpStream.drainDelivered, ← List.append_assoc, hp.got, hp.conn]
      rfl
  | hand n =>
      refine hp.moved rfl hp.conn rfl hp.fed ?_ rfl
      rw [List.append_assoc, List.take_append_drop]
      exact hp.got
  | close now =>
      have hclosed : x.closed now =
          if (h.conn.close now).2.isSome then some ⟨h.written, h.conn.sendBuf⟩ else h.closing := by
        rw [Held.closed, hp.conn, hp.fed, hp.closing]
      rw [Held.act, hclosed]
      refine hp.driven now (performs_close now) rfl ?_
      simp only [Host.call]
      generalize h.conn.close now = r
      obtain ⟨c, fin⟩ := r
      cases fin <;> rfl

end Plays

theorem Held.act_quad (env : Environment) (x : Held F) (a : Action) :
    (x.act env a).stream.quad = x.stream.quad := by
  cases a with
  | receive r now =>
      rw [act, TcpStream.ingest_one]
      cases r with
      | empty | failed => rfl
      | ready a =>
          dsimp only
          cases a.segmentFor x.stream.quad <;> rfl
  | _ => rfl

/-- A list of actions is a list of calls, which hears what the transport has ready for the 4-tuple. -/
theorem Plays.acts {env : Environment} {h : Host F} {x y : Held F} (hp : Plays env h x) (hacts : Held.Acts env x y) :
    y.stream.quad = x.stream.quad ∧ ∃ calls, Plays env (h.run calls) y ∧
      ∀ seg now rnd, .onSegment seg now rnd ∈ calls → ∃ i a, env.tryRecv i = .ready a ∧
        a.segmentFor x.stream.quad = some seg := by
  obtain ⟨actions, rfl, hheard⟩ := hacts
  induction actions generalizing h x with
  | nil => exact ⟨rfl, [], hp, fun _ _ _ hmem => absurd hmem List.not_mem_nil⟩
  | cons a actions ih =>
      have hquad := x.act_quad env a
      obtain ⟨hsame, calls, hrun, hrest⟩ := ih (hp.act a) fun r now hmem => hheard r now (List.mem_cons_of_mem _ hmem)
      refine ⟨hsame.trans hquad, a.calls x.stream.quad ++ calls, ?_, fun seg now rnd hmem => ?_⟩
      · rw [Host.run_append]
        exact hrun
      rcases List.mem_append.mp hmem with hmem | hmem
      · cases a with
        | receive r now' =>
            obtain ⟨i, hi⟩ := hheard r now' (List.mem_cons_self ..)
            cases r with
            | ready a =>
                obtain ⟨seg', hseg, heq⟩ := Option.map_eq_some_iff.mp (Option.mem_toList.mp hmem)
                cases heq
                exact ⟨i, a, hi, hseg⟩
            | empty | failed => exact absurd hmem List.not_mem_nil
        | look | hand => exact absurd hmem List.not_mem_nil
        | tick | transmit | feed | drain | close => cases List.mem_singleton.mp hmem
      · rw [← hquad]
        exact hrest seg now rnd hmem

theorem connect_plays {env : Environment} {localEnd remoteEnd : Endpoint} {iss : U32} {now : U64}
    {rnd : U32} {io : Channel} {s : TcpStream F}
    (h : TcpStream.connect env {} localEnd remoteEnd iss now rnd = (io, .ok s)) :
    Plays env (Host.connect localEnd remoteEnd iss now rnd) { stream := s } ∧ s.quad = ⟨remoteEnd, localEnd⟩ := by
  simp only [TcpStream.connect, Channel.send] at h
  split_ifs at h with htakes
  · simp only [andThen, Prod.mk.injEq, Ended.ok.injEq] at h
    obtain ⟨-, rfl⟩ := h
    refine ⟨⟨rfl, ?_, rfl, rfl, rfl⟩, rfl⟩
    refine List.Sublist.trans ?_ (List.Sublist.refl [_])
    exact (List.filter_sublist.map Prod.fst)
  · cases h

theorem Arrival.opening_host {a : Arrival} {localEnd : Endpoint} {now : U64} {quad : Quad} {conn : Connection F}
    {synack : Bytes} (h : a.opening localEnd now = some (quad, conn, synack)) :
    ∃ seg, a.route = some (quad, seg) ∧ quad.localEnd = localEnd ∧
      Host.accept quad.remoteEnd.1 quad.localEnd.1 seg a.iss now a.rnd = some { conn, emitted := [synack] } := by
  unfold opening at h
  cases hr : a.route with
  | none =>
      rw [hr] at h
      cases h
  | some r =>
      obtain ⟨quad', seg⟩ := r
      rw [hr] at h
      dsimp only at h
      split_ifs at h with hl
      obtain ⟨⟨c, p⟩, haccept, heq⟩ := Option.map_eq_some_iff.mp h
      cases heq
      exact ⟨seg, rfl, hl, by rw [Host.accept, haccept]; rfl⟩

namespace TcpListener

variable (env : Environment) (turns : Nat)

theorem drainSyn_wire (localEnd : Endpoint) (now : U64) : ∀ io : Channel, io.wire env = [] →
    match drainSyn (F := F) env localEnd now turns io with
    | (io', .ok (some (quad, conn))) => ∃ i a synack, env.tryRecv i = .ready a ∧
        a.opening localEnd now = some (quad, conn, synack) ∧ io'.wire env = [synack]
    | (io', _) => io'.wire env = [] := by
  induction turns with
  | zero => exact fun io h => h
  | succ turns ih =>
      intro io h
      have hnext : Channel.wire env { io with received := io.received + 1 } = [] := h
      unfold drainSyn
      cases hr : env.tryRecv io.received with
      | failed | empty => exact hnext
      | ready a =>
          dsimp only
          cases ho : a.opening (F := F) localEnd now with
          | none => exact ih _ hnext
          | some r =>
              obtain ⟨quad, conn, synack⟩ := r
              have hsend := Channel.send_wire env { io with received := io.received + 1, passed := [now] } synack
              rw [show Channel.wire env { io with received := io.received + 1, passed := [now] } = [] from h,
                List.nil_append] at hsend
              by_cases htakes : env.takes io.sent.length = true
              · rw [if_pos htakes] at hsend
                simp only [Channel.send, htakes, if_true, andThen] at hsend ⊢
                exact ⟨io.received, a, synack, hr, ho, hsend⟩
              · rw [if_neg htakes] at hsend
                simp only [Channel.send, htakes, andThen] at hsend ⊢
                exact hsend

/-- The stream of a SYN that was ready, for a listener bound to `localEnd`. -/
structure Taken (localEnd : Endpoint) (k : Host F) (s : TcpStream F) : Prop where
  plays : Plays env k { stream := s }
  bound : s.quad.localEnd = localEnd
  heard : ∃ i a seg now, env.tryRecv i = .ready a ∧ a.opens localEnd = true ∧ a.route = some (s.quad, seg) ∧
    Host.accept s.quad.remoteEnd.1 s.quad.localEnd.1 seg a.iss now a.rnd = some k

theorem pollAccept_taken {localEnd : Endpoint} {now : U64} {io : Channel} (hw : io.wire env = []) {l : TcpListener}
    {found : Ended (Option (TcpStream F))} : pollAccept env turns now ⟨some io, localEnd⟩ = (l, found) →
    match found with
    | .ok (some s) => l.io = none ∧ ∃ k, Taken env localEnd k s
    | _ => ∃ io', l = ⟨some io', localEnd⟩ ∧ io'.wire env = [] := by
  intro h
  have hdrain := drainSyn_wire (F := F) env turns localEnd now io hw
  unfold pollAccept at h
  dsimp only at h
  generalize drainSyn (F := F) env localEnd now turns io = r at hdrain h
  obtain ⟨io', e⟩ := r
  cases e with
  | failed | running =>
      cases h
      exact ⟨io', rfl, hdrain⟩
  | ok found =>
      cases found with
      | none =>
          cases h
          exact ⟨io', rfl, hdrain⟩
      | some r =>
          obtain ⟨quad, conn⟩ := r
          obtain ⟨i, a, synack, ha, ho, hwire⟩ := hdrain
          obtain ⟨seg, hroute, hl, haccept⟩ := Arrival.opening_host ho
          cases h
          refine ⟨rfl, _, ⟨rfl, ?_, rfl, rfl, rfl⟩, hl, i, a, seg, now, ha,
            (Arrival.opening_some ho).1, hroute, haccept⟩
          rw [show Channel.wire env { io' with readings := io'.readings + 1 } = [synack] from hwire]

theorem acceptLoop_taken {localEnd : Endpoint} {called : U64} {s : TcpStream F} (more : Nat) :
    ∀ io : Channel, io.wire env = [] → (acceptLoop env turns called more ⟨some io, localEnd⟩).2 = .ok s →
      ∃ k taken, Taken env localEnd k taken ∧ Held.Acts env { stream := taken } { stream := s } := by
  induction more with
  | zero =>
      intro io _ h
      cases h
  | succ more ih =>
      intro io hw h
      unfold acceptLoop at h
      dsimp only at h
      obtain ⟨l, found, hpoll, heq⟩ := andThen_ok h
      rw [heq] at h
      have htaken := pollAccept_taken env turns (by exact hw) hpoll
      cases found with
      | none =>
          obtain ⟨io', rfl, hw'⟩ := htaken
          exact ih io' hw' h
      | some taken =>
          obtain ⟨-, k, hk⟩ := htaken
          obtain ⟨s', u, hwait, -⟩ := andThen_ok h
          dsimp only at h
          rw [hwait] at h
          obtain rfl : s' = s := Ended.ok.inj h
          have hacts := Held.awaitEstablished_acts env turns turns { stream := taken }
          rw [hwait] at hacts
          exact ⟨k, taken, hk, hacts⟩

end TcpListener

/-- A stream that a program has: it connected, or it was accepted. -/
inductive Opened (env : Environment) (turns : Nat) (s : TcpStream F) : Prop where
  | connect {localEnd remoteEnd : Endpoint} {iss : U32} {now : U64} {rnd : U32} {io : Channel} :
      TcpStream.connect env {} localEnd remoteEnd iss now rnd = (io, .ok s) → Opened env turns s
  | accept {localEnd : Endpoint} : ((TcpListener.bind localEnd).accept env turns).2 = .ok s → Opened env turns s

/-- A stream is a host, whatever its transport has ready and whichever packets it
takes. The application's calls, blocking or not, come to calls on the connection;
these hear only what was ready for the 4-tuple, the transport has taken some of
the connection's packets in order, and what was handed out, is in the read buffer
and lies in the connection is together what was delivered. -/
theorem streams_are_hosts {env : Environment} {turns : Nat} {s : TcpStream F}
    (h : Opened env turns s) (us : List Use) :
    let x := ({ stream := s } : Held F).uses env turns us
    ∃ k calls, Host.Fresh k ∧ x.stream.conn = (k.run calls).conn ∧
      (x.stream.io.wire env).Sublist (k.run calls).emitted ∧ (k.run calls).written = x.fed ∧
      (k.run calls).delivered = x.got ++ x.stream.rbuf ++ x.stream.conn.recvBuf ∧
      ∀ seg now rnd, .onSegment seg now rnd ∈ calls → ∃ i a, env.tryRecv i = .ready a ∧
        a.segmentFor s.quad = some seg := by
  intro x
  have huses := Held.uses_acts env turns us { stream := s }
  have hhost : ∃ k x₀, Host.Fresh k ∧ Plays env k x₀ ∧ Held.Acts env x₀ { stream := s } := by
    cases h with
    | connect hc => exact ⟨_, _, .connect .., (connect_plays hc).1, .refl _⟩
    | @accept localEnd ha =>
        obtain ⟨k, taken, hk, hacts⟩ := TcpListener.acceptLoop_taken env turns turns _ rfl ha
        obtain ⟨i, a, seg, now, -, -, -, haccept⟩ := hk.heard
        exact ⟨k, _, .accept _ _ _ _ _ _ haccept, hk.plays, hacts⟩
  obtain ⟨k, x₀, hfresh, hplays, hacts⟩ := hhost
  obtain ⟨hquad, calls, hp, hheard⟩ := hplays.acts (hacts.trans huses)
  have hquad' := (hplays.acts hacts).1
  refine ⟨k, calls, hfresh, hp.conn, hp.wire, hp.fed.symm, hp.delivered, fun seg now rnd hmem => ?_⟩
  obtain ⟨i, a, ha, hseg⟩ := hheard seg now rnd hmem
  exact ⟨i, a, ha, hquad'.symm ▸ hseg⟩

/-- The handshake, later a byte; the second packet of ours is not taken. -/
def faultyEnv : Environment :=
  { TcpStream.callerEnv fun
      | 0 => TcpStream.fromCaller 5#32 0#32 SYN []
      | 1 => TcpStream.fromCaller 6#32 701#32 ACK []
      | 3 => TcpStream.fromCaller 6#32 701#32 ACK [9#8]
      | _ => .empty with
    takes := fun i => i ≠ 1 }

def faultyUses : List Use := [.blocking (.read 1), .blocking (.read 1), .feed [7#8]]

def TcpStream.inFault (s : TcpStream F) : Held F := ({ stream := s } : Held F).uses faultyEnv 5 faultyUses

/-- The byte is delivered although its ACK does not leave: the read fails on it, and
the next one hands the byte out. -/
theorem faulty_stream_is_a_host : ∃ s : TcpStream Rat,
    ((TcpListener.bind TcpStream.called).accept faultyEnv 5).2 = .ok s ∧
    ∃ (k : Host Rat) (calls : List Call), k.Fresh ∧ (k.run calls).delivered = [9#8] ∧
      (k.run calls).written = [7#8] := by
  obtain ⟨s, hs, hgot, hfed, hrbuf, hrecv⟩ := TcpStream.accepted_of_any (F := Rat) faultyEnv
    (fun s => s.inFault.got = [9#8] ∧ s.inFault.fed = [7#8] ∧ s.inFault.stream.rbuf = [] ∧
      s.inFault.stream.conn.recvBuf = []) (by decide +kernel)
  obtain ⟨k, calls, hfresh, -, -, hwritten, hdelivered, -⟩ := streams_are_hosts (.accept hs) faultyUses
  rw [← TcpStream.inFault, hgot, hrbuf, hrecv] at hdelivered
  exact ⟨s, hs, k, calls, hfresh, hdelivered, hwritten.trans hfed⟩

end TcpStack.Socket
