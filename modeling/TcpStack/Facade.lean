import TcpStack.Server

/-!
# The blocking façade

A stream and a listener whose calls block: each reads the wall clock, pumps the
connection and tries again. The environment supplies the readings of the clock,
what the transport has ready and whether it takes a packet. A call that has not
come back within the turns it was given is still running.
-/
namespace TcpStack.Socket
open Tcp Checked Main

variable {F : Type} [F64 F]

/-- The segment of a datagram for this 4-tuple. -/
def parseFor (quad : Quad) (packet : Bytes) : Checked (Option Segment) := do
  match ← Ip.parse packet with
  | .error _ => return none
  | .ok iph =>
      if iph.protocol ≠ 6#8 then
        return none
      let l4 ← slice packet iph.headerLen packet.length
      match ← readSegment l4 with
      | none => return none
      | some seg => if quadOf iph seg.th ≠ quad then return none else return some seg

def Arrival.segmentFor (a : Arrival) (quad : Quad) : Option Segment :=
  match parseFor quad a.packet with
  | .ok r => r
  | .error _ => none

/-- What the transport has ready. -/
inductive Received where
  | ready (a : Arrival)
  | empty
  | failed
  deriving DecidableEq, Repr

/-- The outside of a blocking program: the milliseconds at each reading of the
clock, what each `try_recv` returns and whether each `send` succeeds. -/
structure Environment where
  clock : Nat → U64
  forward : ∀ i, clock i ≤ clock (i + 1)
  tryRecv : Nat → Received
  takes : Nat → Bool

/-- The transport, and how much of the environment has been used. -/
structure Channel where
  readings : Nat := 0
  received : Nat := 0
  sent : List Bytes := []
  /-- The `now_ms` of every call on the connection, oldest first. -/
  passed : List U64 := []
  deriving DecidableEq, Repr

/-- How a blocking call ends. -/
inductive Ended (α : Type) where
  | ok (a : α)
  | failed
  | running
  deriving DecidableEq, Repr

def Ended.value {α : Type} : Ended α → Option α
  | .ok a => some a
  | _ => none

theorem Ended.value_some {α : Type} {x : Ended α} {a : α} (h : x.value = some a) : x = .ok a := by
  cases x with
  | ok b => exact congrArg Ended.ok (Option.some.inj h)
  | failed | running => cases h

/-- The `?` of the source: go on after a success. -/
def andThen {σ α β : Type} : σ × Ended α → (σ → α → σ × Ended β) → σ × Ended β
  | (s, .ok a), next => next s a
  | (s, .failed), _ => (s, .failed)
  | (s, .running), _ => (s, .running)

namespace Channel

variable (env : Environment)

def send (io : Channel) (packet : Bytes) : Channel × Ended Unit :=
  ({ io with sent := io.sent ++ [packet] }, if env.takes io.sent.length then .ok () else .failed)

def sendAll : Channel → List Bytes → Channel × Ended Unit
  | io, [] => (io, .ok ())
  | io, packet :: rest => andThen (io.send env packet) fun io _ => sendAll io rest

end Channel

structure TcpStream (F : Type) [F64 F] where
  conn : Connection F
  io : Channel
  quad : Quad
  /-- Received bytes not yet handed to the caller. -/
  rbuf : Bytes := []
  start : U64

namespace TcpStream

variable (env : Environment) (turns : Nat)

/-- A call on the connection at `now`, and its packets. -/
def drive (now : U64) (f : Connection F → Connection F × List Bytes) (s : TcpStream F) : TcpStream F × Ended Unit :=
  let r := f s.conn
  let io := { s.io with passed := s.io.passed ++ [now] }.sendAll env r.2
  ({ s with conn := r.1, io := io.1 }, io.2)

def ingest (now : U64) : Nat → TcpStream F → TcpStream F × Ended Unit
  | 0, s => (s, .running)
  | turns+1, s =>
      let s' := { s with io := { s.io with received := s.io.received + 1 } }
      match env.tryRecv s.io.received with
      | .failed => (s', .failed)
      | .empty => (s', .ok ())
      | .ready a =>
          match a.segmentFor s.quad with
          | none => ingest now turns s'
          | some seg =>
              andThen (s'.drive env now fun c => ((c.onSegment seg now a.rnd).1,
                (c.onSegment seg now a.rnd).2.toList))
                fun s _ => ingest now turns s

def poll (now : U64) (s : TcpStream F) : TcpStream F × Ended Unit :=
  andThen (s.drive env now fun c => c.onTick now) fun s _ =>
    andThen (s.ingest env now turns) fun s _ => s.drive env now fun c => c.pollTransmit now

def now (s : TcpStream F) : U64 × TcpStream F :=
  (env.clock s.io.readings - s.start, { s with io := { s.io with readings := s.io.readings + 1 } })

/-- `self.poll(self.now())`. -/
def pollNow (s : TcpStream F) : TcpStream F × Ended Unit := (s.now env).2.poll env turns (s.now env).1

def drainDelivered (s : TcpStream F) : TcpStream F :=
  { s with conn := s.conn.takeReceived.1, rbuf := s.rbuf ++ s.conn.takeReceived.2 }

/-- Pump until there is a byte for the caller's buffer, or the end of the stream. -/
def read (len : Nat) : Nat → TcpStream F → TcpStream F × Ended Bytes
  | 0, s => (s, .running)
  | more+1, s => andThen (s.pollNow env turns) fun s _ =>
      let s := s.drainDelivered
      if !s.rbuf.isEmpty then
        let n := min len s.rbuf.length
        ({ s with rbuf := s.rbuf.drop n }, .ok (s.rbuf.take n))
      else if s.conn.peerClosed then (s, .ok [])
      else read len more s

def write (data : Bytes) (s : TcpStream F) : TcpStream F × Ended Nat :=
  andThen ({ s with conn := s.conn.write data }.pollNow env turns) fun s _ => (s, .ok data.length)

def flush : Nat → TcpStream F → TcpStream F × Ended Unit
  | 0, s => (s, .running)
  | more+1, s =>
      if s.conn.sendBufferEmpty then (s, .ok ())
      else andThen (s.pollNow env turns) fun s _ => flush more s

/-- The second half of `accept`: pump until the handshake is over. -/
def awaitEstablished : Nat → TcpStream F → TcpStream F × Ended Unit
  | 0, s => (s, .running)
  | more+1, s =>
      if s.conn.state = .established then (s, .ok ())
      else andThen (s.pollNow env turns) fun s _ => awaitEstablished more s

end TcpStream

/-- The connection that a datagram opens at a listener, with its SYN-ACK. -/
def Arrival.opening (a : Arrival) (localEnd : Endpoint) (now : U64) : Option (Quad × Connection F × Bytes) :=
  match a.route with
  | none => none
  | some (quad, seg) =>
      if quad.localEnd = localEnd then
        (Connection.acceptWithIssAt quad.remoteEnd.1 quad.localEnd.1 seg.th seg.opts a.iss now a.rnd).map
          (Prod.mk quad)
      else none

structure TcpListener where
  io : Option Channel
  localEnd : Endpoint
  deriving DecidableEq, Repr

namespace TcpListener

variable (env : Environment) (turns : Nat)

def bind (localEnd : Endpoint) : TcpListener := ⟨some {}, localEnd⟩

/-- Drain the datagrams that are ready up to the first SYN for `localEnd`. What a
new connection is passed begins with its own opening. -/
def drainSyn (localEnd : Endpoint) (now : U64) : Nat → Channel → Channel × Ended (Option (Quad × Connection F))
  | 0, io => (io, .running)
  | turns+1, io =>
      let io' := { io with received := io.received + 1 }
      match env.tryRecv io.received with
      | .failed => (io', .failed)
      | .empty => (io', .ok none)
      | .ready a =>
          match a.opening localEnd now with
          | none => drainSyn localEnd now turns io'
          | some (quad, conn, synack) =>
              andThen ({ io' with passed := [now] }.send env synack) fun io _ => (io, .ok (some (quad, conn)))

/-- Hand the transport to the stream of the first SYN. -/
def pollAccept (now : U64) (l : TcpListener) : TcpListener × Ended (Option (TcpStream F)) :=
  match l.io with
  | none => (l, .ok none)
  | some io =>
      match drainSyn (F := F) env l.localEnd now turns io with
      | (io, .ok (some (quad, conn))) =>
          ({ l with io := none },
            .ok (some { conn, quad, start := env.clock io.readings, io := { io with readings := io.readings + 1 } }))
      | (io, .ok none) => ({ l with io := some io }, .ok none)
      | (io, .failed) => ({ l with io := some io }, .failed)
      | (io, .running) => ({ l with io := some io }, .running)

/-- The loop of `accept`. A listener that has no transport any more stays in it. -/
def acceptLoop (start : U64) : Nat → TcpListener → TcpListener × Ended (TcpStream F)
  | 0, l => (l, .running)
  | more+1, l =>
      match l.io with
      | none => (l, .running)
      | some io =>
          let now := env.clock io.readings - start
          andThen ({ l with io := some { io with readings := io.readings + 1 } }.pollAccept env turns now)
            fun l found =>
            match found with
            | none => acceptLoop start more l
            | some stream => (l, (andThen (stream.awaitEstablished env turns turns) fun s _ => (s, .ok s)).2)

/-- Pump until a SYN arrives and the connection is established. -/
def accept (l : TcpListener) : TcpListener × Ended (TcpStream F) :=
  match l.io with
  | none => (l, .running)
  | some io =>
      { l with io := some { io with readings := io.readings + 1 } }.acceptLoop env turns (env.clock io.readings) turns

end TcpListener

/-- The blocking calls on a stream. -/
inductive Blocking where
  | read (len : Nat)
  | write (data : Bytes)
  | flush
  deriving DecidableEq, Repr

namespace TcpStream

variable (env : Environment) (turns : Nat)

def call (s : TcpStream F) : Blocking → TcpStream F × Bool
  | .read len =>
      let r := s.read env turns len turns
      (r.1, r.2 ≠ .running)
  | .write data =>
      let r := s.write env turns data
      (r.1, r.2 ≠ .running)
  | .flush =>
      let r := s.flush env turns turns
      (r.1, r.2 ≠ .running)

/-- The calls one after the other, up to one that is still running. -/
def run : TcpStream F → List Blocking → TcpStream F
  | s, [] => s
  | s, x :: calls =>
      match s.call env turns x with
      | (s, true) => run s calls
      | (s, false) => s

end TcpStream

theorem Environment.clock_le (env : Environment) {i j : Nat} (h : i ≤ j) : env.clock i ≤ env.clock j := by
  induction h with
  | refl => exact BitVec.le_refl _
  | step _ ih => exact BitVec.le_trans ih (env.forward _)

theorem andThen_rel {σ α β : Type} {R : σ → σ → Prop} {s : σ} {x : σ × Ended α} {next : σ → α → σ × Ended β}
    (hx : R s x.1) (hnext : ∀ s' a, R s s' → R s (next s' a).1) : R s (andThen x next).1 := by
  obtain ⟨s', r⟩ := x
  cases r with
  | ok a => exact hnext s' a hx
  | failed => exact hx
  | running => exact hx

theorem andThen_ok {σ α β : Type} {x : σ × Ended α} {next : σ → α → σ × Ended β} {b : β}
    (h : (andThen x next).2 = .ok b) : ∃ s a, x = (s, .ok a) ∧ andThen x next = next s a := by
  obtain ⟨s, r⟩ := x
  cases r with
  | ok a => exact ⟨s, a, rfl, rfl⟩
  | failed => cases h
  | running => cases h

theorem Channel.sendAll_only (env : Environment) (packets : List Bytes) : ∀ io : Channel,
    (io.sendAll env packets).1.readings = io.readings ∧ (io.sendAll env packets).1.passed = io.passed := by
  induction packets with
  | nil => exact fun io => ⟨rfl, rfl⟩
  | cons packet rest ih =>
      intro io
      unfold sendAll send
      split_ifs
      · exact ih _
      · exact ⟨rfl, rfl⟩

namespace TcpStream

variable (env : Environment) (turns : Nat)

/-- Nothing but calls at `now`. -/
structure Calls (now : U64) (s s' : TcpStream F) : Prop where
  start : s'.start = s.start
  readings : s'.io.readings = s.io.readings
  passed : ∃ k, s'.io.passed = s.io.passed ++ List.replicate k now

theorem Calls.refl (now : U64) (s : TcpStream F) : Calls now s s := ⟨rfl, rfl, 0, (List.append_nil _).symm⟩

theorem Calls.trans {now : U64} {a b c : TcpStream F} (h : Calls now a b) (h' : Calls now b c) : Calls now a c := by
  obtain ⟨k, hk⟩ := h.passed
  obtain ⟨k', hk'⟩ := h'.passed
  refine ⟨h'.start.trans h.start, h'.readings.trans h.readings, k + k', ?_⟩
  rw [hk', hk, List.append_assoc, List.replicate_append_replicate]

theorem drive_passed (now : U64) (f : Connection F → Connection F × List Bytes) (s : TcpStream F) :
    (s.drive env now f).1.start = s.start ∧ (s.drive env now f).1.io.readings = s.io.readings ∧
      (s.drive env now f).1.io.passed = s.io.passed ++ [now] := by
  obtain ⟨hr, hp⟩ := Channel.sendAll_only env (f s.conn).2 { s.io with passed := s.io.passed ++ [now] }
  exact ⟨rfl, hr, hp⟩

theorem drive_calls (now : U64) (f : Connection F → Connection F × List Bytes) (s : TcpStream F) :
    Calls now s (s.drive env now f).1 := by
  obtain ⟨hs, hr, hp⟩ := drive_passed env now f s
  exact ⟨hs, hr, 1, hp⟩

theorem ingest_calls (now : U64) : ∀ s : TcpStream F, Calls now s (s.ingest env now turns).1 := by
  induction turns with
  | zero => exact .refl now
  | succ turns ih =>
      intro s
      have hnext : Calls now s { s with io := { s.io with received := s.io.received + 1 } } :=
        ⟨rfl, rfl, 0, (List.append_nil _).symm⟩
      unfold ingest
      dsimp only
      split
      · exact hnext
      · exact hnext
      · split
        · exact hnext.trans (ih _)
        · exact andThen_rel (hnext.trans (drive_calls env now _ _)) fun s' _ h => h.trans (ih s')

theorem poll_passed (now : U64) (s : TcpStream F) :
    (s.poll env turns now).1.start = s.start ∧ (s.poll env turns now).1.io.readings = s.io.readings ∧
      ∃ k, (s.poll env turns now).1.io.passed = s.io.passed ++ List.replicate (k + 1) now := by
  obtain ⟨hs, hr, hp⟩ := drive_passed env now (fun c => c.onTick now) s
  have hrest : Calls now (s.drive env now fun c => c.onTick now).1 (s.poll env turns now).1 :=
    andThen_rel (.refl now _) fun s' _ h =>
      andThen_rel (h.trans (ingest_calls env turns now s')) fun s'' _ h' => h'.trans (drive_calls env now _ s'')
  obtain ⟨k, hk⟩ := hrest.passed
  refine ⟨hrest.start.trans hs, hrest.readings.trans hr, k, ?_⟩
  rw [hk, hp, List.append_assoc, List.replicate_succ]
  rfl

/-- The connection is passed readings of the clock in the order they were made. -/
structure Onward (s s' : TcpStream F) : Prop where
  start : s'.start = s.start
  readings : s.io.readings ≤ s'.io.readings
  passed : ∃ ks : List Nat, ks.Pairwise (· ≤ ·) ∧ (∀ k ∈ ks, s.io.readings ≤ k ∧ k < s'.io.readings) ∧
    s'.io.passed = s.io.passed ++ ks.map (fun k => env.clock k - s.start)

theorem Onward.refl (s : TcpStream F) : Onward env s s :=
  ⟨rfl, Nat.le_refl _, [], .nil, by simp, (List.append_nil _).symm⟩

variable {env} in
theorem Onward.trans {a b c : TcpStream F} (h : Onward env a b) (h' : Onward env b c) : Onward env a c := by
  obtain ⟨ks, hsorted, hin, hks⟩ := h.passed
  obtain ⟨ks', hsorted', hin', hks'⟩ := h'.passed
  refine ⟨h'.start.trans h.start, Nat.le_trans h.readings h'.readings, ks ++ ks', ?_, fun k hk => ?_, ?_⟩
  · refine List.pairwise_append.mpr ⟨hsorted, hsorted', fun i hi j hj => ?_⟩
    exact Nat.le_trans (Nat.le_of_lt (hin i hi).2) (hin' j hj).1
  · have hab := h.readings
    have hbc := h'.readings
    rcases List.mem_append.mp hk with hk | hk
    · have hlt := hin k hk
      omega
    · have hlt := hin' k hk
      omega
  · rw [hks', hks, h.start, List.append_assoc, List.map_append]

theorem Onward.of_io {s s' : TcpStream F} (hs : s'.start = s.start) (hio : s'.io = s.io) : Onward env s s' := by
  refine ⟨hs, by rw [hio], [], .nil, by simp, ?_⟩
  rw [hio]
  exact (List.append_nil _).symm

theorem pollNow_passed (s : TcpStream F) :
    (s.pollNow env turns).1.start = s.start ∧ (s.pollNow env turns).1.io.readings = s.io.readings + 1 ∧
      ∃ k, (s.pollNow env turns).1.io.passed =
        s.io.passed ++ (List.replicate (k + 1) s.io.readings).map (fun k => env.clock k - s.start) := by
  obtain ⟨hs, hr, k, hk⟩ := poll_passed env turns (s.now env).1 (s.now env).2
  unfold pollNow
  generalize (s.now env).2.poll env turns (s.now env).1 = r at hs hr hk
  refine ⟨hs, hr, k, ?_⟩
  rw [List.map_replicate]
  exact hk

theorem pollNow_onward (s : TcpStream F) : Onward env s (s.pollNow env turns).1 := by
  obtain ⟨hs, hr, k, hk⟩ := pollNow_passed env turns s
  refine ⟨hs, by omega, _, List.pairwise_replicate.mpr (.inr (Nat.le_refl _)), fun j hj => ?_, hk⟩
  obtain rfl := List.eq_of_mem_replicate hj
  omega

theorem read_onward (len more : Nat) : ∀ s : TcpStream F, Onward env s (s.read env turns len more).1 := by
  induction more with
  | zero => exact .refl env
  | succ more ih =>
      intro s
      refine andThen_rel (pollNow_onward env turns s) fun s' _ h => ?_
      have hdrain : Onward env s s'.drainDelivered := h.trans (.of_io env rfl rfl)
      dsimp only
      split_ifs
      · exact hdrain.trans (.of_io env rfl rfl)
      · exact hdrain
      · exact hdrain.trans (ih _)

theorem write_onward (data : Bytes) (s : TcpStream F) : Onward env s (s.write env turns data).1 := by
  have hwrite : Onward env s { s with conn := s.conn.write data } := .of_io env rfl rfl
  have hpoll := hwrite.trans (pollNow_onward env turns _)
  unfold write
  generalize { s with conn := s.conn.write data }.pollNow env turns = r at hpoll
  exact andThen_rel hpoll fun s' _ h => h

theorem flush_onward (more : Nat) : ∀ s : TcpStream F, Onward env s (s.flush env turns more).1 := by
  induction more with
  | zero => exact .refl env
  | succ more ih =>
      intro s
      unfold flush
      split_ifs
      · exact .refl env s
      · exact andThen_rel (pollNow_onward env turns s) fun s' _ h => h.trans (ih s')

theorem awaitEstablished_onward (more : Nat) : ∀ s : TcpStream F,
    Onward env s (s.awaitEstablished env turns more).1 := by
  induction more with
  | zero => exact .refl env
  | succ more ih =>
      intro s
      unfold awaitEstablished
      split_ifs
      · exact .refl env s
      · exact andThen_rel (pollNow_onward env turns s) fun s' _ h => h.trans (ih s')

theorem call_onward (s : TcpStream F) (x : Blocking) : Onward env s (s.call env turns x).1 := by
  cases x with
  | read len =>
      simp only [call]
      exact read_onward env turns len turns s
  | write data =>
      simp only [call]
      exact write_onward env turns data s
  | flush =>
      simp only [call]
      exact flush_onward env turns turns s

theorem run_onward (calls : List Blocking) : ∀ s : TcpStream F, Onward env s (s.run env turns calls) := by
  induction calls with
  | nil => exact .refl env
  | cons x calls ih =>
      intro s
      have hcall := call_onward env turns s x
      unfold run
      generalize s.call env turns x = r at hcall
      obtain ⟨s', back⟩ := r
      cases back with
      | true => exact hcall.trans (ih s')
      | false => exact hcall

end TcpStream

def Arrival.opens (a : Arrival) (localEnd : Endpoint) : Bool :=
  match a.route with
  | none => false
  | some (quad, seg) => quad.localEnd = localEnd && hasFlag seg.th.flags SYN

theorem Arrival.opening_none {a : Arrival} {localEnd : Endpoint} {now : U64}
    (h : a.opening (F := F) localEnd now = none) : a.opens localEnd = false := by
  unfold opening at h
  unfold opens
  cases hr : a.route with
  | none => rfl
  | some r =>
      obtain ⟨quad, seg⟩ := r
      simp only [hr, Connection.acceptWithIssAt] at h
      split_ifs at h with hquad hsyn
      · simp_all
      · simp at h
      · simp [hquad]

theorem Arrival.opening_some {a : Arrival} {localEnd : Endpoint} {now : U64} {quad : Quad} {conn : Connection F}
    {synack : Bytes} (h : a.opening localEnd now = some (quad, conn, synack)) :
    a.opens localEnd = true ∧ conn.state = .synRcvd := by
  unfold opening at h
  unfold opens
  cases hr : a.route with
  | none => simp [hr] at h
  | some r =>
      obtain ⟨quad', seg⟩ := r
      simp only [hr, Connection.acceptWithIssAt] at h
      split_ifs at h with hquad hsyn
      · cases h
      · simp only [Option.map_some, Option.some.injEq, Prod.mk.injEq] at h
        obtain ⟨-, rfl, -⟩ := h
        simp_all [Connection.synRcvdBlock]

namespace Environment

variable (env : Environment)

/-- No SYN for the listener before the `i`-th datagram. -/
def Quiet (localEnd : Endpoint) (i : Nat) : Prop := ∀ j < i, ∀ a, env.tryRecv j = .ready a → a.opens localEnd = false

/-- The first SYN for the listener. -/
structure FirstSyn (localEnd : Endpoint) (i : Nat) : Prop where
  opens : ∃ a, env.tryRecv i = .ready a ∧ a.opens localEnd = true
  quiet : env.Quiet localEnd i

/-- How often the transport has been found empty before. -/
def drains (i : Nat) : Nat := (List.range i).countP (fun j => env.tryRecv j = .empty)

theorem drains_succ (i : Nat) : env.drains (i + 1) = env.drains i + if env.tryRecv i = .empty then 1 else 0 := by
  rw [drains, List.range_succ, List.countP_append, List.countP_singleton]
  simp only [decide_eq_true_eq]
  rfl

variable {env} in
theorem Quiet.succ {localEnd : Endpoint} {i : Nat} (h : env.Quiet localEnd i)
    (hi : ∀ a, env.tryRecv i = .ready a → a.opens localEnd = false) : env.Quiet localEnd (i + 1) := by
  intro j hj a ha
  rcases Nat.lt_succ_iff_lt_or_eq.mp hj with hlt | rfl
  · exact h j hlt a ha
  · exact hi a ha

end Environment

namespace TcpListener

variable (env : Environment) (turns : Nat)

theorem drainSyn_spec {localEnd : Endpoint} {now : U64} {io' : Channel} {found : Option (Quad × Connection F)} :
    ∀ io : Channel, env.Quiet localEnd io.received → drainSyn env localEnd now turns io = (io', .ok found) →
      io'.readings = io.readings ∧
      match found with
      | none => env.Quiet localEnd io'.received ∧ env.drains io'.received = env.drains io.received + 1
      | some (_, conn) => (∃ i, env.FirstSyn localEnd i ∧ env.drains i = env.drains io.received) ∧
          io'.passed = [now] ∧ conn.state = .synRcvd := by
  induction turns with
  | zero =>
      intro io _ h
      cases h
  | succ turns ih =>
      intro io hq h
      have hsucc := env.drains_succ io.received
      unfold drainSyn at h
      cases hr : env.tryRecv io.received with
      | failed => simp [hr] at h
      | empty =>
          simp only [hr, Prod.mk.injEq, Ended.ok.injEq] at h
          obtain ⟨rfl, rfl⟩ := h
          rw [if_pos hr] at hsucc
          exact ⟨rfl, hq.succ (by simp [hr]), hsucc⟩
      | ready a =>
          simp only [hr] at h
          rw [if_neg (by simp [hr])] at hsucc
          cases ho : a.opening (F := F) localEnd now with
          | none =>
              simp only [ho] at h
              have hclosed : ∀ b, env.tryRecv io.received = .ready b → b.opens localEnd = false := by
                intro b hb
                obtain rfl : a = b := by simpa [hr] using hb
                exact Arrival.opening_none ho
              have hrec := ih { io with received := io.received + 1 } (hq.succ hclosed) h
              rw [hsucc] at hrec
              exact hrec
          | some r =>
              obtain ⟨quad, conn, synack⟩ := r
              obtain ⟨hopens, hstate⟩ := Arrival.opening_some ho
              simp only [ho, Channel.send] at h
              split_ifs at h with htakes
              · simp only [andThen, Prod.mk.injEq, Ended.ok.injEq] at h
                obtain ⟨rfl, rfl⟩ := h
                exact ⟨rfl, ⟨io.received, ⟨⟨a, hr, hopens⟩, hq⟩, rfl⟩, rfl, hstate⟩
              · simp [andThen] at h

/-- A stream as the listener hands it over after `n` turns without a SYN: its own
clock starts where the listener's leaves off. -/
structure Handed (called : U64) (n : Nat) (s : TcpStream F) : Prop where
  state : s.conn.state = .synRcvd
  start : s.start = env.clock (n + 2)
  readings : s.io.readings = n + 3
  passed : s.io.passed = [env.clock (n + 1) - called]

theorem pollAccept_spec {localEnd : Endpoint} {now : U64} {io : Channel} {l : TcpListener}
    {found : Option (TcpStream F)} (hq : env.Quiet localEnd io.received)
    (h : pollAccept env turns now ⟨some io, localEnd⟩ = (l, .ok found)) :
    match found with
    | none => ∃ io', l = ⟨some io', localEnd⟩ ∧ io'.readings = io.readings ∧ env.Quiet localEnd io'.received ∧
        env.drains io'.received = env.drains io.received + 1
    | some s => (∃ i, env.FirstSyn localEnd i ∧ env.drains i = env.drains io.received) ∧ s.conn.state = .synRcvd ∧
        s.start = env.clock io.readings ∧ s.io.readings = io.readings + 1 ∧ s.io.passed = [now] := by
  unfold pollAccept at h
  simp only at h
  split at h
  · rename_i io' quad conn hd
    obtain ⟨hr, hsyn, hp, hs⟩ := drainSyn_spec env turns io hq hd
    simp only [Prod.mk.injEq, Ended.ok.injEq] at h
    obtain ⟨-, rfl⟩ := h
    exact ⟨hsyn, hs, by rw [hr], by rw [hr], hp⟩
  · rename_i io' hd
    obtain ⟨hr, hquiet, hdrains⟩ := drainSyn_spec env turns io hq hd
    simp only [Prod.mk.injEq, Ended.ok.injEq] at h
    obtain ⟨rfl, rfl⟩ := h
    exact ⟨io', rfl, hr, hquiet, hdrains⟩
  · simp at h
  · simp at h

/-- The turn of `accept` that takes the SYN. -/
theorem acceptLoop_spec {localEnd : Endpoint} {called : U64} {s : TcpStream F} (more : Nat) :
    ∀ io : Channel, env.Quiet localEnd io.received → io.readings = env.drains io.received + 1 →
      (acceptLoop env turns called more ⟨some io, localEnd⟩).2 = .ok s →
      ∃ i handed, env.FirstSyn localEnd i ∧ Handed env called (env.drains i) handed ∧
        handed.awaitEstablished env turns turns = (s, .ok ()) := by
  induction more with
  | zero =>
      intro io _ _ h
      cases h
  | succ more ih =>
      intro io hq hn h
      unfold acceptLoop at h
      simp only at h
      obtain ⟨l, found, hpoll, heq⟩ := andThen_ok h
      rw [heq] at h
      have hspec := pollAccept_spec env turns (by exact hq) hpoll
      cases found with
      | none =>
          obtain ⟨io', rfl, hr, hquiet, hdrains⟩ := hspec
          exact ih io' hquiet (by rw [hr, hdrains, hn]) h
      | some stream =>
          obtain ⟨⟨i, hfirst, hi⟩, hs, hstart, hreadings, hpassed⟩ := hspec
          obtain ⟨s', u, hwait, -⟩ := andThen_ok h
          dsimp only at h
          rw [hwait] at h
          obtain rfl : s' = s := Ended.ok.inj h
          refine ⟨i, stream, hfirst, ⟨hs, ?_, ?_, ?_⟩, ?_⟩
          · rw [hstart, hi, hn]
          · rw [hreadings, hi, hn]
          · rw [hpassed, hi, hn]
          · exact hwait

theorem Handed.passed_after {called : U64} {n : Nat} {handed s : TcpStream F} (h : Handed env called n handed)
    (hwait : handed.awaitEstablished env turns turns = (s, .ok ())) (calls : List Blocking) :
    ∃ ks : List Nat, ks.Pairwise (· ≤ ·) ∧ (∀ k ∈ ks, n + 3 ≤ k) ∧
      (s.run env turns calls).io.passed =
        (env.clock (n + 1) - called) :: ((n + 3) :: ks).map (fun k => env.clock k - env.clock (n + 2)) := by
  obtain ⟨hs, hr, j, hj⟩ := TcpStream.pollNow_passed env turns handed
  have hrest : TcpStream.Onward env (handed.pollNow env turns).1 (s.run env turns calls) := by
    cases turns with
    | zero => cases hwait
    | succ more =>
        unfold TcpStream.awaitEstablished at hwait
        rw [if_neg (by rw [h.state]; decide)] at hwait
        have hafter : TcpStream.Onward env (handed.pollNow env (more + 1)).1 s := by
          rw [show s = _ from (congrArg Prod.fst hwait).symm]
          exact andThen_rel (.refl env _) fun s' _ h' => h'.trans (TcpStream.awaitEstablished_onward env _ _ s')
        exact hafter.trans (TcpStream.run_onward env _ calls s)
  obtain ⟨ks, hsorted, hin, hks⟩ := hrest.passed
  rw [h.readings] at hr hj
  refine ⟨List.replicate j (n + 3) ++ ks, ?_, fun k hk => ?_, ?_⟩
  · refine List.pairwise_append.mpr ⟨List.pairwise_replicate.mpr (.inr (Nat.le_refl _)), hsorted, fun a ha b hb => ?_⟩
    have hlo := (hin b hb).1
    have heq := List.eq_of_mem_replicate ha
    omega
  · rcases List.mem_append.mp hk with hk | hk
    · exact Nat.le_of_eq (List.eq_of_mem_replicate hk).symm
    · have hlo := (hin k hk).1
      omega
  · rw [hks, hj, hs, h.passed, h.start, List.replicate_succ]
    simp

/-- The times that the connection of an accepted stream is passed never go back
exactly when the listener's clock, at the SYN, shows no more than the stream's
own clock at its first pump: the first runs from the call of `accept`, the
second from the creation of the stream. -/
theorem accepted_clock_onward_iff {localEnd : Endpoint} {s : TcpStream F}
    (h : ((bind localEnd).accept env turns).2 = .ok s) (calls : List Blocking) :
    ∃ i, env.FirstSyn localEnd i ∧
      ((s.run env turns calls).io.passed.Pairwise (· ≤ ·) ↔
        env.clock (env.drains i + 1) - env.clock 0 ≤ env.clock (env.drains i + 3) - env.clock
        (env.drains i + 2)) := by
  obtain ⟨i, handed, hfirst, hhanded, hwait⟩ := acceptLoop_spec env turns turns { readings := 1 }
    (fun j hj => absurd hj (Nat.not_lt_zero j)) rfl h
  refine ⟨i, hfirst, ?_⟩
  obtain ⟨ks, hsorted, hlow, hpassed⟩ := hhanded.passed_after env turns hwait calls
  generalize env.drains i = n at hlow hpassed
  -- the stream's own clock never goes back
  have hown : ∀ {j k : Nat}, n + 2 ≤ j → j ≤ k →
      env.clock j - env.clock (n + 2) ≤ env.clock k - env.clock (n + 2) := by
    intro j k hj hjk
    have hle := env.clock_le hjk
    have hlo := env.clock_le hj
    bv_omega
  rw [hpassed, List.pairwise_cons]
  constructor
  · intro hall
    exact hall.1 _ (List.mem_map_of_mem (List.mem_cons_self ..))
  · intro hfirstPump
    refine ⟨fun t ht => ?_, ?_⟩
    · obtain ⟨k, hk, rfl⟩ := List.mem_map.mp ht
      refine BitVec.le_trans hfirstPump (hown (by omega) ?_)
      rcases List.mem_cons.mp hk with rfl | hk
      · exact Nat.le_refl _
      · exact hlow k hk
    · refine List.pairwise_map.mpr ((List.pairwise_cons.mpr ⟨hlow, hsorted⟩).imp_of_mem fun {j k} hj _ hjk => ?_)
      refine hown ?_ hjk
      rcases List.mem_cons.mp hj with rfl | hj
      · omega
      · have hlo := hlow j hj
        omega

def lateClient : Endpoint := (Ipv4Addr.new 10#8 0#8 0#8 1#8, 4000#16)

def lateServer : Endpoint := (Ipv4Addr.new 10#8 0#8 0#8 2#8, 80#16)

def lateArrivals : Nat → Received
  | 1 => .ready ⟨buildPacket lateClient lateServer 5#32 0#32 SYN 1024#16 [] [], 700#32, 0#32⟩
  | 2 => .ready ⟨buildPacket lateClient lateServer 6#32 701#32 ACK 1024#16 [] [], 0#32, 0#32⟩
  | _ => .empty

/-- The client comes after three milliseconds, and the stream is first pumped four
milliseconds after it was made. -/
def promptEnv : Environment where
  clock k := if k < 2 then 0#64 else if k < 4 then 3#64 else 7#64
  forward i := by split_ifs <;> first | omega | decide
  tryRecv := lateArrivals
  takes _ := true

/-- The client comes after five seconds, and the stream is first pumped at once. -/
def lateEnv : Environment where
  clock k := if k < 2 then 0#64 else 5000#64
  forward i := by split_ifs <;> first | omega | decide
  tryRecv := lateArrivals
  takes _ := true

/-- The stream's clock overtakes the listener's before it is used. -/
theorem prompt_client_sees_time_pass :
    ∃ s : TcpStream Rat, ((bind lateServer).accept promptEnv 2).2 = .ok s ∧
      (s.run promptEnv 2 [.write [1#8], .flush]).io.passed.Pairwise (· ≤ ·) := by
  obtain ⟨s, hs⟩ := Option.isSome_iff_exists.mp
    (by decide +kernel : ((bind lateServer).accept (F := Rat) promptEnv 2).2.value.isSome)
  refine ⟨s, Ended.value_some hs, ?_⟩
  obtain ⟨i, hfirst, hiff⟩ := accepted_clock_onward_iff promptEnv 2 (Ended.value_some hs) [.write [1#8], .flush]
  have hi : i = 1 := by
    obtain ⟨a, ha, -⟩ := hfirst.opens
    match i, ha with
    | 0, ha => cases ha
    | 1, _ => rfl
    | i+2, _ => exact absurd (hfirst.quiet 1 (by omega) _ rfl) (by decide +kernel)
  subst hi
  exact hiff.mpr (by decide +kernel)

/-- The connection that recorded its SYN-ACK at 5000 is asked for its timers at 0:
its timestamps go back, and nothing is due before five seconds have passed. -/
theorem late_client_sees_time_go_back :
    ∃ s : TcpStream Rat, ((bind lateServer).accept lateEnv 2).2 = .ok s ∧ s.io.passed = [5000#64, 0#64, 0#64, 0#64] ∧
      ¬ s.io.passed.Pairwise (· ≤ ·) := by
  obtain ⟨s, hs, hpassed⟩ := Option.map_eq_some_iff.mp
    (by decide +kernel : (((bind lateServer).accept (F := Rat) lateEnv 2).2.value.map fun s => s.io.passed) =
      some [5000#64, 0#64, 0#64, 0#64])
  refine ⟨s, Ended.value_some hs, hpassed, ?_⟩
  rw [hpassed]
  decide

end TcpListener

end TcpStack.Socket
