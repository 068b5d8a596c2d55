import TcpStack.Facade
import TcpStack.Recovery

/-!
# When a blocking call cannot succeed any more

`read` waits for a byte or the peer's FIN, `flush` for an empty send buffer,
`accept` for ESTABLISHED. Each of these can have become impossible: after a
reset, after our own FIN, after a handshake that was overtaken in one pump.
-/
namespace TcpStack
open Tcp

variable {F : Type} [F64 F]

namespace Connection

/-- What no pump can end. -/
structure Stable (P : Connection F → Prop) : Prop where
  tick : ∀ c now, P c → P (c.onTick now).1
  segment : ∀ c seg now rnd, P c → P (c.onSegment seg now rnd).1
  poll : ∀ c now, P c → P (c.pollTransmit now).1

theorem stable_states {S : State → Prop} (hS : ∀ s s', S s → s' ∈ s.successors → S s') :
    Stable fun c : Connection F => S c.state := by
  have hturn : ∀ {c c' : Connection F}, Turn c.phase c'.phase → S c.state → S c'.state := by
    intro c c' h hs
    rcases h.edge with heq | hmem
    · exact (show c'.state = c.state from heq) ▸ hs
    · exact hS _ _ hs hmem
  exact ⟨fun c now => hturn (onTick_kept c now).turn, fun c seg now rnd => hturn (onSegment_turn c seg now rnd),
    fun c now => hturn (pollTransmit_turn c now)⟩

theorem stable_closed (fin : Bool) :
    Stable fun c : Connection F => c.state = .closed ∧ c.recvBuf = [] ∧ c.peerFin = fin := by
  have hclosed := stable_states (F := F) (S := fun s => s = .closed) (by rintro _ s' rfl hmem; cases hmem)
  have hstill : ∀ {c c' : Connection F}, c'.still = c.still ∨ c'.still = { c with state := .closed }.still →
      c.recvBuf = [] ∧ c.peerFin = fin → c'.recvBuf = [] ∧ c'.peerFin = fin := by
    intro c c' h hc
    have hread : ∀ d : Connection F, d.still.recvBuf = d.recvBuf ∧ d.still.peerFin = d.peerFin := fun _ => ⟨rfl, rfl⟩
    rw [← (hread c').1, ← (hread c').2]
    rcases h with h | h <;> rw [h] <;> exact hc
  constructor
  · exact fun c now hc => ⟨hclosed.tick c now hc.1, hstill (c.onTick_kept now) hc.2⟩
  · intro c seg now rnd hc
    refine ⟨hclosed.segment c seg now rnd hc.1, ?_⟩
    have hchallenge : ∀ d : Connection F, d.recvBuf = [] ∧ d.peerFin = fin →
        (d.maybeChallenge now rnd).1.recvBuf = [] ∧ (d.maybeChallenge now rnd).1.peerFin = fin := by
      intro d hd
      simp only [maybeChallenge]
      split_ifs <;> exact hd
    have hd : (c.arrive now).state = .closed ∧ (c.arrive now).recvBuf = [] ∧ (c.arrive now).peerFin = fin := hc
    unfold onSegment
    generalize c.arrive now = d at hd
    obtain ⟨hs, hd⟩ := hd
    dsimp only
    split_ifs with hrst hsent hsyn
    · unfold onRst
      split_ifs
      · exact hd
      · exact hd
      · exact hd
      · exact hd
      · exact hchallenge d hd
      · exact hd
    · rw [hs] at hsent
      cases hsent
    · exact hchallenge d hd
    · simp only [onSynRcvd, hs, reduceCtorEq, if_false, onState]
      exact hd
  · exact fun c now hc => ⟨hclosed.poll c now hc.1, hstill (.inl (c.pollTransmit_still now)) hc.2⟩

theorem onSegment_sendBuf (c : Connection F) (seg : Segment) (now : U64) (rnd : U32) :
    (c.onSegment seg now rnd).1.sendBuf = c.sendBuf := by
  rcases c.onSegment_reacts seg now rnd with hreacts | ⟨-, -, heq⟩
  · exact hreacts.preserves (P := fun d => d.sendBuf = c.sendBuf) (fun hu hd => hu.spares.sendBuf.trans hd) rfl
  · rw [heq]
    unfold onSynSent
    split_ifs <;> rfl

theorem tickKeepalive_sendBuf (c : Connection F) (now : U64) : (c.tickKeepalive now).1.sendBuf = c.sendBuf := by
  unfold tickKeepalive
  dsimp only
  split_ifs <;> rfl

theorem onTick_unsent {c : Connection F} (hs : ¬ c.state.PreFin) (now : U64) :
    (c.onTick now).1.sendBuf = c.sendBuf := by
  have hreap : ¬ ({ c with tsVal := now.setWidth 32 }.reap now).state.PreFin ∧
      ({ c with tsVal := now.setWidth 32 }.reap now).sendBuf = c.sendBuf := by
    simp only [reap]
    split_ifs
    all_goals first | exact ⟨hs, rfl⟩ | exact ⟨by simp [State.PreFin], rfl⟩
  unfold onTick
  dsimp only
  generalize { c with tsVal := now.setWidth 32 }.reap now = d at hreap
  obtain ⟨hd, hbuf⟩ := hreap
  obtain ⟨q, rtt, cong, deadline, sent, htimers⟩ := timers_eq d now
  rw [htimers, tickKeepalive_sendBuf, tickPersist, if_neg fun h => hd (.inr (.inr h.1))]
  exact hbuf

theorem stable_unsent (unsent : Bytes) :
    Stable fun c : Connection F => ¬ c.state.PreFin ∧ c.sendBuf = unsent := by
  have hpost := stable_states (F := F) (S := fun s => ¬ s.PreFin) fun s s' hs hmem => by
    cases s <;> simp_all [State.successors, State.PreFin]
    all_goals rcases hmem with rfl | rfl | rfl | rfl <;> simp
  constructor
  · exact fun c now hc => ⟨hpost.tick c now hc.1, (onTick_unsent hc.1 now).trans hc.2⟩
  · exact fun c seg now rnd hc => ⟨hpost.segment c seg now rnd hc.1, (c.onSegment_sendBuf seg now rnd).trans hc.2⟩
  · intro c now hc
    have hidle : c.state ≠ .established ∧ c.state ≠ .closeWait :=
      ⟨fun hs => hc.1 (hs ▸ by simp [State.PreFin]), fun hs => hc.1 (hs ▸ by simp [State.PreFin])⟩
    rw [pollTransmit, if_pos hidle]
    exact hc

theorem stable_overtaken :
    Stable fun c : Connection F => c.state ≠ .synSent ∧ c.state ≠ .synRcvd ∧ c.state ≠ .established := by
  refine stable_states (S := fun s => s ≠ .synSent ∧ s ≠ .synRcvd ∧ s ≠ .established) fun s s' hs hmem => ?_
  cases s <;> simp_all [State.successors]
  all_goals rcases hmem with rfl | rfl | rfl | rfl <;> simp

end Connection

namespace Socket

theorem loop_never_ends {σ α : Type} (I : σ → Prop) (loop : Nat → σ → σ × Ended α)
    (hzero : ∀ s, (loop 0 s).2 = .running)
    (hturn : ∀ more s, I s → (loop (more + 1) s).2 = .running ∨ ∃ s', I s' ∧ loop (more + 1) s = loop more s') :
    ∀ more s, I s → (loop more s).2 = .running := by
  intro more
  induction more with
  | zero => exact fun s _ => hzero s
  | succ more ih =>
      intro s hs
      rcases hturn more s hs with hrun | ⟨s', hs', heq⟩
      · exact hrun
      · rw [heq]
        exact ih s' hs'

namespace Environment

def Lulls (env : Environment) : Prop := ∀ i, ∃ j, i ≤ j ∧ ∀ a, env.tryRecv j ≠ .ready a

/-- The transport never fails. -/
structure Reliable (env : Environment) : Prop where
  takes : ∀ i, env.takes i = true
  receives : ∀ i, env.tryRecv i ≠ .failed

def silent : Environment where
  clock _ := 0#64
  forward _ := BitVec.le_refl _
  tryRecv _ := .empty
  takes _ := true

theorem silent_lulls : silent.Lulls := fun i => ⟨i, Nat.le_refl i, fun _ h => nomatch h⟩

theorem silent_reliable : silent.Reliable := ⟨fun _ => rfl, fun _ h => nomatch h⟩

end Environment

theorem andThen_failed {σ α β : Type} {x : σ × Ended α} {next : σ → α → σ × Ended β} (hx : x.2 ≠ .failed)
    (hnext : ∀ s a, (next s a).2 ≠ .failed) : (andThen x next).2 ≠ .failed := by
  obtain ⟨s, r⟩ := x
  cases r with
  | ok a => exact hnext s a
  | failed => exact absurd rfl hx
  | running => exact fun h => nomatch h

theorem andThen_back {σ α β : Type} {x : σ × Ended α} {next : σ → α → σ × Ended β} (hx : x.2 ≠ .running)
    (hnext : ∀ a, (next x.1 a).2 ≠ .running) : (andThen x next).2 ≠ .running := by
  obtain ⟨s, r⟩ := x
  cases r with
  | ok a => exact hnext a
  | failed => exact fun h => nomatch h
  | running => exact absurd rfl hx

theorem Channel.sendAll_back (env : Environment) (packets : List Bytes) : ∀ io : Channel,
    (io.sendAll env packets).1.received = io.received ∧ (io.sendAll env packets).2 ≠ .running ∧
      (env.Reliable → (io.sendAll env packets).2 = .ok ()) := by
  induction packets with
  | nil =>
      refine fun io => ⟨rfl, fun h => ?_, fun _ => rfl⟩
      cases h
  | cons packet rest ih =>
      intro io
      unfold sendAll send
      split_ifs with htakes
      · exact ih _
      · refine ⟨rfl, fun h => ?_, fun hrel => absurd (hrel.takes _) htakes⟩
        cases h

namespace TcpStream

variable (env : Environment) (turns : Nat)

/-- What has no end is still there, and so is what the caller has not read. -/
structure Keeps (P : Connection F → Prop) (s s' : TcpStream F) : Prop where
  conn : P s.conn → P s'.conn
  rbuf : s'.rbuf = s.rbuf

theorem Keeps.trans {P : Connection F → Prop} {a b c : TcpStream F} (h : Keeps P a b)
    (h' : Keeps P b c) : Keeps P a c :=
  ⟨h'.conn ∘ h.conn, h'.rbuf.trans h.rbuf⟩

theorem drive_keeps {P : Connection F → Prop} (now : U64) {f : Connection F → Connection F × List Bytes}
    (hf : ∀ c, P c → P (f c).1) (s : TcpStream F) : Keeps P s (s.drive env now f).1 := ⟨hf s.conn, rfl⟩

theorem ingest_keeps {P : Connection F → Prop} (hP : Connection.Stable P) (now : U64) :
    ∀ s : TcpStream F, Keeps P s (s.ingest env now turns).1 := by
  induction turns with
  | zero => exact fun s => ⟨id, rfl⟩
  | succ turns ih =>
      intro s
      have hnext : Keeps P s { s with io := { s.io with received := s.io.received + 1 } } := ⟨id, rfl⟩
      unfold ingest
      dsimp only
      split
      · exact hnext
      · exact hnext
      · split
        · exact hnext.trans (ih _)
        · refine andThen_rel (hnext.trans (drive_keeps env now (fun c => hP.segment c _ now _) _)) fun s' _ h => ?_
          exact h.trans (ih s')

theorem poll_keeps {P : Connection F → Prop} (hP : Connection.Stable P) (now : U64) (s : TcpStream F) :
    Keeps P s (s.poll env turns now).1 :=
  andThen_rel (drive_keeps env now (fun c => hP.tick c now) s) fun s' _ h =>
    andThen_rel (h.trans (ingest_keeps env turns hP now s')) fun s'' _ h' =>
      h'.trans (drive_keeps env now (fun c => hP.poll c now) s'')

theorem pollNow_keeps {P : Connection F → Prop} (hP : Connection.Stable P) (s : TcpStream F) :
    Keeps P s (s.pollNow env turns).1 :=
  have hnow : Keeps P s (s.now env).2 := ⟨id, rfl⟩
  hnow.trans (poll_keeps env turns hP _ _)

variable {env}

theorem drive_back (now : U64) (f : Connection F → Connection F × List Bytes) (s : TcpStream F) :
    (s.drive env now f).1.io.received = s.io.received ∧ (s.drive env now f).2 ≠ .running ∧
      (env.Reliable → (s.drive env now f).2 = .ok ()) :=
  Channel.sendAll_back env (f s.conn).2 { s.io with passed := s.io.passed ++ [now] }

theorem ingest_reliable (hrel : env.Reliable) (now : U64) : ∀ s : TcpStream F,
    (s.ingest env now turns).2 ≠ .failed := by
  induction turns with
  | zero =>
      intro s h
      cases h
  | succ turns ih =>
      intro s
      unfold ingest
      dsimp only
      split
      · rename_i hfailed
        exact absurd hfailed (hrel.receives _)
      · intro h
        cases h
      · split
        · exact ih _
        · refine andThen_failed ?_ fun s' _ => ih s'
          rw [(drive_back now _ _).2.2 hrel]
          intro h
          cases h

theorem pollNow_reliable (hrel : env.Reliable) (s : TcpStream F) : (s.pollNow env turns).2 ≠ .failed := by
  have hdrive : ∀ (now : U64) (f : Connection F → Connection F × List Bytes) (s : TcpStream F),
      (s.drive env now f).2 ≠ .failed := by
    intro now f s
    rw [(drive_back now f s).2.2 hrel]
    exact fun h => nomatch h
  unfold pollNow poll
  exact andThen_failed (hdrive _ _ _) fun s' _ =>
    andThen_failed (ingest_reliable turns hrel _ s') fun s'' _ => hdrive _ _ s''

theorem ingest_back (now : U64) (n : Nat) : ∀ s : TcpStream F, (∀ a, env.tryRecv (s.io.received + n) ≠ .ready a) →
    (s.ingest env now (n + 1)).2 ≠ .running := by
  induction n with
  | zero =>
      intro s hlull
      unfold ingest
      dsimp only
      split
      · exact fun h => nomatch h
      · exact fun h => nomatch h
      · rename_i a hready
        exact absurd hready (hlull a)
  | succ n ih =>
      intro s hlull
      unfold ingest
      dsimp only
      split
      · exact fun h => nomatch h
      · exact fun h => nomatch h
      · have hnext : ∀ a, env.tryRecv (s.io.received + 1 + n) ≠ .ready a := by
          rwa [Nat.add_right_comm]
        split
        · exact ih _ hnext
        · refine andThen_back (drive_back now _ _).2.1 fun _ => ih _ ?_
          rw [(drive_back now _ _).1]
          exact hnext

theorem pollNow_back (hlulls : env.Lulls) (s : TcpStream F) : ∃ turns, (s.pollNow env turns).2 ≠ .running := by
  obtain ⟨j, hj, hlull⟩ := hlulls s.io.received
  refine ⟨j - s.io.received + 1, ?_⟩
  unfold pollNow poll
  refine andThen_back (drive_back _ _ _).2.1 fun _ => andThen_back (ingest_back _ _ _ ?_) fun _ =>
    (drive_back _ _ _).2.1
  rw [(drive_back _ _ _).1]
  rwa [show (s.now env).2.io.received + (j - s.io.received) = j from Nat.add_sub_cancel' hj]

theorem turn_cases {α : Type} (hrel : env.Reliable) (s : TcpStream F)
    (next : TcpStream F → Unit → TcpStream F × Ended α) :
    (andThen (s.pollNow env turns) next).2 = .running ∨
      andThen (s.pollNow env turns) next = next (s.pollNow env turns).1 () := by
  have hfail := pollNow_reliable turns hrel s
  generalize s.pollNow env turns = r at hfail
  obtain ⟨s', x⟩ := r
  cases x with
  | ok _ => exact .inr rfl
  | failed => exact absurd rfl hfail
  | running => exact .inl rfl

/-- What `read` does with the connection after a pump. -/
theorem read_turn (len more : Nat) (s : TcpStream F) : s.read env turns len (more + 1) =
    andThen (s.pollNow env turns) fun s _ =>
      if !s.drainDelivered.rbuf.isEmpty then
        ({ s.drainDelivered with rbuf := s.drainDelivered.rbuf.drop (min len s.drainDelivered.rbuf.length) },
          .ok (s.drainDelivered.rbuf.take (min len s.drainDelivered.rbuf.length)))
      else if s.drainDelivered.conn.peerClosed then (s.drainDelivered, .ok [])
      else s.drainDelivered.read env turns len more := rfl

theorem read_stuck (hrel : env.Reliable) (len : Nat) : ∀ more (s : TcpStream F),
    (s.conn.state = .closed ∧ s.conn.recvBuf = [] ∧ s.conn.peerFin = false) ∧ s.rbuf = [] →
      (s.read env turns len more).2 = .running := by
  refine loop_never_ends _ (fun more (s : TcpStream F) => s.read env turns len more)
    (fun s => rfl) fun more s hs => ?_
  have hkeeps := pollNow_keeps env turns (Connection.stable_closed false) s
  rw [read_turn]
  refine (turn_cases turns hrel s _).imp id fun heq => ⟨(s.pollNow env turns).1.drainDelivered, ?_⟩
  rw [heq]
  have hconn := hkeeps.conn hs.1
  have hrbuf := hkeeps.rbuf.trans hs.2
  generalize (s.pollNow env turns).1 = s' at hconn hrbuf
  have hdrained : s'.drainDelivered.rbuf = [] := by
    rw [drainDelivered, hrbuf, Connection.takeReceived, hconn.2.1]
    rfl
  have hopen : s'.drainDelivered.conn.peerClosed = false := hconn.2.2
  refine ⟨⟨⟨hconn.1, rfl, hconn.2.2⟩, hdrained⟩, ?_⟩
  rw [hdrained, hopen]
  rfl

theorem flush_stuck (hrel : env.Reliable) (unsent : Bytes) (hne : unsent ≠ []) : ∀ more (s : TcpStream F),
    ¬ s.conn.state.PreFin ∧ s.conn.sendBuf = unsent → (s.flush env turns more).2 = .running := by
  refine loop_never_ends _ (fun more (s : TcpStream F) => s.flush env turns more) (fun s => rfl) fun more s hs => ?_
  have hkeeps := pollNow_keeps env turns (Connection.stable_unsent unsent) s
  have hturn : s.flush env turns (more + 1) = andThen (s.pollNow env turns) fun s _ => s.flush env turns more := by
    rw [flush, if_neg]
    simpa [Connection.sendBufferEmpty, hs.2] using hne
  rw [hturn]
  exact (turn_cases turns hrel s _).imp id fun heq => ⟨_, hkeeps.conn hs, heq⟩

theorem awaitEstablished_stuck (hrel : env.Reliable) : ∀ more (s : TcpStream F),
    s.conn.state ≠ .synSent ∧ s.conn.state ≠ .synRcvd ∧ s.conn.state ≠ .established →
      (s.awaitEstablished env turns more).2 = .running := by
  refine loop_never_ends _ (fun more (s : TcpStream F) => s.awaitEstablished env turns more)
    (fun s => rfl) fun more s hs => ?_
  have hkeeps := pollNow_keeps env turns Connection.stable_overtaken s
  have hturn : s.awaitEstablished env turns (more + 1) =
      andThen (s.pollNow env turns) fun s _ => s.awaitEstablished env turns more := by
    rw [awaitEstablished, if_neg hs.2.2]
  rw [hturn]
  exact (turn_cases turns hrel s _).imp id fun heq => ⟨_, hkeeps.conn hs, heq⟩

/-- The call comes back over every transport that runs empty. -/
def Returns {α : Type} (call : Environment → Nat → Nat → Ended α) : Prop :=
  ∀ env : Environment, env.Lulls → ∃ turns more, call env turns more ≠ .running

/-- The call comes back over no transport that does not fail. -/
def Hangs {α : Type} (call : Environment → Nat → Nat → Ended α) : Prop :=
  ∀ env : Environment, env.Reliable → ∀ turns more, call env turns more = .running

theorem Hangs.not_returns {α : Type} {call : Environment → Nat → Nat → Ended α} (h : Hangs call) :
    ¬ Returns call := by
  intro hreturns
  obtain ⟨turns, more, hback⟩ := hreturns .silent Environment.silent_lulls
  exact hback (h .silent Environment.silent_reliable turns more)

theorem returns_iff {α : Type} {call : Environment → Nat → Nat → Ended α} {p : Prop} (hreturns : p → Returns call)
    (hhangs : ¬ p → Hangs call) : (Returns call ↔ p) ∧ (Hangs call ↔ ¬ p) := by
  refine ⟨⟨fun h => ?_, hreturns⟩, fun h hp => h.not_returns (hreturns hp), hhangs⟩
  by_contra hp
  exact (hhangs hp).not_returns h

theorem read_returns {s : TcpStream F} (hfin : s.conn.state = .closed ∧ s.conn.recvBuf = [] ∧ s.conn.peerFin = true)
    (len : Nat) : Returns fun env turns more => (s.read env turns len more).2 := by
  intro env hlulls
  obtain ⟨turns, hback⟩ := pollNow_back hlulls s
  have hconn := (pollNow_keeps env turns (Connection.stable_closed true) s).conn hfin
  refine ⟨turns, 1, ?_⟩
  show (s.read env turns len 1).2 ≠ .running
  rw [read_turn]
  refine andThen_back hback fun _ => ?_
  generalize (s.pollNow env turns).1 = s' at hconn
  have hend : s'.drainDelivered.conn.peerClosed = true := hconn.2.2
  split_ifs
  all_goals exact fun h => nomatch h

/-- A blocking call that waits for what cannot happen any more comes back
exactly when its loop has another reason to end: `read` on a connection that is
closed and drained if the peer's FIN was taken, `flush` after our FIN or the end
of the connection if nothing was left in the send buffer, and the wait of
`accept` after the handshake if that pump ended in ESTABLISHED. Otherwise no
transport ends it but by failing. -/
theorem blocking_calls_return_iff (s : TcpStream F) :
    (s.conn.state = .closed → s.conn.recvBuf = [] → s.rbuf = [] → ∀ len,
      (Returns (fun env turns more => (s.read env turns len more).2) ↔ s.conn.peerClosed = true) ∧
      (Hangs (fun env turns more => (s.read env turns len more).2) ↔ ¬ s.conn.peerClosed = true)) ∧
    (¬ s.conn.state.PreFin →
      (Returns (fun env turns more => (s.flush env turns more).2) ↔ s.conn.sendBufferEmpty = true) ∧
      (Hangs (fun env turns more => (s.flush env turns more).2) ↔ ¬ s.conn.sendBufferEmpty = true)) ∧
    (s.conn.state ≠ .synSent → s.conn.state ≠ .synRcvd →
      (Returns (fun env turns more => (s.awaitEstablished env turns more).2) ↔ s.conn.state = .established) ∧
      (Hangs (fun env turns more => (s.awaitEstablished env turns more).2) ↔ ¬ s.conn.state = .established)) := by
  refine ⟨fun hclosed hrecv hrbuf len => ?_, fun hpost => ?_, fun hsent hrcvd => ?_⟩
  · refine returns_iff (fun hfin => read_returns ⟨hclosed, hrecv, hfin⟩ len) fun hfin env hrel turns more => ?_
    exact read_stuck turns hrel len more s ⟨⟨hclosed, hrecv, Bool.eq_false_of_not_eq_true hfin⟩, hrbuf⟩
  · refine returns_iff (fun hempty env _ => ⟨0, 1, ?_⟩) fun hunsent env hrel turns more => ?_
    · rw [flush, if_pos hempty]
      exact fun h => nomatch h
    · refine flush_stuck turns hrel s.conn.sendBuf (fun hnil => hunsent ?_) more s ⟨hpost, rfl⟩
      rw [Connection.sendBufferEmpty, hnil]
      rfl
  · refine returns_iff (fun hest env _ => ⟨0, 1, ?_⟩) fun hover env hrel turns more => ?_
    · rw [awaitEstablished, if_pos hest]
      exact fun h => nomatch h
    · exact awaitEstablished_stuck turns hrel more s ⟨hsent, hrcvd, hover⟩

def close (env : Environment) (now : U64) (s : TcpStream F) : TcpStream F × Ended Unit :=
  s.drive env now fun c => ((c.close now).1, (c.close now).2.toList)

def caller : Endpoint := (Ipv4Addr.new 10#8 0#8 0#8 1#8, 4000#16)

def called : Endpoint := (Ipv4Addr.new 10#8 0#8 0#8 2#8, 80#16)

/-- A segment of the caller, when the SYN-ACK has taken 700 from the sequence space. -/
def fromCaller (seq ack : U32) (flags : U8) (payload : Bytes) : Received :=
  .ready ⟨buildPacket caller called seq ack flags 1024#16 [] payload, 700#32, 0#32⟩

/-- A transport with these arrivals that takes everything. -/
def callerEnv (tryRecv : Nat → Received) : Environment where
  clock _ := 0#64
  forward _ := BitVec.le_refl _
  tryRecv := tryRecv
  takes _ := true

/-- The handshake, later the caller's FIN, later the ACK of ours. -/
def politeEnv : Environment := callerEnv fun
  | 0 => fromCaller 5#32 0#32 SYN []
  | 1 => fromCaller 6#32 701#32 ACK []
  | 3 => fromCaller 6#32 701#32 (FIN ||| ACK) []
  | 5 => fromCaller 7#32 702#32 ACK []
  | _ => .empty

def resetEnv : Environment := callerEnv fun
  | 0 => fromCaller 5#32 0#32 SYN []
  | 1 => fromCaller 6#32 701#32 ACK []
  | 3 => fromCaller 6#32 0#32 RST []
  | _ => .empty

/-- The handshake, with a byte and the FIN right behind it. -/
def hastyEnv : Environment := callerEnv fun
  | 0 => fromCaller 5#32 0#32 SYN []
  | 1 => fromCaller 6#32 701#32 ACK []
  | 2 => fromCaller 6#32 701#32 ACK [9#8]
  | 3 => fromCaller 7#32 701#32 (FIN ||| ACK) []
  | _ => .empty

theorem resetEnv_reliable : resetEnv.Reliable := by
  refine ⟨fun _ => rfl, fun i => ?_⟩
  simp only [resetEnv, callerEnv]
  split <;> simp [fromCaller]

theorem hastyEnv_reliable : hastyEnv.Reliable := by
  refine ⟨fun _ => rfl, fun i => ?_⟩
  simp only [hastyEnv, callerEnv]
  split <;> simp [fromCaller]

theorem accepted_of_any (env : Environment) (p : TcpStream F → Prop) [DecidablePred p]
    (h : (((TcpListener.bind called).accept env 5).2.value.any fun s => decide (p s)) = true) :
    ∃ s : TcpStream F, ((TcpListener.bind called).accept env 5).2 = .ok s ∧ p s := by
  obtain ⟨s, hs, hp⟩ := (Option.any_eq_true _ _).mp h
  exact ⟨s, Ended.value_some hs, of_decide_eq_true hp⟩

/-- Our FIN after the caller's, and the pump that takes the ACK of it. -/
def part (s : TcpStream F) : TcpStream F × Ended Unit :=
  ((s.pollNow politeEnv 5).1.close politeEnv 0#64).1.pollNow politeEnv 5

/-- Both sides have closed: `read` finds the end of the stream, `flush` nothing to do. -/
theorem polite_stream_returns : ∃ s : TcpStream Rat, ((TcpListener.bind called).accept politeEnv 5).2 = .ok s ∧
    s.part.2 = .ok () ∧ s.part.1.conn.state = .closed ∧
    Returns (fun env turns more => (s.part.1.read env turns 1 more).2) ∧
    Returns (fun env turns more => (s.part.1.flush env turns more).2) := by
  obtain ⟨s, hs, hback, hclosed, hrecv, hrbuf, hfin, hempty⟩ := accepted_of_any (F := Rat) politeEnv
    (fun s => s.part.2 = .ok () ∧ s.part.1.conn.state = .closed ∧ s.part.1.conn.recvBuf = [] ∧ s.part.1.rbuf = [] ∧
      s.part.1.conn.peerClosed = true ∧ s.part.1.conn.sendBufferEmpty = true) (by decide +kernel)
  obtain ⟨hread, hflush, -⟩ := blocking_calls_return_iff s.part.1
  refine ⟨s, hs, hback, hclosed, (hread hclosed hrecv hrbuf 1).1.mpr hfin, (hflush ?_).1.mpr hempty⟩
  rw [hclosed]
  simp [State.PreFin]

/-- The stream closes with a byte in its send buffer. -/
def abandon (s : TcpStream F) : TcpStream F := ({ s with conn := s.conn.write [1#8] }.close resetEnv 0#64).1

/-- A reset with nothing to read: `read` never sees it. A FIN sent before the last
byte: `flush` waits for the byte. A client that is done in one pump: the listener
waits for ESTABLISHED. No transport ends these but by failing. -/
theorem abandoned_streams_hang :
    resetEnv.Reliable ∧ hastyEnv.Reliable ∧
    (∃ s : TcpStream Rat, ((TcpListener.bind called).accept resetEnv 5).2 = .ok s ∧
      (s.pollNow resetEnv 5).1.conn.state = .closed ∧ (s.pollNow resetEnv 5).1.conn.recvBuf = [] ∧
      (s.pollNow resetEnv 5).1.rbuf = [] ∧
      Hangs (fun env turns more => ((s.pollNow resetEnv 5).1.read env turns 1 more).2)) ∧
    (∃ s : TcpStream Rat, ((TcpListener.bind called).accept resetEnv 5).2 = .ok s ∧
      s.abandon.conn.state = .finWait1 ∧ Hangs (fun env turns more => (s.abandon.flush env turns more).2)) ∧
    (∃ s : TcpStream Rat, ((TcpListener.bind called).pollAccept hastyEnv 5 0#64).2 = .ok (some s) ∧
      s.conn.state = .synRcvd ∧ (s.pollNow hastyEnv 5).2 = .ok () ∧ (s.pollNow hastyEnv 5).1.conn.state = .closeWait ∧
      Hangs (fun env turns more => ((s.pollNow hastyEnv 5).1.awaitEstablished env turns more).2)) := by
  refine ⟨resetEnv_reliable, hastyEnv_reliable, ?_, ?_, ?_⟩
  · obtain ⟨s, hs, hclosed, hrecv, hrbuf, hfin⟩ := accepted_of_any (F := Rat) resetEnv
      (fun s => (s.pollNow resetEnv 5).1.conn.state = .closed ∧ (s.pollNow resetEnv 5).1.conn.recvBuf = [] ∧
        (s.pollNow resetEnv 5).1.rbuf = [] ∧ (s.pollNow resetEnv 5).1.conn.peerFin = false) (by decide +kernel)
    exact ⟨s, hs, hclosed, hrecv, hrbuf, fun env hrel turns more =>
      read_stuck turns hrel 1 more _ ⟨⟨hclosed, hrecv, hfin⟩, hrbuf⟩⟩
  · obtain ⟨s, hs, hsent, hunsent⟩ := accepted_of_any (F := Rat) resetEnv
      (fun s => s.abandon.conn.state = .finWait1 ∧ s.abandon.conn.sendBuf = [1#8]) (by decide +kernel)
    refine ⟨s, hs, hsent, fun env hrel turns more => flush_stuck turns hrel [1#8] (by simp) more _ ⟨?_, hunsent⟩⟩
    rw [hsent]
    simp [State.PreFin]
  · obtain ⟨s, hs, hp⟩ := (Option.any_eq_true _ _).mp
      (by decide +kernel :
        (((TcpListener.bind called).pollAccept (F := Rat) hastyEnv 5 0#64).2.value.join.any fun s =>
          decide (s.conn.state = .synRcvd ∧ (s.pollNow hastyEnv 5).2 = .ok () ∧
            (s.pollNow hastyEnv 5).1.conn.state = .closeWait)) = true)
    obtain ⟨hrcvd, hback, hover⟩ := of_decide_eq_true hp
    refine ⟨s, Ended.value_some (Option.join_eq_some_iff.mp hs), hrcvd, hback, hover, fun env hrel turns more => ?_⟩
    exact awaitEstablished_stuck turns hrel more _ (by simp [hover])

end TcpStream
end Socket
end TcpStack
