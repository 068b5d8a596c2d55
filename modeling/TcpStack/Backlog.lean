import TcpStack.Server
import TcpStack.Discipline

/-!
# Announcing connections

The server pushes a connection to its backlog when a poll finds it in
ESTABLISHED at its end, and remembers that it did until it reaps the
connection. A watcher follows each connection from its insertion into the
table: whether its handshake completed, and how often its 4-tuple was pushed.
-/
namespace TcpStack.Socket
open Tcp

variable {F : Type} [F64 F]

/-- What has happened to a connection since it was inserted. -/
structure Life where
  completed : Bool := false
  pushed : Nat := 0
  deriving DecidableEq, Repr

def Completes (before after : State) : Prop := before = .synRcvd ∧ (after = .established ∨ after = .closeWait)

instance (before after : State) : Decidable (Completes before after) := inferInstanceAs (Decidable (_ ∧ _))

/-- The life under a 4-tuple after the server went from `s` to `s'`. -/
def Life.next (l : Life) (s s' : TcpServer F) (q : Quad) : Life :=
  match s.conns.lookup q, s'.conns.lookup q with
  | some c, some c' =>
      { completed := l.completed || decide (Completes c.state c'.state)
        pushed := l.pushed + (s'.backlog.drop s.backlog.length).count q }
  | none, some _ => {}
  | _, none => l

/-- A server with the lives of its connections and of those it has reaped. -/
structure Watch (F : Type) [F64 F] where
  server : TcpServer F
  life : Quad → Life := fun _ => {}
  past : List (Quad × Life) := []

namespace Watch

def start (localEnd : Endpoint) : Watch F := { server := .bind localEnd }

/-- The server moves on to `s'`. -/
def moveTo (w : Watch F) (s' : TcpServer F) : Watch F where
  server := s'
  life := fun q => (w.life q).next w.server s' q
  past := w.past ++ (w.server.conns.keys.filter (fun q => (s'.conns.lookup q).isNone)).map (fun q => (q, w.life q))

/-- The timers and the datagrams of a poll, watched one by one. -/
def intake (w : Watch F) (r : Round F) : Except (Watch F) (Watch F) := do
  let w ← seen w.moveTo (TcpServer.tick { w.server with room := r.room } r.timers r.now)
  r.batch.foldlM (fun w a => seen w.moveTo (w.server.ingest r.now a)) w

def pump (w : Watch F) (r : Round F) : Except (Watch F) (Watch F) := do
  let w ← w.intake r
  if r.failed then .error w else seen w.moveTo (w.server.flush r.flushes r.now)

def poll (w : Watch F) (r : Round F) : Watch F :=
  match w.pump r with
  | .ok w => w.moveTo w.server.reap
  | .error w => w

def step (w : Watch F) : Event F → Watch F
  | .poll r => w.poll r
  | .acceptOne => w.moveTo w.server.acceptOne.1
  | .send quad data => w.moveTo (w.server.send quad data)
  | .recv quad => w.moveTo (w.server.recv quad).1
  | .close quad now room => w.moveTo (w.server.close quad now room)

def run (w : Watch F) (events : List (Event F)) : Watch F := events.foldl step w

theorem seen_moveTo (w : Watch F) (x : Except (TcpServer F) (TcpServer F)) : seen server (seen w.moveTo x) = x := by
  cases x <;> rfl

theorem intake_server (w : Watch F) (r : Round F) : seen server (w.intake r) = w.server.intake r := by
  have hbatch : ∀ w' : Watch F,
      seen server (r.batch.foldlM (fun w a => seen w.moveTo (w.server.ingest r.now a)) w') =
        r.batch.foldlM (TcpServer.ingest r.now) w'.server :=
    seen_foldlM (fun w' a => seen_moveTo w' _) r.batch
  refine (seen_bind (k := fun s => r.batch.foldlM (TcpServer.ingest r.now) s) hbatch).trans ?_
  rw [seen_moveTo]
  rfl

theorem pump_server (w : Watch F) (r : Round F) : seen server (w.pump r) = w.server.pump r := by
  refine (seen_bind (k := fun s => if r.failed then .error s else s.flush r.flushes r.now) fun w' => ?_).trans ?_
  · split_ifs
    · rfl
    · exact seen_moveTo w' _
  · rw [intake_server]
    rfl

theorem step_server (x : Session F) (w : Watch F) (h : w.server = x.server) (e : Event F) :
    (w.step e).server = (x.step e).server := by
  cases e with
  | poll r =>
      have hpump := w.pump_server r
      simp only [step, poll, Session.step, TcpServer.poll, ← h, ← hpump]
      cases w.pump r <;> rfl
  | acceptOne | send | recv | close =>
      simp only [step, Session.step, ← h]
      rfl

theorem run_server (x : Session F) (w : Watch F) (h : w.server = x.server) (events : List (Event F)) :
    (w.run events).server = (x.run events).server := by
  induction events generalizing x w with
  | nil => exact h
  | cons e events ih => exact ih (x.step e) (w.step e) (step_server x w h e)

end Watch

/-- Every connection whose handshake completed was pushed exactly once, and the
backlog names connections of the table, each at most once. -/
structure AnnouncedOnce (w : Watch F) : Prop where
  present : ∀ q, (w.server.conns.lookup q).isSome → (w.life q).completed = true → (w.life q).pushed = 1
  past : ∀ e ∈ w.past, e.2.completed = true → e.2.pushed = 1
  named : ∀ q ∈ w.server.backlog, (w.server.conns.lookup q).isSome
  nodup : w.server.backlog.Nodup

/-- A segment that is not for an announced connection may complete the
handshake, if the poll goes on to announce, and goes no further. -/
def Calm (cut : Bool) (before after : State) : Prop :=
  (before = .established → after = .established) ∧
    (before = .synRcvd → after ≠ .closeWait ∧ (after = .established → cut = false))

instance (cut : Bool) (before after : State) : Decidable (Calm cut before after) :=
  inferInstanceAs (Decidable (_ ∧ _))

namespace TcpServer

/-- The datagram finds its connection calm, if that is not announced. -/
def CalmAt (cut : Bool) (now : U64) (s : TcpServer F) (a : Arrival) : Prop :=
  ∀ e ∈ a.route, e.1 ∉ s.announced → ∀ c ∈ s.conns.lookup e.1, Calm cut c.state (c.onSegment e.2 now a.rnd).1.state

instance (cut : Bool) (now : U64) (s : TcpServer F) : DecidablePred (CalmAt cut now s) :=
  fun a => inferInstanceAs (Decidable (∀ e ∈ a.route, _))

/-- So do all that the server takes before a send fails. -/
def CalmAll (cut : Bool) (now : U64) : TcpServer F → List Arrival → Prop
  | _, [] => True
  | s, a :: batch => s.CalmAt cut now a ∧ Leaves (fun s' => s'.CalmAll cut now batch) (fun _ => True) (s.ingest now a)

instance decidableCalmAll (cut : Bool) (now : U64) : (s : TcpServer F) → (batch : List Arrival) →
    Decidable (s.CalmAll cut now batch)
  | _, [] => .isTrue trivial
  | _, _ :: batch =>
      have : DecidablePred fun s' : TcpServer F => s'.CalmAll cut now batch := fun s' =>
        decidableCalmAll cut now s' batch
      inferInstanceAs (Decidable (_ ∧ Leaves _ _ _))

/-- Whether the transport fails during the poll. -/
def cut (s : TcpServer F) (r : Round F) : Bool :=
  match s.pump r with
  | .ok _ => false
  | .error _ => true

end TcpServer

/-- No datagram takes a connection past ESTABLISHED in the poll that completes
its handshake, and no connection that waits in the backlog is in CLOSED when
the poll reaps. -/
structure Orderly (s : TcpServer F) (r : Round F) : Prop where
  calm : Leaves (fun s' => s'.CalmAll (s.cut r) r.now r.batch) (fun _ => True)
    (TcpServer.tick { s with room := r.room } r.timers r.now)
  waiting : Leaves (fun s' => ∀ q ∈ s.backlog, ∀ c ∈ s'.conns.lookup q, c.state ≠ .closed) (fun _ => True) (s.pump r)

/-- Every poll of the run is orderly in the state it finds. -/
def OrderlyRun : Session F → List (Event F) → Prop
  | _, [] => True
  | x, e :: events => (∀ r, e = .poll r → Orderly x.server r) ∧ OrderlyRun (x.step e) events

/-- The server moves its connections along the state diagram, those that are not
announced calmly, and opens new ones. -/
structure Quiet (cut : Bool) (s s' : TcpServer F) : Prop where
  backlog : s'.backlog = s.backlog
  announced : s'.announced = s.announced
  old : ∀ q c, s.conns.lookup q = some c → ∃ c', s'.conns.lookup q = some c' ∧
    (c'.state = c.state ∨ c'.state ∈ c.state.successors) ∧ (q ∉ s.announced → Calm cut c.state c'.state)
  new : ∀ q c', s.conns.lookup q = none → s'.conns.lookup q = some c' → c'.state = .synRcvd

def Sampled (s : TcpServer F) : Prop := ∀ q c, s.conns.lookup q = some c → c.state = .established → q ∈ s.announced

theorem Quiet.of_calls {s s' : TcpServer F} (hs : Sampled s)
    (hbooks : s'.backlog = s.backlog ∧ s'.announced = s.announced) {f : Connection F → Connection F × List Bytes}
    (hconns : ∀ q, s'.conns.lookup q = s.conns.lookup q ∨
      s'.conns.lookup q = (s.conns.lookup q).map (fun c => (f c).1))
    (hedge : ∀ c, (f c).1.state = c.state ∨ (f c).1.state ∈ c.state.successors)
    (hrcvd : ∀ c, c.state = .synRcvd → (f c).1.state = .synRcvd ∨ (f c).1.state = .closed) : Quiet true s s' := by
  have hcalm : ∀ {q c after}, s.conns.lookup q = some c → (c.state = .synRcvd → after = .synRcvd ∨ after = .closed) →
      q ∉ s.announced → Calm true c.state after := by
    intro q c after hc hafter hq
    refine ⟨fun hopen => absurd (hs q c hc hopen) hq, fun h => ?_⟩
    rcases hafter h with rfl | rfl <;> decide
  refine ⟨hbooks.1, hbooks.2, fun q c hc => ?_, fun q c' hnone hc' => ?_⟩
  · rcases hconns q with hsame | hcall
    · exact ⟨c, hsame.trans hc, .inl rfl, hcalm hc .inl⟩
    · rw [hc, Option.map_some] at hcall
      exact ⟨(f c).1, hcall, hedge c, hcalm hc (hrcvd c)⟩
  · rcases hconns q with hsame | hcall
    · cases hnone.symm.trans (hsame.symm.trans hc')
    · rw [hnone, hc'] at hcall
      cases hcall

namespace TcpServer

/-- What is announced, and to whom, is none of a connection's business. -/
def SameBooks (s s' : TcpServer F) : Prop := s'.backlog = s.backlog ∧ s'.announced = s.announced

theorem drive_books (f : Connection F → Connection F × List Bytes) (s : TcpServer F) (quad : Quad) :
    Leaves (SameBooks s) (SameBooks s) (s.drive f quad) := by
  unfold drive
  cases s.conns.lookup quad with
  | none => exact ⟨rfl, rfl⟩
  | some conn =>
      refine (puts_leaves quad _ _).mono (fun s' h => ?_) ?_
      · rw [h.eq]
        exact ⟨rfl, rfl⟩
      · rintro s' ⟨-, taken, -, h⟩
        rw [h.eq]
        exact ⟨rfl, rfl⟩

theorem tick_books (s : TcpServer F) (o : Table.Order Quad (Connection F)) (now : U64) :
    Leaves (SameBooks s) (SameBooks s) (s.tick o now) := by
  refine Leaves.foldlM (I := fun _ => SameBooks s) (fun quad rest s' h => ?_) ⟨rfl, rfl⟩
  have htrans : ∀ s'', SameBooks s' s'' → SameBooks s s'' := fun s'' h' => ⟨h'.1.trans h.1, h'.2.trans h.2⟩
  exact (drive_books _ s' quad).mono htrans htrans

theorem tick_quiet {s : TcpServer F} (hs : Sampled s) (room : Option Nat)
    (o : Table.Order Quad (Connection F)) (now : U64) :
    Leaves (Quiet true s) (Quiet true s) (tick { s with room } o now) := by
  have hquiet : ∀ {s' : TcpServer F}, SameBooks { s with room } s' →
      (∀ q, s'.conns.lookup q = s.conns.lookup q ∨
      s'.conns.lookup q = (s.conns.lookup q).map (fun c => (c.onTick now).1)) →
      Quiet true s s' := by
    intro s' hbooks hconns
    refine Quiet.of_calls hs hbooks hconns (fun c => (c.onTick_kept now).turn.edge) fun c hrcvd => ?_
    have hkept := c.onTick_kept now
    generalize (c.onTick now).1 = c' at hkept
    exact hkept.state_eq.imp (·.trans hrcvd) id
  refine ((tick_leaves { s with room } o now).and (tick_books { s with room } o now)).mono ?_ ?_
  · rintro s' ⟨⟨-, hslots⟩, hbooks⟩
    exact hquiet hbooks fun q => .inr (congrArg Slot.conn (hslots q))
  · rintro s' ⟨⟨-, hslots⟩, hbooks⟩
    exact hquiet hbooks fun q => (hslots q).imp (congrArg Slot.conn) fun h => h.conn

theorem drive_quiet {s : TcpServer F} (hs : Sampled s) (room : Option Nat) (quad : Quad)
    {f : Connection F → Connection F × List Bytes}
    (hedge : ∀ c, (f c).1.state = c.state ∨ (f c).1.state ∈ c.state.successors)
    (hrcvd : ∀ c, c.state = .synRcvd → (f c).1.state = .synRcvd) :
    Quiet true s (endState (drive f { s with room } quad)) := by
  have hdid := drive_did f { s with room } quad
  refine Quiet.of_calls hs (drive_books f { s with room } quad).endState (fun q => ?_) hedge fun c h =>
    .inl (hrcvd c h)
  by_cases hq : q = quad
  · subst hq
    exact .inr hdid.own.conn
  · exact .inl (congrArg Slot.conn (hdid.others q hq))

/-- A datagram leaves a connection alone, gives it a segment, or opens one. -/
structure Routed (a : Arrival) (now : U64) (s s' : TcpServer F) : Prop where
  books : SameBooks s s'
  conns : ∀ q, s'.conns.lookup q = s.conns.lookup q ∨ ∃ seg, a.route = some (q, seg) ∧
    ((∃ c, s.conns.lookup q = some c ∧ s'.conns.lookup q = some (c.onSegment seg now a.rnd).1) ∨
      s.conns.lookup q = none ∧ ∃ c', s'.conns.lookup q = some c' ∧ c'.state = .synRcvd)

theorem ingest_routed (s : TcpServer F) (now : U64) (a : Arrival) : Leaves (Routed a now s) (Routed a now s)
    (s.ingest now a) := by
  have hsame : Routed a now s s := ⟨⟨rfl, rfl⟩, fun q => .inl rfl⟩
  unfold ingest
  cases hroute : a.route with
  | none => exact hsame
  | some e =>
      obtain ⟨quad, seg⟩ := e
      dsimp only
      split_ifs with hl hsome hsyn
      · exact hsame
      · obtain ⟨c, hc⟩ := Option.isSome_iff_exists.mp hsome
        have hgoes : ∀ {s' : TcpServer F} {f : Connection F → Connection F × List Bytes},
            (∀ c, (f c).1 = (c.onSegment seg now a.rnd).1) → SameBooks s s' → Did (Slot.Cut f) quad s s' →
            Routed a now s s' := by
          refine fun hf hbooks hdid => ⟨hbooks, fun q => ?_⟩
          by_cases hq : q = quad
          · subst hq
            refine .inr ⟨seg, hroute, .inl ⟨c, hc, hdid.own.conn.trans ?_⟩⟩
            rw [slot_conn, hc, Option.map_some, hf]
          · exact .inl (congrArg Slot.conn (hdid.others q hq))
        refine ((drive_leaves _ s quad).and (drive_books _ s quad)).mono ?_ ?_
        · exact fun s' h => hgoes (fun _ => rfl) h.2 ⟨h.1.own ▸ Slot.cut_advance _ _, h.1.others, h.1.room⟩
        · exact fun s' h => hgoes (fun _ => rfl) h.2 h.1.2
      · have hnone : s.conns.lookup quad = none := by simpa using hsome
        cases hacc : Connection.acceptWithIssAt (F := F) quad.remoteEnd.1 quad.localEnd.1 seg.th seg.opts
          a.iss now a.rnd with
        | none => exact hsame
        | some r =>
            obtain ⟨conn, synack⟩ := r
            have hstate : conn.state = .synRcvd := by
              obtain ⟨rfl, -⟩ := Connection.acceptWithIssAt_eq hacc
              rfl
            refine Leaves.bind ((put_leaves quad s synack).mono (fun _ h => h) ?_) fun s' h => ?_
            · rintro s' ⟨-, rfl⟩
              exact hsame
            · refine ⟨by rw [h.eq]; exact ⟨rfl, rfl⟩, fun q => ?_⟩
              by_cases hq : q = quad
              · subst hq
                exact .inr ⟨seg, hroute, .inr ⟨hnone, conn, AList.lookup_insert _, hstate⟩⟩
              · refine .inl ((AList.lookup_insert_ne hq).trans ?_)
                rw [h.eq]
      · exact hsame

theorem ingest_quiet {s : TcpServer F} {cut : Bool} {now : U64} {a : Arrival} (hcalm : s.CalmAt cut now a) :
    Leaves (Quiet cut s) (Quiet cut s) (s.ingest now a) := by
  have hquiet : ∀ {s' : TcpServer F}, Routed a now s s' → Quiet cut s s' := by
    intro s' h
    refine ⟨h.books.1, h.books.2, fun q c hc => ?_, fun q c' hnone hc' => ?_⟩
    · rcases h.conns q with hsame | ⟨seg, hroute, ⟨c₂, hc₂, hnew⟩ | ⟨hnone, -⟩⟩
      · refine ⟨c, hsame.trans hc, .inl rfl, fun _ => ⟨id, fun hrcvd => ?_⟩⟩
        rw [hrcvd]
        exact ⟨State.noConfusion, State.noConfusion⟩
      · obtain rfl : c₂ = c := Option.some.inj (hc₂.symm.trans hc)
        exact ⟨_, hnew, (c₂.onSegment_turn seg now a.rnd).edge, fun hq => hcalm (q, seg) hroute hq c₂ hc⟩
      · cases hnone.symm.trans hc
    · rcases h.conns q with hsame | ⟨seg, -, ⟨c₂, hc₂, -⟩ | ⟨-, c₂, hc₂, hstate⟩⟩
      · cases hnone.symm.trans (hsame.symm.trans hc')
      · cases hnone.symm.trans hc₂
      · rw [← Option.some.inj (hc₂.symm.trans hc')]
        exact hstate
  exact (ingest_routed s now a).mono (fun _ => hquiet) fun _ => hquiet

end TcpServer

/-- A connection of the table: not open yet, open and not announced, or announced. -/
inductive Entry : Bool → Life → State → Prop where
  | opening {s : State} (early : s = .synRcvd ∨ s = .closed) : Entry false {} s
  | ready : Entry false ⟨true, 0⟩ .established
  | announced {s : State} (opened : s ≠ .synRcvd) : Entry true ⟨true, 1⟩ s

theorem Entry.move {announced failed : Bool} {l : Life} {s s' : State} (h : Entry announced l s)
    (hedge : s' = s ∨ s' ∈ s.successors) (hcalm : announced = false → Calm failed s s') :
    Entry announced ⟨l.completed || decide (Completes s s'), l.pushed⟩ s' := by
  cases h with
  | opening early =>
      obtain ⟨-, hrcvd⟩ := hcalm rfl
      rcases early with rfl | rfl
      · simp only [State.successors, List.mem_cons, List.not_mem_nil, or_false] at hedge
        rcases hedge with rfl | rfl | rfl | rfl
        · exact .opening (.inl rfl)
        · exact .ready
        · exact absurd rfl (hrcvd rfl).1
        · exact .opening (.inr rfl)
      · rcases hedge with rfl | hmem
        · exact .opening (.inr rfl)
        · cases hmem
  | ready =>
      rw [(hcalm rfl).1 rfl]
      exact .ready
  | announced opened =>
      refine .announced ?_
      rintro rfl
      rcases hedge with heq | hmem
      · exact opened heq.symm
      · cases s <;> simp [State.successors] at hmem

/-- The server's books agree with what has happened. -/
structure Tidy (w : Watch F) : Prop where
  entry : ∀ q c, w.server.conns.lookup q = some c → Entry (decide (q ∈ w.server.announced)) (w.life q) c.state
  held : ∀ q ∈ w.server.announced, (w.server.conns.lookup q).isSome
  past : ∀ e ∈ w.past, e.2.completed = true → e.2.pushed = 1
  backlog : ∀ q ∈ w.server.backlog, q ∈ w.server.announced
  nodup : w.server.backlog.Nodup

theorem Life.next_some {l : Life} {s s' : TcpServer F} {q : Quad} {c c' : Connection F}
    (hc : s.conns.lookup q = some c) (hc' : s'.conns.lookup q = some c') :
    l.next s s' q =
      ⟨l.completed || decide (Completes c.state c'.state),
      l.pushed + (s'.backlog.drop s.backlog.length).count q⟩ := by
  simp only [Life.next, hc, hc']

theorem Life.next_new {l : Life} {s s' : TcpServer F} {q : Quad} {c' : Connection F} (hc : s.conns.lookup q = none)
    (hc' : s'.conns.lookup q = some c') : l.next s s' q = {} := by
  simp only [Life.next, hc, hc']

theorem Tidy.moveTo {w : Watch F} (hw : Tidy w) {s' : TcpServer F}
    (entry : ∀ q c', s'.conns.lookup q = some c' →
      Entry (decide (q ∈ s'.announced)) ((w.life q).next w.server s' q) c'.state)
    (held : ∀ q ∈ s'.announced, (s'.conns.lookup q).isSome)
    (reaped : ∀ q c, w.server.conns.lookup q = some c → s'.conns.lookup q = none → (w.life q).completed = true →
      (w.life q).pushed = 1)
    (backlog : ∀ q ∈ s'.backlog, q ∈ s'.announced) (nodup : s'.backlog.Nodup) : Tidy (w.moveTo s') where
  entry := entry
  held := held
  past := by
    intro e he
    rcases List.mem_append.mp he with he | he
    · exact hw.past e he
    · obtain ⟨q, hq, rfl⟩ := List.mem_map.mp he
      obtain ⟨hkey, hnone⟩ := List.mem_filter.mp hq
      obtain ⟨c, hc⟩ := Option.isSome_iff_exists.mp (AList.lookup_isSome.mpr hkey)
      exact reaped q c hc (Option.isNone_iff_eq_none.mp hnone)
  backlog := backlog
  nodup := nodup

theorem Tidy.quiet {w : Watch F} (hw : Tidy w) {failed : Bool} {s' : TcpServer F} (h : Quiet failed w.server s') :
    Tidy (w.moveTo s') := by
  refine hw.moveTo (fun q c' hc' => ?_) (fun q hq => ?_) (fun q c hc hnone => ?_) (fun q hq => ?_) ?_
  · rw [h.announced]
    cases hc : w.server.conns.lookup q with
    | none =>
        have hq : q ∉ w.server.announced := by
          intro hmem
          have hsome := hw.held q hmem
          rw [hc] at hsome
          cases hsome
        rw [Life.next_new hc hc', decide_eq_false hq]
        exact .opening (.inl (h.new q c' hc hc'))
    | some c =>
        obtain ⟨c'', hc'', hedge, hcalm⟩ := h.old q c hc
        obtain rfl : c'' = c' := Option.some.inj (hc''.symm.trans hc')
        rw [Life.next_some hc hc'', h.backlog, List.drop_length, List.count_nil]
        exact (hw.entry q c hc).move hedge fun hq => hcalm (of_decide_eq_false hq)
  · rw [h.announced] at hq
    obtain ⟨c, hc⟩ := Option.isSome_iff_exists.mp (hw.held q hq)
    obtain ⟨c', hc', -⟩ := h.old q c hc
    exact Option.isSome_iff_exists.mpr ⟨c', hc'⟩
  · obtain ⟨c', hc', -⟩ := h.old q c hc
    cases hnone.symm.trans hc'
  · rw [h.backlog] at hq
    rw [h.announced]
    exact hw.backlog q hq
  · rw [h.backlog]
    exact hw.nodup

theorem Tidy.sampled {w : Watch F} (hw : Tidy w) {s' : TcpServer F} (h : Quiet true w.server s')
    (hs : Sampled w.server) : Sampled s' := by
  intro q c' hc' hopen
  by_contra hq
  rw [h.announced] at hq
  cases hc : w.server.conns.lookup q with
  | none =>
      rw [h.new q c' hc hc'] at hopen
      cases hopen
  | some c =>
      obtain ⟨c'', hc'', hedge, hcalm⟩ := h.old q c hc
      obtain rfl : c'' = c' := Option.some.inj (hc''.symm.trans hc')
      have hentry := hw.entry q c hc
      rw [decide_eq_false hq] at hentry
      obtain ⟨-, hrcvd⟩ := hcalm hq
      rw [hopen] at hedge hrcvd
      generalize w.life q = l at hentry
      generalize hst : c.state = st at hentry hedge hrcvd
      cases hentry with
      | opening early =>
          rcases early with rfl | rfl
          · cases (hrcvd rfl).2 rfl
          · simp [State.successors] at hedge
      | ready => exact hq (hs q c hc hst)

/-- A flush has announced the connections `new`, which were open, and moved no state. -/
structure Flushed (s s' : TcpServer F) (new : List Quad) : Prop where
  nodup : new.Nodup
  backlog : s'.backlog = s.backlog ++ new
  announced : ∀ q, q ∈ s'.announced ↔ q ∈ s.announced ∨ q ∈ new
  opened : ∀ q ∈ new, q ∉ s.announced ∧ ∃ c, s.conns.lookup q = some c ∧ c.state = .established
  states : ∀ q, (s'.conns.lookup q).map Connection.state = (s.conns.lookup q).map Connection.state

namespace TcpServer

theorem pollTransmit_state (c : Connection F) (now : U64) : (c.pollTransmit now).1.state = c.state := by
  rw [← Connection.still_state, c.pollTransmit_still, Connection.still_state]

theorem drive_flushed {s s₀ : TcpServer F} {new : List Quad} (h : Flushed s₀ s new) (now : U64) (quad : Quad) :
    Leaves (fun s' => Flushed s₀ s' new) (fun s' => Flushed s₀ s' new)
    (s.drive (fun c => c.pollTransmit now) quad) := by
  have hgoes : ∀ {s' : TcpServer F}, SameBooks s s' → Did (Slot.Cut fun c => c.pollTransmit now) quad s s' →
      Flushed s₀ s' new := by
    intro s' hbooks hdid
    refine ⟨h.nodup, hbooks.1.trans h.backlog, fun q => by rw [hbooks.2, h.announced], h.opened, fun q => ?_⟩
    rw [← h.states]
    by_cases hq : q = quad
    · subst hq
      rw [show s'.conns.lookup q = _ from hdid.own.conn, slot_conn, Option.map_map]
      exact congrArg (Option.map · (s.conns.lookup q)) (funext fun c => pollTransmit_state c now)
    · rw [show s'.conns.lookup q = _ from congrArg Slot.conn (hdid.others q hq), slot_conn]
  refine ((drive_leaves _ s quad).and (drive_books _ s quad)).mono ?_ fun s' hs' => hgoes hs'.2 hs'.1.2
  exact fun s' hs' => hgoes hs'.2 ⟨hs'.1.own ▸ Slot.cut_advance _ _, hs'.1.others, hs'.1.room⟩

theorem announce_flushed {s s₀ : TcpServer F} {new : List Quad} (h : Flushed s₀ s new) {quad : Quad}
    (hquad : quad ∉ new) :
    ∃ new', Flushed s₀ (s.announce quad) new' ∧ (∀ q ∈ new', q ∈ new ∨ q = quad) ∧ (∀ q ∈ new, q ∈ new') ∧
      ∀ c, s₀.conns.lookup quad = some c → c.state = .established → quad ∉ s₀.announced → quad ∈ new' := by
  have hopen : (∃ c ∈ s.conns.lookup quad, c.state = .established) ↔
      ∃ c, s₀.conns.lookup quad = some c ∧ c.state = .established := by
    have hstates := h.states quad
    constructor
    · rintro ⟨c, hc, hest⟩
      rw [Option.mem_def.mp hc, Option.map_some, eq_comm, Option.map_eq_some_iff] at hstates
      obtain ⟨c₀, hc₀, heq⟩ := hstates
      exact ⟨c₀, hc₀, heq.trans hest⟩
    · rintro ⟨c₀, hc₀, hest⟩
      rw [hc₀, Option.map_some, Option.map_eq_some_iff] at hstates
      obtain ⟨c, hc, heq⟩ := hstates
      exact ⟨c, hc, heq.trans hest⟩
  have hann : quad ∉ s.announced ↔ quad ∉ s₀.announced := by
    rw [h.announced]
    exact not_congr (or_iff_left hquad)
  unfold announce
  split_ifs with hnew
  · refine ⟨new ++ [quad], ⟨?_, ?_, fun q => ?_, fun q hq => ?_, h.states⟩, fun q hq => by simpa using hq,
      fun q hq => List.mem_append_left _ hq, fun _ _ _ _ => List.mem_append_right _ (List.mem_singleton_self _)⟩
    · exact List.nodup_append.mpr ⟨h.nodup, List.nodup_singleton _, fun q hq _ hq' heq =>
        hquad (List.mem_singleton.mp hq' ▸ heq ▸ hq)⟩
    · rw [h.backlog, List.append_assoc]
    · rw [Finset.mem_insert, h.announced, List.mem_append, List.mem_singleton]
      tauto
    · rcases List.mem_append.mp hq with hq | hq
      · exact h.opened q hq
      · rw [List.mem_singleton.mp hq]
        exact ⟨hann.mp hnew.2, hopen.mp hnew.1⟩
  · exact ⟨new, h, fun q hq => .inl hq, fun q hq => hq, fun c hc hest hout =>
      absurd ⟨hopen.mpr ⟨c, hc, hest⟩, hann.mpr hout⟩ hnew⟩

theorem flush_books (s : TcpServer F) (o : Table.Order Quad (Connection F)) (now : U64) :
    Leaves (fun s' => ∃ new, Flushed s s' new ∧
        ∀ q c, s.conns.lookup q = some c → c.state = .established → q ∉ s.announced → q ∈ new)
      (fun s' => ∃ new, Flushed s s' new) (s.flush o now) := by
  have hloop := Leaves.foldlM (g := flushOne now) (l := (s.conns.reorder o).keys) (s := s)
    (I := fun rest s' => rest.Nodup ∧ ∃ new, Flushed s s' new ∧ (∀ q ∈ new, q ∉ rest) ∧
      ∀ q c, q ∉ rest → s.conns.lookup q = some c → c.state = .established → q ∉ s.announced → q ∈ new)
    (Q := fun s' => ∃ new, Flushed s s' new) ?_ ?_
  · refine hloop.mono ?_ fun _ h => h
    rintro s' ⟨-, new, hflushed, -, hall⟩
    exact ⟨new, hflushed, fun q c => hall q c List.not_mem_nil⟩
  · rintro quad rest s' ⟨hnodup, new, hflushed, hapart, hall⟩
    obtain ⟨hout, hnodup⟩ := List.nodup_cons.mp hnodup
    refine Leaves.bind ((drive_flushed hflushed now quad).mono (fun _ h => h) fun _ h => ⟨new, h⟩) fun s'' h => ?_
    obtain ⟨new', hflushed', hfrom, hkeeps, hquad⟩ := announce_flushed h fun hmem =>
        hapart quad hmem List.mem_cons_self
    refine ⟨hnodup, new', hflushed', fun q hq => ?_, fun q c hq hc hest hann => ?_⟩
    · rcases hfrom q hq with hq | rfl
      · exact fun hmem => hapart q hq (List.mem_cons_of_mem _ hmem)
      · exact hout
    · by_cases heq : q = quad
      · subst heq
        exact hquad c hc hest hann
      · exact hkeeps q (hall q c (fun hmem => (List.mem_cons.mp hmem).elim heq hq) hc hest hann)
  · refine ⟨AList.keys_nodup _, [], ⟨List.nodup_nil, (List.append_nil _).symm, fun q => by simp,
      fun q hq => (nomatch hq), fun q => rfl⟩, fun q hq => (nomatch hq), fun q c hq hc => ?_⟩
    refine absurd (AList.lookup_isSome.mp ?_) hq
    rw [Table.lookup_reorder, hc]
    rfl

end TcpServer

theorem not_completes_self (s : State) : ¬ Completes s s := by
  rintro ⟨rfl, h⟩
  rcases h with h | h <;> cases h

theorem Entry.sample {announced : Bool} {l : Life} {s : State} (h : Entry announced l s) :
    Entry (announced || decide (s = .established))
      ⟨l.completed, l.pushed + if s = .established ∧ announced = false then 1 else 0⟩ s := by
  cases h with
  | opening early =>
      rcases early with rfl | rfl
      · exact .opening (.inl rfl)
      · exact .opening (.inr rfl)
  | ready => exact .announced nofun
  | announced opened =>
      rw [Bool.true_or, if_neg (by simp)]
      exact .announced opened

theorem Flushed.back {s s' : TcpServer F} {new : List Quad} (h : Flushed s s' new) {q : Quad} {c' : Connection F}
    (hc' : s'.conns.lookup q = some c') : ∃ c, s.conns.lookup q = some c ∧ c.state = c'.state := by
  have hstate := h.states q
  rw [hc', Option.map_some, eq_comm, Option.map_eq_some_iff] at hstate
  exact hstate

theorem Flushed.forth {s s' : TcpServer F} {new : List Quad} (h : Flushed s s' new) {q : Quad} {c : Connection F}
    (hc : s.conns.lookup q = some c) : ∃ c', s'.conns.lookup q = some c' ∧ c'.state = c.state := by
  have hstate := h.states q
  rw [hc, Option.map_some, Option.map_eq_some_iff] at hstate
  exact hstate

theorem Flushed.waiting {s s' : TcpServer F} {new : List Quad} (h : Flushed s s' new) {q : Quad}
    (hq : q ∈ s'.backlog) :
    q ∈ s.backlog ∨ ∀ c, s'.conns.lookup q = some c → c.state ≠ .closed := by
  rw [h.backlog] at hq
  refine (List.mem_append.mp hq).imp id fun hmem c' hc' => ?_
  obtain ⟨-, c, hc, hopen⟩ := h.opened q hmem
  obtain ⟨c₂, hc₂, heq⟩ := h.back hc'
  rw [← heq, Option.some.inj (hc₂.symm.trans hc), hopen]
  exact State.noConfusion

/-- A flush that a send cuts short announces nothing if there was nothing to announce. -/
theorem Flushed.quiet {s s' : TcpServer F} {new : List Quad} (h : Flushed s s' new) (hs : Sampled s) :
    Quiet true s s' := by
  have hnil : new = [] := List.eq_nil_iff_forall_not_mem.mpr fun q hq => by
    obtain ⟨hout, c, hc, hopen⟩ := h.opened q hq
    exact hout (hs q c hc hopen)
  refine ⟨by rw [h.backlog, hnil, List.append_nil], ?_, fun q c hc => ?_, fun q c' hnone hc' => ?_⟩
  · ext q
    rw [h.announced, hnil]
    simp
  · obtain ⟨c', hc', heq⟩ := h.forth hc
    refine ⟨c', hc', .inl heq, fun hq => ⟨fun hopen => absurd (hs q c hc hopen) hq, fun hrcvd => ?_⟩⟩
    rw [heq, hrcvd]
    exact ⟨State.noConfusion, State.noConfusion⟩
  · obtain ⟨c, hc, -⟩ := h.back hc'
    cases hnone.symm.trans hc

theorem Tidy.flushed {w : Watch F} (hw : Tidy w) {s' : TcpServer F} {new : List Quad} (h : Flushed w.server s' new)
    (hall : ∀ q c, w.server.conns.lookup q = some c → c.state = .established → q ∉ w.server.announced → q ∈ new) :
    Tidy (w.moveTo s') ∧ Sampled s' := by
  have hfresh : ∀ {q c}, w.server.conns.lookup q = some c →
      (q ∈ new ↔ c.state = .established ∧ q ∉ w.server.announced) := by
    intro q c hc
    refine ⟨fun hq => ?_, fun hq => hall q c hc hq.1 hq.2⟩
    obtain ⟨hout, c₂, hc₂, hopen⟩ := h.opened q hq
    exact ⟨Option.some.inj (hc₂.symm.trans hc) ▸ hopen, hout⟩
  have hsampled : Sampled s' := by
    intro q c' hc' hopen
    obtain ⟨c, hc, hstate⟩ := h.back hc'
    by_cases hq : q ∈ w.server.announced
    · exact (h.announced q).mpr (.inl hq)
    · exact (h.announced q).mpr (.inr ((hfresh hc).mpr ⟨hstate.trans hopen, hq⟩))
  refine ⟨hw.moveTo (fun q c' hc' => ?_) (fun q hq => ?_) (fun q c hc hnone => ?_) (fun q hq => ?_) ?_, hsampled⟩
  · obtain ⟨c, hc, hstate⟩ := h.back hc'
    have hcount : new.count q = if c.state = .established ∧
        decide (q ∈ w.server.announced) = false then 1 else 0 := by
      by_cases hmem : q ∈ new
      · rw [List.count_eq_one_of_mem h.nodup hmem, if_pos]
        simpa using (hfresh hc).mp hmem
      · rw [List.count_eq_zero_of_not_mem hmem, if_neg]
        simpa using mt (hfresh hc).mpr hmem
    have hann : decide (q ∈ s'.announced) = (decide (q ∈ w.server.announced) || decide (c.state = .established)) := by
      rw [← Bool.decide_or, decide_eq_decide, h.announced, hfresh hc]
      tauto
    rw [Life.next_some hc hc', h.backlog, List.drop_left, hcount, hann, ← hstate,
      decide_eq_false (not_completes_self _),
      Bool.or_false]
    exact (hw.entry q c hc).sample
  · have hsome : (w.server.conns.lookup q).isSome := by
      rcases (h.announced q).mp hq with hold | hmem
      · exact hw.held q hold
      · obtain ⟨-, c, hc, -⟩ := h.opened q hmem
        rw [hc]
        rfl
    obtain ⟨c, hc⟩ := Option.isSome_iff_exists.mp hsome
    obtain ⟨c', hc', -⟩ := h.forth hc
    exact Option.isSome_iff_exists.mpr ⟨c', hc'⟩
  · obtain ⟨c', hc', -⟩ := h.forth hc
    cases hnone.symm.trans hc'
  · rw [h.backlog] at hq
    exact (h.announced q).mpr ((List.mem_append.mp hq).imp (hw.backlog q) id)
  · rw [h.backlog]
    refine List.nodup_append.mpr ⟨hw.nodup, h.nodup, ?_⟩
    rintro q hold _ hmem rfl
    exact (h.opened q hmem).1 (hw.backlog q hold)

theorem mem_foldl_erase {q : Quad} (entries : List (Σ _ : Quad, Connection F)) (announced : Finset Quad) :
    q ∈ entries.foldl (fun announced e => if e.2.state = .closed then announced.erase e.1 else announced) announced ↔
      q ∈ announced ∧ ∀ e ∈ entries, e.1 = q → e.2.state ≠ .closed := by
  induction entries generalizing announced with
  | nil => simp
  | cons e entries ih =>
      rw [List.foldl_cons, ih, List.forall_mem_cons]
      split_ifs with hclosed
      · rw [Finset.mem_erase]
        constructor
        · rintro ⟨⟨hne, hmem⟩, hrest⟩
          exact ⟨hmem, fun heq => absurd heq.symm hne, hrest⟩
        · rintro ⟨hmem, hhead, hrest⟩
          exact ⟨⟨fun heq => hhead heq.symm hclosed, hmem⟩, hrest⟩
      · constructor
        · rintro ⟨hmem, hrest⟩
          exact ⟨hmem, fun _ => hclosed, hrest⟩
        · rintro ⟨hmem, -, hrest⟩
          exact ⟨hmem, hrest⟩

theorem TcpServer.reap_books (s : TcpServer F) :
    (∀ q c, s.reap.conns.lookup q = some c ↔ s.conns.lookup q = some c ∧ c.state ≠ .closed) ∧
      ∀ q, q ∈ s.reap.announced ↔ q ∈ s.announced ∧ ∀ c, s.conns.lookup q = some c → c.state ≠ .closed := by
  constructor
  · intro q c
    rw [reap, Table.lookup_retain, Option.filter_eq_some_iff, decide_eq_true_eq]
  · intro q
    rw [reap, mem_foldl_erase]
    refine and_congr_right fun _ => ⟨fun h c hc => h ⟨q, c⟩ (AList.mem_lookup_iff.mp hc) rfl, ?_⟩
    rintro h ⟨q', c⟩ hmem rfl
    exact h c (AList.mem_lookup_iff.mpr hmem)

theorem Tidy.reap {w : Watch F} (hw : Tidy w) (hs : Sampled w.server)
    (hwait : ∀ q ∈ w.server.backlog, ∀ c, w.server.conns.lookup q = some c → c.state ≠ .closed) :
    Tidy (w.moveTo w.server.reap) ∧ Sampled w.server.reap := by
  obtain ⟨hlookup, ha⟩ := w.server.reap_books
  have hb : w.server.reap.backlog = w.server.backlog := rfl
  generalize w.server.reap = s' at hlookup ha hb
  have hsampled : Sampled s' := by
    intro q c' hc' hopen
    obtain ⟨hc, -⟩ := (hlookup q c').mp hc'
    refine (ha q).mpr ⟨hs q c' hc hopen, fun c hc₂ => ?_⟩
    rw [← Option.some.inj (hc.symm.trans hc₂), hopen]
    exact nofun
  refine ⟨hw.moveTo (fun q c hc' => ?_) (fun q hq => ?_) (fun q c hc hnone => ?_) (fun q hq => ?_) ?_, hsampled⟩
  · obtain ⟨hc, hopen⟩ := (hlookup q c).mp hc'
    have hann : decide (q ∈ s'.announced) = decide (q ∈ w.server.announced) := by
      rw [decide_eq_decide, ha, hc]
      exact and_iff_left fun c₂ h => Option.some.inj h ▸ hopen
    rw [Life.next_some hc hc', hb, List.drop_length, List.count_nil, hann, decide_eq_false (not_completes_self _),
      Bool.or_false]
    exact hw.entry q c hc
  · obtain ⟨hmem, hopen⟩ := (ha q).mp hq
    obtain ⟨c, hc⟩ := Option.isSome_iff_exists.mp (hw.held q hmem)
    exact Option.isSome_iff_exists.mpr ⟨c, (hlookup q c).mpr ⟨hc, hopen c hc⟩⟩
  · have hclosed : c.state = .closed := by
      by_contra hopen
      cases hnone.symm.trans ((hlookup q c).mpr ⟨hc, hopen⟩)
    have hentry := hw.entry q c hc
    rw [hclosed] at hentry
    generalize decide (q ∈ w.server.announced) = announced at hentry
    generalize w.life q = l at hentry
    cases hentry with
    | opening => exact nofun
    | announced => exact fun _ => rfl
  · rw [hb] at hq
    exact (ha q).mpr ⟨hw.backlog q hq, hwait q hq⟩
  · rw [hb]
    exact hw.nodup

/-- A poll up to the reaping. What it leaves when a send or a receive fails is
tidy if nothing was ready to be announced. -/
theorem Tidy.pump {w : Watch F} (hw : Tidy w) (hs : Sampled w.server) {r : Round F} {cut : Bool}
    (hcalm : Leaves (fun s' => s'.CalmAll cut r.now r.batch) (fun _ => True)
      (TcpServer.tick { w.server with room := r.room } r.timers r.now)) :
    Leaves (fun w' => (Tidy w' ∧ Sampled w'.server) ∧ ∀ q ∈ w'.server.backlog, q ∈ w.server.backlog ∨
        ∀ c, w'.server.conns.lookup q = some c → c.state ≠ .closed)
      (fun w' => cut = true → Tidy w' ∧ Sampled w'.server) (w.pump r) := by
  have htick := TcpServer.tick_quiet hs r.room r.timers r.now
  refine Leaves.bind (P := fun w' => Tidy w' ∧ (cut = true → Sampled w'.server) ∧
    w'.server.backlog = w.server.backlog)
    (Leaves.bind (P := fun w' => Tidy w' ∧ (cut = true → Sampled w'.server) ∧ w'.server.backlog = w.server.backlog ∧
      w'.server.CalmAll cut r.now r.batch) ?_ fun w₁ h₁ => ?_) fun w₂ h₂ => ?_
  · refine leaves_seen.mpr ((htick.and hcalm).mono ?_ ?_)
    · rintro s' ⟨hquiet, hall⟩
      exact ⟨hw.quiet hquiet, fun _ => hw.sampled hquiet hs, hquiet.backlog, hall⟩
    · rintro s' ⟨hquiet, -⟩ -
      exact ⟨hw.quiet hquiet, hw.sampled hquiet hs⟩
  · have hloop := Leaves.foldlM (g := fun w' a => seen w'.moveTo (w'.server.ingest r.now a)) (l := r.batch)
      (I := fun rest w' => Tidy w' ∧ (cut = true → Sampled w'.server) ∧ w'.server.backlog = w.server.backlog ∧
        w'.server.CalmAll cut r.now rest) (Q := fun w' => cut = true → Tidy w' ∧ Sampled w'.server) ?_ h₁
    · exact hloop.mono (fun w' h => ⟨h.1, h.2.1, h.2.2.1⟩) fun _ h => h
    · rintro a rest w' ⟨htidy, hsampled, hback, hat, hall⟩
      refine leaves_seen.mpr (((TcpServer.ingest_quiet hat).and hall).mono ?_ ?_)
      · rintro s' ⟨hquiet, hrest⟩
        refine ⟨htidy.quiet hquiet, fun hcut => ?_, hquiet.backlog.trans hback, hrest⟩
        subst hcut
        exact htidy.sampled hquiet (hsampled rfl)
      · rintro s' ⟨hquiet, -⟩ rfl
        exact ⟨htidy.quiet hquiet, htidy.sampled hquiet (hsampled rfl)⟩
  · obtain ⟨htidy, hsampled, hback⟩ := h₂
    split_ifs
    · exact fun hcut => ⟨htidy, hsampled hcut⟩
    · refine leaves_seen.mpr ((w₂.server.flush_books r.flushes r.now).mono ?_ ?_)
      · rintro s' ⟨new, hflushed, hall⟩
        exact ⟨htidy.flushed hflushed hall, fun q hq => hback ▸ hflushed.waiting hq⟩
      · rintro s' ⟨new, hflushed⟩ hcut
        have hquiet := hflushed.quiet (hsampled hcut)
        exact ⟨htidy.quiet hquiet, htidy.sampled hquiet (hsampled hcut)⟩

theorem Tidy.poll {w : Watch F} (hw : Tidy w) (hs : Sampled w.server) {r : Round F} (ho : Orderly w.server r) :
    Tidy (w.poll r) ∧ Sampled (w.poll r).server := by
  have hpump := hw.pump hs ho.calm
  have hserver := w.pump_server r
  have hwaiting := ho.waiting
  unfold Watch.poll
  cases hx : w.pump r with
  | ok w' =>
      rw [hx] at hpump hserver
      rw [← hserver] at hwaiting
      refine hpump.1.1.reap hpump.1.2 fun q hq c hc => ?_
      rcases hpump.2 q hq with hold | hopen
      · exact hwaiting q hold c hc
      · exact hopen c hc
  | error w' =>
      rw [hx] at hpump hserver
      refine hpump ?_
      rw [TcpServer.cut, ← hserver]
      rfl

theorem Tidy.acceptOne {w : Watch F} (hw : Tidy w) (hs : Sampled w.server) :
    Tidy (w.moveTo w.server.acceptOne.1) ∧ Sampled w.server.acceptOne.1 := by
  have hbook : w.server.acceptOne.1.conns = w.server.conns ∧ w.server.acceptOne.1.announced = w.server.announced ∧
      List.Sublist w.server.acceptOne.1.backlog w.server.backlog := by
    unfold TcpServer.acceptOne
    cases hb : w.server.backlog with
    | nil => exact ⟨rfl, rfl, by rw [hb]⟩
    | cons q rest => exact ⟨rfl, rfl, List.sublist_cons_self q rest⟩
  obtain ⟨hconns, ha, hsub⟩ := hbook
  generalize w.server.acceptOne.1 = s' at hconns ha hsub
  refine ⟨hw.moveTo (fun q c hc' => ?_) (fun q hq => ?_) (fun q c hc hnone => ?_) (fun q hq => ?_) ?_, ?_⟩
  · have hc : w.server.conns.lookup q = some c := hconns ▸ hc'
    rw [Life.next_some hc hc', List.drop_eq_nil_of_le hsub.length_le, List.count_nil, ha,
      decide_eq_false (not_completes_self _), Bool.or_false]
    exact hw.entry q c hc
  · rw [hconns]
    exact hw.held q (ha ▸ hq)
  · rw [hconns] at hnone
    cases hnone.symm.trans hc
  · rw [ha]
    exact hw.backlog q (hsub.subset hq)
  · exact hw.nodup.sublist hsub
  · rw [Sampled, hconns, ha]
    exact hs

theorem Tidy.called {w : Watch F} (hw : Tidy w) (hs : Sampled w.server) {s' : TcpServer F}
    (h : Quiet true w.server s') :
    Tidy (w.moveTo s') ∧ Sampled s' :=
  ⟨hw.quiet h, hw.sampled h hs⟩

theorem Tidy.step {w : Watch F} (hw : Tidy w) (hs : Sampled w.server) {e : Event F}
    (ho : ∀ r, e = .poll r → Orderly w.server r) : Tidy (w.step e) ∧ Sampled (w.step e).server := by
  cases e with
  | poll r => exact hw.poll hs (ho r rfl)
  | acceptOne => exact hw.acceptOne hs
  | send quad data =>
      refine hw.called hs ?_
      rw [TcpServer.send_eq]
      exact TcpServer.drive_quiet hs w.server.room quad (fun c => .inl rfl) fun c h => h
  | recv quad =>
      refine hw.called hs ?_
      rw [TcpServer.recv_eq]
      exact TcpServer.drive_quiet hs w.server.room quad (fun c => .inl rfl) fun c h => h
  | close quad now room =>
      exact hw.called hs (TcpServer.drive_quiet hs room quad (fun c => (c.close_turn now).edge) fun c h => by
        simp only [Connection.close, h])

theorem Tidy.run {x : Session F} {w : Watch F} (h : w.server = x.server) (hw : Tidy w) (hs : Sampled w.server)
    {events : List (Event F)} (ho : OrderlyRun x events) : Tidy (w.run events) ∧ Sampled (w.run events).server := by
  induction events generalizing x w with
  | nil => exact ⟨hw, hs⟩
  | cons e events ih =>
      obtain ⟨hfirst, hrest⟩ := ho
      obtain ⟨hw', hs'⟩ := hw.step hs (h ▸ hfirst)
      exact ih (Watch.step_server x w h e) hw' hs' hrest

theorem Tidy.announcedOnce {w : Watch F} (hw : Tidy w) (hs : Sampled w.server) : AnnouncedOnce w where
  present := by
    intro q hq
    obtain ⟨c, hc⟩ := Option.isSome_iff_exists.mp hq
    have hentry := hw.entry q c hc
    have hopen := hs q c hc
    generalize hann : decide (q ∈ w.server.announced) = announced at hentry
    generalize w.life q = l at hentry
    generalize c.state = state at hentry hopen
    cases hentry with
    | opening => exact nofun
    | ready => exact absurd (hopen rfl) (of_decide_eq_false hann)
    | announced => exact fun _ => rfl
  past := hw.past
  named := fun q hq => hw.held q (hw.backlog q hq)
  nodup := hw.nodup

theorem OrderlyRun.left {x : Session F} {before after : List (Event F)} (h : OrderlyRun x (before ++ after)) :
    OrderlyRun x before := by
  induction before generalizing x with
  | nil => trivial
  | cons e before ih => exact ⟨h.1, ih h.2⟩

/-- In a run of orderly polls, in every state it reaches, every connection was
announced exactly once in the poll that completed its handshake, and the
backlog is true to the table. -/
theorem orderly_runs_announce_once (localEnd : Endpoint) {events : List (Event F)}
    (h : OrderlyRun (Session.start localEnd) events) (reached : List (Event F)) (hr : reached <+: events) :
    ((Watch.start localEnd).run reached).server = ((Session.start localEnd).run reached).server ∧
      AnnouncedOnce ((Watch.start (F := F) localEnd).run reached) := by
  obtain ⟨rest, rfl⟩ := hr
  have hstart : Tidy (Watch.start (F := F) localEnd) :=
    ⟨fun q c hc => (nomatch hc), fun q hq => absurd hq (Finset.notMem_empty q), fun e he => (nomatch he),
      fun q hq => (nomatch hq), List.nodup_nil⟩
  have hsampled : Sampled (Watch.start (F := F) localEnd).server := fun q c hc => nomatch hc
  obtain ⟨hw, hs⟩ := Tidy.run (x := Session.start localEnd) rfl hstart hsampled h.left
  exact ⟨Watch.run_server _ _ rfl reached, hw.announcedOnce hs⟩

def clientPolls (batches : List (List Arrival)) : List (Event Rat) :=
  batches.zipIdx.map (fun b => .poll { now := BitVec.ofNat 64 b.2, batch := b.1 })

def clientSyn : Arrival := sampleArrival clientA SYN 500#32 0#32 []
def clientAck : Arrival := sampleArrival clientA ACK 501#32 101#32 []
def clientFin : Arrival := sampleArrival clientA (FIN ||| ACK) 501#32 101#32 []
def clientRst : Arrival := sampleArrival clientA RST 501#32 0#32 []
def clientByte : Arrival := sampleArrival clientA (PSH ||| ACK) 501#32 101#32 [7#8]

/-- The transport does not take the answer to the client's first byte. -/
def refusedPoll : Event Rat := .poll { now := 1#64, batch := [clientByte], room := some 0 }

theorem handshake_announced_once :
    AnnouncedOnce ((Watch.start sampleEnd).run (clientPolls [[clientSyn], [clientAck]])) ∧
      ((Watch.start sampleEnd).run (clientPolls [[clientSyn], [clientAck]])).life clientA = ⟨true, 1⟩ := by
  have horderly : OrderlyRun (Session.start sampleEnd) (clientPolls [[clientSyn], [clientAck]]) := by
    refine ⟨?_, ?_, trivial⟩
    · rintro r ⟨⟩
      exact ⟨by decide +kernel, by decide +kernel⟩
    · rintro r ⟨⟩
      exact ⟨by decide +kernel, by decide +kernel⟩
  exact ⟨(orderly_runs_announce_once sampleEnd horderly _ (List.prefix_refl _)).2, by decide +kernel⟩

/-- A client that sends its ACK and its FIN in one batch is never announced; one
that is reset before it is accepted leaves its 4-tuple in the backlog, and twice
after it has come back; one whose first byte cannot be answered is not announced
by that poll. -/
theorem announcement_missed_and_stale :
    (((Watch.start sampleEnd).run (clientPolls [[clientSyn], [clientAck, clientFin]])).life clientA = ⟨true, 0⟩ ∧
      ¬ AnnouncedOnce ((Watch.start sampleEnd).run (clientPolls [[clientSyn], [clientAck, clientFin]]))) ∧
    (((Watch.start sampleEnd).run (clientPolls [[clientSyn], [clientAck], [clientRst]])).server.backlog = [clientA] ∧
      ¬ AnnouncedOnce ((Watch.start sampleEnd).run (clientPolls [[clientSyn], [clientAck], [clientRst]]))) ∧
    ((Watch.start sampleEnd).run (clientPolls [[clientSyn], [clientAck], [clientRst], [clientSyn],
      [clientAck]])).server.backlog = [clientA, clientA] ∧
    (((Watch.start sampleEnd).run (clientPolls [[clientSyn]] ++ [refusedPoll])).life clientA = ⟨true, 0⟩ ∧
      ¬ AnnouncedOnce ((Watch.start sampleEnd).run (clientPolls [[clientSyn]] ++ [refusedPoll]))) := by
  have hlost : ((Watch.start sampleEnd).run (clientPolls [[clientSyn], [clientAck, clientFin]])).life clientA =
      ⟨true, 0⟩ := by decide +kernel
  have hstale : ((Watch.start sampleEnd).run (clientPolls [[clientSyn], [clientAck], [clientRst]])).server.backlog =
      [clientA] := by decide +kernel
  have hrefused : ((Watch.start sampleEnd).run (clientPolls [[clientSyn]] ++ [refusedPoll])).life clientA =
      ⟨true, 0⟩ := by decide +kernel
  refine ⟨⟨hlost, fun h => ?_⟩, ⟨hstale, fun h => ?_⟩, by decide +kernel, hrefused, fun h => ?_⟩
  · have hpushed := h.present clientA (by decide +kernel)
    rw [hlost] at hpushed
    cases hpushed rfl
  · have hnamed := h.named clientA (by rw [hstale]; exact List.mem_singleton_self _)
    revert hnamed
    decide +kernel
  · have hpushed := h.present clientA (by decide +kernel)
    rw [hrefused] at hpushed
    cases hpushed rfl

end TcpStack.Socket
