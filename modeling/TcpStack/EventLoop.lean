import TcpStack.Http
import TcpStack.Dispatch
import TcpStack.Discipline

/-!
# The event loop

The table of connections under timer ticks and arriving segments. SYN_RCVD is
entered by a passive open alone, and a passive open asks for room in the
backlog first, so a flood of SYNs holds a bounded number of half-open
connections: past the bound a SYN is answered from its own bytes.
-/
namespace TcpStack.Main
open Tcp

variable {F : Type} [F64 F]

/-- The state of the event loop: what the dispatch keeps, and the bytes of each
HTTP connection that no served request has used. -/
structure EventLoop (F : Type) [F64 F] where
  stack : Stack F
  httpBufs : Table Quad Bytes := ∅

/-- A connection after a segment, the HTTP buffer under its 4-tuple, and the
packets that went out. -/
structure Conversed (F : Type) [F64 F] where
  conn : Connection F
  hbuf : Option Bytes
  sent : List Bytes

/-- A segment of an existing connection: the state machine, then the application
on what came in, then what the windows let out, then the closes. -/
def converse (conn : Connection F) (hbuf : Option Bytes) (seg : Segment) (d : Draw) : Conversed F :=
  let r := conn.onSegment seg d.now d.rnd
  let received := r.1.takeReceived
  let app := Http.onReceived hbuf received.2
  let out := (app.writes.foldl Connection.write received.1).pollTransmit d.now
  let fin := if app.closing then out.1.close d.now else (out.1, none)
  -- the peer has closed its half, and we have nothing more to say
  let lastFin :=
    if fin.1.state = .closeWait ∧ fin.1.sendBufferEmpty then fin.1.close d.now else (fin.1, none)
  { conn := lastFin.1
    hbuf := if app.closing then none else app.hbuf
    sent := r.2.toList ++ out.2 ++ fin.2.toList ++ lastFin.2.toList }

/-- What the event loop meets: its timers at a time and in an order of the table,
or a TCP segment. -/
inductive Input (F : Type) [F64 F] where
  | timers (order : Table.Order Quad (Connection F)) (now : U64)
  | segment (hdr : Ip.Ipv4Header) (seg : Segment) (d : Draw)

namespace EventLoop

def start (synSecret : U64) : EventLoop F := ⟨⟨synSecret, ∅⟩, ∅⟩

def timers (m : EventLoop F) (order : Table.Order Quad (Connection F)) (now : U64) : EventLoop F × List Bytes :=
  let r := (m.stack.connections.reorder order).visit (fun _ conn => conn.onTick now)
  let closed (quad : Quad) : Bool := (r.1.lookup quad).any fun conn => decide (conn.state = .closed)
  ({ stack := { m.stack with connections := r.1.retain (fun quad _ => !closed quad) }
     httpBufs := m.httpBufs.retain (fun quad _ => !closed quad) }, r.2.map Prod.snd)

def onKnown (m : EventLoop F) (quad : Quad) (conn : Connection F) (seg : Segment) (d : Draw) :
    EventLoop F × List Bytes :=
  let r := converse conn (m.httpBufs.lookup quad) seg d
  let connections :=
    if r.conn.state = .closed then m.stack.connections.erase quad else m.stack.connections.insert quad r.conn
  let httpBufs :=
    match r.hbuf with
    | some hbuf => if r.conn.state = .closed then m.httpBufs.erase quad else m.httpBufs.insert quad hbuf
    | none => m.httpBufs.erase quad
  (⟨{ m.stack with connections }, httpBufs⟩, r.sent)

def onTcp (m : EventLoop F) (hdr : Ip.Ipv4Header) (seg : Segment) (d : Draw) : EventLoop F × List Bytes :=
  match m.stack.connections.lookup (quadOf hdr seg.th) with
  | some conn => m.onKnown (quadOf hdr seg.th) conn seg d
  | none =>
      let r := m.stack.onUnknown hdr seg d
      ({ m with stack := r.1 }, r.2.toList)

def step (m : EventLoop F) : Input F → EventLoop F
  | .timers order now => (m.timers order now).1
  | .segment hdr seg d => (m.onTcp hdr seg d).1

def run (m : EventLoop F) (inputs : List (Input F)) : EventLoop F := inputs.foldl step m

end EventLoop

theorem close_if_synRcvd {p : Prop} [Decidable p] {c : Connection F} {now : U64}
    (h : (if p then c.close now else (c, none)).1.state = .synRcvd) : c.state = .synRcvd := by
  split_ifs at h
  · exact (c.close_turn now).synRcvd h
  · exact h

theorem foldl_write_state (writes : List Bytes) (c : Connection F) :
    (writes.foldl Connection.write c).state = c.state := by
  induction writes generalizing c with
  | nil => rfl
  | cons data writes ih => exact ih (c.write data)

theorem converse_synRcvd {conn : Connection F} {hbuf : Option Bytes} {seg : Segment} {d : Draw}
    (h : (converse conn hbuf seg d).conn.state = .synRcvd) : conn.state = .synRcvd := by
  have hsent := close_if_synRcvd (close_if_synRcvd h)
  have hwritten := (Connection.pollTransmit_turn _ d.now).synRcvd hsent
  have hread : (conn.onSegment seg d.now d.rnd).1.state = .synRcvd :=
    (foldl_write_state _ (conn.onSegment seg d.now d.rnd).1.takeReceived.1).symm.trans hwritten
  exact (conn.onSegment_turn seg d.now d.rnd).synRcvd hread

/-- What the arm for an unknown 4-tuple does to the table: nothing, or one entry
for a SYN with room in the backlog, or one for a returned cookie. -/
theorem onUnknown_table (m : Stack F) (hdr : Ip.Ipv4Header) (seg : Segment) (d : Draw) :
    (m.onUnknown hdr seg d).1 = m ∨
      ∃ conn, (m.onUnknown hdr seg d).1 = { m with connections := m.connections.insert (quadOf hdr seg.th) conn } ∧
        ((isSyn seg.th = true ∧ m.halfOpen < synBacklog) ∨
          ((m.returnedCookie hdr seg.th d.now).isSome ∧ conn.state ≠ .synRcvd)) := by
  unfold Stack.onUnknown
  dsimp only
  split_ifs with hroom hsyn hbare
  · split
    · exact .inr ⟨_, rfl, .inl hroom⟩
    · exact .inl rfl
  · exact .inl rfl
  · split
    · rename_i mss hmss
      exact .inr ⟨_, rfl, .inr ⟨by rw [hmss]; rfl, nofun⟩⟩
    · exact .inl rfl
  · exact .inl rfl

theorem halfOpen_le {m m' : Stack F} (h : ∀ q, ∀ new ∈ m'.connections.lookup q, new.state = .synRcvd →
    ∃ old ∈ m.connections.lookup q, old.state = .synRcvd) : m'.halfOpen ≤ m.halfOpen := by
  refine Table.countP_le (p := fun c : Connection F => decide (c.state = .synRcvd)) fun q new hnew hrcvd => ?_
  obtain ⟨old, hold, hst⟩ := h q new hnew (of_decide_eq_true hrcvd)
  exact ⟨old, hold, decide_eq_true hst⟩

namespace EventLoop

theorem timers_lookup {m : EventLoop F} {order : Table.Order Quad (Connection F)} {now : U64} {q : Quad}
    {new : Connection F} (h : new ∈ (m.timers order now).1.stack.connections.lookup q) :
    ∃ old ∈ m.stack.connections.lookup q, new.state = .synRcvd → old.state = .synRcvd := by
  simp only [timers, Table.lookup_retain, Table.lookup_visit, Table.lookup_reorder] at h
  obtain ⟨hlook, -⟩ := Option.mem_filter_iff.mp h
  obtain ⟨old, hold, heq⟩ := Option.map_eq_some_iff.mp hlook
  have hturn := (old.onTick_kept now).turn
  rw [heq] at hturn
  exact ⟨old, hold, hturn.synRcvd⟩

theorem onKnown_lookup {m : EventLoop F} {quad : Quad} {conn : Connection F} {seg : Segment} {d : Draw}
    (hconn : m.stack.connections.lookup quad = some conn) {q : Quad} {new : Connection F}
    (h : new ∈ (m.onKnown quad conn seg d).1.stack.connections.lookup q) :
    ∃ old ∈ m.stack.connections.lookup q, new.state = .synRcvd → old.state = .synRcvd := by
  by_cases hq : q = quad
  · subst hq
    refine ⟨conn, hconn, fun hnew => ?_⟩
    unfold onKnown at h
    dsimp only at h
    split_ifs at h
    · rw [AList.lookup_erase] at h
      cases h
    · rw [AList.lookup_insert] at h
      rw [← Option.some.inj h] at hnew
      exact converse_synRcvd hnew
  · refine ⟨new, ?_, id⟩
    unfold onKnown at h
    dsimp only at h
    split_ifs at h
    · rwa [AList.lookup_erase_ne hq] at h
    · rwa [AList.lookup_insert_ne hq] at h

/-- What a step does to the entries: the half-open ones were half-open before,
unless it is a passive open with room for one more. -/
theorem step_cases (m : EventLoop F) (x : Input F) :
    (∀ q, ∀ new ∈ (m.step x).stack.connections.lookup q, ∃ old ∈ m.stack.connections.lookup q,
        new.state = .synRcvd → old.state = .synRcvd) ∨
      ∃ hdr seg d conn, x = .segment hdr seg d ∧ m.stack.connections.lookup (quadOf hdr seg.th) = none ∧
        (m.step x).stack.connections = m.stack.connections.insert (quadOf hdr seg.th) conn ∧
        ((isSyn seg.th = true ∧ m.stack.halfOpen < synBacklog) ∨
          ((m.stack.returnedCookie hdr seg.th d.now).isSome ∧ conn.state ≠ .synRcvd)) := by
  cases x with
  | timers order now => exact .inl fun q new => timers_lookup
  | segment hdr seg d =>
      simp only [step, onTcp]
      split
      · rename_i conn hconn
        exact .inl fun q new => onKnown_lookup hconn
      · rename_i hnone
        rcases onUnknown_table m.stack hdr seg d with hsame | ⟨conn, hinsert, hopens⟩
        · rw [hsame]
          exact .inl fun q new hnew => ⟨new, hnew, id⟩
        · exact .inr ⟨hdr, seg, d, conn, rfl, hnone, by rw [hinsert], hopens⟩

theorem step_halfOpen {m : EventLoop F} (h : m.stack.halfOpen ≤ synBacklog) (x : Input F) :
    (m.step x).stack.halfOpen ≤ synBacklog := by
  rcases step_cases m x with hkept | ⟨hdr, seg, d, conn, -, -, hinsert, ⟨-, hroom⟩ | ⟨-, hest⟩⟩
  · refine (halfOpen_le fun q new hnew hrcvd => ?_).trans h
    obtain ⟨old, hold, himp⟩ := hkept q new hnew
    exact ⟨old, hold, himp hrcvd⟩
  · refine Nat.le_trans ?_ (Nat.succ_le_of_lt hroom)
    unfold Stack.halfOpen
    rw [hinsert]
    exact Table.countP_insert_le (fun c : Connection F => decide (c.state = .synRcvd)) _ _ _
  · refine (halfOpen_le fun q new hnew hrcvd => ?_).trans h
    rw [hinsert] at hnew
    by_cases hq : q = quadOf hdr seg.th
    · rw [hq, AList.lookup_insert] at hnew
      rw [← Option.some.inj hnew] at hrcvd
      exact absurd hrcvd hest
    · rw [AList.lookup_insert_ne hq] at hnew
      exact ⟨new, hnew, hrcvd⟩

theorem step_synSecret (m : EventLoop F) (x : Input F) : (m.step x).stack.synSecret = m.stack.synSecret := by
  cases x with
  | timers order now => rfl
  | segment hdr seg d =>
      simp only [step, onTcp]
      split
      · rfl
      · rcases onUnknown_table m.stack hdr seg d with hsame | ⟨conn, hinsert, -⟩
        · rw [hsame]
        · rw [hinsert]

theorem run_halfOpen {m : EventLoop F} (h : m.stack.halfOpen ≤ synBacklog) (inputs : List (Input F)) :
    (m.run inputs).stack.halfOpen ≤ synBacklog := by
  induction inputs generalizing m with
  | nil => exact h
  | cons x inputs ih => exact ih (step_halfOpen h x)

theorem run_synSecret (m : EventLoop F) (inputs : List (Input F)) :
    (m.run inputs).stack.synSecret = m.stack.synSecret := by
  induction inputs generalizing m with
  | nil => rfl
  | cons x inputs ih => exact (ih (m.step x)).trans (step_synSecret m x)

theorem onTcp_opens {m : EventLoop F} {hdr : Ip.Ipv4Header} {seg : Segment} {d : Draw} {q : Quad}
    (hnone : m.stack.connections.lookup q = none)
    (hsome : ((m.onTcp hdr seg d).1.stack.connections.lookup q).isSome) :
    q = quadOf hdr seg.th ∧ ((isSyn seg.th = true ∧ m.stack.halfOpen < synBacklog) ∨
      (m.stack.returnedCookie hdr seg.th d.now).isSome) := by
  obtain ⟨new, hnew⟩ := Option.isSome_iff_exists.mp hsome
  rcases step_cases m (.segment hdr seg d) with hkept | ⟨hdr', seg', d', conn, heq, -, hinsert, hopens⟩
  · obtain ⟨old, hold, -⟩ := hkept q new hnew
    rw [hnone] at hold
    cases hold
  · cases heq
    refine ⟨?_, hopens.imp_right And.left⟩
    by_contra hq
    have hlook := congrArg (AList.lookup q) hinsert
    rw [AList.lookup_insert_ne hq, hnone] at hlook
    cases hlook.symm.trans hnew

/-- Half-open state is bounded under a SYN flood. In every run at most
`synBacklog` connections are in SYN_RCVD; a segment makes an entry only as a SYN
while fewer are, or as the return of a cookie of this run's secret; and a SYN
beyond the bound is answered with a cookie from an unchanged state. -/
theorem half_open_is_bounded (synSecret : U64) (inputs : List (Input F)) :
    let m := (start synSecret).run inputs
    m.stack.halfOpen ≤ synBacklog ∧ ∀ hdr seg d,
      (∀ q, m.stack.connections.lookup q = none → ((m.onTcp hdr seg d).1.stack.connections.lookup q).isSome →
        q = quadOf hdr seg.th ∧ ((isSyn seg.th = true ∧ m.stack.halfOpen < synBacklog) ∨
          (checkSynCookie synSecret q.localEnd q.remoteEnd (seg.th.seq - 1#32) (seg.th.ack - 1#32) d.now).isSome)) ∧
      (m.stack.connections.lookup (quadOf hdr seg.th) = none → isSyn seg.th = true →
        ¬ m.stack.halfOpen < synBacklog →
        m.onTcp hdr seg d = (m, [buildSynCookieSynack hdr.src hdr.dst seg.th (synCookie synSecret
          (hdr.dst, seg.th.dstPort) (hdr.src, seg.th.srcPort) seg.th.seq (seg.opts.mss.getD 536#16) d.now)])) := by
  intro m
  have hsecret : m.stack.synSecret = synSecret := run_synSecret (start synSecret) inputs
  refine ⟨run_halfOpen (Nat.zero_le _) inputs, fun hdr seg d => ⟨fun q hnone hsome => ?_, fun hnone hsyn hfull => ?_⟩⟩
  · obtain ⟨rfl, hopens⟩ := onTcp_opens hnone hsome
    rw [Stack.returnedCookie, hsecret] at hopens
    exact ⟨rfl, hopens⟩
  · simp only [onTcp, hnone, Stack.onUnknown, hsyn, hfull, and_false, if_false, if_true, hsecret, Option.toList_some]
    rfl

theorem onTcp_syn {m : EventLoop F} {hdr : Ip.Ipv4Header} {seg : Segment} (d : Draw)
    (hnone : m.stack.connections.lookup (quadOf hdr seg.th) = none) (hsyn : isSyn seg.th = true)
    (hroom : m.stack.halfOpen < synBacklog) : (m.onTcp hdr seg d).1.stack.halfOpen = m.stack.halfOpen + 1 ∧
      ∀ q, q ≠ quadOf hdr seg.th →
        (m.onTcp hdr seg d).1.stack.connections.lookup q = m.stack.connections.lookup q := by
  have hflag : hasFlag seg.th.flags SYN = true := by
    simp only [isSyn, Bool.and_eq_true] at hsyn
    exact hsyn.1
  obtain ⟨conn, synack, hacc⟩ : ∃ conn synack,
      Connection.acceptWithIssAt (F := F) hdr.src hdr.dst seg.th seg.opts d.iss
      d.now d.rnd = some (conn, synack) := by
    simp [Connection.acceptWithIssAt, hflag]
  have hstate : conn.useBbr.state = .synRcvd := by
    obtain ⟨rfl, -⟩ := Connection.acceptWithIssAt_eq hacc
    rfl
  have hopen : (m.onTcp hdr seg d).1.stack.connections =
      m.stack.connections.insert (quadOf hdr seg.th) conn.useBbr := by
    simp only [onTcp, hnone, Stack.onUnknown, hsyn, hroom, and_self, if_true, hacc]
  unfold Stack.halfOpen
  rw [hopen]
  exact ⟨Table.countP_insert_new (fun c : Connection F => decide (c.state = .synRcvd)) hnone (decide_eq_true hstate),
    fun q hq => AList.lookup_insert_ne hq⟩

def synFrom (port : U16) : Segment := ⟨⟨port, 80#16, 5#32, 0#32, 20, SYN, 1024#16⟩, [], {}⟩

theorem isSyn_synFrom (port : U16) : isSyn (synFrom port).th = true := by
  change (hasFlag SYN SYN && !hasFlag SYN ACK) = true
  decide

/-- A SYN from each of the first `n` ports. -/
def flood (n : Nat) : List (Input Rat) :=
  (List.range n).map fun port => .segment strayHeader (synFrom (BitVec.ofNat 16 port)) ⟨1#64, 700#32, 0#32⟩

theorem run_flood {n : Nat} (hn : n ≤ synBacklog) : ((start 7#64).run (flood n)).stack.halfOpen = n ∧
    ∀ port : U16, n ≤ port.toNat →
      ((start 7#64).run (flood n)).stack.connections.lookup (quadOf strayHeader (synFrom port).th) = none := by
  induction n with
  | zero => exact ⟨rfl, fun _ _ => rfl⟩
  | succ n ih =>
      obtain ⟨hcount, hfree⟩ := ih (Nat.le_of_succ_le hn)
      have hsmall : n < 2 ^ 16 := Nat.lt_of_lt_of_le hn (by decide)
      have hrun : (start 7#64).run (flood (n + 1)) = (((start 7#64).run (flood n)).onTcp strayHeader
          (synFrom (BitVec.ofNat 16 n)) ⟨1#64, 700#32, 0#32⟩).1 := by
        simp only [flood, List.range_succ, List.map_append, run, List.foldl_append]
        rfl
      rw [hrun]
      generalize (start 7#64).run (flood n) = m at hcount hfree
      have hport : (BitVec.ofNat 16 n).toNat = n := Nat.mod_eq_of_lt hsmall
      obtain ⟨hone, hothers⟩ := onTcp_syn ⟨1#64, 700#32, 0#32⟩ (hfree (BitVec.ofNat 16 n) (by rw [hport]))
        (isSyn_synFrom _) (hcount.symm ▸ hn)
      refine ⟨by rw [hone, hcount], fun port hp => ?_⟩
      rw [hothers]
      · exact hfree port (Nat.le_of_succ_le hp)
      · intro heq
        have hsame : port = BitVec.ofNat 16 n := congrArg (fun q : Quad => q.remoteEnd.2) heq
        rw [hsame, hport] at hp
        exact Nat.not_succ_le_self n hp

/-- A flood fills the backlog, and the next SYN is answered with a cookie. -/
theorem flood_meets_the_bound :
    ((start 7#64).run (flood synBacklog)).stack.halfOpen = synBacklog ∧
      (((start 7#64).run (flood synBacklog)).onTcp strayHeader (synFrom 4000#16) ⟨2#64, 700#32, 0#32⟩).1 =
        (start 7#64).run (flood synBacklog) := by
  obtain ⟨hfull, hfree⟩ := run_flood (Nat.le_refl synBacklog)
  obtain ⟨-, hsegment⟩ := half_open_is_bounded 7#64 (flood synBacklog)
  generalize (start 7#64).run (flood synBacklog) = m at hfull hfree hsegment ⊢
  obtain ⟨-, hcookie⟩ := hsegment strayHeader (synFrom 4000#16) ⟨2#64, 700#32, 0#32⟩
  have hno : ¬ m.stack.halfOpen < synBacklog := by
    rw [hfull]
    exact Nat.lt_irrefl _
  exact ⟨hfull, congrArg Prod.fst (hcookie (hfree 4000#16 (by decide)) (isSyn_synFrom _) hno)⟩

end EventLoop
end TcpStack.Main
