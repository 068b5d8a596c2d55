import TcpStack.Attendance
import TcpStack.EventLoop

/-!
# A segment as calls on a host

What the event loop does with a segment of an existing connection is a list of
calls on that connection, so its history is a host's history. The application's
part of that history is what the chunks of the connection so far say.
-/
namespace TcpStack

open Tcp Trace

variable {F : Type} [F64 F]

/-- The states of a connection that was accepted and that the application has
not closed before its peer did. -/
def State.Served (s : State) : Prop :=
  s = .synRcvd ∨ s = .established ∨ s = .closeWait ∨ s = .lastAck ∨ s = .closed

/-- In such a state, and bytes wait only where the send side is open. -/
structure Trace.Listening (t : Trace) : Prop where
  state : t.state.Served
  waiting : t.recvBuf ≠ [] → t.state.Sending ∨ t.state = .closed

theorem Trace.Step.listening {seg : Segment} {t t' : Trace} (h : Step (some seg) t t') (ht : t.Listening) :
    t'.Listening := by
  obtain ⟨hstate, hwait⟩ := ht
  unfold State.Served at hstate
  cases h with
  | ack | resend | ackNew | mark | pendFin => exact ⟨hstate, hwait⟩
  | data idle | fin idle => cases idle
  | deliver _ hrecv =>
      refine ⟨hstate, fun _ => .inl ?_⟩
      rcases hrecv with h | h | h | h
      · exact .inl h
      · exact .inr h
      · simp [h] at hstate
      · simp [h] at hstate
  | takePending => exact ⟨.inr (.inr (.inl rfl)), fun _ => .inl (.inr rfl)⟩
  | takeFin _ _ htaken =>
      generalize t.state = s at hstate htaken
      cases htaken <;> simp at hstate
  | finAcked _ _ hacked =>
      generalize t.state = s at hstate hwait hacked
      cases hacked with
      | active | both => simp at hstate
      | passive => exact ⟨.inr (.inr (.inr (.inr rfl))), fun _ => .inr rfl⟩
  | openActive _ _ _ hsyn => simp [hsyn] at hstate
  | openPassive => exact ⟨.inr (.inl rfl), fun _ => .inl (.inl rfl)⟩
  | die => exact ⟨.inr (.inr (.inr (.inr rfl))), fun _ => .inr rfl⟩

namespace Connection

theorem onSegment_listening {c : Connection F} (hs : c.state.Served) (hbuf : c.recvBuf = []) (seg : Segment)
    (now : U64) (rnd : U32) : (c.onSegment seg now rnd).1.state.Served ∧
      ((c.onSegment seg now rnd).1.recvBuf ≠ [] →
        (c.onSegment seg now rnd).1.state.Sending ∨ (c.onSegment seg now rnd).1.state = .closed) := by
  obtain ⟨_, hsteps, -⟩ := c.onSegment_moves seg now rnd {}
  have hstart : Trace.Listening ⟨c.core, {}⟩ := ⟨hs, fun hne => absurd hbuf hne⟩
  have hend := hsteps.preserves (P := Trace.Listening) (fun _ _ => Trace.Step.listening) hstart
  exact ⟨hend.state, hend.waiting⟩

theorem close_sends {c : Connection F} (hs : c.state.Sending) (now : U64) : ∃ c' fin,
    c.close now = (c', some fin) := by
  unfold close
  rcases hs with hs | hs <;> rw [hs] <;> exact ⟨_, _, rfl⟩

theorem closeIf_served {c : Connection F} (hs : c.state.Served) (p : Prop) [Decidable p] (now : U64) :
    (if c.state = .closeWait ∧ p then c.close now else (c, none)).1.state.Served := by
  split_ifs with hc
  · unfold close
    rw [hc.1]
    exact .inr (.inr (.inr (.inl rfl)))
  · exact hs

theorem closeIf_recvBuf (p : Prop) [Decidable p] (c : Connection F) (now : U64) :
    (if p then c.close now else (c, none)).1.recvBuf = c.recvBuf := by
  split_ifs
  · unfold close
    split <;> rfl
  · rfl

theorem foldl_write_eq (writes : List Bytes) (c : Connection F) : writes.foldl Connection.write c =
    { c with sendBuf := c.sendBuf ++ writes.flatten } := by
  induction writes generalizing c with
  | nil => simp only [List.foldl_nil, List.flatten_nil, List.append_nil]
  | cons data writes ih =>
      rw [List.foldl_cons, ih]
      simp only [Connection.write, List.flatten_cons, List.append_assoc]

end Connection

theorem Turn.postFin {p q : State × Bool} (h : Turn p q) (hp : ¬ p.1.PreFin) : ¬ q.1.PreFin := by
  cases h with
  | stay => exact hp
  | _ => simp_all [State.PreFin]

namespace Main
open Connection Http

/-- The calls that `converse` makes. -/
def conversation (conn : Connection F) (hbuf : Option Bytes) (seg : Segment) (d : Draw) : List Call :=
  let r := conn.onSegment seg d.now d.rnd
  let received := r.1.takeReceived
  let app := onReceived hbuf received.2
  let out := (app.writes.foldl Connection.write received.1).pollTransmit d.now
  let fin := if app.closing then out.1.close d.now else (out.1, none)
  [.onSegment seg d.now d.rnd, .takeReceived] ++ app.writes.map .write ++ [.pollTransmit d.now] ++
    (if app.closing then [.close d.now] else []) ++
    (if fin.1.state = .closeWait ∧ fin.1.sendBufferEmpty then [.close d.now] else [])

end Main

namespace Host
open Connection

theorem run_writes (h : Host F) (writes : List Bytes) : h.run (writes.map .write) =
    { h with conn := writes.foldl Connection.write h.conn, written := h.written ++ writes.flatten } := by
  induction writes generalizing h with
  | nil => simp only [List.map_nil, run_nil, List.foldl_nil, List.flatten_nil, List.append_nil]
  | cons data writes ih =>
      rw [List.map_cons, run_cons, ih]
      simp only [call, List.foldl_cons, List.flatten_cons, List.append_assoc]

/-- A call of `close`, when there is one: nothing but the connection, the wire
and the record of the close changes. -/
structure ClosedIf (p : Prop) [Decidable p] (h h' : Host F) (now : U64) : Prop where
  conn : h'.conn = (if p then h.conn.close now else (h.conn, none)).1
  emitted : h'.emitted = h.emitted ++ (if p then h.conn.close now else (h.conn, none)).2.toList
  written : h'.written = h.written
  taken : h'.taken = h.taken
  closing : h'.closing = if p ∧ h.conn.state.Sending then some ⟨h.written, h.conn.sendBuf⟩ else h.closing
  post : p → h.conn.state.Sending → ¬ h'.conn.state.PreFin

theorem run_closeIf (p : Prop) [Decidable p] (h : Host F) (now : U64) :
    ClosedIf p h (h.run (if p then [.close now] else [])) now := by
  by_cases hp : p
  · rw [if_pos hp, run_cons, run_nil]
    by_cases hs : h.conn.state.Sending
    · obtain ⟨c', fin, hc⟩ := close_sends hs now
      have hpost := (close_post hc).1
      constructor <;> simp [call, hc, hp, hs, hpost]
    · have hc : h.conn.close now = (h.conn, none) := by
        unfold close
        cases hst : h.conn.state <;> simp [hst, State.Sending] at hs <;> rfl
      constructor <;> simp [call, hc, hp, hs]
  · rw [if_neg hp, run_nil]
    constructor <;> simp [hp]

theorem ClosedIf.again {p q : Prop} [Decidable p] [Decidable q] {h k l : Host F} {now : U64}
    (hfirst : ClosedIf p h k now) (hlast : ClosedIf q k l now) (hp : p) (hs : h.conn.state.Sending) :
    ¬ l.conn.state.PreFin ∧ ∃ r, l.closing = some r ∧ r.written = l.written := by
  have hpost : ¬ k.conn.state.PreFin := hfirst.post hp hs
  have hsilent : ¬ (q ∧ k.conn.state.Sending) := fun hq => hpost hq.2.preFin
  constructor
  · rw [hlast.conn]
    split_ifs
    · exact (close_turn k.conn now).postFin hpost
    · exact hpost
  · rw [hlast.closing, if_neg hsilent, hfirst.closing, if_pos ⟨hp, hs⟩, hlast.written, hfirst.written]
    exact ⟨_, rfl, rfl⟩

end Host

namespace Main
open Host Connection Http

theorem conversation_heard (conn : Connection F) (hbuf : Option Bytes) (seg : Segment) (d : Draw) :
    (conversation conn hbuf seg d).filterMap Trace.input = [seg] := by
  have hwrites : ∀ writes : List Bytes, (writes.map Call.write).filterMap Trace.input = [] := fun writes => by
    rw [List.filterMap_map]
    exact List.filterMap_eq_nil_iff.mpr fun _ _ => rfl
  have hclose : ∀ (p : Prop) [Decidable p], (if p then [Call.close d.now] else []).filterMap Trace.input = [] :=
    fun p _ => by split_ifs <;> rfl
  simp only [conversation, List.filterMap_append, hwrites, hclose, List.append_nil]
  rfl

/-- The bytes that a segment leaves for the application. -/
def chunkOf (conn : Connection F) (seg : Segment) (d : Draw) : Bytes := (conn.onSegment seg d.now d.rnd).1.recvBuf

/-- What a segment hands to the application: one chunk, or nothing. -/
def brought (conn : Connection F) (seg : Segment) (d : Draw) : List Bytes :=
  if chunkOf conn seg d = [] then [] else [chunkOf conn seg d]

/-- The host when all the calls of a segment but the closes are done. -/
def spoken (h : Host F) (hbuf : Option Bytes) (seg : Segment) (d : Draw) : Host F :=
  let r := h.conn.onSegment seg d.now d.rnd
  let writes := (onReceived hbuf (chunkOf h.conn seg d)).writes
  let out := (writes.foldl Connection.write r.1.takeReceived.1).pollTransmit d.now
  { h with
    conn := out.1, written := h.written ++ writes.flatten, taken := h.taken ++ chunkOf h.conn seg d,
    emitted := h.emitted ++ r.2.toList ++ out.2, removed := h.removed ++ gone h.conn.retx r.1.retx }

theorem spoken_conn (h : Host F) (hbuf : Option Bytes) (seg : Segment) (d : Draw) :
    (spoken h hbuf seg d).conn.state = (h.conn.onSegment seg d.now d.rnd).1.state ∧
      (spoken h hbuf seg d).conn.recvBuf = [] := by
  simp only [spoken]
  generalize (onReceived hbuf (chunkOf h.conn seg d)).writes = writes
  generalize h.conn.onSegment seg d.now d.rnd = r
  have hstill : ((writes.foldl Connection.write r.1.takeReceived.1).pollTransmit d.now).1.still =
      r.1.takeReceived.1.still := by
    rw [pollTransmit_still, foldl_write_eq]
    rfl
  generalize ((writes.foldl Connection.write r.1.takeReceived.1).pollTransmit d.now).1 = out at hstill ⊢
  refine ⟨?_, (congrArg Connection.recvBuf hstill :)⟩
  rw [← still_state, hstill]
  rfl

theorem run_closes (h : Host F) (hbuf : Option Bytes) (seg : Segment) (d : Draw) : ∃ fin : Host F,
    ClosedIf ((onReceived hbuf (chunkOf h.conn seg d)).closing = true) (spoken h hbuf seg d) fin d.now ∧
      ClosedIf (fin.conn.state = .closeWait ∧ fin.conn.sendBufferEmpty) fin
        (h.run (conversation h.conn hbuf seg d)) d.now := by
  have hsent : h.run ([.onSegment seg d.now d.rnd, .takeReceived] ++
      (onReceived hbuf (chunkOf h.conn seg d)).writes.map .write ++ [.pollTransmit d.now]) = spoken h hbuf seg d := by
    simp only [run_append, run_cons, run_nil, run_writes, call, spoken]
    rfl
  have hfin := run_closeIf ((onReceived hbuf (chunkOf h.conn seg d)).closing = true) (spoken h hbuf seg d) d.now
  refine ⟨_, hfin, ?_⟩
  have hconn := hfin.conn
  generalize hf : (spoken h hbuf seg d).run (if (onReceived hbuf (chunkOf h.conn seg d)).closing = true
    then [.close d.now] else []) = fin at hconn ⊢
  have hcalls : conversation h.conn hbuf seg d = [.onSegment seg d.now d.rnd, .takeReceived] ++
      (onReceived hbuf (chunkOf h.conn seg d)).writes.map .write ++ [.pollTransmit d.now] ++
      (if (onReceived hbuf (chunkOf h.conn seg d)).closing = true then [.close d.now] else []) ++
      (if fin.conn.state = .closeWait ∧ fin.conn.sendBufferEmpty then [.close d.now] else []) := by
    rw [hconn]
    rfl
  rw [hcalls, run_append, run_append, hsent, hf]
  exact run_closeIf _ fin d.now

/-- The history of a host over the calls of a segment. -/
structure Conversant (h : Host F) (hbuf : Option Bytes) (seg : Segment) (d : Draw) (h' : Host F) : Prop where
  conn : h'.conn = (converse h.conn hbuf seg d).conn
  emitted : h'.emitted = h.emitted ++ (converse h.conn hbuf seg d).sent
  written : h'.written = h.written ++ (onReceived hbuf (chunkOf h.conn seg d)).writes.flatten
  taken : h'.taken = h.taken ++ chunkOf h.conn seg d
  drained : h'.conn.recvBuf = []
  closed : (onReceived hbuf (chunkOf h.conn seg d)).closing = true →
    (h.conn.onSegment seg d.now d.rnd).1.state.Sending →
      ¬ h'.conn.state.PreFin ∧ ∃ r, h'.closing = some r ∧ r.written = h'.written
  served : (onReceived hbuf (chunkOf h.conn seg d)).closing = false →
    (h.conn.onSegment seg d.now d.rnd).1.state.Served → h'.conn.state.Served

theorem run_conversation (h : Host F) (hbuf : Option Bytes) (seg : Segment) (d : Draw) :
    Conversant h hbuf seg d (h.run (conversation h.conn hbuf seg d)) := by
  obtain ⟨fin, hfin, hlast⟩ := run_closes h hbuf seg d
  obtain ⟨hstate, hempty⟩ := spoken_conn h hbuf seg d
  generalize h.run (conversation h.conn hbuf seg d) = last at hlast
  constructor
  · rw [hlast.conn, hfin.conn]
    rfl
  · rw [hlast.emitted, hfin.emitted, hfin.conn]
    simp only [converse, spoken, List.append_assoc]
    rfl
  · rw [hlast.written, hfin.written]
    rfl
  · rw [hlast.taken, hfin.taken]
    rfl
  · rw [hlast.conn, closeIf_recvBuf, hfin.conn, closeIf_recvBuf, hempty]
  · exact fun hclosing hsending => hfin.again hlast hclosing (hstate ▸ hsending)
  · intro hclosing hserved
    rw [hlast.conn]
    refine closeIf_served ?_ _ d.now
    rw [hfin.conn, hclosing, if_neg Bool.false_ne_true, hstate]
    exact hserved

end Main
end TcpStack
