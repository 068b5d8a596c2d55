import TcpStack.Lifetime
import TcpStack.Conversation
import TcpStack.Address

/-!
# The event loop, seen from one 4-tuple

An entry of the table is the connection of a host that was opened by the segment
that made the entry, and what the loop has sent for the 4-tuple since is what
that host has sent. So whatever holds over all runs of a host holds of every
connection of the server. The host's application is the server's: it has written
the answer to the bytes it took.
-/
namespace TcpStack.Main
open Tcp Host Connection Http Lifetime

variable {F : Type} [F64 F]

/-- The host's application has taken the chunks, in this order, and has written
what the event loop writes for them. Its close, when it closes, comes behind all
of the answer. -/
structure Attended (h : Host F) (hbuf : Option Bytes) (chunks : List Bytes) : Prop where
  nonempty : ∀ c ∈ chunks, c ≠ []
  taken : h.taken = chunks.flatten
  drained : h.conn.recvBuf = []
  attended : attend none chunks = (hbuf, h.written)
  served : (Http.answer none chunks).closing = false → h.conn.state.Served
  closed : (Http.answer none chunks).closing = true → ¬ h.conn.state.PreFin ∧
    ∃ r, h.closing = some r ∧ r.written = (Http.answer none chunks).written

theorem call_postFin {h : Host F} (hp : ¬ h.conn.state.PreFin) (x : Call) :
    ¬ (h.call x).conn.state.PreFin ∧ (h.call x).closing = h.closing := by
  refine ⟨(call_turn h x).postFin hp, ?_⟩
  cases x with
  | close now =>
      have hsilent := close_silent hp now
      simp only [Host.call]
      split
      · rename_i heq
        rw [heq] at hsilent
        cases hsilent
      · rfl
  | _ => rfl

theorem run_postFin {h : Host F} (hp : ¬ h.conn.state.PreFin) (calls : List Call) :
    ¬ (h.run calls).conn.state.PreFin ∧ (h.run calls).closing = h.closing := by
  induction calls generalizing h with
  | nil => exact ⟨hp, rfl⟩
  | cons x calls ih =>
      obtain ⟨hp', hsame⟩ := call_postFin hp x
      obtain ⟨hpost, hkept⟩ := ih hp'
      exact ⟨hpost, hkept.trans hsame⟩

theorem run_closed {h : Host F} (hc : h.conn.state = .closed) (calls : List Call) :
    (h.run calls).conn.state = .closed := by
  refine run_preserves (P := fun h => h.conn.state = .closed) (fun h x hc => ?_) hc calls
  rcases (call_turn h x).edge with heq | hmem
  · exact heq.trans hc
  · rw [show h.conn.phase.1 = .closed from hc] at hmem
    cases hmem

theorem onTick_open {c : Connection F} {now : U64} (hlive : (c.onTick now).1.state ≠ .closed) :
    (c.onTick now).1.state = c.state ∧ (c.onTick now).1.recvBuf = c.recvBuf := by
  have hkept := onTick_kept c now
  generalize (c.onTick now).1 = c' at hkept hlive
  have hstill : c'.still = c.still := by
    refine hkept.resolve_right fun hdead => hlive ?_
    rw [← still_state, hdead]
    rfl
  refine ⟨?_, (congrArg Connection.recvBuf hstill :)⟩
  rw [← still_state, hstill, still_state]

namespace Attended

variable {h : Host F} {hbuf : Option Bytes} {chunks : List Bytes}

theorem delivered (ha : Attended h hbuf chunks) : h.delivered = chunks.flatten := by
  rw [Host.delivered, ha.taken, ha.drained, List.append_nil]

theorem closed_run (ha : Attended h hbuf chunks) (hclosing : (Http.answer none chunks).closing = true)
    (calls : List Call) : ¬ (h.run calls).conn.state.PreFin ∧
      ∃ r, (h.run calls).closing = some r ∧ r.written = (Http.answer none chunks).written := by
  obtain ⟨hp, r, hr, hw⟩ := ha.closed hclosing
  obtain ⟨hpost, hsame⟩ := run_postFin hp calls
  exact ⟨hpost, r, hsame.trans hr, hw⟩

theorem converse_idle (ha : Attended h hbuf chunks) {seg : Segment} {d : Draw} (hempty : chunkOf h.conn seg d = []) :
    Attended (h.run (conversation h.conn hbuf seg d)) (Main.converse h.conn hbuf seg d).hbuf chunks := by
  have hcv := run_conversation h hbuf seg d
  have hclosed := fun hclosing => ha.closed_run hclosing (conversation h.conn hbuf seg d)
  generalize h.run (conversation h.conn hbuf seg d) = h' at hcv hclosed ⊢
  have hidle : onReceived hbuf (chunkOf h.conn seg d) = ⟨hbuf, [], [], false⟩ := by
    rw [hempty]
    rfl
  have hkept : (Main.converse h.conn hbuf seg d).hbuf = hbuf := by
    change (if (onReceived hbuf (chunkOf h.conn seg d)).closing then none
      else (onReceived hbuf (chunkOf h.conn seg d)).hbuf) = hbuf
    rw [hidle, if_neg Bool.false_ne_true]
  have hwritten : h'.written = h.written := by
    rw [hcv.written, hidle, List.flatten_nil, List.append_nil]
  rw [hkept]
  refine ⟨ha.nonempty, ?_, hcv.drained, ?_, fun hopen => ?_, hclosed⟩
  · rw [hcv.taken, hempty, List.append_nil, ha.taken]
  · rw [hwritten, ha.attended]
  · refine hcv.served (by rw [hidle]) ?_
    exact (onSegment_listening (ha.served hopen) ha.drained seg d.now d.rnd).1

/-- A segment that brings a chunk on which the application closes. Data came in,
so the send side was open at the close. -/
theorem converse_closed (ha : Attended h hbuf chunks) {seg : Segment} {d : Draw}
    (hlive : (Main.converse h.conn hbuf seg d).conn.state ≠ .closed) (hdata : chunkOf h.conn seg d ≠ [])
    (hbefore : (Http.answer none chunks).closing = false)
    (hclosing : (onReceived hbuf (chunkOf h.conn seg d)).closing = true) :
    ¬ (h.run (conversation h.conn hbuf seg d)).conn.state.PreFin ∧
      ∃ r, (h.run (conversation h.conn hbuf seg d)).closing = some r ∧
        r.written = (Http.answer none (chunks ++ [chunkOf h.conn seg d])).written := by
  have hcv := run_conversation h hbuf seg d
  have hsending : (h.conn.onSegment seg d.now d.rnd).1.state.Sending := by
    refine ((onSegment_listening (ha.served hbefore) ha.drained seg d.now d.rnd).2 hdata).resolve_right ?_
    intro hdead
    refine hlive ?_
    rw [← hcv.conn]
    exact run_closed (h := h.call (.onSegment seg d.now d.rnd)) hdead _
  obtain ⟨hp, r, hr, hw⟩ := hcv.closed hclosing hsending
  refine ⟨hp, r, hr, ?_⟩
  have hsnoc := ((answer_snoc none chunks (chunkOf h.conn seg d)).2 hbefore).2
  have hold : (attend none chunks).2 = h.written := congrArg Prod.snd ha.attended
  rw [hw, hcv.written, hsnoc, ha.attended, ← hold, attend_open hbefore]

theorem converse (ha : Attended h hbuf chunks) {seg : Segment} {d : Draw}
    (hlive : (Main.converse h.conn hbuf seg d).conn.state ≠ .closed) :
    Attended (h.run (conversation h.conn hbuf seg d)) (Main.converse h.conn hbuf seg d).hbuf
      (chunks ++ brought h.conn seg d) := by
  by_cases hempty : chunkOf h.conn seg d = []
  · rw [brought, if_pos hempty, List.append_nil]
    exact ha.converse_idle hempty
  · rw [brought, if_neg hempty]
    have hcv := run_conversation h hbuf seg d
    have hsnoc := answer_snoc none chunks (chunkOf h.conn seg d)
    rw [ha.attended] at hsnoc
    refine ⟨fun c hc => ?_, ?_, hcv.drained, ?_, fun hopen => ?_, fun hclosed => ?_⟩
    · rcases List.mem_append.mp hc with hc | hc
      · exact ha.nonempty c hc
      · rwa [List.mem_singleton.mp hc]
    · rw [hcv.taken, ha.taken, List.flatten_append, List.flatten_singleton]
    · rw [attend_snoc, ha.attended, hcv.written]
      rfl
    · have hbefore : (Http.answer none chunks).closing = false := by
        by_contra hno
        rw [hsnoc.1 (Bool.not_eq_false _ ▸ hno)] at hopen
        exact hno hopen
      rw [(hsnoc.2 hbefore).1] at hopen
      exact hcv.served hopen (onSegment_listening (ha.served hbefore) ha.drained seg d.now d.rnd).1
    · cases hbefore : (Http.answer none chunks).closing with
      | true =>
          rw [hsnoc.1 hbefore]
          exact ha.closed_run hbefore _
      | false =>
          rw [(hsnoc.2 hbefore).1] at hclosed
          exact ha.converse_closed hlive hempty hbefore hclosed

theorem tick (ha : Attended h hbuf chunks) {now : U64} (hlive : (h.conn.onTick now).1.state ≠ .closed) :
    Attended (h.call (.onTick now)) hbuf chunks := by
  obtain ⟨hstate, hempty⟩ := onTick_open hlive
  simp only [call]
  generalize h.conn.onTick now = r at hstate hempty
  refine ⟨ha.nonempty, ha.taken, hempty.trans ha.drained, ha.attended, fun hopen => ?_, fun hclosed => ?_⟩
  · rw [show r.1.state = h.conn.state from hstate]
    exact ha.served hopen
  · rw [show r.1.state = h.conn.state from hstate]
    exact ha.closed hclosed

end Attended

/-- The segment opens the host for the 4-tuple: a SYN, or a bare ACK that returns
a cookie under the secret. -/
inductive OpenedBy (synSecret : U64) (q : Quad) : Input F → Host F → Prop where
  | syn {hdr : Ip.Ipv4Header} {seg : Segment} {d : Draw} {h : Host F} (quad : quadOf hdr seg.th = q)
      (isSyn : isSyn seg.th = true) (accepted : accept hdr.src hdr.dst seg d.iss d.now d.rnd = some h) :
      OpenedBy synSecret q (.segment hdr seg d) h
  | cookie {hdr : Ip.Ipv4Header} {seg : Segment} {d : Draw} {mss : U16} (quad : quadOf hdr seg.th = q)
      (bare : isBareAck seg.th = true)
      (valid : checkSynCookie synSecret q.localEnd q.remoteEnd (seg.th.seq - 1#32)
        (seg.th.ack - 1#32) d.now = some mss) :
      OpenedBy synSecret q (.segment hdr seg d)
        (Host.cookie q.localEnd q.remoteEnd (seg.th.seq - 1#32) (seg.th.ack - 1#32) mss d.now d.rnd)

namespace OpenedBy

variable {synSecret : U64} {q : Quad} {x : Input F} {h : Host F}

theorem fresh (ho : OpenedBy synSecret q x h) : Fresh h := by
  cases ho with
  | syn _ _ haccept => exact .accept _ _ _ _ _ _ haccept
  | cookie => exact .cookie ..

theorem serves (ho : OpenedBy synSecret q x h) : Host.Serves q h := by
  cases ho with
  | syn hquad _ haccept =>
      subst hquad
      exact accept_serves rfl rfl haccept
  | cookie =>
      refine ⟨⟨rfl, rfl⟩, State.noConfusion, umin_le_right _ ourMss, ?_, fun p hp => absurd hp List.not_mem_nil⟩
      rintro p ⟨s, hmem, -⟩
      exact absurd hmem List.not_mem_nil

theorem untouched (ho : OpenedBy synSecret q x h) : (h.conn.state = .synRcvd ∨ h.conn.state = .established) ∧
    h.taken = [] ∧ h.conn.recvBuf = [] ∧ h.written = [] := by
  cases ho with
  | syn _ _ haccept =>
      obtain ⟨⟨c, synack⟩, hr, rfl⟩ := Option.map_eq_some_iff.mp haccept
      obtain ⟨rfl, -⟩ := acceptWithIssAt_eq hr
      exact ⟨.inl rfl, rfl, rfl, rfl⟩
  | cookie => exact ⟨.inr rfl, rfl, rfl, rfl⟩

theorem arrives (ho : OpenedBy synSecret q x h) : ∃ hdr seg d, x = .segment hdr seg d ∧ quadOf hdr seg.th = q := by
  cases ho with
  | syn hq => exact ⟨_, _, _, rfl, hq⟩
  | cookie hq => exact ⟨_, _, _, rfl, hq⟩

theorem attended (ho : OpenedBy synSecret q x h) : Attended (h.call .useBbr) none [] := by
  obtain ⟨hstate, htaken, hbuf, hwritten⟩ := ho.untouched
  refine ⟨fun c hc => absurd hc List.not_mem_nil, htaken, hbuf, ?_, fun _ => ?_, fun h => absurd h Bool.false_ne_true⟩
  · rw [show (h.call .useBbr).written = [] from hwritten]
    rfl
  · rcases hstate with hs | hs
    · exact .inl hs
    · exact .inr (.inl hs)

end OpenedBy

namespace EventLoop

/-- The packets that a step sends, each with the 4-tuple it is sent for. -/
def sends (m : EventLoop F) : Input F → List (Quad × Bytes)
  | .timers order now => ((m.stack.connections.reorder order).visit (fun _ conn => conn.onTick now)).2
  | .segment hdr seg d => (m.onTcp hdr seg d).2.map (Prod.mk (quadOf hdr seg.th))

theorem sends_packets (m : EventLoop F) (x : Input F) : (m.sends x).map Prod.snd =
    match x with
    | .timers order now => (m.timers order now).2
    | .segment hdr seg d => (m.onTcp hdr seg d).2 := by
  cases x with
  | timers order now => rfl
  | segment hdr seg d => simp only [sends, List.map_map, Function.comp_def, List.map_id']

/-- What a step sends for one 4-tuple. -/
def sendsFor (q : Quad) (m : EventLoop F) (x : Input F) : List Bytes := Table.select q (m.sends x)

/-- What the loop holds for one 4-tuple. -/
structure Line (F : Type) [F64 F] where
  conn : Option (Connection F)
  hbuf : Option Bytes

def line (q : Quad) (m : EventLoop F) : Line F := ⟨m.stack.connections.lookup q, m.httpBufs.lookup q⟩

/-- The connection, and the buffer beside it. -/
def Line.entry (l : Line F) : Option (Connection F × Option Bytes) := l.conn.map fun conn => (conn, l.hbuf)

/-- The segment that an input brings to a 4-tuple. -/
def arrivalAt (q : Quad) : Input F → Option Segment
  | .timers .. => none
  | .segment hdr seg _ => if quadOf hdr seg.th = q then some seg else none

/-- What an input hands to the application of a connection: the chunk that a
segment brings. -/
def Line.brings (q : Quad) (l : Line F) : Input F → List Bytes
  | .timers .. => []
  | .segment hdr seg d =>
      match l.conn with
      | some conn => if quadOf hdr seg.th = q then brought conn seg d else []
      | none => []

/-- What a step hands to the application of one 4-tuple. -/
def chunksFor (q : Quad) (m : EventLoop F) (x : Input F) : List Bytes := (line q m).brings q x

theorem Line.brings_elsewhere {q : Quad} (l : Line F) {x : Input F} (hx : arrivalAt q x = none) :
    l.brings q x = [] := by
  cases x with
  | timers => rfl
  | segment hdr seg d =>
      have hne : quadOf hdr seg.th ≠ q := fun heq => Option.some_ne_none seg ((if_pos heq).symm.trans hx)
      simp only [Line.brings, if_neg hne]
      split <;> rfl

theorem Line.brings_absent (q : Quad) (hbuf : Option Bytes) (x : Input F) : (Line.mk none hbuf).brings q x = [] := by
  cases x <;> rfl

/-- What a step can do to a line, with what it sends for it. -/
inductive LineStep (synSecret : U64) (q : Quad) : Input F → Line F → Line F → List Bytes → Prop where
  | other {x : Input F} {l : Line F} (elsewhere : arrivalAt q x = none)
      (idle : (∃ hdr seg d, x = .segment hdr seg d) ∨ l.conn = none) : LineStep synSecret q x l l []
  | tick {order : Table.Order Quad (Connection F)} {now : U64} {conn : Connection F} {hbuf : Option Bytes} :
      LineStep synSecret q (.timers order now) ⟨some conn, hbuf⟩
        (if (conn.onTick now).1.state = .closed then ⟨none, none⟩ else ⟨some (conn.onTick now).1, hbuf⟩)
        (conn.onTick now).2
  | talk {hdr : Ip.Ipv4Header} {seg : Segment} {d : Draw} {conn : Connection F} {hbuf : Option Bytes}
      (quad : quadOf hdr seg.th = q) : LineStep synSecret q (.segment hdr seg d) ⟨some conn, hbuf⟩
        (if (converse conn hbuf seg d).conn.state = .closed then ⟨none, none⟩
          else ⟨some (converse conn hbuf seg d).conn, (converse conn hbuf seg d).hbuf⟩)
        (converse conn hbuf seg d).sent
  | refused {hdr : Ip.Ipv4Header} {seg : Segment} {d : Draw} {hbuf : Option Bytes} {sent : List Bytes}
      (quad : quadOf hdr seg.th = q) : LineStep synSecret q (.segment hdr seg d) ⟨none, hbuf⟩ ⟨none, hbuf⟩ sent
  | opened {x : Input F} {h : Host F} {hbuf : Option Bytes} (made : OpenedBy synSecret q x h) :
      LineStep synSecret q x ⟨none, hbuf⟩ ⟨some (h.call .useBbr).conn, hbuf⟩ h.emitted

theorem line_timers (q : Quad) (m : EventLoop F) (order : Table.Order Quad (Connection F)) (now : U64) :
    line q (m.timers order now).1 =
      match line q m with
      | ⟨none, hbuf⟩ => ⟨none, hbuf⟩
      | ⟨some conn, hbuf⟩ =>
          if (conn.onTick now).1.state = .closed then ⟨none, none⟩ else ⟨some (conn.onTick now).1, hbuf⟩ := by
  have hfilter : ∀ (o : Option Bytes) (b : Bool), o.filter (fun _ => b) = if b then o else none := by
    intro o b
    cases o <;> cases b <;> rfl
  simp only [line, timers, Table.lookup_retain, Table.lookup_visit, Table.lookup_reorder, hfilter]
  cases m.stack.connections.lookup q with
  | none => rfl
  | some conn =>
      simp only [Option.map_some, Option.any_some, Option.filter_some]
      by_cases hc : (conn.onTick now).1.state = .closed <;> simp [hc]

theorem line_onKnown (q : Quad) (m : EventLoop F) (conn : Connection F) (seg : Segment) (d : Draw) :
    line q (m.onKnown q conn seg d).1 =
      if (converse conn (m.httpBufs.lookup q) seg d).conn.state = .closed then ⟨none, none⟩
      else ⟨some (converse conn (m.httpBufs.lookup q) seg d).conn,
        (converse conn (m.httpBufs.lookup q) seg d).hbuf⟩ := by
  unfold line onKnown
  dsimp only
  generalize converse conn (m.httpBufs.lookup q) seg d = r
  cases r.hbuf with
  | none => split_ifs <;> simp only [AList.lookup_erase, AList.lookup_insert]
  | some hbuf => split_ifs <;> simp only [AList.lookup_erase, AList.lookup_insert]

theorem line_onKnown_ne {q quad : Quad} (hq : q ≠ quad) (m : EventLoop F) (conn : Connection F) (seg : Segment)
    (d : Draw) : line q (m.onKnown quad conn seg d).1 = line q m := by
  unfold line onKnown
  dsimp only
  generalize converse conn (m.httpBufs.lookup quad) seg d = r
  cases r.hbuf with
  | none => split_ifs <;> simp only [AList.lookup_erase_ne hq, AList.lookup_insert_ne hq]
  | some hbuf => split_ifs <;> simp only [AList.lookup_erase_ne hq, AList.lookup_insert_ne hq]

/-- What the arm for an unknown 4-tuple can do to the table: nothing, or the
entry of the host that the segment opens. -/
theorem onUnknown_opens (m : Stack F) (hdr : Ip.Ipv4Header) (seg : Segment) (d : Draw) :
    (m.onUnknown hdr seg d).1 = m ∨ ∃ h : Host F, OpenedBy m.synSecret (quadOf hdr seg.th) (.segment hdr seg d) h ∧
      (m.onUnknown hdr seg d).1 =
        { m with connections := m.connections.insert (quadOf hdr seg.th) (h.call .useBbr).conn } ∧
      (m.onUnknown hdr seg d).2.toList = h.emitted := by
  unfold Stack.onUnknown
  dsimp only
  split_ifs with hroom hsyn hbare
  · cases hacc : Connection.acceptWithIssAt (F := F) hdr.src hdr.dst seg.th seg.opts d.iss d.now d.rnd with
    | none => exact .inl rfl
    | some r =>
        have haccept : accept (F := F) hdr.src hdr.dst seg d.iss d.now d.rnd =
            some { conn := r.1, emitted := [r.2] } := by
          rw [accept, hacc]
          rfl
        exact .inr ⟨_, .syn rfl hroom.1 haccept, rfl, rfl⟩
  · exact .inl rfl
  · cases hck : m.returnedCookie hdr seg.th d.now with
    | none => exact .inl rfl
    | some mss => exact .inr ⟨_, .cookie rfl hbare hck, rfl, rfl⟩
  · exact .inl rfl

theorem line_step_timers (q : Quad) (m : EventLoop F) (order : Table.Order Quad (Connection F)) (now : U64) :
    LineStep m.stack.synSecret q (.timers order now) (line q m) (line q (m.step (.timers order now)))
      (sendsFor q m (.timers order now)) := by
  have hsends : sendsFor q m (.timers order now) =
      ((m.stack.connections.lookup q).map (fun conn => (conn.onTick now).2)).getD [] := by
    rw [sendsFor, sends, Table.select_visit, Table.lookup_reorder]
  rw [step, line_timers, hsends]
  cases hc : m.stack.connections.lookup q with
  | none =>
      have hline : line q m = ⟨none, m.httpBufs.lookup q⟩ := by rw [line, hc]
      rw [hline]
      exact .other rfl (.inr rfl)
  | some conn =>
      have hline : line q m = ⟨some conn, m.httpBufs.lookup q⟩ := by rw [line, hc]
      rw [hline]
      exact .tick

theorem line_step_own (m : EventLoop F) (hdr : Ip.Ipv4Header) (seg : Segment) (d : Draw) :
    LineStep m.stack.synSecret (quadOf hdr seg.th) (.segment hdr seg d) (line (quadOf hdr seg.th) m)
      (line (quadOf hdr seg.th) (m.step (.segment hdr seg d)))
      (sendsFor (quadOf hdr seg.th) m (.segment hdr seg d)) := by
  rw [sendsFor, sends, step, onTcp, Table.select_tag]
  cases hc : m.stack.connections.lookup (quadOf hdr seg.th) with
  | some conn =>
      dsimp only
      rw [line_onKnown]
      have hline : line (quadOf hdr seg.th) m = ⟨some conn, m.httpBufs.lookup (quadOf hdr seg.th)⟩ := by
        rw [line, hc]
      rw [hline]
      exact .talk rfl
  | none =>
      dsimp only
      have hline : line (quadOf hdr seg.th) m = ⟨none, m.httpBufs.lookup (quadOf hdr seg.th)⟩ := by
        rw [line, hc]
      rcases onUnknown_opens m.stack hdr seg d with hsame | ⟨h, hopen, hinsert, hout⟩
      · have hkept : line (quadOf hdr seg.th) { m with stack := (m.stack.onUnknown hdr seg d).1 } =
            line (quadOf hdr seg.th) m := by rw [hsame]
        rw [hkept, hline]
        exact .refused rfl
      · have hnew : line (quadOf hdr seg.th) { m with stack := (m.stack.onUnknown hdr seg d).1 } =
            ⟨some (h.call .useBbr).conn, m.httpBufs.lookup (quadOf hdr seg.th)⟩ := by
          rw [hinsert, line, AList.lookup_insert]
        rw [hnew, hline, hout]
        exact .opened hopen

theorem line_onTcp_ne {q : Quad} (m : EventLoop F) {hdr : Ip.Ipv4Header} {seg : Segment}
    (hq : q ≠ quadOf hdr seg.th) (d : Draw) : line q (m.onTcp hdr seg d).1 = line q m := by
  unfold onTcp
  cases m.stack.connections.lookup (quadOf hdr seg.th) with
  | some conn => exact line_onKnown_ne hq m conn seg d
  | none =>
      rcases onUnknown_opens m.stack hdr seg d with hsame | ⟨h, -, hinsert, -⟩
      · dsimp only
        rw [hsame]
      · dsimp only
        rw [hinsert, line, AList.lookup_insert_ne hq]
        rfl

theorem line_step (q : Quad) (m : EventLoop F) (x : Input F) :
    LineStep m.stack.synSecret q x (line q m) (line q (m.step x)) (sendsFor q m x) := by
  cases x with
  | timers order now => exact line_step_timers q m order now
  | segment hdr seg d =>
      by_cases hq : q = quadOf hdr seg.th
      · subst hq
        exact line_step_own m hdr seg d
      · rw [sendsFor, sends, step, Table.select_tag_ne (Ne.symm hq), line_onTcp_ne m hq d]
        exact .other (if_neg (Ne.symm hq)) (.inl ⟨hdr, seg, d, rfl⟩)

/-- The host behind an entry: what opened it, the calls since, and the chunks its
application has taken. -/
structure Embodies (synSecret : U64) (q : Quad) (birth : Input F) (since : List (Input F)) (sent : List Bytes)
    (e : Connection F × Option Bytes) (h : Host F) (calls : List Call) (chunks : List Bytes) : Prop where
  opened : OpenedBy synSecret q birth h
  conn : (h.run (.useBbr :: calls)).conn = e.1
  emitted : (h.run (.useBbr :: calls)).emitted = sent
  heard : calls.filterMap Trace.input = since.filterMap (arrivalAt q)
  app : Attended (h.run (.useBbr :: calls)) e.2 chunks
  live : e.1.state ≠ .closed

/-- The secret is the run's, and a 4-tuple has a buffer only beside a connection. -/
structure Settled (synSecret : U64) (q : Quad) (m : EventLoop F) : Prop where
  secret : m.stack.synSecret = synSecret
  buffered : (line q m).hbuf.isSome = true → (line q m).conn.isSome = true

theorem step_settled {synSecret : U64} {q : Quad} (m : EventLoop F) (x : Input F) (hm : Settled synSecret q m) :
    Settled synSecret q (m.step x) := by
  refine ⟨(step_synSecret m x).trans hm.secret, ?_⟩
  have hstep := line_step q m x
  have hold := hm.buffered
  generalize line q m = l at hstep hold
  generalize line q (m.step x) = l' at hstep ⊢
  generalize sendsFor q m x = sent at hstep
  cases hstep with
  | other | refused => exact hold
  | tick | talk => split_ifs <;> simp
  | opened => simp

theorem embodied_at_birth {synSecret : U64} {q : Quad} {m : EventLoop F} {x : Input F}
    {e : Connection F × Option Bytes} (hm : Settled synSecret q m) (hnone : (line q m).entry = none)
    (he : (line q (m.step x)).entry = some e) :
    ∃ h calls, Embodies synSecret q x [] (sendsFor q m x) e h calls (chunksFor q m x) := by
  have hstep := line_step q m x
  have hold := hm.buffered
  rw [hm.secret] at hstep
  rw [chunksFor]
  generalize line q m = l at hstep hold hnone ⊢
  generalize line q (m.step x) = l' at hstep he
  generalize sendsFor q m x = sent at hstep ⊢
  cases hstep with
  | other => exact absurd (hnone.symm.trans he) (Option.some_ne_none _).symm
  | refused => cases he
  | tick | talk => cases hnone
  | @opened _ h hbuf made =>
      obtain rfl : hbuf = none := Option.not_isSome_iff_eq_none.mp fun hsome => Bool.false_ne_true (hold hsome)
      obtain rfl := Option.some.inj he
      rw [Line.brings_absent]
      refine ⟨h, [], made, rfl, rfl, rfl, made.attended, ?_⟩
      rcases made.untouched.1 with hs | hs <;> simp [call, Connection.useBbr, hs]

section Survives
variable {synSecret : U64} {q : Quad} {x birth : Input F} {since : List (Input F)} {sent : List Bytes}
  {e e' : Connection F × Option Bytes} {h : Host F} {calls : List Call} {chunks : List Bytes}

theorem Embodies.snoc (hem : Embodies synSecret q birth since sent e h calls chunks) {more : List Call}
    {out next : List Bytes} (hconn : ((h.run (.useBbr :: calls)).run more).conn = e'.1)
    (hemitted : ((h.run (.useBbr :: calls)).run more).emitted = (h.run (.useBbr :: calls)).emitted ++ out)
    (hheard : more.filterMap Trace.input = [x].filterMap (arrivalAt q))
    (happ : Attended ((h.run (.useBbr :: calls)).run more) e'.2 (chunks ++ next)) (hlive : e'.1.state ≠ .closed) :
    Embodies synSecret q birth (since ++ [x]) (sent ++ out) e' h (calls ++ more) (chunks ++ next) := by
  have hrun : h.run (.useBbr :: (calls ++ more)) = (h.run (.useBbr :: calls)).run more :=
    run_append h (.useBbr :: calls) more
  refine ⟨hem.opened, ?_, ?_, ?_, ?_, hlive⟩
  · rw [hrun, hconn]
  · rw [hrun, hemitted, hem.emitted]
  · rw [List.filterMap_append, List.filterMap_append, hem.heard, hheard]
  · rwa [hrun]

theorem Embodies.elsewhere (hem : Embodies synSecret q birth since sent e h calls chunks)
    (hx : arrivalAt q x = none) :
    Embodies synSecret q birth (since ++ [x]) (sent ++ []) e h (calls ++ []) (chunks ++ []) := by
  refine hem.snoc hem.conn (List.append_nil _).symm ?_ ?_ hem.live
  · rw [List.filterMap_cons_none hx]
    rfl
  · rw [List.append_nil]
    exact hem.app

theorem Embodies.ticks {conn : Connection F} {hbuf : Option Bytes}
    (hem : Embodies synSecret q birth since sent (conn, hbuf) h calls chunks)
    (order : Table.Order Quad (Connection F))
    {now : U64} (hlive : (conn.onTick now).1.state ≠ .closed) :
    Embodies synSecret q birth (since ++ [.timers order now]) (sent ++ (conn.onTick now).2)
      ((conn.onTick now).1, hbuf) h (calls ++ [.onTick now]) (chunks ++ []) := by
  have happ := hem.app
  have hconn : (h.run (.useBbr :: calls)).conn = conn := hem.conn
  rw [← hconn] at hlive ⊢
  have htick := happ.tick hlive
  have hcall : (h.run (.useBbr :: calls)).call (.onTick now) = { h.run (.useBbr :: calls) with
      conn := ((h.run (.useBbr :: calls)).conn.onTick now).1,
      emitted := (h.run (.useBbr :: calls)).emitted ++ ((h.run (.useBbr :: calls)).conn.onTick now).2 } := rfl
  rw [hcall] at htick
  generalize (h.run (.useBbr :: calls)).conn.onTick now = r at hlive hcall htick ⊢
  refine hem.snoc ?_ ?_ rfl ?_ hlive
  · rw [run_cons, run_nil, hcall]
  · rw [run_cons, run_nil, hcall]
  · rw [run_cons, run_nil, hcall, List.append_nil]
    exact htick

theorem Embodies.talks {conn : Connection F} {hbuf : Option Bytes}
    (hem : Embodies synSecret q birth since sent (conn, hbuf) h calls chunks) {hdr : Ip.Ipv4Header} {seg : Segment}
    {d : Draw} (hq : quadOf hdr seg.th = q) (hlive : (converse conn hbuf seg d).conn.state ≠ .closed) :
    Embodies synSecret q birth (since ++ [.segment hdr seg d]) (sent ++ (converse conn hbuf seg d).sent)
      ((converse conn hbuf seg d).conn, (converse conn hbuf seg d).hbuf) h (calls ++ conversation conn hbuf seg d)
      (chunks ++ brought conn seg d) := by
  have happ := hem.app
  have hcv := run_conversation (h.run (.useBbr :: calls)) hbuf seg d
  have hconn : (h.run (.useBbr :: calls)).conn = conn := hem.conn
  rw [← hconn] at hlive ⊢
  refine hem.snoc hcv.conn hcv.emitted ?_ (happ.converse hlive) hlive
  have hat : arrivalAt q (Input.segment (F := F) hdr seg d) = some seg := if_pos hq
  rw [conversation_heard, List.filterMap_cons_some hat]
  rfl

theorem Embodies.step {m : EventLoop F} (hem : Embodies synSecret q birth since sent e h calls chunks)
    (he : (line q m).entry = some e) (he' : (line q (m.step x)).entry = some e') :
    ∃ more, Embodies synSecret q birth (since ++ [x]) (sent ++ sendsFor q m x) e' h (calls ++ more)
      (chunks ++ chunksFor q m x) := by
  have hstep := line_step q m x
  rw [chunksFor]
  generalize line q m = l at hstep he ⊢
  generalize line q (m.step x) = l' at hstep he'
  generalize sendsFor q m x = out at hstep ⊢
  cases hstep with
  | other hx =>
      obtain rfl := Option.some.inj (he.symm.trans he')
      rw [Line.brings_elsewhere _ hx]
      exact ⟨[], hem.elsewhere hx⟩
  | refused => cases he
  | opened => cases he
  | @tick order now conn hbuf =>
      obtain rfl : (conn, hbuf) = e := Option.some.inj he
      split_ifs at he' with hc
      · cases he'
      · obtain rfl : ((conn.onTick now).1, hbuf) = e' := Option.some.inj he'
        exact ⟨_, hem.ticks order hc⟩
  | @talk hdr seg d conn hbuf quad =>
      obtain rfl : (conn, hbuf) = e := Option.some.inj he
      split_ifs at he' with hc
      · cases he'
      · obtain rfl : ((converse conn hbuf seg d).conn, (converse conn hbuf seg d).hbuf) = e' := Option.some.inj he'
        have hbrings : (Line.mk (some conn) hbuf).brings q (.segment hdr seg d) = brought conn seg d := if_pos quad
        rw [hbrings]
        exact ⟨_, hem.talks quad hc⟩

end Survives

/-- Every entry embodies a host, from the segment that made the entry on, with
what the loop has sent for it and what it has handed to its application. -/
theorem entry_embodies (synSecret : U64) (q : Quad) (inputs : List (Input F)) {e : Connection F × Option Bytes}
    (he : (line q ((start synSecret).run inputs)).entry = some e) :
    ∃ early birth since, inputs = early ++ birth :: since ∧
      Since step (fun m => (line q m).entry) (start synSecret) early birth since ∧
      ∃ h calls, Embodies synSecret q birth since
        (outputs step (sendsFor q) ((start synSecret).run early) (birth :: since)) e h calls
        (outputs step (chunksFor q) ((start synSecret).run early) (birth :: since)) := by
  have hstart : Settled synSecret q (start (F := F) synSecret) := ⟨rfl, fun h => by cases h⟩
  refine entry_lives (I := Settled synSecret q)
    (P := fun e early birth since => ∃ h calls, Embodies synSecret q birth since
      (outputs step (sendsFor q) ((start synSecret).run early) (birth :: since)) e h calls
      (outputs step (chunksFor q) ((start synSecret).run early) (birth :: since)))
    (fun m x hm => step_settled m x hm) (fun early x e hm hnone he => ?_) ?_ hstart rfl inputs he
  · simp only [outputs, List.append_nil]
    exact embodied_at_birth hm hnone he
  · rintro e early birth since x e' - he ⟨h, calls, hem⟩ he'
    obtain ⟨more, hem'⟩ := hem.step he he'
    refine ⟨h, calls ++ more, ?_⟩
    rw [run, outputs_since, outputs_since]
    exact hem'

theorem entry_of_lookup {m : EventLoop F} {q : Quad} {conn : Connection F}
    (hconn : m.stack.connections.lookup q = some conn) : (line q m).entry = some (conn, m.httpBufs.lookup q) := by
  rw [line, Line.entry, hconn, Option.map_some]

/-- The event loop refines hosts. In every run each connection of the table is
that of a host which the segment that made the entry opened, and which has heard
exactly the segments for its 4-tuple since; and what the loop has sent for the
4-tuple since then, packet for packet, is what the host has sent. -/
theorem entries_are_hosts (synSecret : U64) (inputs : List (Input F)) (q : Quad) {conn : Connection F}
    (hconn : ((start synSecret).run inputs).stack.connections.lookup q = some conn) :
    ∃ early birth since, inputs = early ++ birth :: since ∧
      Since step (fun m => (line q m).entry) (start synSecret) early birth since ∧
      ∃ (h : Host F) (calls : List Call), OpenedBy synSecret q birth h ∧ Fresh h ∧ (h.run calls).conn = conn ∧
        (h.run calls).emitted = outputs step (sendsFor q) ((start synSecret).run early) (birth :: since) ∧
        calls.filterMap Trace.input = since.filterMap (arrivalAt q) := by
  obtain ⟨early, birth, since, hsplit, hsince, h, calls, hem⟩ := entry_embodies synSecret q inputs
    (entry_of_lookup hconn)
  refine ⟨early, birth, since, hsplit, hsince, h, .useBbr :: calls, hem.opened, hem.opened.fresh, hem.conn,
    hem.emitted, ?_⟩
  rw [List.filterMap_cons_none rfl, hem.heard]

/-- A client's handshake, a request and the start of another. -/
def visit : List (Input Rat) :=
  [.segment strayHeader (synFrom 4000#16) ⟨1#64, 700#32, 0#32⟩,
    .segment strayHeader ⟨⟨4000#16, 80#16, 6#32, 701#32, 20, ACK, 1024#16⟩, [], {}⟩ ⟨2#64, 0#32, 0#32⟩,
    .segment strayHeader ⟨⟨4000#16, 80#16, 6#32, 701#32, 20, PSH ||| ACK, 1024#16⟩, getRoot ++ getRoot.take 5, {}⟩
      ⟨3#64, 0#32, 0#32⟩]

def visitor : Quad := quadOf strayHeader (synFrom 4000#16).th

theorem visitor_is_a_host : ∃ conn, ((start 7#64).run visit).stack.connections.lookup visitor = some conn ∧
    ∃ early birth since, visit = early ++ birth :: since ∧ ∃ (h : Host Rat) (calls : List Call),
      OpenedBy 7#64 visitor birth h ∧ (h.run calls).conn = conn ∧
        calls.filterMap Trace.input = since.filterMap (arrivalAt visitor) := by
  have hsome : (((start 7#64).run visit).stack.connections.lookup visitor).isSome = true := by decide +kernel
  obtain ⟨conn, hconn⟩ := Option.isSome_iff_exists.mp hsome
  obtain ⟨early, birth, since, hsplit, -, h, calls, hopen, -, hc, -, hheard⟩ :=
    entries_are_hosts 7#64 visit visitor hconn
  exact ⟨conn, hconn, early, birth, since, hsplit, h, calls, hopen, hc, hheard⟩

/-- What the server says is the answer to what it took. The application of each
connection has taken all that its host has delivered, in the chunks that the
segments of the run have brought since the entry was made. It has echoed the
bytes before the first chunk that looks like a request and has written the
responses to the successive heads from there on; a head that closes ends the
answer, and nothing that is written later leaves. -/
theorem server_answers_what_it_took (synSecret : U64) (inputs : List (Input F)) (q : Quad) {conn : Connection F}
    (hconn : ((start synSecret).run inputs).stack.connections.lookup q = some conn) :
    ∃ early birth since, inputs = early ++ birth :: since ∧
      Since step (fun m => (line q m).entry) (start synSecret) early birth since ∧
      let chunks := outputs step (chunksFor q) ((start synSecret).run early) (birth :: since)
      ∃ (h : Host F) (calls : List Call),
        Embodies synSecret q birth since (outputs step (sendsFor q) ((start synSecret).run early) (birth :: since))
          (conn, ((start synSecret).run inputs).httpBufs.lookup q) h calls chunks ∧
        let k := h.run (.useBbr :: calls)
        let said := Http.answer none chunks
        k.delivered = chunks.flatten ∧
          said.written = k.delivered.take (httpFrom chunks) ++
          ((said.heads.filterMap parseRequest).map response).flatten ∧
          Successive (k.delivered.drop (httpFrom chunks)) said.heads said.closing ∧
          (said.closing = false → k.written = said.written) ∧
          (said.closing = true → said.written <+: k.written ∧ ¬ conn.state.PreFin ∧
            ∃ r, k.closing = some r ∧ r.written = said.written) := by
  obtain ⟨early, birth, since, hsplit, hsince, h, calls, hem⟩ := entry_embodies synSecret q inputs
    (entry_of_lookup hconn)
  refine ⟨early, birth, since, hsplit, hsince, ?_⟩
  generalize outputs step (chunksFor q) ((start synSecret).run early) (birth :: since) = chunks at hem
  refine ⟨h, calls, hem, ?_⟩
  intro k said
  have happ : Attended k _ chunks := hem.app
  have hwritten : k.written = (attend none chunks).2 := (congrArg Prod.snd happ.attended).symm
  have hshape := answer_shape happ.nonempty
  rw [← happ.delivered] at hshape
  refine ⟨happ.delivered, hshape.1, hshape.2, fun hopen => hwritten.trans (attend_open hopen),
    fun hclosing => ⟨?_, ?_⟩⟩
  · rw [hwritten]
    exact answer_prefix_attend none chunks
  · have hc : k.conn = conn := hem.conn
    rw [← hc]
    exact happ.closed hclosing

theorem visitor_enters_at_once {early since : List (Input Rat)} {birth : Input Rat}
    (hsplit : visit = early ++ birth :: since)
    (hsince : Since step (fun m => (line visitor m).entry) (start 7#64) early birth since) : early = [] := by
  have hstays : ∀ n < 3, 0 < n → (line visitor ((start 7#64).run (visit.take n))).entry.isSome = true := by
    decide +kernel
  have htake : visit.take early.length = early := by rw [hsplit, List.take_left]
  have hlen : early.length < 3 := by
    have := congrArg List.length hsplit
    rw [List.length_append, List.length_cons, show visit.length = 3 from rfl] at this
    omega
  by_contra hne
  have hsome := hstays early.length hlen (List.length_pos_iff.mpr hne)
  rw [htake, run, hsince.absent] at hsome
  cases hsome

/-- The visitor's segment is one chunk. The request in it was answered, and the
start of the next one waits. -/
theorem visitor_is_answered : outputs step (chunksFor visitor) (start 7#64) visit = [getRoot ++ getRoot.take 5] ∧
    ∃ conn, ((start 7#64).run visit).stack.connections.lookup visitor = some conn ∧
      ((start 7#64).run visit).httpBufs.lookup visitor = some (getRoot.take 5) ∧
      ∃ k : Host Rat, k.conn = conn ∧ k.delivered = getRoot ++ getRoot.take 5 ∧
        k.emitted = outputs step (sendsFor visitor) (start 7#64) visit ∧
        k.written = response ⟨"GET".toList, "/".toList, .http11, true⟩ := by
  have hchunks : outputs step (chunksFor visitor)
      (start 7#64) visit = [getRoot ++ getRoot.take 5] := by decide +kernel
  have hsome : (((start 7#64).run visit).stack.connections.lookup visitor).isSome = true := by decide +kernel
  obtain ⟨hstill, hanswer⟩ : (Http.answer none [getRoot ++ getRoot.take 5]).closing = false ∧
      (Http.answer none [getRoot ++ getRoot.take 5]).written =
      response ⟨"GET".toList, "/".toList, .http11, true⟩ := by
    decide +kernel
  obtain ⟨conn, hconn⟩ := Option.isSome_iff_exists.mp hsome
  obtain ⟨early, birth, since, hsplit, hsince, h, calls, hem, hdelivered, -, -, hopen, -⟩ :=
    server_answers_what_it_took 7#64 visit visitor hconn
  obtain rfl := visitor_enters_at_once hsplit hsince
  rw [List.nil_append] at hsplit
  rw [← hsplit, show (start 7#64).run [] = start 7#64 from rfl] at hem hdelivered hopen
  rw [hchunks] at hdelivered hopen
  refine ⟨hchunks, conn, hconn, by decide +kernel, h.run (.useBbr :: calls), hem.conn, ?_, hem.emitted, ?_⟩
  · rw [hdelivered, List.flatten_singleton]
  · rw [hopen hstill, hanswer]

/-- What the loop keeps is live. In every run a buffer lies beside a connection;
no connection of the table is in CLOSED or has bytes that were not taken. The
buffer holds no complete request and is the tail of what the host of the entry
has delivered, which is what the segments for it have brought. -/
theorem table_holds_live_connections (synSecret : U64) (inputs : List (Input F)) (q : Quad) :
    let m := (start synSecret).run inputs
    ((m.httpBufs.lookup q).isSome = true → (m.stack.connections.lookup q).isSome = true) ∧
      ∀ conn ∈ m.stack.connections.lookup q, conn.state ≠ .closed ∧ conn.recvBuf = [] ∧
        ∃ early birth since, inputs = early ++ birth :: since ∧
          Since step (fun m => (line q m).entry) (start synSecret) early birth since ∧
          let chunks := outputs step (chunksFor q) ((start synSecret).run early) (birth :: since)
          ∃ (h : Host F) (calls : List Call), Fresh h ∧
            Embodies synSecret q birth since (outputs step (sendsFor q)
            ((start synSecret).run early) (birth :: since))
              (conn, m.httpBufs.lookup q) h calls chunks ∧
            (h.run (.useBbr :: calls)).delivered = chunks.flatten ∧
            ∀ hbuf ∈ m.httpBufs.lookup q, hbuf <:+ chunks.flatten ∧ requestHeadLen hbuf = none := by
  intro m
  have hsettled : Settled synSecret q m := by
    refine run_preserves (I := Settled synSecret q) (fun m x hm => step_settled m x hm) ⟨rfl, fun h => ?_⟩ inputs
    cases h
  refine ⟨hsettled.buffered, fun conn hconn => ?_⟩
  obtain ⟨early, birth, since, hsplit, hsince, h, calls, hem⟩ := entry_embodies synSecret q inputs
    (entry_of_lookup hconn)
  have hc : (h.run (.useBbr :: calls)).conn = conn := hem.conn
  refine ⟨hem.live, hc ▸ hem.app.drained, early, birth, since, hsplit, hsince, h, calls, hem.opened.fresh, hem,
    hem.app.delivered, fun hbuf hmem => ?_⟩
  have hpending := attend_pending hem.app.nonempty
  rw [hem.app.attended] at hpending
  exact hpending hbuf hmem

end EventLoop
end TcpStack.Main
