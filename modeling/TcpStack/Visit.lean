import TcpStack.EndToEnd
import TcpStack.Incarnation
import TcpStack.Outgoing

/-!
# A client and the server

An active opener, the event loop it calls, and a network between them that
loses, duplicates, delays and reorders. The loop serves any number of other
clients meanwhile, whose segments are arbitrary. As long as the loop keeps the
client's connection, the two ends are the two endpoints of the system, and what
the client reads is the answer to what it wrote.
-/
namespace TcpStack.Main
open Tcp Host Connection Http

variable {F : Type} [F64 F]

namespace EventLoop

variable {synSecret : U64} {q : Quad} {x : Input F} {l l' : Line F} {sent : List Bytes}

theorem LineStep.absent (h : LineStep synSecret q x l l' sent) (hx : arrivalAt q x = none) (hl : l.conn = none) :
    l' = l ∧ sent = [] := by
  cases h with
  | other => exact ⟨rfl, rfl⟩
  | tick => cases hl
  | talk hq => cases (if_pos hq).symm.trans hx
  | refused hq => cases (if_pos hq).symm.trans hx
  | opened made =>
      obtain ⟨hdr, seg, d, rfl, hq⟩ := made.arrives
      cases (if_pos hq).symm.trans hx

theorem LineStep.present {conn : Connection F} {hbuf : Option Bytes}
    (h : LineStep synSecret q x ⟨some conn, hbuf⟩ l' sent) (hx : arrivalAt q x = none)
    (hkept : l'.conn.isSome = true) :
    (l' = ⟨some conn, hbuf⟩ ∧ sent = []) ∨ ∃ order now, x = .timers order now ∧
      (conn.onTick now).1.state ≠ .closed ∧ l' = ⟨some (conn.onTick now).1, hbuf⟩ ∧ sent = (conn.onTick now).2 := by
  cases h with
  | other => exact .inl ⟨rfl, rfl⟩
  | @tick order now =>
      split_ifs at hkept ⊢ with hdead
      · cases hkept
      · exact .inr ⟨order, now, rfl, hdead, rfl, rfl⟩
  | talk hq => cases (if_pos hq).symm.trans hx

/-- A segment for the 4-tuple that leaves a connection there talks to the one
that is there, or opens one. -/
theorem LineStep.arrived {hdr : Ip.Ipv4Header} {seg : Segment} {d : Draw}
    (h : LineStep synSecret q (.segment hdr seg d) l l' sent) (hq : quadOf hdr seg.th = q)
    (hkept : l'.conn.isSome = true) :
    (∃ conn hbuf, l = ⟨some conn, hbuf⟩ ∧ (converse conn hbuf seg d).conn.state ≠ .closed ∧
      l' = ⟨some (converse conn hbuf seg d).conn, (converse conn hbuf seg d).hbuf⟩ ∧
      sent = (converse conn hbuf seg d).sent) ∨
    ∃ h : Host F, OpenedBy synSecret q (.segment hdr seg d) h ∧ l.conn = none ∧
      l' = ⟨some (h.call .useBbr).conn, l.hbuf⟩ ∧ sent = h.emitted := by
  cases h with
  | other hx => cases (if_pos hq).symm.trans hx
  | @talk _ _ _ conn hbuf =>
      split_ifs at hkept ⊢ with hdead
      · cases hkept
      · exact .inl ⟨conn, hbuf, rfl, hdead, rfl, rfl⟩
  | refused => cases hkept
  | opened made => exact .inr ⟨_, made, rfl, rfl, rfl⟩

end EventLoop

/-- The client behind a 4-tuple, the event loop, what the loop has sent for the
4-tuple, the chunks its application has taken there and what it has written. -/
structure Visit (F : Type) [F64 F] where
  client : Host F
  server : EventLoop F
  sent : List Bytes := []
  took : List Bytes := []
  said : Bytes := []

namespace Visit

inductive Event (F : Type) [F64 F] where
  /-- A local call of the client. -/
  | client (x : Call)
  /-- The `i`-th packet that was sent for the client arrives there. -/
  | toClient (i : Nat) (now : U64) (rnd : U32)
  /-- The `i`-th packet of the client arrives at the loop. -/
  | toServer (i : Nat) (d : Draw)
  /-- The timers of the loop. -/
  | timers (order : Table.Order Quad (Connection F)) (now : U64)
  /-- A segment of anybody for another 4-tuple. -/
  | others (hdr : Ip.Ipv4Header) (seg : Segment) (d : Draw)

/-- The client has just sent its SYN, and the loop has met nothing. -/
def init (synSecret : U64) (q : Quad) (iss : U32) (now : U64) (rnd : U32) : Visit F :=
  { client := Host.connect q.remoteEnd q.localEnd iss now rnd, server := EventLoop.start synSecret }

/-- What the application of the loop writes to a connection on an input. -/
def saying (q : Quad) (l : EventLoop.Line F) : Input F → Bytes
  | .timers .. => []
  | .segment hdr seg d =>
      match l.conn with
      | some conn => if quadOf hdr seg.th = q then (onReceived l.hbuf (chunkOf conn seg d)).writes.flatten else []
      | none => []

def heard (q : Quad) (v : Visit F) : Event F → Option (Input F)
  | .toServer i d => (v.client.emitted[i]?.bind arriving).map fun r => .segment r.1 r.2 d
  | .timers order now => some (.timers order now)
  | .others hdr seg d => if quadOf hdr seg.th = q then none else some (.segment hdr seg d)
  | _ => none

def hear (q : Quad) (v : Visit F) (x : Input F) : Visit F :=
  { v with server := v.server.step x, sent := v.sent ++ v.server.sendsFor q x,
           took := v.took ++ v.server.chunksFor q x, said := v.said ++ saying q (v.server.line q) x }

def step (q : Quad) (v : Visit F) (e : Event F) : Visit F :=
  match e with
  | .client x => if x.isLocal then { v with client := v.client.call x } else v
  | .toClient i now rnd =>
      match System.packet v.sent i with
      | some seg => { v with client := v.client.call (.onSegment seg now rnd) }
      | none => v
  | e => ((v.heard q e).map (v.hear q)).getD v

def run (q : Quad) (v : Visit F) (events : List (Event F)) : Visit F := events.foldl (step q) v

/-- The loop lets the client in and does not drop it: after an input that is for
the client, or that finds the client's connection, the connection is there. -/
def Hosted (q : Quad) (v : Visit F) (e : Event F) : Prop :=
  ∀ x ∈ v.heard q e, ((v.server.line q).conn.isSome = true ∨ (EventLoop.arrivalAt q x).isSome = true) →
    ((v.server.step x).line q).conn.isSome = true

instance (q : Quad) (v : Visit F) (e : Event F) : Decidable (Hosted q v e) :=
  inferInstanceAs (Decidable (∀ x ∈ v.heard q e, _))

/-- Every event of a run is one that the client's connection survives. -/
def HostedThroughout (q : Quad) : Visit F → List (Event F) → Prop
  | _, [] => True
  | v, e :: events => Hosted q v e ∧ HostedThroughout q (v.step q e) events

instance decidableHostedThroughout (q : Quad) : (v : Visit F) → (events : List (Event F)) →
    Decidable (HostedThroughout q v events)
  | _, [] => .isTrue trivial
  | v, e :: events =>
      have := decidableHostedThroughout q (v.step q e) events
      inferInstanceAs (Decidable (_ ∧ _))

/-- The server's end: nothing yet, or the host behind the entry. -/
inductive Serving (q : Quad) (v : Visit F) (s : System F) : Prop where
  | waiting {t : Trace} (free : (v.server.line q).conn = none) (alone : s.b = none) (silent : v.sent = [])
      (idle : v.took = []) (unsaid : v.said = []) (follows : Follows v.client t) (stream : Trace.Stream t)
      (virgin : Trace.Virgin t)
  | hosting {b : Host F} {hbuf : Option Bytes} (entry : v.server.line q = ⟨some b.conn, hbuf⟩) (joined : s.b = some b)
      (sent : b.emitted = v.sent) (said : b.written = v.said) (attended : Attended b hbuf v.took)

/-- The visit as the system of its two ends. -/
structure Mirrored (synSecret : U64) (q : Quad) (v : Visit F) (s : System F) : Prop where
  active : s.a = v.client
  opened : ∃ h calls, Fresh h ∧ h.conn.localEnd = q.remoteEnd ∧ h.conn.remoteEnd = q.localEnd ∧
    v.client = h.run calls
  settled : EventLoop.Settled synSecret q v.server
  serving : Serving q v s

theorem conversation_cons (conn : Connection F) (hbuf : Option Bytes) (seg : Segment) (d : Draw) :
    ∃ tail, conversation conn hbuf seg d = .onSegment seg d.now d.rnd :: tail ∧ ∀ x ∈ tail, x.isLocal = true := by
  have hclose : ∀ (p : Prop) [Decidable p], ∀ x ∈ (if p then [Call.close d.now] else []), x.isLocal = true := by
    intro p _ x hx
    split_ifs at hx
    · rw [List.mem_singleton.mp hx]
      rfl
    · exact absurd hx List.not_mem_nil
  refine ⟨(conversation conn hbuf seg d).tail, rfl, fun x hx => ?_⟩
  simp only [conversation, List.append_assoc, List.cons_append, List.nil_append, List.tail_cons, List.mem_cons,
    List.mem_append, List.mem_map] at hx
  rcases hx with rfl | ⟨data, -, rfl⟩ | rfl | hx | hx
  · rfl
  · rfl
  · rfl
  · exact hclose _ x hx
  · exact hclose _ x hx

variable {synSecret : U64} {q : Quad} {v : Visit F} {s : System F}

theorem Mirrored.client_packet (h : Mirrored synSecret q v s) {i : Nat} {hdr : Ip.Ipv4Header} {seg : Segment}
    (harr : v.client.emitted[i]?.bind arriving = some (hdr, seg)) :
    ∃ p, v.client.emitted[i]? = some p ∧ decode p = some seg ∧ Ip.parse p = .ok (.ok hdr) ∧
      quadOf hdr seg.th = q := by
  obtain ⟨p, hp, harr⟩ := Option.bind_eq_some_iff.mp harr
  obtain ⟨h₀, calls, hfresh, hlocal, hremote, hrun⟩ := h.opened
  have hposted := (run_posted hfresh calls).emitted p (hrun ▸ List.mem_of_getElem? hp)
  obtain ⟨hdr', seg', harr', hd, hip, hquad⟩ := hposted.arrives
  obtain ⟨rfl, rfl⟩ := Prod.mk.inj (Option.some.inj (harr.symm.trans harr'))
  exact ⟨p, hp, hd, hip, by rw [hquad, hlocal, hremote]⟩

theorem saying_elsewhere {q : Quad} {x : Input F} (hx : EventLoop.arrivalAt q x = none) (l : EventLoop.Line F) :
    saying q l x = [] := by
  cases x with
  | timers => rfl
  | segment hdr seg d =>
      have hne : quadOf hdr seg.th ≠ q := fun heq => Option.some_ne_none seg ((if_pos heq).symm.trans hx)
      simp only [saying, if_neg hne]
      split <;> rfl

theorem Mirrored.elsewhere (h : Mirrored synSecret q v s) {x : Input F} (hx : EventLoop.arrivalAt q x = none)
    (hkept : (v.server.line q).conn.isSome = true → ((v.server.step x).line q).conn.isSome = true) :
    ∃ events, Mirrored synSecret q (v.hear q x) (s.run events) := by
  have hsettled := EventLoop.step_settled v.server x h.settled
  have hstep := EventLoop.line_step q v.server x
  have hhear : v.hear q x = { v with server := v.server.step x, sent := v.sent ++ v.server.sendsFor q x } := by
    rw [hear, saying_elsewhere hx, EventLoop.chunksFor, EventLoop.Line.brings_elsewhere _ hx, List.append_nil,
      List.append_nil]
  rw [hhear]
  obtain ⟨hactive, hopened, -, hserving⟩ := h
  cases hserving with
  | waiting free alone silent idle unsaid follows stream virgin =>
      obtain ⟨hline, hsent⟩ := hstep.absent hx free
      rw [hsent, List.append_nil]
      exact ⟨[], hactive, hopened, hsettled, .waiting (hline ▸ free) alone silent idle unsaid follows stream virgin⟩
  | @hosting b hbuf entry joined sent said attended =>
      have hsome := hkept (by rw [entry]; rfl)
      rw [entry] at hstep
      rcases hstep.present hx hsome with ⟨hline, hsent⟩ | ⟨order, now, rfl, hlive, hline, hsent⟩
      · rw [hsent, List.append_nil]
        exact ⟨[], hactive, hopened, hsettled, .hosting hline joined sent said attended⟩
      · refine ⟨[.callB (.onTick now)], ?_⟩
        have hrun : s.run [.callB (.onTick now)] = { s with b := some (b.call (.onTick now)) } := by
          simp only [System.run, List.foldl_cons, List.foldl_nil, System.step, joined, Call.isLocal, if_true]
        have happ := attended.tick hlive
        have hcall : b.call (.onTick now) =
            { b with conn := (b.conn.onTick now).1, emitted := b.emitted ++ (b.conn.onTick now).2 } := rfl
        rw [hrun, hsent, ← sent]
        rw [hcall] at happ ⊢
        generalize b.conn.onTick now = r at hline happ
        exact ⟨hactive, hopened, hsettled, .hosting hline rfl rfl said happ⟩

/-- Before it has an answer the client's packets carry no ACK: what opens its
connection is its SYN, and no cookie. -/
theorem opened_by_syn {hdr : Ip.Ipv4Header} {seg : Segment} {d : Draw} {k : Host F} {t : Trace} {p : Bytes}
    (made : OpenedBy synSecret q (.segment hdr seg d) k) (virgin : Trace.Virgin t) (follows : Follows v.client t)
    (hp : p ∈ v.client.emitted) (hd : decode p = some seg) :
    accept hdr.src hdr.dst seg d.iss d.now d.rnd = some k := by
  cases made with
  | syn _ _ haccept => exact haccept
  | cookie _ hbare =>
      have hquiet : hasFlag seg.th.flags ACK = false := virgin.quiet p (follows.emitted ▸ hp) seg hd
      simp only [isBareAck, Bool.and_eq_true, hquiet] at hbare
      cases hbare.1

theorem Mirrored.enters (h : Mirrored synSecret q v s) {i : Nat} {p : Bytes} {hdr : Ip.Ipv4Header} {seg : Segment}
    {d : Draw} {k : Host F} (hp : v.client.emitted[i]? = some p) (hd : decode p = some seg)
    (hip : Ip.parse p = .ok (.ok hdr)) (made : OpenedBy synSecret q (.segment hdr seg d) k)
    (hfree : (v.server.line q).conn = none)
    (hline : (v.server.step (.segment hdr seg d)).line q = ⟨some (k.call .useBbr).conn, (v.server.line q).hbuf⟩)
    (hsent : v.server.sendsFor q (.segment hdr seg d) = k.emitted) :
    ∃ events, Mirrored synSecret q (v.hear q (.segment hdr seg d)) (s.run events) := by
  have hsettled := EventLoop.step_settled v.server (.segment hdr seg d) h.settled
  have hunbuffered : (v.server.line q).hbuf = none := by
    refine Option.not_isSome_iff_eq_none.mp fun hsome => ?_
    have := h.settled.buffered hsome
    rw [hfree] at this
    cases this
  obtain ⟨hactive, hopened, -, hserving⟩ := h
  cases hserving with
  | hosting entry =>
      rw [entry] at hfree
      cases hfree
  | @waiting t free alone silent idle unsaid follows stream virgin =>
      have hsaying : saying q (v.server.line q) (.segment hdr seg d) = [] := by simp only [saying, free]
      have hchunks : v.server.chunksFor q (.segment hdr seg d) = [] := by
        simp only [EventLoop.chunksFor, EventLoop.Line.brings, free]
      have hhear : v.hear q (.segment hdr seg d) =
          { v with server := v.server.step (.segment hdr seg d), sent := k.emitted } := by
        rw [hear, hsaying, hchunks, List.append_nil, List.append_nil, silent, List.nil_append, hsent]
      have haccept := opened_by_syn made virgin follows (List.mem_of_getElem? hp) hd
      refine ⟨[.accept i d.iss d.now d.rnd, .callB .useBbr], ?_⟩
      have hrun : s.run [.accept i d.iss d.now d.rnd, .callB .useBbr] = { s with b := some (k.call .useBbr) } := by
        simp only [System.run, List.foldl_cons, List.foldl_nil, System.step, alone, hactive, hp, System.listen,
          hip, hd, haccept, Call.isLocal, if_true]
      obtain ⟨-, -, -, hwritten⟩ := made.untouched
      have happ := made.attended
      rw [hunbuffered] at hline
      rw [← idle] at happ
      rw [hhear, hrun]
      exact ⟨hactive, hopened, hsettled, .hosting hline rfl rfl (hwritten.trans unsaid.symm) happ⟩

theorem Mirrored.meets (h : Mirrored synSecret q v s) {i : Nat} {p : Bytes} {hdr : Ip.Ipv4Header} {seg : Segment}
    {d : Draw} {conn : Connection F} {hbuf : Option Bytes} (hp : v.client.emitted[i]? = some p)
    (hd : decode p = some seg) (hq : quadOf hdr seg.th = q) (hfound : v.server.line q = ⟨some conn, hbuf⟩)
    (hlive : (converse conn hbuf seg d).conn.state ≠ .closed)
    (hline : (v.server.step (.segment hdr seg d)).line q =
      ⟨some (converse conn hbuf seg d).conn, (converse conn hbuf seg d).hbuf⟩)
    (hsent : v.server.sendsFor q (.segment hdr seg d) = (converse conn hbuf seg d).sent) :
    ∃ events, Mirrored synSecret q (v.hear q (.segment hdr seg d)) (s.run events) := by
  have hsettled := EventLoop.step_settled v.server (.segment hdr seg d) h.settled
  obtain ⟨hactive, hopened, -, hserving⟩ := h
  cases hserving with
  | waiting free =>
      rw [hfound] at free
      cases free
  | @hosting b hbuf' entry joined sent said attended =>
      obtain ⟨rfl, rfl⟩ : b.conn = conn ∧ hbuf' = hbuf := by
        rw [entry] at hfound
        cases hfound
        exact ⟨rfl, rfl⟩
      obtain ⟨tail, htail, hlocal⟩ := conversation_cons b.conn hbuf' seg d
      have hcv := run_conversation b hbuf' seg d
      have happ := attended.converse hlive
      refine ⟨.deliverToB i d.now d.rnd :: tail.map .callB, ?_⟩
      have hpacket : System.packet s.a.emitted i = some seg := by
        rw [hactive, System.packet, hp, Option.bind_some, hd]
      have hrun : s.run (.deliverToB i d.now d.rnd :: tail.map .callB) =
          { s with b := some (b.run (conversation b.conn hbuf' seg d)) } := by
        have hfirst : s.step (.deliverToB i d.now d.rnd) =
            { s with b := some (b.call (.onSegment seg d.now d.rnd)) } := by
          simp only [System.step, joined, hpacket]
        change (s.step (.deliverToB i d.now d.rnd)).run (tail.map .callB) = _
        rw [hfirst, System.run_localB rfl hlocal, htail]
        rfl
      have hsaying : saying q (v.server.line q) (.segment hdr seg d) =
          (onReceived hbuf' (chunkOf b.conn seg d)).writes.flatten := by simp only [saying, entry, if_pos hq]
      have hchunks : v.server.chunksFor q (.segment hdr seg d) = brought b.conn seg d := by
        simp only [EventLoop.chunksFor, EventLoop.Line.brings, entry, if_pos hq]
      rw [hrun, hear, hsaying, hchunks]
      refine ⟨hactive, hopened, hsettled, .hosting (hline.trans ?_) rfl ?_ ?_ happ⟩
      · rw [hcv.conn]
      · rw [hcv.emitted, sent, hsent]
      · rw [hcv.written, said]

theorem Mirrored.delivered (h : Mirrored synSecret q v s) {i : Nat} {hdr : Ip.Ipv4Header} {seg : Segment} (d : Draw)
    (harr : v.client.emitted[i]?.bind arriving = some (hdr, seg))
    (hkept : ((v.server.step (.segment hdr seg d)).line q).conn.isSome = true) :
    ∃ events, Mirrored synSecret q (v.hear q (.segment hdr seg d)) (s.run events) := by
  obtain ⟨p, hp, hd, hip, hq⟩ := h.client_packet harr
  have hheard := (EventLoop.line_step q v.server (.segment hdr seg d)).arrived hq hkept
  rw [h.settled.secret] at hheard
  rcases hheard with ⟨conn, hbuf, hfound, hlive, hline, hsent⟩ | ⟨k, made, hfree, hline, hsent⟩
  · exact h.meets hp hd hq hfound hlive hline hsent
  · exact h.enters hp hd hip made hfree hline hsent

theorem Mirrored.called (h : Mirrored synSecret q v s) {x : Call} (hx : x.isLocal = true) :
    Mirrored synSecret q { v with client := v.client.call x } (s.run [.callA x]) := by
  obtain ⟨hactive, ⟨k, calls, hfresh, hl, hr, hrun⟩, hsettled, hserving⟩ := h
  have hstep : s.run [.callA x] = { s with a := s.a.call x } := by
    simp only [System.run, List.foldl_cons, List.foldl_nil, System.step, hx, if_true]
  rw [hstep]
  refine ⟨congrArg (Host.call · x) hactive, ⟨k, calls ++ [x], hfresh, hl, hr, ?_⟩, hsettled, ?_⟩
  · rw [run_append, ← hrun]
    rfl
  · cases hserving with
    | hosting entry joined sent said attended => exact .hosting entry joined sent said attended
    | waiting free alone silent idle unsaid follows stream virgin =>
        obtain ⟨t', hsteps, hfollows⟩ := call_refines follows x
        rw [Trace.input_local hx] at hsteps
        have hkept : Trace.Stream t' ∧ Trace.Virgin t' := by
          refine hsteps.preserves (P := fun t => Trace.Stream t ∧ Trace.Virgin t) ?_
            ⟨stream.appCall x, virgin.appCall x⟩
          rintro a a' hone ⟨hst, hvirgin⟩
          refine ⟨hone.stream hst, (hvirgin.step hst (fun _ hi => by cases hi) hone).resolve_right ?_⟩
          rintro ⟨seg, hi, -⟩
          cases hi
        exact .waiting free alone silent idle unsaid hfollows hkept.1 hkept.2

theorem Mirrored.answered (h : Mirrored synSecret q v s) {i : Nat} {seg : Segment} {now : U64} {rnd : U32}
    (hp : System.packet v.sent i = some seg) :
    Mirrored synSecret q { v with client := v.client.call (.onSegment seg now rnd) }
      (s.run [.deliverToA i now rnd]) := by
  obtain ⟨hactive, ⟨k, calls, hfresh, hl, hr, hrun⟩, hsettled, hserving⟩ := h
  cases hserving with
  | waiting free alone silent =>
      rw [silent] at hp
      cases hp
  | @hosting b hbuf entry joined sent said attended =>
      have hstep : s.run [.deliverToA i now rnd] = { s with a := s.a.call (.onSegment seg now rnd) } := by
        simp only [System.run, List.foldl_cons, List.foldl_nil, System.step, joined, sent, hp]
      rw [hstep]
      refine ⟨congrArg (Host.call · (.onSegment seg now rnd)) hactive,
        ⟨k, calls ++ [.onSegment seg now rnd], hfresh, hl, hr, ?_⟩, hsettled,
        .hosting entry joined sent said attended⟩
      rw [run_append, ← hrun]
      rfl

theorem Mirrored.step (h : Mirrored synSecret q v s) {e : Event F} (hosted : Hosted q v e) :
    ∃ events, Mirrored synSecret q (v.step q e) (s.run events) := by
  cases e with
  | client x =>
      unfold Visit.step
      dsimp only
      split_ifs with hx
      · exact ⟨_, h.called hx⟩
      · exact ⟨[], h⟩
  | toClient i now rnd =>
      unfold Visit.step
      dsimp only
      cases hp : System.packet v.sent i with
      | none => exact ⟨[], h⟩
      | some seg => exact ⟨_, h.answered hp⟩
  | toServer i d =>
      change ∃ events, Mirrored synSecret q
        (((v.client.emitted[i]?.bind arriving).map fun r => Input.segment r.1 r.2 d).map (v.hear q) |>.getD v) _
      cases harr : v.client.emitted[i]?.bind arriving with
      | none => exact ⟨[], h⟩
      | some r =>
          obtain ⟨hdr, seg⟩ := r
          obtain ⟨p, -, -, -, hq⟩ := h.client_packet harr
          refine h.delivered d harr (hosted _ ?_ (.inr ?_))
          · rw [heard, harr]
            rfl
          · rw [EventLoop.arrivalAt, if_pos hq]
            rfl
  | timers order now => exact h.elsewhere rfl fun hsome => hosted _ rfl (.inl hsome)
  | others hdr seg d =>
      change ∃ events, Mirrored synSecret q
        ((if quadOf hdr seg.th = q then none else some (Input.segment hdr seg d)).map (v.hear q) |>.getD v) _
      split_ifs with hq
      · exact ⟨[], h⟩
      · exact h.elsewhere (if_neg hq) fun hsome => hosted _ (by rw [heard, if_neg hq]; rfl) (.inl hsome)

theorem Mirrored.run (h : Mirrored synSecret q v s) {events : List (Event F)} (hosted : HostedThroughout q v events) :
    ∃ es, Mirrored synSecret q (v.run q events) (s.run es) := by
  induction events generalizing v s with
  | nil => exact ⟨[], h⟩
  | cons e events ih =>
      obtain ⟨first, hfirst⟩ := h.step hosted.1
      obtain ⟨rest, hrest⟩ := ih hfirst hosted.2
      exact ⟨first ++ rest, by rwa [System.run_append]⟩

theorem init_mirrored (synSecret : U64) (q : Quad) (iss : U32) (now : U64) (rnd : U32) :
    Mirrored synSecret q (init (F := F) synSecret q iss now rnd)
    (System.init q.remoteEnd q.localEnd iss now rnd) := by
  have hfresh : Fresh (Host.connect (F := F) q.remoteEnd q.localEnd iss now rnd) := .connect ..
  refine ⟨rfl, ⟨_, [], hfresh, rfl, rfl, rfl⟩, ⟨rfl, fun hsome => ?_⟩, ?_⟩
  · cases hsome
  · exact .waiting rfl rfl rfl rfl rfl hfresh.follows hfresh.stream (System.init_virgin ..).2

/-- A visit is a run of the system of two endpoints. As long as the loop keeps
the client's connection, whoever else it serves, the client and the connection
are the two ends of a run of the system, with the packets of both. -/
theorem visits_are_system_runs (synSecret : U64) (q : Quad) (iss : U32) (now : U64) (rnd : U32)
    (events : List (Event F)) (hosted : HostedThroughout q (init synSecret q iss now rnd) events) :
    let v := (init (F := F) synSecret q iss now rnd).run q events
    ∃ es, let s := (System.init (F := F) q.remoteEnd q.localEnd iss now rnd).run es
      s.a = v.client ∧
      match v.server.stack.connections.lookup q with
      | none => s.b = none ∧ v.sent = []
      | some conn => ∃ b, s.b = some b ∧ b.conn = conn ∧ b.emitted = v.sent ∧ b.written = v.said := by
  intro v
  obtain ⟨es, hmirrored⟩ := (init_mirrored synSecret q iss now rnd).run hosted
  refine ⟨es, hmirrored.active, ?_⟩
  have hserving := hmirrored.serving
  cases hserving with
  | waiting free alone silent =>
      rw [show v.server.stack.connections.lookup q = none from free]
      exact ⟨alone, silent⟩
  | @hosting b hbuf entry joined sent said =>
      rw [show v.server.stack.connections.lookup q = some b.conn from congrArg EventLoop.Line.conn entry]
      exact ⟨b, joined, rfl, sent, said⟩

/-- A client that asks for the root, while another one connects. -/
def errands : List (Event Rat) :=
  [.toServer 0 ⟨1#64, 700#32, 0#32⟩, .toClient 0 2#64 0#32,
    .others strayHeader (EventLoop.synFrom 4001#16) ⟨2#64, 900#32, 0#32⟩, .toServer 1 ⟨3#64, 0#32, 0#32⟩,
    .client (.write getRoot), .client (.pollTransmit 4#64), .toServer 2 ⟨5#64, 0#32, 0#32⟩, .toClient 2 6#64 0#32]

def errand : Visit Rat := init 7#64 EventLoop.visitor 5#32 0#64 0#32

theorem errand_is_a_system_run : HostedThroughout EventLoop.visitor errand errands ∧
    ((errand.run EventLoop.visitor errands).server.stack.connections.lookup EventLoop.visitor).isSome = true ∧
    ∃ es, ((System.init (F := Rat) EventLoop.visitor.remoteEnd EventLoop.visitor.localEnd 5#32 0#64 0#32).run es).a =
      (errand.run EventLoop.visitor errands).client := by
  have hhosted : HostedThroughout EventLoop.visitor errand errands := by decide +kernel
  obtain ⟨es, hactive, -⟩ := visits_are_system_runs 7#64 EventLoop.visitor 5#32 0#64 0#32 errands hhosted
  exact ⟨hhosted, by decide +kernel, es, hactive⟩

/-- The chunks that the application of the loop has taken, and what the client
has read of the answer to them. -/
theorem answer_read (synSecret : U64) (q : Quad) (iss : U32) (now : U64) (rnd : U32) (events : List (Event F))
    (hosted : HostedThroughout q (init synSecret q iss now rnd) events)
    (hwritten : ((init (F := F) synSecret q iss now rnd).run q events).client.written.length < 2 ^ 31)
    (hsaid : ((init (F := F) synSecret q iss now rnd).run q events).said.length < 2 ^ 31) :
    let v := (init (F := F) synSecret q iss now rnd).run q events
    (∀ c ∈ v.took, c ≠ []) ∧ v.took.flatten <+: v.client.written ∧
      v.client.delivered <+: (Http.answer none v.took).written := by
  intro v
  obtain ⟨es, hmirrored⟩ := (init_mirrored synSecret q iss now rnd).run hosted
  have hactive := hmirrored.active
  cases hmirrored.serving with
  | waiting free alone silent idle unsaid follows stream virgin =>
      rw [idle, ← System.follows_delivered follows, virgin.delivered]
      exact ⟨fun c hc => absurd hc List.not_mem_nil, List.nil_prefix, List.nil_prefix⟩
  | @hosting b hbuf entry joined sent said attended =>
      have hbounded : System.Bounded ((System.init (F := F) q.remoteEnd q.localEnd iss now rnd).run es) := by
        refine ⟨by rw [hactive]; exact hwritten, fun b' hb' => ?_⟩
        obtain rfl : b = b' := Option.some.inj (joined.symm.trans hb')
        rw [said]
        exact hsaid
      have htracked := System.handshake_kept.run (System.init_tracked ..) es hbounded
      obtain ⟨ta, tb, hfa, hfb, hj⟩ := htracked.both joined
      rw [hactive] at hfa
      refine ⟨attended.nonempty, ?_, ?_⟩
      · -- what the application has taken is all that was delivered
        have htaken : v.took.flatten = tb.delivered := (System.follows_delivered hfb).trans attended.delivered |>.symm
        rw [htaken]
        exact hj.forth.pre.trans (System.sent_written hfa hj.ownA)
      · have hheard : v.client.delivered <+: tb.sent := by
          rw [← System.follows_delivered hfa]
          exact System.delivered_sent hj
        refine hheard.trans ?_
        cases hclosing : (Http.answer none v.took).closing with
        | false =>
            have hall := (congrArg Prod.snd attended.attended).symm.trans (attend_open hclosing)
            rw [← hall]
            exact System.sent_written hfb hj.ownB
        | true =>
            -- nothing leaves behind the FIN, and the FIN lies behind the answer
            obtain ⟨-, r, hr, hw⟩ := attended.closed hclosing
            have hrecord := hj.ownB.stream.closed r (hfb.closing ▸ hr)
            rw [← hw, hrecord]
            exact List.prefix_append _ _

/-- The client reads the answer to what it wrote. The chunks that the application
of the loop has taken are a first part of it, and what the client has read is a
first part of the answer to them: the bytes before the first chunk that looks
like a request, echoed, and the responses to the successive heads from there on. -/
theorem client_reads_the_answer (synSecret : U64) (q : Quad) (iss : U32) (now : U64) (rnd : U32)
    (events : List (Event F)) (hosted : HostedThroughout q (init synSecret q iss now rnd) events)
    (hwritten : ((init (F := F) synSecret q iss now rnd).run q events).client.written.length < 2 ^ 31)
    (hsaid : ((init (F := F) synSecret q iss now rnd).run q events).said.length < 2 ^ 31) :
    let v := (init (F := F) synSecret q iss now rnd).run q events
    (∀ c ∈ v.took, c ≠ []) ∧ v.took.flatten <+: v.client.written ∧
      let answer := Http.answer none v.took
      v.client.delivered <+: answer.written ∧
        answer.written = v.took.flatten.take (httpFrom v.took) ++
          ((answer.heads.filterMap parseRequest).map response).flatten ∧
        Successive (v.took.flatten.drop (httpFrom v.took)) answer.heads answer.closing := by
  intro v
  obtain ⟨hne, htaken, hread⟩ := answer_read synSecret q iss now rnd events hosted hwritten hsaid
  exact ⟨hne, htaken, hread, answer_shape hne⟩

theorem errand_facts : HostedThroughout EventLoop.visitor errand errands ∧
    (errand.run EventLoop.visitor errands).client.written = getRoot ∧
    (errand.run EventLoop.visitor errands).took = [getRoot] ∧
    (errand.run EventLoop.visitor errands).said.length = 143 ∧
    (errand.run EventLoop.visitor errands).client.delivered.length = 143 := by
  decide +kernel

theorem errand_is_short : (errand.run EventLoop.visitor errands).client.written.length < 2 ^ 31 ∧
    (errand.run EventLoop.visitor errands).said.length < 2 ^ 31 := by
  obtain ⟨-, hwritten, -, hsaid, -⟩ := errand_facts
  rw [hwritten, hsaid]
  decide

/-- The application takes the request as one chunk, and the client has read the
whole answer to it. -/
theorem errand_is_answered : (errand.run EventLoop.visitor errands).took = [getRoot] ∧
    (errand.run EventLoop.visitor errands).client.delivered = (Http.answer none [getRoot]).written := by
  obtain ⟨hhosted, -, htook, -, hlength⟩ := errand_facts
  obtain ⟨-, -, hread, -⟩ := client_reads_the_answer 7#64 EventLoop.visitor 5#32 0#64 0#32 errands hhosted
    errand_is_short.1 errand_is_short.2
  refine ⟨htook, ?_⟩
  have hanswer : (Http.answer none [getRoot]).written.length = 143 := by decide +kernel
  change (errand.run EventLoop.visitor errands).client.delivered <+:
    (Http.answer none (errand.run EventLoop.visitor errands).took).written at hread
  rw [htook] at hread
  exact hread.eq_of_length (hlength.trans hanswer.symm)

end Visit
end TcpStack.Main
