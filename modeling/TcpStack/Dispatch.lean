import TcpStack.Receive
import TcpStack.RoundTrip
import TcpStack.Cookie
import TcpStack.Table

/-!
# Segments without a connection

What the event loop does with a segment whose 4-tuple is not in its table: a
passive open while the half-open backlog has room, a stateless cookie when it
has not, a connection from a returning cookie, and a reset for the rest. Two
hosts that both know nothing of a 4-tuple then talk to each other through
these answers alone.
-/
namespace TcpStack.Main
open Tcp

variable {F : Type} [F64 F]

def synBacklog : Nat := 128

/-- The state of the event loop that outlives a packet. -/
structure Stack (F : Type) [F64 F] where
  synSecret : U64
  connections : Table Quad (Connection F)

/-- The clock and the random draws at one arrival. -/
structure Draw where
  now : U64
  iss : U32
  rnd : U32
  deriving DecidableEq, Repr

def quadOf (hdr : Ip.Ipv4Header) (th : TcpHeader) : Quad := ⟨(hdr.src, th.srcPort), (hdr.dst, th.dstPort)⟩

def isSyn (th : TcpHeader) : Bool := hasFlag th.flags SYN && !hasFlag th.flags ACK

def isBareAck (th : TcpHeader) : Bool := hasFlag th.flags ACK && !hasFlag th.flags (SYN ||| RST)

namespace Stack

def halfOpen (m : Stack F) : Nat := m.connections.entries.countP (fun e => decide (e.2.state = .synRcvd))

/-- The cookie in a bare ACK, checked. -/
def returnedCookie (m : Stack F) (hdr : Ip.Ipv4Header) (th : TcpHeader) (now : U64) : Option U16 :=
  checkSynCookie m.synSecret (quadOf hdr th).localEnd (quadOf hdr th).remoteEnd (th.seq - 1#32) (th.ack - 1#32) now

/-- The arm of the event loop for a 4-tuple that is not in the table. -/
def onUnknown (m : Stack F) (hdr : Ip.Ipv4Header) (seg : Segment) (d : Draw) : Stack F × Option Bytes :=
  let th := seg.th
  let quad := quadOf hdr th
  if isSyn th ∧ m.halfOpen < synBacklog then
    match Connection.acceptWithIssAt hdr.src hdr.dst th seg.opts d.iss d.now d.rnd with
    | some (conn, synack) => ({ m with connections := m.connections.insert quad conn.useBbr }, some synack)
    | none => (m, none)
  else if isSyn th then
    -- the backlog is full
    let cookie := synCookie m.synSecret quad.localEnd quad.remoteEnd th.seq (seg.opts.mss.getD 536#16) d.now
    (m, some (buildSynCookieSynack hdr.src hdr.dst th cookie))
  else if isBareAck th then
    match m.returnedCookie hdr th d.now with
    | some mss =>
        let conn := Connection.fromSynCookie quad.localEnd quad.remoteEnd (th.seq - 1#32)
            (th.ack - 1#32) mss d.now d.rnd
        ({ m with connections := m.connections.insert quad conn.useBbr }, none)
    | none => (m, some (buildRst hdr.src hdr.dst th seg.payload.length))
  else
    (m, some (buildRst hdr.src hdr.dst th seg.payload.length))

/-- The segments that make an entry: a SYN with room in the backlog, or a bare
ACK that returns a cookie of ours. -/
def Opens (m : Stack F) (hdr : Ip.Ipv4Header) (th : TcpHeader) (now : U64) : Prop :=
  (isSyn th = true ∧ m.halfOpen < synBacklog) ∨ (isBareAck th = true ∧ (m.returnedCookie hdr th now).isSome)

instance (m : Stack F) (hdr : Ip.Ipv4Header) (th : TcpHeader) (now : U64) : Decidable (m.Opens hdr th now) :=
  inferInstanceAs (Decidable (_ ∨ _))

end Stack

/-- The segment that a packet brings to the table. -/
def arriving (packet : Bytes) : Option (Ip.Ipv4Header × Segment) :=
  match dispatch packet with
  | .ok (.segment hdr seg) => some (hdr, seg)
  | _ => none

/-- Two hosts and the segment in flight between them, which is for `here`. -/
structure Exchange (F : Type) [F64 F] where
  here : Stack F
  there : Stack F
  inFlight : Option (Ip.Ipv4Header × Segment)

namespace Exchange

/-- The segment reaches its host, and the answer goes back. A host that knows
the 4-tuple ends the exchange: its connection takes the segment. -/
def volley (x : Exchange F) (d : Draw) : Exchange F :=
  match x.inFlight with
  | none => x
  | some (hdr, seg) =>
      if (x.here.connections.lookup (quadOf hdr seg.th)).isSome then
        { x with inFlight := none }
      else
        let r := x.here.onUnknown hdr seg d
        ⟨x.there, r.1, r.2.bind arriving⟩

/-- After `n` volleys. -/
def volleys (x : Exchange F) (d : Nat → Draw) : Nat → Exchange F
  | 0 => x
  | n+1 => (x.volleys d n).volley (d n)

end Exchange

/-- The layers of a built packet, as a receiver takes them apart. -/
structure Unwraps (p : Bytes) (src dst : Endpoint) (seg : Segment) (hdr : Ip.Ipv4Header) : Prop where
  ip : Ip.parse p = .ok (.ok hdr)
  headerLen : hdr.headerLen = 20
  protocol : hdr.protocol = 6#8
  quad : quadOf hdr seg.th = ⟨src, dst⟩
  header : slice p 0 20 = .ok (p.take 20)
  checksum : Ip.verifyChecksum (p.take 20) = true
  l4 : slice p 20 p.length = .ok (p.drop 20)
  segment : readSegment (p.drop 20) = .ok (some seg)

theorem buildPacket_unwraps (src dst : Endpoint) (seq ack : U32) (flags : U8) (window : U16)
    {options payload : Bytes} {opts : TcpOptions} (h4 : options.length % 4 = 0) (h40 : options.length ≤ 40)
    (hlen : 40 + options.length + payload.length ≤ 65535) (ho : parseOptions options = .ok opts) :
    ∃ hdr, Unwraps (buildPacket src dst seq ack flags window options payload) src dst
      ⟨⟨src.2, dst.2, seq, ack, 20 + options.length, flags, window⟩, payload, opts⟩ hdr := by
  have harr := buildPacket_arrives src dst seq ack flags window h4 h40 hlen
  have hdec : decode (buildPacket src dst seq ack flags window options payload) =
      some ⟨⟨src.2, dst.2, seq, ack, 20 + options.length, flags, window⟩, payload, opts⟩ :=
    decode_buildPacket h4 h40 ho
  have hle : 20 ≤ (buildPacket src dst seq ack flags window options payload).length := by
    rw [buildPacket_length]
    omega
  generalize buildPacket src dst seq ack flags window options payload = p at harr hdec hle
  obtain ⟨hdr, hip, -, h20, -, hproto, hsrc, hdst⟩ := harr.ip
  refine ⟨hdr, hip, h20, hproto, ?_, ?_, harr.ipChecksum, ?_, ?_⟩
  · simp only [quadOf, hsrc, hdst]
  · rw [slice_of_le (Nat.zero_le _) hle]
    rfl
  · rw [slice_of_le hle (Nat.le_refl _)]
    simp
  · unfold decode at hdec
    split at hdec
    · rename_i heq
      rw [heq, Option.some.inj hdec]
    · cases hdec

theorem arriving_buildPacket (src dst : Endpoint) (seq ack : U32) (flags : U8) (window : U16)
    {options payload : Bytes} {opts : TcpOptions} (h4 : options.length % 4 = 0) (h40 : options.length ≤ 40)
    (hlen : 40 + options.length + payload.length ≤ 65535) (ho : parseOptions options = .ok opts) :
    ∃ hdr, arriving (buildPacket src dst seq ack flags window options payload) =
        some (hdr, ⟨⟨src.2, dst.2, seq, ack, 20 + options.length, flags, window⟩, payload, opts⟩) ∧
      hdr.src = src.1 ∧ hdr.dst = dst.1 := by
  obtain ⟨hdr, h⟩ := buildPacket_unwraps src dst seq ack flags window h4 h40 hlen ho
  generalize buildPacket src dst seq ack flags window options payload = p at h
  generalize (⟨⟨src.2, dst.2, seq, ack, 20 + options.length, flags, window⟩, payload, opts⟩ : Segment) = seg at h
  have hdispatch : dispatch p = answer hdr p (p.drop 20) := by
    unfold dispatch
    rw [h.ip, Checked.ok_bind]
    dsimp only
    rw [h.headerLen, h.header, Checked.ok_bind, h.checksum, h.l4]
    rfl
  have hanswer : answer hdr p (p.drop 20) = .ok (.segment hdr seg) := by
    unfold answer
    rw [h.protocol, if_neg (by decide), if_pos rfl, h.segment]
    rfl
  refine ⟨hdr, ?_, congrArg (fun q => q.remoteEnd.1) h.quad, congrArg (fun q => q.localEnd.1) h.quad⟩
  rw [arriving, hdispatch, hanswer]

/-- A reply to a segment: it comes back to the sender with the given flags. -/
def Reply (hdr : Ip.Ipv4Header) (th : TcpHeader) (p : Bytes) (flags : U8) : Prop :=
  ∃ hdr' seg', arriving p = some (hdr', seg') ∧ quadOf hdr' seg'.th = (quadOf hdr th).flip ∧ seg'.th.flags = flags

theorem reply_buildPacket (hdr : Ip.Ipv4Header) (th : TcpHeader) (seq ack : U32) (flags : U8) (window : U16)
    {options : Bytes} {opts : TcpOptions} (h4 : options.length % 4 = 0) (h40 : options.length ≤ 40)
    (ho : parseOptions options = .ok opts) :
    Reply hdr th (buildPacket (hdr.dst, th.dstPort) (hdr.src, th.srcPort) seq ack flags window options []) flags := by
  have hlen : 40 + options.length + ([] : Bytes).length ≤ 65535 := by
    rw [List.length_nil]
    omega
  obtain ⟨hdr', harr, hsrc, hdst⟩ := arriving_buildPacket (hdr.dst, th.dstPort) (hdr.src, th.srcPort) seq ack flags
    window h4 h40 hlen ho
  refine ⟨hdr', _, harr, ?_, rfl⟩
  simp only [quadOf, hsrc, hdst, Quad.flip]

theorem reply_buildRst (hdr : Ip.Ipv4Header) (th : TcpHeader) (payloadLen : Nat) :
    ∃ flags, Reply hdr th (buildRst hdr.src hdr.dst th payloadLen) flags ∧ (flags = RST ∨ flags = RST ||| ACK) := by
  have hreply : ∀ seq ack flags, Reply hdr th
      (buildPacket (hdr.dst, th.dstPort) (hdr.src, th.srcPort) seq ack flags 0#16 [] []) flags := fun seq ack flags =>
    reply_buildPacket hdr th seq ack flags 0#16 rfl (Nat.zero_le _) (parseFrom_nil {})
  unfold buildRst
  cases hasFlag th.flags ACK with
  | true => exact ⟨_, hreply _ _ _, .inl rfl⟩
  | false => exact ⟨_, hreply _ _ _, .inr rfl⟩

theorem reply_synack {hdr : Ip.Ipv4Header} {th : TcpHeader} {opts : TcpOptions} {iss : U32} {now : U64} {rnd : U32}
    {c : Connection F} {synack : Bytes}
    (h : Connection.acceptWithIssAt hdr.src hdr.dst th opts iss now rnd = some (c, synack)) :
    Reply hdr th synack (SYN ||| ACK) := by
  simp only [Connection.acceptWithIssAt] at h
  split_ifs at h
  simp only [Option.some.injEq, Prod.mk.injEq] at h
  obtain ⟨-, rfl⟩ := h
  obtain ⟨h4, h40⟩ := (Connection.synRcvdBlock (F := F) hdr.src hdr.dst th opts iss now rnd).synackOptions_length opts
  exact reply_buildPacket hdr th _ _ _ _ h4 h40 (Connection.parseOptions_synack _ _ _ _ _)

theorem onUnknown_cases (m : Stack F) (hdr : Ip.Ipv4Header) (seg : Segment) (d : Draw) :
    (m.Opens hdr seg.th d.now ∧ ((m.onUnknown hdr seg d).1.connections.lookup (quadOf hdr seg.th)).isSome ∧
        ∀ p ∈ (m.onUnknown hdr seg d).2, isSyn seg.th = true ∧ Reply hdr seg.th p (SYN ||| ACK)) ∨
      (¬ m.Opens hdr seg.th d.now ∧ (m.onUnknown hdr seg d).1 = m ∧
        ∃ p flags, (m.onUnknown hdr seg d).2 = some p ∧ Reply hdr seg.th p flags ∧
          if isSyn seg.th then flags = SYN ||| ACK else flags = RST ∨ flags = RST ||| ACK) := by
  have hexcl : isSyn seg.th = true → isBareAck seg.th = false := by
    simp only [isSyn, isBareAck]
    cases hasFlag seg.th.flags ACK <;> simp
  have hmss : parseOptions (mssOption ourMss) = .ok { mss := some ourMss } := by
    rw [parseOptions_eq, ← List.append_nil (mssOption ourMss), parseFrom_mssOption, parseFrom_nil]
  have hrst : ∃ p flags, some (buildRst hdr.src hdr.dst seg.th seg.payload.length) = some p ∧
      Reply hdr seg.th p flags ∧ (flags = RST ∨ flags = RST ||| ACK) := by
    obtain ⟨flags, hreply, hf⟩ := reply_buildRst hdr seg.th seg.payload.length
    exact ⟨_, flags, rfl, hreply, hf⟩
  unfold Stack.onUnknown Stack.Opens
  by_cases hsyn : isSyn seg.th = true
  · have hbare := hexcl hsyn
    by_cases hroom : m.halfOpen < synBacklog
    · -- a SYN is always accepted
      left
      have hflag : hasFlag seg.th.flags SYN = true := by
        simp only [isSyn, Bool.and_eq_true] at hsyn
        exact hsyn.1
      obtain ⟨r, hr⟩ : ∃ r, Connection.acceptWithIssAt (F := F) hdr.src hdr.dst seg.th seg.opts d.iss d.now d.rnd =
          some r := by
        simp [Connection.acceptWithIssAt, hflag]
      obtain ⟨conn, synack⟩ := r
      simp only [hsyn, hroom, hr, and_self, if_true, true_or, true_and, AList.lookup_insert, Option.isSome_some,
        Option.mem_def, Option.some.injEq]
      rintro p rfl
      exact reply_synack hr
    · right
      simp only [hsyn, hroom, hbare, and_false, if_false, if_true, Bool.false_eq_true, false_and, or_self,
        not_false_eq_true, true_and]
      exact ⟨_, _, rfl, reply_buildPacket hdr seg.th _ _ _ _ rfl (by decide) hmss, rfl⟩
  · by_cases hbare : isBareAck seg.th = true
    · cases hck : m.returnedCookie hdr seg.th d.now with
      | some mss =>
          left
          simp [hsyn, hbare, hck]
      | none =>
          right
          simp only [hsyn, hbare, hck, Bool.false_eq_true, false_and, if_false, if_true,
            Option.isSome_none, and_false,
            or_self, not_false_eq_true, true_and]
          exact hrst
    · right
      simp only [hsyn, hbare, Bool.false_eq_true, false_and, if_false, or_self, not_false_eq_true, true_and]
      exact hrst

def Deaf (flags : U8) : Prop := flags = SYN ||| ACK ∨ flags = RST ∨ flags = RST ||| ACK

theorem Deaf.not_opens {th : TcpHeader} (h : Deaf th.flags) :
    isSyn th = false ∧ ∀ (m : Stack F) (hdr : Ip.Ipv4Header) (now : U64), ¬ m.Opens hdr th now := by
  have hclass : isSyn th = false ∧ isBareAck th = false := by
    unfold isSyn isBareAck
    rcases h with hf | hf | hf <;> rw [hf] <;> decide
  refine ⟨hclass.1, fun m hdr now hopen => ?_⟩
  simp [Stack.Opens, hclass] at hopen

theorem onUnknown_spares_reset_iff (m : Stack F) (hdr : Ip.Ipv4Header) (seg : Segment) (d : Draw) :
    (hasFlag seg.th.flags RST = true → ∀ p ∈ (m.onUnknown hdr seg d).2, ∀ hdr' seg', arriving p = some (hdr', seg') →
        hasFlag seg'.th.flags RST = false) ↔
      hasFlag seg.th.flags RST = false ∨ isSyn seg.th = true := by
  have hreads : ∀ {p : Bytes} {flags : U8} {hdr' : Ip.Ipv4Header} {seg' : Segment}, Reply hdr seg.th p flags →
      arriving p = some (hdr', seg') → seg'.th.flags = flags := by
    rintro p flags hdr' seg' ⟨hdr'', seg'', harr, -, hf⟩ harr'
    rw [harr, Option.some.injEq, Prod.mk.injEq] at harr'
    rw [← harr'.2, hf]
  have hsynack : hasFlag (SYN ||| ACK) RST = false := by decide
  constructor
  · intro h
    by_contra hno
    obtain ⟨hrst, hsyn⟩ := not_or.mp hno
    rw [Bool.not_eq_false] at hrst
    have hbare : isBareAck seg.th = false := by
      have hall : ∀ f : U8, hasFlag f RST = true → hasFlag f (SYN ||| RST) = true := by decide
      simp [isBareAck, hall _ hrst]
    rcases onUnknown_cases m hdr seg d with ⟨hopen, -⟩ | ⟨-, -, p, flags, hp, ⟨hdr', seg', harr, -, rfl⟩, hf⟩
    · simp [Stack.Opens, hsyn, hbare] at hopen
    · have hspared := h hrst p hp hdr' seg' harr
      rw [if_neg hsyn] at hf
      rcases hf with hf | hf <;> rw [hf] at hspared <;> cases hspared
  · intro h hrst p hp hdr' seg' harr
    have hsyn : isSyn seg.th = true := h.resolve_left (by simp [hrst])
    rcases onUnknown_cases m hdr seg d with ⟨-, -, hall⟩ | ⟨-, -, p', flags, hp', hreply, hf⟩
    · rw [hreads (hall p hp).2 harr, hsynack]
    · rw [if_pos hsyn] at hf
      obtain rfl : p' = p := Option.some.inj (hp'.symm.trans hp)
      rw [hreads hreply harr, hf, hsynack]

namespace Exchange

/-- Neither host has the 4-tuple of the segment in flight, which carries `flags`. -/
def Between (x : Exchange F) (flags : U8) : Prop :=
  ∃ hdr seg, x.inFlight = some (hdr, seg) ∧ seg.th.flags = flags ∧
    x.here.connections.lookup (quadOf hdr seg.th) = none ∧ x.there.connections.lookup (quadOf hdr seg.th).flip = none

theorem volley_between {x : Exchange F} {hdr : Ip.Ipv4Header} {seg : Segment} (hfly : x.inFlight = some (hdr, seg))
    (hhere : x.here.connections.lookup (quadOf hdr seg.th) = none)
    (hthere : x.there.connections.lookup (quadOf hdr seg.th).flip = none) {d : Draw}
    (hno : ¬ x.here.Opens hdr seg.th d.now) : ∃ flags, Deaf flags ∧ (x.volley d).Between flags := by
  rcases onUnknown_cases x.here hdr seg d with ⟨hopen, -⟩ | ⟨-, hsame, p, flags, hp,
    ⟨hdr', seg', harr, hq, hf⟩, hkind⟩
  · exact absurd hopen hno
  have hvolley : x.volley d = ⟨x.there, x.here, some (hdr', seg')⟩ := by
    simp only [volley, hfly, hhere, Option.isSome_none, Bool.false_eq_true, if_false, hsame, hp,
      Option.bind_some, harr]
  refine ⟨flags, ?_, ?_⟩
  · by_cases hsyn : isSyn seg.th = true
    · rw [if_pos hsyn] at hkind
      exact .inl hkind
    · rw [if_neg hsyn] at hkind
      exact .inr hkind
  · rw [hvolley]
    refine ⟨hdr', seg', rfl, hf, ?_, ?_⟩
    · rw [hq]
      exact hthere
    · rw [hq]
      exact hhere

theorem volley_deaf {x : Exchange F} {flags : U8} (hdeaf : Deaf flags) (h : x.Between flags) (d : Draw) :
    ∃ flags', Deaf flags' ∧ (x.volley d).Between flags' := by
  obtain ⟨hdr, seg, hfly, rfl, hhere, hthere⟩ := h
  exact volley_between hfly hhere hthere (hdeaf.not_opens.2 _ _ _)

theorem volleys_deaf {x : Exchange F} {d : Nat → Draw} {k : Nat}
    (h : ∃ flags, Deaf flags ∧ (x.volleys d k).Between flags) (n : Nat) :
    ∃ flags, Deaf flags ∧ (x.volleys d (k + n)).Between flags := by
  induction n with
  | zero => exact h
  | succ n ih =>
      obtain ⟨flags, hdeaf, hb⟩ := ih
      exact volley_deaf hdeaf hb (d (k + n))

theorem ends_iff {x : Exchange F} {hdr : Ip.Ipv4Header} {seg : Segment} (hfly : x.inFlight = some (hdr, seg))
    (hhere : x.here.connections.lookup (quadOf hdr seg.th) = none)
    (hthere : x.there.connections.lookup (quadOf hdr seg.th).flip = none) (d : Nat → Draw) :
    (∃ n, (x.volleys d n).inFlight = none) ↔ x.here.Opens hdr seg.th (d 0).now := by
  constructor
  · rintro ⟨n, hn⟩
    by_contra hno
    have hfirst : ∃ flags, Deaf flags ∧ (x.volleys d 1).Between flags := volley_between hfly hhere hthere hno
    cases n with
    | zero => cases hfly.symm.trans hn
    | succ n =>
        obtain ⟨flags, -, hdr', seg', hsome, -⟩ := volleys_deaf hfirst n
        rw [Nat.add_comm] at hsome
        cases hsome.symm.trans hn
  · intro hopen
    rcases onUnknown_cases x.here hdr seg (d 0) with ⟨-, hentry, hreply⟩ | ⟨hno, -⟩
    swap
    · exact absurd hopen hno
    have hone : x.volleys d 1 = ⟨x.there, (x.here.onUnknown hdr seg (d 0)).1,
        (x.here.onUnknown hdr seg (d 0)).2.bind arriving⟩ := by
      simp only [volleys, volley, hfly, hhere, Option.isSome_none, Bool.false_eq_true, if_false]
    generalize x.here.onUnknown hdr seg (d 0) = r at hentry hreply hone
    obtain ⟨here, reply⟩ := r
    cases reply with
    | none => exact ⟨1, by rw [hone]; rfl⟩
    | some p =>
        -- the SYN-ACK comes back as a reset, and that meets the new connection
        obtain ⟨-, hdr', seg', harr, hq, hf⟩ := hreply p rfl
        rw [Option.bind_some, harr] at hone
        have hdeaf : Deaf seg'.th.flags := .inl hf
        have hlook : x.there.connections.lookup (quadOf hdr' seg'.th) = none := hq ▸ hthere
        rcases onUnknown_cases x.there hdr' seg' (d 1) with
          ⟨hopen', -⟩ | ⟨-, hsame, p', flags', hp', ⟨hdr'', seg'', harr', hq', -⟩, -⟩
        · exact absurd hopen' (hdeaf.not_opens.2 _ _ _)
        have htwo : x.volleys d 2 = ⟨here, x.there, some (hdr'', seg'')⟩ := by
          rw [volleys, hone]
          simp only [volley, hlook, Option.isSome_none, Bool.false_eq_true, if_false, hsame, hp',
            Option.bind_some, harr']
        refine ⟨3, ?_⟩
        rw [volleys, htwo]
        simp only [volley]
        rw [hq', hq, if_pos]
        exact hentry

end Exchange

/-- A reset for an unknown 4-tuple is answered by a reset unless it carries a SYN
without an ACK. Between two hosts without a connection the exchange therefore
ends exactly when the first segment makes one of them open a connection. -/
theorem resets_stop_iff :
    (∀ (m : Stack F) (hdr : Ip.Ipv4Header) (seg : Segment) (d : Draw),
      (hasFlag seg.th.flags RST = true → ∀ p ∈ (m.onUnknown hdr seg d).2, ∀ hdr' seg',
          arriving p = some (hdr', seg') → hasFlag seg'.th.flags RST = false) ↔
        hasFlag seg.th.flags RST = false ∨ isSyn seg.th = true) ∧
    ∀ (x : Exchange F) (hdr : Ip.Ipv4Header) (seg : Segment) (d : Nat → Draw), x.inFlight = some (hdr, seg) →
      x.here.connections.lookup (quadOf hdr seg.th) = none →
      x.there.connections.lookup (quadOf hdr seg.th).flip = none →
      ((∃ n, (x.volleys d n).inFlight = none) ↔ x.here.Opens hdr seg.th (d 0).now) :=
  ⟨onUnknown_spares_reset_iff, fun _ _ _ d hfly hhere hthere => Exchange.ends_iff hfly hhere hthere d⟩

def idle : Stack Rat := ⟨0#64, ∅⟩

def strayHeader : Ip.Ipv4Header :=
  ⟨4#8, 20, 40, 64#8, 6#8, Ipv4Addr.new 10#8 0#8 0#8 1#8, Ipv4Addr.new 10#8 0#8 0#8 2#8⟩

def stray (flags : U8) : Segment := ⟨⟨4000#16, 80#16, 5#32, 9#32, 20, flags, 1024#16⟩, [], {}⟩

/-- A SYN is answered once and the reset for the answer meets the connection; a
reset that carries a SYN is spared. -/
theorem syn_exchange_ends :
    (∃ n, (Exchange.volleys ⟨idle, idle, some (strayHeader, stray SYN)⟩ (fun _ => ⟨1#64, 700#32, 0#32⟩) n).inFlight =
        none) ∧
      ∀ p ∈ (idle.onUnknown strayHeader (stray (SYN ||| RST)) ⟨1#64, 700#32, 0#32⟩).2, ∀ hdr' seg',
        arriving p = some (hdr', seg') → hasFlag seg'.th.flags RST = false := by
  obtain ⟨hspared, hends⟩ := resets_stop_iff (F := Rat)
  constructor
  · apply (hends ⟨idle, idle, some (strayHeader, stray SYN)⟩ strayHeader (stray SYN) _ rfl rfl rfl).mpr
    decide +kernel
  · apply (hspared idle strayHeader (stray (SYN ||| RST)) ⟨1#64, 700#32, 0#32⟩).mpr
    · exact .inr (by decide)
    · decide

/-- A single reset between two hosts that have just started is answered by a
reset, and the answers never end. -/
theorem single_reset_never_ends :
    idle.connections.lookup (quadOf strayHeader (stray RST).th) = none ∧
    idle.connections.lookup (quadOf strayHeader (stray RST).th).flip = none ∧
    hasFlag (stray RST).th.flags RST = true ∧
    (∃ p hdr' seg', (idle.onUnknown strayHeader (stray RST) ⟨1#64, 700#32, 0#32⟩).2 = some p ∧
      arriving p = some (hdr', seg') ∧ hasFlag seg'.th.flags RST = true) ∧
    ∀ n, (Exchange.volleys ⟨idle, idle, some (strayHeader, stray RST)⟩ (fun _ => ⟨1#64, 700#32, 0#32⟩) n).inFlight ≠
      none := by
  refine ⟨rfl, rfl, by decide, ?_, ?_⟩
  · obtain ⟨flags, ⟨hdr', seg', harr, -, hf⟩, hkind⟩ := reply_buildRst strayHeader (stray RST).th 0
    refine ⟨_, hdr', seg', rfl, harr, ?_⟩
    rw [hf]
    rcases hkind with rfl | rfl <;> decide
  · intro n hn
    have hends := (Exchange.ends_iff (x := ⟨idle, idle, some (strayHeader, stray RST)⟩) rfl rfl rfl _).mp ⟨n, hn⟩
    revert hends
    decide +kernel

end TcpStack.Main
