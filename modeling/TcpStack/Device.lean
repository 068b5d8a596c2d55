import TcpStack.Echo
import TcpStack.Incarnation
import TcpStack.Outgoing

/-!
# The loop on the device

The event loop as it reads the device: in each turn the timers, then one packet
if there is one, as the bytes that came. All that it sends, turn after turn, goes
back to where some packet came from, from where that packet was addressed to,
under a header checksum that verifies.
-/
namespace TcpStack

theorem Checked.of_bind {α β : Type} {x : Checked α} {f : α → Checked β} {b : β} (h : (x >>= f) = .ok b) :
    ∃ a, x = .ok a ∧ f a = .ok b := by
  cases hx : x with
  | error e =>
      rw [hx] at h
      cases h
  | ok a =>
      rw [hx] at h
      exact ⟨a, rfl, h⟩

theorem Ip.Cut.exists_l4 {request : Bytes} {n : Nat} (hn : 20 ≤ n) (hlong : n + 8 ≤ request.length) :
    ∃ (c : Ip.Cut) (s₀ s₁ d₀ d₁ l₀ l₁ x y : U8) (data : Bytes),
      request = c.header ++ (s₀ :: s₁ :: d₀ :: d₁ :: l₀ :: l₁ :: x :: y :: data) ∧ c.header.length = n := by
  obtain ⟨head, rest, rfl, hlen⟩ := Ip.Cut.exists_split (show n ≤ request.length by omega)
  obtain ⟨c, rfl⟩ := Ip.Cut.exists_header (hlen ▸ hn)
  rw [List.length_append] at hlong
  obtain ⟨first, data, rfl, hfirst⟩ := Ip.Cut.exists_split (show 8 ≤ rest.length by omega)
  rcases first with _ | ⟨s₀, _ | ⟨s₁, _ | ⟨d₀, _ | ⟨d₁, _ | ⟨l₀, _ | ⟨l₁, _ | ⟨x, _ | ⟨y, last⟩⟩⟩⟩⟩⟩⟩⟩
  all_goals simp only [List.length_nil, List.length_cons] at hfirst
  all_goals try omega
  obtain rfl : last = [] := List.eq_nil_of_length_eq_zero (by omega)
  exact ⟨c, s₀, s₁, d₀, d₁, l₀, l₁, x, y, data, rfl, hlen⟩

theorem Icmp.mirrors_of_reply {request reply : Bytes} {n : Nat} (hn : 20 ≤ n)
    (h : Icmp.buildEchoReply request n = .ok (some reply)) : Ip.Mirrors request reply n := by
  have hlong : n + 8 ≤ request.length := by
    by_contra hshort
    have hnone : Icmp.buildEchoReply request n = .ok none := if_pos (Nat.lt_of_not_le hshort)
    cases hnone.symm.trans h
  obtain ⟨c, typ, code, x, y, b₀, b₁, b₂, b₃, data, rfl, rfl⟩ := Ip.Cut.exists_l4 hn hlong
  have htype : typ = 8#8 := by
    by_contra hne
    have hindex : index (c.header ++ (typ :: code :: x :: y :: b₀ :: b₁ :: b₂ :: b₃ :: data)) c.header.length =
        .ok typ := index_at rfl
    unfold Icmp.buildEchoReply at h
    rw [if_neg (Nat.not_lt.mpr hlong), hindex, Checked.ok_bind, if_pos (bne_iff_ne.mpr hne)] at h
    cases h
  subst htype
  obtain ⟨reply', hreply, hmirrors, -⟩ := Icmp.reply_mirrors c code x y
      (show 4 ≤ (b₀ :: b₁ :: b₂ :: b₃ :: data).length by simp)
  obtain rfl := Option.some.inj (Except.ok.inj (hreply.symm.trans h))
  exact hmirrors

theorem Udp.mirrors_of_reply {request reply : Bytes} {n : Nat} (hn : 20 ≤ n)
    (h : Udp.buildEchoReply request n = .ok (some reply)) : Ip.Mirrors request reply n := by
  have hlong : n + 8 ≤ request.length := by
    by_contra hshort
    have hnone : Udp.buildEchoReply request n = .ok none := if_pos (Nat.lt_of_not_le hshort)
    cases hnone.symm.trans h
  obtain ⟨c, s₀, s₁, d₀, d₁, l₀, l₁, x, y, data, rfl, rfl⟩ := Ip.Cut.exists_l4 hn hlong
  obtain ⟨reply', hreply, hmirrors, -⟩ := Udp.reply_mirrors c s₀ s₁ d₀ d₁ l₀ l₁ x y data
  obtain rfl := Option.some.inj (Except.ok.inj (hreply.symm.trans h))
  exact hmirrors

namespace Main

theorem Accepted.parse {packet : Bytes} (h : Accepted packet) : Ip.parse packet = .ok (.ok
    { version := 4#8, headerLen := headerLen packet, totalLen := totalLen packet, ttl := packet.getD 8 0#8
      protocol := packet.getD 9 0#8, src := Ip.addressAt packet 12, dst := Ip.addressAt packet 16 }) := by
  have hlen := h.long
  have hidx : ∀ i < 20, index packet i = .ok (packet.getD i 0#8) := fun i hi => index_of_lt (by omega)
  have hfits : ¬ packet.length < (packet.getD 0 0#8 &&& 0x0f#8).toNat * 4 := Nat.not_lt.mpr h.fits
  have htotal : ¬ (U16.fromBeBytes (packet.getD 2 0#8) (packet.getD 3 0#8)).toNat <
      (packet.getD 0 0#8 &&& 0x0f#8).toNat * 4 := Nat.not_lt.mpr h.total
  unfold Ip.parse
  simp only [hidx, Nat.reduceLT, Checked.ok_bind, Checked.pure_eq, if_neg (Nat.not_lt.mpr hlen), h.version,
    bne_self_eq_false, Bool.false_eq_true, if_false, hfits, htotal]
  rfl

theorem accepted_of_parse {packet : Bytes} {hdr : Ip.Ipv4Header} (h : Ip.parse packet = .ok (.ok hdr)) :
    Accepted packet := by
  by_contra hno
  obtain ⟨e, he⟩ := parse_rejected hno
  cases he.symm.trans h

theorem addressAt_of_take {p r : Bytes} {i j : Nat} (h : (p.drop i).take 4 = (r.drop j).take 4) :
    Ip.addressAt p i = Ip.addressAt r j := by
  have hbyte : ∀ k < 4, p.getD (i + k) 0#8 = r.getD (j + k) 0#8 := by
    intro k hk
    have hget := congrArg (fun b : Bytes => b[k]?) h
    simp only [List.getElem?_take_of_lt hk, List.getElem?_drop] at hget
    rw [List.getD_eq_getElem?_getD, List.getD_eq_getElem?_getD, hget]
  have h0 := hbyte 0 (by decide)
  rw [Nat.add_zero, Nat.add_zero] at h0
  rw [Ip.addressAt, Ip.addressAt, h0, hbyte 1 (by decide), hbyte 2 (by decide), hbyte 3 (by decide)]

/-- A datagram from where the header was addressed to, to where it came from,
of the same protocol; its header checksum verifies. -/
def SentBack (hdr : Ip.Ipv4Header) (p : Bytes) : Prop :=
  ∃ back, Ip.parse p = .ok (.ok back) ∧ back.src = hdr.dst ∧ back.dst = hdr.src ∧ back.protocol = hdr.protocol ∧
    Ip.verifyChecksum (p.take back.headerLen) = true

theorem sentBack_of_mirrors {request reply : Bytes} {hdr : Ip.Ipv4Header} (hp : Ip.parse request = .ok (.ok hdr))
    (hn : 20 ≤ hdr.headerLen) (hm : Ip.Mirrors request reply hdr.headerLen) : SentBack hdr reply := by
  have hacc := accepted_of_parse hp
  obtain rfl := Except.ok.inj (Except.ok.inj (hacc.parse.symm.trans hp))
  dsimp only at hn hm
  have hbyte : ∀ i < 10, i ≠ 8 → reply.getD i 0#8 = request.getD i 0#8 := by
    intro i hi h8
    rw [List.getD_eq_getElem?_getD, hm.kept i (by omega) h8 (.inl hi), ← List.getD_eq_getElem?_getD]
  have hhead : headerLen reply = headerLen request := by
    rw [headerLen, hbyte 0 (by decide) (by decide), headerLen]
  have htotal : totalLen reply = totalLen request := by
    rw [totalLen, hbyte 2 (by decide) (by decide), hbyte 3 (by decide) (by decide), totalLen]
  have hback : Accepted reply := by
    refine ⟨?_, ?_, ?_, ?_⟩
    · rw [hm.length]
      exact hacc.long
    · rw [hbyte 0 (by decide) (by decide)]
      exact hacc.version
    · rw [hhead, hm.length]
      exact hacc.fits
    · rw [hhead, htotal]
      exact hacc.total
  refine ⟨_, hback.parse, addressAt_of_take hm.source, addressAt_of_take hm.destination,
    hbyte 9 (by decide) (by decide), ?_⟩
  dsimp only
  rw [hhead]
  exact beq_iff_eq.mpr hm.verifies

theorem sentBack_of_posted {hdr : Ip.Ipv4Header} {seg : Tcp.Segment} {p : Bytes} (hproto : hdr.protocol = 6#8)
    (h : Posted (quadOf hdr seg.th).localEnd (quadOf hdr seg.th).remoteEnd p) : SentBack hdr p := by
  obtain ⟨s, back, hu, -⟩ := h.unwraps
  have hsrc : back.src = hdr.dst := congrArg (fun q : Tcp.Quad => q.remoteEnd.1) hu.quad
  have hdst : back.dst = hdr.src := congrArg (fun q : Tcp.Quad => q.localEnd.1) hu.quad
  refine ⟨back, hu.ip, hsrc, hdst, hu.protocol.trans hproto.symm, ?_⟩
  rw [hu.headerLen]
  exact hu.checksum

theorem answer_cases {hdr : Ip.Ipv4Header} {packet l4 : Bytes} {out : Outcome} (h : answer hdr packet l4 = .ok out) :
    out = .ignored ∨
      (hdr.protocol = 6#8 ∧ ∃ seg, out = .segment hdr seg) ∨
      ∃ reply, out = .reply reply ∧ (Icmp.buildEchoReply packet hdr.headerLen = .ok (some reply) ∨
        Udp.buildEchoReply packet hdr.headerLen = .ok (some reply)) := by
  unfold answer at h
  split_ifs at h with hicmp htcp hudp
  · obtain ⟨_ | i, -, hrest⟩ := Checked.of_bind h
    · exact .inl (Except.ok.inj hrest).symm
    · dsimp only at hrest
      split_ifs at hrest
      · obtain ⟨_ | reply, hreply, hrest⟩ := Checked.of_bind hrest
        · exact .inl (Except.ok.inj hrest).symm
        · exact .inr (.inr ⟨reply, (Except.ok.inj hrest).symm, .inl hreply⟩)
      · exact .inl (Except.ok.inj hrest).symm
  · obtain ⟨_ | seg, -, hrest⟩ := Checked.of_bind h
    · exact .inl (Except.ok.inj hrest).symm
    · exact .inr (.inl ⟨htcp, seg, (Except.ok.inj hrest).symm⟩)
  · obtain ⟨_ | u, -, hrest⟩ := Checked.of_bind h
    · exact .inl (Except.ok.inj hrest).symm
    · obtain ⟨_ | reply, hreply, hrest⟩ := Checked.of_bind hrest
      · exact .inl (Except.ok.inj hrest).symm
      · exact .inr (.inr ⟨reply, (Except.ok.inj hrest).symm, .inr hreply⟩)
  · exact .inl (Except.ok.inj h).symm

theorem dispatch_cases {packet : Bytes} {out : Outcome} (h : dispatch packet = .ok out) :
    (∃ e, out = .skip e) ∨ out = .badChecksum ∨ ∃ hdr, Ip.parse packet = .ok (.ok hdr) ∧
      answer hdr packet (packet.drop hdr.headerLen) = .ok out := by
  by_cases hacc : Accepted packet
  · have hparse := hacc.parse
    have hfits := hacc.fits
    unfold dispatch at h
    rw [hparse, Checked.ok_bind] at h
    dsimp only at h
    rw [slice_of_le (Nat.zero_le _) hfits, Checked.ok_bind, slice_of_le hfits (Nat.le_refl _), List.take_length] at h
    split at h
    · exact .inr (.inl (Except.ok.inj h).symm)
    · exact .inr (.inr ⟨_, hparse, h⟩)
  · obtain ⟨e, he⟩ := parse_rejected hacc
    unfold dispatch at h
    rw [he, Checked.ok_bind] at h
    exact .inl ⟨e, (Except.ok.inj h).symm⟩

open Tcp Host Connection Lifetime

variable {F : Type} [F64 F]

theorem onUnknown_posted (m : Stack F) (hdr : Ip.Ipv4Header) (seg : Segment) (d : Draw) :
    ∀ p ∈ (m.onUnknown hdr seg d).2,
      Posted (quadOf hdr seg.th).localEnd (quadOf hdr seg.th).remoteEnd p := by
  have hbare : ∀ (seq ack : U32) (flags : U8) (window : U16), ∀ p ∈ some (buildPacket (hdr.dst, seg.th.dstPort)
      (hdr.src, seg.th.srcPort) seq ack flags window [] []),
      Posted (quadOf hdr seg.th).localEnd (quadOf hdr seg.th).remoteEnd p := by
    intro seq ack flags window p hp
    obtain rfl := Option.some.inj hp
    exact buildPacket_posted _ _ _ _ _ _ (by decide) (Nat.zero_le _)
  have hrst : ∀ p ∈ some (buildRst hdr.src hdr.dst seg.th seg.payload.length),
      Posted (quadOf hdr seg.th).localEnd (quadOf hdr seg.th).remoteEnd p := by
    unfold buildRst
    split
    exact hbare _ _ _ _
  unfold Stack.onUnknown
  dsimp only
  split_ifs with hroom hsyn hack
  · intro p hp
    cases hacc : Connection.acceptWithIssAt (F := F) hdr.src hdr.dst seg.th seg.opts d.iss d.now d.rnd with
    | none =>
        rw [hacc] at hp
        cases hp
    | some r =>
        rw [hacc] at hp
        obtain rfl := Option.some.inj hp
        have haccept : accept (F := F) hdr.src hdr.dst seg d.iss d.now d.rnd =
            some { conn := r.1, emitted := [r.2] } := by
          rw [accept, hacc]
          rfl
        have hends := (accept_serves (q := quadOf hdr seg.th) rfl rfl haccept).joins
        have hposted := (run_posted (.accept _ _ _ _ _ _ haccept) []).emitted r.2 (List.mem_singleton_self _)
        rwa [hends.1, hends.2] at hposted
  · intro p hp
    obtain rfl := Option.some.inj hp
    exact buildPacket_posted _ _ _ _ _ _ (by decide) (Nat.zero_le _)
  · cases m.returnedCookie hdr seg.th d.now with
    | none => exact hrst
    | some mss => exact fun p hp => absurd hp (Option.not_mem_none _)
  · exact hrst

namespace EventLoop

/-- The host behind an entry, which sends nothing but datagrams of the 4-tuple, and
the segment that the 4-tuple was first heard in. -/
theorem entry_host (synSecret : U64) (inputs : List (Input F)) {q : Quad} {conn : Connection F}
    (hconn : ((start synSecret).run inputs).stack.connections.lookup q = some conn) :
    ∃ k : Host F, k.conn = conn ∧ (∀ more, ∀ p ∈ (k.run more).emitted, Posted q.localEnd q.remoteEnd p) ∧
      ∃ hdr seg d, Input.segment hdr seg d ∈ inputs ∧ quadOf hdr seg.th = q := by
  obtain ⟨early, birth, since, rfl, -, h, calls, hem⟩ := entry_embodies synSecret q inputs (entry_of_lookup hconn)
  obtain ⟨hdr, seg, d, rfl, hq⟩ := hem.opened.arrives
  refine ⟨h.run (.useBbr :: calls), hem.conn, fun more p hp => ?_, hdr, seg, d, ?_, hq⟩
  · rw [← run_append] at hp
    have hends := hem.opened.serves.joins
    have hposted := (run_posted hem.opened.fresh _).emitted p hp
    rwa [hends.1, hends.2] at hposted
  · exact List.mem_append_right _ List.mem_cons_self

/-- In every run, what a step sends for a 4-tuple are datagrams of the 4-tuple, and
a segment for it has been heard. -/
theorem sends_posted (synSecret : U64) (inputs : List (Input F)) (x : Input F) {q : Quad} {p : Bytes}
    (hp : p ∈ sendsFor q ((start synSecret).run inputs) x) : Posted q.localEnd q.remoteEnd p ∧
      ∃ hdr seg d, Input.segment hdr seg d ∈ inputs ++ [x] ∧ quadOf hdr seg.th = q := by
  have hentry : ∀ conn, ((start synSecret).run inputs).stack.connections.lookup q = some conn → _ :=
    fun conn hconn => entry_host synSecret inputs hconn
  generalize (start synSecret).run inputs = m at hp hentry
  cases x with
  | timers order now =>
      rw [sendsFor, sends, Table.select_visit, Table.lookup_reorder] at hp
      cases hc : m.stack.connections.lookup q with
      | none =>
          rw [hc] at hp
          exact absurd hp List.not_mem_nil
      | some conn =>
          rw [hc] at hp
          obtain ⟨k, rfl, hposted, hdr, seg, d, hmem, hq⟩ := hentry conn hc
          exact ⟨hposted [.onTick now] p (List.mem_append_right _ hp), hdr, seg, d, List.mem_append_left _ hmem, hq⟩
  | segment hdr seg d =>
      have hlast : Input.segment hdr seg d ∈ inputs ++ [.segment hdr seg d] :=
        List.mem_append_right _ (List.mem_singleton_self _)
      by_cases hq : quadOf hdr seg.th = q
      · subst hq
        refine ⟨?_, hdr, seg, d, hlast, rfl⟩
        rw [sendsFor, sends, Table.select_tag, onTcp] at hp
        cases hc : m.stack.connections.lookup (quadOf hdr seg.th) with
        | none =>
            rw [hc] at hp
            exact onUnknown_posted m.stack hdr seg d p (Option.mem_toList.mp hp)
        | some conn =>
            rw [hc] at hp
            obtain ⟨k, rfl, hposted, -⟩ := hentry conn hc
            refine hposted (conversation k.conn (m.httpBufs.lookup (quadOf hdr seg.th)) seg d) p ?_
            rw [(run_conversation k _ seg d).emitted]
            exact List.mem_append_right _ hp
      · rw [sendsFor, sends, Table.select_tag_ne hq] at hp
        exact absurd hp List.not_mem_nil

end EventLoop

/-- One turn: the order the timers visit the table in, the packet that was read,
and the clock and the random draws. -/
structure Cycle (F : Type) [F64 F] where
  order : Table.Order Quad (Connection F)
  packet : Option Bytes
  draw : Draw

namespace EventLoop

/-- The timers, then the packet. The result is the new state and what was sent. -/
def cycle (m : EventLoop F) (c : Cycle F) : Checked (EventLoop F × List Bytes) := do
  let ticked := m.timers c.order c.draw.now
  match c.packet with
  | none => return ticked
  | some packet =>
      match ← dispatch packet with
      | .segment hdr seg =>
          let r := ticked.1.onTcp hdr seg c.draw
          return (r.1, ticked.2 ++ r.2)
      | .reply reply => return (ticked.1, ticked.2 ++ [reply])
      | .skip _ | .badChecksum | .ignored => return ticked

def cycles (m : EventLoop F) : List (Cycle F) → Checked (EventLoop F × List Bytes)
  | [] => return (m, [])
  | c :: rest => do
      let r ← m.cycle c
      let more ← r.1.cycles rest
      return (more.1, r.2 ++ more.2)

def inputsOf (c : Cycle F) : List (Input F) :=
  .timers c.order c.draw.now :: ((c.packet.bind arriving).map fun r => .segment r.1 r.2 c.draw).toList

/-- The packets of a step, in order. -/
def packets (m : EventLoop F) (x : Input F) : List Bytes := (m.sends x).map Prod.snd

theorem arriving_of_other {packet : Bytes} {out : Outcome} (h : dispatch packet = .ok out)
    (hno : ∀ hdr seg, out ≠ .segment hdr seg) : (some packet).bind arriving = none := by
  rw [Option.bind_some, arriving, h]
  cases out with
  | segment hdr seg => exact absurd rfl (hno hdr seg)
  | skip | badChecksum | ignored | reply => rfl

/-- A turn that returns: its steps, and what was sent beside theirs is the reply to
the packet. -/
theorem cycle_eq {m m' : EventLoop F} {c : Cycle F} {sent : List Bytes} (h : m.cycle c = .ok (m', sent)) :
    m' = m.run (inputsOf c) ∧ ∀ p ∈ sent, p ∈ outputs step packets m (inputsOf c) ∨
      ∃ request ∈ c.packet, dispatch request = .ok (.reply p) := by
  have htimers : ∀ p ∈ (m.timers c.order c.draw.now).2, ∀ rest,
      p ∈ outputs step packets m (.timers c.order c.draw.now :: rest) := fun p hp rest => by
    rw [outputs, packets, sends_packets]
    exact List.mem_append_left _ hp
  unfold cycle at h
  unfold inputsOf
  dsimp only at h
  cases hc : c.packet with
  | none =>
      rw [hc] at h
      obtain ⟨rfl, rfl⟩ := Prod.mk.inj (Except.ok.inj h)
      exact ⟨rfl, fun p hp => .inl (htimers p hp _)⟩
  | some packet =>
      rw [hc] at h
      obtain ⟨out, hout, hrest⟩ := Checked.of_bind h
      cases out with
      | skip | badChecksum | ignored =>
          rw [arriving_of_other hout (fun _ _ => Outcome.noConfusion)]
          obtain ⟨rfl, rfl⟩ := Prod.mk.inj (Except.ok.inj hrest)
          exact ⟨rfl, fun p hp => .inl (htimers p hp _)⟩
      | reply reply =>
          rw [arriving_of_other hout (fun _ _ => Outcome.noConfusion)]
          obtain ⟨rfl, rfl⟩ := Prod.mk.inj (Except.ok.inj hrest)
          refine ⟨rfl, fun p hp => ?_⟩
          rcases List.mem_append.mp hp with hp | hp
          · exact .inl (htimers p hp _)
          · rw [List.mem_singleton.mp hp]
            exact .inr ⟨packet, rfl, hout⟩
      | segment hdr seg =>
          have harr : (some packet).bind arriving = some (hdr, seg) := by rw [Option.bind_some, arriving, hout]
          rw [harr]
          obtain ⟨rfl, rfl⟩ := Prod.mk.inj (Except.ok.inj hrest)
          refine ⟨rfl, fun p hp => .inl ?_⟩
          rcases List.mem_append.mp hp with hp | hp
          · exact htimers p hp _
          · rw [outputs]
            refine List.mem_append_right _ ?_
            change p ∈ packets _ (.segment hdr seg c.draw) ++ []
            rw [List.append_nil, packets, sends_packets]
            exact hp

theorem cycles_eq {m m' : EventLoop F} {cs : List (Cycle F)} {sent : List Bytes} (h : m.cycles cs = .ok (m', sent)) :
    m' = m.run (cs.flatMap inputsOf) ∧ ∀ p ∈ sent, p ∈ outputs step packets m (cs.flatMap inputsOf) ∨
      ∃ c ∈ cs, ∃ request ∈ c.packet, dispatch request = .ok (.reply p) := by
  induction cs generalizing m sent with
  | nil =>
      obtain ⟨rfl, rfl⟩ := Prod.mk.inj (Except.ok.inj h)
      exact ⟨rfl, fun p hp => absurd hp List.not_mem_nil⟩
  | cons c cs ih =>
      obtain ⟨⟨m₁, first⟩, hfirst, hrest⟩ := Checked.of_bind h
      obtain ⟨⟨m₂, more⟩, hmore, hlast⟩ := Checked.of_bind hrest
      obtain ⟨rfl, rfl⟩ := Prod.mk.inj (Except.ok.inj hlast)
      obtain ⟨rfl, hsent⟩ := cycle_eq hfirst
      obtain ⟨rfl, hlater⟩ := ih hmore
      rw [List.flatMap_cons]
      refine ⟨(List.foldl_append).symm, fun p hp => ?_⟩
      rw [outputs_append]
      rcases List.mem_append.mp hp with hp | hp
      · refine (hsent p hp).imp (List.mem_append_left _) ?_
        rintro ⟨request, hmem, hd⟩
        exact ⟨c, List.mem_cons_self, request, hmem, hd⟩
      · refine (hlater p hp).imp (List.mem_append_right _) ?_
        rintro ⟨c', hmem', rest⟩
        exact ⟨c', List.mem_cons_of_mem _ hmem', rest⟩

theorem segment_of_inputs {c : Cycle F} {hdr : Ip.Ipv4Header} {seg : Segment} {d : Draw}
    (h : Input.segment hdr seg d ∈ inputsOf c) : ∃ request ∈ c.packet, dispatch request = .ok (.segment hdr seg) := by
  rcases List.mem_cons.mp h with h | h
  · cases h
  · obtain ⟨r, hr, heq⟩ := Option.map_eq_some_iff.mp (Option.mem_toList.mp h)
    obtain ⟨request, hmem, harr⟩ := Option.bind_eq_some_iff.mp hr
    cases heq
    refine ⟨request, hmem, ?_⟩
    unfold arriving at harr
    split at harr
    · rename_i hdr' seg' hd
      rw [hd, ← Option.some.inj harr]
    · cases harr

end EventLoop

/-- The packet is an answer to the request: of a connection or of the dispatch to a
segment, or the echo of a request with a whole IP header. -/
inductive Reflects (request p : Bytes) : Prop where
  | segment {hdr : Ip.Ipv4Header} {seg : Segment} (arrived : dispatch request = .ok (.segment hdr seg))
      (posted : Posted (hdr.dst, seg.th.dstPort) (hdr.src, seg.th.srcPort) p) (back : SentBack hdr p)
  | echo {hdr : Ip.Ipv4Header} (arrived : dispatch request = .ok (.reply p))
    (parsed : Ip.parse request = .ok (.ok hdr))
      (back : 20 ≤ hdr.headerLen → SentBack hdr p)

theorem reflects_of_reply {request p : Bytes} (h : dispatch request = .ok (.reply p)) : Reflects request p := by
  rcases dispatch_cases h with ⟨e, he⟩ | hbad | ⟨hdr, hparse, hans⟩
  · cases he
  · cases hbad
  · refine .echo h hparse fun hn => ?_
    rcases answer_cases hans with hig | ⟨-, seg, hseg⟩ | ⟨reply, heq, hicmp | hudp⟩
    · cases hig
    · cases hseg
    · cases heq
      exact sentBack_of_mirrors hparse hn (Icmp.mirrors_of_reply hn hicmp)
    · cases heq
      exact sentBack_of_mirrors hparse hn (Udp.mirrors_of_reply hn hudp)

namespace EventLoop

/-- The stack only answers. In every run of the loop on the device, whatever was
read from it, each packet that was sent goes back to where some packet came from,
from the address that packet was for, under an IP header whose checksum verifies.
For a segment the ports go back too, and the TCP checksum verifies. -/
theorem device_only_answers (synSecret : U64) (cs : List (Cycle F)) {m : EventLoop F} {sent : List Bytes}
    (h : (start synSecret).cycles cs = .ok (m, sent)) :
    ∀ p ∈ sent, ∃ c ∈ cs, ∃ request ∈ c.packet, Reflects request p := by
  intro p hp
  rcases (cycles_eq h).2 p hp with hout | ⟨c, hc, request, hmem, hd⟩
  · obtain ⟨early, x, late, hsplit, hx⟩ := mem_outputs hout
    obtain ⟨⟨q, _⟩, hsent, rfl⟩ := List.mem_map.mp hx
    have hfor := Table.mem_select.mpr hsent
    obtain ⟨hposted, hdr, seg, d, hheard, rfl⟩ := sends_posted synSecret early x hfor
    have hall : Input.segment hdr seg d ∈ cs.flatMap inputsOf := by
      rw [hsplit, List.append_cons]
      exact List.mem_append_left _ hheard
    obtain ⟨c, hc, hin⟩ := List.mem_flatMap.mp hall
    obtain ⟨request, hmem, hd⟩ := segment_of_inputs hin
    refine ⟨c, hc, request, hmem, .segment hd hposted (sentBack_of_posted ?_ hposted)⟩
    rcases dispatch_cases hd with ⟨e, he⟩ | hbad | ⟨hdr', -, hans⟩
    · cases he
    · cases hbad
    · rcases answer_cases hans with hig | ⟨hproto, seg', hseg⟩ | ⟨reply, heq, -⟩
      · cases hig
      · cases hseg
        exact hproto
      · cases heq
  · exact ⟨c, hc, request, hmem, reflects_of_reply hd⟩

/-- A ping, a SYN, and a timer that sends the SYN-ACK again. -/
def traffic : List (Cycle Rat) :=
  [⟨.stored, some oddPing, ⟨1#64, 0#32, 0#32⟩⟩,
    ⟨.stored, some (buildPacket visitor.remoteEnd visitor.localEnd 5#32 0#32 SYN 1024#16 [] []),
    ⟨2#64, 700#32, 0#32⟩⟩,
    ⟨.stored, none, ⟨5000#64, 0#32, 0#32⟩⟩]

theorem traffic_is_answered : ∃ m sent, (start 7#64).cycles traffic = .ok (m, sent) ∧ sent.length = 3 ∧
    ∀ p ∈ sent, ∃ c ∈ traffic, ∃ request ∈ c.packet, Reflects request p := by
  have hlength : ((start 7#64).cycles traffic).toOption.map (fun r => r.2.length) = some 3 := by decide +kernel
  cases hrun : (start 7#64).cycles traffic with
  | error e =>
      rw [hrun] at hlength
      cases hlength
  | ok r =>
      rw [hrun] at hlength
      exact ⟨r.1, r.2, rfl, Option.some.inj hlength, device_only_answers 7#64 traffic hrun⟩

end EventLoop
end Main
end TcpStack
