import TcpStack.Codec

/-!
# The receive path

What the event loop does with one packet from the device, up to the point
where a TCP segment is handed to its connection. Every index and slice is
checked, so the path returns exactly on the packets on which the code does not
panic.
-/
namespace TcpStack.Main
open Tcp Checked

/-- What becomes of a packet. -/
inductive Outcome where
  | skip (e : Ip.ParseError)
  | badChecksum
  | ignored
  | reply (packet : Bytes)
  | segment (hdr : Ip.Ipv4Header) (seg : Segment)
  deriving DecidableEq, Repr

/-- The match on the protocol of a packet whose header checksum verifies. -/
def answer (hdr : Ip.Ipv4Header) (packet l4 : Bytes) : Checked Outcome := do
  if hdr.protocol = 1#8 then
    match ← Icmp.parse l4 with
    | none => return .ignored
    | some i =>
        if i.typ = 8#8 then
          match ← Icmp.buildEchoReply packet hdr.headerLen with
          | none => return .ignored
          | some reply => return .reply reply
        else
          return .ignored
  else if hdr.protocol = 6#8 then
    match ← readSegment l4 with
    | none => return .ignored
    | some seg => return .segment hdr seg
  else if hdr.protocol = 17#8 then
    match ← Udp.parse l4 with
    | none => return .ignored
    | some _ =>
        match ← Udp.buildEchoReply packet hdr.headerLen with
        | none => return .ignored
        | some reply => return .reply reply
  else
    return .ignored

def dispatch (packet : Bytes) : Checked Outcome := do
  match ← Ip.parse packet with
  | .error e => return .skip e
  | .ok hdr =>
      if !Ip.verifyChecksum (← slice packet 0 hdr.headerLen) then
        return .badChecksum
      let l4 ← slice packet hdr.headerLen packet.length
      answer hdr packet l4

/-- IHL × 4, from the low nibble of the first byte. -/
def headerLen (packet : Bytes) : Nat := (packet.getD 0 0#8 &&& 0x0f#8).toNat * 4

def totalLen (packet : Bytes) : Nat := (U16.fromBeBytes (packet.getD 2 0#8) (packet.getD 3 0#8)).toNat

/-- The packets the IP parser accepts. -/
structure Accepted (packet : Bytes) : Prop where
  long : 20 ≤ packet.length
  version : packet.getD 0 0#8 >>> 4 = 4#8
  fits : headerLen packet ≤ packet.length
  total : headerLen packet ≤ totalLen packet

theorem parse_accepted {packet : Bytes} (h : Accepted packet) :
    ∃ hdr, Ip.parse packet = .ok (.ok hdr) ∧ hdr.headerLen = headerLen packet ∧
      hdr.protocol = packet.getD 9 0#8 := by
  have hlen := h.long
  have hidx : ∀ i < 20, index packet i = .ok (packet.getD i 0#8) := fun i hi => index_of_lt (by omega)
  have hfits : ¬ packet.length < (packet.getD 0 0#8 &&& 0x0f#8).toNat * 4 := Nat.not_lt.mpr h.fits
  have htotal : ¬ (U16.fromBeBytes (packet.getD 2 0#8) (packet.getD 3 0#8)).toNat <
      (packet.getD 0 0#8 &&& 0x0f#8).toNat * 4 := Nat.not_lt.mpr h.total
  unfold Ip.parse
  simp only [hidx, Nat.reduceLT, Checked.ok_bind, Checked.pure_eq, if_neg (Nat.not_lt.mpr hlen), h.version,
    bne_self_eq_false, Bool.false_eq_true, if_false, hfits, htotal]
  exact ⟨_, rfl, rfl, rfl⟩

theorem parse_rejected {packet : Bytes} (h : ¬ Accepted packet) :
    ∃ e, Ip.parse packet = .ok (.error e) := by
  unfold Ip.parse
  by_cases hlen : packet.length < 20
  · exact ⟨_, if_pos hlen⟩
  have hidx : ∀ i < 20, index packet i = .ok (packet.getD i 0#8) := fun i hi => index_of_lt (by omega)
  simp only [hidx, Nat.reduceLT, Checked.ok_bind, Checked.pure_eq, if_neg hlen]
  split_ifs with hver hfits htotal
  · exact ⟨_, rfl⟩
  · exact ⟨_, rfl⟩
  · exact ⟨_, rfl⟩
  · refine absurd ⟨Nat.le_of_not_lt hlen, ?_, Nat.le_of_not_lt hfits, Nat.le_of_not_lt htotal⟩ h
    simpa using hver

theorem writeHeaderChecksum_short {hdr : Bytes} (h : hdr.length < 12) :
    ∃ p, Ip.writeHeaderChecksum hdr = .error p := by
  unfold Ip.writeHeaderChecksum
  by_cases h10 : 10 < hdr.length
  · have h11 : ¬ 11 < (hdr.set 10 0#8).length := by
      rw [List.length_set]
      omega
    rw [store_of_lt h10, Checked.ok_bind, store, if_neg h11]
    exact ⟨_, rfl⟩
  · rw [store, if_neg h10]
    exact ⟨_, rfl⟩

theorem turnAround_eq {reply : Bytes} (h : 20 ≤ reply.length) (n : Nat) :
    ∃ swapped : Bytes, swapped.length = reply.length ∧ Ip.turnAround reply n = (do
      let header ← Ip.writeHeaderChecksum (← slice swapped 0 n)
      return header ++ swapped.drop n) := by
  unfold Ip.turnAround
  obtain ⟨src, hsrc, hsl⟩ := slice_returns (show 12 ≤ 16 by omega) (show 16 ≤ reply.length by omega)
  obtain ⟨dst, hdst, hdl⟩ := slice_returns (show 16 ≤ 20 by omega) (show 20 ≤ reply.length by omega)
  obtain ⟨r₁, h₁, hl₁⟩ := copyFromSlice_returns (show 12 ≤ 16 by omega)
    (show 16 ≤ reply.length by omega) hdl
  obtain ⟨r₂, h₂, hl₂⟩ := copyFromSlice_returns (show 16 ≤ 20 by omega)
    (show 20 ≤ r₁.length by omega) hsl
  obtain ⟨r₃, h₃, hl₃⟩ := store_returns (show 8 < r₂.length by omega) 64#8
  refine ⟨r₃, by omega, ?_⟩
  rw [hsrc, Checked.ok_bind, hdst, Checked.ok_bind, h₁, Checked.ok_bind, h₂, Checked.ok_bind, h₃, Checked.ok_bind]

theorem turnAround_returns {reply : Bytes} {n : Nat} (h : 20 ≤ reply.length) (hn : 12 ≤ n)
    (hle : n ≤ reply.length) : (Ip.turnAround reply n).Returns fun r => r.length = reply.length := by
  obtain ⟨swapped, hlen, heq⟩ := turnAround_eq h n
  rw [heq]
  refine (slice_returns (Nat.zero_le n) (by omega)).bind fun head hhead => ?_
  obtain ⟨hdr, hhdr, hl⟩ := writeHeaderChecksum_ok head (by omega)
  rw [hhdr, Checked.ok_bind]
  refine .pure ?_
  rw [List.length_append, List.length_drop]
  omega

theorem turnAround_short {reply : Bytes} {n : Nat} (h : 20 ≤ reply.length) (hn : n < 12) :
    ∃ p, Ip.turnAround reply n = .error p := by
  obtain ⟨swapped, hlen, heq⟩ := turnAround_eq h n
  obtain ⟨head, hslice, hhead⟩ := slice_returns (Nat.zero_le n) (show n ≤ swapped.length by omega)
  obtain ⟨p, hp⟩ := writeHeaderChecksum_short (show head.length < 12 by omega)
  rw [heq, hslice, Checked.ok_bind, hp]
  exact ⟨p, rfl⟩

theorem icmp_reply_returns {request : Bytes} {n : Nat} (h : 20 ≤ request.length) (hn : 12 ≤ n) :
    (Icmp.buildEchoReply request n).Returns fun _ => True := by
  unfold Icmp.buildEchoReply
  split
  · exact .pure trivial
  rename_i hlong
  refine (index_returns (by omega)).bind fun typ _ => ?_
  split
  · exact .pure trivial
  refine (turnAround_returns h hn (by omega)).bind fun r₀ h₀ => ?_
  refine (store_returns (by omega) _).bind fun r₁ h₁ => ?_
  refine (store_returns (by omega) _).bind fun r₂ h₂ => ?_
  refine (store_returns (by omega) _).bind fun r₃ h₃ => ?_
  refine (slice_returns (by omega) (by omega)).bind fun body _ => ?_
  refine (store_returns (by omega) _).bind fun r₄ h₄ => ?_
  exact (store_returns (by omega) _).bind fun r₅ h₅ => .pure trivial

theorem udp_reply_returns {request : Bytes} {n : Nat} (h : 20 ≤ request.length) (hn : 12 ≤ n) :
    (Udp.buildEchoReply request n).Returns fun _ => True := by
  unfold Udp.buildEchoReply
  split
  · exact .pure trivial
  rename_i hlong
  refine (turnAround_returns h hn (by omega)).bind fun r₀ h₀ => ?_
  refine (slice_returns (by omega) (by omega)).bind fun sp hsp => ?_
  refine (slice_returns (by omega) (by omega)).bind fun dp hdp => ?_
  refine (copyFromSlice_returns (by omega) (by omega) (by omega)).bind fun r₁ h₁ => ?_
  refine (copyFromSlice_returns (by omega) (by omega) (by omega)).bind fun r₂ h₂ => ?_
  have hidx : ∀ i < 20, index r₂ i = .ok (r₂.getD i 0#8) := fun i hi => index_of_lt (by omega)
  simp only [hidx, Nat.reduceLT, Checked.ok_bind]
  refine (store_returns (by omega) _).bind fun r₃ h₃ => ?_
  refine (store_returns (by omega) _).bind fun r₄ h₄ => ?_
  refine (slice_returns (by omega) (by omega)).bind fun body _ => ?_
  refine (copyFromSlice_returns (by omega) (by omega) ?_).bind fun r₅ h₅ => .pure trivial
  rw [U16.toBeBytes_length]
  omega

theorem icmp_parse_long {l4 : Bytes} (h : 8 ≤ l4.length) :
    ∃ i, Icmp.parse l4 = .ok (some i) ∧ i.typ = l4.getD 0 0#8 := by
  have hidx : ∀ i < 8, index l4 i = .ok (l4.getD i 0#8) := fun i hi => index_of_lt (by omega)
  unfold Icmp.parse
  simp only [if_neg (Nat.not_lt.mpr h), hidx, Nat.reduceLT, Checked.ok_bind, Checked.pure_eq]
  exact ⟨_, rfl, rfl⟩

theorem udp_parse_long {l4 : Bytes} (h : 8 ≤ l4.length) : ∃ u, Udp.parse l4 = .ok (some u) := by
  have hidx : ∀ i < 8, index l4 i = .ok (l4.getD i 0#8) := fun i hi => index_of_lt (by omega)
  unfold Udp.parse
  simp only [if_neg (Nat.not_lt.mpr h), hidx, Nat.reduceLT, Checked.ok_bind, Checked.pure_eq]
  exact ⟨_, rfl⟩

theorem readU32_returns {b : Bytes} {i : Nat} (h : i + 4 ≤ b.length) : (readU32 b i).Returns fun _ => True := by
  unfold readU32
  simp only [index_of_lt (show i < b.length by omega), index_of_lt (show i + 1 < b.length by omega),
    index_of_lt (show i + 2 < b.length by omega), index_of_lt (show i + 3 < b.length by omega), Checked.ok_bind]
  exact .pure trivial

theorem readU16_returns {b : Bytes} {i : Nat} (h : i + 2 ≤ b.length) : (readU16 b i).Returns fun _ => True := by
  unfold readU16
  simp only [index_of_lt (show i < b.length by omega), index_of_lt (show i + 1 < b.length by omega),
    Checked.ok_bind]
  exact .pure trivial

theorem readBlocks_returns {data : Bytes} (todo : Nat) : ∀ (k : Nat) (blocks : List (U32 × U32)),
    (k + todo) * 8 ≤ data.length → (readBlocks data todo k blocks).Returns fun _ => True := by
  induction todo with
  | zero => exact fun k blocks _ => .pure trivial
  | succ todo ih =>
      intro k blocks h
      unfold readBlocks
      refine (slice_returns (by omega) (by omega)).bind fun b hb => ?_
      refine (readU32_returns (by omega)).bind fun left _ => ?_
      refine (readU32_returns (by omega)).bind fun right _ => ?_
      exact ih _ _ (by omega)

theorem readOption_returns (kind : U8) (data : Bytes) (out : TcpOptions) :
    (readOption kind data out).Returns fun _ => True := by
  unfold readOption
  split_ifs with hmss hts hws hperm hsack
  · exact (readU16_returns (by omega)).bind fun _ _ => .pure trivial
  · refine (readU32_returns (by omega)).bind fun _ _ => ?_
    exact (readU32_returns (by omega)).bind fun _ _ => .pure trivial
  · exact (index_returns (by omega)).bind fun _ _ => .pure trivial
  · exact .pure trivial
  · refine (readBlocks_returns _ 0 _ ?_).bind fun _ _ => .pure trivial
    omega
  · exact .pure trivial

theorem parseOptionsLoop_returns (fuel : Nat) : ∀ (rest : Bytes) (out : TcpOptions),
    (parseOptionsLoop fuel rest out).Returns fun _ => True := by
  induction fuel with
  | zero => exact fun rest out => .pure trivial
  | succ fuel ih =>
      intro rest out
      unfold parseOptionsLoop
      split
      · exact .pure trivial
      rename_i hne
      have hpos : 0 < rest.length := List.length_pos_iff.mpr (by simpa using hne)
      refine (index_returns hpos).bind fun kind _ => ?_
      split
      · exact .pure trivial
      split
      · exact ih _ _
      split
      · exact .pure trivial
      rename_i hone
      refine (index_returns (by omega)).bind fun len _ => ?_
      dsimp only
      split
      · exact .pure trivial
      rename_i hlen
      refine (slice_returns (by omega) (by omega)).bind fun data _ => ?_
      exact (readOption_returns kind data out).bind fun out' _ => ih _ _

theorem readSegment_returns (l4 : Bytes) : (readSegment l4).Returns fun _ => True := by
  have hparse : (Tcp.parse l4).Returns fun r => ∀ th, r = some th → 20 ≤ th.dataOffset ∧ 20 ≤ l4.length := by
    unfold Tcp.parse
    split
    · exact .pure fun th h => nomatch h
    rename_i hlen
    refine (index_returns (by omega)).bind fun b _ => ?_
    dsimp only
    split
    · exact .pure fun th h => nomatch h
    rename_i hoff
    refine (readU16_returns (by omega)).bind fun _ _ => ?_
    refine (readU16_returns (by omega)).bind fun _ _ => ?_
    refine (readU32_returns (by omega)).bind fun _ _ => ?_
    refine (readU32_returns (by omega)).bind fun _ _ => ?_
    refine (index_returns (by omega)).bind fun _ _ => ?_
    refine (readU16_returns (by omega)).bind fun _ _ => .pure ?_
    rintro th ⟨⟩
    exact ⟨by dsimp only; omega, by omega⟩
  unfold readSegment
  refine hparse.bind fun r hr => ?_
  cases r with
  | none => exact .pure trivial
  | some th =>
      obtain ⟨hoff, hlen⟩ := hr th rfl
      refine (slice_returns (by omega) (by omega)).bind fun payload _ => ?_
      refine (slice_returns (by omega) (by omega)).bind fun opts _ => ?_
      exact (parseOptionsLoop_returns _ opts {}).bind fun _ _ => .pure trivial

/-- A header of one or two words whose checksum happens to verify, on a packet
that is answered in place. -/
structure ShortHeader (packet : Bytes) : Prop where
  long : 20 ≤ packet.length
  version : packet.getD 0 0#8 >>> 4 = 4#8
  words : headerLen packet = 4 ∨ headerLen packet = 8
  total : headerLen packet ≤ totalLen packet
  checksum : Ip.verifyChecksum (packet.take (headerLen packet)) = true
  echoed : packet.getD 9 0#8 = 17#8 ∨ (packet.getD 9 0#8 = 1#8 ∧ packet.getD (headerLen packet) 0#8 = 8#8)

theorem ShortHeader.accepted {packet : Bytes} (h : ShortHeader packet) : Accepted packet := by
  have hlong := h.long
  have hwords := h.words
  exact ⟨h.long, h.version, by omega, h.total⟩

theorem dispatch_accepted {packet : Bytes} (h : Accepted packet) :
    ∃ hdr : Ip.Ipv4Header, hdr.headerLen = headerLen packet ∧ hdr.protocol = packet.getD 9 0#8 ∧
      dispatch packet = if Ip.verifyChecksum (packet.take (headerLen packet)) then
        answer hdr packet (packet.drop (headerLen packet)) else .ok .badChecksum := by
  obtain ⟨hdr, hparse, hlen, hproto⟩ := parse_accepted h
  refine ⟨hdr, hlen, hproto, ?_⟩
  have hhead : slice packet 0 hdr.headerLen = .ok (packet.take (headerLen packet)) := by
    rw [hlen, slice_of_le (Nat.zero_le _) h.fits, List.drop_zero]
  have hl4 : slice packet hdr.headerLen packet.length = .ok (packet.drop (headerLen packet)) := by
    rw [hlen, slice_of_le h.fits (Nat.le_refl _), List.take_length]
  unfold dispatch
  rw [hparse, Checked.ok_bind]
  dsimp only
  rw [hhead, Checked.ok_bind]
  cases hv : Ip.verifyChecksum (packet.take (headerLen packet)) with
  | false => rfl
  | true =>
      simp only [Bool.not_true, Bool.false_eq_true, if_false, if_true, hl4, Checked.ok_bind]

theorem answer_returns {hdr : Ip.Ipv4Header} {packet : Bytes} (hlong : 20 ≤ packet.length)
    (h : 12 ≤ hdr.headerLen ∨ (hdr.protocol ≠ 17#8 ∧
      (hdr.protocol = 1#8 → (packet.drop hdr.headerLen).getD 0 0#8 ≠ 8#8))) :
    (answer hdr packet (packet.drop hdr.headerLen)).Returns fun _ => True := by
  by_cases hl4 : 8 ≤ (packet.drop hdr.headerLen).length
  · unfold answer
    split
    · rename_i hicmp
      obtain ⟨i, hsome, htyp⟩ := icmp_parse_long hl4
      rw [hsome, Checked.ok_bind]
      dsimp only
      split
      · rename_i hecho
        rcases h with h12 | ⟨-, hno⟩
        · refine (icmp_reply_returns hlong h12).bind fun r _ => ?_
          cases r <;> exact .pure trivial
        · exact absurd (htyp.symm.trans hecho) (hno hicmp)
      · exact .pure trivial
    split
    · refine (readSegment_returns _).bind fun r _ => ?_
      cases r <;> exact .pure trivial
    split
    · rename_i hudp
      obtain ⟨u, hsome⟩ := udp_parse_long hl4
      rw [hsome, Checked.ok_bind]
      rcases h with h12 | ⟨hno, -⟩
      · refine (udp_reply_returns hlong h12).bind fun r _ => ?_
        cases r <;> exact .pure trivial
      · exact absurd hudp hno
    · exact .pure trivial
  · -- too short for any of the three headers
    have hicmp : Icmp.parse (packet.drop hdr.headerLen) = .ok none := if_pos (Nat.lt_of_not_le hl4)
    have hudp : Udp.parse (packet.drop hdr.headerLen) = .ok none := if_pos (Nat.lt_of_not_le hl4)
    have htcp : readSegment (packet.drop hdr.headerLen) = .ok none := by
      unfold readSegment Tcp.parse
      rw [if_pos (by omega)]
      rfl
    simp only [answer, hicmp, hudp, htcp, Checked.ok_bind]
    split_ifs <;> exact .pure trivial

theorem answer_panics {hdr : Ip.Ipv4Header} {packet : Bytes} (hlong : 20 ≤ packet.length)
    (hshort : hdr.headerLen = 4 ∨ hdr.headerLen = 8)
    (h : hdr.protocol = 17#8 ∨ (hdr.protocol = 1#8 ∧ (packet.drop hdr.headerLen).getD 0 0#8 = 8#8)) :
    ∃ p, answer hdr packet (packet.drop hdr.headerLen) = .error p := by
  have hl4 : 8 ≤ (packet.drop hdr.headerLen).length := by
    rw [List.length_drop]
    omega
  have hroom : ¬ packet.length < hdr.headerLen + 8 := by omega
  obtain ⟨p, hp⟩ := turnAround_short hlong (show hdr.headerLen < 12 by omega)
  refine ⟨p, ?_⟩
  unfold answer
  rcases h with hudp | ⟨hicmp, hecho⟩
  · obtain ⟨u, hsome⟩ := udp_parse_long hl4
    have hreply : Udp.buildEchoReply packet hdr.headerLen = .error p := by
      unfold Udp.buildEchoReply
      rw [if_neg hroom, hp]
      rfl
    rw [if_neg (by rw [hudp]; decide), if_neg (by rw [hudp]; decide), if_pos hudp, hsome, Checked.ok_bind]
    dsimp only
    rw [hreply]
    rfl
  · obtain ⟨i, hsome, htyp⟩ := icmp_parse_long hl4
    have hbyte : packet.getD hdr.headerLen 0#8 = 8#8 := by
      rw [← hecho, List.getD_eq_getElem?_getD, List.getD_eq_getElem?_getD, List.getElem?_drop, Nat.add_zero]
    have hreply : Icmp.buildEchoReply packet hdr.headerLen = .error p := by
      unfold Icmp.buildEchoReply
      rw [if_neg hroom, index_of_lt (by omega), Checked.ok_bind, hbyte, hp]
      rfl
    rw [if_pos hicmp, hsome, Checked.ok_bind]
    dsimp only
    rw [if_pos (htyp.trans hecho), hreply]
    rfl

theorem headerLen_cases {packet : Bytes}
    (hv : Ip.verifyChecksum (packet.take (headerLen packet)) = true) :
    12 ≤ headerLen packet ∨ headerLen packet = 4 ∨ headerLen packet = 8 := by
  have hne : headerLen packet ≠ 0 := by
    intro hzero
    rw [hzero, List.take_zero] at hv
    exact absurd hv (by decide)
  unfold headerLen at hne ⊢
  omega

/-- The receive path returns on exactly the packets without such a short header. -/
theorem dispatch_returns_iff (packet : Bytes) :
    (∃ out, dispatch packet = .ok out) ↔ ¬ ShortHeader packet := by
  by_cases hacc : Accepted packet
  · obtain ⟨hdr, hlen, hproto, heq⟩ := dispatch_accepted hacc
    have hbyte : (packet.drop (headerLen packet)).getD 0 0#8 = packet.getD (headerLen packet) 0#8 := by
      rw [List.getD_eq_getElem?_getD, List.getD_eq_getElem?_getD, List.getElem?_drop, Nat.add_zero]
    constructor
    · rintro ⟨out, hout⟩ hshort
      have hpanic := answer_panics hacc.long (hlen ▸ hshort.words)
        (by rw [hproto, hlen, hbyte]; exact hshort.echoed)
      obtain ⟨p, hp⟩ := hpanic
      rw [heq, if_pos hshort.checksum, ← hlen, hp] at hout
      cases hout
    · intro hno
      cases hv : Ip.verifyChecksum (packet.take (headerLen packet)) with
      | false => exact ⟨_, by rw [heq, hv, if_neg (by decide)]⟩
      | true =>
          have hret : (answer hdr packet (packet.drop hdr.headerLen)).Returns fun _ => True := by
            refine answer_returns hacc.long ?_
            rw [hproto, hlen, hbyte]
            rcases headerLen_cases hv with h12 | hwords
            · exact .inl h12
            · refine .inr ⟨fun h17 => hno ?_, fun h1 h8 => hno ?_⟩
              · exact ⟨hacc.long, hacc.version, hwords, hacc.total, hv, .inl h17⟩
              · exact ⟨hacc.long, hacc.version, hwords, hacc.total, hv, .inr ⟨h1, h8⟩⟩
          obtain ⟨out, hout, -⟩ := hret
          exact ⟨out, by rw [heq, hv, if_pos rfl, ← hlen, hout]⟩
  · obtain ⟨e, he⟩ := parse_rejected hacc
    have hskip : dispatch packet = .ok (.skip e) := by
      unfold dispatch
      rw [he]
      rfl
    exact ⟨fun _ hshort => hacc hshort.accepted, fun _ => ⟨_, hskip⟩⟩

/-- Twenty bytes with a one-word header: the UDP reply indexes byte 10 of 4. -/
theorem dispatch_panics_on_one_word_header :
    let packet : Bytes := [0x41#8, 0#8, 0xbe#8, 0xff#8, 0#8, 0#8, 0#8, 0#8, 64#8, 17#8, 0#8, 0#8,
      10#8, 0#8, 0#8, 1#8, 10#8, 0#8, 0#8, 2#8]
    packet.length ≤ 1504 ∧ dispatch packet = .error (.index 10 4) := by
  decide

end TcpStack.Main
