import TcpStack.Facade

/-!
# Where a datagram ends

The IP total length, the IP header length, the data offset and the length of
the buffer all have a say in where the payload of a segment begins and ends.
The readers take its end from the buffer alone and check no sum of their own,
so what follows the datagram becomes payload, and an altered bit is noticed
only where it breaks one of the lengths, the version or the protocol.
-/
namespace TcpStack

theorem index_append {xs : Bytes} {i : Nat} (h : i < xs.length) (ys : Bytes) : index (xs ++ ys) i = index xs i := by
  simp only [index, List.getElem?_append_left h, List.getElem?_eq_getElem h]

namespace Tcp

def dataOffset (l4 : Bytes) : Nat := (l4.getD 12 0#8 >>> 4).toNat * 4

/-- The data offset leaves a header inside the segment. -/
structure HeaderFits (l4 : Bytes) : Prop where
  least : 20 ≤ dataOffset l4
  most : dataOffset l4 ≤ l4.length

theorem HeaderFits.long {l4 : Bytes} (h : HeaderFits l4) : 20 ≤ l4.length := Nat.le_trans h.least h.most

theorem parse_fits {l4 : Bytes} (h : HeaderFits l4) :
    ∃ th, parse l4 = .ok (some th) ∧ th.dataOffset = dataOffset l4 := by
  have hlong := h.long
  obtain ⟨sp, hsp, -⟩ := Main.readU16_returns (show 0 + 2 ≤ l4.length by omega)
  obtain ⟨dp, hdp, -⟩ := Main.readU16_returns (show 2 + 2 ≤ l4.length by omega)
  obtain ⟨seq, hseq, -⟩ := Main.readU32_returns (show 4 + 4 ≤ l4.length by omega)
  obtain ⟨ack, hack, -⟩ := Main.readU32_returns (show 8 + 4 ≤ l4.length by omega)
  obtain ⟨wnd, hwnd, -⟩ := Main.readU16_returns (show 14 + 2 ≤ l4.length by omega)
  have hoff : ¬ (dataOffset l4 < 20 ∨ dataOffset l4 > l4.length) :=
    not_or.mpr ⟨Nat.not_lt.mpr h.least, Nat.not_lt.mpr h.most⟩
  unfold parse
  rw [if_neg (Nat.not_lt.mpr hlong), index_of_lt (show 12 < l4.length by omega), Checked.ok_bind]
  dsimp only
  rw [← dataOffset, if_neg hoff, hsp, hdp, hseq, hack, hwnd, index_of_lt (show 13 < l4.length by omega)]
  exact ⟨_, rfl, rfl⟩

theorem parse_misfits {l4 : Bytes} (h : ¬ HeaderFits l4) : parse l4 = .ok none := by
  unfold parse
  split
  · rfl
  rename_i hlong
  rw [index_of_lt (show 12 < l4.length by omega), Checked.ok_bind]
  dsimp only
  rw [← dataOffset, if_pos]
  · rfl
  · by_contra hno
    obtain ⟨hleast, hmost⟩ := not_or.mp hno
    exact h ⟨Nat.not_lt.mp hleast, Nat.not_lt.mp hmost⟩

theorem dataOffset_append {l4 : Bytes} (h : 20 ≤ l4.length) (t : Bytes) : dataOffset (l4 ++ t) = dataOffset l4 := by
  have hbyte : (l4 ++ t)[12]? = l4[12]? := List.getElem?_append_left (by omega)
  simp only [dataOffset, List.getD_eq_getElem?_getD, hbyte]

theorem HeaderFits.append {l4 : Bytes} (h : HeaderFits l4) (t : Bytes) : HeaderFits (l4 ++ t) := by
  have hoff := dataOffset_append h.long t
  refine ⟨by rw [hoff]; exact h.least, ?_⟩
  rw [hoff, List.length_append]
  exact Nat.le_trans h.most (Nat.le_add_right _ _)

theorem HeaderFits.parse_append {l4 : Bytes} (h : HeaderFits l4) (t : Bytes) : parse (l4 ++ t) = parse l4 := by
  have hlong := h.long
  have hlong' := (h.append t).long
  have hfront : ∀ i < 20, index (l4 ++ t) i = index l4 i := fun i hi => index_append (by omega) t
  have h16 : ∀ i < 19, readU16 (l4 ++ t) i = readU16 l4 i := by
    intro i hi
    simp only [readU16, hfront i (by omega), hfront (i + 1) (by omega)]
  have h32 : ∀ i < 17, readU32 (l4 ++ t) i = readU32 l4 i := by
    intro i hi
    simp only [readU32, hfront i (by omega), hfront (i + 1) (by omega), hfront (i + 2) (by omega),
      hfront (i + 3) (by omega)]
  have hoff : ∀ xs : Bytes, HeaderFits xs → ¬ (dataOffset xs < 20 ∨ dataOffset xs > xs.length) := fun xs hx =>
    not_or.mpr ⟨Nat.not_lt.mpr hx.least, Nat.not_lt.mpr hx.most⟩
  unfold parse
  rw [if_neg (Nat.not_lt.mpr hlong), if_neg (Nat.not_lt.mpr hlong'), hfront 12 (by omega),
    index_of_lt (show 12 < l4.length by omega), Checked.ok_bind, Checked.ok_bind]
  dsimp only
  rw [← dataOffset, if_neg (hoff l4 h), ← dataOffset_append hlong t, if_neg (hoff _ (h.append t)),
    h16 0 (by omega), h16 2 (by omega), h32 4 (by omega), h32 8 (by omega), hfront 13 (by omega), h16 14 (by omega)]

theorem readSegment_fits {l4 : Bytes} (h : HeaderFits l4) :
    ∃ th opts, parse l4 = .ok (some th) ∧ parseOptions ((l4.take (dataOffset l4)).drop 20) = .ok opts ∧
      readSegment l4 = .ok (some ⟨th, l4.drop (dataOffset l4), opts⟩) := by
  obtain ⟨th, hth, hoff⟩ := parse_fits h
  obtain ⟨opts, hopts, -⟩ := Main.parseOptionsLoop_returns ((l4.take (dataOffset l4)).drop 20).length
    ((l4.take (dataOffset l4)).drop 20) {}
  refine ⟨th, opts, hth, hopts, ?_⟩
  unfold readSegment
  rw [hth, Checked.ok_bind]
  dsimp only
  rw [hoff, Nat.min_eq_left h.most, slice_of_le h.most (Nat.le_refl _), slice_of_le h.least h.most, Checked.ok_bind,
    Checked.ok_bind, List.take_length, show parseOptions ((l4.take (dataOffset l4)).drop 20) = .ok opts from hopts]
  rfl

theorem readSegment_misfits {l4 : Bytes} (h : ¬ HeaderFits l4) : readSegment l4 = .ok none := by
  unfold readSegment
  rw [parse_misfits h]
  rfl

theorem readSegment_append {l4 : Bytes} {seg : Segment} (h : readSegment l4 = .ok (some seg)) (t : Bytes) :
    readSegment (l4 ++ t) = .ok (some { seg with payload := seg.payload ++ t }) := by
  by_cases hfits : HeaderFits l4
  swap
  · rw [readSegment_misfits hfits] at h
    cases h
  obtain ⟨th, opts, hth, hopts, hread⟩ := readSegment_fits hfits
  obtain ⟨th', opts', hth', hopts', hread'⟩ := readSegment_fits (hfits.append t)
  have hoff := dataOffset_append hfits.long t
  obtain rfl : th = th' := by
    rw [hfits.parse_append t, hth] at hth'
    exact Option.some.inj (Except.ok.inj hth')
  obtain rfl : opts = opts' := by
    rw [hoff, List.take_append_of_le_length hfits.most, hopts] at hopts'
    exact Except.ok.inj hopts'
  obtain rfl : _ = seg := Option.some.inj (Except.ok.inj (hread.symm.trans h))
  rw [hread', hoff, List.drop_append_of_le_length hfits.most]

end Tcp

namespace Main
open Tcp

theorem parse_ok_accepted {packet : Bytes} {hdr : Ip.Ipv4Header} (h : Ip.parse packet = .ok (.ok hdr)) :
    Accepted packet ∧ hdr.headerLen = headerLen packet ∧ hdr.protocol = packet.getD 9 0#8 := by
  by_cases hacc : Accepted packet
  · obtain ⟨hdr', hp, hlen, hproto⟩ := parse_accepted hacc
    obtain rfl : hdr = hdr' := Except.ok.inj (Except.ok.inj (h.symm.trans hp))
    exact ⟨hacc, hlen, hproto⟩
  · obtain ⟨e, he⟩ := parse_rejected hacc
    cases h.symm.trans he

theorem parse_append {packet : Bytes} {hdr : Ip.Ipv4Header} (h : Ip.parse packet = .ok (.ok hdr)) (t : Bytes) :
    Ip.parse (packet ++ t) = .ok (.ok hdr) := by
  obtain ⟨hacc, -, -⟩ := parse_ok_accepted h
  have hlong := hacc.long
  have hfits : ¬ packet.length < (packet.getD 0 0#8 &&& 0x0f#8).toNat * 4 := Nat.not_lt.mpr hacc.fits
  have htotal : ¬ (U16.fromBeBytes (packet.getD 2 0#8) (packet.getD 3 0#8)).toNat <
      (packet.getD 0 0#8 &&& 0x0f#8).toNat * 4 := Nat.not_lt.mpr hacc.total
  have hlen : (packet ++ t).length = packet.length + t.length := List.length_append
  have hidx : ∀ i < 20, index packet i = .ok (packet.getD i 0#8) := fun i hi => index_of_lt (by omega)
  have hidx' : ∀ i < 20, index (packet ++ t) i = .ok (packet.getD i 0#8) := fun i hi =>
    (index_append (by omega) t).trans (hidx i hi)
  rw [← h]
  unfold Ip.parse
  simp only [hidx, hidx', Nat.reduceLT, Checked.ok_bind, Checked.pure_eq, hlen, hacc.version, bne_self_eq_false,
    Bool.false_eq_true, if_false, htotal, hfits]
  rw [if_neg (by omega), if_neg (by omega), if_neg (by omega)]

theorem answer_segment_iff {hdr hdr' : Ip.Ipv4Header} {packet l4 : Bytes} {seg : Segment} :
    answer hdr packet l4 = .ok (.segment hdr' seg) ↔
      hdr.protocol = 6#8 ∧ hdr = hdr' ∧ readSegment l4 = .ok (some seg) := by
  unfold answer
  by_cases htcp : hdr.protocol = 6#8
  · rw [if_neg (by rw [htcp]; decide), if_pos htcp]
    cases readSegment l4 with
    | error e =>
        constructor
        · intro h
          cases h
        · rintro ⟨-, -, h⟩
          cases h
    | ok r => cases r <;> simp [htcp]
  · -- the other arms answer in place or not at all
    rw [if_neg htcp]
    refine iff_of_false (fun h => ?_) (fun h => htcp h.1)
    split_ifs at h
    · cases hi : Icmp.parse l4 with
      | error e => simp [hi, bind, Except.bind] at h
      | ok r =>
          rw [hi, Checked.ok_bind] at h
          cases r with
          | none => cases h
          | some i =>
              dsimp only at h
              split_ifs at h
              · cases hr : Icmp.buildEchoReply packet hdr.headerLen with
                | error e => simp [hr, bind, Except.bind] at h
                | ok reply =>
                    rw [hr, Checked.ok_bind] at h
                    cases reply <;> cases h
              · cases h
    · cases hu : Udp.parse l4 with
      | error e => simp [hu, bind, Except.bind] at h
      | ok r =>
          rw [hu, Checked.ok_bind] at h
          cases r with
          | none => cases h
          | some u =>
              dsimp only at h
              cases hr : Udp.buildEchoReply packet hdr.headerLen with
              | error e => simp [hr, bind, Except.bind] at h
              | ok reply =>
                  rw [hr, Checked.ok_bind] at h
                  cases reply <;> cases h
    · cases h

/-- A segment comes out of the event loop's reader when the header verifies and the
protocol is TCP. -/
theorem dispatch_segment_iff {packet : Bytes} {hdr : Ip.Ipv4Header} {seg : Segment} :
    dispatch packet = .ok (.segment hdr seg) ↔
      Ip.parse packet = .ok (.ok hdr) ∧ Ip.verifyChecksum (packet.take hdr.headerLen) = true ∧ hdr.protocol = 6#8 ∧
        readSegment (packet.drop hdr.headerLen) = .ok (some seg) := by
  by_cases hacc : Accepted packet
  swap
  · obtain ⟨e, he⟩ := parse_rejected hacc
    have hskip : dispatch packet = .ok (.skip e) := by
      unfold dispatch
      rw [he]
      rfl
    rw [hskip, he]
    constructor
    · intro h
      cases h
    · rintro ⟨h, -⟩
      cases h
  obtain ⟨hdr', hp, hlen, hproto⟩ := parse_accepted hacc
  have hhead : slice packet 0 hdr'.headerLen = .ok (packet.take hdr'.headerLen) := by
    rw [hlen, slice_of_le (Nat.zero_le _) hacc.fits, List.drop_zero]
  have hl4 : slice packet hdr'.headerLen packet.length = .ok (packet.drop hdr'.headerLen) := by
    rw [hlen, slice_of_le hacc.fits (Nat.le_refl _), List.take_length]
  have heq : dispatch packet = if Ip.verifyChecksum (packet.take hdr'.headerLen) then
      answer hdr' packet (packet.drop hdr'.headerLen) else .ok .badChecksum := by
    unfold dispatch
    rw [hp, Checked.ok_bind]
    dsimp only
    rw [hhead, Checked.ok_bind, hl4]
    cases Ip.verifyChecksum (packet.take hdr'.headerLen) <;> rfl
  rw [heq, hp]
  constructor
  · intro h
    split_ifs at h with hv
    · obtain ⟨htcp, rfl, hread⟩ := answer_segment_iff.mp h
      exact ⟨rfl, hv, htcp, hread⟩
    · cases h
  · rintro ⟨hsame, hv, htcp, hread⟩
    obtain rfl : hdr' = hdr := Except.ok.inj (Except.ok.inj hsame)
    rw [if_pos hv]
    exact answer_segment_iff.mpr ⟨htcp, rfl, hread⟩

theorem dispatch_append {packet : Bytes} {hdr : Ip.Ipv4Header} {seg : Segment}
    (h : dispatch packet = .ok (.segment hdr seg)) (t : Bytes) :
    dispatch (packet ++ t) = .ok (.segment hdr { seg with payload := seg.payload ++ t }) := by
  obtain ⟨hp, hv, htcp, hread⟩ := dispatch_segment_iff.mp h
  obtain ⟨hacc, hlen, -⟩ := parse_ok_accepted hp
  have hfits : hdr.headerLen ≤ packet.length := hlen ▸ hacc.fits
  refine dispatch_segment_iff.mpr ⟨parse_append hp t, ?_, htcp, ?_⟩
  · rw [List.take_append_of_le_length hfits]
    exact hv
  · rw [List.drop_append_of_le_length hfits]
    exact readSegment_append hread t

end Main

namespace Socket
open Tcp Main

theorem parseFor_eq (quad : Quad) (packet : Bytes) :
    parseFor quad packet =
      (parseAny packet).map (fun r => (r.filter (fun x => decide (x.1 = quad))).map Prod.snd) := by
  unfold parseFor parseAny
  cases Ip.parse packet with
  | error e => rfl
  | ok r =>
      cases r with
      | error e => rfl
      | ok iph =>
          rw [Checked.ok_bind, Checked.ok_bind]
          dsimp only
          by_cases htcp : iph.protocol = 6#8
          swap
          · rw [if_pos htcp, if_pos htcp]
            rfl
          rw [if_neg (not_not.mpr htcp), if_neg (not_not.mpr htcp)]
          cases slice packet iph.headerLen packet.length with
          | error e => rfl
          | ok l4 =>
              rw [Checked.ok_bind, Checked.ok_bind]
              cases readSegment l4 with
              | error e => rfl
              | ok r =>
                  cases r with
                  | none => rfl
                  | some seg =>
                      rw [Checked.ok_bind, Checked.ok_bind]
                      dsimp only
                      by_cases hq : quadOf iph seg.th = quad
                      · rw [if_neg (not_not.mpr hq)]
                        simp [Except.map, hq]
                      · rw [if_pos hq]
                        simp [Except.map, hq]

theorem parseAny_accepted {packet : Bytes} {hdr : Ip.Ipv4Header} (hp : Ip.parse packet = .ok (.ok hdr)) :
    parseAny packet = if packet.getD 9 0#8 = 6#8 then
      (readSegment (packet.drop (headerLen packet))).map (Option.map (fun seg => (quadOf hdr seg.th, seg)))
    else .ok none := by
  obtain ⟨hacc, hlen, hproto⟩ := parse_ok_accepted hp
  unfold parseAny
  rw [hp, Checked.ok_bind]
  dsimp only
  rw [hproto, hlen, slice_of_le hacc.fits (Nat.le_refl _), List.take_length, Checked.ok_bind]
  by_cases htcp : packet.getD 9 0#8 = 6#8
  · rw [if_neg (not_not.mpr htcp), if_pos htcp]
    cases readSegment (packet.drop (headerLen packet)) with
    | error e => rfl
    | ok r => cases r <;> rfl
  · rw [if_pos htcp, if_neg htcp]
    rfl

theorem parseAny_append {packet : Bytes} {quad : Quad} {seg : Segment} (h : parseAny packet = .ok (some (quad, seg)))
    (t : Bytes) : parseAny (packet ++ t) = .ok (some (quad, { seg with payload := seg.payload ++ t })) := by
  cases hp : Ip.parse packet with
  | error e => simp [parseAny, hp, bind, Except.bind] at h
  | ok r =>
      cases r with
      | error e => simp [parseAny, hp] at h
      | ok hdr =>
          obtain ⟨hacc, -, -⟩ := parse_ok_accepted hp
          obtain ⟨hacc', hlen', -⟩ := parse_ok_accepted (parse_append hp t)
          obtain ⟨-, hlen, -⟩ := parse_ok_accepted hp
          have hlong := hacc.long
          have hbyte : (packet ++ t).getD 9 0#8 = packet.getD 9 0#8 := by
            rw [List.getD_eq_getElem?_getD, List.getElem?_append_left (by omega), ← List.getD_eq_getElem?_getD]
          rw [parseAny_accepted hp] at h
          rw [parseAny_accepted (parse_append hp t), hbyte, ← hlen', hlen, List.drop_append_of_le_length hacc.fits]
          split_ifs at h ⊢ with htcp
          · cases hr : readSegment (packet.drop (headerLen packet)) with
            | error e => simp [hr, Except.map] at h
            | ok r =>
                cases r with
                | none => simp [hr, Except.map] at h
                | some seg' =>
                    simp only [hr, Except.map, Option.map_some, Except.ok.injEq, Option.some.injEq,
                      Prod.mk.injEq] at h
                    obtain ⟨rfl, rfl⟩ := h
                    rw [readSegment_append hr t]
                    rfl
          · cases h

theorem parseFor_append {quad : Quad} {packet : Bytes} {seg : Segment} (h : parseFor quad packet = .ok (some seg))
    (t : Bytes) : parseFor quad (packet ++ t) = .ok (some { seg with payload := seg.payload ++ t }) := by
  rw [parseFor_eq] at h ⊢
  cases hany : parseAny packet with
  | error e => simp [hany, Except.map] at h
  | ok r =>
      cases r with
      | none => simp [hany, Except.map] at h
      | some x =>
          obtain ⟨q, seg'⟩ := x
          rw [hany] at h
          simp only [Except.map, Option.filter_some, decide_eq_true_eq, Except.ok.injEq] at h
          split_ifs at h with hq
          · obtain rfl : seg' = seg := Option.some.inj h
            rw [parseAny_append hany t]
            simp [Except.map, hq]
          · cases h

theorem longer_iff (seg : Segment) (t : Bytes) : { seg with payload := seg.payload ++ t } = seg ↔ t = [] := by
  constructor
  · intro h
    exact List.append_right_eq_self.mp (congrArg Segment.payload h)
  · rintro rfl
    rw [List.append_nil]

/-- On all three receive paths the bytes behind an accepted datagram change what is
read, unless there are none. -/
theorem trailing_bytes_ignored_iff (d t : Bytes) :
    (∀ r, parseAny d = .ok (some r) → (parseAny (d ++ t) = parseAny d ↔ t = [])) ∧
    (∀ quad seg, parseFor quad d = .ok (some seg) → (parseFor quad (d ++ t) = parseFor quad d ↔ t = [])) ∧
    ∀ hdr seg, dispatch d = .ok (.segment hdr seg) → (dispatch (d ++ t) = dispatch d ↔ t = []) := by
  refine ⟨fun r h => ?_, fun quad seg h => ?_, fun hdr seg h => ?_⟩
  · rw [parseAny_append h t, h, Except.ok.injEq, Option.some.injEq, ← longer_iff r.2 t, Prod.ext_iff]
    exact and_iff_right rfl
  · rw [parseFor_append h t, h, Except.ok.injEq, Option.some.injEq, longer_iff]
  · rw [dispatch_append h t, h, Except.ok.injEq, Outcome.segment.injEq, longer_iff]
    exact and_iff_right rfl

/-- An ACK without options or payload. -/
def bareDatagram : Bytes :=
  buildPacket (Ipv4Addr.new 10#8 0#8 0#8 1#8, 4000#16)
    (Ipv4Addr.new 10#8 0#8 0#8 2#8, 80#16) 5#32 9#32 ACK 1024#16 [] []

def bareSegment (payload : Bytes) : Segment := ⟨⟨4000#16, 80#16, 5#32, 9#32, 20, ACK, 1024#16⟩, payload, {}⟩

def bareQuad : Quad := ⟨(Ipv4Addr.new 10#8 0#8 0#8 1#8, 4000#16), (Ipv4Addr.new 10#8 0#8 0#8 2#8, 80#16)⟩

theorem bareDatagram_read : parseAny bareDatagram = .ok (some (bareQuad, bareSegment [])) ∧
    parseFor bareQuad bareDatagram = .ok (some (bareSegment [])) ∧
    dispatch bareDatagram =
      .ok (.segment ⟨4#8, 20, 40, 64#8, 6#8, bareQuad.remoteEnd.1, bareQuad.localEnd.1⟩ (bareSegment [])) := by
  decide +kernel

/-- Nothing follows the datagram. -/
theorem unpadded_datagram_reads_the_same :
    parseAny (bareDatagram ++ []) = parseAny bareDatagram ∧
      parseFor bareQuad (bareDatagram ++ []) = parseFor bareQuad bareDatagram ∧
      dispatch (bareDatagram ++ []) = dispatch bareDatagram := by
  obtain ⟨hany, hfor, hloop⟩ := trailing_bytes_ignored_iff bareDatagram []
  obtain ⟨h₁, h₂, h₃⟩ := bareDatagram_read
  exact ⟨(hany _ h₁).mpr rfl, (hfor bareQuad _ h₂).mpr rfl, (hloop _ _ h₃).mpr rfl⟩

/-- A datagram of 40 bytes in a frame that holds at least 46: its padding is read as
six bytes of payload. -/
theorem padding_becomes_payload :
    bareDatagram.length = 40 ∧ totalLen bareDatagram = 40 ∧
      let padded := bareDatagram ++ List.replicate 6 0#8
      parseAny padded = .ok (some (bareQuad, bareSegment (List.replicate 6 0#8))) ∧
      parseFor bareQuad padded = .ok (some (bareSegment (List.replicate 6 0#8))) ∧
      dispatch padded = .ok (.segment ⟨4#8, 20, 40, 64#8, 6#8, bareQuad.remoteEnd.1, bareQuad.localEnd.1⟩
        (bareSegment (List.replicate 6 0#8))) := by
  obtain ⟨h₁, h₂, h₃⟩ := bareDatagram_read
  exact ⟨by decide +kernel, by decide +kernel, parseAny_append h₁ _, parseFor_append h₂ _, dispatch_append h₃ _⟩

/-- The datagrams in which the façade finds a segment. -/
structure Readable (packet : Bytes) : Prop extends Accepted packet where
  protocol : packet.getD 9 0#8 = 6#8
  header : HeaderFits (packet.drop (headerLen packet))

theorem parseAny_none_iff (packet : Bytes) : parseAny packet = .ok none ↔ ¬ Readable packet := by
  by_cases hacc : Accepted packet
  · obtain ⟨hdr, hp, -⟩ := parse_accepted hacc
    rw [parseAny_accepted hp]
    by_cases htcp : packet.getD 9 0#8 = 6#8
    · rw [if_pos htcp]
      by_cases hfits : HeaderFits (packet.drop (headerLen packet))
      · obtain ⟨th, opts, -, -, hread⟩ := readSegment_fits hfits
        rw [hread]
        exact iff_of_false (fun h => nomatch h) (not_not.mpr ⟨hacc, htcp, hfits⟩)
      · rw [readSegment_misfits hfits]
        exact iff_of_true rfl (fun h => hfits h.header)
    · rw [if_neg htcp]
      exact iff_of_true rfl (fun h => htcp h.protocol)
  · obtain ⟨e, he⟩ := parse_rejected hacc
    have hnone : parseAny packet = .ok none := by
      unfold parseAny
      rw [he]
      rfl
    exact iff_of_true hnone (fun h => hacc h.toAccepted)

theorem unread_iff (packet : Bytes) :
    (parseAny packet = .ok none ∧ ∀ quad, parseFor quad packet = .ok none) ↔ ¬ Readable packet := by
  rw [← parseAny_none_iff]
  refine and_iff_left_of_imp fun h quad => ?_
  rw [parseFor_eq, h]
  rfl

/-- One bit of one byte is altered. -/
def flipBit (packet : Bytes) (i b : Nat) : Bytes := packet.set i (packet.getD i 0#8 ^^^ (1#8 <<< b))

theorem flipBit_length (packet : Bytes) (i b : Nat) : (flipBit packet i b).length = packet.length := List.length_set

theorem flipBit_same {packet : Bytes} {i : Nat} (hi : i < packet.length) (b : Nat) :
    (flipBit packet i b).getD i 0#8 = packet.getD i 0#8 ^^^ (1#8 <<< b) := by
  rw [flipBit, List.getD_eq_getElem?_getD, List.getElem?_set_self hi, Option.getD_some]

theorem flipBit_other (packet : Bytes) {i j : Nat} (hne : i ≠ j) (b : Nat) :
    (flipBit packet i b).getD j 0#8 = packet.getD j 0#8 := by
  rw [flipBit, List.getD_eq_getElem?_getD, List.getElem?_set_ne hne, ← List.getD_eq_getElem?_getD]

theorem getD_drop (packet : Bytes) (n i : Nat) : (packet.drop n).getD i 0#8 = packet.getD (n + i) 0#8 := by
  rw [List.getD_eq_getElem?_getD, List.getElem?_drop, ← List.getD_eq_getElem?_getD]

theorem offset_flip (x : U8) {b : Nat} (hb : b < 8) :
    ((x ^^^ (1#8 <<< b)) >>> 4).toNat * 4 =
    if b < 4 then (x >>> 4).toNat * 4 else (x >>> 4).toNat * 4 ^^^ 2 ^ (b - 2) := by
  have hall : ∀ (b : Fin 8) (x : U8), ((x ^^^ (1#8 <<< (b : Nat))) >>> 4).toNat * 4 =
      if (b : Nat) < 4 then (x >>> 4).toNat * 4 else (x >>> 4).toNat * 4 ^^^ 2 ^ ((b : Nat) - 2) := by
    decide +kernel
  exact hall ⟨b, hb⟩ x

theorem total_flip_high (x y : U8) {b : Nat} (hb : b < 8) :
    (U16.fromBeBytes (x ^^^ (1#8 <<< b)) y).toNat = (U16.fromBeBytes x y).toNat ^^^ 2 ^ (8 + b) := by
  have hmask : ∀ b : Fin 8, (U16.fromBeBytes (1#8 <<< (b : Nat)) 0#8).toNat = 2 ^ (8 + (b : Nat)) := by decide
  have hxor : U16.fromBeBytes (x ^^^ (1#8 <<< b)) y = U16.fromBeBytes x y ^^^ U16.fromBeBytes (1#8 <<< b) 0#8 := by
    rw [U16.fromBeBytes, U16.fromBeBytes, U16.fromBeBytes, BitVec.xor_append, BitVec.xor_zero]
  rw [hxor, BitVec.toNat_xor, hmask ⟨b, hb⟩]

theorem total_flip_low (x y : U8) {b : Nat} (hb : b < 8) :
    (U16.fromBeBytes x (y ^^^ (1#8 <<< b))).toNat = (U16.fromBeBytes x y).toNat ^^^ 2 ^ b := by
  have hmask : ∀ b : Fin 8, (U16.fromBeBytes 0#8 (1#8 <<< (b : Nat))).toNat = 2 ^ (b : Nat) := by decide
  have hxor : U16.fromBeBytes x (y ^^^ (1#8 <<< b)) = U16.fromBeBytes x y ^^^ U16.fromBeBytes 0#8 (1#8 <<< b) := by
    rw [U16.fromBeBytes, U16.fromBeBytes, U16.fromBeBytes, BitVec.xor_append, BitVec.xor_zero]
  rw [hxor, BitVec.toNat_xor, hmask ⟨b, hb⟩]

/-- The bytes of a built packet that decide how it is read. -/
structure Framed (packet : Bytes) (options : Nat) : Prop where
  first : packet.getD 0 0#8 = 0x45#8
  total : totalLen packet = packet.length
  protocol : packet.getD 9 0#8 = 6#8
  offset : (packet.getD 32 0#8 >>> 4).toNat * 4 = 20 + options
  long : 40 + options ≤ packet.length

theorem buildPacket_framed (src dst : Endpoint) (seq ack : U32) (flags : U8) (window : U16) {options payload : Bytes}
    (h4 : options.length % 4 = 0) (h40 : options.length ≤ 40) (hlen : 40 + options.length + payload.length ≤ 65535) :
    Framed (buildPacket src dst seq ack flags window options payload) options.length := by
  have htotal := buildPacket_length src dst seq ack flags window options payload
  rw [buildPacket_split] at htotal ⊢
  have hn : totalLen (Ip.sentHeader src.1 dst.1 (20 + (20 + options.length + payload.length)) ++
      tcpSegment src.2 dst.2 seq ack flags window (tcpChecksum src.1 dst.1
        (tcpSegment src.2 dst.2 seq ack flags window 0#16 options payload)) options payload) =
      20 + (20 + options.length + payload.length) := by
    refine (congrArg BitVec.toNat (U16.fromBeBytes_toBeBytes _)).trans ?_
    rw [BitVec.toNat_ofNat, Nat.mod_eq_of_lt (by omega)]
  refine ⟨rfl, ?_, rfl, ?_, ?_⟩
  · rw [hn, htotal]
    omega
  · exact dataOffset_nibble h4 h40
  · omega

/-- The altered bits that break the version, the protocol or one of the lengths. -/
inductive Noticed (packet : Bytes) (options : Nat) : Nat → Nat → Prop where
  | version {b : Nat} (high : 4 ≤ b) : Noticed packet options 0 b
  | headerLen {b : Nat} (low : b < 4) (misfits : ¬ HeaderFits (packet.drop (20 ^^^ 2 ^ (b + 2)))) :
      Noticed packet options 0 b
  | totalHigh {b : Nat} (short : packet.length ^^^ 2 ^ (8 + b) < 20) : Noticed packet options 2 b
  | totalLow {b : Nat} (short : packet.length ^^^ 2 ^ b < 20) : Noticed packet options 3 b
  | protocol {b : Nat} : Noticed packet options 9 b
  | offset {b : Nat} (high : 4 ≤ b)
      (misfits : (20 + options) ^^^ 2 ^ (b - 2) < 20 ∨ packet.length - 20 < (20 + options) ^^^ 2 ^ (b - 2)) :
      Noticed packet options 32 b

theorem readable_iff {packet : Bytes} (hfirst : packet.getD 0 0#8 = 0x45#8) (hlong : 40 ≤ packet.length) :
    Readable packet ↔ 20 ≤ totalLen packet ∧ packet.getD 9 0#8 = 6#8 ∧
      20 ≤ (packet.getD 32 0#8 >>> 4).toNat * 4 ∧ (packet.getD 32 0#8 >>> 4).toNat * 4 ≤ packet.length - 20 := by
  have hheader : headerLen packet = 20 := by
    rw [headerLen, hfirst]
    decide
  have hversion : packet.getD 0 0#8 >>> 4 = 4#8 := by
    rw [hfirst]
    decide
  have hoff : dataOffset (packet.drop 20) = (packet.getD 32 0#8 >>> 4).toNat * 4 := by rw [dataOffset, getD_drop]
  constructor
  · intro h
    have htotal := h.total
    have hfits := h.header
    rw [hheader] at htotal hfits
    refine ⟨htotal, h.protocol, ?_, ?_⟩
    · rw [← hoff]
      exact hfits.least
    · rw [← hoff, ← List.length_drop]
      exact hfits.most
  · rintro ⟨htotal, hprotocol, hleast, hmost⟩
    refine ⟨⟨by omega, hversion, by omega, by omega⟩, hprotocol, ?_⟩
    rw [hheader]
    refine ⟨?_, ?_⟩
    · rw [hoff]
      exact hleast
    · rw [hoff, List.length_drop]
      exact hmost

theorem Framed.first_flip {packet : Bytes} {options : Nat} (h : Framed packet options) {b : Nat} (hb : b < 8) :
    ¬ Readable (flipBit packet 0 b) ↔ Noticed packet options 0 b := by
  have hlong := h.long
  have hbyte : (flipBit packet 0 b).getD 0 0#8 = 0x45#8 ^^^ (1#8 <<< b) := by
    rw [flipBit_same (by omega), h.first]
  by_cases hhigh : 4 ≤ b
  · refine iff_of_true (fun hread => ?_) (.version hhigh)
    have hall : ∀ b : Fin 8, 4 ≤ (b : Nat) → (0x45#8 ^^^ (1#8 <<< (b : Nat))) >>> 4 ≠ 4#8 := by decide
    exact hall ⟨b, hb⟩ hhigh (hbyte ▸ hread.version)
  have hall : ∀ b : Fin 4, (0x45#8 ^^^ (1#8 <<< (b : Nat))) >>> 4 = 4#8 ∧
      ((0x45#8 ^^^ (1#8 <<< (b : Nat))) &&& 0x0f#8).toNat * 4 = 20 ^^^ 2 ^ ((b : Nat) + 2) ∧
      20 ^^^ 2 ^ ((b : Nat) + 2) ≠ 0 := by
    decide
  obtain ⟨hversion, hheader, hpos⟩ := hall ⟨b, Nat.lt_of_not_le hhigh⟩
  rw [← hbyte] at hversion hheader
  have hdrop : (flipBit packet 0 b).drop (20 ^^^ 2 ^ (b + 2)) = packet.drop (20 ^^^ 2 ^ (b + 2)) := by
    rw [flipBit, List.drop_set, if_pos (Nat.pos_of_ne_zero hpos)]
  have htotal : totalLen (flipBit packet 0 b) = packet.length := by
    rw [← h.total, totalLen, totalLen, flipBit_other packet (by decide), flipBit_other packet (by decide)]
  have hread : Readable (flipBit packet 0 b) ↔ HeaderFits (packet.drop (20 ^^^ 2 ^ (b + 2))) := by
    constructor
    · intro hr
      have hfits := hr.header
      rw [show headerLen (flipBit packet 0 b) = 20 ^^^ 2 ^ (b + 2) from hheader, hdrop] at hfits
      exact hfits
    · intro hfits
      have hroom := hfits.long
      rw [List.length_drop] at hroom
      have hlen : headerLen (flipBit packet 0 b) = 20 ^^^ 2 ^ (b + 2) := hheader
      refine ⟨⟨?_, hversion, ?_, ?_⟩, ?_, ?_⟩
      · rw [flipBit_length]
        omega
      · rw [flipBit_length, hlen]
        omega
      · rw [htotal, hlen]
        omega
      · rw [flipBit_other packet (by decide), h.protocol]
      · rw [hlen, hdrop]
        exact hfits
  rw [hread]
  constructor
  · exact .headerLen (Nat.lt_of_not_le hhigh)
  · intro hn
    cases hn with
    | version high => exact absurd high hhigh
    | headerLen _ misfits => exact misfits

theorem Framed.later_flip {packet : Bytes} {options : Nat} (h : Framed packet options) {i b : Nat}
    (hi : i < packet.length) (hi0 : i ≠ 0) (hb : b < 8) :
    ¬ Readable (flipBit packet i b) ↔ Noticed packet options i b := by
  have hlong := h.long
  have hfirst : (flipBit packet i b).getD 0 0#8 = 0x45#8 := by rw [flipBit_other packet hi0, h.first]
  have htotal := h.total
  rw [readable_iff hfirst (by rw [flipBit_length]; omega), flipBit_length]
  unfold totalLen at htotal ⊢
  by_cases h2 : i = 2
  · subst h2
    rw [flipBit_same hi, flipBit_other packet (show 2 ≠ 3 by decide), flipBit_other packet (show 2 ≠ 9 by decide),
      flipBit_other packet (show 2 ≠ 32 by decide), total_flip_high _ _ hb, htotal, h.protocol, h.offset]
    constructor
    · intro hno
      refine .totalHigh (Nat.lt_of_not_le fun hge => hno ⟨hge, rfl, by omega, by omega⟩)
    · rintro (_ | _ | short)
      omega
  by_cases h3 : i = 3
  · subst h3
    rw [flipBit_same hi, flipBit_other packet (show 3 ≠ 2 by decide), flipBit_other packet (show 3 ≠ 9 by decide),
      flipBit_other packet (show 3 ≠ 32 by decide), total_flip_low _ _ hb, htotal, h.protocol, h.offset]
    constructor
    · intro hno
      refine .totalLow (Nat.lt_of_not_le fun hge => hno ⟨hge, rfl, by omega, by omega⟩)
    · rintro (_ | _ | _ | short)
      omega
  rw [flipBit_other packet h2, flipBit_other packet h3, htotal]
  by_cases h9 : i = 9
  · subst h9
    rw [flipBit_same hi, h.protocol]
    refine iff_of_true (fun hread => ?_) .protocol
    have hall : ∀ b : Fin 8, 6#8 ^^^ (1#8 <<< (b : Nat)) ≠ 6#8 := by decide
    exact hall ⟨b, hb⟩ hread.2.1
  rw [flipBit_other packet h9, h.protocol]
  by_cases h32 : i = 32
  · subst h32
    rw [flipBit_same hi, offset_flip _ hb, h.offset]
    split_ifs with hlow
    · refine iff_of_false (fun hno => hno ⟨by omega, rfl, by omega, by omega⟩) ?_
      rintro (_ | _ | _ | _ | _ | ⟨high, -⟩)
      omega
    · constructor
      · intro hno
        refine .offset (by omega) (Decidable.or_iff_not_imp_left.mpr fun hge => Nat.lt_of_not_le fun hle => ?_)
        exact hno ⟨by omega, rfl, by omega, hle⟩
      · rintro (_ | _ | _ | _ | _ | ⟨-, misfits⟩)
        omega
  rw [flipBit_other packet h32, h.offset]
  refine iff_of_false (fun hno => hno ⟨by omega, rfl, by omega, by omega⟩) ?_
  rintro (_ | _ | _ | _ | _ | _) <;> contradiction

/-- A packet of the encoder with one altered bit is refused by the readers of the
façade exactly when the bit breaks the version, the protocol or a length. -/
theorem single_bit_noticed_iff (src dst : Endpoint) (seq ack : U32) (flags : U8) (window : U16)
    {options payload : Bytes} (h4 : options.length % 4 = 0) (h40 : options.length ≤ 40)
    (hlen : 40 + options.length + payload.length ≤ 65535) {i b : Nat}
    (hi : i < (buildPacket src dst seq ack flags window options payload).length) (hb : b < 8) :
    let altered := flipBit (buildPacket src dst seq ack flags window options payload) i b
    (parseAny altered = .ok none ∧ ∀ quad, parseFor quad altered = .ok none) ↔
      Noticed (buildPacket src dst seq ack flags window options payload) options.length i b := by
  have hframed := buildPacket_framed src dst seq ack flags window h4 h40 hlen
  intro altered
  rw [unread_iff]
  by_cases hi0 : i = 0
  · subst hi0
    exact hframed.first_flip hb
  · exact hframed.later_flip hi hi0 hb

/-- The protocol is no longer TCP. -/
theorem altered_protocol_is_noticed :
    let altered := flipBit bareDatagram 9 0
    parseAny altered = .ok none ∧ ∀ quad, parseFor quad altered = .ok none :=
  (single_bit_noticed_iff _ _ _ _ _ _ (by decide) (by decide) (by decide) (by decide +kernel)
    (by decide)).mpr .protocol

/-- The sequence number is another one, and the checksum of the segment shows it;
the address of the sender is another one, and the checksum of the header shows it. -/
theorem altered_bits_are_read :
    let altered := flipBit bareDatagram 24 0
    let readdressed := flipBit bareDatagram 15 1
    parseAny altered = .ok (some (bareQuad, ⟨⟨4000#16, 80#16, 0x01000005#32, 9#32, 20, ACK, 1024#16⟩, [], {}⟩)) ∧
      parseFor bareQuad altered = .ok (some ⟨⟨4000#16, 80#16, 0x01000005#32, 9#32, 20, ACK, 1024#16⟩, [], {}⟩) ∧
      tcpChecksum bareQuad.remoteEnd.1 bareQuad.localEnd.1 (altered.drop 20) ≠ 0#16 ∧
      parseAny readdressed =
        .ok (some ({ bareQuad with remoteEnd := (Ipv4Addr.new 10#8 0#8 0#8 3#8, 4000#16) }, bareSegment [])) ∧
      Ip.verifyChecksum (readdressed.take 20) = false := by
  decide +kernel

end Socket
end TcpStack
