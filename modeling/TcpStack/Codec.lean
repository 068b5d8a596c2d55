import TcpStack.Wire

/-!
# Reading back what was built

The receive path applied to a packet of this stack returns the fields the
packet was built from. The options of every ordinary segment and of both
handshake segments are read back one by one.
-/
namespace TcpStack.Tcp

theorem index_of_getElem? {xs : Bytes} {i : Nat} {x : U8} (h : xs[i]? = some x) :
    index xs i = .ok x := by
  simp only [index, h]

theorem slice_append_right (a b : Bytes) : slice (a ++ b) a.length (a ++ b).length = .ok b := by
  simp only [slice, List.take_length, List.drop_left]
  rw [if_pos ⟨by simp, Nat.le_refl _⟩]

theorem slice_middle (a b c : Bytes) :
    slice (a ++ b ++ c) a.length (a.length + b.length) = .ok b := by
  have htake : (a ++ b ++ c).take (a.length + b.length) = a ++ b := by
    rw [← List.length_append, List.take_left]
  simp only [slice, htake, List.drop_left]
  rw [if_pos ⟨by omega, by simp only [List.length_append]; omega⟩]

/-- The header length survives its trip through the high nibble of byte 12. -/
theorem dataOffset_nibble {n : Nat} (h4 : n % 4 = 0) (h40 : n ≤ 40) :
    ((BitVec.ofNat 8 ((20 + n) / 4) <<< 4) >>> 4).toNat * 4 = 20 + n := by
  rw [BitVec.toNat_ushiftRight, BitVec.toNat_shiftLeft, BitVec.toNat_ofNat,
    Nat.shiftLeft_eq, Nat.shiftRight_eq_div_pow]
  omega

/-- The first 20 bytes of a segment, then the options and the payload. -/
def fixedHeader (srcPort dstPort : U16) (seq ack : U32) (flags : U8) (window csum : U16) (n : Nat) :
    Bytes :=
  srcPort.toBeBytes ++ dstPort.toBeBytes ++ seq.toBeBytes ++ ack.toBeBytes ++
    [BitVec.ofNat 8 ((20 + n) / 4) <<< 4, flags] ++ window.toBeBytes ++ csum.toBeBytes ++ [0#8, 0#8]

theorem fixedHeader_length (srcPort dstPort : U16) (seq ack : U32) (flags : U8) (window csum : U16)
    (n : Nat) : (fixedHeader srcPort dstPort seq ack flags window csum n).length = 20 := rfl

theorem tcpSegment_eq (srcPort dstPort : U16) (seq ack : U32) (flags : U8) (window csum : U16)
    (options payload : Bytes) :
    tcpSegment srcPort dstPort seq ack flags window csum options payload =
      fixedHeader srcPort dstPort seq ack flags window csum options.length ++ options ++ payload := rfl

theorem tcpSegment_length (srcPort dstPort : U16) (seq ack : U32) (flags : U8) (window csum : U16)
    (options payload : Bytes) :
    (tcpSegment srcPort dstPort seq ack flags window csum options payload).length =
      20 + options.length + payload.length := by
  rw [tcpSegment_eq, List.length_append, List.length_append, fixedHeader_length]

theorem parse_tcpSegment {srcPort dstPort : U16} {seq ack : U32} {flags : U8} {window csum : U16}
    {options payload : Bytes} (h4 : options.length % 4 = 0) (h40 : options.length ≤ 40) :
    parse (tcpSegment srcPort dstPort seq ack flags window csum options payload) =
      .ok (some ⟨srcPort, dstPort, seq, ack, 20 + options.length, flags, window⟩) := by
  have hoff := dataOffset_nibble h4 h40
  have hlen := tcpSegment_length srcPort dstPort seq ack flags window csum options payload
  have hget : ∀ i x, (fixedHeader srcPort dstPort seq ack flags window csum options.length)[i]? = some x →
      index (tcpSegment srcPort dstPort seq ack flags window csum options payload) i = .ok x := by
    intro i x h
    apply index_of_getElem?
    have hi : i < (fixedHeader srcPort dstPort seq ack flags window csum options.length).length :=
      (List.getElem?_eq_some_iff.mp h).1
    rw [tcpSegment_eq, List.append_assoc, List.getElem?_append_left hi, h]
  unfold parse
  rw [if_neg (by omega), hget 12 _ rfl]
  simp only [Checked.ok_bind, hoff, hlen]
  rw [if_neg (by omega)]
  simp only [readU16, readU32, Nat.reduceAdd]
  rw [hget 0 _ rfl, hget 1 _ rfl, hget 2 _ rfl, hget 3 _ rfl, hget 4 _ rfl, hget 5 _ rfl,
    hget 6 _ rfl, hget 7 _ rfl, hget 8 _ rfl, hget 9 _ rfl, hget 10 _ rfl, hget 11 _ rfl,
    hget 13 _ rfl, hget 14 _ rfl, hget 15 _ rfl]
  simp only [Checked.ok_bind, Checked.pure_eq, U16.fromBeBytes_toBeBytes, U32.fromBeBytes_toBeBytes]

theorem readSegment_tcpSegment {srcPort dstPort : U16} {seq ack : U32} {flags : U8}
    {window csum : U16} {options payload : Bytes} {opts : TcpOptions}
    (h4 : options.length % 4 = 0) (h40 : options.length ≤ 40) (ho : parseOptions options = .ok opts) :
    readSegment (tcpSegment srcPort dstPort seq ack flags window csum options payload) =
      .ok (some ⟨⟨srcPort, dstPort, seq, ack, 20 + options.length, flags, window⟩, payload, opts⟩) := by
  have hlen := tcpSegment_length srcPort dstPort seq ack flags window csum options payload
  have hopt : slice (tcpSegment srcPort dstPort seq ack flags window csum options payload) 20
      (20 + options.length) = .ok options :=
    slice_middle (fixedHeader srcPort dstPort seq ack flags window csum options.length) options payload
  have hpay : slice (tcpSegment srcPort dstPort seq ack flags window csum options payload)
      (20 + options.length)
      (tcpSegment srcPort dstPort seq ack flags window csum options payload).length = .ok payload := by
    have h := slice_append_right
      (fixedHeader srcPort dstPort seq ack flags window csum options.length ++ options) payload
    rwa [List.length_append, fixedHeader_length] at h
  unfold readSegment
  rw [parse_tcpSegment h4 h40]
  simp only [Checked.ok_bind]
  rw [Nat.min_eq_left (by omega), hpay, hopt]
  simp only [Checked.ok_bind, ho, Checked.pure_eq]

theorem writeHeaderChecksum_ok (hdr : Bytes) (h : 12 ≤ hdr.length) :
    ∃ hdr', Ip.writeHeaderChecksum hdr = .ok hdr' ∧ hdr'.length = hdr.length := by
  unfold Ip.writeHeaderChecksum
  rw [store_of_lt (by omega), Checked.ok_bind, store_of_lt (by simp; omega), Checked.ok_bind]
  dsimp only
  rw [store_of_lt (by simp; omega), Checked.ok_bind, store_of_lt (by simp; omega)]
  exact ⟨_, rfl, by simp⟩

theorem buildPacket_eq (src dst : Endpoint) (seq ack : U32) (flags : U8) (window : U16)
    (options payload : Bytes) :
    ∃ hdr, Ip.writeHeaderChecksum (ipHeader src.1 dst.1 (20 + (20 + options.length + payload.length))) = .ok hdr ∧
      hdr.length = 20 ∧ buildPacket src dst seq ack flags window options payload =
        hdr ++ tcpSegment src.2 dst.2 seq ack flags window (tcpChecksum src.1 dst.1
          (tcpSegment src.2 dst.2 seq ack flags window 0#16 options payload)) options payload := by
  obtain ⟨hdr, hhdr, hlen⟩ := writeHeaderChecksum_ok
    (ipHeader src.1 dst.1 (20 + (20 + options.length + payload.length)))
    (by simp [ipHeader, Ipv4Addr.octets, U32.toBeBytes])
  refine ⟨hdr, hhdr, hlen, ?_⟩
  simp only [buildPacket, hhdr]

theorem buildPacket_length (src dst : Endpoint) (seq ack : U32) (flags : U8) (window : U16)
    (options payload : Bytes) : (buildPacket src dst seq ack flags window options payload).length =
      40 + options.length + payload.length := by
  obtain ⟨hdr, -, h20, heq⟩ := buildPacket_eq src dst seq ack flags window options payload
  rw [heq, List.length_append, h20, tcpSegment_length]
  omega

theorem decode_buildPacket {src dst : Endpoint} {seq ack : U32} {flags : U8} {window : U16}
    {options payload : Bytes} {opts : TcpOptions} (h4 : options.length % 4 = 0)
    (h40 : options.length ≤ 40) (ho : parseOptions options = .ok opts) :
    decode (buildPacket src dst seq ack flags window options payload) =
      some ⟨⟨src.2, dst.2, seq, ack, 20 + options.length, flags, window⟩, payload, opts⟩ := by
  obtain ⟨hdr, -, h20, heq⟩ := buildPacket_eq src dst seq ack flags window options payload
  rw [heq, decode, List.drop_left' h20]
  simp only [readSegment_tcpSegment h4 h40 ho]

theorem parseOptionsLoop_succ (fuel : Nat) : ∀ (rest : Bytes) (out : TcpOptions),
    rest.length ≤ fuel → parseOptionsLoop (fuel + 1) rest out = parseOptionsLoop fuel rest out := by
  induction fuel with
  | zero =>
      intro rest out hle
      rw [List.eq_nil_of_length_eq_zero (Nat.le_zero.mp hle)]
      rfl
  | succ fuel ih =>
      intro rest out hle
      have hstep : ∀ (k : Nat) (o : TcpOptions), 0 < k →
          parseOptionsLoop (fuel + 1) (rest.drop k) o = parseOptionsLoop fuel (rest.drop k) o := by
        intro k o hk
        apply ih
        rw [List.length_drop]
        omega
      conv_lhs => rw [parseOptionsLoop]
      conv_rhs => rw [parseOptionsLoop]
      by_cases hnil : rest.isEmpty
      · simp only [hnil, if_true]
      simp only [hnil, Bool.false_eq_true, if_false]
      refine bind_congr fun kind => ?_
      split_ifs with h0 h1 h2
      · rfl
      · exact hstep 1 out Nat.one_pos
      · rfl
      · refine bind_congr fun len => ?_
        split_ifs with h3
        · rfl
        · refine bind_congr fun data => bind_congr fun o => hstep _ o (by omega)

theorem parseOptionsLoop_fuel {fuel : Nat} {rest : Bytes} (out : TcpOptions)
    (h : rest.length ≤ fuel) :
    parseOptionsLoop fuel rest out = parseOptionsLoop rest.length rest out := by
  obtain ⟨d, rfl⟩ := Nat.exists_eq_add_of_le h
  induction d with
  | zero => rfl
  | succ d ih => rw [← Nat.add_assoc, parseOptionsLoop_succ _ _ _ (by omega), ih (by omega)]

/-- The loop on the remaining bytes with just enough fuel. -/
def parseFrom (rest : Bytes) (out : TcpOptions) : Checked TcpOptions :=
  parseOptionsLoop rest.length rest out

theorem parseOptions_eq (opts : Bytes) : parseOptions opts = parseFrom opts {} := rfl

theorem parseFrom_nil (out : TcpOptions) : parseFrom [] out = .ok out := rfl

theorem parseFrom_nop (rest : Bytes) (out : TcpOptions) :
    parseFrom (optNop :: rest) out = parseFrom rest out := rfl

theorem parseFrom_option (kind len : U8) (data rest : Bytes) (out : TcpOptions)
    (h0 : kind ≠ optEnd) (h1 : kind ≠ optNop) (hlen : len.toNat = 2 + data.length) :
    parseFrom (kind :: len :: (data ++ rest)) out =
      (do let out ← readOption kind data out; parseFrom rest out) := by
  have hdata : slice (kind :: len :: (data ++ rest)) 2 (2 + data.length) = .ok data :=
    slice_middle [kind, len] data rest
  have hdrop : (kind :: len :: (data ++ rest)).drop (2 + data.length) = rest := by
    rw [Nat.add_comm]
    simp only [List.drop_succ_cons, List.drop_left]
  rw [parseFrom, List.length_cons, parseOptionsLoop]
  simp only [List.isEmpty_cons, Bool.false_eq_true, if_false]
  rw [index_of_getElem? (List.getElem?_cons_zero), Checked.ok_bind, if_neg h0, if_neg h1,
    if_neg (by simp)]
  rw [show index (kind :: len :: (data ++ rest)) 1 = .ok len from rfl, Checked.ok_bind]
  simp only [hlen]
  rw [if_neg (by simp; omega), hdata, Checked.ok_bind, hdrop]
  refine bind_congr fun o => ?_
  exact parseOptionsLoop_fuel o (by simp; omega)

theorem readU16_append (a b : Bytes) (x : U16) :
    readU16 (a ++ x.toBeBytes ++ b) a.length = .ok x := by
  have h0 : (a ++ x.toBeBytes ++ b)[a.length]? = some (x.extractLsb' 8 8) := by
    simp [U16.toBeBytes]
  have h1 : (a ++ x.toBeBytes ++ b)[a.length + 1]? = some (x.extractLsb' 0 8) := by
    simp [U16.toBeBytes]
  rw [readU16, index_of_getElem? h0, index_of_getElem? h1]
  simp only [Checked.ok_bind, Checked.pure_eq, U16.fromBeBytes_toBeBytes]

theorem readU32_append (a b : Bytes) (x : U32) :
    readU32 (a ++ x.toBeBytes ++ b) a.length = .ok x := by
  have h0 : (a ++ x.toBeBytes ++ b)[a.length]? = some (x.extractLsb' 24 8) := by
    simp [U32.toBeBytes]
  have h1 : (a ++ x.toBeBytes ++ b)[a.length + 1]? = some (x.extractLsb' 16 8) := by
    simp [U32.toBeBytes]
  have h2 : (a ++ x.toBeBytes ++ b)[a.length + 2]? = some (x.extractLsb' 8 8) := by
    simp [U32.toBeBytes]
  have h3 : (a ++ x.toBeBytes ++ b)[a.length + 3]? = some (x.extractLsb' 0 8) := by
    simp [U32.toBeBytes]
  rw [readU32, index_of_getElem? h0, index_of_getElem? h1, index_of_getElem? h2,
    index_of_getElem? h3]
  simp only [Checked.ok_bind, Checked.pure_eq, U32.fromBeBytes_toBeBytes]

def blockBytes (b : U32 × U32) : Bytes := b.1.toBeBytes ++ b.2.toBeBytes

theorem flatMap_blockBytes_length (bs : List (U32 × U32)) :
    (bs.flatMap blockBytes).length = 8 * bs.length := by
  induction bs with
  | nil => rfl
  | cons b bs ih =>
      rw [List.flatMap_cons, List.length_append, ih, List.length_cons]
      simp only [blockBytes, List.length_append, U32.toBeBytes_length]
      omega

/-- Reading the blocks that were written, from the `k`-th on, whatever follows them. -/
theorem readBlocks_flatMap (rest : Bytes) (done todo tail : List (U32 × U32)) (old : List (U32 × U32))
    (hold : old.length = todo.length) :
    readBlocks ((done ++ todo).flatMap blockBytes ++ rest) todo.length done.length (done ++ old ++ tail) =
      .ok (done ++ todo ++ tail) := by
  induction todo generalizing done old with
  | nil =>
      rw [List.eq_nil_of_length_eq_zero hold]
      simp [readBlocks]
  | cons b todo ih =>
      obtain ⟨o, old, rfl⟩ := List.exists_cons_of_length_eq_add_one hold
      have hsl : slice ((done ++ b :: todo).flatMap blockBytes ++ rest) (done.length * 8)
          (done.length * 8 + 8) = .ok (blockBytes b) := by
        have h := slice_middle (done.flatMap blockBytes) (blockBytes b) (todo.flatMap blockBytes ++ rest)
        rw [flatMap_blockBytes_length, Nat.mul_comm] at h
        rw [List.flatMap_append, List.flatMap_cons, ← List.append_assoc, List.append_assoc _ _ rest]
        exact h
      have hset : (done ++ o :: old ++ tail).set done.length (b.1, b.2) = done ++ [b] ++ old ++ tail := by
        simp
      have hl := readU32_append [] b.2.toBeBytes b.1
      have hr := readU32_append b.1.toBeBytes [] b.2
      rw [List.append_nil] at hr
      rw [List.length_cons, readBlocks, hsl, Checked.ok_bind, blockBytes]
      rw [show readU32 (b.1.toBeBytes ++ b.2.toBeBytes) 0 = .ok b.1 from hl, Checked.ok_bind]
      rw [show readU32 (b.1.toBeBytes ++ b.2.toBeBytes) 4 = .ok b.2 from hr, Checked.ok_bind, hset]
      have h := ih (done ++ [b]) old (by simpa using hold)
      simpa using h

theorem parseFrom_mssOption (m : U16) (rest : Bytes) (out : TcpOptions) :
    parseFrom (mssOption m ++ rest) out = parseFrom rest { out with mss := some m } := by
  have hb : mssOption m ++ rest = optMss :: 4#8 :: (m.toBeBytes ++ rest) := by simp [mssOption]
  have h16 : readU16 m.toBeBytes 0 = .ok m := readU16_append [] [] m
  have hr : readOption optMss m.toBeBytes out = .ok { out with mss := some m } := by
    rw [readOption, if_pos ⟨rfl, rfl⟩, h16]
    rfl
  rw [hb, parseFrom_option _ _ _ _ _ (by decide) (by decide) rfl, hr, Checked.ok_bind]

theorem parseFrom_wsOption (shift : WScale) (rest : Bytes) (out : TcpOptions) :
    parseFrom (wsOption shift ++ rest) out =
      parseFrom rest { out with windowScale := some shift } := by
  have hb : wsOption shift ++ rest = optNop :: optWs :: 3#8 :: ([BitVec.ofNat 8 shift] ++ rest) := by
    simp [wsOption]
  have hmin : min (BitVec.ofNat 8 shift).toNat 14 = shift := by
    have hlt := shift.isLt
    rw [BitVec.toNat_ofNat]
    omega
  have hr : readOption optWs [BitVec.ofNat 8 shift] out =
      .ok { out with windowScale := some shift } := by
    rw [readOption, if_neg (fun h => absurd h.1 (by decide)), if_neg (fun h => absurd h.1 (by decide)),
      if_pos ⟨rfl, rfl⟩]
    simp only [index, List.getElem?_cons_zero, Checked.ok_bind, hmin, Checked.pure_eq]
  rw [hb, parseFrom_nop, parseFrom_option _ _ _ _ _ (by decide) (by decide) rfl, hr, Checked.ok_bind]

theorem parseFrom_tsOption (tsval tsecr : U32) (rest : Bytes) (out : TcpOptions) :
    parseFrom (tsOption tsval tsecr ++ rest) out =
      parseFrom rest { out with timestamps := some (tsval, tsecr) } := by
  have hb : tsOption tsval tsecr ++ rest =
      optNop :: optNop :: optTs :: 10#8 :: ((tsval.toBeBytes ++ tsecr.toBeBytes) ++ rest) := by
    simp [tsOption]
  have hv : readU32 (tsval.toBeBytes ++ tsecr.toBeBytes) 0 = .ok tsval :=
    readU32_append [] tsecr.toBeBytes tsval
  have he : readU32 (tsval.toBeBytes ++ tsecr.toBeBytes) 4 = .ok tsecr :=
    readU32_append tsval.toBeBytes [] tsecr
  have hr : readOption optTs (tsval.toBeBytes ++ tsecr.toBeBytes) out =
      .ok { out with timestamps := some (tsval, tsecr) } := by
    rw [readOption, if_neg (fun h => absurd h.1 (by decide)), if_pos ⟨rfl, rfl⟩, hv, he]
    rfl
  rw [hb, parseFrom_nop, parseFrom_nop, parseFrom_option _ _ _ _ _ (by decide) (by decide) rfl, hr,
    Checked.ok_bind]

theorem parseFrom_sackPermOption (rest : Bytes) (out : TcpOptions) :
    parseFrom (sackPermOption ++ rest) out = parseFrom rest { out with sackPermitted := true } := by
  have hb : sackPermOption ++ rest = optNop :: optNop :: optSackPerm :: 2#8 :: ([] ++ rest) := by
    simp [sackPermOption]
  have hr : readOption optSackPerm [] out = .ok { out with sackPermitted := true } := rfl
  rw [hb, parseFrom_nop, parseFrom_nop, parseFrom_option _ _ _ _ _ (by decide) (by decide) rfl, hr,
    Checked.ok_bind]

theorem parseFrom_sackOption {blocks : List (U32 × U32)} (rest : Bytes) (out : TcpOptions)
    (hne : blocks ≠ []) (h4 : out.sackBlocks.length = 4) :
    parseFrom (sackOption blocks ++ rest) out =
      parseFrom rest { out with
        sackBlocks := blocks.take maxSackBlocks ++ out.sackBlocks.drop (blocks.take maxSackBlocks).length
        sackBlockCount := (blocks.take maxSackBlocks).length } := by
  have hpos := List.length_pos_iff.mpr hne
  have hlen : (blocks.take maxSackBlocks).length = min blocks.length maxSackBlocks := by
    rw [List.length_take, Nat.min_comm]
  have htake : blocks.take (min blocks.length maxSackBlocks) = blocks.take maxSackBlocks := by
    rw [← hlen, List.length_take, List.take_eq_take_iff]
    omega
  have hn : min blocks.length maxSackBlocks ≤ 3 := Nat.min_le_right _ _
  have hn0 : 0 < min blocks.length maxSackBlocks := by
    simp only [maxSackBlocks]
    omega
  rw [← hlen] at hn hn0
  have hb : sackOption blocks ++ rest = optNop :: optNop :: optSack ::
      BitVec.ofNat 8 (2 + 8 * (blocks.take maxSackBlocks).length) ::
        ((blocks.take maxSackBlocks).flatMap blockBytes ++ rest) := by
    simp only [sackOption]
    rw [if_neg (by omega), htake, ← hlen]
    rfl
  generalize blocks.take maxSackBlocks = bs at hb hn hn0
  have hdata : (bs.flatMap blockBytes).length = 8 * bs.length := flatMap_blockBytes_length bs
  have hcount : min ((bs.flatMap blockBytes).length / 8) out.sackBlocks.length = bs.length := by
    rw [hdata, h4]
    omega
  have hblocks : readBlocks (bs.flatMap blockBytes) bs.length 0 out.sackBlocks =
      .ok (bs ++ out.sackBlocks.drop bs.length) := by
    have h := readBlocks_flatMap [] [] bs (out.sackBlocks.drop bs.length) (out.sackBlocks.take bs.length)
      (by rw [List.length_take]; omega)
    simpa using h
  have hemp : (!(bs.flatMap blockBytes).isEmpty) = true := by
    rw [Bool.not_eq_true', List.isEmpty_eq_false_iff, ← List.length_pos_iff]
    omega
  have hr : readOption optSack (bs.flatMap blockBytes) out =
      .ok { out with sackBlocks := bs ++ out.sackBlocks.drop bs.length, sackBlockCount := bs.length } := by
    rw [readOption, if_neg (fun h => absurd h.1 (by decide)), if_neg (fun h => absurd h.1 (by decide)),
      if_neg (fun h => absurd h.1 (by decide)), if_neg (fun h => absurd h.1 (by decide)),
      if_pos ⟨rfl, hemp, by omega⟩]
    simp only [hcount, hblocks, Checked.ok_bind, Checked.pure_eq]
  rw [hb, parseFrom_nop, parseFrom_nop, parseFrom_option _ _ _ _ _ (by decide) (by decide) ?_, hr,
    Checked.ok_bind]
  rw [BitVec.toNat_ofNat, hdata, Nat.mod_eq_of_lt (by omega)]

end TcpStack.Tcp
