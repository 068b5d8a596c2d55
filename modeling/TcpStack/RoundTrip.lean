import TcpStack.Issued

/-!
# The packet round trip

A built packet passes every check of the receive path: the IP header parses
and its checksum verifies, the TCP header parses, options and payload are the
bytes that were put in, and the TCP checksum over the whole segment is zero.
-/
namespace TcpStack
open Tcp

namespace Ip

theorem writeHeaderChecksum_field {pre post : Bytes} {a b : U8} (h : pre.length = 10) :
    writeHeaderChecksum (pre ++ [a, b] ++ post) =
      .ok (pre ++ (Utils.checksum (pre ++ [0#8, 0#8] ++ post)).toBeBytes ++ post) := by
  have hset : ∀ x y v : U8, (pre ++ [x, y] ++ post).set 10 v = pre ++ [v, y] ++ post ∧
      (pre ++ [x, y] ++ post).set 11 v = pre ++ [x, v] ++ post := by
    intro x y v
    simp [h]
  have hlen : ∀ x y : U8, 11 < (pre ++ [x, y] ++ post).length := by
    intro x y
    simp only [List.length_append, List.length_cons, List.length_nil]
    omega
  have hstore : ∀ x y v : U8, store (pre ++ [x, y] ++ post) 10 v = .ok (pre ++ [v, y] ++ post) ∧
      store (pre ++ [x, y] ++ post) 11 v = .ok (pre ++ [x, v] ++ post) := by
    intro x y v
    rw [store_of_lt (Nat.lt_of_succ_lt (hlen x y)), store_of_lt (hlen x y), (hset x y v).1, (hset x y v).2]
    exact ⟨rfl, rfl⟩
  unfold writeHeaderChecksum
  rw [(hstore a b 0#8).1, Checked.ok_bind, (hstore 0#8 b 0#8).2, Checked.ok_bind]
  dsimp only
  rw [(hstore _ _ _).1, Checked.ok_bind, (hstore _ _ _).2]
  rfl

def headerFront (totalLen : Nat) : Bytes :=
  [0x45#8, 0#8] ++ U16.toBeBytes (BitVec.ofNat 16 totalLen) ++ [0#8, 0#8] ++ U16.toBeBytes 0x4000#16 ++ [64#8, 6#8]

theorem headerFront_length (totalLen : Nat) : (headerFront totalLen).length = 10 := rfl

def sentHeader (src dst : Ipv4Addr) (totalLen : Nat) : Bytes :=
  headerFront totalLen ++ (Utils.checksum (headerFront totalLen ++ [0#8, 0#8] ++
    (src.octets ++ dst.octets))).toBeBytes ++
    (src.octets ++ dst.octets)

theorem writeHeaderChecksum_ipHeader (src dst : Ipv4Addr) (totalLen : Nat) :
    writeHeaderChecksum (ipHeader src dst totalLen) = .ok (sentHeader src dst totalLen) := by
  have hsplit : ipHeader src dst totalLen = headerFront totalLen ++ [0#8, 0#8] ++ (src.octets ++ dst.octets) := rfl
  rw [hsplit]
  exact writeHeaderChecksum_field rfl

theorem sentHeader_verifies (src dst : Ipv4Addr) (totalLen : Nat) :
    verifyChecksum (sentHeader src dst totalLen) = true := by
  have hzero : Utils.checksum (sentHeader src dst totalLen) = 0#16 := by
    apply Utils.checksum_filled
    rw [headerFront_length]
  rw [verifyChecksum, hzero]
  rfl

theorem parse_sentHeader (src dst : Ipv4Addr) {totalLen : Nat} (hlt : totalLen < 65536)
    (hle : 20 ≤ totalLen) (rest : Bytes) :
    parse (sentHeader src dst totalLen ++ rest) = .ok (.ok ⟨4#8, 20, totalLen, 64#8, 6#8, src, dst⟩) := by
  have hget : ∀ i x, (sentHeader src dst totalLen)[i]? = some x →
      index (sentHeader src dst totalLen ++ rest) i = .ok x := by
    intro i x h
    apply index_of_getElem?
    rw [List.getElem?_append_left (List.getElem?_eq_some_iff.mp h).1, h]
  have hlen : (sentHeader src dst totalLen ++ rest).length = 20 + rest.length := by
    rw [List.length_append]
    rfl
  have htot : (U16.fromBeBytes ((BitVec.ofNat 16 totalLen : U16).extractLsb' 8 8)
      ((BitVec.ofNat 16 totalLen : U16).extractLsb' 0 8)).toNat = totalLen := by
    rw [U16.fromBeBytes_toBeBytes, BitVec.toNat_ofNat, Nat.mod_eq_of_lt hlt]
  unfold parse
  rw [if_neg (by omega), hget 0 0x45#8 rfl, hget 2 _ rfl, hget 3 _ rfl, hget 8 _ rfl, hget 9 _ rfl, hget 12 _ rfl,
    hget 13 _ rfl, hget 14 _ rfl, hget 15 _ rfl, hget 16 _ rfl, hget 17 _ rfl, hget 18 _ rfl, hget 19 _ rfl]
  have hihl : (0x45#8 &&& 0x0f#8).toNat * 4 = 20 := by decide
  simp only [Checked.ok_bind, htot, hihl]
  rw [if_neg (by decide), if_neg (by omega), if_neg (by omega)]
  simp only [Ipv4Addr.new, U32.fromBeBytes_toBeBytes, Checked.pure_eq]
  rfl

end Ip

namespace Tcp

/-- The pseudo-header of a segment of `n` bytes. -/
def pseudoHeader (src dst : Ipv4Addr) (n : Nat) : Bytes :=
  src.octets ++ dst.octets ++ [0#8, 6#8] ++ U16.toBeBytes (BitVec.ofNat 16 n)

def segmentFront (srcPort dstPort : U16) (seq ack : U32) (flags : U8) (window : U16) (n : Nat) : Bytes :=
  srcPort.toBeBytes ++ dstPort.toBeBytes ++ seq.toBeBytes ++ ack.toBeBytes ++
    [BitVec.ofNat 8 ((20 + n) / 4) <<< 4, flags] ++ window.toBeBytes

theorem tcpSegment_field (srcPort dstPort : U16) (seq ack : U32) (flags : U8) (window csum : U16)
    (options payload : Bytes) :
    tcpSegment srcPort dstPort seq ack flags window csum options payload =
      segmentFront srcPort dstPort seq ack flags window options.length ++ csum.toBeBytes ++
        ([0#8, 0#8] ++ options ++ payload) := by
  simp only [tcpSegment, segmentFront, List.append_assoc]

theorem tcpChecksum_tcpSegment (src dst : Ipv4Addr) (srcPort dstPort : U16) (seq ack : U32) (flags : U8)
    (window csum : U16) (options payload : Bytes) :
    tcpChecksum src dst (tcpSegment srcPort dstPort seq ack flags window csum options payload) =
      Utils.checksum ((pseudoHeader src dst (20 + options.length + payload.length) ++
        segmentFront srcPort dstPort seq ack flags window options.length) ++ csum.toBeBytes ++
          ([0#8, 0#8] ++ options ++ payload)) := by
  rw [tcpChecksum, tcpSegment_length, tcpSegment_field]
  simp only [pseudoHeader, List.append_assoc]

theorem tcpChecksum_sent (src dst : Ipv4Addr) (srcPort dstPort : U16) (seq ack : U32) (flags : U8)
    (window : U16) (options payload : Bytes) :
    tcpChecksum src dst (tcpSegment srcPort dstPort seq ack flags window
      (tcpChecksum src dst (tcpSegment srcPort dstPort seq ack flags window 0#16 options payload)) options payload) =
        0#16 := by
  have hpre : (pseudoHeader src dst (20 + options.length + payload.length) ++
      segmentFront srcPort dstPort seq ack flags window options.length).length = 28 := rfl
  rw [tcpChecksum_tcpSegment, tcpChecksum_tcpSegment]
  generalize pseudoHeader src dst (20 + options.length + payload.length) ++
    segmentFront srcPort dstPort seq ack flags window options.length = pre at hpre
  apply Utils.checksum_filled
  rw [hpre]

theorem buildPacket_split (src dst : Endpoint) (seq ack : U32) (flags : U8) (window : U16) (options payload : Bytes) :
    buildPacket src dst seq ack flags window options payload =
      Ip.sentHeader src.1 dst.1 (20 + (20 + options.length + payload.length)) ++
        tcpSegment src.2 dst.2 seq ack flags window (tcpChecksum src.1 dst.1
          (tcpSegment src.2 dst.2 seq ack flags window 0#16 options payload)) options payload := by
  simp only [buildPacket, Ip.writeHeaderChecksum_ipHeader]

/-- What the receive path sees in a packet. -/
structure Arrives (p : Bytes) (src dst : Endpoint) (th : TcpHeader) (options payload : Bytes) : Prop where
  ip : ∃ hdr, Ip.parse p = .ok (.ok hdr) ∧ hdr.version = 4#8 ∧ hdr.headerLen = 20 ∧ hdr.totalLen = p.length ∧
    hdr.protocol = 6#8 ∧ hdr.src = src.1 ∧ hdr.dst = dst.1
  ipChecksum : Ip.verifyChecksum (p.take 20) = true
  tcp : parse (p.drop 20) = .ok (some th)
  options : slice p 40 (20 + th.dataOffset) = .ok options
  payload : slice p (20 + th.dataOffset) p.length = .ok payload
  tcpChecksum : tcpChecksum src.1 dst.1 (p.drop 20) = 0#16

theorem buildPacket_arrives (src dst : Endpoint) (seq ack : U32) (flags : U8) (window : U16) {options payload : Bytes}
    (h4 : options.length % 4 = 0) (h40 : options.length ≤ 40)
    (hlen : 40 + options.length + payload.length ≤ 65535) :
    Arrives (buildPacket src dst seq ack flags window options payload) src dst
      ⟨src.2, dst.2, seq, ack, 20 + options.length, flags, window⟩ options payload := by
  have htotal := buildPacket_length src dst seq ack flags window options payload
  have hsplit := buildPacket_split src dst seq ack flags window options payload
  have hcsum := tcpChecksum_sent src.1 dst.1 src.2 dst.2 seq ack flags window options payload
  generalize tcpChecksum src.1 dst.1 (tcpSegment src.2 dst.2 seq ack flags window 0#16 options payload) = csum
    at hsplit hcsum
  have hhdr : (Ip.sentHeader src.1 dst.1 (20 + (20 + options.length + payload.length))).length = 20 := rfl
  have hdrop : (buildPacket src dst seq ack flags window options payload).drop 20 =
      tcpSegment src.2 dst.2 seq ack flags window csum options payload := by
    rw [hsplit, List.drop_left' hhdr]
  have hfields : buildPacket src dst seq ack flags window options payload =
      (Ip.sentHeader src.1 dst.1 (20 + (20 + options.length + payload.length)) ++
        fixedHeader src.2 dst.2 seq ack flags window csum options.length) ++ options ++ payload := by
    rw [hsplit, tcpSegment_eq]
    simp only [List.append_assoc]
  have h40len : (Ip.sentHeader src.1 dst.1 (20 + (20 + options.length + payload.length)) ++
      fixedHeader src.2 dst.2 seq ack flags window csum options.length).length = 40 := rfl
  have hend : 20 + (20 + options.length) = 40 + options.length := by omega
  refine ⟨?_, ?_, ?_, ?_, ?_, ?_⟩
  · refine ⟨⟨4#8, 20, 20 + (20 + options.length + payload.length), 64#8, 6#8, src.1, dst.1⟩, ?_, rfl, rfl, ?_, rfl,
      rfl, rfl⟩
    · rw [hsplit]
      exact Ip.parse_sentHeader src.1 dst.1 (by omega) (by omega) _
    · rw [htotal]
      dsimp only
      omega
  · rw [hsplit, List.take_left' hhdr]
    exact Ip.sentHeader_verifies ..
  · rw [hdrop]
    exact parse_tcpSegment h4 h40
  · dsimp only
    rw [hend, hfields, ← h40len]
    exact slice_middle _ options payload
  · have hslice := slice_append_right (Ip.sentHeader src.1 dst.1 (20 + (20 + options.length + payload.length)) ++
      fixedHeader src.2 dst.2 seq ack flags window csum options.length ++ options) payload
    rw [← hfields, List.length_append, h40len] at hslice
    dsimp only
    rw [hend]
    exact hslice
  · rw [hdrop]
    exact hcsum

theorem buildSynCookieSynack_arrives (ipSrc ipDst : Ipv4Addr) (th : TcpHeader) (cookie : U32) :
    Arrives (buildSynCookieSynack ipSrc ipDst th cookie) (ipDst, th.dstPort) (ipSrc, th.srcPort)
      ⟨th.dstPort, th.srcPort, cookie, th.seq + 1#32, 24, SYN ||| ACK, 1024#16⟩ (mssOption ourMss) [] := by
  apply buildPacket_arrives
  · rfl
  · decide
  · decide

/-- A reset goes back to the sender of the stray segment: at its acknowledgement
number, or from zero with all the sequence numbers it occupies acknowledged. -/
theorem buildRst_arrives (ipSrc ipDst : Ipv4Addr) (th : TcpHeader) (payloadLen : Nat) :
    let size := BitVec.ofNat 32 payloadLen + (if hasFlag th.flags SYN then 1#32 else 0#32) +
      (if hasFlag th.flags FIN then 1#32 else 0#32)
    ∃ seq ack flags, Arrives (buildRst ipSrc ipDst th payloadLen) (ipDst, th.dstPort) (ipSrc, th.srcPort)
        ⟨th.dstPort, th.srcPort, seq, ack, 20, flags, 0#16⟩ [] [] ∧
      ((hasFlag th.flags ACK = true ∧ seq = th.ack ∧ flags = RST) ∨
        (hasFlag th.flags ACK = false ∧ seq = 0#32 ∧ ack = th.seq + size ∧ flags = RST ||| ACK)) := by
  intro size
  have harrives : ∀ seq ack flags, Arrives
      (buildPacket (ipDst, th.dstPort) (ipSrc, th.srcPort) seq ack flags 0#16 [] []) (ipDst, th.dstPort)
      (ipSrc, th.srcPort) ⟨th.dstPort, th.srcPort, seq, ack, 20, flags, 0#16⟩ [] [] := by
    intro seq ack flags
    apply buildPacket_arrives
    · rfl
    · decide
    · decide
  unfold buildRst
  cases hasFlag th.flags ACK with
  | true => exact ⟨_, _, _, harrives _ _ _, .inl ⟨rfl, rfl, rfl⟩⟩
  | false => exact ⟨_, _, _, harrives _ _ _, .inr ⟨rfl, rfl, rfl, rfl⟩⟩

end Tcp

namespace Connection

variable {F : Type} [F64 F]

/-- The packet codec round trip. Every packet of every run is built from one of
the options blobs, and each of these meets the two conditions on options. -/
theorem packets_round_trip :
    (∀ (src dst : Endpoint) (seq ack : U32) (flags : U8) (window : U16) (options payload : Bytes),
      options.length % 4 = 0 → options.length ≤ 40 → 40 + options.length + payload.length ≤ 65535 →
      Arrives (buildPacket src dst seq ack flags window options payload) src dst
        ⟨src.2, dst.2, seq, ack, 20 + options.length, flags, window⟩ options payload) ∧
    (∀ (c : Connection F) (opts : TcpOptions), ∀ blob ∈ c.optionBlobs opts,
      blob.length % 4 = 0 ∧ blob.length ≤ 40) ∧
    ∀ (h : Host F), Host.Fresh h → ∀ calls, ∀ pkt ∈ (h.run calls).emitted, Issued F pkt := by
  refine ⟨?_, ?_, ?_⟩
  · intro src dst seq ack flags window options payload h4 h40 hlen
    exact buildPacket_arrives src dst seq ack flags window h4 h40 hlen
  · exact optionBlobs_fit
  · exact fun h hf calls => (Host.run_issued hf calls).out

/-- An odd payload behind a Timestamps option, and the packets of a short run. -/
theorem odd_packet_arrives :
    let src : Endpoint := (Ipv4Addr.new 10#8 0#8 0#8 1#8, 4000#16)
    let dst : Endpoint := (Ipv4Addr.new 10#8 0#8 0#8 2#8, 80#16)
    (tsOption 7#32 9#32).length = 12 ∧
      Arrives (buildPacket src dst 100#32 500#32 (PSH ||| ACK) 1024#16 (tsOption 7#32 9#32) [1#8, 2#8, 3#8]) src dst
        ⟨4000#16, 80#16, 100#32, 500#32, 32, PSH ||| ACK, 1024#16⟩ (tsOption 7#32 9#32) [1#8, 2#8, 3#8] ∧
      let h := Host.sample.run [.write [7#8], .pollTransmit 1#64]
      h.emitted.length = 1 ∧ ∀ pkt ∈ h.emitted, Issued Rat pkt := by
  intro src dst
  obtain ⟨harrives, -, hissued⟩ := packets_round_trip (F := Rat)
  refine ⟨rfl, ?_, by decide +kernel, hissued Host.sample Host.sample_fresh _⟩
  exact harrives src dst 100#32 500#32 (PSH ||| ACK) 1024#16 (tsOption 7#32 9#32) [1#8, 2#8, 3#8] (by decide)
    (by decide) (by decide)

end Connection
end TcpStack
