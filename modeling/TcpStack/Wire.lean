import TcpStack.Ip

/-!
# The TCP wire format

Header and option parsing over raw bytes, the option encoders and the packet
builder, and the two connection-less replies.
-/
namespace TcpStack.Tcp

def FIN : U8 := 0x01#8
def SYN : U8 := 0x02#8
def RST : U8 := 0x04#8
def PSH : U8 := 0x08#8
def ACK : U8 := 0x10#8

/-- `flags & bit != 0` -/
def hasFlag (flags bit : U8) : Bool := flags &&& bit != 0#8

theorem hasFlag_of_and {flags : U8} (h : flags &&& (SYN ||| ACK) = SYN ||| ACK) :
    hasFlag flags SYN = true ∧ hasFlag flags ACK = true := by
  have hall : ∀ f : U8, f &&& (SYN ||| ACK) = SYN ||| ACK →
      hasFlag f SYN = true ∧ hasFlag f ACK = true := by decide
  exact hall flags h

def optEnd : U8 := 0#8
def optNop : U8 := 1#8
def optMss : U8 := 2#8
def optWs : U8 := 3#8
def optSackPerm : U8 := 4#8
def optSack : U8 := 5#8
def optTs : U8 := 8#8

/-- A window-scale shift, capped at 14. -/
abbrev WScale := Fin 15

instance neZeroShifts : NeZero 15 := ⟨by decide⟩

theorem shift_clamped (shift : U8) : min shift.toNat 14 < 15 := by omega

def ourRcvWscale : WScale := 0
def maxSackBlocks : Nat := 3
def ourMss : U16 := 1460#16
def defaultSendMss : U16 := ourMss

/-- Parsed TCP options. The parser clamps the window scale, so its type does. -/
structure TcpOptions where
  mss : Option U16 := none
  timestamps : Option (U32 × U32) := none
  windowScale : Option WScale := none
  sackPermitted : Bool := false
  sackBlocks : List (U32 × U32) := List.replicate 4 (0#32, 0#32)
  sackBlockCount : Nat := 0
  deriving DecidableEq, Repr

/-- The valid SACK blocks: `&sack_blocks[..sack_block_count]`. -/
def TcpOptions.validBlocks (o : TcpOptions) : List (U32 × U32) := o.sackBlocks.take o.sackBlockCount

/-- Four big-endian bytes at `i`. -/
def readU32 (b : Bytes) (i : Nat) : Checked U32 := do
  return U32.fromBeBytes (← index b i) (← index b (i + 1)) (← index b (i + 2)) (← index b (i + 3))

def readU16 (b : Bytes) (i : Nat) : Checked U16 := do
  return U16.fromBeBytes (← index b i) (← index b (i + 1))

/-- Read `todo` blocks from the `k`-th on into the block array. -/
def readBlocks (data : Bytes) : Nat → Nat → List (U32 × U32) → Checked (List (U32 × U32))
  | 0, _, blocks => return blocks
  | todo+1, k, blocks => do
      let b ← slice data (k * 8) (k * 8 + 8)
      let left ← readU32 b 0
      let right ← readU32 b 4
      readBlocks data todo (k + 1) (blocks.set k (left, right))

/-- The meaning of one option; an unknown kind or a wrong length is skipped. -/
def readOption (kind : U8) (data : Bytes) (out : TcpOptions) : Checked TcpOptions := do
  if kind = optMss ∧ data.length = 2 then
    return { out with mss := some (← readU16 data 0) }
  else if kind = optTs ∧ data.length = 8 then
    return { out with timestamps := some (← readU32 data 0, ← readU32 data 4) }
  else if kind = optWs ∧ data.length = 1 then
    let shift ← index data 0
    return { out with windowScale := some ⟨min shift.toNat 14, shift_clamped shift⟩ }
  else if kind = optSackPerm ∧ data.isEmpty then
    return { out with sackPermitted := true }
  else if kind = optSack ∧ !data.isEmpty ∧ data.length % 8 = 0 then
    let n := min (data.length / 8) out.sackBlocks.length
    return { out with sackBlocks := ← readBlocks data n 0 out.sackBlocks, sackBlockCount := n }
  else
    return out

def parseOptionsLoop : Nat → Bytes → TcpOptions → Checked TcpOptions
  | 0, _, out => return out
  | fuel+1, rest, out => do
      if rest.isEmpty then
        return out
      let kind ← index rest 0
      if kind = optEnd then
        return out
      else if kind = optNop then
        parseOptionsLoop fuel (rest.drop 1) out
      else if 1 ≥ rest.length then
        return out  -- a kind with no length byte
      else
        let len := (← index rest 1).toNat
        if len < 2 ∨ len > rest.length then
          return out  -- malformed or overlong length
        else
          let data ← slice rest 2 len
          let out ← readOption kind data out
          parseOptionsLoop fuel (rest.drop len) out

def parseOptions (opts : Bytes) : Checked TcpOptions := parseOptionsLoop opts.length opts {}

def mssOption (mss : U16) : Bytes := [optMss, 4#8] ++ mss.toBeBytes

def wsOption (shift : WScale) : Bytes := [optNop, optWs, 3#8, BitVec.ofNat 8 shift]

def tsOption (tsval tsecr : U32) : Bytes :=
  [optNop, optNop, optTs, 10#8] ++ tsval.toBeBytes ++ tsecr.toBeBytes

def sackPermOption : Bytes := [optNop, optNop, optSackPerm, 2#8]

def sackOption (blocks : List (U32 × U32)) : Bytes :=
  let n := min blocks.length maxSackBlocks
  if n = 0 then []
  else [optNop, optNop, optSack, BitVec.ofNat 8 (2 + 8 * n)] ++
    (blocks.take n).flatMap (fun b => b.1.toBeBytes ++ b.2.toBeBytes)

structure TcpHeader where
  srcPort : U16
  dstPort : U16
  seq : U32
  ack : U32
  dataOffset : Nat
  flags : U8
  window : U16
  deriving DecidableEq, Repr

def parse (seg : Bytes) : Checked (Option TcpHeader) := do
  if seg.length < 20 then
    return none
  let dataOffset := ((← index seg 12) >>> 4).toNat * 4
  if dataOffset < 20 ∨ dataOffset > seg.length then
    return none
  return some {
    srcPort := ← readU16 seg 0
    dstPort := ← readU16 seg 2
    seq := ← readU32 seg 4
    ack := ← readU32 seg 8
    dataOffset
    flags := ← index seg 13
    window := ← readU16 seg 14 }

/-- A segment as the connection receives it: header, payload and options. -/
structure Segment where
  th : TcpHeader
  payload : Bytes
  opts : TcpOptions
  deriving DecidableEq, Repr

/-- What the receive paths do with the bytes after the IP header. -/
def readSegment (l4 : Bytes) : Checked (Option Segment) := do
  match ← parse l4 with
  | none => return none
  | some th =>
      let off := min th.dataOffset l4.length
      let payload ← slice l4 off l4.length
      let opts ← parseOptions (← slice l4 20 off)
      return some ⟨th, payload, opts⟩

abbrev Endpoint := Ipv4Addr × U16

/-- The 4-tuple a connection is known by. -/
structure Quad where
  remoteEnd : Endpoint
  localEnd : Endpoint
  deriving DecidableEq, Repr

/-- The 4-tuple as the other host has it. -/
def Quad.flip (q : Quad) : Quad := ⟨q.localEnd, q.remoteEnd⟩

def tcpChecksum (src dst : Ipv4Addr) (segment : Bytes) : U16 :=
  Utils.checksum (src.octets ++ dst.octets ++ [0#8, 6#8] ++
    U16.toBeBytes (BitVec.ofNat 16 segment.length) ++ segment)

def ipHeader (src dst : Ipv4Addr) (totalLen : Nat) : Bytes :=
  [0x45#8, 0#8] ++ U16.toBeBytes (BitVec.ofNat 16 totalLen) ++ [0#8, 0#8] ++
    U16.toBeBytes 0x4000#16 ++ [64#8, 6#8, 0#8, 0#8] ++ src.octets ++ dst.octets

def tcpSegment (srcPort dstPort : U16) (seq ack : U32) (flags : U8) (window csum : U16)
    (options payload : Bytes) : Bytes :=
  let tcpHdrLen := 20 + options.length
  srcPort.toBeBytes ++ dstPort.toBeBytes ++ seq.toBeBytes ++ ack.toBeBytes ++
    [BitVec.ofNat 8 (tcpHdrLen / 4) <<< 4, flags] ++ window.toBeBytes ++ csum.toBeBytes ++
    [0#8, 0#8] ++ options ++ payload

/-- Build a complete IPv4 + TCP packet. The checksum of the 20-byte IP header
is always in range, so the error branch is never taken. -/
def buildPacket (src dst : Endpoint) (seq ack : U32) (flags : U8) (window : U16)
    (options payload : Bytes) : Bytes :=
  let totalLen := 20 + (20 + options.length + payload.length)
  let hdr := match Ip.writeHeaderChecksum (ipHeader src.1 dst.1 totalLen) with
    | .ok hdr => hdr
    | .error _ => []
  let seg := tcpSegment src.2 dst.2 seq ack flags window 0#16 options payload
  hdr ++ tcpSegment src.2 dst.2 seq ack flags window (tcpChecksum src.1 dst.1 seg) options payload

/-- The SYN-ACK of a cookie handshake, with our MSS option only. -/
def buildSynCookieSynack (ipSrc ipDst : Ipv4Addr) (th : TcpHeader) (cookie : U32) : Bytes :=
  buildPacket (ipDst, th.dstPort) (ipSrc, th.srcPort) cookie (th.seq + 1#32) (SYN ||| ACK) 1024#16
    (mssOption ourMss) []

/-- The reset for a segment that no connection wants. -/
def buildRst (ipSrc ipDst : Ipv4Addr) (th : TcpHeader) (payloadLen : Nat) : Bytes :=
  let (seq, ack, flags) :=
    if hasFlag th.flags ACK then (th.ack, 0#32, RST)
    else
      let segLen := BitVec.ofNat 32 payloadLen + (if hasFlag th.flags SYN then 1#32 else 0#32) +
        (if hasFlag th.flags FIN then 1#32 else 0#32)
      (0#32, th.seq + segLen, RST ||| ACK)
  buildPacket (ipDst, th.dstPort) (ipSrc, th.srcPort) seq ack flags 0#16 [] []

/-- The segment a packet of this stack carries after its 20-byte IP header. -/
def decode (packet : Bytes) : Option Segment :=
  match readSegment (packet.drop 20) with
  | .ok (some s) => some s
  | _ => none

end TcpStack.Tcp
