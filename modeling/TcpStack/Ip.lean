import TcpStack.Checksum

/-!
# The IPv4, ICMP and UDP layers

Parsing and echo replies over raw bytes. Every index and slice of the source
is a checked operation here, so a packet on which the code would panic is one
on which these functions return an error.
-/
namespace TcpStack

abbrev Ipv4Addr := U32

def Ipv4Addr.new (a b c d : U8) : Ipv4Addr := U32.fromBeBytes a b c d

def Ipv4Addr.octets (a : Ipv4Addr) : Bytes := U32.toBeBytes a

namespace Ip

structure Ipv4Header where
  version : U8
  headerLen : Nat
  totalLen : Nat
  ttl : U8
  protocol : U8
  src : Ipv4Addr
  dst : Ipv4Addr
  deriving DecidableEq, Repr

inductive ParseError where
  | tooShort (have_ need : Nat)
  | notIpv4 (version : U8)
  | headerLongerThanPacket (headerLen have_ : Nat)
  | badTotalLength (totalLen headerLen : Nat)
  deriving DecidableEq, Repr

/-- Parse an IPv4 header from the front of `packet`. -/
def parse (packet : Bytes) : Checked (Except ParseError Ipv4Header) := do
  if packet.length < 20 then
    return .error (.tooShort packet.length 20)
  let version := (← index packet 0) >>> 4
  if version != 4#8 then
    return .error (.notIpv4 version)
  let ihl := ((← index packet 0) &&& 0x0f#8).toNat
  let headerLen := ihl * 4
  if packet.length < headerLen then
    return .error (.headerLongerThanPacket headerLen packet.length)
  let totalLen := (U16.fromBeBytes (← index packet 2) (← index packet 3)).toNat
  if totalLen < headerLen then
    return .error (.badTotalLength totalLen headerLen)
  let ttl ← index packet 8
  let protocol ← index packet 9
  let src := Ipv4Addr.new (← index packet 12) (← index packet 13) (← index packet 14)
    (← index packet 15)
  let dst := Ipv4Addr.new (← index packet 16) (← index packet 17) (← index packet 18)
    (← index packet 19)
  return .ok { version, headerLen, totalLen, ttl, protocol, src, dst }

def writeHeaderChecksum (header : Bytes) : Checked Bytes := do
  let header ← store header 10 0#8
  let header ← store header 11 0#8
  let c := (Utils.checksum header).toBeBytes
  let header ← store header 10 (c.getD 0 0#8)
  store header 11 (c.getD 1 0#8)

def verifyChecksum (header : Bytes) : Bool := Utils.checksum header == 0#16

/-- The edits both echo replies make to the IP header: swap the addresses,
refresh the TTL and rewrite the checksum of `reply[..headerLen]`. -/
def turnAround (reply : Bytes) (headerLen : Nat) : Checked Bytes := do
  let src ← slice reply 12 16
  let dst ← slice reply 16 20
  let reply ← copyFromSlice reply 12 16 dst
  let reply ← copyFromSlice reply 16 20 src
  let reply ← store reply 8 64#8
  let header ← writeHeaderChecksum (← slice reply 0 headerLen)
  return header ++ reply.drop headerLen

end Ip

namespace Icmp

structure IcmpHeader where
  typ : U8
  code : U8
  checksum : U16
  id : U16
  seq : U16
  deriving DecidableEq, Repr

def parse (payload : Bytes) : Checked (Option IcmpHeader) := do
  if payload.length < 8 then
    return none
  return some {
    typ := ← index payload 0
    code := ← index payload 1
    checksum := U16.fromBeBytes (← index payload 2) (← index payload 3)
    id := U16.fromBeBytes (← index payload 4) (← index payload 5)
    seq := U16.fromBeBytes (← index payload 6) (← index payload 7) }

def buildEchoReply (request : Bytes) (headerLen : Nat) : Checked (Option Bytes) := do
  if request.length < headerLen + 8 then
    return none
  if (← index request headerLen) != 8#8 then
    return none
  let reply ← Ip.turnAround request headerLen
  let reply ← store reply headerLen 0#8
  let reply ← store reply (headerLen + 2) 0#8
  let reply ← store reply (headerLen + 3) 0#8
  let c := (Utils.checksum (← slice reply headerLen reply.length)).toBeBytes
  let reply ← store reply (headerLen + 2) (c.getD 0 0#8)
  let reply ← store reply (headerLen + 3) (c.getD 1 0#8)
  return some reply

end Icmp

namespace Udp

structure UdpHeader where
  srcPort : U16
  dstPort : U16
  length : U16
  deriving DecidableEq, Repr

def parse (seg : Bytes) : Checked (Option UdpHeader) := do
  if seg.length < 8 then
    return none
  return some {
    srcPort := U16.fromBeBytes (← index seg 0) (← index seg 1)
    dstPort := U16.fromBeBytes (← index seg 2) (← index seg 3)
    length := U16.fromBeBytes (← index seg 4) (← index seg 5) }

def checksum (src dst : Ipv4Addr) (segment : Bytes) : U16 :=
  Utils.checksum (src.octets ++ dst.octets ++ [0#8, 17#8] ++
    U16.toBeBytes (BitVec.ofNat 16 segment.length) ++ segment)

def buildEchoReply (request : Bytes) (headerLen : Nat) : Checked (Option Bytes) := do
  if request.length < headerLen + 8 then
    return none
  let reply ← Ip.turnAround request headerLen
  let u := headerLen
  let sp ← slice reply u (u + 2)
  let dp ← slice reply (u + 2) (u + 4)
  let reply ← copyFromSlice reply u (u + 2) dp
  let reply ← copyFromSlice reply (u + 2) (u + 4) sp
  let src := Ipv4Addr.new (← index reply 12) (← index reply 13) (← index reply 14)
    (← index reply 15)
  let dst := Ipv4Addr.new (← index reply 16) (← index reply 17) (← index reply 18)
    (← index reply 19)
  let reply ← store reply (u + 6) 0#8
  let reply ← store reply (u + 7) 0#8
  let c := checksum src dst (← slice reply u reply.length)
  let reply ← copyFromSlice reply (u + 6) (u + 8) c.toBeBytes
  return some reply

end Udp
end TcpStack
