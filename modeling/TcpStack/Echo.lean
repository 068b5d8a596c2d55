import TcpStack.InternetSum
import TcpStack.RoundTrip

/-!
# Echo replies

Both echo replies copy the request, turn its IP header around and edit the
message behind it. The reply is the mirror image of the request: both of its
checksums verify, and no byte changes that the edit does not name.
-/
namespace TcpStack

theorem slice_at {a b c : Bytes} {i j : Nat} (hi : a.length = i) (hj : i + b.length = j) :
    slice (a ++ b ++ c) i j = .ok b := by
  rw [← hj, ← hi]
  exact Tcp.slice_middle a b c

theorem copyFromSlice_at {a b c ys : Bytes} {i j : Nat} (hi : a.length = i) (hj : i + b.length = j)
    (hy : ys.length = b.length) : copyFromSlice (a ++ b ++ c) i j ys = .ok (a ++ ys ++ c) := by
  have htake : (a ++ b ++ c).take i = a := by
    rw [List.append_assoc, List.take_left' hi]
  have hdrop : (a ++ b ++ c).drop j = c := List.drop_left' (by rw [List.length_append]; omega)
  rw [copyFromSlice, htake, hdrop]
  refine if_pos ⟨by omega, ?_, by omega⟩
  simp only [List.length_append]
  omega

/-- Two fields of one length, side by side: both are read, and each is written over the other. -/
theorem swap_at {pre a b : Bytes} (post : Bytes) {i j k : Nat} (hi : pre.length = i) (hj : i + a.length = j)
    (hk : j + b.length = k) (hsame : a.length = b.length) :
    slice (pre ++ a ++ b ++ post) i j = .ok a ∧ slice (pre ++ a ++ b ++ post) j k = .ok b ∧
      copyFromSlice (pre ++ a ++ b ++ post) i j b = .ok (pre ++ b ++ b ++ post) ∧
      copyFromSlice (pre ++ b ++ b ++ post) j k a = .ok (pre ++ b ++ a ++ post) := by
  have hfirst : ∀ x : Bytes, pre ++ x ++ b ++ post = pre ++ x ++ (b ++ post) := fun x => List.append_assoc _ _ _
  have hnext : ∀ x : Bytes, x.length = a.length → (pre ++ x).length = j := by
    intro x hx
    rw [List.length_append, hx]
    omega
  refine ⟨?_, slice_at (hnext a rfl) hk, ?_, copyFromSlice_at (hnext b hsame.symm) hk hsame⟩
  · rw [hfirst]
    exact slice_at hi hj
  · rw [hfirst, hfirst]
    exact copyFromSlice_at hi hj hsame.symm

theorem store_at {a c : Bytes} {x : U8} {i : Nat} (hi : a.length = i) (v : U8) :
    store (a ++ x :: c) i v = .ok (a ++ v :: c) := by
  rw [store_of_lt (by rw [List.length_append, List.length_cons]; omega),
    List.set_append_right _ _ (by omega), hi, Nat.sub_self,
    List.set_cons_zero]

theorem index_at {a c : Bytes} {x : U8} {i : Nat} (hi : a.length = i) : index (a ++ x :: c) i = .ok x := by
  refine Tcp.index_of_getElem? ?_
  rw [List.getElem?_append_right (by omega), hi, Nat.sub_self, List.getElem?_cons_zero]

theorem slice_rest {a b : Bytes} {i n : Nat} (hi : a.length = i) (hn : (a ++ b).length = n) :
    slice (a ++ b) i n = .ok b := by
  rw [← hi, ← hn]
  exact Tcp.slice_append_right a b

theorem getElem?_outside {a b ys c : Bytes} (hy : ys.length = b.length) {i : Nat}
    (hi : i < a.length ∨ a.length + b.length ≤ i) : (a ++ ys ++ c)[i]? = (a ++ b ++ c)[i]? := by
  rcases hi with hi | hi
  · rw [List.append_assoc, List.append_assoc, List.getElem?_append_left hi, List.getElem?_append_left hi]
  · have hlen : (a ++ ys).length = (a ++ b).length := by rw [List.length_append, List.length_append, hy]
    have hle : (a ++ b).length ≤ i := by rwa [List.length_append]
    rw [List.getElem?_append_right (hlen ▸ hle), List.getElem?_append_right hle, hlen]

theorem getElem?_behind {a b : Bytes} {n : Nat} (hn : a.length = n) (j : Nat) : (a ++ b)[n + j]? = b[j]? := by
  rw [List.getElem?_append_right (by omega), hn, Nat.add_sub_cancel_left]

namespace Ip

/-- An IP header, cut around what a reply edits. -/
structure Cut where
  front : Bytes
  ttl : U8
  protocol : U8
  csum : Bytes
  src : Bytes
  dst : Bytes
  options : Bytes
  front_length : front.length = 8
  csum_length : csum.length = 2
  src_length : src.length = 4
  dst_length : dst.length = 4

namespace Cut

def header (c : Cut) : Bytes := c.front ++ [c.ttl, c.protocol] ++ c.csum ++ (c.src ++ c.dst ++ c.options)

theorem header_length (c : Cut) : c.header.length = 20 + c.options.length := by
  simp only [header, List.length_append, c.front_length, c.csum_length, c.src_length, c.dst_length, List.length_cons,
    List.length_nil]
  omega

theorem pre_length (c : Cut) : (c.front ++ [c.ttl, c.protocol]).length = 10 := by
  rw [List.length_append, c.front_length]
  rfl

/-- A string of at least `n` bytes, cut after the first `n`. -/
theorem exists_split {xs : Bytes} {n : Nat} (h : n ≤ xs.length) : ∃ a b : Bytes, xs = a ++ b ∧ a.length = n :=
  ⟨xs.take n, xs.drop n, (List.take_append_drop n xs).symm, List.length_take_of_le h⟩

theorem exists_header {head : Bytes} (h : 20 ≤ head.length) : ∃ c : Cut, c.header = head := by
  obtain ⟨front, rest, rfl, hfront⟩ := exists_split (show 8 ≤ head.length by omega)
  rw [List.length_append] at h
  match rest, h with
  | [], h => exact absurd h (by simp; omega)
  | [_], h => exact absurd h (by simp; omega)
  | ttl :: protocol :: rest, h =>
    rw [List.length_cons, List.length_cons] at h
    obtain ⟨csum, rest, rfl, hcsum⟩ := exists_split (show 2 ≤ rest.length by omega)
    rw [List.length_append] at h
    obtain ⟨src, rest, rfl, hsrc⟩ := exists_split (show 4 ≤ rest.length by omega)
    rw [List.length_append] at h
    obtain ⟨dst, options, rfl, hdst⟩ := exists_split (show 4 ≤ rest.length by omega)
    refine ⟨⟨front, ttl, protocol, csum, src, dst, options, hfront, hcsum, hsrc, hdst⟩, ?_⟩
    simp only [header, List.append_assoc, List.cons_append, List.nil_append]

/-- The addresses swapped and the TTL reset, before the checksum is rewritten. -/
def swapped (c : Cut) : Cut :=
  { c with ttl := 64#8, src := c.dst, dst := c.src, src_length := c.dst_length, dst_length := c.src_length }

def turned (c : Cut) : Cut :=
  { c.swapped with
    csum := (Utils.checksum (c.front ++ [64#8, c.protocol] ++ [0#8, 0#8] ++ (c.dst ++ c.src ++ c.options))).toBeBytes
    csum_length := rfl }

theorem writeHeaderChecksum_header (c : Cut) : writeHeaderChecksum c.header =
    .ok { c with csum := (Utils.checksum { c with csum := [0#8, 0#8], csum_length := rfl }.header).toBeBytes,
                 csum_length := rfl }.header := by
  obtain ⟨a, b, hab⟩ := List.length_eq_two.mp c.csum_length
  rw [header, hab]
  exact writeHeaderChecksum_field c.pre_length

theorem turned_verifies (c : Cut) : Utils.checksum c.turned.header = 0#16 := by
  refine Utils.checksum_filled ?_
  rw [c.turned.pre_length]

theorem turned_kept (c : Cut) (rest : Bytes) {i : Nat} (h8 : i ≠ 8) (hi : i < 10 ∨ 20 ≤ i) :
    (c.turned.header ++ rest)[i]? = (c.header ++ rest)[i]? := by
  have hshape : ∀ d : Cut, d.header ++ rest = (d.front ++ [d.ttl, d.protocol]) ++ (d.csum ++ d.src ++ d.dst) ++
      (d.options ++ rest) := by
    intro d
    simp only [header, List.append_assoc]
  have hlen : ∀ d : Cut, (d.csum ++ d.src ++ d.dst).length = 10 := by
    intro d
    simp only [List.length_append, d.csum_length, d.src_length, d.dst_length]
  have hedit : (c.turned.header ++ rest)[i]? =
      ((c.front ++ [64#8, c.protocol]) ++ (c.csum ++ c.src ++ c.dst) ++ (c.options ++ rest))[i]? := by
    rw [hshape]
    refine getElem?_outside ((hlen _).trans (hlen _).symm) ?_
    rw [c.turned.pre_length, hlen]
    omega
  have hsplit : ∀ ttl : U8, (c.front ++ [ttl, c.protocol]) ++ (c.csum ++ c.src ++ c.dst) ++ (c.options ++ rest) =
      c.front ++ [ttl] ++ (c.protocol :: (c.csum ++ c.src ++ c.dst ++ (c.options ++ rest))) := by
    intro ttl
    simp only [List.append_assoc, List.cons_append, List.nil_append]
  rw [hedit, hshape, hsplit, hsplit]
  refine getElem?_outside (show [64#8].length = [c.ttl].length from rfl) ?_
  rw [c.front_length, List.length_singleton]
  omega

end Cut

theorem turnAround_header (c : Cut) (rest : Bytes) :
    turnAround (c.header ++ rest) c.header.length = .ok (c.turned.header ++ rest) := by
  have hfront := c.front_length
  have hsrc := c.src_length
  have hdst := c.dst_length
  have hpre : (c.front ++ [c.ttl, c.protocol] ++ c.csum).length = 12 := by
    rw [List.length_append, c.pre_length, c.csum_length]
  have haddresses : c.header ++ rest = c.front ++ [c.ttl, c.protocol] ++ c.csum ++ c.src ++ c.dst ++
      (c.options ++ rest) := by
    simp only [Cut.header, List.append_assoc]
  obtain ⟨hreadSrc, hreadDst, hwriteSrc, hwriteDst⟩ := swap_at (c.options ++ rest) (k := 20) hpre
    (show 12 + c.src.length = 16 by omega) (by omega) (hsrc.trans hdst.symm)
  unfold turnAround
  rw [haddresses, hreadSrc, Checked.ok_bind, hreadDst, Checked.ok_bind, hwriteSrc, Checked.ok_bind,
    hwriteDst, Checked.ok_bind]
  have hswapped : c.front ++ [c.ttl, c.protocol] ++ c.csum ++ c.dst ++ c.src ++ (c.options ++ rest) =
      c.front ++ c.ttl :: (c.protocol :: (c.csum ++ c.dst ++ c.src ++ c.options ++ rest)) := by
    simp only [List.append_assoc, List.cons_append, List.nil_append]
  have hheader : c.front ++ 64#8 :: (c.protocol :: (c.csum ++ c.dst ++ c.src ++ c.options ++ rest)) =
      [] ++ c.swapped.header ++ rest := by
    simp only [Cut.header, Cut.swapped, List.append_assoc, List.cons_append, List.nil_append]
  have hlen : c.swapped.header.length = c.header.length := by rw [Cut.header_length, Cut.header_length]; rfl
  rw [hswapped, store_at hfront, Checked.ok_bind, hheader,
    slice_at (show ([] : Bytes).length = 0 from rfl) (by rw [hlen]; omega), Checked.ok_bind,
    c.swapped.writeHeaderChecksum_header, Checked.ok_bind, List.nil_append, List.drop_left' hlen]
  rfl

/-- The address whose bytes begin at `i`. -/
def addressAt (packet : Bytes) (i : Nat) : Ipv4Addr :=
  Ipv4Addr.new (packet.getD i 0#8) (packet.getD (i + 1) 0#8) (packet.getD (i + 2) 0#8) (packet.getD (i + 3) 0#8)

theorem octets_addressAt {b : Bytes} (h : b.length = 4) : (addressAt b 0).octets = b := by
  match b, h with
  | [_, _, _, _], _ => exact U32.toBeBytes_fromBeBytes _ _ _ _

theorem Cut.drop_addresses (c : Cut) (rest : Bytes) :
    (c.header ++ rest).drop 12 = c.src ++ (c.dst ++ (c.options ++ rest)) := by
  have hsplit : c.header ++ rest = (c.front ++ [c.ttl, c.protocol] ++ c.csum) ++
      (c.src ++ (c.dst ++ (c.options ++ rest))) := by
    simp only [header, List.append_assoc]
  have hpre : (c.front ++ [c.ttl, c.protocol] ++ c.csum).length = 12 := by
    rw [List.length_append, c.pre_length, c.csum_length]
  rw [hsplit, List.drop_left' hpre]

theorem Cut.getD_src (c : Cut) (rest : Bytes) {i : Nat} (hi : i < 4) :
    (c.header ++ rest).getD (12 + i) 0#8 = c.src.getD i 0#8 := by
  rw [List.getD_eq_getElem?_getD, List.getD_eq_getElem?_getD, ← List.getElem?_drop, c.drop_addresses,
    List.getElem?_append_left (by rw [c.src_length]; exact hi)]

theorem Cut.getD_dst (c : Cut) (rest : Bytes) {i : Nat} (hi : i < 4) :
    (c.header ++ rest).getD (16 + i) 0#8 = c.dst.getD i 0#8 := by
  rw [List.getD_eq_getElem?_getD, List.getD_eq_getElem?_getD, Nat.add_assoc 12 4 i,
    ← List.getElem?_drop, c.drop_addresses,
    getElem?_behind c.src_length, List.getElem?_append_left (by rw [c.dst_length]; exact hi)]

theorem Cut.addressAt_src (c : Cut) (rest : Bytes) : addressAt (c.header ++ rest) 12 = addressAt c.src 0 := by
  unfold addressAt
  rw [c.getD_src rest (show 1 < 4 by omega), c.getD_src rest (show 2 < 4 by omega),
    c.getD_src rest (show 3 < 4 by omega)]
  exact congrArg (Ipv4Addr.new · _ _ _) (c.getD_src rest (show 0 < 4 by omega))

theorem Cut.addressAt_dst (c : Cut) (rest : Bytes) : addressAt (c.header ++ rest) 16 = addressAt c.dst 0 := by
  unfold addressAt
  rw [c.getD_dst rest (show 1 < 4 by omega), c.getD_dst rest (show 2 < 4 by omega),
    c.getD_dst rest (show 3 < 4 by omega)]
  exact congrArg (Ipv4Addr.new · _ _ _) (c.getD_dst rest (show 0 < 4 by omega))

theorem Cut.turned_length (c : Cut) : c.turned.header.length = c.header.length := by
  rw [Cut.header_length, Cut.header_length]
  rfl

end Ip

theorem Icmp.buildEchoReply_cut (c : Ip.Cut) (code : U8) {csum body : Bytes} (hcsum : csum.length = 2)
    (hbody : 4 ≤ body.length) :
    Icmp.buildEchoReply (c.header ++ ([8#8, code] ++ csum ++ body)) c.header.length =
      .ok (some (c.turned.header ++
        ([0#8, code] ++ (Utils.checksum ([0#8, code] ++ [0#8, 0#8] ++ body)).toBeBytes ++ body))) := by
  obtain ⟨x, y, hxy⟩ := List.length_eq_two.mp hcsum
  subst hxy
  have hlong : ¬ (c.header ++ ([8#8, code] ++ [x, y] ++ body)).length < c.header.length + 8 := by
    simp only [List.length_append, List.length_cons, List.length_nil]
    omega
  have htype : index (c.header ++ ([8#8, code] ++ [x, y] ++ body)) c.header.length = .ok 8#8 := index_at rfl
  unfold buildEchoReply
  rw [if_neg hlong, htype, Checked.ok_bind, if_neg (by decide), Ip.turnAround_header, Checked.ok_bind]
  have hlen := c.turned_length
  generalize c.turned.header = header at hlen ⊢
  generalize c.header.length = n at hlen ⊢
  have hstore : ∀ a b v : U8, store (header ++ ([0#8, code] ++ [a, b] ++ body)) (n + 2) v =
        .ok (header ++ ([0#8, code] ++ [v, b] ++ body)) ∧
      store (header ++ ([0#8, code] ++ [a, b] ++ body))
        (n + 3) v = .ok (header ++ ([0#8, code] ++ [a, v] ++ body)) := by
    intro a b v
    have hhigh : ∀ a : U8, header ++ ([0#8, code] ++ [a, b] ++ body) = (header ++ [0#8, code]) ++ a :: b :: body := by
      simp
    have hlow : ∀ b : U8, header ++ ([0#8, code] ++ [a, b] ++ body) = (header ++ [0#8, code, a]) ++ b :: body := by
      simp
    refine ⟨?_, ?_⟩
    · rw [hhigh, hhigh]
      exact store_at (by rw [List.length_append, hlen]; rfl) v
    · rw [hlow, hlow]
      exact store_at (by rw [List.length_append, hlen]; rfl) v
  have hcleared : store (header ++ ([8#8, code] ++ [x, y] ++ body)) n 0#8 =
      .ok (header ++ ([0#8, code] ++ [x, y] ++ body)) := store_at hlen 0#8
  rw [hcleared, Checked.ok_bind, (hstore x y 0#8).1, Checked.ok_bind, (hstore 0#8 y 0#8).2, Checked.ok_bind,
    slice_rest hlen rfl, Checked.ok_bind]
  dsimp only
  rw [(hstore 0#8 0#8 _).1, Checked.ok_bind, (hstore _ 0#8 _).2, Checked.ok_bind]
  rfl

theorem Udp.buildEchoReply_cut (c : Ip.Cut) {sp dp len csum : Bytes} (data : Bytes) (hsp : sp.length = 2)
    (hdp : dp.length = 2) (hlength : len.length = 2) (hcsum : csum.length = 2) :
    Udp.buildEchoReply (c.header ++ (sp ++ dp ++ len ++ csum ++ data)) c.header.length =
      .ok (some (c.turned.header ++ (dp ++ sp ++ len ++ (Udp.checksum (Ip.addressAt c.dst 0) (Ip.addressAt c.src 0)
        (dp ++ sp ++ len ++ [0#8, 0#8] ++ data)).toBeBytes ++ data))) := by
  obtain ⟨x, y, hxy⟩ := List.length_eq_two.mp hcsum
  subst hxy
  have hlong : ¬ (c.header ++ (sp ++ dp ++ len ++ [x, y] ++ data)).length < c.header.length + 8 := by
    simp only [List.length_append, List.length_cons, List.length_nil]
    omega
  have hindex : ∀ (rest : Bytes), ∀ i < 20,
      index (c.turned.header ++ rest) i = .ok ((c.turned.header ++ rest).getD i 0#8) := by
    intro rest i hi
    refine index_of_lt ?_
    rw [List.length_append, c.turned.header_length]
    omega
  have hsrc : ∀ rest, Ip.addressAt (c.turned.header ++ rest) 12 = Ip.addressAt c.dst 0 := c.turned.addressAt_src
  have hdst : ∀ rest, Ip.addressAt (c.turned.header ++ rest) 16 = Ip.addressAt c.src 0 := c.turned.addressAt_dst
  unfold buildEchoReply
  rw [if_neg hlong, Ip.turnAround_header, Checked.ok_bind]
  have hlen := c.turned_length
  generalize c.turned.header = header at hlen hindex hsrc hdst ⊢
  generalize c.header.length = n at hlen ⊢
  have hports : ∀ a b : Bytes, header ++ (a ++ b ++ len ++ [x, y] ++ data) = header ++ a ++ b ++
      (len ++ [x, y] ++ data) := by
    intro a b
    simp only [List.append_assoc]
  obtain ⟨hreadSp, hreadDp, hwriteSp, hwriteDp⟩ := swap_at (len ++ [x, y] ++ data) (k := n + 4) hlen
    (show n + sp.length = n + 2 by omega) (show n + 2 + dp.length = n + 4 by omega) (hsp.trans hdp.symm)
  dsimp only
  rw [hports sp dp, hreadSp, Checked.ok_bind, hreadDp, Checked.ok_bind, hwriteSp, Checked.ok_bind,
    hwriteDp, Checked.ok_bind,
    ← hports dp sp]
  have hidx := hindex (dp ++ sp ++ len ++ [x, y] ++ data)
  rw [hidx 12 (by decide), hidx 13 (by decide), hidx 14 (by decide), hidx 15 (by decide), hidx 16 (by decide),
    hidx 17 (by decide), hidx 18 (by decide), hidx 19 (by decide)]
  simp only [Checked.ok_bind]
  have hread : ∀ (p : Bytes) (i : Nat), Ipv4Addr.new (p.getD i 0#8) (p.getD (i + 1) 0#8) (p.getD (i + 2) 0#8)
      (p.getD (i + 3) 0#8) = Ip.addressAt p i := fun _ _ => rfl
  rw [hread _ 12, hread _ 16, hsrc, hdst]
  have hfield : ∀ a b : U8, header ++ (dp ++ sp ++ len ++ [a, b] ++ data) = (header ++ (dp ++ sp ++ len)) ++
      a :: b :: data := by
    intro a b
    simp only [List.append_assoc, List.cons_append, List.nil_append]
  have hsplit : ∀ a b : U8, header ++ (dp ++ sp ++ len ++ [a, b] ++ data) = (header ++ (dp ++ sp ++ len ++ [a])) ++
      b :: data := by
    intro a b
    simp only [List.append_assoc, List.cons_append, List.nil_append]
  have hsix : (header ++ (dp ++ sp ++ len)).length = n + 6 := by
    simp only [List.length_append, hlen, hsp, hdp, hlength]
  have hseven : (header ++ (dp ++ sp ++ len ++ [0#8])).length = n + 7 := by
    simp only [List.length_append, hlen, hsp, hdp, hlength, List.length_singleton]
  have hwhole : ∀ a b : U8, header ++ (dp ++ sp ++ len ++ [a, b] ++ data) = header ++ (dp ++ sp ++ len) ++
      [a, b] ++ data := by
    intro a b
    simp only [List.append_assoc]
  rw [hfield x y, store_at hsix, Checked.ok_bind, ← hfield 0#8 y, hsplit 0#8 y, store_at hseven,
    Checked.ok_bind, ← hsplit,
    slice_rest hlen rfl, Checked.ok_bind, hwhole,
    copyFromSlice_at hsix (show n + 6 + [0#8, 0#8].length = n + 8 from rfl) (U16.toBeBytes_length _), Checked.ok_bind]
  simp only [List.append_assoc]
  rfl

/-- The reply is the request with its IP header turned around. -/
structure Ip.Mirrors (request reply : Bytes) (headerLen : Nat) : Prop where
  length : reply.length = request.length
  verifies : Utils.checksum (reply.take headerLen) = 0#16
  ttl : reply[8]? = some 64#8
  source : (reply.drop 12).take 4 = (request.drop 16).take 4
  destination : (reply.drop 16).take 4 = (request.drop 12).take 4
  kept : ∀ i < headerLen, i ≠ 8 → i < 10 ∨ 20 ≤ i → reply[i]? = request[i]?

theorem Ip.Cut.take_src (c : Ip.Cut) (rest : Bytes) : ((c.header ++ rest).drop 12).take 4 = c.src := by
  rw [c.drop_addresses, List.take_left' c.src_length]

theorem Ip.Cut.take_dst (c : Ip.Cut) (rest : Bytes) : ((c.header ++ rest).drop 16).take 4 = c.dst := by
  have hdrop : (c.header ++ rest).drop 16 = ((c.header ++ rest).drop 12).drop 4 := by rw [List.drop_drop]
  rw [hdrop, c.drop_addresses, List.drop_left' c.src_length, List.take_left' c.dst_length]

theorem Ip.Cut.mirrors (c : Ip.Cut) {old new : Bytes} (hlen : new.length = old.length) :
    Ip.Mirrors (c.header ++ old) (c.turned.header ++ new) c.header.length := by
  constructor
  · rw [List.length_append, List.length_append, c.turned_length, hlen]
  · rw [List.take_left' c.turned_length]
    exact c.turned_verifies
  · have hsplit : c.turned.header ++ new =
        c.front ++ 64#8 :: (c.protocol :: (c.turned.csum ++ (c.dst ++ c.src ++ c.options) ++ new)) := by
      simp only [header, turned, swapped, List.append_assoc, List.cons_append, List.nil_append]
    have hfront := c.front_length
    rw [hsplit, List.getElem?_append_right (by omega), hfront, List.getElem?_cons_zero]
  · rw [c.turned.take_src, c.take_dst]
    rfl
  · rw [c.turned.take_dst, c.take_src]
    rfl
  · intro i hi h8 hout
    rw [List.getElem?_append_left (by rw [c.turned_length]; exact hi), List.getElem?_append_left hi]
    have hkept := c.turned_kept [] h8 hout
    rwa [List.append_nil, List.append_nil] at hkept

theorem Icmp.reply_mirrors (c : Ip.Cut) (code x y : U8) {body : Bytes} (hbody : 4 ≤ body.length) :
    ∃ reply, Icmp.buildEchoReply (c.header ++ (8#8 :: code :: x :: y :: body)) c.header.length = .ok (some reply) ∧
      Ip.Mirrors (c.header ++ (8#8 :: code :: x :: y :: body)) reply c.header.length ∧
      reply[c.header.length]? = some 0#8 ∧ Utils.checksum (reply.drop c.header.length) = 0#16 ∧
      ∀ i, c.header.length < i → i ≠ c.header.length + 2 → i ≠ c.header.length + 3 →
        reply[i]? = (c.header ++ (8#8 :: code :: x :: y :: body))[i]? := by
  have hlen := c.turned_length
  refine ⟨_, buildEchoReply_cut c code (show [x, y].length = 2 from rfl) hbody, c.mirrors rfl, ?_, ?_, ?_⟩
  · rw [List.getElem?_append_right (by omega), hlen, Nat.sub_self]
    rfl
  · rw [List.drop_left' hlen]
    exact Utils.checksum_filled (by decide : 2 % 2 = 0)
  · intro i hi h2 h3
    obtain ⟨j, rfl⟩ : ∃ j, i = c.header.length + j := ⟨i - c.header.length, by omega⟩
    rw [getElem?_behind hlen, getElem?_behind rfl]
    match j with
    | 0 => omega
    | 1 => rfl
    | 2 => exact absurd rfl h2
    | 3 => exact absurd rfl h3
    | j+4 => rfl

theorem Udp.checksum_stored (src dst : Ipv4Addr) {pre post : Bytes} (heven : pre.length % 2 = 0) :
    Udp.checksum src dst (pre ++ (Udp.checksum src dst (pre ++ [0#8, 0#8] ++ post)).toBeBytes ++ post) = 0#16 := by
  have hshape : ∀ field : Bytes, field.length = 2 → Udp.checksum src dst (pre ++ field ++ post) =
      Utils.checksum ((src.octets ++ dst.octets ++ [0#8, 17#8] ++
        U16.toBeBytes (BitVec.ofNat 16 (pre.length + 2 + post.length)) ++ pre) ++ field ++ post) := by
    intro field hfield
    rw [Udp.checksum, List.length_append, List.length_append, hfield]
    simp only [List.append_assoc]
  rw [hshape _ (U16.toBeBytes_length _), hshape _ rfl]
  refine Utils.checksum_filled ?_
  rw [List.length_append]
  have hpseudo : (src.octets ++ dst.octets ++ [0#8, 17#8] ++
      U16.toBeBytes (BitVec.ofNat 16 (pre.length + 2 + post.length))).length = 12 := rfl
  omega

theorem Udp.reply_mirrors (c : Ip.Cut) (s₀ s₁ d₀ d₁ l₀ l₁ x y : U8) (data : Bytes) :
    ∃ reply, Udp.buildEchoReply (c.header ++ (s₀ :: s₁ :: d₀ :: d₁ :: l₀ :: l₁ :: x :: y :: data)) c.header.length =
        .ok (some reply) ∧
      Ip.Mirrors (c.header ++ (s₀ :: s₁ :: d₀ :: d₁ :: l₀ :: l₁ :: x :: y :: data)) reply c.header.length ∧
      (reply.drop c.header.length).take 2 = [d₀, d₁] ∧ (reply.drop (c.header.length + 2)).take 2 = [s₀, s₁] ∧
      Udp.checksum (Ip.addressAt c.dst 0) (Ip.addressAt c.src 0) (reply.drop c.header.length) = 0#16 ∧
      ∀ i, c.header.length + 4 ≤ i → i ≠ c.header.length + 6 → i ≠ c.header.length + 7 →
        reply[i]? = (c.header ++ (s₀ :: s₁ :: d₀ :: d₁ :: l₀ :: l₁ :: x :: y :: data))[i]? := by
  have hlen := c.turned_length
  have hreply := buildEchoReply_cut c data (show [s₀, s₁].length = 2 from rfl) (show [d₀, d₁].length = 2 from rfl)
    (show [l₀, l₁].length = 2 from rfl) (show [x, y].length = 2 from rfl)
  refine ⟨_, hreply, c.mirrors rfl, ?_, ?_, ?_, ?_⟩
  · rw [List.drop_left' hlen]
    rfl
  · rw [← List.drop_drop, List.drop_left' hlen]
    rfl
  · rw [List.drop_left' hlen]
    exact Udp.checksum_stored _ _ (by decide : 6 % 2 = 0)
  · intro i hi h6 h7
    obtain ⟨j, rfl⟩ : ∃ j, i = c.header.length + j := ⟨i - c.header.length, by omega⟩
    rw [getElem?_behind hlen, getElem?_behind rfl]
    match j with
    | 0 | 1 | 2 | 3 => omega
    | 4 => rfl
    | 5 => rfl
    | 6 => exact absurd rfl h6
    | 7 => exact absurd rfl h7
    | j+8 => rfl

/-- For every echo request and every datagram behind an IP header, the reply is
a mirror image whose two checksums verify. -/
theorem echo_replies_mirror {request : Bytes} {headerLen : Nat} (hheader : 20 ≤ headerLen)
    (hlong : headerLen + 8 ≤ request.length) :
    (request[headerLen]? = some 8#8 → ∃ reply, Icmp.buildEchoReply request headerLen = .ok (some reply) ∧
      Ip.Mirrors request reply headerLen ∧ reply[headerLen]? = some 0#8 ∧
      Utils.checksum (reply.drop headerLen) = 0#16 ∧
      ∀ i, headerLen < i → i ≠ headerLen + 2 → i ≠ headerLen + 3 → reply[i]? = request[i]?) ∧
    ∃ reply, Udp.buildEchoReply request headerLen = .ok (some reply) ∧ Ip.Mirrors request reply headerLen ∧
      (reply.drop headerLen).take 2 = (request.drop (headerLen + 2)).take 2 ∧
      (reply.drop (headerLen + 2)).take 2 = (request.drop headerLen).take 2 ∧
      Udp.checksum (Ip.addressAt request 16) (Ip.addressAt request 12) (reply.drop headerLen) = 0#16 ∧
      ∀ i, headerLen + 4 ≤ i → i ≠ headerLen + 6 → i ≠ headerLen + 7 → reply[i]? = request[i]? := by
  obtain ⟨head, rest, rfl, hlen⟩ := Ip.Cut.exists_split (show headerLen ≤ request.length by omega)
  obtain ⟨c, rfl⟩ := Ip.Cut.exists_header (hlen ▸ hheader)
  subst hlen
  rw [List.length_append] at hlong
  obtain ⟨first, data, rfl, hfirst⟩ := Ip.Cut.exists_split (show 8 ≤ rest.length by omega)
  match first, hfirst with
  | [s₀, s₁, d₀, d₁, l₀, l₁, x, y], _ =>
    constructor
    · intro htype
      have hs : s₀ = 8#8 := by
        rw [List.getElem?_append_right (Nat.le_refl _), Nat.sub_self] at htype
        exact Option.some.inj htype
      subst hs
      exact Icmp.reply_mirrors c s₁ d₀ d₁ (show 4 ≤ (l₀ :: l₁ :: x :: y :: data).length by simp)
    · obtain ⟨reply, hreply, hmirrors, hto, hfrom, hverifies, hkept⟩ := Udp.reply_mirrors c s₀ s₁ d₀ d₁ l₀ l₁ x y data
      refine ⟨reply, hreply, hmirrors, ?_, ?_, ?_, hkept⟩
      · rw [hto, ← List.drop_drop, List.drop_left' rfl]
        rfl
      · rw [hfrom, List.drop_left' rfl]
        rfl
      · rw [c.addressAt_dst, c.addressAt_src]
        exact hverifies

/-- An echo request with an IP option and an odd payload. -/
def oddPing : Bytes := [0x46#8, 0#8, 0#8, 0x21#8, 0#8, 0#8, 0x40#8, 0#8, 9#8, 1#8, 0xed#8, 0x87#8,
    0xc0#8, 0xa8#8, 0#8, 1#8,
  0xc0#8, 0xa8#8, 0#8, 2#8, 1#8, 1#8, 1#8, 0#8, 8#8, 0#8, 0x96#8, 0xfd#8, 0#8, 1#8, 0#8, 1#8, 0x61#8]

theorem oddPing_mirrored : ∃ reply, Icmp.buildEchoReply oddPing 24 = .ok (some reply) ∧ Ip.Mirrors oddPing reply 24 ∧
    Utils.checksum (reply.drop 24) = 0#16 := by
  obtain ⟨reply, hreply, hmirrors, -, hverifies, -⟩ := (echo_replies_mirror (show 20 ≤ 24 by decide)
    (show 24 + 8 ≤ oddPing.length by decide)).1 rfl
  exact ⟨reply, hreply, hmirrors, hverifies⟩

/-- What the reply's checksum adds up: addresses, protocol, length, ports and
length field, and data. -/
def Udp.replySum (request : Bytes) (headerLen : Nat) : Nat :=
  Utils.wordSum ((request.drop 12).take 8) + 17 + (request.length - headerLen) % 65536 +
    Utils.wordSum ((request.drop headerLen).take 6) + Utils.wordSum (request.drop (headerLen + 8))

theorem Udp.reply_wordSum (c : Ip.Cut) (s₀ s₁ d₀ d₁ l₀ l₁ x y : U8) (data : Bytes) :
    Utils.wordSum (c.dst ++ c.src ++ [0#8, 17#8] ++ U16.toBeBytes (BitVec.ofNat 16 (8 + data.length)) ++
      ([d₀, d₁] ++ [s₀, s₁] ++ [l₀, l₁] ++ [0#8, 0#8] ++ data)) =
      replySum (c.header ++ (s₀ :: s₁ :: d₀ :: d₁ :: l₀ :: l₁ :: x :: y :: data)) c.header.length := by
  have hsrc := c.src_length
  have hdst := c.dst_length
  have haddresses : ((c.header ++ (s₀ :: s₁ :: d₀ :: d₁ :: l₀ :: l₁ :: x :: y :: data)).drop 12).take 8 =
      c.src ++ c.dst := by
    rw [c.drop_addresses, ← List.append_assoc, List.take_left' (by rw [List.length_append, hsrc, hdst])]
  have hports : Utils.wordSum ([d₀, d₁] ++ [s₀, s₁] ++ [l₀, l₁] ++ [0#8, 0#8] ++ data) =
      Utils.wordSum [s₀, s₁, d₀, d₁, l₀, l₁] + Utils.wordSum data := by
    have hempty : (U16.fromBeBytes 0#8 0#8).toNat = 0 := rfl
    simp only [List.cons_append, List.nil_append, Utils.wordSum, hempty]
    omega
  have hprotocol : Utils.wordSum [0#8, 17#8] = 17 := rfl
  have hlength : (U16.toBeBytes (BitVec.ofNat 16 (8 + data.length))).length = 2 := rfl
  have hbehind : ∀ rest : Bytes, (c.header ++ rest).drop (c.header.length + 8) = rest.drop 8 := fun rest => by
    rw [← List.drop_drop, List.drop_left' rfl]
  have hfront : ∀ rest : Bytes, (c.header ++ rest).drop c.header.length = rest := fun rest => List.drop_left' rfl
  have hcount : (s₀ :: s₁ :: d₀ :: d₁ :: l₀ :: l₁ :: x :: y :: data).length = 8 + data.length := by
    simp only [List.length_cons]
    omega
  rw [replySum, haddresses, hbehind, hfront, List.length_append, Nat.add_sub_cancel_left, hcount]
  rw [Utils.wordSum_append _ _
      (by simp only [List.length_append, hsrc, hdst, hlength, List.length_cons, List.length_nil]),
    Utils.wordSum_append _ _ (by simp only [List.length_append, hsrc, hdst, List.length_cons, List.length_nil]),
    Utils.wordSum_append _ _ (by simp only [List.length_append, hsrc, hdst]), Utils.wordSum_append c.dst _ (by omega),
    Utils.wordSum_append c.src _ (by omega), Utils.wordSum_toBeBytes, BitVec.toNat_ofNat, hports, hprotocol]
  simp only [List.take_succ_cons, List.take_zero, List.drop_succ_cons, List.drop_zero]
  omega

/-- The reply to a datagram says that it carries no checksum exactly if the sum
behind the checksum is a multiple of the largest word. -/
theorem udp_reply_checksummed_iff {request reply : Bytes} {headerLen : Nat} (hheader : 20 ≤ headerLen)
    (hreply : Udp.buildEchoReply request headerLen = .ok (some reply)) :
    (reply.drop (headerLen + 6)).take 2 ≠ [0#8, 0#8] ↔
      ¬ (65535 ∣ Udp.replySum request headerLen % 2 ^ 32 ∧ Udp.replySum request headerLen % 2 ^ 32 ≠ 0) := by
  have hlong : headerLen + 8 ≤ request.length := by
    by_contra hshort
    have hnone : Udp.buildEchoReply request headerLen = .ok none := if_pos (Nat.lt_of_not_le hshort)
    rw [hnone] at hreply
    cases hreply
  obtain ⟨head, rest, rfl, hlen⟩ := Ip.Cut.exists_split (show headerLen ≤ request.length by omega)
  obtain ⟨c, rfl⟩ := Ip.Cut.exists_header (hlen ▸ hheader)
  subst hlen
  rw [List.length_append] at hlong
  obtain ⟨first, data, rfl, hfirst⟩ := Ip.Cut.exists_split (show 8 ≤ rest.length by omega)
  match first, hfirst with
  | [s₀, s₁, d₀, d₁, l₀, l₁, x, y], _ =>
    have hcut := Udp.buildEchoReply_cut c data (show [s₀, s₁].length = 2 from rfl) (show [d₀, d₁].length = 2 from rfl)
      (show [l₀, l₁].length = 2 from rfl) (show [x, y].length = 2 from rfl)
    have hsum := Udp.reply_wordSum c s₀ s₁ d₀ d₁ l₀ l₁ x y data
    have heq := Option.some.inj (Except.ok.inj (hcut.symm.trans hreply))
    have hsegment : ([d₀, d₁] ++ [s₀, s₁] ++ [l₀, l₁] ++ [0#8, 0#8] ++ data).length = 8 + data.length := by
      simp only [List.length_append, List.length_cons, List.length_nil]
    have hzero := Utils.checksum_eq_zero_iff (c.dst ++ c.src ++ [0#8, 17#8] ++
      U16.toBeBytes (BitVec.ofNat 16 (8 + data.length)) ++ ([d₀, d₁] ++ [s₀, s₁] ++ [l₀, l₁] ++ [0#8, 0#8] ++ data))
    rw [hsum] at hzero
    have hfield : Udp.checksum (Ip.addressAt c.dst 0) (Ip.addressAt c.src 0)
        ([d₀, d₁] ++ [s₀, s₁] ++ [l₀, l₁] ++ [0#8, 0#8] ++ data) = Utils.checksum (c.dst ++ c.src ++ [0#8, 17#8] ++
          U16.toBeBytes (BitVec.ofNat 16 (8 + data.length)) ++
            ([d₀, d₁] ++ [s₀, s₁] ++ [l₀, l₁] ++ [0#8, 0#8] ++ data)) := by
      rw [Udp.checksum, Ip.octets_addressAt c.dst_length, Ip.octets_addressAt c.src_length, hsegment]
    rw [hfield] at heq
    have htake : (reply.drop (c.header.length + 6)).take 2 = (Utils.checksum (c.dst ++ c.src ++ [0#8, 17#8] ++
        U16.toBeBytes (BitVec.ofNat 16 (8 + data.length)) ++
          ([d₀, d₁] ++ [s₀, s₁] ++ [l₀, l₁] ++ [0#8, 0#8] ++ data))).toBeBytes := by
      rw [← heq, ← List.drop_drop, List.drop_left' c.turned_length]
      rfl
    rw [htake, ne_eq, U16.toBeBytes_eq_zero_iff]
    exact not_congr hzero

/-- A datagram without data from port 32387 to port 7, its own checksum sent as all ones. -/
def unlucky : Bytes := [0x45#8, 0#8, 0#8, 0x1c#8, 0#8, 0#8, 0x40#8, 0#8, 64#8, 17#8, 0xb9#8, 0x7d#8,
    0xc0#8, 0xa8#8, 0#8, 1#8,
  0xc0#8, 0xa8#8, 0#8, 2#8, 0x7e#8, 0x83#8, 0#8, 7#8, 0#8, 8#8, 0xff#8, 0xff#8]

theorem unlucky_reply_unchecksummed : Ip.verifyChecksum (unlucky.take 20) = true ∧
    Udp.checksum (Ip.addressAt unlucky 12) (Ip.addressAt unlucky 16) (unlucky.drop 20) = 0#16 ∧
    ∃ reply, Udp.buildEchoReply unlucky 20 = .ok (some reply) ∧ (reply.drop 26).take 2 = [0#8, 0#8] := by
  refine ⟨by decide, by decide, [0x45#8, 0#8, 0#8, 0x1c#8, 0#8, 0#8, 0x40#8, 0#8, 0x40#8, 0x11#8, 0xb9#8, 0x7d#8,
    0xc0#8, 0xa8#8, 0#8,
      2#8, 0xc0#8, 0xa8#8, 0#8, 1#8, 0#8, 7#8, 0x7e#8, 0x83#8, 0#8, 8#8, 0#8, 0#8], ?_, ?_⟩
  · decide
  · decide

/-- One byte of data more, and the reply is checksummed. -/
theorem longer_reply_checksummed : ∃ reply, Udp.buildEchoReply (unlucky ++ [0x61#8]) 20 = .ok (some reply) ∧
    (reply.drop 26).take 2 ≠ [0#8, 0#8] := by
  have hreply : Udp.buildEchoReply (unlucky ++ [0x61#8]) 20 =
      .ok (some [0x45#8, 0#8, 0#8, 0x1c#8, 0#8, 0#8, 0x40#8, 0#8, 0x40#8, 0x11#8, 0xb9#8, 0x7d#8, 0xc0#8, 0xa8#8, 0#8,
      2#8, 0xc0#8, 0xa8#8, 0#8, 1#8, 0#8, 7#8, 0x7e#8, 0x83#8, 0#8, 8#8, 0x9e#8, 0xfe#8, 0x61#8]) := by
    decide
  exact ⟨_, hreply, (udp_reply_checksummed_iff (Nat.le_refl 20) hreply).mpr (by decide)⟩

end TcpStack
