import Mathlib.Data.List.Induction
import Mathlib.Data.List.Nodup
import TcpStack.Codec

/-!
# The grammar of the option area

An option area is a list of well-formed options, each behind some padding, and
a tail the parser stops at. The parser returns what the options mean, the
later ones over the earlier ones.
-/
namespace TcpStack.Tcp

section
variable {α β : Type}

/-- The last value `f` has on the list. -/
def lastSome (f : α → Option β) (l : List α) : Option β := l.reverse.findSome? f

theorem lastSome_concat (f : α → Option β) (l : List α) (a : α) :
    lastSome f (l ++ [a]) = (f a).or (lastSome f l) := by
  rw [lastSome, List.reverse_append, List.reverse_singleton, List.singleton_append, List.findSome?_cons]
  cases f a <;> rfl

theorem lastSome_mem {f : α → Option β} {l : List α} {b : β} (h : lastSome f l = some b) : ∃ a ∈ l, f a = some b := by
  obtain ⟨a, ha, hf⟩ := List.exists_of_findSome?_eq_some h
  exact ⟨a, List.mem_reverse.mp ha, hf⟩

theorem lastSome_unique {f : α → Option β} {l : List α} {a : α} {b : β} (ha : a ∈ l) (hf : f a = some b)
    (huniq : ∀ a' ∈ l, ∀ b', f a' = some b' → b' = b) : lastSome f l = some b := by
  cases h : lastSome f l with
  | none =>
      have hno := List.findSome?_eq_none_iff.mp h a (List.mem_reverse.mpr ha)
      rw [hf] at hno
      cases hno
  | some b' =>
      obtain ⟨a', ha', hf'⟩ := lastSome_mem h
      rw [huniq a' ha' b' hf']

end

/-- A well-formed option behind `pad` bytes of padding. -/
structure WireOption where
  pad : Nat
  kind : U8
  data : Bytes
  ne_end : kind ≠ optEnd
  ne_nop : kind ≠ optNop
  fits : data.length ≤ 253

/-- The pairs of big-endian words in the data of a SACK option. -/
def pairs : Bytes → List (U32 × U32)
  | a :: b :: c :: d :: e :: f :: g :: h :: rest =>
      (U32.fromBeBytes a b c d, U32.fromBeBytes e f g h) :: pairs rest
  | _ => []

namespace WireOption

def bytes (o : WireOption) : Bytes :=
  List.replicate o.pad optNop ++ o.kind :: BitVec.ofNat 8 (2 + o.data.length) :: o.data

def mss (o : WireOption) : Option U16 :=
  match o.data with
  | [a, b] => if o.kind = optMss then some (U16.fromBeBytes a b) else none
  | _ => none

def timestamps (o : WireOption) : Option (U32 × U32) :=
  match o.data with
  | [a, b, c, d, e, f, g, h] =>
      if o.kind = optTs then some (U32.fromBeBytes a b c d, U32.fromBeBytes e f g h) else none
  | _ => none

def windowScale (o : WireOption) : Option WScale :=
  match o.data with
  | [shift] => if o.kind = optWs then some ⟨min shift.toNat 14, shift_clamped shift⟩ else none
  | _ => none

def sackPermitted (o : WireOption) : Bool := o.kind == optSackPerm && o.data.isEmpty

def sackBlocks (o : WireOption) : Option (List (U32 × U32)) :=
  if o.kind = optSack ∧ o.data ≠ [] ∧ o.data.length % 8 = 0 then some ((pairs o.data).take 4) else none

/-- The meaning of one option, over that of the options before it. -/
def meaning (out : TcpOptions) (o : WireOption) : TcpOptions where
  mss := o.mss.or out.mss
  timestamps := o.timestamps.or out.timestamps
  windowScale := o.windowScale.or out.windowScale
  sackPermitted := o.sackPermitted || out.sackPermitted
  sackBlocks := (o.sackBlocks.map (fun bs => bs ++ out.sackBlocks.drop bs.length)).getD out.sackBlocks
  sackBlockCount := (o.sackBlocks.map List.length).getD out.sackBlockCount

theorem pairs_flatMap : ∀ data : Bytes, data.length % 8 = 0 → (pairs data).flatMap blockBytes = data
  | [], _ => rfl
  | [_], h | [_, _], h | [_, _, _], h | [_, _, _, _], h | [_, _, _, _, _], h | [_, _, _, _, _, _], h
  | [_, _, _, _, _, _, _], h => by simp at h
  | a :: b :: c :: d :: e :: f :: g :: i :: rest, h => by
      have hrest := pairs_flatMap rest (by simp only [List.length_cons] at h; omega)
      rw [pairs, List.flatMap_cons, hrest, blockBytes, U32.toBeBytes_fromBeBytes, U32.toBeBytes_fromBeBytes]
      rfl

theorem pairs_length {data : Bytes} (h8 : data.length % 8 = 0) : (pairs data).length = data.length / 8 := by
  have hlen := congrArg List.length (pairs_flatMap data h8)
  rw [flatMap_blockBytes_length] at hlen
  omega

theorem readBlocks_pairs {data : Bytes} (h8 : data.length % 8 = 0) {blocks : List (U32 × U32)}
    (h4 : blocks.length = 4) :
    readBlocks data (min (data.length / 8) 4) 0 blocks =
      .ok ((pairs data).take 4 ++ blocks.drop ((pairs data).take 4).length) := by
  have hflat := pairs_flatMap data h8
  have hcount : min (data.length / 8) 4 = ((pairs data).take 4).length := by
    rw [List.length_take, pairs_length h8, Nat.min_comm]
  have hsplit : data = ((pairs data).take 4).flatMap blockBytes ++ ((pairs data).drop 4).flatMap blockBytes := by
    rw [← List.flatMap_append, List.take_append_drop, hflat]
  have h := readBlocks_flatMap (((pairs data).drop 4).flatMap blockBytes) [] ((pairs data).take 4)
    (blocks.drop ((pairs data).take 4).length) (blocks.take ((pairs data).take 4).length)
    (by rw [List.length_take]; omega)
  rw [List.nil_append, ← hsplit, List.nil_append, List.take_append_drop] at h
  rw [hcount]
  exact h

section
variable {o : WireOption}

theorem mss_none (h : ¬ (o.kind = optMss ∧ o.data.length = 2)) : o.mss = none := by
  unfold mss
  split
  · rename_i a b hd
    rw [hd] at h
    exact if_neg fun hk => h ⟨hk, rfl⟩
  · rfl

theorem timestamps_none (h : ¬ (o.kind = optTs ∧ o.data.length = 8)) : o.timestamps = none := by
  unfold timestamps
  split
  · rename_i hd
    rw [hd] at h
    exact if_neg fun hk => h ⟨hk, rfl⟩
  · rfl

theorem windowScale_none (h : ¬ (o.kind = optWs ∧ o.data.length = 1)) : o.windowScale = none := by
  unfold windowScale
  split
  · rename_i hd
    rw [hd] at h
    exact if_neg fun hk => h ⟨hk, rfl⟩
  · rfl

theorem sackPermitted_false (h : ¬ (o.kind = optSackPerm ∧ o.data.isEmpty = true)) : o.sackPermitted = false := by
  rw [sackPermitted, Bool.and_eq_false_iff]
  rw [not_and_or, Bool.not_eq_true] at h
  exact h.imp (fun hk => beq_false_of_ne hk) id

end

theorem eight_bytes : ∀ data : Bytes, data.length = 8 → ∃ a b c d e f g i, data = [a, b, c, d, e, f, g, i]
  | [a, b, c, d, e, f, g, i], _ => ⟨a, b, c, d, e, f, g, i, rfl⟩

theorem readOption_meaning (o : WireOption) {out : TcpOptions} (h4 : out.sackBlocks.length = 4) :
    readOption o.kind o.data out = .ok (meaning out o) := by
  unfold readOption
  split_ifs with hmss hts hws hperm hsack
  · obtain ⟨pad, kind, data, h0, h1, hfit⟩ := o
    obtain ⟨rfl, hlen⟩ := hmss
    obtain ⟨a, b, rfl⟩ := List.length_eq_two.mp hlen
    rfl
  · obtain ⟨pad, kind, data, h0, h1, hfit⟩ := o
    obtain ⟨rfl, hlen⟩ := hts
    obtain ⟨a, b, c, d, e, f, g, i, rfl⟩ := eight_bytes data hlen
    rfl
  · obtain ⟨pad, kind, data, h0, h1, hfit⟩ := o
    obtain ⟨rfl, hlen⟩ := hws
    obtain ⟨a, rfl⟩ := List.length_eq_one_iff.mp hlen
    rfl
  · obtain ⟨pad, kind, data, h0, h1, hfit⟩ := o
    obtain ⟨rfl, hnil⟩ := hperm
    obtain rfl := List.isEmpty_iff.mp hnil
    rfl
  · obtain ⟨hkind, hne, h8⟩ := hsack
    have hsome : o.sackBlocks = some ((pairs o.data).take 4) := if_pos ⟨hkind, by simpa using hne, h8⟩
    have hcount : min (o.data.length / 8) 4 = ((pairs o.data).take 4).length := by
      rw [List.length_take, pairs_length h8]
      omega
    dsimp only
    rw [h4, readBlocks_pairs h8 h4, meaning, mss_none hmss, timestamps_none hts, windowScale_none hws,
      sackPermitted_false hperm, hsome, hcount]
    rfl
  · have hnone : o.sackBlocks = none := if_neg fun h => hsack ⟨h.1, by simpa using h.2.1, h.2.2⟩
    rw [meaning, mss_none hmss, timestamps_none hts, windowScale_none hws, sackPermitted_false hperm, hnone]
    rfl

theorem meaning_blocks (o : WireOption) {out : TcpOptions} (h4 : out.sackBlocks.length = 4) :
    (meaning out o).sackBlocks.length = 4 := by
  cases hs : o.sackBlocks with
  | none =>
      rw [meaning, hs]
      exact h4
  | some bs =>
      have hle : bs.length ≤ 4 := by
        unfold sackBlocks at hs
        split_ifs at hs
        obtain rfl := Option.some.inj hs
        exact List.length_take_le ..
      simp only [meaning, hs, Option.map_some, Option.getD_some, List.length_append, List.length_drop]
      omega

theorem parseFrom_nops (n : Nat) (rest : Bytes) (out : TcpOptions) :
    parseFrom (List.replicate n optNop ++ rest) out = parseFrom rest out := by
  induction n with
  | zero => rfl
  | succ n ih =>
      rw [List.replicate_succ, List.cons_append, parseFrom_nop]
      exact ih

theorem parseFrom_bytes (o : WireOption) (rest : Bytes) {out : TcpOptions} (h4 : out.sackBlocks.length = 4) :
    parseFrom (o.bytes ++ rest) out = parseFrom rest (meaning out o) := by
  have hlen : (BitVec.ofNat 8 (2 + o.data.length)).toNat = 2 + o.data.length := by
    have hfit := o.fits
    rw [BitVec.toNat_ofNat]
    omega
  rw [bytes, List.append_assoc, parseFrom_nops, List.cons_append, List.cons_append,
    parseFrom_option _ _ _ _ _ o.ne_end o.ne_nop hlen, readOption_meaning o h4, Checked.ok_bind]

end WireOption

/-- What the parser stops at: the end, an END byte, or an option whose length is
missing, too short or too long; whatever follows. -/
inductive Tail : Bytes → Prop where
  | nil : Tail []
  | eol (rest : Bytes) : Tail (optEnd :: rest)
  | lone {kind : U8} (h0 : kind ≠ optEnd) (h1 : kind ≠ optNop) : Tail [kind]
  | short {kind len : U8} (h0 : kind ≠ optEnd) (h1 : kind ≠ optNop) (hlen : len.toNat < 2) (rest : Bytes) :
      Tail (kind :: len :: rest)
  | overlong {kind len : U8} (h0 : kind ≠ optEnd) (h1 : kind ≠ optNop) {rest : Bytes}
      (hlen : 2 + rest.length < len.toNat) : Tail (kind :: len :: rest)
  | nop {rest : Bytes} (h : Tail rest) : Tail (optNop :: rest)

theorem Tail.parseFrom {tail : Bytes} (h : Tail tail) (out : TcpOptions) : parseFrom tail out = .ok out := by
  have hbad : ∀ {kind len : U8} {rest : Bytes}, kind ≠ optEnd → kind ≠ optNop →
      (len.toNat < 2 ∨ len.toNat > (kind :: len :: rest).length) →
      Tcp.parseFrom (kind :: len :: rest) out = .ok out := by
    intro kind len rest h0 h1 hlen
    rw [Tcp.parseFrom, List.length_cons, parseOptionsLoop]
    simp only [List.isEmpty_cons, Bool.false_eq_true, if_false]
    rw [index_of_getElem? (List.getElem?_cons_zero), Checked.ok_bind, if_neg h0, if_neg h1, if_neg (by simp)]
    rw [show index (kind :: len :: rest) 1 = .ok len from rfl, Checked.ok_bind, if_pos hlen]
    rfl
  induction h with
  | nil => rfl
  | eol rest => rfl
  | lone h0 h1 =>
      rw [Tcp.parseFrom, List.length_cons, parseOptionsLoop]
      simp only [List.isEmpty_cons, Bool.false_eq_true, if_false]
      rw [index_of_getElem? (List.getElem?_cons_zero), Checked.ok_bind, if_neg h0, if_neg h1, if_pos (by simp)]
      rfl
  | short h0 h1 hlen rest => exact hbad h0 h1 (.inl hlen)
  | overlong h0 h1 hlen =>
      refine hbad h0 h1 (.inr ?_)
      simp only [List.length_cons]
      omega
  | nop _ ih => rw [parseFrom_nop, ih]

theorem parseFrom_options (os : List WireOption) {tail : Bytes} (ht : Tail tail) : ∀ {out : TcpOptions},
    out.sackBlocks.length = 4 →
    parseFrom (os.flatMap WireOption.bytes ++ tail) out = .ok (os.foldl WireOption.meaning out) := by
  induction os with
  | nil => exact fun _ => ht.parseFrom _
  | cons o os ih =>
      intro out h4
      rw [List.flatMap_cons, List.append_assoc, o.parseFrom_bytes _ h4, ih (o.meaning_blocks h4)]
      rfl

/-- The parsed options are the last of each kind. -/
structure Describes (os : List WireOption) (out : TcpOptions) : Prop where
  mss : out.mss = lastSome WireOption.mss os
  timestamps : out.timestamps = lastSome WireOption.timestamps os
  windowScale : out.windowScale = lastSome WireOption.windowScale os
  sackPermitted : out.sackPermitted = os.any WireOption.sackPermitted
  blocks : out.validBlocks = (lastSome WireOption.sackBlocks os).getD []
  count : out.sackBlockCount = out.validBlocks.length

theorem describes_fold (os : List WireOption) : Describes os (os.foldl WireOption.meaning {}) := by
  induction os using List.reverseRecOn with
  | nil => exact ⟨rfl, rfl, rfl, rfl, rfl, rfl⟩
  | append_singleton os o ih =>
      rw [List.foldl_append]
      change Describes _ (WireOption.meaning (os.foldl WireOption.meaning {}) o)
      generalize os.foldl WireOption.meaning {} = out at ih
      refine ⟨?_, ?_, ?_, ?_, ?_, ?_⟩
      · rw [lastSome_concat, ← ih.mss]
        rfl
      · rw [lastSome_concat, ← ih.timestamps]
        rfl
      · rw [lastSome_concat, ← ih.windowScale]
        rfl
      · rw [List.any_append, ← ih.sackPermitted, Bool.or_comm, List.any_cons, List.any_nil, Bool.or_false]
        rfl
      · rw [lastSome_concat]
        cases hs : o.sackBlocks with
        | none =>
            rw [Option.none_or, ← ih.blocks]
            simp only [TcpOptions.validBlocks, WireOption.meaning, hs, Option.map_none, Option.getD_none]
        | some bs =>
            simp only [TcpOptions.validBlocks, WireOption.meaning, hs, Option.map_some, Option.getD_some,
              Option.some_or, List.take_left]
      · cases hs : o.sackBlocks with
        | none =>
            have hc := ih.count
            simp only [TcpOptions.validBlocks, WireOption.meaning, hs, Option.map_none, Option.getD_none] at hc ⊢
            exact hc
        | some bs =>
            simp only [TcpOptions.validBlocks, WireOption.meaning, hs, Option.map_some, Option.getD_some,
              List.take_left]

/-- What the encoders can write. -/
inductive Blob where
  | mss (m : U16)
  | ws (shift : WScale)
  | ts (tsval tsecr : U32)
  | sackPerm
  | sack (blocks : List (U32 × U32))

namespace Blob

def bytes : Blob → Bytes
  | mss m => mssOption m
  | ws shift => wsOption shift
  | ts tsval tsecr => tsOption tsval tsecr
  | sackPerm => sackPermOption
  | sack blocks => sackOption blocks

def kind : Blob → U8
  | mss _ => optMss
  | ws _ => optWs
  | ts .. => optTs
  | sackPerm => optSackPerm
  | sack _ => optSack

theorem sackData_length (blocks : List (U32 × U32)) :
    ((blocks.take maxSackBlocks).flatMap blockBytes).length ≤ 24 := by
  have hlen := List.length_take_le maxSackBlocks blocks
  rw [flatMap_blockBytes_length]
  simp only [maxSackBlocks] at hlen ⊢
  omega

/-- The option a blob is; without blocks there is none. -/
def wire : Blob → Option WireOption
  | mss m => some ⟨0, optMss, m.toBeBytes, by decide, by decide, by simp⟩
  | ws shift => some ⟨1, optWs, [BitVec.ofNat 8 shift], by decide, by decide, by simp⟩
  | ts tsval tsecr => some ⟨2, optTs, tsval.toBeBytes ++ tsecr.toBeBytes, by decide, by decide, by simp⟩
  | sackPerm => some ⟨2, optSackPerm, [], by decide, by decide, by simp⟩
  | sack blocks =>
      if blocks = [] then none
      else some ⟨2, optSack, (blocks.take maxSackBlocks).flatMap blockBytes, by decide, by decide,
        Nat.le_trans (sackData_length blocks) (by omega)⟩

theorem bytes_wire (b : Blob) : b.bytes = b.wire.toList.flatMap WireOption.bytes := by
  cases b with
  | mss m => rfl
  | ws shift => rfl
  | ts tsval tsecr => rfl
  | sackPerm => rfl
  | sack blocks =>
      by_cases hnil : blocks = []
      · simp [bytes, wire, hnil, sackOption]
      · have hpos := List.length_pos_iff.mpr hnil
        have hlen : min blocks.length maxSackBlocks = (blocks.take maxSackBlocks).length := by
          rw [List.length_take, Nat.min_comm]
        have hne : min blocks.length maxSackBlocks ≠ 0 := by
          simp only [maxSackBlocks]
          omega
        have htake : blocks.take (min blocks.length maxSackBlocks) = blocks.take maxSackBlocks := by
          rw [List.take_eq_take_iff]
          omega
        simp only [bytes, wire, if_neg hnil, sackOption, if_neg hne, htake, Option.toList_some, List.flatMap_cons,
          List.flatMap_nil, List.append_nil, WireOption.bytes, flatMap_blockBytes_length, ← hlen]
        rfl

theorem flatMap_bytes (blobs : List Blob) :
    blobs.flatMap bytes = (blobs.filterMap wire).flatMap WireOption.bytes := by
  induction blobs with
  | nil => rfl
  | cons b blobs ih =>
      rw [List.flatMap_cons, ih, bytes_wire, List.filterMap_cons]
      cases b.wire <;> simp

theorem lastSome_iff {β : Type} {f : WireOption → Option β} {g : Blob → Option β}
    (hsome : ∀ b o, b.wire = some o → f o = g b) (hnone : ∀ b, b.wire = none → g b = none)
    (hkind : ∀ b b' v v', g b = some v → g b' = some v' → b.kind = b'.kind) {blobs : List Blob}
    (hd : (blobs.map kind).Nodup) (v : β) :
    lastSome f (blobs.filterMap wire) = some v ↔ ∃ b ∈ blobs, g b = some v := by
  constructor
  · intro h
    obtain ⟨o, ho, hf⟩ := lastSome_mem h
    obtain ⟨b, hb, hw⟩ := List.mem_filterMap.mp ho
    exact ⟨b, hb, (hsome b o hw).symm.trans hf⟩
  · rintro ⟨b, hb, hg⟩
    cases hw : b.wire with
    | none =>
        rw [hnone b hw] at hg
        cases hg
    | some o =>
        refine lastSome_unique (List.mem_filterMap.mpr ⟨b, hb, hw⟩) ((hsome b o hw).trans hg) ?_
        intro o' ho' v' hf'
        obtain ⟨b', hb', hw'⟩ := List.mem_filterMap.mp ho'
        have hg' : g b' = some v' := (hsome b' o' hw').symm.trans hf'
        obtain rfl : b' = b := List.inj_on_of_nodup_map hd hb' hb (hkind b' b v' v hg' hg)
        exact Option.some.inj (hg'.symm.trans hg)

/-- For a kind whose blobs are `mk v`: the last value is the one that was written. -/
theorem lastSome_mem_iff {β : Type} {f : WireOption → Option β} {g : Blob → Option β} (mk : β → Blob)
    (hsome : ∀ b o, b.wire = some o → f o = g b) (hval : ∀ b v, g b = some v ↔ b = mk v)
    (hmk : ∀ v, (mk v).wire ≠ none ∧ ∀ v', (mk v).kind = (mk v').kind) {blobs : List Blob}
    (hd : (blobs.map kind).Nodup) (v : β) : lastSome f (blobs.filterMap wire) = some v ↔ mk v ∈ blobs := by
  rw [lastSome_iff hsome ?_ ?_ hd]
  · constructor
    · rintro ⟨b, hb, hg⟩
      exact (hval b v).mp hg ▸ hb
    · exact fun hb => ⟨_, hb, (hval _ _).mpr rfl⟩
  · intro b hnone
    cases hg : g b with
    | none => rfl
    | some w =>
        rw [(hval b w).mp hg] at hnone
        exact absurd hnone (hmk w).1
  · intro b b' w w' hb hb'
    rw [(hval b w).mp hb, (hval b' w').mp hb']
    exact (hmk w).2 w'

def mssValue : Blob → Option U16
  | mss m => some m
  | _ => none

def wsValue : Blob → Option WScale
  | ws shift => some shift
  | _ => none

def tsValue : Blob → Option (U32 × U32)
  | ts tsval tsecr => some (tsval, tsecr)
  | _ => none

def sackValue : Blob → Option (List (U32 × U32))
  | sack blocks => if blocks = [] then none else some (blocks.take maxSackBlocks)
  | _ => none

theorem wire_mss (b : Blob) (o : WireOption) (h : b.wire = some o) : o.mss = b.mssValue := by
  cases b with
  | mss m =>
      obtain rfl := Option.some.inj h
      exact congrArg some (U16.fromBeBytes_toBeBytes m)
  | sack blocks =>
      simp only [wire] at h
      split_ifs at h
      obtain rfl := Option.some.inj h
      exact WireOption.mss_none fun hk => (by decide : optSack ≠ optMss) hk.1
  | _ =>
      obtain rfl := Option.some.inj h
      rfl

theorem wire_windowScale (b : Blob) (o : WireOption) (h : b.wire = some o) : o.windowScale = b.wsValue := by
  cases b with
  | ws shift =>
      obtain rfl := Option.some.inj h
      have hlt := shift.isLt
      have hmin : min (BitVec.ofNat 8 shift).toNat 14 = shift := by
        rw [BitVec.toNat_ofNat]
        omega
      exact congrArg some (Fin.ext hmin)
  | sack blocks =>
      simp only [wire] at h
      split_ifs at h
      obtain rfl := Option.some.inj h
      exact WireOption.windowScale_none fun hk => (by decide : optSack ≠ optWs) hk.1
  | _ =>
      obtain rfl := Option.some.inj h
      rfl

theorem wire_timestamps (b : Blob) (o : WireOption) (h : b.wire = some o) : o.timestamps = b.tsValue := by
  cases b with
  | ts tsval tsecr =>
      obtain rfl := Option.some.inj h
      exact congrArg some (Prod.ext (U32.fromBeBytes_toBeBytes tsval) (U32.fromBeBytes_toBeBytes tsecr))
  | sack blocks =>
      simp only [wire] at h
      split_ifs at h
      obtain rfl := Option.some.inj h
      exact WireOption.timestamps_none fun hk => (by decide : optSack ≠ optTs) hk.1
  | _ =>
      obtain rfl := Option.some.inj h
      rfl

theorem pairs_blocks (bs : List (U32 × U32)) : pairs (bs.flatMap blockBytes) = bs := by
  induction bs with
  | nil => rfl
  | cons b bs ih =>
      have hone : pairs (blockBytes b ++ bs.flatMap blockBytes) = b :: pairs (bs.flatMap blockBytes) :=
        congrArg (· :: pairs (bs.flatMap blockBytes))
          (Prod.ext (U32.fromBeBytes_toBeBytes b.1) (U32.fromBeBytes_toBeBytes b.2))
      rw [List.flatMap_cons, hone, ih]

theorem wire_sackBlocks (b : Blob) (o : WireOption) (h : b.wire = some o) : o.sackBlocks = b.sackValue := by
  cases b with
  | sack blocks =>
      simp only [wire] at h
      split_ifs at h with hnil
      obtain rfl := Option.some.inj h
      have hlen := flatMap_blockBytes_length (blocks.take maxSackBlocks)
      have hpos : 0 < (blocks.take maxSackBlocks).length := by
        rw [List.length_pos_iff, Ne, List.take_eq_nil_iff, not_or]
        exact ⟨by decide, hnil⟩
      have hne : (blocks.take maxSackBlocks).flatMap blockBytes ≠ [] := List.ne_nil_of_length_pos (by omega)
      rw [sackValue, if_neg hnil, WireOption.sackBlocks, if_pos ⟨rfl, hne, by dsimp only; omega⟩, pairs_blocks,
        List.take_take]
      rfl
  | _ =>
      obtain rfl := Option.some.inj h
      exact if_neg (by simp [optMss, optWs, optTs, optSackPerm, optSack])

theorem wire_sackPermitted (b : Blob) (o : WireOption) (h : b.wire = some o) :
    o.sackPermitted = true ↔ b = sackPerm := by
  cases b with
  | sackPerm =>
      obtain rfl := Option.some.inj h
      exact iff_of_true rfl rfl
  | sack blocks =>
      simp only [wire] at h
      split_ifs at h
      obtain rfl := Option.some.inj h
      simp [WireOption.sackPermitted, optSack, optSackPerm]
  | _ =>
      obtain rfl := Option.some.inj h
      simp [WireOption.sackPermitted, optMss, optWs, optTs, optSackPerm]

end Blob

/-- Every blob is read back, and nothing else. -/
structure ReadBack (blobs : List Blob) (out : TcpOptions) : Prop where
  mss : ∀ m, out.mss = some m ↔ .mss m ∈ blobs
  windowScale : ∀ shift, out.windowScale = some shift ↔ .ws shift ∈ blobs
  timestamps : ∀ tsval tsecr, out.timestamps = some (tsval, tsecr) ↔ .ts tsval tsecr ∈ blobs
  sackPermitted : out.sackPermitted = true ↔ .sackPerm ∈ blobs
  blocks : ∀ bs, .sack bs ∈ blobs → out.validBlocks = bs.take 3 ∧ out.sackBlockCount = min 3 bs.length
  noBlocks : (∀ bs, .sack bs ∉ blobs) → out.validBlocks = []

namespace Blob

theorem mssValue_iff (b : Blob) (m : U16) : b.mssValue = some m ↔ b = mss m := by
  cases b <;> simp [mssValue]

theorem wsValue_iff (b : Blob) (shift : WScale) : b.wsValue = some shift ↔ b = ws shift := by
  cases b <;> simp [wsValue]

theorem tsValue_iff (b : Blob) (v : U32 × U32) : b.tsValue = some v ↔ b = ts v.1 v.2 := by
  cases b <;> simp [tsValue, Prod.ext_iff]

theorem sackValue_some {b : Blob} {bs : List (U32 × U32)} (h : b.sackValue = some bs) :
    ∃ blocks, b = sack blocks ∧ blocks ≠ [] ∧ bs = blocks.take maxSackBlocks := by
  cases b with
  | sack blocks =>
      simp only [sackValue] at h
      split_ifs at h with hne
      exact ⟨blocks, rfl, hne, (Option.some.inj h).symm⟩
  | _ => cases h

theorem lastSome_sack {blobs : List Blob} (hd : (blobs.map kind).Nodup) (bs : List (U32 × U32)) :
    lastSome WireOption.sackBlocks (blobs.filterMap wire) = some bs ↔ ∃ b ∈ blobs, b.sackValue = some bs := by
  refine lastSome_iff wire_sackBlocks ?_ ?_ hd bs
  · intro b hnone
    cases hg : b.sackValue with
    | none => rfl
    | some bs' =>
        obtain ⟨blocks, rfl, hne, -⟩ := sackValue_some hg
        simp [wire, hne] at hnone
  · intro b b' v v' hb hb'
    obtain ⟨blocks, rfl, -⟩ := sackValue_some hb
    obtain ⟨blocks', rfl, -⟩ := sackValue_some hb'
    rfl

end Blob

open Blob in
theorem Describes.readBack {blobs : List Blob} {out : TcpOptions} (hd : (blobs.map Blob.kind).Nodup)
    (h : Describes (blobs.filterMap wire) out) : ReadBack blobs out := by
  refine ⟨fun m => ?_, fun shift => ?_, fun tsval tsecr => ?_, ?_, fun bs hbs => ?_, fun hno => ?_⟩
  · rw [h.mss]
    exact lastSome_mem_iff Blob.mss wire_mss mssValue_iff (fun _ => ⟨Option.some_ne_none _, fun _ => rfl⟩) hd m
  · rw [h.windowScale]
    exact lastSome_mem_iff Blob.ws wire_windowScale wsValue_iff
      (fun _ => ⟨Option.some_ne_none _, fun _ => rfl⟩) hd shift
  · rw [h.timestamps]
    exact lastSome_mem_iff (fun v => Blob.ts v.1 v.2) wire_timestamps tsValue_iff
      (fun _ => ⟨Option.some_ne_none _, fun _ => rfl⟩) hd (tsval, tsecr)
  · rw [h.sackPermitted, List.any_eq_true]
    constructor
    · rintro ⟨o, ho, hperm⟩
      obtain ⟨b, hb, hw⟩ := List.mem_filterMap.mp ho
      exact (wire_sackPermitted b o hw).mp hperm ▸ hb
    · exact fun hb => ⟨_, List.mem_filterMap.mpr ⟨_, hb, rfl⟩, rfl⟩
  · have hvalid : out.validBlocks = bs.take 3 := by
      rw [h.blocks]
      cases hl : lastSome WireOption.sackBlocks (blobs.filterMap wire) with
      | none =>
          by_cases hnil : bs = []
          · rw [hnil]
            rfl
          · rw [(lastSome_sack hd (bs.take 3)).mpr ⟨_, hbs, if_neg hnil⟩] at hl
            cases hl
      | some bs' =>
          obtain ⟨b, hb, hg⟩ := (lastSome_sack hd bs').mp hl
          obtain ⟨blocks, rfl, -, rfl⟩ := sackValue_some hg
          have heq : sack blocks = sack bs := List.inj_on_of_nodup_map hd hb hbs rfl
          obtain rfl := Blob.sack.inj heq
          rfl
    refine ⟨hvalid, ?_⟩
    rw [h.count, hvalid, List.length_take]
  · rw [h.blocks]
    cases hl : lastSome WireOption.sackBlocks (blobs.filterMap wire) with
    | none => rfl
    | some bs =>
        obtain ⟨b, hb, hg⟩ := (lastSome_sack hd bs).mp hl
        obtain ⟨blocks, rfl, -⟩ := sackValue_some hg
        exact absurd hb (hno blocks)

/-- The option parser meets its grammar: on well-formed options and any tail it
stops at, it returns the fold of their meanings, which holds the last of each
kind; and what the encoders write, in any order, it reads back. -/
theorem parseOptions_meets_grammar :
    (∀ (os : List WireOption) (tail : Bytes), Tail tail →
      parseOptions (os.flatMap WireOption.bytes ++ tail) = .ok (os.foldl WireOption.meaning {}) ∧
        Describes os (os.foldl WireOption.meaning {})) ∧
    ∀ blobs : List Blob, (blobs.map Blob.kind).Nodup →
      ∃ out, parseOptions (blobs.flatMap Blob.bytes) = .ok out ∧ ReadBack blobs out := by
  constructor
  · intro os tail ht
    exact ⟨parseFrom_options os ht rfl, describes_fold os⟩
  · intro blobs hd
    refine ⟨_, ?_, (describes_fold _).readBack hd⟩
    have hparse := @parseFrom_options (blobs.filterMap Blob.wire) [] .nil {} rfl
    rw [List.append_nil, ← Blob.flatMap_bytes] at hparse
    exact hparse

/-- An unknown kind, an MSS of the wrong length and two MSS options before a
truncated timestamp: the last MSS counts. -/
theorem last_mss_wins :
    ∃ out, parseOptions ([254#8, 3#8, 9#8] ++ [2#8, 3#8, 1#8] ++ mssOption 500#16 ++ [1#8] ++ mssOption 700#16 ++
      [8#8, 10#8, 1#8]) = .ok out ∧ out.mss = some 700#16 ∧ out.timestamps = none := by
  let os : List WireOption := [⟨0, 254#8, [9#8], by decide, by decide, by decide⟩,
    ⟨0, optMss, [1#8], by decide, by decide, by decide⟩, ⟨0, optMss, [1#8, 0xf4#8], by decide, by decide, by decide⟩,
    ⟨1, optMss, [2#8, 0xbc#8], by decide, by decide, by decide⟩]
  have ht : Tail [8#8, 10#8, 1#8] := .overlong (by decide) (by decide) (by decide)
  obtain ⟨hparse, hd⟩ := parseOptions_meets_grammar.1 os _ ht
  exact ⟨_, hparse, hd.mss.trans (by decide), hd.timestamps.trans (by decide)⟩

end TcpStack.Tcp
