import TcpStack.Cookie
import TcpStack.SegmentSize

/-!
# The peer's MSS on every way to ESTABLISHED

A passive open reads the peer's MSS from its SYN, an active open from the
SYN-ACK, and a cookie open from the two bits that the cookie keeps of it.
-/
namespace TcpStack.Host
open Tcp Connection

variable {F : Type} [F64 F]

theorem run_terms {h : Host F} (hs : h.conn.state ≠ .synSent) (calls : List Call) :
    (h.run calls).conn.terms = h.conn.terms := by
  induction calls generalizing h with
  | nil => rfl
  | cons x calls ih => exact (ih (mt call_synSent hs)).trans (call_terms (.inl hs))

/-- No payload exceeds the segment size, or the one byte of a window probe;
before the SYN-ACK there is none at all. -/
structure Capped (h : Host F) : Prop where
  waiting : h.conn.state = .synSent → ∀ p ∈ h.emitted, ∀ s, decode p = some s → s.payload = []
  capped : ∀ p ∈ h.emitted, ∀ s, decode p = some s → s.payload.length ≤ max 1 h.conn.sendMss.toNat

theorem Sized.length_eq {p : Bytes} {options n : Nat} (h : Sized p options n) {s : Segment}
    (hd : decode p = some s) : s.payload.length = n := by
  obtain ⟨s', hd', -, hlen, -⟩ := h
  obtain rfl : s' = s := Option.some.inj (hd'.symm.trans hd)
  exact hlen

theorem NewData.capped {c : Connection F} {p : Bytes} {x : Call} (h : NewData c p x) {s : Segment}
    (hd : decode p = some s) : s.payload.length ≤ max 1 c.sendMss.toNat := by
  cases h with
  | cut _ _ _ hsz =>
      obtain ⟨n, hn, hsz⟩ := hsz
      have hcut : c.cutSize ≤ c.sendMss.toNat := by
        unfold cutSize
        omega
      rw [Sized.length_eq hsz hd]
      omega
  | probe _ hsz =>
      rw [Sized.length_eq hsz hd]
      omega

theorem Capped.call {h : Host F} {t : Trace} (hc : Capped h) (hfol : Follows h t) (hst : Trace.Stream t)
    (x : Call) : Capped (h.call x) := by
  obtain ⟨more, he, hmore⟩ := call_emits hfol hst x
  have hnil : ∀ {p : Bytes} {s : Segment}, (∃ s, decode p = some s ∧ s.payload = []) → decode p = some s →
      s.payload = [] := by
    rintro p s ⟨s', hd', hs'⟩ hd
    rwa [← Option.some.inj (hd'.symm.trans hd)]
  by_cases hs : h.conn.state = .synSent
  · have hempty : ∀ p ∈ (h.call x).emitted, ∀ s, decode p = some s → s.payload = [] := by
      rw [he]
      intro p hp s hd
      rcases List.mem_append.mp hp with hp | hp
      · exact hc.waiting hs p hp s hd
      · rcases hmore p hp with hold | hem | hnew
        · exact hc.waiting hs p hold s hd
        · exact hnil hem hd
        · exact absurd hs hnew.open
    refine ⟨fun _ => hempty, fun p hp s hd => ?_⟩
    rw [hempty p hp s hd]
    exact Nat.zero_le _
  · refine ⟨fun hs' => absurd (call_synSent hs') hs, ?_⟩
    have hmss : (h.call x).conn.sendMss = h.conn.sendMss :=
      congrArg (fun terms => terms.2.2.1) (call_terms (.inl hs))
    rw [he, hmss]
    intro p hp s hd
    rcases List.mem_append.mp hp with hp | hp
    · exact hc.capped p hp s hd
    · rcases hmore p hp with hold | hem | hnew
      · exact hc.capped p hold s hd
      · rw [hnil hem hd]
        exact Nat.zero_le _
      · exact hnew.capped hd

theorem Fresh.capped {h : Host F} (hf : Fresh h) : Capped h := by
  have hempty : ∀ p ∈ h.emitted, ∀ s, decode p = some s → s.payload = [] := by
    intro p hp s hd
    obtain ⟨s', hd', hnil⟩ := hf.emitted_empty p hp
    rwa [← Option.some.inj (hd'.symm.trans hd)]
  refine ⟨fun _ => hempty, fun p hp s hd => ?_⟩
  rw [hempty p hp s hd]
  exact Nat.zero_le _

theorem run_capped {h : Host F} {t : Trace} (hc : Capped h) (hfol : Follows h t) (hst : Trace.Stream t)
    (calls : List Call) : Capped (h.run calls) := by
  induction calls generalizing h t with
  | nil => exact hc
  | cons x calls ih =>
      obtain ⟨t', hsteps, hfol'⟩ := call_refines hfol x
      exact ih (hc.call hfol hst x) hfol' (hsteps.stream (hst.appCall x))

inductive Way where
  | passive
  | active
  | cookie
  deriving DecidableEq, Repr

/-- The host was opened this way by a peer whose MSS option was `m`. -/
inductive Opened (m : U16) : Way → Host F → Prop where
  | passive {h : Host F} (ipSrc ipDst : Ipv4Addr) (seg : Segment) (iss : U32) (now : U64) (rnd : U32)
      (mss : seg.opts.mss = some m) (accepted : accept ipSrc ipDst seg iss now rnd = some h) : Opened m .passive h
  | active {h : Host F} (localEnd remoteEnd : Endpoint) (iss : U32) (now : U64) (rnd : U32) (calls : List Call)
      (seg : Segment) (now' : U64) (rnd' : U32) (mss : seg.opts.mss = some m)
      (run : (connect localEnd remoteEnd iss now rnd).run calls = h) (waiting : h.conn.state = .synSent)
      (answered : (h.call (.onSegment seg now' rnd')).conn.state = .established) :
      Opened m .active (h.call (.onSegment seg now' rnd'))
  | cookie (secret : U64) (localEnd remoteEnd : Endpoint) (peerIsn : U32) (made now : U64) (rnd : U32) {mss : U16}
      (le : made ≤ now) (ticks : (now / cookieTickMs).toNat ≤ (made / cookieTickMs).toNat + 2)
      (valid : checkSynCookie secret localEnd remoteEnd peerIsn
        (synCookie secret localEnd remoteEnd peerIsn m made) now = some mss) :
      Opened m .cookie (cookie localEnd remoteEnd peerIsn (synCookie secret localEnd remoteEnd peerIsn m made) mss
        now rnd)

/-- The send MSS that each way arrives at. -/
def Way.sendMss (m : U16) : Way → U16
  | .cookie => umin (cookieMss m) ourMss
  | _ => umin m ourMss

theorem Opened.reached {m : U16} {way : Way} {h : Host F} (ho : Opened m way h) :
    (∃ (h₀ : Host F) (calls : List Call), Fresh h₀ ∧ h₀.run calls = h) ∧ h.conn.state ≠ .synSent ∧
      h.conn.sendMss = way.sendMss m := by
  cases ho with
  | passive ipSrc ipDst seg iss now rnd mss accepted =>
      refine ⟨⟨h, [], .accept ipSrc ipDst seg iss now rnd accepted, rfl⟩, ?_⟩
      obtain ⟨⟨c, synack⟩, hr, rfl⟩ := Option.map_eq_some_iff.mp accepted
      obtain ⟨rfl, -⟩ := acceptWithIssAt_eq hr
      refine ⟨State.noConfusion, ?_⟩
      change (seg.opts.mss.map (umin · ourMss)).getD defaultSendMss = umin m ourMss
      rw [mss]
      rfl
  | @active g localEnd remoteEnd iss now rnd calls seg now' rnd' mss run waiting answered =>
      refine ⟨⟨_, calls ++ [.onSegment seg now' rnd'], .connect localEnd remoteEnd iss now rnd, ?_⟩, ?_, ?_⟩
      · rw [run_append, run]
        rfl
      · rw [answered]
        exact State.noConfusion
      · change (g.conn.onSegment seg now' rnd').1.state = .established at answered
        rcases onSegment_synSent waiting seg now' rnd' with ⟨-, hs | ⟨-, hs⟩⟩ | ⟨-, -, -, -, hterms⟩
        · exact absurd (hs.symm.trans answered) State.noConfusion
        · exact absurd (hs.symm.trans answered) State.noConfusion
        · have hopen : (g.conn.onSegment seg now' rnd').1.sendMss =
              (seg.opts.mss.map (umin · ourMss)).getD g.conn.sendMss := congrArg (fun x => x.2.2.1) hterms
          rw [mss] at hopen
          exact hopen
  | cookie secret localEnd remoteEnd peerIsn made now rnd le ticks valid =>
      refine ⟨⟨_, [], .cookie .., rfl⟩, State.noConfusion, ?_⟩
      rw [checkSynCookie_mss valid]
      rfl

/-- The send MSS respects both ends' limits, and so does every payload sent. -/
def Honours (m : U16) (h : Host F) : Prop :=
  h.conn.sendMss ≤ m ∧ h.conn.sendMss ≤ ourMss ∧
    ∀ p ∈ h.emitted, ∀ s, decode p = some s → s.payload.length ≤ m.toNat

theorem Way.sendMss_le_iff (m : U16) (way : Way) : way.sendMss m ≤ m ↔ (way = .cookie → 536#16 ≤ m) := by
  cases way with
  | passive | active => simp [Way.sendMss, umin_le_left]
  | cookie =>
      simp only [Way.sendMss, forall_const]
      constructor
      · intro hle
        by_contra hlt
        have hmss : cookieMss m = 536#16 := by
          unfold cookieMss
          split_ifs <;> bv_omega
        rw [hmss] at hle
        exact hlt hle
      · intro hge
        exact BitVec.le_trans (umin_le_left _ _) ((cookieMss_le_iff m).mpr hge)

/-- The peer's MSS is honoured in every run that a passive or an active open
starts, and after a cookie open exactly if the table has an entry for it. -/
theorem mss_honoured_iff {m : U16} (hm : m ≠ 0#16) {way : Way} {h : Host F} (ho : Opened m way h) :
    (∀ calls, Honours m (h.run calls)) ↔ (way = .cookie → 536#16 ≤ m) := by
  obtain ⟨⟨h₀, calls₀, hf, rfl⟩, hs, hmss⟩ := ho.reached
  rw [← Way.sendMss_le_iff]
  constructor
  · intro hall
    exact hmss ▸ (hall []).1
  · intro hle calls
    have hfinal : ((h₀.run calls₀).run calls).conn.sendMss = way.sendMss m :=
      (congrArg (fun terms => terms.2.2.1) (run_terms hs calls)).trans hmss
    have hcap : Capped ((h₀.run calls₀).run calls) := by
      rw [← run_append]
      exact run_capped hf.capped hf.follows hf.stream _
    refine ⟨hfinal ▸ hle, hfinal ▸ ?_, fun p hp s hd => ?_⟩
    · cases way <;> exact umin_le_right _ _
    · have hlen := hcap.capped p hp s hd
      rw [hfinal] at hlen
      have hpos : 0 < m.toNat := by bv_omega
      have hle' : (way.sendMss m).toNat ≤ m.toNat := hle
      omega

/-- A host whose peer's SYN met a full backlog and whose ACK came back one tick later. -/
def cookieSample (m : U16) : Host Rat :=
  let localEnd := (Ipv4Addr.new 10#8 0#8 0#8 1#8, 80#16)
  let remoteEnd := (Ipv4Addr.new 10#8 0#8 0#8 2#8, 4000#16)
  cookie localEnd remoteEnd 500#32 (synCookie 7#64 localEnd remoteEnd 500#32 m 1000#64) (cookieMss m) 64000#64 0#32

theorem cookieSample_opened (m : U16) : Opened m .cookie (cookieSample m) :=
  .cookie 7#64 _ _ 500#32 1000#64 64000#64 0#32 (by decide) (by decide)
    (checkSynCookie_fresh _ _ _ _ m (by decide) (by decide))

theorem mss_within_table_honoured :
    Honours 1000#16 ((cookieSample 1000#16).run [.write (List.replicate 600 7#8), .pollTransmit 64001#64]) :=
  (mss_honoured_iff (by decide) (cookieSample_opened 1000#16)).mpr (fun _ => by decide) _

/-- A peer that can take 100 bytes is sent 536. -/
theorem mss_below_table_exceeded :
    Opened 100#16 .cookie (cookieSample 100#16) ∧ (cookieSample 100#16).conn.sendMss = 536#16 ∧
      ∃ p ∈ ((cookieSample 100#16).run [.write (List.replicate 600 7#8), .pollTransmit 64001#64]).emitted,
        ∃ s, decode p = some s ∧ s.payload.length = 536 := by
  refine ⟨cookieSample_opened _, by decide +kernel, ?_⟩
  have hlens : (((cookieSample 100#16).run [.write (List.replicate 600 7#8), .pollTransmit 64001#64]).emitted.map
      (fun p => (decode p).map (fun s => s.payload.length))).head? = some (some 536) := by decide +kernel
  obtain ⟨p, hp, hlen⟩ := List.mem_map.mp (List.mem_of_mem_head? hlens)
  obtain ⟨s, hd, hs⟩ := Option.map_eq_some_iff.mp hlen
  exact ⟨p, hp, s, hd, hs⟩

end TcpStack.Host
