import TcpStack.Http

/-!
# The answer and the segmentation

The application takes the bytes of a connection as its segments deliver them.
Once it buffers, how they were cut no longer matters; but whether it buffers is
decided on the first chunk that looks like a request, and where that chunk
begins is a matter of the cutting.
-/
namespace TcpStack.Http

def BlankAt (buf : Bytes) (i : Nat) : Prop := (buf.drop i).take 4 = blankLine

theorem BlankAt.length_le {buf : Bytes} {i : Nat} (h : BlankAt buf i) : i + 4 ≤ buf.length := by
  have hlen := congrArg List.length h
  have hfour : blankLine.length = 4 := rfl
  rw [List.length_take, List.length_drop, hfour] at hlen
  omega

theorem blankAt_append {buf : Bytes} {i : Nat} (hi : i + 4 ≤ buf.length) (more : Bytes) :
    BlankAt (buf ++ more) i ↔ BlankAt buf i := by
  rw [BlankAt, BlankAt, List.drop_append_of_le_length (by omega),
    List.take_append_of_le_length (by rw [List.length_drop]; omega)]

theorem blankAt_cons (x : U8) (rest : Bytes) (i : Nat) : BlankAt (x :: rest) (i + 1) ↔ BlankAt rest i := by
  rw [BlankAt, BlankAt, List.drop_succ_cons]

theorem requestHeadLen_cons (x : U8) (rest : Bytes) : requestHeadLen (x :: rest) =
    if (x :: rest).take 4 = blankLine then some 4 else (requestHeadLen rest).map (· + 1) := by
  by_cases hlong : 4 ≤ (x :: rest).length
  · rw [requestHeadLen, windows, if_pos hlong, List.findIdx?_cons]
    by_cases hblank : (x :: rest).take 4 = blankLine
    · rw [if_pos (beq_iff_eq.mpr hblank), if_pos hblank]
      rfl
    · rw [if_neg (mt beq_iff_eq.mp hblank), if_neg hblank, requestHeadLen, Option.map_map, Option.map_map]
      exact congrArg (Option.map · _) (funext fun n => Nat.add_right_comm n 1 4)
  · have hshort : windows 4 rest = [] := by
      cases rest with
      | nil => rfl
      | cons y rest =>
          rw [windows, if_neg]
          simp only [List.length_cons] at hlong ⊢
          omega
    have hblank : (x :: rest).take 4 ≠ blankLine := by
      intro h
      have hlen := BlankAt.length_le (show BlankAt (x :: rest) 0 from h)
      omega
    rw [if_neg hblank, requestHeadLen, windows, if_neg hlong, requestHeadLen, hshort]
    rfl

theorem requestHeadLen_spec (buf : Bytes) :
    (∀ n, requestHeadLen buf = some n → ∃ i, n = i + 4 ∧ BlankAt buf i ∧ ∀ j < i, ¬ BlankAt buf j) ∧
      (requestHeadLen buf = none → ∀ i, ¬ BlankAt buf i) := by
  induction buf with
  | nil =>
      refine ⟨fun n h => (by cases h), fun _ i h => ?_⟩
      have hlen := h.length_le
      simp only [List.length_nil] at hlen
      omega
  | cons x rest ih =>
      rw [requestHeadLen_cons]
      split_ifs with hblank
      · exact ⟨fun n h => ⟨0, (Option.some.inj h).symm, hblank, fun j hj => absurd hj (Nat.not_lt_zero j)⟩,
          fun h => (by cases h)⟩
      · constructor
        · intro n h
          obtain ⟨m, hm, rfl⟩ := Option.map_eq_some_iff.mp h
          obtain ⟨i, rfl, hi, hfirst⟩ := ih.1 m hm
          refine ⟨i + 1, Nat.add_right_comm i 4 1, (blankAt_cons x rest i).mpr hi, fun j hj => ?_⟩
          cases j with
          | zero => exact hblank
          | succ j => exact mt (blankAt_cons x rest j).mp (hfirst j (by omega))
        · intro h i
          cases i with
          | zero => exact hblank
          | succ i => exact mt (blankAt_cons x rest i).mp (ih.2 (Option.map_eq_none_iff.mp h) i)

theorem requestHeadLen_of_first {buf : Bytes} {i : Nat} (hi : BlankAt buf i) (hfirst : ∀ j < i, ¬ BlankAt buf j) :
    requestHeadLen buf = some (i + 4) := by
  cases h : requestHeadLen buf with
  | none => exact absurd hi ((requestHeadLen_spec buf).2 h i)
  | some n =>
      obtain ⟨k, rfl, hk, hbefore⟩ := (requestHeadLen_spec buf).1 n h
      rcases Nat.lt_trichotomy i k with hlt | rfl | hlt
      · exact absurd hi (hbefore i hlt)
      · rfl
      · exact absurd hk (hfirst k hlt)

theorem requestHeadLen_append {buf : Bytes} {n : Nat} (h : requestHeadLen buf = some n) (more : Bytes) :
    requestHeadLen (buf ++ more) = some n := by
  obtain ⟨i, rfl, hi, hfirst⟩ := (requestHeadLen_spec buf).1 n h
  have hlen := hi.length_le
  refine requestHeadLen_of_first ((blankAt_append hlen more).mpr hi) fun j hj => ?_
  exact mt (blankAt_append (by omega) more).mp (hfirst j hj)

theorem requestHeadLen_bounds {buf : Bytes} {n : Nat} (h : requestHeadLen buf = some n) : 4 ≤ n ∧ n ≤ buf.length := by
  obtain ⟨i, rfl, hi, -⟩ := (requestHeadLen_spec buf).1 n h
  have hlen := hi.length_le
  omega

def CutAtBlankLine (head : Bytes) : Prop :=
  ∃ front, head = front ++ blankLine ∧ ∀ i < front.length, ¬ BlankAt head i

theorem cut_of_requestHeadLen {buf : Bytes} {n : Nat} (h : requestHeadLen buf = some n) :
    CutAtBlankLine (buf.take n) := by
  obtain ⟨i, rfl, hi, hfirst⟩ := (requestHeadLen_spec buf).1 n h
  have hlen := hi.length_le
  have hsplit : buf.take (i + 4) = buf.take i ++ blankLine := by rw [List.take_add, hi]
  refine ⟨buf.take i, hsplit, fun j hj => ?_⟩
  have hj : j < i := by rwa [List.length_take_of_le (by omega)] at hj
  have hshort : j + 4 ≤ (buf.take (i + 4)).length := by
    rw [List.length_take_of_le hlen]
    omega
  have hwhole := blankAt_append hshort (buf.drop (i + 4))
  rw [List.take_append_drop] at hwhole
  exact mt hwhole.mpr (hfirst j hj)

/-- The request loop on the whole buffer. -/
def serveAll (hbuf : Bytes) : Served := serve hbuf.length hbuf

theorem serve_fuel (fuel : Nat) : ∀ (more : Nat) (hbuf : Bytes), hbuf.length ≤ fuel → hbuf.length ≤ more →
    serve fuel hbuf = serve more hbuf := by
  induction fuel with
  | zero =>
      intro more hbuf hfuel _
      obtain rfl := List.length_eq_zero_iff.mp (Nat.le_zero.mp hfuel)
      cases more <;> rfl
  | succ fuel ih =>
      intro more hbuf hfuel hmore
      cases more with
      | zero =>
          obtain rfl := List.length_eq_zero_iff.mp (Nat.le_zero.mp hmore)
          rfl
      | succ more =>
          rw [serve, serve]
          cases hhead : requestHeadLen hbuf with
          | none => rfl
          | some headLen =>
              obtain ⟨hfour, hle⟩ := requestHeadLen_bounds hhead
              have hrest : (hbuf.drop headLen).length = hbuf.length - headLen := List.length_drop
              have hsame := ih more (hbuf.drop headLen) (by omega) (by omega)
              dsimp only
              rw [hsame]

theorem serveAll_none {hbuf : Bytes} (h : requestHeadLen hbuf = none) : serveAll hbuf = ⟨[], [], hbuf, false⟩ := by
  unfold serveAll
  cases hbuf with
  | nil => rfl
  | cons x rest => rw [List.length_cons, serve, h]

theorem serveAll_some {hbuf : Bytes} {headLen : Nat} (h : requestHeadLen hbuf = some headLen) : serveAll hbuf =
    match parseRequest (hbuf.take headLen) with
    | some req =>
        if req.keepAlive then
          let more := serveAll (hbuf.drop headLen)
          ⟨hbuf.take headLen :: more.heads, response req :: more.writes, more.rest, more.closing⟩
        else ⟨[hbuf.take headLen], [response req], hbuf.drop headLen, true⟩
    | none => ⟨[hbuf.take headLen], [], hbuf.drop headLen, true⟩ := by
  obtain ⟨hfour, hle⟩ := requestHeadLen_bounds h
  have hrest : (hbuf.drop headLen).length = hbuf.length - headLen := List.length_drop
  obtain ⟨fuel, hfuel⟩ : ∃ fuel, hbuf.length = fuel + 1 := ⟨hbuf.length - 1, by omega⟩
  rw [serveAll, hfuel, serve, h]
  dsimp only
  rw [serve_fuel fuel (hbuf.drop headLen).length (hbuf.drop headLen) (by omega) (Nat.le_refl _)]
  rfl

theorem heads_induction {motive : Bytes → Prop} (done : ∀ buf, requestHeadLen buf = none → motive buf)
    (next : ∀ buf headLen, requestHeadLen buf = some headLen → motive (buf.drop headLen) → motive buf) (buf : Bytes) :
    motive buf := by
  induction hn : buf.length using Nat.strongRecOn generalizing buf with
  | _ n ih =>
      cases hhead : requestHeadLen buf with
      | none => exact done buf hhead
      | some headLen =>
          obtain ⟨hfour, hle⟩ := requestHeadLen_bounds hhead
          have hrest : (buf.drop headLen).length < n := by
            rw [List.length_drop]
            omega
          exact next buf headLen hhead (ih _ hrest (buf.drop headLen) rfl)

/-- The loop goes on with more bytes, unless it has closed. -/
def Served.andThen (s : Served) (more : Bytes) : Served :=
  if s.closing then { s with rest := s.rest ++ more }
  else
    let t := serveAll (s.rest ++ more)
    ⟨s.heads ++ t.heads, s.writes ++ t.writes, t.rest, t.closing⟩

theorem serveAll_append (buf more : Bytes) : serveAll (buf ++ more) = (serveAll buf).andThen more := by
  induction buf using heads_induction with
  | done buf hhead =>
      rw [serveAll_none hhead]
      rfl
  | next buf headLen hhead ih =>
      have hle := (requestHeadLen_bounds hhead).2
      rw [serveAll_some (requestHeadLen_append hhead more), serveAll_some hhead,
        List.take_append_of_le_length hle, List.drop_append_of_le_length hle]
      cases parseRequest (buf.take headLen) with
      | none => rfl
      | some req =>
          dsimp only
          by_cases halive : req.keepAlive = true
          · rw [if_pos halive, if_pos halive, ih]
            unfold Served.andThen
            dsimp only
            split_ifs <;> rfl
          · rw [if_neg halive, if_neg halive]
            rfl

/-- What the loop leaves holds no complete head, unless the loop closes. -/
theorem serveAll_rest (buf : Bytes) (h : (serveAll buf).closing = false) :
    requestHeadLen (serveAll buf).rest = none := by
  induction buf using heads_induction with
  | done buf hhead =>
      rw [serveAll_none hhead]
      exact hhead
  | next buf headLen hhead ih =>
      rw [serveAll_some hhead] at h ⊢
      cases hparse : parseRequest (buf.take headLen) with
      | none =>
          rw [hparse] at h
          cases h
      | some req =>
          rw [hparse] at h
          dsimp only at h ⊢
          split_ifs at h ⊢
          exact ih h

def KeepsAlive (head : Bytes) : Prop := ∃ req, parseRequest head = some req ∧ req.keepAlive = true

/-- The heads are the successive prefixes, each cut at its first blank line, up
to the first that closes. -/
inductive Successive : Bytes → List Bytes → Bool → Prop where
  | done {rest : Bytes} (incomplete : ∀ i, ¬ BlankAt rest i) : Successive rest [] false
  | last {head rest : Bytes} (cut : CutAtBlankLine head) (closes : ¬ KeepsAlive head) :
      Successive (head ++ rest) [head] true
  | next {head rest : Bytes} {heads : List Bytes} {closing : Bool} (cut : CutAtBlankLine head)
    (alive : KeepsAlive head)
      (more : Successive rest heads closing) : Successive (head ++ rest) (head :: heads) closing

theorem serveAll_successive (buf : Bytes) : Successive buf (serveAll buf).heads (serveAll buf).closing ∧
    (serveAll buf).writes = ((serveAll buf).heads.filterMap parseRequest).map response := by
  induction buf using heads_induction with
  | done buf hhead =>
      rw [serveAll_none hhead]
      exact ⟨.done ((requestHeadLen_spec buf).2 hhead), rfl⟩
  | next buf headLen hhead ih =>
      have hcut := cut_of_requestHeadLen hhead
      have hsplit := List.take_append_drop headLen buf
      rw [serveAll_some hhead]
      generalize buf.take headLen = head at hcut hsplit ⊢
      generalize buf.drop headLen = rest at ih hsplit ⊢
      subst hsplit
      cases hparse : parseRequest head with
      | none =>
          refine ⟨.last hcut ?_, by rw [List.filterMap_cons_none hparse]; rfl⟩
          rintro ⟨req, hreq, -⟩
          rw [hparse] at hreq
          cases hreq
      | some req =>
          dsimp only
          split_ifs with halive
          · exact ⟨.next hcut ⟨req, hparse, halive⟩ ih.1, by rw [List.filterMap_cons_some hparse, ih.2]; rfl⟩
          · refine ⟨.last hcut ?_, by rw [List.filterMap_cons_some hparse]; rfl⟩
            rintro ⟨req', hreq, halive'⟩
            rw [hparse] at hreq
            exact halive (Option.some.inj hreq ▸ halive')

/-- The heads served, the bytes written and whether the application closes,
over the chunks that successive segments deliver, up to the close. -/
structure Answer where
  heads : List Bytes
  written : Bytes
  closing : Bool
  deriving DecidableEq, Repr

def answer (hbuf : Option Bytes) : List Bytes → Answer
  | [] => ⟨[], [], false⟩
  | chunk :: chunks =>
      let r := onReceived hbuf chunk
      if r.closing then ⟨r.heads, r.writes.flatten, true⟩
      else
        let more := answer r.hbuf chunks
        ⟨r.heads ++ more.heads, r.writes.flatten ++ more.written, more.closing⟩

/-- Where the first chunk that looks like a request begins. -/
def httpFrom : List Bytes → Nat
  | [] => 0
  | chunk :: chunks => if looksLikeRequest chunk then 0 else chunk.length + httpFrom chunks

/-- What the request loop answers to bytes that come at once. -/
def answerAll (bytes : Bytes) : Answer :=
  ⟨(serveAll bytes).heads, (serveAll bytes).writes.flatten, (serveAll bytes).closing⟩

theorem onReceived_buffered {hbuf : Option Bytes} {chunk : Bytes} (hne : chunk ≠ [])
    (h : hbuf.isSome = true ∨ looksLikeRequest chunk = true) : onReceived hbuf chunk =
      ⟨some (serveAll (hbuf.getD [] ++ chunk)).rest, (serveAll (hbuf.getD [] ++ chunk)).heads,
        (serveAll (hbuf.getD [] ++ chunk)).writes, (serveAll (hbuf.getD [] ++ chunk)).closing⟩ := by
  unfold onReceived
  rw [if_neg (mt List.isEmpty_iff.mp hne), if_pos h]
  rfl

theorem onReceived_echoed {chunk : Bytes} (hne : chunk ≠ []) (h : ¬ looksLikeRequest chunk = true) :
    onReceived none chunk = ⟨none, [], [chunk], false⟩ := by
  unfold onReceived
  rw [if_neg (mt List.isEmpty_iff.mp hne), if_neg (by simpa using h)]

theorem answer_buffered {left : Bytes} (hleft : requestHeadLen left = none) {chunks : List Bytes}
    (hne : ∀ c ∈ chunks, c ≠ []) : answer (some left) chunks = answerAll (left ++ chunks.flatten) := by
  induction chunks generalizing left with
  | nil =>
      rw [List.flatten_nil, List.append_nil, answerAll, serveAll_none hleft]
      rfl
  | cons chunk chunks ih =>
      have hreact := onReceived_buffered (hne chunk List.mem_cons_self)
          (.inl (Option.isSome_some : (some left).isSome = true))
      rw [Option.getD_some] at hreact
      rw [answer, hreact, List.flatten_cons, ← List.append_assoc, answerAll,
        serveAll_append (left ++ chunk) chunks.flatten]
      unfold Served.andThen
      dsimp only
      split_ifs with hclosing
      · rw [hclosing]
      · rw [ih (serveAll_rest _ (Bool.not_eq_true _ ▸ hclosing)) fun c hc =>
          hne c (List.mem_cons_of_mem _ hc), answerAll,
          List.flatten_append]

/-- The bytes before the first chunk that looks like a request are echoed, and
the rest is answered as if it came at once. -/
theorem answer_eq {chunks : List Bytes} (hne : ∀ c ∈ chunks, c ≠ []) : answer none chunks =
    ⟨(answerAll (chunks.flatten.drop (httpFrom chunks))).heads,
      chunks.flatten.take (httpFrom chunks) ++ (answerAll (chunks.flatten.drop (httpFrom chunks))).written,
      (answerAll (chunks.flatten.drop (httpFrom chunks))).closing⟩ := by
  induction chunks with
  | nil => rfl
  | cons chunk chunks ih =>
      have hchunk := hne chunk List.mem_cons_self
      rw [httpFrom]
      split_ifs with hlooks
      · have hsame : answer none (chunk :: chunks) = answer (some []) (chunk :: chunks) := by
          have hreact : onReceived none chunk = onReceived (some []) chunk := by
            rw [onReceived_buffered hchunk (.inr hlooks), onReceived_buffered hchunk (.inr hlooks)]
            rfl
          rw [answer, answer, hreact]
        rw [hsame, answer_buffered rfl hne]
        rfl
      · have hflat : (chunk :: chunks).flatten = chunk ++ chunks.flatten := List.flatten_cons
        rw [answer, onReceived_echoed hchunk hlooks, ih fun c hc => hne c (List.mem_cons_of_mem _ hc), hflat,
          List.drop_length_add_append, List.take_length_add_append, List.append_assoc]
        dsimp only
        rw [if_neg (by decide), List.flatten_singleton]
        rfl

theorem httpFrom_le (chunks : List Bytes) : httpFrom chunks ≤ chunks.flatten.length := by
  induction chunks with
  | nil => exact Nat.le_refl _
  | cons chunk chunks ih =>
      rw [httpFrom, List.flatten_cons, List.length_append]
      split_ifs <;> omega

theorem looksLikeRequest_iff (buf : Bytes) : looksLikeRequest buf = true ↔ ∃ m ∈ methods, m <+: buf := by
  simp only [looksLikeRequest, List.any_eq_true, List.isPrefixOf_iff_prefix]

theorem httpFrom_looks {chunks : List Bytes} (h : httpFrom chunks < chunks.flatten.length) :
    looksLikeRequest (chunks.flatten.drop (httpFrom chunks)) = true := by
  induction chunks with
  | nil => exact absurd h (Nat.not_lt_zero _)
  | cons chunk chunks ih =>
      have hflat : (chunk :: chunks).flatten = chunk ++ chunks.flatten := List.flatten_cons
      rw [hflat] at h ⊢
      rw [httpFrom] at h ⊢
      split_ifs at h ⊢ with hlooks
      · obtain ⟨m, hm, hpre⟩ := (looksLikeRequest_iff chunk).mp hlooks
        exact (looksLikeRequest_iff _).mpr ⟨m, hm, hpre.trans (List.prefix_append _ _)⟩
      · rw [List.drop_length_add_append]
        rw [List.length_append] at h
        exact ih (by omega)

theorem response_start (req : Request) : ∃ rest, response req = 0x48#8 :: 0x54#8 :: rest := by
  unfold response
  cases req.keepAlive <;> dsimp only <;> split_ifs <;> exact ⟨_, rfl⟩

theorem answerAll_start (bytes : Bytes) :
    (answerAll bytes).written = [] ∨ ∃ rest, (answerAll bytes).written = 0x48#8 :: 0x54#8 :: rest := by
  rw [answerAll, (serveAll_successive bytes).2]
  cases (serveAll bytes).heads.filterMap parseRequest with
  | nil => exact .inl rfl
  | cons req reqs =>
      obtain ⟨rest, hrest⟩ := response_start req
      right
      rw [List.map_cons, List.flatten_cons, hrest]
      exact ⟨_, rfl⟩

theorem answerAll_ne_echo {bytes : Bytes} (hlooks : looksLikeRequest bytes = true) {k : Nat}
    (hk : 0 < k) (rest : Bytes) :
    (answerAll bytes).written ≠ bytes.take k ++ (answerAll rest).written := by
  obtain ⟨m, hm, t, rfl⟩ := (looksLikeRequest_iff bytes).mp hlooks
  intro heq
  obtain ⟨k, rfl⟩ : ∃ n, k = n + 1 := ⟨k - 1, by omega⟩
  have hstart : ∃ more, (m ++ t).take (k + 1) ++ (answerAll rest).written = 0x48#8 :: 0x54#8 :: more := by
    rcases answerAll_start (m ++ t) with hnil | ⟨more, hmore⟩
    · rw [hnil] at heq
      have hempty := (List.append_eq_nil_iff.mp heq.symm).1
      simp only [methods, List.mem_cons, List.not_mem_nil, or_false] at hm
      rcases hm with rfl | rfl | rfl | rfl | rfl <;> cases hempty
    · exact ⟨more, heq.symm.trans hmore⟩
  obtain ⟨more, hmore⟩ := hstart
  -- of the methods only HEAD has the first letter, and none the first two
  simp only [methods, List.mem_cons, List.not_mem_nil, or_false] at hm
  rcases hm with rfl | rfl | rfl | rfl | rfl
  · cases (List.cons.inj hmore).1
  · have htail := (List.cons.inj hmore).2
    cases k with
    | zero =>
        rcases answerAll_start rest with hnil | ⟨more', hmore'⟩
        · rw [hnil] at htail
          cases htail
        · rw [hmore'] at htail
          cases (List.cons.inj htail).1
    | succ k => cases (List.cons.inj htail).1
  · cases (List.cons.inj hmore).1
  · cases (List.cons.inj hmore).1
  · cases (List.cons.inj hmore).1

theorem written_ne_of_lt {bytes : Bytes} {p q : Nat} (hpq : p < q)
    (hlooks : looksLikeRequest (bytes.drop p) = true) :
    bytes.take p ++ (answerAll (bytes.drop p)).written ≠ bytes.take q ++ (answerAll (bytes.drop q)).written := by
  intro heq
  have hsplit : bytes.take q = bytes.take p ++ (bytes.drop p).take (q - p) := by
    rw [← List.take_add, Nat.add_sub_cancel' (Nat.le_of_lt hpq)]
  rw [hsplit, List.append_assoc] at heq
  exact answerAll_ne_echo hlooks (by omega) _ (List.append_cancel_left heq)

/-- Two ways to cut one string are answered alike exactly if the first chunk
that looks like a request begins at the same byte in both. The heads served are
the successive ones from that byte on. -/
theorem answers_agree_iff {cs ds : List Bytes} (hcs : ∀ c ∈ cs, c ≠ []) (hds : ∀ d ∈ ds, d ≠ [])
    (hsame : cs.flatten = ds.flatten) :
    ((answer none cs).written = (answer none ds).written ∧ (answer none cs).closing = (answer none ds).closing ↔
      httpFrom cs = httpFrom ds) ∧
    Successive (cs.flatten.drop (httpFrom cs)) (answer none cs).heads (answer none cs).closing ∧
    (answer none cs).written =
      cs.flatten.take (httpFrom cs) ++ (((answer none cs).heads.filterMap parseRequest).map response).flatten := by
  have hc := answer_eq hcs
  have hd := answer_eq hds
  have hp := httpFrom_le cs
  have hq := httpFrom_le ds
  have hlooksc : httpFrom cs < cs.flatten.length → _ := httpFrom_looks
  have hlooksd : httpFrom ds < ds.flatten.length → _ := httpFrom_looks
  rw [← hsame] at hd hq hlooksd
  refine ⟨⟨fun h => ?_, fun h => ?_⟩, ?_, ?_⟩
  · rw [hc, hd] at h
    rcases Nat.lt_trichotomy (httpFrom cs) (httpFrom ds) with hlt | heq | hlt
    · exact absurd h.1 (written_ne_of_lt hlt (hlooksc (by omega)))
    · exact heq
    · exact absurd h.1.symm (written_ne_of_lt hlt (hlooksd (by omega)))
  · rw [hc, hd, h]
    exact ⟨rfl, rfl⟩
  · rw [hc]
    exact (serveAll_successive _).1
  · rw [hc, answerAll, (serveAll_successive _).2]

def getRoot : Bytes := ascii "GET / HTTP/1.1\r\n\r\n".toList

/-- A request whose first byte comes alone is echoed, not answered. -/
theorem split_request_echoed :
    (answer none [getRoot]).written = response ⟨"GET".toList, "/".toList, .http11, true⟩ ∧
      (answer none [getRoot.take 1, getRoot.drop 1]).written = getRoot ∧
      [getRoot].flatten = [getRoot.take 1, getRoot.drop 1].flatten ∧
      (answer none [getRoot]).written ≠ (answer none [getRoot.take 1, getRoot.drop 1]).written := by
  refine ⟨?_, ?_, ?_, ?_⟩ <;> decide +kernel

/-- Two requests at once, or cut inside the first one behind its method. -/
theorem cut_behind_method_agrees :
    (answer none [getRoot ++ getRoot]).written =
      (answer none [getRoot.take 4, getRoot.drop 4 ++ getRoot.take 9, getRoot.drop 9]).written := by
  have hcs : ∀ c ∈ [getRoot ++ getRoot], c ≠ [] := by decide +kernel
  have hds : ∀ d ∈ [getRoot.take 4, getRoot.drop 4 ++ getRoot.take 9, getRoot.drop 9], d ≠ [] := by decide +kernel
  have hsame : [getRoot ++ getRoot].flatten =
      [getRoot.take 4, getRoot.drop 4 ++ getRoot.take 9, getRoot.drop 9].flatten := by
    decide +kernel
  have hfrom : httpFrom [getRoot ++ getRoot] =
      httpFrom [getRoot.take 4, getRoot.drop 4 ++ getRoot.take 9, getRoot.drop 9] := by
    decide +kernel
  exact ((answers_agree_iff hcs hds hsame).1.mpr hfrom).1

end TcpStack.Http
