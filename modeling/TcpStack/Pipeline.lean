import TcpStack.Visit

/-!
# Pipelined requests

A request as a client means it, and the head it writes for it. The parser reads
every such head back as the request that was meant, and a series of heads, cut
into segments in any way behind the first method, is answered by the responses to
its requests, in order, up to the first that closes.
-/
namespace TcpStack.Http

def plain (c : Char) : Prop := c.toNat < 128 ∧ c ≠ '\r' ∧ c ≠ '\n'

instance : DecidablePred plain := fun _ => inferInstanceAs (Decidable (_ ∧ _))

theorem plain_of_all {line : List Char} (h : line.all (fun c => decide (plain c)) = true) : ∀ c ∈ line, plain c :=
  fun c hc => of_decide_eq_true (List.all_eq_true.mp h c hc)

structure Field where
  name : List Char
  value : List Char
  plainName : ∀ c ∈ name, plain c
  plainValue : ∀ c ∈ value, plain c
  noColon : ':' ∉ name

/-- A word of the request line. -/
structure Word where
  text : List Char
  nonempty : text ≠ []
  plain : ∀ c ∈ text, plain c
  noSpace : ' ' ∉ text

structure Message where
  method : Word
  path : Word
  version : Version
  fields : List Field

def Version.text : Version → List Char
  | .http10 => "HTTP/1.0".toList
  | .http11 => "HTTP/1.1".toList

def Field.choice (f : Field) : Option Bool :=
  if eqIgnoreAsciiCase (trim f.name) "connection".toList then
    if eqIgnoreAsciiCase (trim f.value) "close".toList then some false
    else if eqIgnoreAsciiCase (trim f.value) "keep-alive".toList then some true
    else none
  else none

namespace Message

def persists (m : Message) : Bool := (m.fields.filterMap Field.choice).getLast?.getD (m.version = .http11)

def request (m : Message) : Request := ⟨m.method.text, m.path.text, m.version, m.persists⟩

def requestLine (m : Message) : List Char := m.method.text ++ ' ' :: (m.path.text ++ ' ' :: m.version.text)

def lines (m : Message) : List (List Char) := m.requestLine :: m.fields.map fun f => f.name ++ ':' :: f.value

def text (m : Message) : List Char := m.lines.flatMap (· ++ ['\r', '\n']) ++ ['\r', '\n']

def render (m : Message) : Bytes := ascii m.text

/-- The requests that the server answers before it closes. -/
def answered : List Message → List Message
  | [] => []
  | m :: ms => if m.persists then m :: answered ms else [m]

end Message

theorem ascii_append (a b : List Char) : ascii (a ++ b) = ascii a ++ ascii b := List.map_append

theorem fromUtf8_ascii {text : List Char} (h : ∀ c ∈ text, c.toNat < 128) : fromUtf8 (ascii text) = some text := by
  induction text with
  | nil => rfl
  | cons c text ih =>
      obtain ⟨hc, hrest⟩ := List.forall_mem_cons.mp h
      have hbyte : (BitVec.ofNat 8 c.toNat).toNat = c.toNat := by
        rw [BitVec.toNat_ofNat]
        exact Nat.mod_eq_of_lt (by omega)
      have hlow : BitVec.ofNat 8 c.toNat < 0x80#8 := by
        rw [BitVec.lt_def, hbyte]
        exact hc
      rw [ascii, List.map_cons, ← ascii]
      unfold fromUtf8
      rw [if_pos hlow, ih hrest, hbyte, Char.ofNat_toNat]
      rfl

theorem splitCrlf_line {line : List Char} (h : '\r' ∉ line) (rest : List Char) :
    splitCrlf (line ++ '\r' :: '\n' :: rest) = line :: splitCrlf rest := by
  induction line with
  | nil => rw [List.nil_append, splitCrlf]
  | cons c line ih =>
      obtain ⟨hc, hline⟩ := List.ne_and_not_mem_of_not_mem_cons h
      rw [List.cons_append, splitCrlf, ih hline]
      rintro rest' rfl
      exact absurd rfl hc

theorem splitCrlf_lines {lines : List (List Char)} (h : ∀ line ∈ lines, '\r' ∉ line) :
    splitCrlf (lines.flatMap (· ++ ['\r', '\n']) ++ ['\r', '\n']) = lines ++ [[], []] := by
  induction lines with
  | nil => rfl
  | cons line lines ih =>
      obtain ⟨hline, hrest⟩ := List.forall_mem_cons.mp h
      rw [List.flatMap_cons, List.append_assoc, List.append_assoc, List.cons_append,
        List.cons_append, List.nil_append,
        splitCrlf_line hline, ih hrest]
      rfl

theorem splitOn_word {sep : Char} {word : List Char} (h : sep ∉ word) (rest : List Char) :
    splitOn sep (word ++ sep :: rest) = word :: splitOn sep rest := by
  induction word with
  | nil => rw [List.nil_append, splitOn, if_pos rfl]
  | cons c word ih =>
      obtain ⟨hc, hword⟩ := List.ne_and_not_mem_of_not_mem_cons h
      rw [List.cons_append, splitOn, if_neg (Ne.symm hc), ih hword]

theorem splitOn_last {sep : Char} {word : List Char} (h : sep ∉ word) : splitOn sep word = [word] := by
  induction word with
  | nil => rfl
  | cons c word ih =>
      obtain ⟨hc, hword⟩ := List.ne_and_not_mem_of_not_mem_cons h
      rw [splitOn, if_neg (Ne.symm hc), ih hword]

theorem splitOnce_field {sep : Char} {name : List Char} (h : sep ∉ name) (value : List Char) :
    splitOnce sep (name ++ sep :: value) = some (name, value) := by
  induction name with
  | nil => rw [List.nil_append, splitOnce, if_pos rfl]
  | cons c name ih =>
      obtain ⟨hc, hname⟩ := List.ne_and_not_mem_of_not_mem_cons h
      rw [List.cons_append, splitOnce, if_neg (Ne.symm hc), ih hname]
      rfl

theorem persistence_fields (fields : List Field) (more : List (List Char)) (keepAlive : Bool) :
    persistence ((fields.map fun f => f.name ++ ':' :: f.value) ++ [] :: more) keepAlive =
      (fields.filterMap Field.choice).getLast?.getD keepAlive := by
  induction fields generalizing keepAlive with
  | nil => rfl
  | cons f fields ih =>
      have hline : (f.name ++ ':' :: f.value).isEmpty = false := by simp
      have hlast : ∀ (b : Bool) (bs : List Bool), (b :: bs).getLast?.getD keepAlive = bs.getLast?.getD b := by
        intro b bs
        rw [List.getLast?_cons]
        rfl
      rw [List.map_cons, List.cons_append, persistence, hline, if_neg Bool.false_ne_true, splitOnce_field f.noColon,
        List.filterMap_cons, Field.choice]
      dsimp only
      split_ifs with hname hclose hkeep
      · rw [ih]
        exact (hlast ..).symm
      · rw [ih]
        exact (hlast ..).symm
      · exact ih keepAlive
      · exact ih keepAlive

namespace Message

theorem plain_lines (m : Message) : ∀ line ∈ m.lines, ∀ c ∈ line, plain c := by
  have hspace : plain ' ' := by decide
  have hcolon : plain ':' := by decide
  have hversion : ∀ c ∈ m.version.text, plain c := by
    refine plain_of_all ?_
    cases m.version <;> decide
  intro line hline c hc
  rcases List.mem_cons.mp hline with rfl | hline
  · simp only [requestLine, List.mem_append, List.mem_cons] at hc
    rcases hc with hc | rfl | hc | rfl | hc
    · exact m.method.plain c hc
    · exact hspace
    · exact m.path.plain c hc
    · exact hspace
    · exact hversion c hc
  · obtain ⟨f, -, rfl⟩ := List.mem_map.mp hline
    simp only [List.mem_append, List.mem_cons] at hc
    rcases hc with hc | rfl | hc
    · exact f.plainName c hc
    · exact hcolon
    · exact f.plainValue c hc

theorem ascii_text (m : Message) : ∀ c ∈ m.text, c.toNat < 128 := by
  have hend : ∀ c ∈ ['\r', '\n'], c.toNat < 128 := by simp
  intro c hc
  rcases List.mem_append.mp hc with hc | hc
  · obtain ⟨line, hline, hc⟩ := List.mem_flatMap.mp hc
    rcases List.mem_append.mp hc with hc | hc
    · exact (m.plain_lines line hline c hc).1
    · exact hend c hc
  · exact hend c hc

theorem parse_render (m : Message) : parseRequest m.render = some m.request := by
  have hnoCr : ∀ line ∈ m.lines, '\r' ∉ line := fun line hline hr => (m.plain_lines line hline _ hr).2.1 rfl
  have hversion : ' ' ∉ m.version.text := by
    cases m.version <;> decide
  have hparse : parseVersion m.version.text = some m.version := by
    cases m.version <;> rfl
  have hline : splitOn ' ' m.requestLine = [m.method.text, m.path.text, m.version.text] := by
    rw [requestLine, splitOn_word m.method.noSpace, splitOn_word m.path.noSpace, splitOn_last hversion]
  have hnonempty : ¬ (m.method.text.isEmpty = true ∨ m.path.text.isEmpty = true) := by
    simp [m.method.nonempty, m.path.nonempty]
  rw [parseRequest, render, fromUtf8_ascii m.ascii_text, Option.bind_eq_bind, Option.bind_some, text,
    splitCrlf_lines hnoCr, lines]
  dsimp only [List.cons_append]
  rw [hline]
  dsimp only
  rw [hparse, Option.bind_eq_bind, Option.bind_some, if_neg hnonempty, persistence_fields]
  rfl

end Message

theorem requestHeadLen_skip {line : Bytes} (h : 0x0d#8 ∉ line) (rest : Bytes) :
    requestHeadLen (line ++ rest) = (requestHeadLen rest).map (· + line.length) := by
  induction line with
  | nil => rw [List.nil_append, List.length_nil, show (fun n : Nat => n + 0) = id from rfl, Option.map_id, id]
  | cons x line ih =>
      obtain ⟨hx, hline⟩ := List.ne_and_not_mem_of_not_mem_cons h
      have hblank : (x :: (line ++ rest)).take 4 ≠ blankLine := fun heq => hx (List.cons.inj heq).1.symm
      rw [List.cons_append, requestHeadLen_cons, if_neg hblank, ih hline, Option.map_map]
      exact congrArg (Option.map · _) (funext fun n => Nat.add_assoc n line.length 1)

theorem requestHeadLen_crlf {y : U8} (hy : 0x0d#8 ≠ y) (rest : Bytes) :
    requestHeadLen (0x0d#8 :: 0x0a#8 :: y :: rest) = (requestHeadLen (y :: rest)).map (· + 2) := by
  have hfirst : (0x0d#8 :: 0x0a#8 :: y :: rest).take 4 ≠ blankLine := by
    intro heq
    exact hy (List.cons.inj (List.cons.inj (List.cons.inj heq).2).2).1.symm
  have hsecond : (0x0a#8 :: y :: rest).take 4 ≠ blankLine := by
    intro heq
    exact absurd (List.cons.inj heq).1 (by decide)
  rw [requestHeadLen_cons, if_neg hfirst, requestHeadLen_cons, if_neg hsecond, Option.map_map]
  rfl

theorem requestHeadLen_lines {line : Bytes} {lines : List Bytes} (h : ∀ l ∈ line :: lines, l ≠ [] ∧ 0x0d#8 ∉ l) :
    requestHeadLen ((line :: lines).flatMap (· ++ [0x0d#8, 0x0a#8]) ++ [0x0d#8, 0x0a#8]) =
      some ((line :: lines).flatMap (· ++ [0x0d#8, 0x0a#8]) ++ [0x0d#8, 0x0a#8]).length := by
  induction lines generalizing line with
  | nil =>
      obtain ⟨-, hline⟩ := h line List.mem_cons_self
      have hsame : [line].flatMap (· ++ [0x0d#8, 0x0a#8]) ++ [0x0d#8, 0x0a#8] = line ++ blankLine := by
        rw [List.flatMap_cons, List.flatMap_nil, List.append_nil, List.append_assoc]
        rfl
      rw [hsame, requestHeadLen_skip hline, List.length_append, Nat.add_comm]
      rfl
  | cons next lines ih =>
      obtain ⟨hline, hrest⟩ := List.forall_mem_cons.mp h
      have hlen := ih hrest
      obtain ⟨hne, hcr⟩ := hrest next List.mem_cons_self
      obtain ⟨y, next, rfl⟩ := List.exists_cons_of_ne_nil hne
      have hy : 0x0d#8 ≠ y := (List.ne_and_not_mem_of_not_mem_cons hcr).1
      have hflat : (line :: (y :: next) :: lines).flatMap (· ++ [0x0d#8, 0x0a#8]) ++ [0x0d#8, 0x0a#8] =
          line ++ 0x0d#8 :: 0x0a#8 :: (((y :: next) :: lines).flatMap (· ++ [0x0d#8, 0x0a#8]) ++
          [0x0d#8, 0x0a#8]) := by
        simp only [List.flatMap_cons, List.append_assoc, List.cons_append, List.nil_append]
      rw [hflat, requestHeadLen_skip hline.2]
      have htail : ((y :: next) :: lines).flatMap (· ++ [0x0d#8, 0x0a#8]) ++ [0x0d#8, 0x0a#8] =
          y :: (next ++ [0x0d#8, 0x0a#8] ++ lines.flatMap (· ++ [0x0d#8, 0x0a#8]) ++ [0x0d#8, 0x0a#8]) := by
        simp only [List.flatMap_cons, List.append_assoc, List.cons_append]
      rw [htail] at hlen ⊢
      rw [requestHeadLen_crlf hy, hlen, Option.map_some, Option.map_some]
      refine congrArg some ?_
      simp only [List.length_append, List.length_cons]
      omega

namespace Message

theorem not_mem_ascii {line : List Char} (h : ∀ c ∈ line, plain c) : 0x0d#8 ∉ ascii line := by
  intro hmem
  obtain ⟨c, hc, hbyte⟩ := List.mem_map.mp hmem
  obtain ⟨hlow, hcr, -⟩ := h c hc
  have hnat : c.toNat = 13 := by
    have := congrArg BitVec.toNat hbyte
    rw [BitVec.toNat_ofNat, Nat.mod_eq_of_lt (by omega)] at this
    exact this
  refine hcr ?_
  rw [← Char.ofNat_toNat c, hnat]

theorem render_lines (m : Message) : m.render =
    (m.lines.map ascii).flatMap (· ++ [0x0d#8, 0x0a#8]) ++ [0x0d#8, 0x0a#8] := by
  rw [render, text, ascii_append, List.flatMap_map]
  refine congrArg (· ++ _) ?_
  rw [ascii, List.map_flatMap]
  exact congrArg (List.flatMap · _) (funext fun line => ascii_append line _)

theorem headLen_render (m : Message) (more : Bytes) : requestHeadLen (m.render ++ more) = some m.render.length := by
  refine requestHeadLen_append ?_ more
  rw [render_lines, lines, List.map_cons]
  refine requestHeadLen_lines fun l hl => ?_
  rw [← List.map_cons, ← lines] at hl
  obtain ⟨line, hline, rfl⟩ := List.mem_map.mp hl
  refine ⟨?_, not_mem_ascii (m.plain_lines line hline)⟩
  have hne : line ≠ [] := by
    rcases List.mem_cons.mp hline with rfl | hline
    · simp [requestLine]
    · obtain ⟨f, -, rfl⟩ := List.mem_map.mp hline
      simp
  exact mt List.map_eq_nil_iff.mp hne

theorem serveAll_pipeline (ms : List Message) :
    (serveAll (ms.flatMap render)).writes = (answered ms).map (response ∘ request) ∧
      ((serveAll (ms.flatMap render)).closing = true ↔ ∃ m ∈ ms, m.persists = false) := by
  induction ms with
  | nil => exact ⟨rfl, by simp [serveAll, serve]⟩
  | cons m ms ih =>
      have hhead := m.headLen_render (ms.flatMap render)
      rw [List.flatMap_cons, serveAll_some hhead, List.take_left, List.drop_left, parse_render]
      dsimp only
      rw [answered]
      have hrequest : m.request.keepAlive = m.persists := rfl
      cases hp : m.persists with
      | true =>
          rw [hrequest, hp, if_pos rfl, if_pos rfl]
          refine ⟨congrArg (response m.request :: ·) ih.1, ih.2.trans ?_⟩
          simp [hp]
      | false =>
          rw [hrequest, hp, if_neg Bool.false_ne_true, if_neg Bool.false_ne_true]
          exact ⟨rfl, by simp [hp]⟩

end Message

theorem writes_prefix {buf bytes : Bytes} (h : buf <+: bytes) :
    (serveAll buf).writes <+: (serveAll bytes).writes := by
  obtain ⟨more, rfl⟩ := h
  rw [serveAll_append, Served.andThen]
  split_ifs
  · exact List.prefix_rfl
  · exact List.prefix_append _ _

/-- The chunks of a series of heads, of which the first one looks like a request,
are answered by the first responses to the series; when they are all of it, by
all of them. -/
theorem pipeline_answered {ms : List Message} {chunks : List Bytes} (hne : ∀ c ∈ chunks, c ≠ [])
    (hpart : chunks.flatten <+: ms.flatMap Message.render) (hfirst : ∀ c ∈ chunks.head?, looksLikeRequest c = true) :
    (answer none chunks).written <+: ((Message.answered ms).map (response ∘ Message.request)).flatten ∧
      (chunks.flatten = ms.flatMap Message.render →
        (answer none chunks).written = ((Message.answered ms).map (response ∘ Message.request)).flatten) := by
  have hfrom : httpFrom chunks = 0 := by
    cases chunks with
    | nil => rfl
    | cons c chunks => exact if_pos (hfirst c rfl)
  have hwritten : (answer none chunks).written = (serveAll chunks.flatten).writes.flatten := by
    rw [answer_eq hne, hfrom]
    rfl
  obtain ⟨hall, -⟩ := Message.serveAll_pipeline ms
  rw [hwritten, ← hall]
  refine ⟨?_, fun heq => by rw [heq]⟩
  obtain ⟨more, hmore⟩ := writes_prefix hpart
  exact ⟨more.flatten, by rw [← List.flatten_append, hmore]⟩

end TcpStack.Http

namespace TcpStack.Main
open Tcp Http

variable {F : Type} [F64 F]

namespace Visit

/-- A client that writes requests. The parser reads each head back as the request
that was meant, cut where the client ended it. The chunks that the application of
the loop has taken are a first part of what the client wrote, and the client has
read a first part of the answer to them. If the first chunk looks like a request,
the answer is a first part of the responses to the requests, in order, up to the
first that closes, and when the application has taken them all it is all of these. -/
theorem pipeline_is_answered (synSecret : U64) (q : Quad) (iss : U32) (now : U64) (rnd : U32)
    (events : List (Event F)) (ms : List Message) (hosted : HostedThroughout q (init synSecret q iss now rnd) events)
    (hasked : ((init (F := F) synSecret q iss now rnd).run q events).client.written <+: ms.flatMap Message.render)
    (hwritten : ((init (F := F) synSecret q iss now rnd).run q events).client.written.length < 2 ^ 31)
    (hsaid : ((init (F := F) synSecret q iss now rnd).run q events).said.length < 2 ^ 31) :
    let v := (init (F := F) synSecret q iss now rnd).run q events
    let responses := ((Message.answered ms).map (response ∘ Message.request)).flatten
    (∀ m : Message, parseRequest m.render = some m.request ∧
      ∀ more, requestHeadLen (m.render ++ more) = some m.render.length) ∧
    (∀ c ∈ v.took, c ≠ []) ∧ v.took.flatten <+: v.client.written ∧
      let answer := (Http.answer none v.took).written
      v.client.delivered <+: answer ∧
        ((∀ c ∈ v.took.head?, looksLikeRequest c = true) →
          answer <+: responses ∧ (v.took.flatten = ms.flatMap Message.render → answer = responses)) := by
  intro v responses
  obtain ⟨hne, htaken, hread⟩ := answer_read synSecret q iss now rnd events hosted hwritten hsaid
  exact ⟨fun m => ⟨m.parse_render, m.headLen_render⟩, hne, htaken, hread, pipeline_answered hne (htaken.trans hasked)⟩

def askRoot : Message :=
  { method := ⟨"GET".toList, by decide, plain_of_all (by decide), by decide⟩
    path := ⟨"/".toList, by decide, plain_of_all (by decide), by decide⟩
    version := .http11
    fields := [] }

theorem askRoot_writes : askRoot.render = getRoot := by
  decide +kernel

/-- The application takes the request as one chunk, and the client has read the
response to it. -/
theorem root_is_answered : (errand.run EventLoop.visitor errands).took = [askRoot.render] ∧
    parseRequest askRoot.render = some askRoot.request ∧
    (errand.run EventLoop.visitor errands).client.delivered = response askRoot.request := by
  obtain ⟨hhosted, hclient, htook, -, hlength⟩ := errand_facts
  have hasked : (errand.run EventLoop.visitor errands).client.written <+: [askRoot].flatMap Message.render := by
    refine ⟨[], ?_⟩
    rw [hclient, List.append_nil, List.flatMap_singleton, askRoot_writes]
  obtain ⟨hparser, -, -, hanswer, hresponses⟩ := pipeline_is_answered 7#64 EventLoop.visitor 5#32 0#64 0#32 errands
    [askRoot] hhosted hasked errand_is_short.1 errand_is_short.2
  have hall : ((Message.answered [askRoot]).map (response ∘ Message.request)).flatten = response askRoot.request := by
    decide +kernel
  have hresponse : (response askRoot.request).length = 143 := by decide +kernel
  have hfirst : ∀ c ∈ (errand.run EventLoop.visitor errands).took.head?, looksLikeRequest c = true := by
    rw [htook]
    decide +kernel
  refine ⟨by rw [htook, askRoot_writes], (hparser askRoot).1, ?_⟩
  refine List.IsPrefix.eq_of_length ?_ (hlength.trans hresponse.symm)
  rw [← hall]
  exact hanswer.trans (hresponses hfirst).1

end Visit
end TcpStack.Main
