import TcpStack.Word

/-!
# HTTP requests over bytes

The request parser and the canned responder of the server. Nothing here keeps
state: a head is cut at its first blank line, and a request is read from the
bytes of its head. A string of the source is the list of its characters.
-/
namespace TcpStack.Http

inductive Version where
  | http10
  | http11
  deriving DecidableEq, Repr

structure Request where
  method : List Char
  path : List Char
  version : Version
  keepAlive : Bool
  deriving DecidableEq, Repr

def ascii (text : List Char) : Bytes := text.map fun c => BitVec.ofNat 8 c.toNat

def blankLine : Bytes := [0x0d#8, 0x0a#8, 0x0d#8, 0x0a#8]

/-- `buf.windows(n)`, for a positive `n` -/
def windows (n : Nat) : Bytes → List Bytes
  | [] => []
  | x :: rest => if n ≤ (x :: rest).length then (x :: rest).take n :: windows n rest else []

/-- The length of the first request head, through its blank line. -/
def requestHeadLen (buf : Bytes) : Option Nat := ((windows 4 buf).findIdx? fun w => w == blankLine).map (· + 4)

def methods : List Bytes :=
  [ascii "GET ".toList, ascii "HEAD ".toList, ascii "POST ".toList, ascii "PUT ".toList, ascii "DELETE ".toList]

/-- Do the bytes begin a request line that the server knows? -/
def looksLikeRequest (buf : Bytes) : Bool := methods.any fun m => m.isPrefixOf buf

def continues (b : U8) : Bool := 0x80#8 ≤ b ∧ b ≤ 0xbf#8

/-- The second byte of a three-byte sequence: no overlong form, no surrogate. -/
def secondOfThree (a b : U8) : Bool :=
  if a = 0xe0#8 then decide (0xa0#8 ≤ b ∧ b ≤ 0xbf#8)
  else if a = 0xed#8 then decide (0x80#8 ≤ b ∧ b ≤ 0x9f#8)
  else continues b

/-- The second byte of a four-byte sequence: no overlong form, nothing past U+10FFFF. -/
def secondOfFour (a b : U8) : Bool :=
  if a = 0xf0#8 then decide (0x90#8 ≤ b ∧ b ≤ 0xbf#8)
  else if a = 0xf4#8 then decide (0x80#8 ≤ b ∧ b ≤ 0x8f#8)
  else continues b

def low6 (b : U8) : Nat := (b &&& 0x3f#8).toNat

/-- `std::str::from_utf8` -/
def fromUtf8 : Bytes → Option (List Char)
  | [] => some []
  | a :: rest =>
      if a < 0x80#8 then (fromUtf8 rest).map (Char.ofNat a.toNat :: ·)
      else match rest with
        | [] => none
        | b :: rest =>
            if 0xc2#8 ≤ a ∧ a ≤ 0xdf#8 then
              if continues b then (fromUtf8 rest).map (Char.ofNat ((a &&& 0x1f#8).toNat * 64 + low6 b) :: ·) else none
            else match rest with
              | [] => none
              | c :: rest =>
                  if 0xe0#8 ≤ a ∧ a ≤ 0xef#8 then
                    if secondOfThree a b ∧ continues c then
                      (fromUtf8 rest).map (Char.ofNat ((a &&& 0x0f#8).toNat * 4096 + low6 b * 64 + low6 c) :: ·)
                    else none
                  else match rest with
                    | [] => none
                    | d :: rest =>
                        if 0xf0#8 ≤ a ∧ a ≤ 0xf4#8 ∧ secondOfFour a b ∧ continues c ∧ continues d then
                          (fromUtf8 rest).map (Char.ofNat ((a &&& 0x07#8).toNat * 262144 + low6 b *
                            4096 + low6 c * 64 +
                            low6 d) :: ·)
                        else none

/-- `text.split("\r\n")` -/
def splitCrlf : List Char → List (List Char)
  | '\r' :: '\n' :: rest => [] :: splitCrlf rest
  | c :: rest =>
      match splitCrlf rest with
      | [] => [[c]]
      | line :: lines => (c :: line) :: lines
  | [] => [[]]

/-- `text.split_once(':')` -/
def splitOnce (sep : Char) : List Char → Option (List Char × List Char)
  | [] => none
  | c :: rest => if c = sep then some ([], rest) else (splitOnce sep rest).map fun p => (c :: p.1, p.2)

/-- `text.split(sep)` -/
def splitOn (sep : Char) : List Char → List (List Char)
  | [] => [[]]
  | c :: rest =>
      if c = sep then [] :: splitOn sep rest
      else match splitOn sep rest with
        | [] => [[c]]
        | part :: parts => (c :: part) :: parts

/-- `char::is_whitespace`: the Unicode property White_Space -/
def isWhitespace (c : Char) : Bool :=
  (9 ≤ c.toNat && c.toNat ≤ 13) || c.toNat = 32 || c.toNat = 0x85 || c.toNat = 0xa0 || c.toNat = 0x1680 ||
    (0x2000 ≤ c.toNat && c.toNat ≤ 0x200a) || c.toNat = 0x2028 || c.toNat = 0x2029 || c.toNat = 0x202f ||
    c.toNat = 0x205f || c.toNat = 0x3000

def trim (text : List Char) : List Char := ((text.dropWhile isWhitespace).reverse.dropWhile isWhitespace).reverse

def toAsciiLowercase (c : Char) : Char := if 'A' ≤ c ∧ c ≤ 'Z' then Char.ofNat (c.toNat + 32) else c

def eqIgnoreAsciiCase (a b : List Char) : Bool := a.map toAsciiLowercase == b.map toAsciiLowercase

/-- The header lines, up to an empty one: a `Connection` header overrides the default. -/
def persistence : List (List Char) → Bool → Bool
  | [], keepAlive => keepAlive
  | line :: lines, keepAlive =>
      if line.isEmpty then keepAlive
      else match splitOnce ':' line with
        | none => persistence lines keepAlive
        | some (name, value) =>
            if eqIgnoreAsciiCase (trim name) "connection".toList then
              let v := trim value
              if eqIgnoreAsciiCase v "close".toList then persistence lines false
              else if eqIgnoreAsciiCase v "keep-alive".toList then persistence lines true
              else persistence lines keepAlive
            else persistence lines keepAlive

def parseVersion (text : List Char) : Option Version :=
  if text = "HTTP/1.1".toList then some .http11
  else if text = "HTTP/1.0".toList then some .http10
  else none

def parseRequest (head : Bytes) : Option Request := do
  let text ← fromUtf8 head
  match splitCrlf text with
  | [] => none
  | requestLine :: lines =>
      match splitOn ' ' requestLine with
      | method :: path :: version :: _ =>
          let version ← parseVersion version
          if method.isEmpty ∨ path.isEmpty then none
          else some { method, path, version, keepAlive := persistence lines (version = .http11) }
      | _ => none

def body : Bytes := ascii "Hello from a TCP/IP stack built from scratch in Rust!\n".toList

/-- The `200 OK` for a request; a `HEAD` gets no body. -/
def response (req : Request) : Bytes :=
  let version := if req.keepAlive then "HTTP/1.1".toList else "HTTP/1.0".toList
  let connHdr := if req.keepAlive then "keep-alive".toList else "close".toList
  let head := ascii (version ++ " 200 OK\r\nContent-Type: text/plain\r\nContent-Length: ".toList ++
    (Nat.toDigits 10 body.length) ++ "\r\nConnection: ".toList ++ connHdr ++ "\r\n\r\n".toList)
  if req.method = "HEAD".toList then head else head ++ body

/-- What the request loop leaves: the heads it took, what it wrote for them, the
bytes behind them, and whether it closes. -/
structure Served where
  heads : List Bytes
  writes : List Bytes
  rest : Bytes
  closing : Bool
  deriving DecidableEq, Repr

def serve : Nat → Bytes → Served
  | 0, hbuf => ⟨[], [], hbuf, false⟩
  | fuel+1, hbuf =>
      match requestHeadLen hbuf with
      | none => ⟨[], [], hbuf, false⟩
      | some headLen =>
          let head := hbuf.take headLen
          let rest := hbuf.drop headLen
          match parseRequest head with
          | some req =>
              if req.keepAlive then
                let more := serve fuel rest
                ⟨head :: more.heads, response req :: more.writes, more.rest, more.closing⟩
              else ⟨[head], [response req], rest, true⟩
          -- malformed
          | none => ⟨[head], [], rest, true⟩

/-- What the application does with the bytes received by one segment, and the
buffer it keeps for the next. A head has four bytes or more, so the buffer's
length is fuel enough. -/
structure Reaction where
  hbuf : Option Bytes
  heads : List Bytes
  writes : List Bytes
  closing : Bool
  deriving DecidableEq, Repr

def onReceived (hbuf : Option Bytes) (received : Bytes) : Reaction :=
  if received.isEmpty then ⟨hbuf, [], [], false⟩
  else if hbuf.isSome ∨ looksLikeRequest received then
    let buf := hbuf.getD [] ++ received
    let served := serve buf.length buf
    ⟨some served.rest, served.heads, served.writes, served.closing⟩
  else ⟨hbuf, [], [received], false⟩

end TcpStack.Http
