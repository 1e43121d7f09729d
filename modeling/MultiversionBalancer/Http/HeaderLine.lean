import MultiversionBalancer.Http.RequestLine

/-!
# Header lines

`ngx_http_parse_header_line` of `ngx_http_parse.c`.  Each call parses one
header, or the empty line behind the last one.
-/

namespace MultiversionBalancer.Http

open Lib

inductive HeaderState where
  | start
  | name
  | spaceBeforeValue
  | value
  | spaceAfterValue
  | ignoreLine
  | almostDone
  | headerAlmostDone
  deriving DecidableEq

def ngxHttpLcHeaderLen : ℕ := 32

/-- The fields of `ngx_http_request_t` that the parser writes at once. -/
structure HeaderLine where
  headerNameStart : Option ℕ
  headerNameEnd : Option ℕ
  headerStart : Option ℕ
  headerEnd : Option ℕ
  invalidHeader : Bool
  lowcaseHeader : List UInt8
  deriving DecidableEq

/-- The fields of a new request. -/
def HeaderLine.new : HeaderLine where
  headerNameStart := none
  headerNameEnd := none
  headerStart := none
  headerEnd := none
  invalidHeader := false
  lowcaseHeader := List.replicate ngxHttpLcHeaderLen 0

/-- The local variables `state`, `hash` and `i`, which are stored in the
request when the parser returns. -/
structure HeaderLocals where
  state : HeaderState
  hash : UInt64
  index : ℕ
  deriving DecidableEq

/-- What a call depends on besides the bytes: `allow_underscores`, and whether
`r->upstream` is set. -/
structure HeaderConf where
  allowUnderscores : Bool
  upstream : Bool

/-- The results of the parser of headers. -/
inductive HeaderCode where
  | ok
  | headerDone
  | invalidHeader
  deriving DecidableEq

/-- A result of the parser with the fields it leaves. -/
structure HeaderResult where
  code : HeaderCode
  header : HeaderLine
  locals : HeaderLocals
  deriving DecidableEq

def ngxHash (key : UInt64) (c : UInt8) : UInt64 :=
  key * 31 + c.toUInt64

/-- The table `lowcase`: letters, digits and the hyphen, in lower case; zero for
every other byte. -/
def lowcase (ch : UInt8) : UInt8 :=
  if byte 'A' ≤ ch ∧ ch ≤ byte 'Z' then ch ||| 0x20
  else if byte 'a' ≤ ch ∧ ch ≤ byte 'z' then ch
  else if isDigit ch then ch
  else if ch = byte '-' then ch
  else 0

/-- What the parser does with a byte. -/
abbrev HeaderVerdict := Verdict (HeaderLocals × HeaderLine) HeaderResult

def headerGoOn (s : HeaderState) (l : HeaderLocals) (h : HeaderLine) :
    HeaderVerdict :=
  .more ({ l with state := s }, h)

def headerReturn (code : HeaderCode) (l : HeaderLocals) (h : HeaderLine) :
    HeaderVerdict :=
  .stop { code := code, header := h, locals := l }

/-- The first byte of a name; `c` is what is hashed, zero for an invalid
byte. -/
def firstNameByte (c : UInt8) (l : HeaderLocals) (h : HeaderLine) :
    HeaderVerdict :=
  if c = 0 then
    headerGoOn .name { l with hash := 0, index := 0 }
      { h with invalidHeader := true }
  else
    headerGoOn .name { l with hash := ngxHash 0 c, index := 1 }
      { h with lowcaseHeader := h.lowcaseHeader.set 0 c }

def nextNameByte (c : UInt8) (l : HeaderLocals) (h : HeaderLine) :
    HeaderVerdict :=
  headerGoOn .name
    { l with
      hash := ngxHash l.hash c
      index := (l.index + 1) % ngxHttpLcHeaderLen }
    { h with lowcaseHeader := h.lowcaseHeader.set l.index c }

def stepHeaderStart (conf : HeaderConf) (p : ℕ) (ch : UInt8)
    (l : HeaderLocals) (h : HeaderLine) : HeaderVerdict :=
  let h := { h with headerNameStart := some p, invalidHeader := false }
  if ch = cr then headerGoOn .headerAlmostDone l { h with headerEnd := some p }
  else if ch = lf then
    headerReturn .headerDone l { h with headerEnd := some p }
  else if lowcase ch ≠ 0 then firstNameByte (lowcase ch) l h
  else if ch = byte '_' then
    firstNameByte (if conf.allowUnderscores then ch else 0) l h
  else if ch ≤ 0x20 ∨ ch = 0x7f ∨ ch = byte ':' then
    headerReturn .invalidHeader l { h with headerEnd := some p }
  else firstNameByte 0 l h

/-- A header without a value ends at `p`. -/
def noValue (p : ℕ) (h : HeaderLine) : HeaderLine :=
  { h with headerStart := some p, headerEnd := some p }

def stepHeaderName (conf : HeaderConf) (seen : List UInt8) (ch : UInt8)
    (l : HeaderLocals) (h : HeaderLine) : HeaderVerdict :=
  let p := seen.length
  if lowcase ch ≠ 0 then nextNameByte (lowcase ch) l h
  else if ch = byte '_' then
    if conf.allowUnderscores then nextNameByte ch l h
    else headerGoOn .name l { h with invalidHeader := true }
  else if ch = byte ':' then
    headerGoOn .spaceBeforeValue l { h with headerNameEnd := some p }
  else if ch = cr then
    headerGoOn .almostDone l (noValue p { h with headerNameEnd := some p })
  else if ch = lf then
    headerReturn .ok l (noValue p { h with headerNameEnd := some p })
  else if ch = byte '/' ∧ conf.upstream = true ∧
      seen.drop (h.headerNameStart.getD 0) = bytes "HTTP" then
    headerGoOn .ignoreLine l h
  else if ch ≤ 0x20 ∨ ch = 0x7f then
    headerReturn .invalidHeader l { h with headerEnd := some p }
  else headerGoOn .name l { h with invalidHeader := true }

/-- One iteration of the loop of `ngx_http_parse_header_line`. -/
def stepHeader (conf : HeaderConf) (seen : List UInt8) (ch : UInt8) :
    HeaderLocals × HeaderLine → HeaderVerdict := fun (l, h) =>
  let p := seen.length
  let nul := headerReturn .invalidHeader l { h with headerEnd := some p }
  match l.state with
  | .start => stepHeaderStart conf p ch l h
  | .name => stepHeaderName conf seen ch l h
  | .spaceBeforeValue =>
      if ch = byte ' ' then headerGoOn .spaceBeforeValue l h
      else if ch = cr then headerGoOn .almostDone l (noValue p h)
      else if ch = lf then headerReturn .ok l (noValue p h)
      else if ch = 0 then nul
      else headerGoOn .value l { h with headerStart := some p }
  | .value =>
      if ch = byte ' ' then
        headerGoOn .spaceAfterValue l { h with headerEnd := some p }
      else if ch = cr then
        headerGoOn .almostDone l { h with headerEnd := some p }
      else if ch = lf then headerReturn .ok l { h with headerEnd := some p }
      else if ch = 0 then nul
      else headerGoOn .value l h
  | .spaceAfterValue =>
      if ch = byte ' ' then headerGoOn .spaceAfterValue l h
      else if ch = cr then headerGoOn .almostDone l h
      else if ch = lf then headerReturn .ok l h
      else if ch = 0 then nul
      else headerGoOn .value l h
  | .ignoreLine =>
      if ch = lf then headerGoOn .start l h else headerGoOn .ignoreLine l h
  | .almostDone =>
      if ch = lf then headerReturn .ok l h
      else if ch = cr then headerGoOn .almostDone l h
      else headerReturn .invalidHeader l h
  | .headerAlmostDone =>
      if ch = lf then headerReturn .headerDone l h
      else headerReturn .invalidHeader l h

end MultiversionBalancer.Http
