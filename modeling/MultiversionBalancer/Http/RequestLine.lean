import MultiversionBalancer.Http.Bytes
import MultiversionBalancer.Lib.Scan

/-!
# The request line

`ngx_http_parse_request_line` of `ngx_http_parse.c`, in the build for systems
other than Windows.  A pointer into the received bytes is its position, and
`NULL` is `none`.
-/

namespace MultiversionBalancer.Http

open Lib

/-! ## The machine -/

/-- The result codes of the parsers, without `NGX_AGAIN`. -/
inductive ParseCode where
  | ok
  | headerDone
  | invalidMethod
  | invalidRequest
  | invalidVersion
  | invalid09Method
  | invalidHeader
  deriving DecidableEq

/-- Results after which `b->pos` stands behind the bytes that were read; a
parser that rejects a byte leaves `b->pos` where the call began. -/
def ParseCode.consumes : ParseCode → Bool
  | .ok => true
  | .headerDone => true
  | .invalid09Method => true
  | _ => false

inductive Method where
  | unknown
  | get
  | head
  | post
  | put
  | delete
  | mkcol
  | copy
  | move
  | options
  | propfind
  | proppatch
  | lock
  | unlock
  | patch
  | trace
  | connect
  deriving DecidableEq

inductive LineState where
  | start
  | method
  | spacesBeforeUri
  | schema
  | schemaSlash
  | schemaSlashSlash
  | hostStart
  | host
  | hostEnd
  | hostIpLiteral
  | port
  | afterSlashInUri
  | checkUri
  | uri
  | http09
  | httpH
  | httpHT
  | httpHTT
  | httpHTTP
  | firstMajorDigit
  | majorDigit
  | firstMinorDigit
  | minorDigit
  | spacesAfterDigit
  | almostDone
  deriving DecidableEq

/-- The fields of `ngx_http_request_t` that the parser of the request line
writes, apart from the saved state. -/
structure RequestLine where
  requestStart : Option ℕ
  methodEnd : Option ℕ
  method : Method
  schemaStart : Option ℕ
  schemaEnd : Option ℕ
  hostStart : Option ℕ
  hostEnd : Option ℕ
  portEnd : Option ℕ
  uriStart : Option ℕ
  uriEnd : Option ℕ
  uriExt : Option ℕ
  argsStart : Option ℕ
  emptyPathInUri : Bool
  complexUri : Bool
  quotedUri : Bool
  plusInUri : Bool
  httpProtocol : Option ℕ
  httpMajor : ℕ
  httpMinor : ℕ
  httpVersion : ℕ
  requestEnd : Option ℕ
  deriving DecidableEq

def RequestLine.new : RequestLine where
  requestStart := none
  methodEnd := none
  method := .unknown
  schemaStart := none
  schemaEnd := none
  hostStart := none
  hostEnd := none
  portEnd := none
  uriStart := none
  uriEnd := none
  uriExt := none
  argsStart := none
  emptyPathInUri := false
  complexUri := false
  quotedUri := false
  plusInUri := false
  httpProtocol := none
  httpMajor := 0
  httpMinor := 0
  httpVersion := 0
  requestEnd := none

/-- A result of the parser with the fields it leaves. -/
structure LineResult where
  code : ParseCode
  line : RequestLine
  deriving DecidableEq

/-- The methods that are known by name. -/
def methodNames : List (List UInt8 × Method) :=
  [(bytes "GET", .get), (bytes "PUT", .put), (bytes "POST", .post),
    (bytes "COPY", .copy), (bytes "MOVE", .move), (bytes "LOCK", .lock),
    (bytes "HEAD", .head), (bytes "MKCOL", .mkcol), (bytes "PATCH", .patch),
    (bytes "TRACE", .trace), (bytes "DELETE", .delete),
    (bytes "UNLOCK", .unlock), (bytes "OPTIONS", .options),
    (bytes "CONNECT", .connect), (bytes "PROPFIND", .propfind),
    (bytes "PROPPATCH", .proppatch)]

/-- The method of a name; an unknown name leaves `r->method` alone. -/
def findMethod (name : List UInt8) (old : Method) : Method :=
  ((methodNames.find? (·.1 == name)).map (·.2)).getD old

/-- What the parser does with a byte. -/
abbrev LineVerdict := Verdict (LineState × RequestLine) LineResult

def goOn (s : LineState) (r : RequestLine) : LineVerdict :=
  .more (s, r)

def reject (code : ParseCode) (r : RequestLine) : LineVerdict :=
  .stop { code := code, line := r }

/-- The code behind the label `done`; `p` is the position of the line feed. -/
def finish (p : ℕ) (r : RequestLine) : LineVerdict :=
  let r := { r with
    requestEnd := some (r.requestEnd.getD p)
    httpVersion := r.httpMajor * 1000 + r.httpMinor }
  .stop
    { code :=
        if r.httpVersion = 9 ∧ r.method ≠ .get then .invalid09Method else .ok
      line := r }

/-- The end of a URI without a version. -/
def endUri09 (p : ℕ) (r : RequestLine) : RequestLine :=
  { r with uriEnd := some p, httpMinor := 9 }

def slashUri (r : RequestLine) : RequestLine :=
  { r with
    uriStart := r.schemaEnd.map (· + 1)
    uriEnd := r.schemaEnd.map (· + 2) }

/-- A `?` where the path would begin. -/
def emptyPath (p : ℕ) (r : RequestLine) : RequestLine :=
  { r with
    uriStart := some p
    argsStart := some (p + 1)
    emptyPathInUri := true }

def stepHostEnd (p : ℕ) (ch : UInt8) (r : RequestLine) : LineVerdict :=
  let r := { r with hostEnd := some p }
  if ch = byte ':' then goOn .port r
  else if ch = byte '/' then goOn .afterSlashInUri { r with uriStart := some p }
  else if ch = byte '?' then goOn .uri (emptyPath p r)
  else if ch = byte ' ' then goOn .http09 (slashUri r)
  else reject .invalidRequest r

def stepHost (p : ℕ) (ch : UInt8) (r : RequestLine) : LineVerdict :=
  if isAlpha ch then goOn .host r
  else if isDigit ch || ch = byte '.' || ch = byte '-' then goOn .host r
  else stepHostEnd p ch r

/-- The bytes of an address literal besides letters, digits and `]`. -/
def ipLiteralBytes : List UInt8 :=
  bytes ":-._~!$&'()*+,;="

def stepPort (p : ℕ) (ch : UInt8) (r : RequestLine) : LineVerdict :=
  if isDigit ch then goOn .port r
  else if ch = byte '/' then
    goOn .afterSlashInUri { r with portEnd := some p, uriStart := some p }
  else if ch = byte '?' then
    goOn .uri (emptyPath p { r with portEnd := some p })
  else if ch = byte ' ' then
    goOn .http09 (slashUri { r with portEnd := some p })
  else reject .invalidRequest r

def stepAfterSlash (p : ℕ) (ch : UInt8) (r : RequestLine) : LineVerdict :=
  if usual ch then goOn .checkUri r
  else if ch = byte ' ' then goOn .http09 { r with uriEnd := some p }
  else if ch = cr then goOn .almostDone (endUri09 p r)
  else if ch = lf then finish p (endUri09 p r)
  else if ch = byte '.' then goOn .uri { r with complexUri := true }
  else if ch = byte '%' then goOn .uri { r with quotedUri := true }
  else if ch = byte '/' then goOn .uri { r with complexUri := true }
  else if ch = byte '?' then goOn .uri { r with argsStart := some (p + 1) }
  else if ch = byte '#' then goOn .uri { r with complexUri := true }
  else if ch = byte '+' then
    goOn .afterSlashInUri { r with plusInUri := true }
  else if ch < 0x20 || ch = 0x7f then reject .invalidRequest r
  else goOn .checkUri r

def stepCheckUri (p : ℕ) (ch : UInt8) (r : RequestLine) : LineVerdict :=
  if usual ch then goOn .checkUri r
  else if ch = byte '/' then goOn .afterSlashInUri { r with uriExt := none }
  else if ch = byte '.' then goOn .checkUri { r with uriExt := some (p + 1) }
  else if ch = byte ' ' then goOn .http09 { r with uriEnd := some p }
  else if ch = cr then goOn .almostDone (endUri09 p r)
  else if ch = lf then finish p (endUri09 p r)
  else if ch = byte '%' then goOn .uri { r with quotedUri := true }
  else if ch = byte '?' then goOn .uri { r with argsStart := some (p + 1) }
  else if ch = byte '#' then goOn .uri { r with complexUri := true }
  else if ch = byte '+' then goOn .checkUri { r with plusInUri := true }
  else if ch < 0x20 || ch = 0x7f then reject .invalidRequest r
  else goOn .checkUri r

def stepUri (p : ℕ) (ch : UInt8) (r : RequestLine) : LineVerdict :=
  if usual ch then goOn .uri r
  else if ch = byte ' ' then goOn .http09 { r with uriEnd := some p }
  else if ch = cr then goOn .almostDone (endUri09 p r)
  else if ch = lf then finish p (endUri09 p r)
  else if ch = byte '#' then goOn .uri { r with complexUri := true }
  else if ch < 0x20 || ch = 0x7f then reject .invalidRequest r
  else goOn .uri r

def stepHttp09 (p : ℕ) (ch : UInt8) (r : RequestLine) : LineVerdict :=
  if ch = byte ' ' then goOn .http09 r
  else if ch = cr then goOn .almostDone { r with httpMinor := 9 }
  else if ch = lf then finish p { r with httpMinor := 9 }
  else if ch = byte 'H' then goOn .httpH { r with httpProtocol := some p }
  else reject .invalidRequest r

/-- A state that expects one byte. -/
def expect (c : Char) (next : LineState) (ch : UInt8) (r : RequestLine) :
    LineVerdict :=
  if ch = byte c then goOn next r else reject .invalidRequest r

def majorDigit (ch : UInt8) (major : ℕ) (r : RequestLine) : LineVerdict :=
  let r := { r with httpMajor := major * 10 + (ch - byte '0').toNat }
  if 1 < r.httpMajor then reject .invalidVersion r else goOn .majorDigit r

def stepMinorDigit (p : ℕ) (ch : UInt8) (r : RequestLine) : LineVerdict :=
  if ch = cr then goOn .almostDone r
  else if ch = lf then finish p r
  else if ch = byte ' ' then goOn .spacesAfterDigit r
  else if !isDigit ch || 99 < r.httpMinor then reject .invalidRequest r
  else
    goOn .minorDigit
      { r with httpMinor := r.httpMinor * 10 + (ch - byte '0').toNat }

/-- One iteration of the loop of `ngx_http_parse_request_line`; `seen` are the
bytes before the one that is read. -/
def stepLine (seen : List UInt8) (ch : UInt8) :
    LineState × RequestLine → LineVerdict
  | (.start, r) =>
      let r := { r with requestStart := some seen.length }
      if ch = cr ∨ ch = lf then goOn .start r
      else if isMethodChar ch then goOn .method r
      else reject .invalidMethod r
  | (.method, r) =>
      if ch = byte ' ' then
        goOn .spacesBeforeUri
          { r with
            methodEnd := some (seen.length - 1)
            method := findMethod (seen.drop (r.requestStart.getD 0)) r.method }
      else if isMethodChar ch then goOn .method r
      else reject .invalidMethod r
  | (.spacesBeforeUri, r) =>
      if ch = byte '/' then
        goOn .afterSlashInUri { r with uriStart := some seen.length }
      else if isAlpha ch then
        goOn .schema { r with schemaStart := some seen.length }
      else expect ' ' .spacesBeforeUri ch r
  | (.schema, r) =>
      if isAlpha ch then goOn .schema r
      else if isDigit ch || ch = byte '+' || ch = byte '-' || ch = byte '.' then
        goOn .schema r
      else if ch = byte ':' then
        goOn .schemaSlash { r with schemaEnd := some seen.length }
      else reject .invalidRequest r
  | (.schemaSlash, r) => expect '/' .schemaSlashSlash ch r
  | (.schemaSlashSlash, r) => expect '/' .hostStart ch r
  | (.hostStart, r) =>
      let r := { r with hostStart := some seen.length }
      if ch = byte '[' then goOn .hostIpLiteral r
      else stepHost seen.length ch r
  | (.host, r) => stepHost seen.length ch r
  | (.hostEnd, r) => stepHostEnd seen.length ch r
  | (.hostIpLiteral, r) =>
      if isDigit ch || isAlpha ch then goOn .hostIpLiteral r
      else if ch = byte ']' then goOn .hostEnd r
      else if ch ∈ ipLiteralBytes then goOn .hostIpLiteral r
      else reject .invalidRequest r
  | (.port, r) => stepPort seen.length ch r
  | (.afterSlashInUri, r) => stepAfterSlash seen.length ch r
  | (.checkUri, r) => stepCheckUri seen.length ch r
  | (.uri, r) => stepUri seen.length ch r
  | (.http09, r) => stepHttp09 seen.length ch r
  | (.httpH, r) => expect 'T' .httpHT ch r
  | (.httpHT, r) => expect 'T' .httpHTT ch r
  | (.httpHTT, r) => expect 'P' .httpHTTP ch r
  | (.httpHTTP, r) => expect '/' .firstMajorDigit ch r
  | (.firstMajorDigit, r) =>
      if ch < byte '1' || byte '9' < ch then reject .invalidRequest r
      else majorDigit ch 0 r
  | (.majorDigit, r) =>
      if ch = byte '.' then goOn .firstMinorDigit r
      else if isDigit ch then majorDigit ch r.httpMajor r
      else reject .invalidRequest r
  | (.firstMinorDigit, r) =>
      if isDigit ch then
        goOn .minorDigit { r with httpMinor := (ch - byte '0').toNat }
      else reject .invalidRequest r
  | (.minorDigit, r) => stepMinorDigit seen.length ch r
  | (.spacesAfterDigit, r) =>
      if ch = byte ' ' then goOn .spacesAfterDigit r
      else if ch = cr then goOn .almostDone r
      else if ch = lf then finish seen.length r
      else reject .invalidRequest r
  | (.almostDone, r) =>
      let r := { r with requestEnd := some (seen.length - 1) }
      if ch = lf then finish seen.length r else reject .invalidRequest r

/-- The loop of `ngx_http_parse_request_line` over the bytes that are there. -/
def scanLine (seen : List UInt8) (s : LineState × RequestLine)
    (input : List UInt8) : Scanned UInt8 (LineState × RequestLine) LineResult :=
  scan stepLine seen s input

/-- `ngx_http_parse_request_line` on a line that has arrived as a whole;
`none` is `NGX_AGAIN`. -/
def ngxHttpParseRequestLine (input : List UInt8) : Option LineResult :=
  match scanLine [] (.start, .new) input with
  | .again _ => none
  | .stopped _ result _ => some result

end MultiversionBalancer.Http
