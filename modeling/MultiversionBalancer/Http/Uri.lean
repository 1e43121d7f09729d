import MultiversionBalancer.Http.RequestLine

/-!
# URIs

`ngx_http_parse_uri` and `ngx_http_parse_complex_uri` of `ngx_http_parse.c`,
and `ngx_http_process_request_uri` of `ngx_http_request.c`, in the build for
systems other than Windows.
-/

namespace MultiversionBalancer.Http

open Lib

/-! ## The parser of a path -/

inductive UriScan where
  | start
  | afterSlashInUri
  | checkUri
  | uri
  deriving DecidableEq

/-- The fields of `ngx_http_request_t` that `ngx_http_parse_uri` writes. -/
structure UriFields where
  argsStart : Option ℕ
  uriExt : Option ℕ
  complexUri : Bool
  quotedUri : Bool
  plusInUri : Bool
  deriving DecidableEq

def UriFields.new : UriFields where
  argsStart := none
  uriExt := none
  complexUri := false
  quotedUri := false
  plusInUri := false

/-- One iteration of the loop of `ngx_http_parse_uri` at position `p`; `none`
is `NGX_ERROR`. -/
def stepParseUri (p : ℕ) (ch : UInt8) :
    UriScan × UriFields → Option (UriScan × UriFields)
  | (.start, f) =>
      if ch = byte '/' then some (.afterSlashInUri, f) else none
  | (.afterSlashInUri, f) =>
      if usual ch then some (.checkUri, f)
      else if ch = byte '.' then some (.uri, { f with complexUri := true })
      else if ch = byte '%' then some (.uri, { f with quotedUri := true })
      else if ch = byte '/' then some (.uri, { f with complexUri := true })
      else if ch = byte '?' then
        some (.uri, { f with argsStart := some (p + 1) })
      else if ch = byte '#' then some (.uri, { f with complexUri := true })
      else if ch = byte '+' then
        some (.afterSlashInUri, { f with plusInUri := true })
      else if ch ≤ 0x20 || ch = 0x7f then none
      else some (.checkUri, f)
  | (.checkUri, f) =>
      if usual ch then some (.checkUri, f)
      else if ch = byte '/' then
        some (.afterSlashInUri, { f with uriExt := none })
      else if ch = byte '.' then
        some (.checkUri, { f with uriExt := some (p + 1) })
      else if ch = byte '%' then some (.uri, { f with quotedUri := true })
      else if ch = byte '?' then
        some (.uri, { f with argsStart := some (p + 1) })
      else if ch = byte '#' then some (.uri, { f with complexUri := true })
      else if ch = byte '+' then some (.checkUri, { f with plusInUri := true })
      else if ch ≤ 0x20 || ch = 0x7f then none
      else some (.checkUri, f)
  | (.uri, f) =>
      if usual ch then some (.uri, f)
      else if ch = byte '#' then some (.uri, { f with complexUri := true })
      else if ch ≤ 0x20 || ch = 0x7f then none
      else some (.uri, f)

/-- The loop of `ngx_http_parse_uri` from position `p` on. -/
def scanParseUri : ℕ → UriScan × UriFields → List UInt8 →
    Option (UriScan × UriFields)
  | _, s, [] => some s
  | p, s, ch :: rest =>
      (stepParseUri p ch s).bind fun s => scanParseUri (p + 1) s rest

/-- `ngx_http_parse_uri`; `start` is the position of the URI. -/
def ngxHttpParseUri (start : ℕ) (raw : List UInt8) : Option UriFields :=
  (scanParseUri start (.start, .new) raw).map (·.2)

/-! ## The parser of a complex path -/

/-- What stops `ngx_http_parse_complex_uri`: an invalid URI, or an access
outside the buffer of the path. -/
inductive UriFault where
  | invalidRequest
  | bufferOverrun
  | bufferUnderrun
  deriving DecidableEq

inductive ComplexState where
  | usual
  | slash
  | dot
  | dotDot
  | quoted
  | quotedSecond
  deriving DecidableEq

/-- The local variables of `ngx_http_parse_complex_uri`, without the position
in the URI.  `out` are the bytes of the path up to `u`; `uriExt` is an index
into them. -/
structure ComplexUri where
  state : ComplexState
  quotedState : ComplexState
  decoded : UInt8
  out : List UInt8
  uriExt : Option ℕ
  plusInUri : Bool
  quotedUri : Bool
  deriving DecidableEq

/-- `*u++ = ch` into a buffer of `cap` bytes. -/
def ComplexUri.put (cap : ℕ) (ch : UInt8) (l : ComplexUri) :
    Except UriFault ComplexUri :=
  if l.out.length < cap then .ok { l with out := l.out ++ [ch] }
  else .error .bufferOverrun

def ComplexUri.back (l : ComplexUri) : Except UriFault ComplexUri :=
  if l.out = [] then .error .bufferUnderrun
  else .ok { l with out := l.out.dropLast }

/-- The loop behind `u -= 4`: `n` bytes lie before the one that is looked at,
and that one.  A position before the buffer is an invalid URI. -/
def seekSlash (out : List UInt8) : ℕ → Except UriFault (List UInt8)
  | 0 => .error .invalidRequest
  | n + 1 =>
      match out[n]? with
      | none => .error .bufferUnderrun
      | some c =>
          if c = byte '/' then .ok (out.take (n + 1)) else seekSlash out n

def ComplexUri.backSegment (l : ComplexUri) : Except UriFault ComplexUri := do
  let out ← seekSlash l.out (l.out.length - 3)
  pure { l with out := out }

/-- What a byte leads to: the next byte, the label `args`, or the label
`done`. -/
inductive ComplexStep where
  | next (l : ComplexUri)
  | args (l : ComplexUri)
  | done (l : ComplexUri)

/-- Write the byte and go on in `sw_usual`. -/
def putUsual (cap : ℕ) (ch : UInt8) (l : ComplexUri) :
    Except UriFault ComplexStep := do
  let l ← { l with state := .usual }.put cap ch
  pure (.next l)

/-- `case '+'`, falling through to the default. -/
def putPlus (cap : ℕ) (ch : UInt8) (l : ComplexUri) :
    Except UriFault ComplexStep :=
  putUsual cap ch { l with plusInUri := l.plusInUri || ch = byte '+' }

/-- `case '%'`. -/
def startQuoted (l : ComplexUri) : Except UriFault ComplexStep :=
  .ok (.next { l with quotedState := l.state, state := .quoted })

/-- The cases of the four states that take a byte of the path. -/
def stepPath (merge : Bool) (cap : ℕ) (ch : UInt8) (l : ComplexUri) :
    Except UriFault ComplexStep :=
  match l.state with
  | .usual =>
      if usual ch then putUsual cap ch l
      else if ch = byte '/' then do
        let l ← { l with uriExt := none, state := .slash }.put cap ch
        pure (.next l)
      else if ch = byte '%' then startQuoted l
      else if ch = byte '?' then .ok (.args l)
      else if ch = byte '#' then .ok (.done l)
      else if ch = byte '.' then
        putUsual cap ch { l with uriExt := some (l.out.length + 1) }
      else putPlus cap ch l
  | .slash =>
      if usual ch then putUsual cap ch l
      else if ch = byte '/' then
        if merge then .ok (.next l)
        else do
          let l ← l.put cap ch
          pure (.next l)
      else if ch = byte '.' then do
        let l ← { l with state := .dot }.put cap ch
        pure (.next l)
      else if ch = byte '%' then startQuoted l
      else if ch = byte '?' then .ok (.args l)
      else if ch = byte '#' then .ok (.done l)
      else putPlus cap ch l
  | .dot =>
      if usual ch then putUsual cap ch l
      else if ch = byte '/' then do
        let l ← { l with state := .slash }.back
        pure (.next l)
      else if ch = byte '.' then do
        let l ← { l with state := .dotDot }.put cap ch
        pure (.next l)
      else if ch = byte '%' then startQuoted l
      else if ch = byte '?' then do
        let l ← l.back
        pure (.args l)
      else if ch = byte '#' then do
        let l ← l.back
        pure (.done l)
      else putPlus cap ch l
  | .dotDot =>
      if usual ch then putUsual cap ch l
      else if ch = byte '/' then do
        let l ← l.backSegment
        pure (.next { l with state := .slash })
      else if ch = byte '?' then do
        let l ← l.backSegment
        pure (.args l)
      else if ch = byte '#' then do
        let l ← l.backSegment
        pure (.done l)
      else if ch = byte '%' then startQuoted l
      else putPlus cap ch l
  | .quoted => .error .invalidRequest
  | .quotedSecond => .error .invalidRequest

/-- The bytes of a path with no meaning of their own in it. -/
structure Plain (ch : UInt8) : Prop where
  slash : ch ≠ byte '/'
  dot : ch ≠ byte '.'
  percent : ch ≠ byte '%'
  question : ch ≠ byte '?'
  hash : ch ≠ byte '#'

/-- The states that take a byte of the path. -/
def ComplexState.inPath : ComplexState → Bool
  | .usual => true
  | .slash => true
  | .dot => true
  | .dotDot => true
  | _ => false

theorem putPlus_of_usual {cap : ℕ} {ch : UInt8} (l : ComplexUri)
    (h : usual ch = true) : putPlus cap ch l = putUsual cap ch l := by
  have hplus : ch ≠ byte '+' := by
    rintro rfl
    revert h
    decide
  rw [putPlus, decide_eq_false hplus, Bool.or_false]

/-- A plain byte is written, and the path goes on in `sw_usual`. -/
theorem stepPath_plain {merge : Bool} {cap : ℕ} {ch : UInt8} {l : ComplexUri}
    (hch : Plain ch) (hstate : l.state.inPath = true) :
    stepPath merge cap ch l = putPlus cap ch l := by
  by_cases husual : usual ch = true
  · rw [putPlus_of_usual l husual, stepPath]
    cases hs : l.state with
    | quoted => rw [hs] at hstate; cases hstate
    | quotedSecond => rw [hs] at hstate; cases hstate
    | _ => simp only [if_pos husual]
  · rw [stepPath]
    cases hs : l.state with
    | quoted => rw [hs] at hstate; cases hstate
    | quotedSecond => rw [hs] at hstate; cases hstate
    | _ =>
        simp only [if_neg husual, if_neg hch.slash, if_neg hch.dot,
          if_neg hch.percent, if_neg hch.question, if_neg hch.hash]

theorem stepPath_usual_slash {merge : Bool} {cap : ℕ} {l : ComplexUri}
    (hs : l.state = .usual) (h : l.out.length < cap) :
    stepPath merge cap (byte '/') l =
      .ok (.next
        { l with
          uriExt := none
          state := .slash
          out := l.out ++ [byte '/'] }) := by
  rw [stepPath, hs]
  change (ComplexUri.put cap (byte '/')
    { l with uriExt := none, state := .slash } >>=
      fun l => pure (ComplexStep.next l)) = _
  rw [ComplexUri.put, if_pos h]
  rfl

theorem stepPath_usual_dot {merge : Bool} {cap : ℕ} {l : ComplexUri}
    (hs : l.state = .usual) (h : l.out.length < cap) :
    stepPath merge cap (byte '.') l =
      .ok (.next
        { l with
          uriExt := some (l.out.length + 1)
          state := .usual
          out := l.out ++ [byte '.'] }) := by
  rw [stepPath, hs]
  change (ComplexUri.put cap (byte '.')
    { l with uriExt := some (l.out.length + 1), state := .usual } >>=
      fun l => pure (ComplexStep.next l)) = _
  rw [ComplexUri.put, if_pos h]
  rfl

/-- `sw_quoted_second`: the decoded byte is taken in the state before the
percent sign, unless it is a delimiter, which is written as it is. -/
def stepQuotedSecond (merge : Bool) (cap : ℕ) (ch : UInt8) (l : ComplexUri) :
    Except UriFault ComplexStep :=
  match hexDigit ch with
  | none => .error .invalidRequest
  | some low =>
      let c := (l.decoded <<< 4) + low
      if isDigit ch then
        if c = byte '%' ∨ c = byte '#' then putUsual cap c l
        else if c = 0 then .error .invalidRequest
        else stepPath merge cap c { l with state := l.quotedState }
      else if c = byte '?' then putUsual cap c l
      else
        stepPath merge cap c
          { l with
            plusInUri := l.plusInUri || c = byte '+'
            state := l.quotedState }

def stepComplex (merge : Bool) (cap : ℕ) (ch : UInt8) (l : ComplexUri) :
    Except UriFault ComplexStep :=
  match l.state with
  | .quoted =>
      match hexDigit ch with
      | none => .error .invalidRequest
      | some high =>
          .ok (.next
            { l with quotedUri := true, decoded := high, state := .quotedSecond })
  | .quotedSecond => stepQuotedSecond merge cap ch l
  | _ => stepPath merge cap ch l

theorem stepComplex_inPath {merge : Bool} {cap : ℕ} {ch : UInt8}
    {l : ComplexUri} (hstate : l.state.inPath = true) :
    stepComplex merge cap ch l = stepPath merge cap ch l := by
  rw [stepComplex]
  cases hs : l.state with
  | quoted => rw [hs] at hstate; cases hstate
  | quotedSecond => rw [hs] at hstate; cases hstate
  | _ => rfl

/-- The end of the URI inside the path. -/
def endComplex (l : ComplexUri) : Except UriFault ComplexUri :=
  match l.state with
  | .quoted => .error .invalidRequest
  | .quotedSecond => .error .invalidRequest
  | .dot => l.back
  | .dotDot => l.backSegment
  | _ => .ok l

/-- The bytes that follow the path: none, or those behind its `?`. -/
abbrev AfterPath := Option (List UInt8)

/-- The loop of `ngx_http_parse_complex_uri`. -/
def scanComplex (merge : Bool) (cap : ℕ) :
    List UInt8 → ComplexUri → Except UriFault (ComplexUri × AfterPath)
  | [], l => do
      let l ← endComplex l
      pure (l, none)
  | ch :: rest, l => do
      match ← stepComplex merge cap ch l with
      | .next l => scanComplex merge cap rest l
      | .args l => pure (l, some rest)
      | .done l => pure (l, none)

/-! ## Processing a request URI -/

/-- The URI of a request with the fields that were found about it: its bytes,
and positions relative to its start. -/
structure UriRequest where
  raw : List UInt8
  argsStart : Option ℕ
  uriExt : Option ℕ
  complexUri : Bool
  quotedUri : Bool
  emptyPathInUri : Bool
  plusInUri : Bool
  deriving DecidableEq

/-- `r->uri`, `r->args` and `r->exten`. -/
structure ProcessedUri where
  uri : List UInt8
  args : List UInt8
  exten : List UInt8
  deriving DecidableEq

def UriRequest.pathLen (u : UriRequest) : ℕ :=
  match u.argsStart with
  | some a => a - 1
  | none => u.raw.length

/-- The size of the buffer for a complex path. -/
def UriRequest.capacity (u : UriRequest) : ℕ :=
  if u.emptyPathInUri then u.pathLen + 1 else u.pathLen

/-- The local variables of `ngx_http_parse_complex_uri` at its start. -/
def UriRequest.locals (u : UriRequest) : ComplexUri where
  state := .usual
  quotedState := .usual
  decoded := 0
  out := []
  uriExt := none
  plusInUri := u.plusInUri
  quotedUri := u.quotedUri

/-- What `ngx_http_process_request_uri` makes of the result of
`ngx_http_parse_complex_uri`: the arguments end at a `#`. -/
def ComplexUri.processed (l : ComplexUri) (after : AfterPath) :
    ProcessedUri where
  uri := l.out
  args := (after.getD []).takeWhile (· != byte '#')
  exten := (l.uriExt.map l.out.drop).getD []

/-- `ngx_http_parse_complex_uri` with a buffer of `cap` bytes. -/
def UriRequest.complex (merge : Bool) (cap : ℕ) (u : UriRequest) :
    Except UriFault ProcessedUri := do
  let l ← if u.emptyPathInUri then u.locals.put cap (byte '/') else .ok u.locals
  let (l, after) ← scanComplex merge cap u.raw l
  pure (l.processed after)

/-- The complex parser behind the slash that begins a path. -/
theorem complex_of_slash {merge : Bool} {cap : ℕ} {u : UriRequest}
    {rest : List UInt8} (hpath : u.emptyPathInUri = false)
    (hraw : u.raw = byte '/' :: rest) (hcap : 0 < cap) :
    u.complex merge cap =
      (scanComplex merge cap rest
        { u.locals with state := .slash, out := [byte '/'] }).map
        fun x => x.1.processed x.2 := by
  have hfirst : stepComplex merge cap (byte '/') u.locals =
      .ok (.next { u.locals with state := .slash, out := [byte '/'] }) := by
    rw [stepComplex_inPath rfl, stepPath_usual_slash rfl hcap]
    rfl
  rw [UriRequest.complex, hpath, hraw]
  change ((stepComplex merge cap (byte '/') u.locals >>= _) >>= _) = _
  rw [hfirst]
  rfl

/-- The complex parser on a query without a path. -/
theorem complex_of_question {merge : Bool} {cap : ℕ} {u : UriRequest}
    {rest : List UInt8} (hpath : u.emptyPathInUri = true)
    (hraw : u.raw = byte '?' :: rest) (hcap : 0 < cap) :
    u.complex merge cap =
      .ok (ComplexUri.processed { u.locals with out := [byte '/'] }
        (some rest)) := by
  have hput : u.locals.put cap (byte '/') =
      .ok { u.locals with out := [byte '/'] } :=
    if_pos hcap
  rw [UriRequest.complex, hpath, hraw, if_pos rfl, hput]
  rfl

/-- What `ngx_http_process_request_uri` makes of a URI whose bytes are used as
they are. -/
def UriRequest.shortcut (u : UriRequest) : ProcessedUri where
  uri := u.raw.take u.pathLen
  args := (u.argsStart.map u.raw.drop).getD []
  exten := (u.uriExt.map (u.raw.take u.pathLen).drop).getD []

def ngxHttpProcessRequestUri (merge : Bool) (u : UriRequest) :
    Except UriFault ProcessedUri :=
  if u.complexUri || u.quotedUri || u.emptyPathInUri then
    u.complex merge u.capacity
  else .ok u.shortcut

def RequestLine.uriRequest (r : RequestLine) (input : List UInt8) :
    Option UriRequest :=
  match r.uriStart, r.uriEnd with
  | some s, some e =>
      some
        { raw := (input.take e).drop s
          argsStart := r.argsStart.map (· - s)
          uriExt := r.uriExt.map (· - s)
          complexUri := r.complexUri
          quotedUri := r.quotedUri
          emptyPathInUri := r.emptyPathInUri
          plusInUri := r.plusInUri }
  | _, _ => none

end MultiversionBalancer.Http
