import MultiversionBalancer.Http.Bytes

/-!
# Configuration tokens

`ngx_conf_read_token` reads a configuration file through a buffer of
`NGX_CONF_BUFFER` bytes. When the buffer is read up to its end, the bytes from `start`
on are moved to its beginning and the rest is filled from the file.

`Tokeniser` is the reference: it reads a whole text, byte by byte, and holds the token
that it is in.
-/

namespace MultiversionBalancer.Core.Conf

open Http (byte cr lf)

/-- The double quote. -/
abbrev dquote : UInt8 := 34

/-- The single quote. -/
abbrev squote : UInt8 := 39

abbrev backslash : UInt8 := 92

def ngxConfBuffer : ℕ := 4096

inductive Message where
  | unexpectedEndOfParameter
  | unexpectedEndOfFile
  | tooLongParameter (started : List UInt8)
  | missingTerminating (quote : UInt8)
  | unexpected (ch : UInt8)
deriving DecidableEq, Repr

/-- What `ngx_conf_read_token` returns. -/
inductive Result where
  | ok
  | blockStart
  | blockDone
  | fileDone
  | error (message : Message)
deriving DecidableEq, Repr

/-- `ch == ' ' || ch == '\t' || ch == CR || ch == LF`. -/
def isSpace (ch : UInt8) : Bool :=
  ch == byte ' ' || ch == 9 || ch == cr || ch == lf

/-- The bytes that stand for another after a backslash. -/
def escape (ch : UInt8) : Option UInt8 :=
  if ch = dquote ∨ ch = squote ∨ ch = backslash then some ch
  else if ch = byte 't' then some 9
  else if ch = byte 'r' then some cr
  else if ch = byte 'n' then some lf
  else none

/-! ## The function -/

/-- `cf->conf_file`. `buf` is what stands in the buffer before `b->last`, `pos` is an
offset in it; `fd` tells whether there is a file, and `file` is what it holds. -/
structure ConfFile where
  buf : List UInt8
  pos : ℕ
  fd : Bool
  file : List UInt8
  offset : ℕ
  line : ℕ
deriving DecidableEq, Repr

/-- The local variables of `ngx_conf_read_token`, and `cf->args`. -/
structure Scan where
  start : ℕ
  startLine : ℕ
  needSpace : Bool := false
  lastSpace : Bool := true
  sharpComment : Bool := false
  inVariable : Bool := false
  quoted : Bool := false
  sQuoted : Bool := false
  dQuoted : Bool := false
  args : List (List UInt8) := []
deriving DecidableEq, Repr

inductive Turn where
  | next (c : ConfFile) (s : Scan)
  | done (result : Result) (c : ConfFile) (args : List (List UInt8))
deriving DecidableEq, Repr

/-- The loop that copies a word; `stop` is the byte after the word, which `src[1]` may
be. -/
def copyWord (stop : UInt8) : List UInt8 → List UInt8
  | [] => []
  | [a] => if a = backslash then [(escape stop).getD a] else [a]
  | a :: b :: src =>
      if a = backslash then
        match escape b with
        | some ch => ch :: copyWord stop src
        | none => a :: copyWord stop (b :: src)
      else a :: copyWord stop (b :: src)

/-- The branch `if (last_space)`. -/
def scanSpace (c : ConfFile) (s : Scan) (ch : UInt8) : Turn :=
  let s := { s with start := c.pos - 1, startLine := c.line }
  if isSpace ch then .next c s
  else if ch = byte ';' ∨ ch = byte '{' then
    if s.args.length = 0 then .done (.error (.unexpected ch)) c s.args
    else if ch = byte '{' then .done .blockStart c s.args
    else .done .ok c s.args
  else if ch = byte '}' then
    if s.args.length ≠ 0 then .done (.error (.unexpected ch)) c s.args
    else .done .blockDone c s.args
  else if ch = byte '#' then .next c { s with sharpComment := true }
  else if ch = backslash then .next c { s with quoted := true, lastSpace := false }
  else if ch = dquote then
    .next c { s with start := s.start + 1, dQuoted := true, lastSpace := false }
  else if ch = squote then
    .next c { s with start := s.start + 1, sQuoted := true, lastSpace := false }
  else if ch = byte '$' then .next c { s with inVariable := true, lastSpace := false }
  else .next c { s with lastSpace := false }

/-- The code after `if (found)`. -/
def pushWord (c : ConfFile) (s : Scan) (ch : UInt8) : Turn :=
  let word := copyWord ch ((c.buf.drop s.start).take (c.pos - 1 - s.start))
  let s := { s with args := s.args ++ [word] }
  if ch = byte ';' then .done .ok c s.args
  else if ch = byte '{' then .done .blockStart c s.args
  else .next c s

/-- The branch `else` of `if (last_space)`. -/
def scanWord (c : ConfFile) (s : Scan) (ch : UInt8) : Turn :=
  if ch = byte '{' ∧ s.inVariable then .next c s
  else
    let s := { s with inVariable := false }
    if ch = backslash then .next c { s with quoted := true }
    else if ch = byte '$' then .next c { s with inVariable := true }
    else if s.dQuoted then
      if ch = dquote then pushWord c { s with dQuoted := false, needSpace := true } ch
      else .next c s
    else if s.sQuoted then
      if ch = squote then pushWord c { s with sQuoted := false, needSpace := true } ch
      else .next c s
    else if isSpace ch ∨ ch = byte ';' ∨ ch = byte '{' then
      pushWord c { s with lastSpace := true } ch
    else .next c s

/-- A turn of the loop, from `ch = *b->pos++` on. -/
def scanChar (c : ConfFile) (s : Scan) : Turn :=
  let ch := c.buf.getD c.pos 0
  let c := { c with pos := c.pos + 1, line := if ch = lf then c.line + 1 else c.line }
  let s := { s with sharpComment := s.sharpComment && ch != lf }
  if s.sharpComment then .next c s
  else if s.quoted then .next c { s with quoted := false }
  else if s.needSpace then
    if isSpace ch then .next c { s with lastSpace := true, needSpace := false }
    else if ch = byte ';' then .done .ok c s.args
    else if ch = byte '{' then .done .blockStart c s.args
    else if ch = byte ')' then
      scanSpace c { s with lastSpace := true, needSpace := false } ch
    else .done (.error (.unexpected ch)) c s.args
  else if s.lastSpace then scanSpace c s ch
  else scanWord c s ch

/-- A turn of the loop of `ngx_conf_read_token`. The file does not change while it is
read, so that `ngx_read_file` returns what it is asked for. -/
def scanTurn (c : ConfFile) (s : Scan) : Turn :=
  if c.pos < c.buf.length then scanChar c s
  else if c.file.length ≤ c.offset then
    if 0 < s.args.length ∨ s.lastSpace = false then
      .done
        (.error (if c.fd then .unexpectedEndOfFile else .unexpectedEndOfParameter)) c s.args
    else .done .fileDone c s.args
  else
    let len := c.pos - s.start
    if len = ngxConfBuffer then
      .done
        (.error
          (if s.dQuoted then .missingTerminating (dquote)
          else if s.sQuoted then .missingTerminating squote
          else .tooLongParameter ((c.buf.drop s.start).take 10)))
        { c with line := s.startLine } s.args
    else
      let size := min (c.file.length - c.offset) (ngxConfBuffer - len)
      scanChar
        { c with
          buf := (c.buf.drop s.start).take len ++ (c.file.drop c.offset).take size
          pos := len
          offset := c.offset + size }
        { s with start := 0 }

/-- The loop of `ngx_conf_read_token`; a turn that goes on reads a byte. -/
def scanLoop : ℕ → ConfFile → Scan → Option (Result × ConfFile × List (List UInt8))
  | 0, _, _ => none
  | fuel + 1, c, s =>
      match scanTurn c s with
      | .next c s => scanLoop fuel c s
      | .done result c args => some (result, c, args)

/-- The number of bytes that are not read yet. -/
def ConfFile.unread (c : ConfFile) : ℕ :=
  (c.buf.length - c.pos) + (c.file.length - c.offset)

/-- `ngx_conf_read_token`: the result, and `cf->args`. -/
def ngxConfReadToken (c : ConfFile) : Option (Result × ConfFile × List (List UInt8)) :=
  scanLoop (c.unread + 1) c { start := c.pos, startLine := c.line }

/-- The configuration file that `ngx_conf_parse` opens. -/
def openFile (file : List UInt8) : ConfFile where
  buf := []
  pos := 0
  fd := true
  file := file
  offset := 0
  line := 1

/-- What a call reports: its result, its arguments and the line it stops at. -/
structure Report where
  result : Result
  args : List (List UInt8)
  line : ℕ
deriving DecidableEq, Repr

/-- `ngx_conf_parse` stops after these. -/
def Result.isFinal : Result → Bool
  | .fileDone => true
  | .error _ => true
  | _ => false

/-- What the first calls report. -/
def readTokens : ℕ → ConfFile → Option (List Report)
  | 0, _ => some []
  | n + 1, c =>
      match ngxConfReadToken c with
      | none => none
      | some (result, c, args) =>
          if result.isFinal then some [⟨result, args, c.line⟩]
          else (readTokens n c).map (⟨result, args, c.line⟩ :: ·)

/-! ## The reference -/

/-- The text of an argument: the escapes are replaced. -/
def unescape : List UInt8 → List UInt8
  | [] => []
  | [a] => [a]
  | a :: b :: text =>
      if a = backslash then
        match escape b with
        | some ch => ch :: unescape text
        | none => a :: b :: unescape text
      else a :: unescape (b :: text)

namespace Tokeniser

/-- Where the reference is in the text. -/
inductive Mode where
  /-- Between tokens. -/
  | space
  /-- In a comment, of which `seen` bytes are read. -/
  | comment (seen : ℕ)
  /-- In a token, without the quote that opens it. After a backslash `escaped` is set,
  after a dollar `inVariable` is. -/
  | word (text : List UInt8) (quote : Option UInt8) (escaped inVariable : Bool)
  /-- After the quote that closes a token. -/
  | closed
deriving DecidableEq, Repr

structure State where
  mode : Mode := .space
  args : List (List UInt8) := []
  line : ℕ := 1
deriving DecidableEq, Repr

/-- What the reference does at a byte. -/
inductive Step where
  | next (s : State)
  | done (result : Result) (s : State)
deriving DecidableEq, Repr

def stepSpace (s : State) (ch : UInt8) : Step :=
  if isSpace ch then .next { s with mode := .space }
  else if ch = byte ';' ∨ ch = byte '{' then
    if s.args = [] then .done (.error (.unexpected ch)) s
    else .done (if ch = byte '{' then .blockStart else .ok) s
  else if ch = byte '}' then
    .done (if s.args = [] then .blockDone else .error (.unexpected ch)) s
  else if ch = byte '#' then .next { s with mode := .comment 1 }
  else if ch = dquote ∨ ch = squote then
    .next { s with mode := .word [] (some ch) false false }
  else .next { s with mode := .word [ch] none (ch == backslash) (ch == byte '$') }

def finish (s : State) (text : List UInt8) (mode : Mode) : State :=
  { s with mode, args := s.args ++ [unescape text] }

/-- A byte inside a token. -/
def stepWord (s : State) (text : List UInt8) (quote : Option UInt8) (inVariable : Bool)
    (ch : UInt8) : Step :=
  if ch = byte '{' ∧ inVariable then
    .next { s with mode := .word (text ++ [ch]) quote false true }
  else if ch = backslash ∨ ch = byte '$' then
    .next { s with mode := .word (text ++ [ch]) quote (ch == backslash) (ch == byte '$') }
  else
    match quote with
    | some q =>
        if ch = q then .next (finish s text .closed)
        else .next { s with mode := .word (text ++ [ch]) quote false false }
    | none =>
        if ch = byte ';' then .done .ok (finish s text .space)
        else if ch = byte '{' then .done .blockStart (finish s text .space)
        else if isSpace ch then .next (finish s text .space)
        else .next { s with mode := .word (text ++ [ch]) quote false false }

/-- A byte of the text. -/
def step (s : State) (ch : UInt8) : Step :=
  let s := { s with line := if ch = lf then s.line + 1 else s.line }
  match s.mode with
  | .space => stepSpace s ch
  | .comment seen =>
      if ch = lf then .next { s with mode := .space }
      else .next { s with mode := .comment (seen + 1) }
  | .word text quote true inVariable =>
      .next { s with mode := .word (text ++ [ch]) quote false inVariable }
  | .word text quote false inVariable => stepWord s text quote inVariable ch
  | .closed =>
      if isSpace ch then .next { s with mode := .space }
      else if ch = byte ';' then .done .ok s
      else if ch = byte '{' then .done .blockStart s
      else if ch = byte ')' then stepSpace s ch
      else .done (.error (.unexpected ch)) s

def atEnd (s : State) : Result :=
  match s.mode, s.args with
  | .space, [] => .fileDone
  | .comment _, [] => .fileDone
  | _, _ => .error .unexpectedEndOfFile

/-- The reference reads a directive: the result, the state and the rest of the text. -/
def read : State → List UInt8 → Result × State × List UInt8
  | s, [] => (atEnd s, s, [])
  | s, ch :: text =>
      match step s ch with
      | .next s => read s text
      | .done result s => (result, s, text)

/-- What the first calls report. -/
def reports : ℕ → ℕ → List UInt8 → List Report
  | 0, _, _ => []
  | n + 1, line, text =>
      let (result, s, text) := read { line } text
      if result.isFinal then [⟨result, s.args, s.line⟩]
      else ⟨result, s.args, s.line⟩ :: reports n s.line text

end Tokeniser

end MultiversionBalancer.Core.Conf
