import MultiversionBalancer.Http.Bytes
import Mathlib.Data.Nat.Notation

/-!
# Header blocks of HTTP/2

The handlers of `ngx_http_v2.c` from `ngx_http_v2_state_header_block` to
`ngx_http_v2_handle_continuation`, with the loop of `ngx_http_v2_read_handler`
that calls them.  A handler gets the bytes of the receive buffer from `pos` to
`end`.  The dynamic table, the Huffman codes and what a request does with a
header field are parameters.
-/

namespace MultiversionBalancer.Http2

def intOctets : ℕ := 4

def frameHeaderSize : ℕ := 9

def stateBufferSize : ℕ := 16

def continuationFrame : ℕ := 0x9

def endHeadersFlag : UInt8 := 0x04

/-! ## What the handlers work on -/

structure Header where
  name : List UInt8
  value : List UInt8
  deriving DecidableEq

structure HuffCode where
  next : UInt8
  emit : Bool
  sym : UInt8
  ending : Bool

/-- What the stream's request does with a header field: it goes on, it fails and
leaves the stream, or the connection fails. -/
inductive Processed (S : Type*) where
  | ok (stream : S)
  | failed
  | error

/-- What header blocks are handed to: the Huffman codes, the operations on the
dynamic table, and the requests. -/
structure Env (T S : Type*) where
  largeClientHeaderBuffersSize : ℕ
  huffDecodeCodes : UInt8 → UInt8 → HuffCode
  getIndexedHeader : T → ℕ → Bool → Header → Option Header
  tableSize : T → ℕ → Option T
  addHeader : T → Header → Option T
  processHeader : S → Header → Processed S

/-- The part of `ngx_http_v2_state_t` that belongs to HPACK, with the stream and
the table.  `field` is what stands from `field_start` to `field_end`, and
`fields` are the header fields that have been decoded. -/
structure Hpack (T S : Type*) where
  parseName : Bool
  parseValue : Bool
  index : Bool
  header : Header
  headerLimit : ℕ
  fieldState : UInt8
  field : List UInt8
  fieldRest : ℕ
  stream : Option S
  table : T
  fields : List Header

/-- The functions between which control goes. -/
inductive Handler where
  | headerBlock
  | fieldLen
  | fieldHuff
  | fieldRaw
  | fieldSkip
  | processHeader
  | headerComplete
  | skip
  deriving DecidableEq

/-- `ngx_http_v2_state_t`; `buffer` holds the `buffer_used` bytes that are saved
between two reads. -/
structure State (T S : Type*) where
  sid : ℕ
  length : ℕ
  padding : ℕ
  flags : UInt8
  hpack : Hpack T S
  buffer : List UInt8
  handler : Handler

def endHeaders (flags : UInt8) : Bool :=
  flags &&& endHeadersFlag != 0

/-- How a handler ends: it calls another one, it returns a position in the
buffer, it saves its input for the next read, it fails the connection, or the
frame is complete. -/
inductive Action (T S : Type*) where
  | call (handler : Handler) (s : State T S) (input : List UInt8)
  | ret (s : State T S) (input : List UInt8)
  | save (s : State T S)
  | error (hpack : Hpack T S)
  | complete (hpack : Hpack T S) (input : List UInt8)

/-! ## Integers -/

/-- The results of `ngx_http_v2_parse_int`: a value with the length and the bytes
that are left, `NGX_ERROR`, `NGX_DECLINED` and `NGX_AGAIN`. -/
inductive IntResult where
  | value (value length : ℕ) (rest : List UInt8)
  | error
  | declined
  | again
  deriving DecidableEq

/-- The loop over the octets behind the prefix: the value, and how many octets
have been read. -/
def parseOctets : ℕ → ℕ → List UInt8 → Option (ℕ × ℕ)
  | _, _, [] => none
  | value, shift, octet :: octets =>
      let value := value + ((octet.toNat % 128) <<< shift)
      if octet < 128 then some (value, 1)
      else (parseOctets value (shift + 7) octets).map fun r => (r.1, r.2 + 1)

/-- `ngx_http_v2_parse_int` at the byte `ch`, which is there when it is
called. -/
def ngxHttpV2ParseInt (length : ℕ) (ch : UInt8) (rest : List UInt8)
    (intPrefix : UInt8) : IntResult :=
  if ch &&& intPrefix ≠ intPrefix then
    if length = 0 then .error
    else .value (ch &&& intPrefix).toNat (length - 1) rest
  else
    let octets := rest.take (intOctets - 1)
    match parseOctets intPrefix.toNat 0 octets with
    | some (value, n) =>
        if length < n + 1 then .error
        else .value value (length - (n + 1)) (rest.drop n)
    | none =>
        if length ≤ octets.length + 1 then .error
        else if octets.length + 1 = intOctets then .declined
        else .again

/-! ## Huffman codes -/

def ngxHttpHuffDecodeBits (codes : UInt8 → UInt8 → HuffCode) (bits : UInt8)
    (state : UInt8) (dst : List UInt8) : Option (UInt8 × Bool × List UInt8) :=
  let code := codes state bits
  if code.next = state then none
  else some (code.next, code.ending, if code.emit then dst ++ [code.sym] else dst)

def huffLoop (codes : UInt8 → UInt8 → HuffCode) :
    UInt8 → Bool → List UInt8 → List UInt8 → Option (UInt8 × Bool × List UInt8)
  | state, ending, dst, [] => some (state, ending, dst)
  | state, _, dst, ch :: src => do
      let (state, _, dst) ← ngxHttpHuffDecodeBits codes (ch >>> 4) state dst
      let (state, ending, dst) ← ngxHttpHuffDecodeBits codes (ch &&& 0xf) state dst
      huffLoop codes state ending dst src

def ngxHttpHuffDecode (codes : UInt8 → UInt8 → HuffCode) (state : UInt8)
    (src dst : List UInt8) (last : Bool) : Option (UInt8 × List UInt8) :=
  match huffLoop codes state true dst src with
  | none => none
  | some (state, ending, dst) =>
      if last then if ending then some (0, dst) else none
      else some (state, dst)

/-! ## The handlers -/

section Handlers

variable {T S : Type*}

def ngxHttpV2ConnectionError (s : State T S) : Action T S :=
  .error s.hpack

def ngxHttpV2StateSave (s : State T S) (input : List UInt8)
    (handler : Handler) : Action T S :=
  if stateBufferSize < input.length then ngxHttpV2ConnectionError s
  else .save { s with buffer := input, handler := handler }

def parseUint32 (p : List UInt8) : ℕ :=
  (p.getD 0 0).toNat * 2 ^ 24 + (p.getD 1 0).toNat * 2 ^ 16 +
    (p.getD 2 0).toNat * 2 ^ 8 + (p.getD 3 0).toNat

def parseLength (head : ℕ) : ℕ :=
  head / 2 ^ 8

def parseType (head : ℕ) : ℕ :=
  head % 2 ^ 8

def parseSid (p : List UInt8) : ℕ :=
  parseUint32 p % 2 ^ 31

/-- The bytes from `pos + skip` on, behind a copy of `len` bytes from `pos` to
`pos + skip`. -/
def shift (len skip : ℕ) (input : List UInt8) : List UInt8 :=
  input.take len ++ input.drop (len + skip)

/-- The padding of `HEADERS` before the frame header of `CONTINUATION`, as far as
it has arrived. -/
def skipPadding (s : State T S) (input : List UInt8) : State T S × List UInt8 :=
  if s.padding ≠ 0 ∧ s.length < input.length then
    let skip := min s.padding (input.length - s.length)
    ({ s with padding := s.padding - skip }, shift s.length skip input)
  else (s, input)

/-- The frame header of `CONTINUATION` behind the `length` bytes that are left of
the frame before. -/
def takeFrameHeader (s : State T S) (input : List UInt8) (handler : Handler) :
    Action T S :=
  if input.length < s.length + frameHeaderSize then
    ngxHttpV2StateSave s input handler
  else
    let p := input.drop s.length
    let head := parseUint32 p
    if parseType head ≠ continuationFrame then ngxHttpV2ConnectionError s
    else if s.sid ≠ parseSid (p.drop 5) then ngxHttpV2ConnectionError s
    else
      .ret
        { s with
          flags := s.flags ||| p.getD 4 0
          length := s.length + parseLength head
          handler := handler }
        (shift s.length frameHeaderSize input)

def ngxHttpV2HandleContinuation (s : State T S) (input : List UInt8)
    (handler : Handler) : Action T S :=
  takeFrameHeader (skipPadding s input).1 (skipPadding s input).2 handler

/-- The prefix of the integer in the first byte of a header field. -/
def headerPrefix (ch : UInt8) : UInt8 :=
  if 128 ≤ ch then 127
  else if 64 ≤ ch then 63
  else if 32 ≤ ch then 31
  else 15

/-- `h2c->state.index = 1` for a literal with incremental indexing. -/
def Hpack.markIndex (hpack : Hpack T S) (ch : UInt8) : Hpack T S :=
  if ch < 128 ∧ 64 ≤ ch then { hpack with index := true } else hpack

/-- What follows the integer of a header field. -/
def Hpack.headerValue (env : Env T S) (hpack : Hpack T S) (ch : UInt8)
    (value : ℕ) : Except (Hpack T S) (Handler × Hpack T S) :=
  if 128 ≤ ch then
    match env.getIndexedHeader hpack.table value false hpack.header with
    | none => .error hpack
    | some header => .ok (.processHeader, { hpack with header := header })
  else if ch < 64 ∧ 32 ≤ ch then
    match env.tableSize hpack.table value with
    | none => .error hpack
    | some table => .ok (.headerComplete, { hpack with table := table })
  else if value = 0 then
    .ok (.fieldLen, { hpack with parseName := true, parseValue := true })
  else
    match env.getIndexedHeader hpack.table value true hpack.header with
    | none => .error hpack
    | some header =>
        .ok (.fieldLen, { hpack with header := header, parseValue := true })

/-- Go on with what has been found, or fail. -/
def resume (s : State T S) (length : ℕ) (rest : List UInt8) :
    Except (Hpack T S) (Handler × Hpack T S) → Action T S
  | .error hpack => .error hpack
  | .ok (handler, hpack) =>
      .call handler { s with length := length, hpack := hpack } rest

/-- What follows an integer at the front of the input. -/
def afterInt (s : State T S) (input : List UInt8) (handler : Handler)
    (found : ℕ → Except (Hpack T S) (Handler × Hpack T S)) :
    IntResult → Action T S
  | .value value length rest => resume s length rest (found value)
  | .again => ngxHttpV2StateSave s input handler
  | .declined => ngxHttpV2ConnectionError s
  | .error => ngxHttpV2ConnectionError s

def ngxHttpV2StateHeaderBlock (env : Env T S) (s : State T S) :
    List UInt8 → Action T S
  | [] => ngxHttpV2StateSave s [] .headerBlock
  | ch :: rest =>
      if endHeaders s.flags = false ∧ s.length < intOctets then
        ngxHttpV2HandleContinuation s (ch :: rest) .headerBlock
      else
        let s := { s with hpack := s.hpack.markIndex ch }
        afterInt s (ch :: rest) .headerBlock (s.hpack.headerValue env ch)
          (ngxHttpV2ParseInt s.length ch rest (headerPrefix ch))

/-- What follows the length of a string. -/
def Hpack.fieldLength (env : Env T S) (hpack : Hpack T S) (huff : Bool)
    (len : ℕ) : Except (Hpack T S) (Handler × Hpack T S) :=
  if env.largeClientHeaderBuffersSize < len then .error hpack
  else if hpack.stream.isNone ∧ hpack.index = false then
    .ok (.fieldSkip, { hpack with fieldRest := len })
  else
    .ok (if huff then .fieldHuff else .fieldRaw,
      { hpack with fieldRest := len, field := [] })

def ngxHttpV2StateFieldLen (env : Env T S) (s : State T S)
    (input : List UInt8) : Action T S :=
  if endHeaders s.flags = false ∧ s.length < intOctets then
    ngxHttpV2HandleContinuation s input .fieldLen
  else if s.length < 1 then ngxHttpV2ConnectionError s
  else
    match input with
    | [] => ngxHttpV2StateSave s [] .fieldLen
    | ch :: rest =>
        afterInt s (ch :: rest) .fieldLen (s.hpack.fieldLength env (128 ≤ ch))
          (ngxHttpV2ParseInt s.length ch rest 127)

/-- The bytes of a string go to `ngx_http_huff_decode`. -/
def Hpack.takeHuff (env : Env T S) (hpack : Hpack T S) (bytes : List UInt8) :
    Option (Hpack T S) :=
  (ngxHttpHuffDecode env.huffDecodeCodes hpack.fieldState bytes hpack.field
    (hpack.fieldRest = 0)).map fun r =>
      { hpack with fieldState := r.1, field := r.2 }

/-- The bytes of a string go to `ngx_cpymem`. -/
def Hpack.takeRaw (hpack : Hpack T S) (bytes : List UInt8) :
    Option (Hpack T S) :=
  some { hpack with field := hpack.field ++ bytes }

/-- The bytes of a string are passed over. -/
def Hpack.takeNone (hpack : Hpack T S) (_ : List UInt8) : Option (Hpack T S) :=
  some hpack

/-- `ngx_http_v2_state_field_huff`, `ngx_http_v2_state_field_raw` and
`ngx_http_v2_state_field_skip`, which differ in what they do with the bytes. -/
def stateField (take : Hpack T S → List UInt8 → Option (Hpack T S))
    (handler : Handler) (s : State T S) (input : List UInt8) : Action T S :=
  let size := min (min input.length s.hpack.fieldRest) s.length
  let s :=
    { s with
      length := s.length - size
      hpack := { s.hpack with fieldRest := s.hpack.fieldRest - size } }
  match take s.hpack (input.take size) with
  | none => ngxHttpV2ConnectionError s
  | some hpack =>
      let s := { s with hpack := hpack }
      let input := input.drop size
      if hpack.fieldRest = 0 then .call .processHeader s input
      else if s.length ≠ 0 then ngxHttpV2StateSave s input handler
      else if endHeaders s.flags then ngxHttpV2ConnectionError s
      else ngxHttpV2HandleContinuation s input handler

def ngxHttpV2StateFieldHuff (env : Env T S) : State T S → List UInt8 → Action T S :=
  stateField (Hpack.takeHuff env) .fieldHuff

def ngxHttpV2StateFieldRaw : State T S → List UInt8 → Action T S :=
  stateField Hpack.takeRaw .fieldRaw

def ngxHttpV2StateFieldSkip : State T S → List UInt8 → Action T S :=
  stateField Hpack.takeNone .fieldSkip

/-- The header field goes to the stream, if there is one. -/
def Hpack.toStream (env : Env T S) (hpack : Hpack T S) :
    Except (Hpack T S) (Handler × Hpack T S) :=
  match hpack.stream with
  | none => .ok (.headerComplete, hpack)
  | some stream =>
      match env.processHeader stream hpack.header with
      | .ok stream => .ok (.headerComplete, { hpack with stream := some stream })
      | .failed => .ok (.headerComplete, { hpack with stream := none })
      | .error => .error hpack

/-- A whole header field: the limit, the table, and the stream. -/
def Hpack.toTable (env : Env T S) (hpack : Hpack T S) :
    Except (Hpack T S) (Handler × Hpack T S) :=
  let len := hpack.header.name.length + hpack.header.value.length
  if hpack.headerLimit < len then .error hpack
  else
    let hpack :=
      { hpack with
        headerLimit := hpack.headerLimit - len
        fields := hpack.fields ++ [hpack.header] }
    if hpack.index then
      match env.addHeader hpack.table hpack.header with
      | none => .error hpack
      | some table => Hpack.toStream env { hpack with table := table, index := false }
    else Hpack.toStream env hpack

/-- `ngx_http_v2_state_process_header` on what has been decoded. -/
def Hpack.processHeader (env : Env T S) (hpack : Hpack T S) :
    Except (Hpack T S) (Handler × Hpack T S) :=
  if hpack.parseName then
    let hpack :=
      { hpack with
        parseName := false
        header := { hpack.header with name := hpack.field } }
    if hpack.field = [] then .error hpack else .ok (.fieldLen, hpack)
  else if hpack.parseValue then
    Hpack.toTable env
      { hpack with
        parseValue := false
        header := { hpack.header with value := hpack.field } }
  else Hpack.toTable env hpack

def ngxHttpV2StateProcessHeader (env : Env T S) (s : State T S)
    (input : List UInt8) : Action T S :=
  resume s s.length input (s.hpack.processHeader env)

def ngxHttpV2StateComplete (s : State T S) (input : List UInt8) : Action T S :=
  .complete s.hpack input

def ngxHttpV2StateSkip (s : State T S) (input : List UInt8) : Action T S :=
  if input.length < s.length then
    ngxHttpV2StateSave { s with length := s.length - input.length } [] .skip
  else ngxHttpV2StateComplete s (input.drop s.length)

def ngxHttpV2StateSkipPadded (s : State T S) (input : List UInt8) :
    Action T S :=
  .call .skip { s with length := s.length + s.padding, padding := 0 } input

def ngxHttpV2StateHeaderComplete (s : State T S) (input : List UInt8) :
    Action T S :=
  if s.length ≠ 0 then
    if input ≠ [] then .ret { s with handler := .headerBlock } input
    else ngxHttpV2StateSave s input .headerBlock
  else if endHeaders s.flags = false then
    ngxHttpV2HandleContinuation s input .headerComplete
  else if s.padding ≠ 0 then ngxHttpV2StateSkipPadded s input
  else ngxHttpV2StateComplete s input

def callHandler (env : Env T S) :
    Handler → State T S → List UInt8 → Action T S
  | .headerBlock => ngxHttpV2StateHeaderBlock env
  | .fieldLen => ngxHttpV2StateFieldLen env
  | .fieldHuff => ngxHttpV2StateFieldHuff env
  | .fieldRaw => ngxHttpV2StateFieldRaw
  | .fieldSkip => ngxHttpV2StateFieldSkip
  | .processHeader => ngxHttpV2StateProcessHeader env
  | .headerComplete => ngxHttpV2StateHeaderComplete
  | .skip => ngxHttpV2StateSkip

/-! ## Reads -/

/-- What the bytes of reads lead to: a header block that is complete, with the
bytes behind its last frame, a connection that has failed, a parser that waits
for more, and a loop that has not come to an end. -/
inductive ReadEnd (T S : Type*) where
  | complete (hpack : Hpack T S) (rest : List UInt8)
  | error (hpack : Hpack T S)
  | waiting (s : State T S)
  | endless

/-- The loop of `ngx_http_v2_read_handler` over the bytes of one read, up to the
end of the header block.  A handler that returns at the end of the buffer has
saved nothing, and the next one is called with the next read. -/
def readLoop (env : Env T S) :
    ℕ → Handler → State T S → List UInt8 → ReadEnd T S
  | 0, _, _, _ => .endless
  | fuel + 1, handler, s, input =>
      match callHandler env handler s input with
      | .call handler s input => readLoop env fuel handler s input
      | .ret s input =>
          if input = [] then .waiting { s with buffer := [] }
          else readLoop env fuel s.handler s input
      | .save s => .waiting s
      | .error hpack => .error hpack
      | .complete hpack rest => .complete hpack rest

/-- The bytes of successive reads; those that are saved go before the next
read.  A byte is looked at in at most eight calls. -/
def readAll (env : Env T S) : State T S → List (List UInt8) → ReadEnd T S
  | s, [] => .waiting s
  | s, read :: reads =>
      let input := s.buffer ++ read
      match readLoop env (8 * input.length + 8) s.handler s input with
      | .waiting s => readAll env s reads
      | .complete hpack rest => .complete hpack (rest ++ reads.flatten)
      | .error hpack => .error hpack
      | .endless => .endless

/-- The state in which `ngx_http_v2_state_headers` calls
`ngx_http_v2_state_header_block`. -/
def State.start (sid length padding : ℕ) (flags : UInt8) (hpack : Hpack T S) :
    State T S where
  sid := sid
  length := length
  padding := padding
  flags := flags
  hpack := hpack
  buffer := []
  handler := .headerBlock

end Handlers

end MultiversionBalancer.Http2
