import MultiversionBalancer.Http.Bytes
import MultiversionBalancer.Lib.Scan

/-!
# Chunked request bodies

`ngx_http_parse_chunked` of `ngx_http_parse.c` and
`ngx_http_request_body_chunked_filter` of `ngx_http_request_body.c`.  A call of
the filter gets one buffer.  The buffers it emits are parts of the memory of that
buffer, and a small chunk is copied back behind the chunk before it.
-/

namespace MultiversionBalancer.Http

/-! ## The parser -/

inductive ChunkedState where
  | chunkStart
  | chunkSize
  | chunkExtension
  | chunkExtensionAlmostDone
  | chunkData
  | afterData
  | afterDataAlmostDone
  | lastChunkExtension
  | lastChunkExtensionAlmostDone
  | trailer
  | trailerAlmostDone
  | trailerHeader
  | trailerHeaderAlmostDone
  deriving DecidableEq

def maxOff : ℕ := 2 ^ 63 - 1

structure ChunkedCtx where
  state : ChunkedState
  size : ℕ
  length : ℕ
  deriving DecidableEq

/-- The context that `ngx_pcalloc` gives. -/
def ChunkedCtx.new : ChunkedCtx where
  state := .chunkStart
  size := 0
  length := 0

/-- What the parser does with a byte.  The label `data` leaves the byte where it
is. -/
inductive ChunkedStep where
  | next (state : ChunkedState) (size : ℕ)
  | data
  | done
  | invalid
  deriving DecidableEq

/-- A byte that is a line feed, a carriage return or another one. -/
def lineEnd (almost done : ChunkedState) (other : ChunkedStep) (ch : UInt8)
    (size : ℕ) : ChunkedStep :=
  if ch = cr then .next almost size
  else if ch = lf then .next done size
  else other

/-- A line feed behind a carriage return. -/
def lineFeed (done : ChunkedState) (ch : UInt8) (size : ℕ) : ChunkedStep :=
  if ch = lf then .next done size else .invalid

/-- The byte behind the digits of a size. -/
def sizeEnd (almost done ext : ChunkedState) (ch : UInt8) (size : ℕ) :
    ChunkedStep :=
  lineEnd almost done
    (if ch = byte ';' ∨ ch = byte ' ' ∨ ch = byte '\t' then .next ext size
      else .invalid) ch size

/-- One iteration of the loop of `ngx_http_parse_chunked`. -/
def stepChunked (ch : UInt8) (size : ℕ) : ChunkedState → ChunkedStep
  | .chunkStart =>
      match hexDigit ch with
      | some d => .next .chunkSize d.toNat
      | none => .invalid
  | .chunkSize =>
      if maxOff / 16 < size then .invalid
      else
        match hexDigit ch with
        | some d => .next .chunkSize (size * 16 + d.toNat)
        | none =>
            if size = 0 then
              sizeEnd .lastChunkExtensionAlmostDone .trailer .lastChunkExtension ch
                size
            else
              sizeEnd .chunkExtensionAlmostDone .chunkData .chunkExtension ch size
  | .chunkExtension =>
      lineEnd .chunkExtensionAlmostDone .chunkData (.next .chunkExtension size) ch
        size
  | .chunkExtensionAlmostDone => lineFeed .chunkData ch size
  | .chunkData => .data
  | .afterData => lineEnd .afterDataAlmostDone .chunkStart .invalid ch size
  | .afterDataAlmostDone => lineFeed .chunkStart ch size
  | .lastChunkExtension =>
      lineEnd .lastChunkExtensionAlmostDone .trailer
        (.next .lastChunkExtension size) ch size
  | .lastChunkExtensionAlmostDone => lineFeed .trailer ch size
  | .trailer =>
      if ch = cr then .next .trailerAlmostDone size
      else if ch = lf then .done
      else .next .trailerHeader size
  | .trailerAlmostDone => if ch = lf then .done else .invalid
  | .trailerHeader =>
      lineEnd .trailerHeaderAlmostDone .trailer (.next .trailerHeader size) ch size
  | .trailerHeaderAlmostDone => lineFeed .trailer ch size

/-- `ctx->length` for a state. -/
def chunkedLength (size : ℕ) : ChunkedState → ℕ
  | .chunkStart => 3
  | .chunkSize => 1 + if size = 0 then 1 else size + 4
  | .chunkExtension => 1 + size + 4
  | .chunkExtensionAlmostDone => 1 + size + 4
  | .chunkData => size + 4
  | .afterData => 4
  | .afterDataAlmostDone => 4
  | .lastChunkExtension => 2
  | .lastChunkExtensionAlmostDone => 2
  | .trailer => 1
  | .trailerAlmostDone => 1
  | .trailerHeader => 2
  | .trailerHeaderAlmostDone => 2

/-- The results of the parser, with the number of bytes it has read. -/
inductive ChunkedResult where
  | ok (ctx : ChunkedCtx) (read : ℕ)
  | done (ctx : ChunkedCtx) (read : ℕ)
  | again (ctx : ChunkedCtx) (read : ℕ)
  | error
  deriving DecidableEq

def labelData (result : ChunkedCtx → ChunkedResult) (state : ChunkedState)
    (size : ℕ) : ChunkedResult :=
  if maxOff - 5 < size then .error
  else
    result { state := state, size := size, length := chunkedLength size state }

/-- The loop of `ngx_http_parse_chunked`; `read` bytes of the buffer have been
read. -/
def scanChunked (length read : ℕ) :
    ChunkedState → ℕ → List UInt8 → ChunkedResult
  | state, size, [] => labelData (.again · read) state size
  | state, size, ch :: rest =>
      match stepChunked ch size state with
      | .next state size => scanChunked length (read + 1) state size rest
      | .data => labelData (.ok · read) state size
      | .done => .done { state := .chunkStart, size := size, length := length } (read + 1)
      | .invalid => .error

/-- `ngx_http_parse_chunked` on the bytes of a buffer. -/
def ngxHttpParseChunked (ctx : ChunkedCtx) (input : List UInt8) :
    ChunkedResult :=
  let state :=
    if ctx.state = .chunkData ∧ ctx.size = 0 then .afterData else ctx.state
  scanChunked ctx.length 0 state ctx.size input

/-! ## The filter -/

/-- The settings the filter reads. -/
structure BodyConf where
  clientMaxBodySize : ℕ
  largeClientHeaderBuffersSize : ℕ

/-- `r->request_body` with `r->headers_in.content_length_n`. -/
structure RequestBody where
  rest : ℤ
  chunked : ChunkedCtx
  contentLengthN : ℕ
  deriving DecidableEq

/-- The body before the first call. -/
def RequestBody.new : RequestBody where
  rest := -1
  chunked := .new
  contentLengthN := 0

/-- A buffer that is emitted: a part of the memory, or the last one. -/
inductive OutBuf where
  | part (pos last : ℕ)
  | lastBuf
  deriving DecidableEq

/-- The bytes of a part of the memory. -/
def slice (mem : List UInt8) (pos last : ℕ) : List UInt8 :=
  (mem.take last).drop pos

/-- The contents of an emitted buffer. -/
def OutBuf.contents (mem : List UInt8) : OutBuf → List UInt8
  | .part pos last => slice mem pos last
  | .lastBuf => []

/-- `while (size) { *b->last++ = *cl->buf->pos++; size--; }`. -/
def copyBytes : ℕ → List UInt8 → ℕ → ℕ → List UInt8
  | 0, mem, _, _ => mem
  | n + 1, mem, dst, src =>
      copyBytes n (mem.set dst (mem.getD src 0)) (dst + 1) (src + 1)

/-- `ngx_memmove(mem + dst, mem + src, n)`. -/
def memmove (n : ℕ) (mem : List UInt8) (dst src : ℕ) : List UInt8 :=
  mem.take dst ++ slice mem src (src + n) ++ mem.drop (dst + n)

/-- The variables of the loop over one buffer: its memory and position, the
buffers emitted before `b`, and `b`. -/
structure FilterLoop where
  mem : List UInt8
  pos : ℕ
  out : List OutBuf
  b : Option (ℕ × ℕ)
  chunked : ChunkedCtx
  contentLengthN : ℕ

/-- `NGX_HTTP_BAD_REQUEST` and `NGX_HTTP_REQUEST_ENTITY_TOO_LARGE`, and a loop
that has not come to an end. -/
inductive BodyFault where
  | badRequest
  | tooLarge
  | endless
  deriving DecidableEq

/-- The emitted buffers up to `b`. -/
def FilterLoop.chain (l : FilterLoop) : List OutBuf :=
  l.out ++ (l.b.map fun b => .part b.1 b.2).toList

/-- Emit a new buffer with what the buffer holds of the chunk. -/
def FilterLoop.newBuf (l : FilterLoop) : FilterLoop :=
  let left := l.mem.length - l.pos
  if l.chunked.size < left then
    { l with
      out := l.chain
      b := some (l.pos, l.pos + l.chunked.size)
      pos := l.pos + l.chunked.size
      chunked := { l.chunked with size := 0 }
      contentLengthN := l.contentLengthN + l.chunked.size }
  else
    { l with
      out := l.chain
      b := some (l.pos, l.mem.length)
      pos := l.mem.length
      chunked := { l.chunked with size := l.chunked.size - left }
      contentLengthN := l.contentLengthN + left }

/-- Copy the chunk behind the buffer from `start` to `last`. -/
def FilterLoop.copyBack (start last : ℕ) (l : FilterLoop) : FilterLoop :=
  { l with
    mem :=
      if l.chunked.size < 8 then copyBytes l.chunked.size l.mem last l.pos
      else memmove l.chunked.size l.mem last l.pos
    b := some (start, last + l.chunked.size)
    pos := l.pos + l.chunked.size
    chunked := { l.chunked with size := 0 }
    contentLengthN := l.contentLengthN + l.chunked.size }

/-- A parsed chunk: a small one that is whole is copied behind `b`. -/
def FilterLoop.chunk (l : FilterLoop) : FilterLoop :=
  match l.b with
  | none => l.newBuf
  | some (start, last) =>
      if l.chunked.size ≤ 128 ∧ l.chunked.size ≤ l.mem.length - l.pos then
        l.copyBack start last
      else l.newBuf

/-- What a call of the filter leaves: the memory and the position of the buffer,
the emitted buffers, and the body. -/
structure FilterResult where
  mem : List UInt8
  pos : ℕ
  out : List OutBuf
  body : RequestBody

/-- The loop `for ( ;; )` over one buffer.  A round that goes on uses at least
one byte of the buffer. -/
def filterLoop (conf : BodyConf) :
    ℕ → FilterLoop → Except BodyFault FilterResult
  | 0, _ => .error .endless
  | fuel + 1, l =>
      match ngxHttpParseChunked l.chunked (l.mem.drop l.pos) with
      | .ok ctx read =>
          let l := { l with chunked := ctx, pos := l.pos + read }
          if conf.clientMaxBodySize ≠ 0 ∧
              (conf.clientMaxBodySize : ℤ) - l.contentLengthN < ctx.size then
            .error .tooLarge
          else filterLoop conf fuel l.chunk
      | .done ctx read =>
          .ok
            { mem := l.mem
              pos := l.pos + read
              out := l.chain ++ [.lastBuf]
              body :=
                { rest := 0
                  chunked := ctx
                  contentLengthN := l.contentLengthN } }
      | .again ctx read =>
          .ok
            { mem := l.mem
              pos := l.pos + read
              out := l.chain
              body :=
                { rest := max ctx.length conf.largeClientHeaderBuffersSize
                  chunked := ctx
                  contentLengthN := l.contentLengthN } }
      | .error => .error .badRequest

/-- `ngx_http_request_body_chunked_filter` on one buffer that holds `input`. -/
def ngxHttpRequestBodyChunkedFilter (conf : BodyConf) (body : RequestBody)
    (input : List UInt8) : Except BodyFault FilterResult :=
  let body :=
    if body.rest = -1 then
      { body with
        chunked := .new
        contentLengthN := 0
        rest := conf.largeClientHeaderBuffersSize }
    else body
  filterLoop conf (input.length + 1)
    { mem := input
      pos := 0
      out := []
      b := none
      chunked := body.chunked
      contentLengthN := body.contentLengthN }

/-- The bytes of the emitted buffers. -/
def FilterResult.emitted (res : FilterResult) : List UInt8 :=
  res.out.flatMap (OutBuf.contents res.mem)

/-- The bytes of the buffer that were not read. -/
def FilterResult.left (res : FilterResult) : List UInt8 :=
  res.mem.drop res.pos

end MultiversionBalancer.Http
