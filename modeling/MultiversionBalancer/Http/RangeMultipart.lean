import MultiversionBalancer.Core.Sprintf
import MultiversionBalancer.Http.RangeBody

/-!
# Bodies of several ranges

`ngx_http_range_multipart_header` writes the text before each part and announces the
length of the response; `ngx_http_range_multipart_body` builds the response from a body
in one buffer.
-/

namespace MultiversionBalancer.Http.Range

def ngxAtomicTLen : ℕ := 20

def crlf : List UInt8 := [cr, lf]

/-- The bytes that `ngx_sprintf` writes. -/
def textBytes (t : Text) : List UInt8 :=
  t.map byte

def offText (n : ℤ) : List UInt8 :=
  textBytes (ngxSprintfInt n)

/-- `%0muA`. -/
def boundaryText (boundary : ℕ) : List UInt8 :=
  textBytes (ngxSprintfNum boundary '0' ngxAtomicTLen)

/-- The fields of `r->headers_out` that the filter reads and writes. -/
structure HeadersOut where
  contentType : List UInt8
  contentTypeLen : ℕ
  charset : List UInt8
  contentLengthN : ℤ
deriving DecidableEq, Repr

/-- `ngx_http_range_filter_ctx_t`, each range with its `content_range`. -/
structure FilterCtx where
  offset : ℤ
  boundaryHeader : List UInt8
  ranges : List (HttpRange × List UInt8)
deriving DecidableEq, Repr

def boundaryHeader (out : HeadersOut) (boundary : ℕ) : List UInt8 :=
  crlf ++ bytes "--" ++ boundaryText boundary ++ crlf ++
    (if out.contentTypeLen = out.contentType.length ∧ out.charset.length ≠ 0 then
      bytes "Content-Type: " ++ out.contentType ++ bytes "; charset=" ++ out.charset ++ crlf
    else if out.contentType.length ≠ 0 then
      bytes "Content-Type: " ++ out.contentType ++ crlf
    else []) ++
    bytes "Content-Range: bytes "

def contentRange (contentLengthN : ℤ) (range : HttpRange) : List UInt8 :=
  offText range.start ++ bytes "-" ++ offText (offT (range.stop - 1)) ++ bytes "/" ++
    offText contentLengthN ++ crlf ++ crlf

def lastBoundarySize : ℕ :=
  4 + ngxAtomicTLen + 4

/-- `len` after the loop over the ranges. -/
def announcedLength (header : List UInt8) : ℤ → List (HttpRange × List UInt8) → ℤ
  | len, [] => len
  | len, (range, text) :: ranges =>
      announcedLength header
        (offT (len + (header.length + text.length + (range.stop - range.start)))) ranges

/-- `ngx_http_range_multipart_header`, up to the call of the next filter. -/
def ngxHttpRangeMultipartHeader (out : HeadersOut) (boundary : ℕ) (offset : ℤ)
    (ranges : List HttpRange) : FilterCtx × HeadersOut :=
  let header := boundaryHeader out boundary
  let ranges := ranges.map fun range => (range, contentRange out.contentLengthN range)
  let contentType := bytes "multipart/byteranges; boundary=" ++ boundaryText boundary
  (⟨offset, header, ranges⟩,
    { contentType
      contentTypeLen := contentType.length
      charset := []
      contentLengthN := announcedLength header lastBoundarySize ranges })

/-- The three buffers of a range in `ngx_http_range_multipart_body`. -/
def multipartBufs (header : List UInt8) (buf : Buf) (part : HttpRange × List UInt8) :
    List Buf :=
  [{ memory := true, block := header, last := header.length },
    { temporary := true, block := part.2, last := part.2.length },
    { inFile := buf.inFile
      temporary := buf.temporary
      memory := buf.memory
      mmap := buf.mmap
      file := buf.file
      block := buf.block
      filePos := if buf.inFile then buf.filePos + part.1.start else 0
      fileLast := if buf.inFile then buf.filePos + part.1.stop else 0
      pos := if buf.inMemory then buf.pos + part.1.start else 0
      last := if buf.inMemory then buf.pos + part.1.stop else 0 }]

def lastBoundaryBuf (header : List UInt8) : Buf :=
  let text := header.take (4 + ngxAtomicTLen) ++ bytes "--" ++ crlf
  { temporary := true, lastBuf := true, block := text, last := text.length }

/-- `ngx_http_range_multipart_body`: the chain that it passes on. -/
def ngxHttpRangeMultipartBody (ctx : FilterCtx) (buf : Buf) : List Buf :=
  ctx.ranges.flatMap (multipartBufs ctx.boundaryHeader buf) ++
    [lastBoundaryBuf ctx.boundaryHeader]

/-- `ngx_http_range_test_overlapped`: `ctx->offset`, or `NGX_ERROR`. -/
def ngxHttpRangeTestOverlapped (ctx : FilterCtx) (buf : Buf) : Option ℤ :=
  if ctx.offset ≠ 0 then none
  else if buf.lastBuf = false ∧
      ctx.ranges.any (fun part =>
        decide (ctx.offset > part.1.start ∨ ctx.offset + buf.size < part.1.stop)) then
    none
  else some buf.size

/-- `ngx_http_range_body_filter`: the chain that it passes on, or `NGX_ERROR`. -/
def ngxHttpRangeBodyFilter (isMain : Bool) (ctx : FilterCtx) (chain : List Buf) :
    Option (FilterCtx × List Buf) :=
  match chain, ctx.ranges with
  | [], _ => some (ctx, [])
  | chain, [(range, _)] =>
      let call := ngxHttpRangeSinglepartBody isMain range ctx.offset chain
      some ({ ctx with offset := call.1 }, call.2)
  | buf :: cl, _ =>
      if buf.special then some (ctx, buf :: cl)
      else
        match ngxHttpRangeTestOverlapped ctx buf with
        | none => none
        | some offset => some ({ ctx with offset }, ngxHttpRangeMultipartBody ctx buf)

/-! ## The announced length -/

/-- The number of bytes of a part. -/
def partSize (header : List UInt8) (part : HttpRange × List UInt8) : ℤ :=
  header.length + part.2.length + (part.1.stop - part.1.start)

/-- The number of bytes of the response: its parts and the last boundary. -/
def multipartSize (out : HeadersOut) (boundary : ℕ) (ranges : List HttpRange) : ℤ :=
  lastBoundarySize +
    (ranges.map fun range =>
      partSize (boundaryHeader out boundary)
        (range, contentRange out.contentLengthN range)).sum

theorem offT_offT_add (x y : ℤ) : offT (offT x + y) = offT (x + y) :=
  Int.bmod_add_bmod

theorem offT_eq_self_iff {x : ℤ} (h : 0 ≤ x) : offT x = x ↔ x < 2 ^ 63 := by
  refine ⟨fun heq => ?_, fun hlt => offT_of_lt (by omega) hlt⟩
  have hlt : offT x < (2 ^ 64 + 1) / 2 := Int.bmod_lt (by decide)
  omega

theorem announcedLength_eq (header : List UInt8) (len : ℤ)
    (ranges : List (HttpRange × List UInt8)) :
    announcedLength header (offT len) ranges =
      offT (len + (ranges.map (partSize header)).sum) := by
  induction ranges generalizing len with
  | nil => simp [announcedLength]
  | cons part ranges ih =>
      rw [announcedLength, offT_offT_add, ih, List.map_cons, List.sum_cons, add_assoc]
      rfl

theorem multipartHeader_contentLengthN (out : HeadersOut) (boundary : ℕ) (offset : ℤ)
    (ranges : List HttpRange) :
    (ngxHttpRangeMultipartHeader out boundary offset ranges).2.contentLengthN =
      offT (multipartSize out boundary ranges) := by
  have hlast : (lastBoundarySize : ℤ) = offT lastBoundarySize := by decide
  simp only [ngxHttpRangeMultipartHeader]
  rw [hlast, announcedLength_eq, List.map_map]
  rfl

/-! ## The response -/

theorem boundaryText_length {boundary : ℕ} (h : boundary < 2 ^ 64) :
    (boundaryText boundary).length = ngxAtomicTLen := by
  have hdigits : (Nat.toDigits 10 boundary).length ≤ 20 :=
    (Nat.length_toDigits_le_iff (by decide) (by decide)).mpr (by omega)
  simp only [boundaryText, textBytes, ngxSprintfNum, ngxAtomicTLen, List.length_map,
    List.length_append, List.length_replicate]
  omega

theorem content_of_text {b : Buf} (hmem : b.inMemory = true) (hpos : b.pos = 0)
    (hlast : b.last = b.block.length) : b.content = b.block := by
  simp [Buf.content, hmem, hpos, hlast, slice]

theorem lastBoundaryBuf_content (out : HeadersOut) {boundary : ℕ} (h : boundary < 2 ^ 64) :
    (lastBoundaryBuf (boundaryHeader out boundary)).content.length = lastBoundarySize := by
  have htext := boundaryText_length h
  have hdash : (bytes "--").length = 2 := rfl
  have hcrlf : crlf.length = 2 := rfl
  have hlen : 4 + ngxAtomicTLen ≤ (boundaryHeader out boundary).length := by
    simp only [boundaryHeader, List.length_append, htext]
    omega
  rw [content_of_text rfl rfl rfl]
  simp only [lastBoundaryBuf, List.length_append, List.length_take,
    Nat.min_eq_left hlen, hdash, hcrlf]
  rfl

/-- A part of the response: its header, its `Content-Range` and the bytes of the
range. -/
theorem multipartBufs_content {header text : List UInt8} {buf : Buf} {range : HttpRange}
    (h : buf.Valid) (h0 : 0 ≤ range.start) (hlt : range.start < range.stop)
    (hstop : range.stop ≤ buf.size) :
    chainContent (multipartBufs header buf (range, text)) =
      header ++ (text ++ slice buf.content range.start range.stop) := by
  simp only [chainContent, multipartBufs, List.flatMap_cons, List.flatMap_nil,
    List.append_nil]
  congr 1
  · exact content_of_text rfl rfl rfl
  · congr 1
    · exact content_of_text rfl rfl rfl
    · unfold Buf.content Buf.size at *
      cases hmem : buf.inMemory with
      | true =>
          obtain ⟨hpos, hle, hlen⟩ := h.memory hmem
          have hmem' : (buf.temporary || buf.memory || buf.mmap) = true := hmem
          simp only [hmem, if_true] at hstop
          simp only [Buf.inMemory, hmem', if_true]
          exact (slice_slice hpos h0 hlt.le hstop).symm
      | false =>
          have hmem' : (buf.temporary || buf.memory || buf.mmap) = false := hmem
          simp only [hmem, Bool.false_eq_true, if_false] at hstop
          cases hfile : buf.inFile with
          | true =>
              obtain ⟨hpos, hle, hlen⟩ := h.file hfile
              simp only [Buf.inMemory, hmem', if_true, Bool.false_eq_true, if_false]
              exact (slice_slice hpos h0 hlt.le hstop).symm
          | false =>
              have hzero := h.none hmem hfile
              omega

theorem multipartBody_length (out : HeadersOut) {boundary : ℕ} {buf : Buf} (offset : ℤ)
    {ranges : List HttpRange} (hboundary : boundary < 2 ^ 64) (h : buf.Valid)
    (hranges : ∀ range ∈ ranges,
      0 ≤ range.start ∧ range.start < range.stop ∧ range.stop ≤ buf.size) :
    ((chainContent (ngxHttpRangeMultipartBody
        (ngxHttpRangeMultipartHeader out boundary offset ranges).1 buf)).length : ℤ) =
      multipartSize out boundary ranges := by
  have hlast := lastBoundaryBuf_content out hboundary
  have hparts : ((chainContent
      ((ranges.map fun range => (range, contentRange out.contentLengthN range)).flatMap
        (multipartBufs (boundaryHeader out boundary) buf))).length : ℤ) =
      (ranges.map fun range =>
        partSize (boundaryHeader out boundary)
          (range, contentRange out.contentLengthN range)).sum := by
    induction ranges with
    | nil => rfl
    | cons range ranges ih =>
        obtain ⟨h0, hlt, hstop⟩ := hranges range (by simp)
        have hrest := ih (fun r hr => hranges r (by simp [hr]))
        have hlen := buf.content_length h
        have hslice := length_slice h0 hlt.le (hstop.trans hlen.ge)
        rw [List.map_cons, List.flatMap_cons, chainContent_append, List.length_append,
          multipartBufs_content h h0 hlt hstop, List.map_cons, List.sum_cons, ← hrest]
        simp only [partSize, List.length_append]
        omega
  have hbody : chainContent (ngxHttpRangeMultipartBody
      (ngxHttpRangeMultipartHeader out boundary offset ranges).1 buf) =
      chainContent
        ((ranges.map fun range => (range, contentRange out.contentLengthN range)).flatMap
          (multipartBufs (boundaryHeader out boundary) buf)) ++
        (lastBoundaryBuf (boundaryHeader out boundary)).content := by
    simp [ngxHttpRangeMultipartBody, ngxHttpRangeMultipartHeader, chainContent]
  rw [hbody, List.length_append, Nat.cast_add, hparts, hlast, multipartSize]
  exact add_comm _ _

/-- A body in one buffer passes the test for ranges in several buffers. -/
theorem bodyFilter_multipart (isMain : Bool) (ctx : FilterCtx) {buf : Buf}
    (hoffset : ctx.offset = 0) (hseveral : 2 ≤ ctx.ranges.length) (h : buf.Valid)
    (hranges : ∀ part ∈ ctx.ranges,
      0 ≤ part.1.start ∧ part.1.start < part.1.stop ∧ part.1.stop ≤ buf.size) :
    ngxHttpRangeBodyFilter isMain ctx [buf] =
      some ({ ctx with offset := buf.size }, ngxHttpRangeMultipartBody ctx buf) := by
  obtain ⟨first, second, rest, hparts⟩ :
      ∃ first second rest, ctx.ranges = first :: second :: rest := by
    match hcases : ctx.ranges with
    | [] => simp [hcases] at hseveral
    | [_] => simp [hcases] at hseveral
    | first :: second :: rest => exact ⟨first, second, rest, rfl⟩
  have hspecial : ¬ buf.special = true := by
    intro hs
    have hlen := buf.content_length h
    rw [special_content hs] at hlen
    have hfirst := hranges first (by simp [hparts])
    simp only [List.length_nil, Nat.cast_zero] at hlen
    omega
  have hinside : ctx.ranges.any (fun part =>
      decide (ctx.offset > part.1.start ∨ ctx.offset + buf.size < part.1.stop)) = false := by
    rw [List.any_eq_false]
    intro part hpart
    have hbounds := hranges part hpart
    rw [hoffset, decide_eq_true_iff]
    omega
  have htest : ngxHttpRangeTestOverlapped ctx buf = some buf.size := by
    unfold ngxHttpRangeTestOverlapped
    rw [if_neg (not_not.mpr hoffset), if_neg]
    rintro ⟨-, hany⟩
    rw [hinside] at hany
    exact Bool.false_ne_true hany
  simp only [ngxHttpRangeBodyFilter, hparts, if_neg hspecial, htest]

/-! ## Range responses -/

/-- The ranges of an accepted header are the satisfiable specs of a list of byte-range
specs. -/
def ParseExact (value : List UInt8) (contentLength : ℤ) (maxRanges : ℕ) : Prop :=
  ∀ ranges, ngxHttpRangeParse none value contentLength maxRanges = .ok ranges →
    (∃ specs, ByteRangeSpec.SpellsList (cString (value.drop 6)) specs ∧
      ranges = specs.filterMap (ByteRangeSpec.satisfied contentLength)) ∧
    (∀ range ∈ ranges,
      0 ≤ range.start ∧ range.start < range.stop ∧ range.stop ≤ contentLength) ∧
    ranges.length ≤ maxRanges ∧ total ranges ≤ contentLength

/-- The chains hold the body from `offset` on, with `last_buf` only at its end. -/
structure Divides (body : List UInt8) (offset : ℤ) (chains : List (List Buf)) : Prop where
  valid : ∀ b ∈ chains.flatten, b.Valid
  content : chainContent chains.flatten = body.drop offset.toNat
  marks : MarksEnd chains.flatten

/-- The filter passes on the bytes of the range and marks the end of the response. -/
def SinglepartExact (isMain : Bool) (range : HttpRange) (body : List UInt8) (offset : ℤ)
    (chains : List (List Buf)) : Prop :=
  chainContent (singlepartRun isMain range offset chains).2 =
      slice body range.start range.stop ∧
    lastBufs (singlepartRun isMain range offset chains).2 = if isMain then 1 else 0

/-- The response to several ranges has the announced length. -/
def MultipartExact (isMain : Bool) (out : HeadersOut) (boundary : ℕ)
    (ranges : List HttpRange) (buf : Buf) : Prop :=
  ∃ ctx chain,
    ngxHttpRangeBodyFilter isMain (ngxHttpRangeMultipartHeader out boundary 0 ranges).1
      [buf] = some (ctx, chain) ∧
    ((chainContent chain).length : ℤ) =
      (ngxHttpRangeMultipartHeader out boundary 0 ranges).2.contentLengthN

theorem multipartExact_iff {isMain : Bool} {out : HeadersOut} {boundary : ℕ}
    {ranges : List HttpRange} {buf : Buf} (hboundary : boundary < 2 ^ 64)
    (hseveral : 2 ≤ ranges.length) (h : buf.Valid)
    (hranges : ∀ range ∈ ranges,
      0 ≤ range.start ∧ range.start < range.stop ∧ range.stop ≤ buf.size) :
    MultipartExact isMain out boundary ranges buf ↔
      multipartSize out boundary ranges < 2 ^ 63 := by
  have hlen := multipartBody_length out 0 hboundary h hranges
  have hnonneg : 0 ≤ multipartSize out boundary ranges := by omega
  have hfilter := bodyFilter_multipart isMain
    (ngxHttpRangeMultipartHeader out boundary 0 ranges).1 rfl
    (by simpa [ngxHttpRangeMultipartHeader] using hseveral) h
    (by
      intro part hpart
      obtain ⟨range, hrange, rfl⟩ := List.mem_map.mp hpart
      exact hranges range hrange)
  rw [← offT_eq_self_iff hnonneg, ← multipartHeader_contentLengthN out boundary 0 ranges]
  refine ⟨?_, fun heq => ⟨_, _, hfilter, hlen.trans heq.symm⟩⟩
  rintro ⟨ctx, chain, hsome, heq⟩
  obtain ⟨-, rfl⟩ := Prod.mk.inj (Option.some.inj (hfilter.symm.trans hsome))
  rw [← heq, hlen]

/-- The parser and the filter for a single range are exact on every input. The response
to several ranges has the announced length unless that length does not fit in an
`off_t`. -/
theorem range_responses_exact {value : List UInt8} {contentLength : ℤ} {maxRanges : ℕ}
    (hlen : 0 ≤ contentLength) (hmax : contentLength ≤ ngxMaxOffTValue)
    {isMain : Bool} {range : HttpRange} {body : List UInt8} {offset : ℤ}
    {chains : List (List Buf)} (hrange : range.start < range.stop)
    (hstop : range.stop ≤ body.length) (h0 : 0 ≤ offset) (hoffset : offset ≤ range.start)
    (hchains : Divides body offset chains)
    {out : HeadersOut} {boundary : ℕ} {ranges : List HttpRange} {buf : Buf}
    (hboundary : boundary < 2 ^ 64) (hseveral : 2 ≤ ranges.length) (hbuf : buf.Valid)
    (hranges : ∀ range ∈ ranges,
      0 ≤ range.start ∧ range.start < range.stop ∧ range.stop ≤ buf.size) :
    ParseExact value contentLength maxRanges ∧
      SinglepartExact isMain range body offset chains ∧
      (MultipartExact isMain out boundary ranges buf ↔
        multipartSize out boundary ranges < 2 ^ 63) := by
  refine ⟨?_, ?_, multipartExact_iff hboundary hseveral hbuf hranges⟩
  · intro ranges hparse
    exact (ngxHttpRangeParse_ok hlen hmax hparse).2
  · exact singlepartRun_spec hrange hstop h0 hoffset hchains.valid hchains.marks
      hchains.content

/-- A body of four bytes in a buffer in memory, a flush and the end. -/
def smallBody : List Buf :=
  [{ block := bytes "abcd", last := 4, memory := true }, { flush := true },
    { lastBuf := true }]

theorem smallBody_divides : Divides (bytes "abcd") 0 [smallBody] where
  valid := by
    intro b hb
    simp only [List.flatten_cons, List.flatten_nil, List.append_nil, smallBody,
      List.mem_cons, List.not_mem_nil, or_false] at hb
    rcases hb with rfl | rfl | rfl <;> constructor <;> decide
  content := by decide
  marks := by
    have hsplit : [smallBody].flatten = smallBody.take 2 ++ [{ lastBuf := true }] := rfl
    rw [hsplit]
    exact marksEnd_of_last (by decide)

theorem range_responses_exact_abcd :
    ParseExact (bytes "bytes=1-2") 4 1 ∧
      SinglepartExact true ⟨1, 3⟩ (bytes "abcd") 0 [smallBody] ∧
      (MultipartExact true ⟨[], 0, [], 4⟩ 7 [⟨0, 1⟩, ⟨2, 4⟩]
          { block := bytes "abcd", last := 4, memory := true } ↔
        multipartSize ⟨[], 0, [], 4⟩ 7 [⟨0, 1⟩, ⟨2, 4⟩] < 2 ^ 63) :=
  range_responses_exact (by decide) (by decide) (by decide) (by decide) (by decide)
    (by decide) smallBody_divides (by decide) (by decide)
    (by constructor <;> decide) (by decide)

/-- The header of a request for the two halves of the longest file. -/
def twoHalves : List UInt8 :=
  bytes "bytes=0-4611686018427387903,4611686018427387904-9223372036854775806"

def fileBuf (file : List UInt8) : Buf :=
  { inFile := true, file, fileLast := file.length, lastBuf := true }

theorem fileBuf_valid (file : List UInt8) : (fileBuf file).Valid :=
  ⟨fun hmem => absurd hmem Bool.false_ne_true,
    fun _ => ⟨le_refl _, Int.natCast_nonneg _, le_refl _⟩,
    fun _ hfile => absurd hfile.symm Bool.false_ne_true⟩

theorem fileBuf_size (file : List UInt8) : (fileBuf file).size = file.length :=
  sub_zero _

/-- The length of the response to a request for the two halves of the longest file
wraps. -/
theorem announced_length_wraps :
    ngxHttpRangeParse none twoHalves 9223372036854775807 2 =
        .ok [⟨0, 4611686018427387904⟩, ⟨4611686018427387904, 9223372036854775807⟩] ∧
      ∃ file : List UInt8, file.length = 9223372036854775807 ∧
        ¬ MultipartExact true ⟨[], 0, [], 9223372036854775807⟩ 7
          [⟨0, 4611686018427387904⟩, ⟨4611686018427387904, 9223372036854775807⟩]
          (fileBuf file) := by
  obtain ⟨file, hfile⟩ : ∃ file : List UInt8, file.length = 9223372036854775807 :=
    ⟨List.replicate _ 0, List.length_replicate⟩
  refine ⟨by decide +kernel, file, hfile, ?_⟩
  have hsize := fileBuf_size file
  rw [hfile] at hsize
  rw [multipartExact_iff (by decide) (by decide) (fileBuf_valid file) ?_]
  · simp only [multipartSize, partSize, lastBoundarySize, ngxAtomicTLen, List.map_cons,
      List.map_nil, List.sum_cons, List.sum_nil]
    omega
  · rw [hsize]
    decide

end MultiversionBalancer.Http.Range
