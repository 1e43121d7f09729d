import MultiversionBalancer.Http.RangeParse

/-!
# The body of a single range

`ngx_http_range_singlepart_body` passes on the part of the body that lies in one
range. The body comes in any number of chains of buffers, in memory or in files, and
`ctx->offset` is the place in the body where the next buffer starts.
-/

namespace MultiversionBalancer.Http.Range

/-! ## Buffers -/

/-- The elements of a list from `i` on and before `j`. -/
def slice {α : Type*} (xs : List α) (i j : ℤ) : List α :=
  (xs.take j.toNat).drop i.toNat

section

variable {α : Type*}

theorem slice_append (xs ys : List α) (i j : ℤ) :
    slice (xs ++ ys) i j = slice xs i j ++ slice ys (i - xs.length) (j - xs.length) := by
  unfold slice
  rw [List.take_append, List.drop_append]
  congr 1
  have hstop : (j - xs.length).toNat = j.toNat - xs.length := by omega
  rw [hstop, List.length_take]
  by_cases hle : xs.length ≤ j.toNat
  · congr 1
    omega
  · have hzero : j.toNat - xs.length = 0 := by omega
    simp [hzero]

theorem slice_eq_nil_of_stop {xs : List α} {i j : ℤ} (h : j ≤ 0) : slice xs i j = [] := by
  simp [slice, Int.toNat_of_nonpos h]

theorem slice_eq_nil_of_start {xs : List α} {i j : ℤ} (h : xs.length ≤ i) :
    slice xs i j = [] := by
  unfold slice
  apply List.drop_eq_nil_of_le
  rw [List.length_take]
  omega

theorem length_slice {xs : List α} {i j : ℤ} (h0 : 0 ≤ i) (hij : i ≤ j)
    (hj : j ≤ xs.length) : ((slice xs i j).length : ℤ) = j - i := by
  simp only [slice, List.length_drop, List.length_take]
  omega

theorem slice_start_add {xs : List α} {i j n : ℤ} (h0 : 0 ≤ i) (hn : 0 ≤ n) :
    slice xs (i + n) j = (slice xs i j).drop n.toNat := by
  unfold slice
  rw [List.drop_drop]
  congr 1
  omega

theorem slice_stop_sub {xs : List α} {i j n : ℤ} (h0 : 0 ≤ i) (hn : 0 ≤ n)
    (hle : n ≤ j - i) : slice xs i (j - n) = (slice xs i j).take (j - i - n).toNat := by
  unfold slice
  rw [List.drop_take, List.drop_take, List.take_take]
  congr 1
  omega

theorem slice_drop {xs : List α} {i j n : ℤ} (h0 : 0 ≤ n) (hn : n ≤ i) (hj : n ≤ j) :
    slice (xs.drop n.toNat) (i - n) (j - n) = slice xs i j := by
  unfold slice
  rw [List.drop_take, List.drop_take, List.drop_drop]
  congr 1
  · omega
  · congr 1
    omega

theorem slice_slice {xs : List α} {a b i j : ℤ} (ha : 0 ≤ a) (hi : 0 ≤ i) (hij : i ≤ j)
    (hj : j ≤ b - a) : slice (slice xs a b) i j = slice xs (a + i) (a + j) := by
  unfold slice
  rw [List.drop_take, List.drop_take, List.drop_take, List.drop_take, List.drop_drop,
    List.take_take]
  congr 1
  · omega
  · congr 1
    omega

end

/-- `ngx_buf_t`: `pos` and `last` point into `block`, `filePos` and `fileLast` into
the contents of `file`. -/
structure Buf where
  block : List UInt8 := []
  pos : ℤ := 0
  last : ℤ := 0
  file : List UInt8 := []
  filePos : ℤ := 0
  fileLast : ℤ := 0
  temporary : Bool := false
  memory : Bool := false
  mmap : Bool := false
  inFile : Bool := false
  flush : Bool := false
  sync : Bool := false
  lastBuf : Bool := false
  lastInChain : Bool := false
deriving DecidableEq, Repr

namespace Buf

def inMemory (b : Buf) : Bool :=
  b.temporary || b.memory || b.mmap

def special (b : Buf) : Bool :=
  (b.flush || b.lastBuf || b.sync) && !b.inMemory && !b.inFile

def size (b : Buf) : ℤ :=
  if b.inMemory then b.last - b.pos else b.fileLast - b.filePos

/-- The bytes that a buffer stands for. -/
def content (b : Buf) : List UInt8 :=
  if b.inMemory then slice b.block b.pos b.last
  else if b.inFile then slice b.file b.filePos b.fileLast
  else []

/-- The pointers of a buffer bound a part of what they point into, and a buffer that
is neither in memory nor in a file is empty. -/
structure Valid (b : Buf) : Prop where
  memory : b.inMemory = true → 0 ≤ b.pos ∧ b.pos ≤ b.last ∧ b.last ≤ b.block.length
  file : b.inFile = true →
    0 ≤ b.filePos ∧ b.filePos ≤ b.fileLast ∧ b.fileLast ≤ b.file.length
  none : b.inMemory = false → b.inFile = false → b.fileLast = b.filePos

/-- The bytes before offset `n` of the buffer are given up. -/
def skip (b : Buf) (n : ℤ) : Buf :=
  { b with
    filePos := if b.inFile then b.filePos + n else b.filePos
    pos := if b.inMemory then b.pos + n else b.pos }

/-- The last `n` bytes of the buffer are given up. -/
def cut (b : Buf) (n : ℤ) : Buf :=
  { b with
    fileLast := if b.inFile then b.fileLast - n else b.fileLast
    last := if b.inMemory then b.last - n else b.last }

theorem content_length {b : Buf} (h : b.Valid) : (b.content.length : ℤ) = b.size := by
  unfold content size
  cases hmem : b.inMemory with
  | true =>
      obtain ⟨h0, hle, hlen⟩ := h.memory hmem
      exact length_slice h0 hle hlen
  | false =>
      cases hfile : b.inFile with
      | true =>
          obtain ⟨h0, hle, hlen⟩ := h.file hfile
          exact length_slice h0 hle hlen
      | false => simp [h.none hmem hfile]

theorem content_skip {b : Buf} (h : b.Valid) {n : ℤ} (hn : 0 ≤ n) :
    (b.skip n).content = b.content.drop n.toNat := by
  have hmem' : (b.skip n).inMemory = b.inMemory := rfl
  unfold content
  rw [hmem']
  cases hmem : b.inMemory with
  | true =>
      simp only [if_true, skip, hmem]
      exact slice_start_add (h.memory hmem).1 hn
  | false =>
      cases hfile : b.inFile with
      | true =>
          simp only [if_true, skip, hfile, Bool.false_eq_true, if_false]
          exact slice_start_add (h.file hfile).1 hn
      | false => simp [skip, hfile]

theorem content_cut {b : Buf} (hpos : b.inMemory = true → 0 ≤ b.pos)
    (hfilePos : b.inFile = true → 0 ≤ b.filePos) {n : ℤ} (hn : 0 ≤ n) (hle : n ≤ b.size) :
    (b.cut n).content = b.content.take (b.size - n).toNat := by
  have hmem' : (b.cut n).inMemory = b.inMemory := rfl
  unfold content size at *
  rw [hmem']
  cases hmem : b.inMemory with
  | true =>
      simp only [if_true, cut, hmem] at hle ⊢
      exact slice_stop_sub (hpos hmem) hn hle
  | false =>
      cases hfile : b.inFile with
      | true =>
          simp only [if_true, cut, hfile, hmem, Bool.false_eq_true, if_false] at hle ⊢
          exact slice_stop_sub (hfilePos hfile) hn hle
      | false => simp [cut, hfile]

end Buf

/-! ## The filter -/

/-- A turn of the loop of `ngx_http_range_singlepart_body` over a buffer that starts
at `start`: whether the buffer is linked to `out`, and the buffer. -/
def singlepartBuf (isMain : Bool) (range : HttpRange) (start : ℤ) (buf : Buf) :
    Bool × Buf :=
  let last := start + buf.size
  if buf.special then
    if range.stop ≤ start then (false, buf) else (true, buf)
  else if range.stop ≤ start ∨ last ≤ range.start then
    (false,
      { buf with
        filePos := if buf.inFile then buf.fileLast else buf.filePos
        pos := buf.last
        sync := true })
  else
    let buf := if start < range.start then buf.skip (range.start - start) else buf
    if range.stop ≤ last then
      (true, { buf.cut (last - range.stop) with lastBuf := isMain, lastInChain := true })
    else (true, buf)

/-- The loop of `ngx_http_range_singlepart_body` over the chain `in`: the offset after
it, and the buffers as it leaves them, each with whether it is linked to `out`. -/
def singlepartLoop (isMain : Bool) (range : HttpRange) :
    ℤ → List Buf → ℤ × List (Bool × Buf)
  | offset, [] => (offset, [])
  | offset, buf :: cl =>
      let turn := singlepartBuf isMain range offset buf
      let rest := singlepartLoop isMain range (offset + buf.size) cl
      (rest.1, turn :: rest.2)

/-- `ngx_http_range_singlepart_body`: `ctx->offset`, and the chain `out`. -/
def ngxHttpRangeSinglepartBody (isMain : Bool) (range : HttpRange) (offset : ℤ)
    (chain : List Buf) : ℤ × List Buf :=
  let loop := singlepartLoop isMain range offset chain
  (loop.1, (loop.2.filter Prod.fst).map Prod.snd)

/-- The calls of the filter over the chains of a body, and all that they pass on. -/
def singlepartRun (isMain : Bool) (range : HttpRange) :
    ℤ → List (List Buf) → ℤ × List Buf
  | offset, [] => (offset, [])
  | offset, chain :: chains =>
      let call := ngxHttpRangeSinglepartBody isMain range offset chain
      let rest := singlepartRun isMain range call.1 chains
      (rest.1, call.2 ++ rest.2)

/-! ## What a turn passes on -/

/-- The bytes of a chain of buffers. -/
def chainContent (chain : List Buf) : List UInt8 :=
  chain.flatMap Buf.content

def linked (turns : List (Bool × Buf)) : List Buf :=
  (turns.filter Prod.fst).map Prod.snd

theorem special_content {b : Buf} (h : b.special = true) : b.content = [] := by
  obtain ⟨⟨-, hmem⟩, hfile⟩ : ((_ ∨ _) ∧ b.inMemory = false) ∧ b.inFile = false := by
    simpa [Buf.special, or_assoc] using h
  simp [Buf.content, hmem, hfile]

theorem trimmed_content {b : Buf} (h : b.Valid) (low high : ℤ) (hlow : low < b.size)
    (hhigh : max low 0 < high) (hstop : high ≤ b.size) :
    ((if 0 < low then b.skip low else b).cut (b.size - high)).content =
      slice b.content low high := by
  have hlen := b.content_length h
  by_cases hpos : 0 < low
  · rw [if_pos hpos]
    have hsize : (b.skip low).size = b.size - low := by
      have hmem' : (b.skip low).inMemory = b.inMemory := rfl
      unfold Buf.size
      rw [hmem']
      cases hmem : b.inMemory with
      | true =>
          simp only [if_true, Buf.skip, hmem]
          omega
      | false =>
          cases hfile : b.inFile with
          | true =>
              simp only [Bool.false_eq_true, if_false, Buf.skip, hfile, if_true]
              omega
          | false =>
              have hzero := h.none hmem hfile
              simp only [Buf.size, hmem, Bool.false_eq_true, if_false] at hlow
              omega
    rw [Buf.content_cut ?_ ?_ (by omega) (by omega), Buf.content_skip h hpos.le, hsize]
    · unfold slice
      rw [List.drop_take]
      congr 1
      omega
    · intro hmem
      have hmem' : b.inMemory = true := hmem
      have h0 := (h.memory hmem').1
      simp only [Buf.skip, hmem', if_true]
      omega
    · intro hfile
      have hfile' : b.inFile = true := hfile
      have h0 := (h.file hfile').1
      simp only [Buf.skip, hfile', if_true]
      omega
  · rw [if_neg hpos, Buf.content_cut (fun hm => (h.memory hm).1) (fun hf => (h.file hf).1)
      (by omega) (by omega)]
    have hzero : low.toNat = 0 := by omega
    unfold slice
    rw [hzero, List.drop_zero]
    congr 1
    omega

/-- A turn passes on the bytes of the buffer that lie in the range. -/
theorem singlepartBuf_content {isMain : Bool} {range : HttpRange} {start : ℤ} {buf : Buf}
    (h : buf.Valid) (hrange : range.start < range.stop) :
    chainContent (linked [singlepartBuf isMain range start buf]) =
      slice buf.content (range.start - start) (range.stop - start) := by
  have hlen := buf.content_length h
  unfold singlepartBuf
  by_cases hspecial : buf.special = true
  · have hnil := special_content hspecial
    simp only [if_pos hspecial]
    split <;> simp [linked, chainContent, hnil, slice]
  · by_cases hskip : range.stop ≤ start ∨ start + buf.size ≤ range.start
    · simp only [if_neg hspecial, if_pos hskip]
      symm
      rcases hskip with hstop | hstart
      · exact slice_eq_nil_of_stop (by omega)
      · exact slice_eq_nil_of_start (by omega)
    · have hif : start < range.start ↔ 0 < range.start - start := sub_pos.symm
      simp only [if_neg hspecial, if_neg hskip, hif]
      by_cases hstop : range.stop ≤ start + buf.size
      · have hcut : start + buf.size - range.stop = buf.size - (range.stop - start) := by
          omega
        simp only [if_pos hstop, hcut]
        refine Eq.trans ?_ (trimmed_content h (range.start - start)
          (range.stop - start) (by omega) (by omega) (by omega))
        exact List.append_nil _
      · simp only [if_neg hstop]
        refine Eq.trans (List.append_nil _) ?_
        have hwhole : slice buf.content (range.start - start) (range.stop - start) =
            buf.content.drop (range.start - start).toNat := by
          unfold slice
          rw [List.take_of_length_le (by omega)]
        rw [hwhole]
        split
        · next hpos => exact Buf.content_skip h hpos.le
        · next hneg => rw [Int.toNat_of_nonpos (by omega), List.drop_zero]

/-! ## What the calls pass on -/

variable {isMain : Bool} {range : HttpRange}

theorem linked_append (xs ys : List (Bool × Buf)) :
    linked (xs ++ ys) = linked xs ++ linked ys := by
  simp [linked]

theorem chainContent_append (xs ys : List Buf) :
    chainContent (xs ++ ys) = chainContent xs ++ chainContent ys :=
  List.flatMap_append

/-- The sum of the sizes of a chain. -/
def chainSize (chain : List Buf) : ℤ :=
  (chain.map Buf.size).sum

theorem chainContent_length {chain : List Buf} (h : ∀ b ∈ chain, b.Valid) :
    ((chainContent chain).length : ℤ) = chainSize chain := by
  induction chain with
  | nil => rfl
  | cons b chain ih =>
      have hb := b.content_length (h b (by simp))
      have hrest := ih (fun c hc => h c (by simp [hc]))
      simp only [chainContent, chainSize, List.flatMap_cons, List.length_append,
        List.map_cons, List.sum_cons] at hrest ⊢
      omega

theorem singlepartLoop_append (offset : ℤ) (xs ys : List Buf) :
    singlepartLoop isMain range offset (xs ++ ys) =
      ((singlepartLoop isMain range (singlepartLoop isMain range offset xs).1 ys).1,
        (singlepartLoop isMain range offset xs).2 ++
          (singlepartLoop isMain range (singlepartLoop isMain range offset xs).1 ys).2) := by
  induction xs generalizing offset with
  | nil => rfl
  | cons b xs ih => simp only [List.cons_append, singlepartLoop, ih]

theorem singlepartRun_eq_loop (offset : ℤ) (chains : List (List Buf)) :
    singlepartRun isMain range offset chains =
      ngxHttpRangeSinglepartBody isMain range offset chains.flatten := by
  induction chains generalizing offset with
  | nil => rfl
  | cons chain chains ih =>
      simp only [singlepartRun, ih, List.flatten_cons]
      simp only [ngxHttpRangeSinglepartBody, singlepartLoop_append, List.filter_append,
        List.map_append]

theorem singlepartLoop_content {offset : ℤ} {chain : List Buf}
    (hrange : range.start < range.stop) (h : ∀ b ∈ chain, b.Valid) :
    chainContent (linked (singlepartLoop isMain range offset chain).2) =
      slice (chainContent chain) (range.start - offset) (range.stop - offset) := by
  induction chain generalizing offset with
  | nil => simp [singlepartLoop, linked, chainContent, slice]
  | cons b chain ih =>
      have hb := h b (by simp)
      have hlen := b.content_length hb
      have hturn : (singlepartLoop isMain range offset (b :: chain)).2 =
          [singlepartBuf isMain range offset b] ++
            (singlepartLoop isMain range (offset + b.size) chain).2 := rfl
      rw [hturn, linked_append, chainContent_append, singlepartBuf_content hb hrange,
        ih (fun c hc => h c (by simp [hc]))]
      have hcons : chainContent (b :: chain) = b.content ++ chainContent chain := by
        simp [chainContent]
      rw [hcons, slice_append]
      congr 2 <;> omega

/-! ## The mark of the last buffer -/

/-- The number of buffers with `last_buf`. -/
def lastBufs (chain : List Buf) : ℕ :=
  chain.countP Buf.lastBuf

theorem singlepartLoop_after {offset : ℤ} {chain : List Buf}
    (h : ∀ b ∈ chain, b.Valid) (hstop : range.stop ≤ offset) :
    linked (singlepartLoop isMain range offset chain).2 = [] := by
  induction chain generalizing offset with
  | nil => rfl
  | cons b chain ih =>
      have hlen := b.content_length (h b (by simp))
      have hrest := ih (fun c hc => h c (by simp [hc]))
        (show range.stop ≤ offset + b.size by omega)
      have hturn : (singlepartBuf isMain range offset b).1 = false := by
        unfold singlepartBuf
        by_cases hspecial : b.special = true
        · simp [hspecial, hstop]
        · simp [hspecial, hstop]
      simpa [singlepartLoop, linked, hturn] using hrest

/-- `last_buf` stands only where the body ends. -/
def MarksEnd (chain : List Buf) : Prop :=
  ∀ xs b ys, chain = xs ++ b :: ys → b.lastBuf = true → chainContent ys = []

theorem MarksEnd.tail {b : Buf} {chain : List Buf} (h : MarksEnd (b :: chain)) :
    MarksEnd chain :=
  fun xs c ys hchain => h (b :: xs) c ys (by rw [hchain]; rfl)

theorem marksEnd_of_last {xs : List Buf} {b : Buf} (h : ∀ c ∈ xs, c.lastBuf = false) :
    MarksEnd (xs ++ [b]) := by
  intro us c ys hsplit hlast
  rcases List.eq_nil_or_concat ys with rfl | ⟨zs, d, rfl⟩
  · rfl
  · have hsplit' : xs ++ [b] = (us ++ c :: zs) ++ [d] := by simpa using hsplit
    obtain ⟨rfl, -⟩ := List.append_inj' hsplit' rfl
    rw [h c (by simp)] at hlast
    exact absurd hlast Bool.false_ne_true

theorem singlepartLoop_lastBufs {offset : ℤ} {chain : List Buf}
    (hrange : range.start < range.stop) (h : ∀ b ∈ chain, b.Valid)
    (hmarks : MarksEnd chain) (hoffset : offset < range.stop)
    (hstop : range.stop ≤ offset + chainSize chain) :
    lastBufs (linked (singlepartLoop isMain range offset chain).2) =
      if isMain then 1 else 0 := by
  induction chain generalizing offset with
  | nil =>
      simp only [chainSize, List.map_nil, List.sum_nil] at hstop
      omega
  | cons b chain ih =>
      have hb := h b (by simp)
      have hchain : ∀ c ∈ chain, c.Valid := fun c hc => h c (by simp [hc])
      have hlen := b.content_length hb
      have hturn : (singlepartLoop isMain range offset (b :: chain)).2 =
          [singlepartBuf isMain range offset b] ++
            (singlepartLoop isMain range (offset + b.size) chain).2 := rfl
      have hcount : lastBufs (linked (singlepartLoop isMain range offset (b :: chain)).2) =
          lastBufs (linked [singlepartBuf isMain range offset b]) +
            lastBufs (linked (singlepartLoop isMain range (offset + b.size) chain).2) := by
        rw [hturn, linked_append, lastBufs, List.countP_append]
        rfl
      rw [hcount]
      by_cases hend : range.stop ≤ offset + b.size
      · -- the range ends in this buffer
        rw [singlepartLoop_after hchain hend]
        have hspecial : ¬ b.special = true := by
          intro hs
          rw [special_content hs] at hlen
          simp at hlen
          omega
        have hskip : ¬ (range.stop ≤ offset ∨ offset + b.size ≤ range.start) := by omega
        cases isMain <;>
          simp [singlepartBuf, hspecial, hskip, hend, linked, lastBufs]
      · have hmark : b.lastBuf = false := by
          by_contra hb'
          have hnil := hmarks [] b chain rfl (by simpa using hb')
          have hsize := chainContent_length hchain
          simp only [hnil, List.length_nil, chainSize, List.map_cons, List.sum_cons]
            at hsize hstop
          omega
        have hzero : lastBufs (linked [singlepartBuf isMain range offset b]) = 0 := by
          unfold singlepartBuf
          by_cases hspecial : b.special = true
          · by_cases hafter : range.stop ≤ offset <;>
              simp [hspecial, hafter, linked, lastBufs, hmark]
          · by_cases hskip : range.stop ≤ offset ∨ offset + b.size ≤ range.start
            · simp [hspecial, hskip, linked, lastBufs]
            · by_cases hstart : offset < range.start <;>
                simp [hspecial, hskip, hend, hstart, linked, lastBufs, Buf.skip, hmark]
        rw [hzero, zero_add]
        refine ih hchain hmarks.tail (by omega) ?_
        simp only [chainSize, List.map_cons, List.sum_cons] at hstop ⊢
        omega

/-- Over every division of the body, the filter passes on the bytes of the range, and
marks the end of the main request once. -/
theorem singlepartRun_spec {offset : ℤ} {chains : List (List Buf)} {body : List UInt8}
    (hrange : range.start < range.stop) (hstop : range.stop ≤ body.length)
    (h0 : 0 ≤ offset) (hoffset : offset ≤ range.start)
    (h : ∀ b ∈ chains.flatten, b.Valid) (hmarks : MarksEnd chains.flatten)
    (hbody : chainContent chains.flatten = body.drop offset.toNat) :
    chainContent (singlepartRun isMain range offset chains).2 =
        slice body range.start range.stop ∧
      lastBufs (singlepartRun isMain range offset chains).2 = if isMain then 1 else 0 := by
  rw [singlepartRun_eq_loop]
  have hout : (ngxHttpRangeSinglepartBody isMain range offset chains.flatten).2 =
      linked (singlepartLoop isMain range offset chains.flatten).2 := rfl
  rw [hout]
  refine ⟨?_, ?_⟩
  · rw [singlepartLoop_content hrange h, hbody]
    exact slice_drop h0 hoffset (by omega)
  · have hsize := chainContent_length h
    rw [hbody, List.length_drop] at hsize
    exact singlepartLoop_lastBufs hrange h hmarks (by omega) (by omega)

end MultiversionBalancer.Http.Range
