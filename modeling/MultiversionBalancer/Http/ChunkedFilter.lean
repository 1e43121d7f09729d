import MultiversionBalancer.Http.Chunked
import Mathlib.Tactic.SplitIfs

/-!
# Chunked bodies, byte by byte

The filter reads a body as a machine does that takes one byte after the other
and keeps the data it has decoded: the cuts between buffers, the chunks that are
copied back and the counter that the filter shares with the parser do not show.
-/

namespace MultiversionBalancer.Http

open Lib

/-! ## The memory of a buffer -/

section Memory

variable {mem : List UInt8} {dst src n : ℕ}

theorem slice_length (mem : List UInt8) (pos last : ℕ) :
    (slice mem pos last).length = min last mem.length - pos := by
  rw [slice, List.length_drop, List.length_take]

theorem slice_add (mem : List UInt8) (pos n : ℕ) :
    slice mem pos (pos + n) = (mem.drop pos).take n := by
  rw [slice, List.drop_take, Nat.add_sub_cancel_left]

theorem memmove_length (hdst : dst ≤ src) (hsrc : src + n ≤ mem.length) :
    (memmove n mem dst src).length = mem.length := by
  rw [memmove, List.length_append, List.length_append, slice_length,
    List.length_take, List.length_drop]
  omega

/-- Bytes behind the source stay as they are. -/
theorem memmove_drop (hdst : dst ≤ src) (hsrc : src + n ≤ mem.length) :
    (memmove n mem dst src).drop (src + n) = mem.drop (src + n) := by
  have hfront : (mem.take dst ++ slice mem src (src + n)).length = dst + n := by
    rw [List.length_append, slice_length, List.length_take]
    omega
  rw [memmove, List.drop_append, hfront, List.drop_eq_nil_of_le (by omega),
    List.nil_append, List.drop_drop]
  congr 1
  omega

/-- Bytes before the target stay as they are. -/
theorem memmove_take (hdst : dst ≤ src) (hsrc : src + n ≤ mem.length) :
    (memmove n mem dst src).take dst = mem.take dst := by
  have hlen : (mem.take dst).length = dst := by
    rw [List.length_take]
    omega
  rw [memmove, List.append_assoc, List.take_left' hlen]

/-- The moved bytes. -/
theorem memmove_slice {start : ℕ} (hstart : start ≤ dst) (hdst : dst ≤ src)
    (hsrc : src + n ≤ mem.length) :
    slice (memmove n mem dst src) start (dst + n) =
      slice mem start dst ++ (mem.drop src).take n := by
  have hfront : (mem.take dst ++ slice mem src (src + n)).length = dst + n := by
    rw [List.length_append, slice_length, List.length_take]
    omega
  rw [slice, memmove, List.take_left' hfront, slice_add,
    List.drop_append_of_le_length, slice]
  rw [List.length_take]
  omega

theorem copyBytes_eq_memmove (hdst : dst ≤ src) (hsrc : src + n ≤ mem.length) :
    copyBytes n mem dst src = memmove n mem dst src := by
  induction n generalizing mem dst src with
  | zero =>
      rw [copyBytes, memmove, slice_add]
      simp
  | succ n ih =>
      have hlt : src < mem.length := by omega
      have hget : mem.getD src 0 = mem[src] := by
        simp [List.getD_eq_getElem?_getD, hlt]
      have htake : (mem.set dst mem[src]).take (dst + 1) =
          mem.take dst ++ [mem[src]] := by
        rw [List.take_add_one, List.take_set_of_le (Nat.le_refl dst)]
        simp [show dst < mem.length by omega]
      have hdrop (k : ℕ) (hk : dst < k) :
          (mem.set dst mem[src]).drop k = mem.drop k :=
        List.drop_set_of_lt hk
      rw [copyBytes, ih (by omega) (by rw [List.length_set]; omega), hget, memmove,
        memmove, slice_add, slice_add, htake, hdrop _ (by omega),
        hdrop _ (by omega), List.drop_eq_getElem_cons hlt, List.take_succ_cons]
      simp [Nat.add_right_comm, Nat.add_assoc]

end Memory

/-! ## The machine -/

/-- A body that is read byte by byte: the state of the parser, and the data that
has been decoded. -/
structure BodyState where
  state : ChunkedState
  size : ℕ
  data : List UInt8

/-- The body before its first byte. -/
def BodyState.new : BodyState where
  state := .chunkStart
  size := 0
  data := []

inductive BodyEnd where
  | done (data : List UInt8)
  | invalid
  | tooLarge

/-- The data up to the end of the current chunk is longer than the limit. -/
def exceeds (limit : ℕ) (s : BodyState) : Prop :=
  limit ≠ 0 ∧ limit < s.data.length + s.size

instance (limit : ℕ) (s : BodyState) : Decidable (exceeds limit s) :=
  inferInstanceAs (Decidable (_ ∧ _))

def takeData (ch : UInt8) (s : BodyState) : BodyState where
  state := if s.size = 1 then .afterData else .chunkData
  size := s.size - 1
  data := s.data ++ [ch]

def stepBody (limit : ℕ) (_ : List UInt8) (ch : UInt8) (s : BodyState) :
    Verdict BodyState BodyEnd :=
  match stepChunked ch s.size s.state with
  | .next state size => .more { s with state := state, size := size }
  | .data => if exceeds limit s then .stop .tooLarge else .more (takeData ch s)
  | .done => .stop (.done s.data)
  | .invalid => .stop .invalid

/-- A size is positive inside a chunk, and fits once its last digit is read. -/
structure SizeOk (state : ChunkedState) (size : ℕ) : Prop where
  pos : state = .chunkData → 0 < size
  ext : state = .chunkExtension ∨ state = .chunkExtensionAlmostDone → 0 < size
  fits : state ≠ .chunkSize → size ≤ maxOff / 16

theorem SizeOk.next {state state' : ChunkedState} {size size' : ℕ} {ch : UInt8}
    (h : SizeOk state size)
    (hstep : stepChunked ch size state = .next state' size') :
    SizeOk state' size' := by
  obtain ⟨hpos, hext, hfits⟩ := h
  cases state with
  | _ =>
      simp only [stepChunked, sizeEnd, lineEnd, lineFeed] at hstep
      repeat' split at hstep
      all_goals cases hstep
      all_goals constructor
      all_goals simp_all
      all_goals omega

theorem state_of_data {state : ChunkedState} {size : ℕ} {ch : UInt8}
    (h : stepChunked ch size state = .data) : state = .chunkData := by
  cases state with
  | chunkData => rfl
  | _ =>
      simp only [stepChunked, sizeEnd, lineEnd, lineFeed] at h
      repeat' split at h
      all_goals cases h

/-- What a result of the parser says about the machine: at `ok` the machine has
come to the data of a chunk, at `again` it has read the whole buffer. -/
def Parsed (limit : ℕ) (seen : List UInt8) (s : BodyState)
    (input : List UInt8) (read : ℕ) : ChunkedResult → Prop
  | .ok ctx n =>
      ∃ k, n = read + k ∧ k < input.length ∧ ctx.state = .chunkData ∧
        SizeOk .chunkData ctx.size ∧
        scan (stepBody limit) seen s input =
          scan (stepBody limit) (seen ++ input.take k)
            ⟨.chunkData, ctx.size, s.data⟩ (input.drop k)
  | .done _ n =>
      ∃ k, n = read + k ∧ k ≤ input.length ∧
        scan (stepBody limit) seen s input =
          .stopped (seen ++ input.take k) (.done s.data) (input.drop k)
  | .again ctx n =>
      n = read + input.length ∧ SizeOk ctx.state ctx.size ∧
        ctx.length = chunkedLength ctx.size ctx.state ∧
        scan (stepBody limit) seen s input =
          .again ⟨ctx.state, ctx.size, s.data⟩
  | .error =>
      (∃ seen' rest,
        scan (stepBody limit) seen s input = .stopped seen' .invalid rest) ∨
        ∃ s', scan (stepBody limit) seen s input = .again s' ∧
          maxOff - 5 < s'.size

/-- A byte of the framing before the rest of the buffer. -/
theorem Parsed.cons {limit read : ℕ} {seen rest : List UInt8} {ch : UInt8}
    {s s' : BodyState} {res : ChunkedResult}
    (hmore : stepBody limit seen ch s = .more s') (hdata : s'.data = s.data)
    (h : Parsed limit (seen ++ [ch]) s' rest (read + 1) res) :
    Parsed limit seen s (ch :: rest) read res := by
  have hscan := scan_cons_more rest hmore
  have hseen (k : ℕ) : seen ++ (ch :: rest).take (k + 1) =
      seen ++ [ch] ++ rest.take k := by
    simp
  cases res with
  | ok ctx n =>
      obtain ⟨k, hn, hk, hstate, hsize, hrest⟩ := h
      refine ⟨k + 1, by omega, by simpa using hk, hstate, hsize, ?_⟩
      rw [hscan, hrest, hseen, hdata]
      rfl
  | done ctx n =>
      obtain ⟨k, hn, hk, hrest⟩ := h
      refine ⟨k + 1, by omega, by simpa using hk, ?_⟩
      rw [hscan, hrest, hseen, hdata]
      rfl
  | again ctx n =>
      obtain ⟨hn, hsize, hlength, hrest⟩ := h
      refine ⟨?_, hsize, hlength, ?_⟩
      · rw [hn, List.length_cons]
        omega
      · rw [hscan, hrest, hdata]
  | error =>
      rw [Parsed, hscan]
      exact h

theorem scanChunked_parsed (limit length read : ℕ) (seen : List UInt8)
    {s : BodyState} (hs : SizeOk s.state s.size) (input : List UInt8) :
    Parsed limit seen s input read
      (scanChunked length read s.state s.size input) := by
  induction input generalizing read seen s with
  | nil =>
      rw [scanChunked, labelData]
      by_cases hbig : maxOff - 5 < s.size
      · rw [if_pos hbig]
        exact .inr ⟨s, rfl, hbig⟩
      · rw [if_neg hbig]
        exact ⟨rfl, hs, rfl, rfl⟩
  | cons ch rest ih =>
      rw [scanChunked]
      cases hstep : stepChunked ch s.size s.state with
      | next state size =>
          have hmore : stepBody limit seen ch s =
              .more { s with state := state, size := size } := by
            rw [stepBody, hstep]
          exact Parsed.cons hmore rfl
            (ih _ _ (s := { s with state := state, size := size }) (hs.next hstep))
      | data =>
          have hdata := state_of_data hstep
          have hfits := hs.fits (by rw [hdata]; decide)
          have hsmall : ¬maxOff - 5 < s.size := by
            rw [maxOff] at hfits ⊢
            omega
          rw [hdata] at hs ⊢
          simp only [labelData, if_neg hsmall]
          refine ⟨0, rfl, by simp, rfl, hs, ?_⟩
          rw [← hdata]
          simp
      | done =>
          have hstop : stepBody limit seen ch s = .stop (.done s.data) := by
            rw [stepBody, hstep]
          exact ⟨1, rfl, by simp, by simpa using scan_cons_stop rest hstop⟩
      | invalid =>
          have hstop : stepBody limit seen ch s = .stop .invalid := by
            rw [stepBody, hstep]
          exact .inl ⟨_, _, scan_cons_stop rest hstop⟩

/-- The machine for a context of the parser; at the end of a chunk the parser
changes its state only at the next call. -/
def ChunkedCtx.body (ctx : ChunkedCtx) (data : List UInt8) : BodyState :=
  if ctx.state = .chunkData ∧ ctx.size = 0 then ⟨.afterData, 0, data⟩
  else ⟨ctx.state, ctx.size, data⟩

theorem parseChunked_eq (ctx : ChunkedCtx) (data input : List UInt8) :
    ngxHttpParseChunked ctx input =
      scanChunked ctx.length 0 (ctx.body data).state (ctx.body data).size
        input := by
  rw [ngxHttpParseChunked, ChunkedCtx.body]
  by_cases hend : ctx.state = .chunkData ∧ ctx.size = 0
  · rw [if_pos hend, if_pos hend, hend.2]
  · rw [if_neg hend, if_neg hend]

theorem body_data (ctx : ChunkedCtx) (data : List UInt8) :
    (ctx.body data).data = data := by
  rw [ChunkedCtx.body]
  split
  · rfl
  · rfl

theorem exceeds_body (limit : ℕ) (ctx : ChunkedCtx) (data : List UInt8) :
    exceeds limit (ctx.body data) ↔
      limit ≠ 0 ∧ limit < data.length + ctx.size := by
  rw [ChunkedCtx.body]
  by_cases hend : ctx.state = .chunkData ∧ ctx.size = 0
  · rw [if_pos hend, hend.2]
    rfl
  · rw [if_neg hend]
    rfl

theorem scan_data {limit : ℕ} {ctx : ChunkedCtx} {seen data w rest : List UInt8}
    (hstate : ctx.state = .chunkData) (hw : w.length ≤ ctx.size)
    (hlimit : ¬exceeds limit (ctx.body data)) :
    scan (stepBody limit) seen (ctx.body data) (w ++ rest) =
      scan (stepBody limit) (seen ++ w)
        ({ ctx with size := ctx.size - w.length }.body (data ++ w)) rest := by
  induction w generalizing ctx seen data with
  | nil => simp
  | cons ch w ih =>
      rw [List.length_cons] at hw
      have hbody : ctx.body data = ⟨.chunkData, ctx.size, data⟩ := by
        rw [ChunkedCtx.body, if_neg (by omega), hstate]
      have hmore : stepBody limit seen ch (ctx.body data) =
          .more ({ ctx with size := ctx.size - 1 }.body (data ++ [ch])) := by
        rw [hbody] at hlimit ⊢
        simp only [stepBody, stepChunked, if_neg hlimit, takeData,
          ChunkedCtx.body, hstate]
        by_cases hone : ctx.size = 1
        · simp [hone]
        · rw [if_neg hone, if_neg (by omega)]
      have hlimit' : ¬exceeds limit
          ({ ctx with size := ctx.size - 1 }.body (data ++ [ch])) := by
        rw [exceeds_body] at hlimit ⊢
        simp only [List.length_append, List.length_singleton]
        omega
      have hsize : ctx.size - (w.length + 1) = ctx.size - 1 - w.length := by omega
      rw [List.cons_append, scan_cons_more _ hmore, List.length_cons, hsize]
      refine (ih (by exact hstate) (by simp; omega) hlimit').trans ?_
      simp

/-! ## The loop over a buffer -/

/-- The end of the memory that the buffers before `b` use. -/
def FilterLoop.floor (l : FilterLoop) : ℕ :=
  match l.b with
  | none => l.pos
  | some b => b.1

/-- The emitted buffers lie one behind the other in the memory that has been
read, and hold `emitted`. -/
structure LoopInv (l : FilterLoop) (emitted : List UInt8) : Prop where
  pos : l.pos ≤ l.mem.length
  out : ∀ o ∈ l.out, ∃ p q, o = .part p q ∧ q ≤ l.floor
  b : ∀ b ∈ l.b, b.1 ≤ b.2 ∧ b.2 ≤ l.pos
  emitted : l.chain.flatMap (OutBuf.contents l.mem) = emitted

/-- What is emitted before a new buffer. -/
theorem LoopInv.chain_below {l : FilterLoop} {emitted : List UInt8}
    (h : LoopInv l emitted) : ∀ o ∈ l.chain, ∃ p q, o = .part p q ∧ q ≤ l.pos := by
  intro o ho
  have hb := h.b
  have hout := h.out
  rw [FilterLoop.floor] at hout
  rw [FilterLoop.chain] at ho
  cases hlb : l.b with
  | none =>
      rw [hlb] at ho hout
      exact hout o (by simpa using ho)
  | some b =>
      rw [hlb] at ho hout hb
      obtain ⟨hle, hpos⟩ := hb b rfl
      obtain ho | ho := List.mem_append.mp ho
      · obtain ⟨p, q, rfl, hq⟩ := hout o ho
        exact ⟨p, q, rfl, hq.trans (hle.trans hpos)⟩
      · exact ⟨b.1, b.2, by simpa using ho, hpos⟩

/-- What a parsed chunk leaves: `n` bytes of the buffer are emitted. -/
structure ChunkTaken (l l' : FilterLoop) (emitted : List UInt8) (n : ℕ) :
    Prop where
  inv : LoopInv l' (emitted ++ (l.mem.drop l.pos).take n)
  left : l'.mem.drop l'.pos = (l.mem.drop l.pos).drop n
  chunked : l'.chunked = { l.chunked with size := l.chunked.size - n }
  contentLengthN : l'.contentLengthN = l.contentLengthN + n

/-- A new buffer for the next `n` bytes. -/
theorem LoopInv.emit {l l' : FilterLoop} {emitted : List UInt8} {n : ℕ}
    (h : LoopInv l emitted) (hn : l.pos + n ≤ l.mem.length)
    (hmem : l'.mem = l.mem) (hpos : l'.pos = l.pos + n) (hout : l'.out = l.chain)
    (hb : l'.b = some (l.pos, l.pos + n))
    (hchunked : l'.chunked = { l.chunked with size := l.chunked.size - n })
    (hlength : l'.contentLengthN = l.contentLengthN + n) :
    ChunkTaken l l' emitted n := by
  refine ⟨⟨?_, ?_, ?_, ?_⟩, ?_, hchunked, hlength⟩
  · rw [hpos, hmem]
    exact hn
  · rw [hout, FilterLoop.floor, hb]
    exact h.chain_below
  · rw [hb, hpos]
    intro b hmem
    obtain rfl : (l.pos, l.pos + n) = b := Option.some.inj hmem
    exact ⟨Nat.le_add_right _ _, Nat.le_refl _⟩
  · rw [FilterLoop.chain, hout, hb, hmem, List.flatMap_append, h.emitted]
    simp [OutBuf.contents, slice_add]
  · rw [hmem, hpos, List.drop_drop]

/-- The next `n` bytes are copied behind `b`. -/
theorem LoopInv.copy {l l' : FilterLoop} {emitted : List UInt8}
    {n start last : ℕ} (h : LoopInv l emitted) (hb : l.b = some (start, last))
    (hn : l.pos + n ≤ l.mem.length) (hmem : l'.mem = memmove n l.mem last l.pos)
    (hpos : l'.pos = l.pos + n) (hout : l'.out = l.out)
    (hb' : l'.b = some (start, last + n))
    (hchunked : l'.chunked = { l.chunked with size := l.chunked.size - n })
    (hlength : l'.contentLengthN = l.contentLengthN + n) :
    ChunkTaken l l' emitted n := by
  obtain ⟨hle, hlast⟩ := h.b _ (Option.mem_def.mpr hb)
  have hbelow := h.out
  rw [FilterLoop.floor, hb] at hbelow
  -- The buffers before `b` end below the bytes that are overwritten.
  have hsame : ∀ o ∈ l.out, o.contents l'.mem = o.contents l.mem := by
    intro o ho
    obtain ⟨p, q, rfl, hq⟩ := hbelow o ho
    have htake : l'.mem.take q = l.mem.take q := by
      have hfront := congrArg (List.take q) (memmove_take hlast hn)
      rw [List.take_take, List.take_take, Nat.min_eq_left (hq.trans hle)] at hfront
      rw [hmem, hfront]
    rw [OutBuf.contents, OutBuf.contents, slice, slice, htake]
  refine ⟨⟨?_, ?_, ?_, ?_⟩, ?_, hchunked, hlength⟩
  · rw [hpos, hmem, memmove_length hlast hn]
    exact hn
  · rw [hout, FilterLoop.floor, hb']
    exact hbelow
  · rw [hb', hpos]
    intro b hmem
    obtain rfl : (start, last + n) = b := Option.some.inj hmem
    exact ⟨Nat.le_add_right_of_le hle, Nat.add_le_add_right hlast n⟩
  · have hemitted := h.emitted
    rw [FilterLoop.chain, hb, List.flatMap_append] at hemitted
    rw [FilterLoop.chain, hout, hb', List.flatMap_append, ← hemitted,
      List.flatMap_congr hsame, List.append_assoc]
    simp only [Option.map_some, Option.toList_some, List.flatMap_singleton,
      OutBuf.contents]
    rw [hmem, memmove_slice hle hlast hn]
  · rw [hmem, hpos, memmove_drop hlast hn, List.drop_drop]

theorem LoopInv.newBuf {l : FilterLoop} {emitted : List UInt8}
    (h : LoopInv l emitted) :
    ChunkTaken l l.newBuf emitted
      (min l.chunked.size (l.mem.length - l.pos)) := by
  have hpos := h.pos
  rw [FilterLoop.newBuf]
  by_cases hsize : l.chunked.size < l.mem.length - l.pos
  · rw [if_pos hsize, Nat.min_eq_left (Nat.le_of_lt hsize)]
    refine h.emit ?_ rfl rfl rfl rfl ?_ rfl
    · omega
    · rw [Nat.sub_self]
  · have hlast : l.mem.length = l.pos + (l.mem.length - l.pos) := by omega
    rw [if_neg hsize, Nat.min_eq_right (by omega)]
    refine h.emit ?_ rfl hlast rfl ?_ rfl rfl
    · omega
    · simp only [← hlast]

theorem LoopInv.copyBack {l : FilterLoop} {emitted : List UInt8}
    {start last : ℕ} (h : LoopInv l emitted) (hb : l.b = some (start, last))
    (hsize : l.chunked.size ≤ l.mem.length - l.pos) :
    ChunkTaken l (l.copyBack start last) emitted
      (min l.chunked.size (l.mem.length - l.pos)) := by
  have hpos := h.pos
  obtain ⟨-, hlast⟩ := h.b _ (Option.mem_def.mpr hb)
  rw [Nat.min_eq_left hsize]
  refine h.copy hb ?_ ?_ rfl rfl rfl ?_ rfl
  · omega
  · simp only [FilterLoop.copyBack]
    rw [copyBytes_eq_memmove hlast (by omega), ite_self]
  · simp only [FilterLoop.copyBack, Nat.sub_self]

/-- A parsed chunk: as much of it as the buffer holds is emitted. -/
theorem LoopInv.chunk {l : FilterLoop} {emitted : List UInt8}
    (h : LoopInv l emitted) :
    ChunkTaken l l.chunk emitted
      (min l.chunked.size (l.mem.length - l.pos)) := by
  rw [FilterLoop.chunk]
  cases hb : l.b with
  | none => exact h.newBuf
  | some b =>
      by_cases hsize : l.chunked.size ≤ 128 ∧
          l.chunked.size ≤ l.mem.length - l.pos
      · simp only [if_pos hsize]
        exact h.copyBack hb hsize.2
      · simp only [if_neg hsize]
        exact h.newBuf

theorem LoopInv.advance {l : FilterLoop} {emitted : List UInt8}
    (h : LoopInv l emitted) (ctx : ChunkedCtx) {n : ℕ}
    (hn : l.pos + n ≤ l.mem.length) :
    LoopInv { l with chunked := ctx, pos := l.pos + n } emitted := by
  refine ⟨hn, ?_, ?_, h.emitted⟩
  · intro o ho
    obtain ⟨p, q, rfl, hq⟩ := h.out o ho
    refine ⟨p, q, rfl, ?_⟩
    rw [FilterLoop.floor] at hq ⊢
    cases hb : l.b with
    | none =>
        rw [hb] at hq
        exact Nat.le_add_right_of_le hq
    | some b =>
        rw [hb] at hq
        exact hq
  · intro b hb
    obtain ⟨hle, hlast⟩ := h.b b hb
    exact ⟨hle, Nat.le_add_right_of_le hlast⟩

/-- The filter has read the buffer and asks for more: `before` is the data of
the calls before. -/
structure Asks (conf : BodyConf) (before : List UInt8) (s : BodyState)
    (res : FilterResult) : Prop where
  emitted : s.data = before ++ res.emitted
  left : res.left = []
  noLast : OutBuf.lastBuf ∉ res.out
  machine : res.body.chunked.body s.data = s
  length : res.body.chunked.length = chunkedLength s.size s.state
  rest : res.body.rest =
    max (res.body.chunked.length : ℤ) conf.largeClientHeaderBuffersSize
  contentLengthN : res.body.contentLengthN = s.data.length

/-- The filter has come to the end of the body and leaves `rest`. -/
structure Ends (before data rest : List UInt8) (res : FilterResult) :
    Prop where
  emitted : data = before ++ res.emitted
  left : res.left = rest
  last : ∃ parts, res.out = parts ++ [.lastBuf] ∧ OutBuf.lastBuf ∉ parts
  rest : res.body.rest = 0
  contentLengthN : res.body.contentLengthN = data.length

/-- The filter does what the machine does.  Where the machine has a size that is
too large for the parser, nothing is said. -/
def Filtered (conf : BodyConf) (before : List UInt8) :
    Scanned UInt8 BodyState BodyEnd → Except BodyFault FilterResult → Prop
  | .again s, x =>
      maxOff - 5 < s.size ∨ ∃ res, x = .ok res ∧ Asks conf before s res
  | .stopped _ (.done data) rest, x =>
      ∃ res, x = .ok res ∧ Ends before data rest res
  | .stopped _ .tooLarge _, x => x = .error .tooLarge
  | .stopped _ .invalid _, x => x = .error .badRequest

theorem body_of_sizeOk {ctx : ChunkedCtx} (h : SizeOk ctx.state ctx.size)
    (data : List UInt8) : ctx.body data = ⟨ctx.state, ctx.size, data⟩ := by
  rw [ChunkedCtx.body, if_neg]
  rintro ⟨hstate, hsize⟩
  have hpos := h.pos hstate
  omega

theorem sizeOk_body {ctx : ChunkedCtx} (hstate : ctx.state = .chunkData)
    (hsize : ctx.size ≤ maxOff / 16) (data : List UInt8) :
    SizeOk (ctx.body data).state (ctx.body data).size := by
  rw [ChunkedCtx.body]
  by_cases hzero : ctx.size = 0
  · rw [if_pos ⟨hstate, hzero⟩]
    exact ⟨nofun, nofun, fun _ => Nat.zero_le _⟩
  · rw [if_neg fun h => hzero h.2, hstate]
    exact ⟨fun _ => Nat.pos_of_ne_zero hzero, nofun, fun _ => hsize⟩

theorem LoopInv.noLast {l : FilterLoop} {emitted : List UInt8}
    (h : LoopInv l emitted) : OutBuf.lastBuf ∉ l.chain := by
  intro hmem
  obtain ⟨p, q, hpart, -⟩ := h.chain_below _ hmem
  cases hpart

/-- The claim about the loop of the filter, for a number of rounds. -/
def LoopFiltered (conf : BodyConf) (before : List UInt8) (fuel : ℕ) : Prop :=
  ∀ (l : FilterLoop) (seen data emitted : List UInt8), LoopInv l emitted →
    data = before ++ emitted → l.contentLengthN = data.length →
    SizeOk (l.chunked.body data).state (l.chunked.body data).size →
    l.mem.length - l.pos < fuel →
    Filtered conf before
      (scan (stepBody conf.clientMaxBodySize) seen (l.chunked.body data)
        (l.mem.drop l.pos))
      (filterLoop conf fuel l)

theorem ChunkTaken.filtered {conf : BodyConf} {before data emitted seen : List UInt8}
    {fuel : ℕ} {l l' : FilterLoop}
    (h : ChunkTaken l l' emitted (min l.chunked.size (l.mem.length - l.pos)))
    (hstate : l.chunked.state = .chunkData)
    (hsize : SizeOk .chunkData l.chunked.size)
    (hlimit : ¬exceeds conf.clientMaxBodySize (l.chunked.body data))
    (hdata : data = before ++ emitted) (hn : l.contentLengthN = data.length)
    (hpos : l.pos < l.mem.length) (hfuel : l.mem.length - l.pos ≤ fuel)
    (ih : LoopFiltered conf before fuel) :
    Filtered conf before
      (scan (stepBody conf.clientMaxBodySize) seen (l.chunked.body data)
        (l.mem.drop l.pos))
      (filterLoop conf fuel l') := by
  have hsizePos := hsize.pos rfl
  generalize hm : min l.chunked.size (l.mem.length - l.pos) = m at h
  have hw : ((l.mem.drop l.pos).take m).length = m := by
    rw [List.length_take, List.length_drop]
    omega
  have hsplit : l.mem.drop l.pos =
      (l.mem.drop l.pos).take m ++ (l.mem.drop l.pos).drop m :=
    (List.take_append_drop m _).symm
  have hleft := congrArg List.length h.left
  simp only [List.length_drop] at hleft
  rw [hsplit, scan_data hstate (by omega) hlimit, hw, ← h.left, ← h.chunked]
  apply ih _ _ _ _ h.inv
  · rw [hdata, List.append_assoc]
  · rw [h.contentLengthN, hn, List.length_append, hw]
  · have hstate' : l'.chunked.state = .chunkData := by
      rw [h.chunked]
      exact hstate
    have hsize' : l'.chunked.size ≤ maxOff / 16 := by
      rw [h.chunked]
      exact (Nat.sub_le _ _).trans (hsize.fits (by decide))
    exact sizeOk_body hstate' hsize' _
  · omega

theorem filterLoop_filtered (conf : BodyConf) (before : List UInt8) (fuel : ℕ) :
    LoopFiltered conf before fuel := by
  induction fuel with
  | zero =>
      intro l seen data emitted h hdata hn hsize hfuel
      omega
  | succ fuel ih =>
      intro l seen data emitted h hdata hn hsize hfuel
      have hparsed := scanChunked_parsed conf.clientMaxBodySize l.chunked.length 0
        seen hsize (l.mem.drop l.pos)
      rw [← parseChunked_eq] at hparsed
      rw [filterLoop]
      cases hres : ngxHttpParseChunked l.chunked (l.mem.drop l.pos) with
      | error =>
          rw [hres] at hparsed
          obtain ⟨seen', rest, hscan⟩ | ⟨s', hscan, hbig⟩ := hparsed
          · rw [hscan]
            rfl
          · rw [hscan]
            exact .inl hbig
      | again ctx n =>
          rw [hres] at hparsed
          obtain ⟨hread, hctx, hlength, hscan⟩ := hparsed
          rw [body_data] at hscan
          rw [hscan]
          refine .inr ⟨_, rfl, ?_, ?_, h.noLast, ?_, hlength, rfl, hn⟩
          · rw [FilterResult.emitted, h.emitted]
            exact hdata
          · rw [FilterResult.left, hread, Nat.zero_add, ← List.drop_drop,
              List.drop_length]
          · exact body_of_sizeOk hctx data
      | done ctx n =>
          rw [hres] at hparsed
          obtain ⟨k, hread, hk, hscan⟩ := hparsed
          rw [body_data] at hscan
          rw [hscan]
          refine ⟨_, rfl, ?_, ?_, ⟨l.chain, rfl, h.noLast⟩, rfl, hn⟩
          · rw [FilterResult.emitted, List.flatMap_append, h.emitted, hdata]
            simp [OutBuf.contents]
          · rw [FilterResult.left, List.drop_drop, hread, Nat.zero_add]
      | ok ctx n =>
          rw [hres] at hparsed
          obtain ⟨k, hread, hk, hstate, hctx, hscan⟩ := hparsed
          rw [List.length_drop] at hk
          rw [Nat.zero_add] at hread
          subst hread
          have hbody : ctx.body data = ⟨.chunkData, ctx.size, data⟩ := by
            rw [← hstate] at hctx ⊢
            exact body_of_sizeOk hctx data
          rw [body_data, ← hbody, List.drop_drop] at hscan
          rw [hscan]
          have hlimit : (conf.clientMaxBodySize ≠ 0 ∧
              (conf.clientMaxBodySize : ℤ) - l.contentLengthN < ctx.size) ↔
              exceeds conf.clientMaxBodySize (ctx.body data) := by
            rw [exceeds_body, hn]
            omega
          by_cases hexceeds : exceeds conf.clientMaxBodySize (ctx.body data)
          · have hcons := List.drop_eq_getElem_cons (l := l.mem) (i := l.pos + n)
              (by omega)
            have hstop (seen : List UInt8) (ch : UInt8) :
                stepBody conf.clientMaxBodySize seen ch (ctx.body data) =
                  .stop .tooLarge := by
              rw [hbody] at hexceeds ⊢
              exact if_pos hexceeds
            rw [hcons, scan_cons_stop _ (hstop _ _)]
            simp only [if_pos (hlimit.mpr hexceeds)]
            rfl
          · simp only [if_neg (mt hlimit.mp hexceeds)]
            have htaken := (h.advance ctx (n := n) (by omega)).chunk
            apply htaken.filtered hstate hctx hexceeds hdata hn _ _ ih
            · exact Nat.add_lt_of_lt_sub' hk
            · exact Nat.le_of_lt_succ (Nat.lt_of_le_of_lt (by simp; omega) hfuel)

/-! ## Calls of the filter -/

/-- The body between two calls, and the machine. -/
structure BodyHolds (body : RequestBody) (s : BodyState) : Prop where
  size : SizeOk s.state s.size
  started : body.rest = -1 ∧ s = .new ∨
    body.rest ≠ -1 ∧ body.chunked.body s.data = s ∧
      body.contentLengthN = s.data.length

theorem bodyHolds_new : BodyHolds .new .new where
  size := ⟨nofun, nofun, fun _ => Nat.zero_le _⟩
  started := .inl ⟨rfl, rfl⟩

theorem chunkedFilter_filtered (conf : BodyConf) {body : RequestBody}
    {s : BodyState} (h : BodyHolds body s) (seen input : List UInt8) :
    Filtered conf s.data
      (scan (stepBody conf.clientMaxBodySize) seen s input)
      (ngxHttpRequestBodyChunkedFilter conf body input) := by
  have hloop (ctx : ChunkedCtx) (hctx : ctx.body s.data = s) :
      Filtered conf s.data
        (scan (stepBody conf.clientMaxBodySize) seen s input)
        (filterLoop conf (input.length + 1)
          ⟨input, 0, [], none, ctx, s.data.length⟩) := by
    have hfiltered := filterLoop_filtered conf s.data (input.length + 1)
      ⟨input, 0, [], none, ctx, s.data.length⟩ seen s.data [] ⟨by simp, by simp,
        nofun, rfl⟩ (by simp) rfl (by rw [hctx]; exact h.size) (by simp)
    rw [hctx] at hfiltered
    exact hfiltered
  rw [ngxHttpRequestBodyChunkedFilter]
  obtain ⟨hrest, rfl⟩ | ⟨hrest, hctx, hn⟩ := h.started
  · simp only [if_pos hrest]
    exact hloop .new rfl
  · simp only [if_neg hrest, hn]
    exact hloop body.chunked hctx

/-- The machine has read a size that fits, or it cannot go on. -/
theorem size_le_of_step {limit : ℕ} {seen : List UInt8} {ch : UInt8}
    {s : BodyState} (hs : SizeOk s.state s.size)
    (hstep : stepBody limit seen ch s ≠ .stop .invalid) :
    s.size ≤ maxOff / 16 := by
  by_cases hstate : s.state = .chunkSize
  · by_contra hbig
    apply hstep
    simp only [stepBody, hstate, stepChunked, if_pos (Nat.lt_of_not_le hbig)]
  · exact hs.fits hstate

theorem Asks.holds {conf : BodyConf} {before : List UInt8} {s : BodyState}
    {res : FilterResult} (h : Asks conf before s res)
    (hs : SizeOk s.state s.size) : BodyHolds res.body s where
  size := hs
  started := by
    right
    refine ⟨?_, h.machine, h.contentLengthN⟩
    rw [h.rest]
    omega

theorem SizeOk.step {limit : ℕ} {seen : List UInt8} {ch : UInt8}
    {s s' : BodyState} (hs : SizeOk s.state s.size)
    (hstep : stepBody limit seen ch s = .more s') : SizeOk s'.state s'.size := by
  rw [stepBody] at hstep
  cases hch : stepChunked ch s.size s.state with
  | next state size =>
      rw [hch] at hstep
      cases hstep
      exact hs.next hch
  | data =>
      have hdata := state_of_data hch
      have hfits := hs.fits (by rw [hdata]; decide)
      simp only [hch] at hstep
      split at hstep
      · cases hstep
      · cases hstep
        refine ⟨?_, ?_, ?_⟩
        · intro hstate
          simp only [takeData] at hstate ⊢
          have hpos := hs.pos hdata
          split at hstate
          · cases hstate
          · omega
        · intro hstate
          simp only [takeData] at hstate
          split at hstate
          · obtain h | h := hstate <;> cases h
          · obtain h | h := hstate <;> cases h
        · intro _
          exact (Nat.sub_le _ _).trans hfits
  | done => rw [hch] at hstep; cases hstep
  | invalid => rw [hch] at hstep; cases hstep

theorem scan_sizeOk {limit : ℕ} {seen input : List UInt8} {s s' : BodyState}
    (hs : SizeOk s.state s.size)
    (h : scan (stepBody limit) seen s input = .again s') :
    SizeOk s'.state s'.size :=
  @scan_again_invariant _ _ _ _ seen s (fun _ s => SizeOk s.state s.size) input s'
    hs (fun _ _ _ _ hs hstep => hs.step hstep) h

/-! ## Cuts -/

/-- What calls with one buffer each leave: their results, the body, and the bytes
that were not read. -/
structure FeedResult where
  calls : List FilterResult
  body : RequestBody
  left : List UInt8

/-- Pass one buffer per call until `rest` is 0. -/
def feedBody (conf : BodyConf) :
    RequestBody → List (List UInt8) → Except BodyFault FeedResult
  | body, [] => .ok ⟨[], body, []⟩
  | body, input :: inputs => do
      let res ← ngxHttpRequestBodyChunkedFilter conf body input
      if res.body.rest = 0 then pure ⟨[res], res.body, res.left ++ inputs.flatten⟩
      else
        let more ← feedBody conf res.body inputs
        pure ⟨res :: more.calls, more.body, more.left⟩

/-- The bytes that all calls have emitted. -/
def FeedResult.emitted (r : FeedResult) : List UInt8 :=
  r.calls.flatMap FilterResult.emitted

/-- The buffers that all calls have emitted. -/
def FeedResult.out (r : FeedResult) : List OutBuf :=
  r.calls.flatMap FilterResult.out

theorem chunkedLength_pos (size : ℕ) (state : ChunkedState) :
    0 < chunkedLength size state := by
  cases state <;> simp only [chunkedLength] <;> omega

theorem Asks.rest_ne_zero {conf : BodyConf} {before : List UInt8}
    {s : BodyState} {res : FilterResult} (h : Asks conf before s res) :
    res.body.rest ≠ 0 := by
  have hpos := chunkedLength_pos s.size s.state
  rw [h.rest, h.length]
  omega

theorem feedBody_asks {conf : BodyConf} {body : RequestBody}
    {before input : List UInt8} {s : BodyState} {res : FilterResult}
    (inputs : List (List UInt8))
    (hres : ngxHttpRequestBodyChunkedFilter conf body input = .ok res)
    (h : Asks conf before s res) :
    feedBody conf body (input :: inputs) =
      (feedBody conf res.body inputs).map fun more =>
        ⟨res :: more.calls, more.body, more.left⟩ := by
  rw [feedBody, hres]
  change (if res.body.rest = 0 then _ else _) = _
  rw [if_neg h.rest_ne_zero]
  rfl

/-- The end of the body in the buffers. -/
structure FeedEnds (before data rest : List UInt8) (r : FeedResult) : Prop where
  emitted : data = before ++ r.emitted
  left : r.left = rest
  last : ∃ parts, r.out = parts ++ [.lastBuf] ∧ OutBuf.lastBuf ∉ parts
  rest : r.body.rest = 0
  contentLengthN : r.body.contentLengthN = data.length

theorem size_le_of_stopped {limit : ℕ} {seen seen' input rest : List UInt8}
    {s : BodyState} {e : BodyEnd} (hs : SizeOk s.state s.size)
    (h : scan (stepBody limit) seen s input = .stopped seen' e rest)
    (he : e ≠ .invalid) : s.size ≤ maxOff / 16 := by
  rcases input with _ | ⟨ch, input⟩
  · cases h
  apply size_le_of_step hs
  intro hstop
  rw [scan_cons_stop _ hstop] at h
  cases h
  exact he rfl

/-- A call that reads its whole buffer asks for more. -/
theorem call_asks {conf : BodyConf} {body : RequestBody} {seen input : List UInt8}
    {s s' : BodyState} (hbody : BodyHolds body s)
    (hscan : scan (stepBody conf.clientMaxBodySize) seen s input = .again s')
    (hsize : s'.size ≤ maxOff / 16) :
    ∃ res, ngxHttpRequestBodyChunkedFilter conf body input = .ok res ∧
      Asks conf s.data s' res ∧ BodyHolds res.body s' := by
  have hcall := chunkedFilter_filtered conf hbody seen input
  rw [hscan] at hcall
  obtain hbig | ⟨res, hres, hasks⟩ := hcall
  · rw [maxOff] at hbig hsize
    omega
  · exact ⟨res, hres, hasks, hasks.holds (scan_sizeOk hbody.size hscan)⟩

theorem FeedEnds.cons {conf : BodyConf} {before data rest : List UInt8}
    {s : BodyState} {res : FilterResult} {more : FeedResult}
    (hasks : Asks conf before s res) (h : FeedEnds s.data data rest more) :
    FeedEnds before data rest ⟨res :: more.calls, more.body, more.left⟩ := by
  refine ⟨?_, h.left, ?_, h.rest, h.contentLengthN⟩
  · rw [h.emitted, hasks.emitted, List.append_assoc]
    rfl
  · obtain ⟨parts, hout, hparts⟩ := h.last
    refine ⟨res.out ++ parts, ?_, ?_⟩
    · rw [List.append_assoc, ← hout]
      rfl
    · rw [List.mem_append, not_or]
      exact ⟨hasks.noLast, hparts⟩

/-- The end of the body that the machine finds is found under every cut. -/
theorem feedBody_done {conf : BodyConf} {body : RequestBody}
    {seen seen' data rest : List UInt8} {s : BodyState}
    {inputs : List (List UInt8)} (hbody : BodyHolds body s)
    (h : scan (stepBody conf.clientMaxBodySize) seen s inputs.flatten =
      .stopped seen' (.done data) rest) :
    ∃ r, feedBody conf body inputs = .ok r ∧ FeedEnds s.data data rest r := by
  induction inputs generalizing body seen s with
  | nil => cases h
  | cons input inputs ih =>
      rw [List.flatten_cons] at h
      cases hscan : scan (stepBody conf.clientMaxBodySize) seen s input with
      | again s' =>
          rw [scan_append_again _ hscan] at h
          have hs' := scan_sizeOk hbody.size hscan
          obtain ⟨res, hres, hasks, hholds⟩ :=
            call_asks hbody hscan (size_le_of_stopped hs' h nofun)
          obtain ⟨more, hmore, hends⟩ := ih hholds h
          refine ⟨_, ?_, hends.cons hasks⟩
          rw [feedBody_asks inputs hres hasks, hmore]
          rfl
      | stopped seen₁ e left =>
          rw [scan_append_stopped _ hscan] at h
          cases h
          have hcall := chunkedFilter_filtered conf hbody seen input
          rw [hscan] at hcall
          obtain ⟨res, hres, hends⟩ := hcall
          refine ⟨⟨[res], res.body, res.left ++ inputs.flatten⟩, ?_, ?_⟩
          · rw [feedBody, hres]
            exact if_pos hends.rest
          · refine ⟨?_, ?_, ?_, hends.rest, hends.contentLengthN⟩
            · simpa [FeedResult.emitted] using hends.emitted
            · rw [hends.left]
            · simpa [FeedResult.out] using hends.last

/-- A body that the machine finds too large is rejected under every cut. -/
theorem feedBody_tooLarge {conf : BodyConf} {body : RequestBody}
    {seen seen' rest : List UInt8} {s : BodyState}
    {inputs : List (List UInt8)} (hbody : BodyHolds body s)
    (h : scan (stepBody conf.clientMaxBodySize) seen s inputs.flatten =
      .stopped seen' .tooLarge rest) :
    feedBody conf body inputs = .error .tooLarge := by
  induction inputs generalizing body seen s with
  | nil => cases h
  | cons input inputs ih =>
      rw [List.flatten_cons] at h
      cases hscan : scan (stepBody conf.clientMaxBodySize) seen s input with
      | again s' =>
          rw [scan_append_again _ hscan] at h
          have hs' := scan_sizeOk hbody.size hscan
          obtain ⟨res, hres, hasks, hholds⟩ :=
            call_asks hbody hscan (size_le_of_stopped hs' h nofun)
          rw [feedBody_asks inputs hres hasks, ih hholds h]
          rfl
      | stopped seen₁ e left =>
          rw [scan_append_stopped _ hscan] at h
          cases h
          have hcall : ngxHttpRequestBodyChunkedFilter conf body input =
              .error .tooLarge := by
            have hfiltered := chunkedFilter_filtered conf hbody seen input
            rwa [hscan] at hfiltered
          rw [feedBody, hcall]
          rfl

theorem size_le_of_again {limit : ℕ} {seen input : List UInt8}
    {s s' : BodyState} (hs : SizeOk s.state s.size)
    (h : scan (stepBody limit) seen s input = .again s')
    (hs' : s'.size ≤ maxOff / 16) : s.size ≤ maxOff / 16 := by
  rcases input with _ | ⟨ch, input⟩
  · cases h
    exact hs'
  · apply size_le_of_step hs
    intro hstop
    rw [scan_cons_stop _ hstop] at h
    cases h

/-- Under every cut the filter asks for what the machine wants next. -/
theorem feedBody_again {conf : BodyConf} {body : RequestBody}
    {seen : List UInt8} {s s' : BodyState} {inputs : List (List UInt8)}
    (hbody : BodyHolds body s) (hne : inputs ≠ [])
    (hsize : s'.size ≤ maxOff / 16)
    (h : scan (stepBody conf.clientMaxBodySize) seen s inputs.flatten =
      .again s') :
    ∃ r, feedBody conf body inputs = .ok r ∧ r.body.rest ≠ 0 ∧
      r.body.chunked.length = chunkedLength s'.size s'.state := by
  induction inputs generalizing body seen s with
  | nil => exact absurd rfl hne
  | cons input inputs ih =>
      rw [List.flatten_cons] at h
      cases hscan : scan (stepBody conf.clientMaxBodySize) seen s input with
      | stopped seen₁ e left =>
          rw [scan_append_stopped _ hscan] at h
          cases h
      | again s₁ =>
          rw [scan_append_again _ hscan] at h
          have hs₁ := scan_sizeOk hbody.size hscan
          obtain ⟨res, hres, hasks, hholds⟩ :=
            call_asks hbody hscan (size_le_of_again hs₁ h hsize)
          rw [feedBody_asks inputs hres hasks]
          by_cases hlast : inputs = []
          · subst hlast
            cases h
            exact ⟨_, rfl, hasks.rest_ne_zero, hasks.length⟩
          · obtain ⟨r, hr, hrest, hlength⟩ := ih hholds hlast h
            rw [hr]
            exact ⟨_, rfl, hrest, hlength⟩

end MultiversionBalancer.Http
