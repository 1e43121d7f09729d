import MultiversionBalancer.Http2.HuffmanCode

/-!
# Encoding and decoding

The decoder reads a string of codes back, in one piece or in several ones, and the
encoder writes the codes of the symbols with ones behind them.
-/

namespace MultiversionBalancer.Http2

open Lib

/-- The bits of bytes, the highest bit of a byte first. -/
def bytesBits (bytes : List UInt8) : List Bool :=
  bytes.flatMap fun byte => toBits 8 byte.toNat

theorem bytesBits_cons (byte : UInt8) (bytes : List UInt8) :
    bytesBits (byte :: bytes) = toBits 8 byte.toNat ++ bytesBits bytes := by
  simp [bytesBits]

theorem bytesBits_append (bytes bytes' : List UInt8) :
    bytesBits (bytes ++ bytes') = bytesBits bytes ++ bytesBits bytes' := by
  simp [bytesBits]

theorem length_bytesBits (bytes : List UInt8) :
    (bytesBits bytes).length = 8 * bytes.length := by
  induction bytes with
  | nil => rfl
  | cons byte bytes ih =>
      rw [bytesBits_cons, List.length_append, toBits_length, ih, List.length_cons, Nat.mul_succ,
        Nat.add_comm]

/-! ## The calls of the decoder -/

/-- The bytes that four bits write. -/
def HuffCode.written (code : HuffCode) : List UInt8 :=
  if code.emit then [code.sym] else []

/-- The bytes that the loop of `ngx_http_huff_decode` writes, also when it fails. -/
def huffWritten (codes : UInt8 → UInt8 → HuffCode) : UInt8 → List UInt8 → List UInt8
  | _, [] => []
  | state, ch :: src =>
      let high := codes state (ch >>> 4)
      if high.next = state then []
      else
        let low := codes high.next (ch &&& 0xf)
        high.written ++
          if low.next = high.next then []
          else low.written ++ huffWritten codes low.next src

/-- The calls of `ngx_http_huff_decode` for the pieces of a string, `last` is set for
the last one. -/
def decodePieces (codes : UInt8 → UInt8 → HuffCode) :
    UInt8 → List UInt8 → List (List UInt8) → Option (UInt8 × List UInt8)
  | state, dst, [] => some (state, dst)
  | state, dst, [piece] => ngxHttpHuffDecode codes state piece dst true
  | state, dst, piece :: pieces => do
      let (state, dst) ← ngxHttpHuffDecode codes state piece dst false
      decodePieces codes state dst pieces

/-- The bytes that the calls of `ngx_http_huff_decode` write until one of them fails. -/
def piecesWritten (codes : UInt8 → UInt8 → HuffCode) : UInt8 → List (List UInt8) → List UInt8
  | _, [] => []
  | state, piece :: pieces =>
      huffWritten codes state piece ++
        match huffLoop codes state true [] piece with
        | none => []
        | some (state, _, _) => piecesWritten codes state pieces

theorem huffLoop_cons_some {codes : UInt8 → UInt8 → HuffCode} {state state' ch : UInt8}
    {ending ending' : Bool} {dst dst' src : List UInt8}
    (h : huffLoop codes state ending dst (ch :: src) = some (state', ending', dst')) :
    (codes state (ch >>> 4)).next ≠ state ∧
    (codes (codes state (ch >>> 4)).next (ch &&& 0xf)).next ≠ (codes state (ch >>> 4)).next ∧
    huffLoop codes (codes (codes state (ch >>> 4)).next (ch &&& 0xf)).next
        (codes (codes state (ch >>> 4)).next (ch &&& 0xf)).ending
        (dst ++ (codes state (ch >>> 4)).written ++
          (codes (codes state (ch >>> 4)).next (ch &&& 0xf)).written) src =
      some (state', ending', dst') := by
  simp only [huffLoop, Option.bind_eq_bind, Option.bind_eq_some_iff] at h
  obtain ⟨⟨high, e, dst₁⟩, hhigh, ⟨low, e', dst₂⟩, hlow, hrest⟩ := h
  rw [ngxHttpHuffDecodeBits] at hhigh hlow
  by_cases hne : (codes state (ch >>> 4)).next = state
  · rw [if_pos hne] at hhigh
    exact absurd hhigh nofun
  · rw [if_neg hne, Option.some.injEq, Prod.mk.injEq, Prod.mk.injEq] at hhigh
    obtain ⟨rfl, rfl, rfl⟩ := hhigh
    by_cases hne' : (codes (codes state (ch >>> 4)).next (ch &&& 0xf)).next =
        (codes state (ch >>> 4)).next
    · rw [if_pos hne'] at hlow
      exact absurd hlow nofun
    · rw [if_neg hne', Option.some.injEq, Prod.mk.injEq, Prod.mk.injEq] at hlow
      obtain ⟨rfl, rfl, rfl⟩ := hlow
      refine ⟨hne, hne', ?_⟩
      rw [← hrest, HuffCode.written, HuffCode.written]
      congr 1
      split <;> split <;> simp

theorem shiftRight_four_toNat (ch : UInt8) : (ch >>> 4).toNat = ch.toNat / 2 ^ 4 := by
  rw [UInt8.toNat_shiftRight, Nat.shiftRight_eq_div_pow]
  rfl

theorem and_fifteen_toNat (ch : UInt8) : (ch &&& 0xf).toNat = ch.toNat % 2 ^ 4 := by
  rw [UInt8.toNat_and]
  exact Nat.and_two_pow_sub_one_eq_mod ch.toNat 4

theorem high_lt (ch : UInt8) : (ch >>> 4).toNat < 16 := by
  have hch := ch.toNat_lt
  rw [shiftRight_four_toNat]
  omega

theorem low_lt (ch : UInt8) : (ch &&& 0xf).toNat < 16 := by
  rw [and_fifteen_toNat]
  exact Nat.mod_lt _ (by decide)

/-- A byte is read as two times four bits. -/
theorem toBits_byte (ch : UInt8) :
    toBits 8 ch.toNat = toBits 4 (ch >>> 4).toNat ++ toBits 4 (ch &&& 0xf).toNat := by
  rw [shiftRight_four_toNat, and_fifteen_toNat, toBits_mod]
  exact toBits_append 4 4 ch.toNat

theorem encodeBits_written (code : HuffCode) :
    encodeBits huffCode code.written = if code.emit then huffCode code.sym else [] := by
  rw [HuffCode.written]
  split
  · exact List.append_nil _
  · rfl

/-- What four bits do in a state, with the bytes that they write. -/
theorem huffDecodeCodes_bits {state bits : UInt8} (hbits : bits.toNat < 16)
    (hne : (huffDecodeCodes state bits).next ≠ state) :
    huffPath state ++ toBits 4 bits.toNat =
      encodeBits huffCode (huffDecodeCodes state bits).written ++
        huffPath (huffDecodeCodes state bits).next := by
  rw [encodeBits_written]
  exact ((huffDecodeCodes_spec state bits hbits).2 hne).1

/-! ## What is written -/

/-- The codes of what has been written are what has been read, up to the path of the
state. -/
theorem huffLoop_written {state state' : UInt8} {ending ending' : Bool}
    {dst dst' src : List UInt8}
    (h : huffLoop huffDecodeCodes state ending dst src = some (state', ending', dst')) :
    dst' = dst ++ huffWritten huffDecodeCodes state src ∧
    huffPath state ++ bytesBits src =
      encodeBits huffCode (huffWritten huffDecodeCodes state src) ++ huffPath state' := by
  induction src generalizing state ending dst with
  | nil =>
      rw [huffLoop, Option.some.injEq, Prod.mk.injEq, Prod.mk.injEq] at h
      obtain ⟨rfl, rfl, rfl⟩ := h
      exact ⟨(List.append_nil dst).symm, List.append_nil _⟩
  | cons ch src ih =>
      obtain ⟨hhigh, hlow, hrest⟩ := huffLoop_cons_some h
      obtain ⟨hdst, hbits⟩ := ih hrest
      simp only [huffWritten, if_neg hhigh, if_neg hlow]
      refine ⟨by rw [hdst, List.append_assoc, List.append_assoc], ?_⟩
      have hfour := huffDecodeCodes_bits (high_lt ch) hhigh
      have hfour' := huffDecodeCodes_bits (low_lt ch) hlow
      simp only [bytesBits_cons, toBits_byte, encodeBits_append, List.append_assoc]
      rw [← hbits, ← List.append_assoc (huffPath state), hfour, List.append_assoc,
        ← List.append_assoc (huffPath _), hfour', List.append_assoc]

/-- Also a loop that fails has written codes that it has read. -/
theorem huffWritten_isPrefix (state : UInt8) (src : List UInt8) :
    encodeBits huffCode (huffWritten huffDecodeCodes state src) <+:
      huffPath state ++ bytesBits src := by
  induction src generalizing state with
  | nil => exact List.nil_prefix
  | cons ch src ih =>
      rw [bytesBits_cons, toBits_byte, huffWritten]
      by_cases hhigh : (huffDecodeCodes state (ch >>> 4)).next = state
      · simp only [if_pos hhigh]
        exact List.nil_prefix
      · simp only [if_neg hhigh]
        rw [List.append_assoc, ← List.append_assoc (huffPath state),
          huffDecodeCodes_bits (high_lt ch) hhigh, encodeBits_append, List.append_assoc]
        apply List.prefix_append_right_inj _ |>.mpr
        split
        · exact List.nil_prefix
        · next hlow =>
          rw [← List.append_assoc, huffDecodeCodes_bits (low_lt ch) hlow, encodeBits_append,
            List.append_assoc]
          exact List.prefix_append_right_inj _ |>.mpr (ih _)

theorem piecesWritten_isPrefix (state : UInt8) (pieces : List (List UInt8)) :
    encodeBits huffCode (piecesWritten huffDecodeCodes state pieces) <+:
      huffPath state ++ bytesBits pieces.flatten := by
  induction pieces generalizing state with
  | nil => exact List.nil_prefix
  | cons piece pieces ih =>
      rw [piecesWritten, List.flatten_cons, bytesBits_append, ← List.append_assoc,
        encodeBits_append]
      cases hloop : huffLoop huffDecodeCodes state true [] piece with
      | none =>
          simp only [encodeBits, List.flatMap_nil, List.append_nil]
          exact (huffWritten_isPrefix state piece).trans (List.prefix_append _ _)
      | some result =>
          obtain ⟨state', ending, dst⟩ := result
          rw [(huffLoop_written hloop).2, List.append_assoc]
          exact List.prefix_append_right_inj _ |>.mpr (ih state')

/-- A code has at least five bits. -/
theorem length_piecesWritten (pieces : List (List UInt8)) :
    (piecesWritten huffDecodeCodes 0 pieces).length ≤ pieces.flatten.length * 8 / 5 := by
  have hprefix := (piecesWritten_isPrefix 0 pieces).length_le
  have hstart : huffPath 0 = [] := by decide
  have hcodes := length_encodeBits_le (fun sym => (huffCode_length sym).1)
    (piecesWritten huffDecodeCodes 0 pieces)
  rw [hstart, List.nil_append, length_bytesBits] at hprefix
  omega

/-! ## Reading codes back -/

/-- Four bits of a string of codes with less than 30 ones behind them. -/
theorem decodeBits_decodes {state bits : UInt8} (hbits : bits.toNat < 16)
    {rest : List Bool} {symbols : List UInt8} {k : ℕ} (hk : k < 30)
    (h : huffPath state ++ (toBits 4 bits.toNat ++ rest) =
      encodeBits huffCode symbols ++ List.replicate k true) (dst : List UInt8) :
    ∃ state' ending done left, symbols = done ++ left ∧
      ngxHttpHuffDecodeBits huffDecodeCodes bits state dst = some (state', ending, dst ++ done) ∧
      huffPath state' ++ rest = encodeBits huffCode left ++ List.replicate k true ∧
      ∀ n, huffPath state' = List.replicate n true → ending := by
  obtain ⟨herror, hstep⟩ := huffDecodeCodes_spec state bits hbits
  rw [← List.append_assoc] at h
  by_cases hsame : (huffDecodeCodes state bits).next = state
  · -- Thirty ones begin neither with a code nor are they behind the codes.
    have hones : List.replicate 30 true <+:
        encodeBits huffCode symbols ++ List.replicate k true := by
      rw [← h]
      exact (herror hsame).trans (List.prefix_append _ _)
    cases symbols with
    | nil =>
        have hlength := hones.length_le
        rw [encodeBits, List.flatMap_nil, List.nil_append, List.length_replicate,
          List.length_replicate] at hlength
        omega
    | cons sym symbols =>
        rw [encodeBits_cons, List.append_assoc] at hones
        have hcode : huffCode sym <+: List.replicate 30 true := by
          refine List.prefix_of_prefix_length_le (List.prefix_append _ _) hones ?_
          rw [List.length_replicate]
          exact (huffCode_length sym).2
        exact absurd hcode (huffCode_not_prefix_ones sym 30)
  · obtain ⟨hread, hending⟩ := hstep hsame
    rw [hread, List.append_assoc] at h
    simp only [ngxHttpHuffDecodeBits, if_neg hsame]
    by_cases hemit : (huffDecodeCodes state bits).emit
    · rw [if_pos hemit] at h ⊢
      cases symbols with
      | nil =>
          have hcode : huffCode (huffDecodeCodes state bits).sym <+: List.replicate k true := by
            rw [encodeBits, List.flatMap_nil, List.nil_append] at h
            rw [← h]
            exact List.prefix_append _ _
          exact absurd hcode (huffCode_not_prefix_ones _ k)
      | cons sym symbols =>
          rw [encodeBits_cons, List.append_assoc] at h
          obtain ⟨hsym, hrest⟩ := huffCode_prefixFree.first h
          refine ⟨_, _, [sym], symbols, rfl, ?_, hrest, hending⟩
          rw [hsym]
    · rw [if_neg hemit, List.nil_append] at h
      rw [if_neg hemit]
      exact ⟨_, _, [], symbols, rfl, by rw [List.append_nil], h, hending⟩

/-- A piece of a string of codes. -/
theorem huffLoop_decodes {state : UInt8} {src : List UInt8} {rest : List Bool}
    {symbols : List UInt8} {k : ℕ} (hk : k < 30)
    (h : huffPath state ++ (bytesBits src ++ rest) =
      encodeBits huffCode symbols ++ List.replicate k true) {ending : Bool}
    (hending : ∀ n, huffPath state = List.replicate n true → ending) (dst : List UInt8) :
    ∃ state' ending' done left, symbols = done ++ left ∧
      huffLoop huffDecodeCodes state ending dst src = some (state', ending', dst ++ done) ∧
      huffPath state' ++ rest = encodeBits huffCode left ++ List.replicate k true ∧
      ∀ n, huffPath state' = List.replicate n true → ending' := by
  induction src generalizing state symbols ending dst with
  | nil => exact ⟨state, ending, [], symbols, rfl, by rw [huffLoop, List.append_nil], h, hending⟩
  | cons ch src ih =>
      rw [bytesBits_cons, toBits_byte, List.append_assoc, List.append_assoc] at h
      obtain ⟨high, e, done₁, left, rfl, hhigh, hrest, -⟩ :=
        decodeBits_decodes (high_lt ch) hk h dst
      obtain ⟨low, e', done₂, left, rfl, hlow, hrest, hending⟩ :=
        decodeBits_decodes (low_lt ch) hk hrest (dst ++ done₁)
      obtain ⟨state', ending', done₃, left, rfl, hloop, hrest, hending⟩ :=
        ih hrest hending (dst ++ done₁ ++ done₂)
      refine ⟨state', ending', done₁ ++ (done₂ ++ done₃), left, ?_, ?_, hrest, hending⟩
      · simp only [List.append_assoc]
      · simp only [huffLoop, hhigh, hlow, Option.bind_eq_bind, Option.bind_some]
        rw [hloop, List.append_assoc, List.append_assoc]

/-- Behind all codes nothing is left to be read. -/
theorem eq_nil_of_path {state : UInt8} {symbols : List UInt8} {ones : List Bool}
    (h : huffPath state = encodeBits huffCode symbols ++ ones) : symbols = [] := by
  cases symbols with
  | nil => rfl
  | cons sym symbols =>
      have hprefix : huffCode sym <+: huffPath state := by
        rw [h, encodeBits_cons, List.append_assoc]
        exact List.prefix_append _ _
      exact absurd hprefix (huffCode_not_prefix_path sym state)

/-- A string of codes with less than 30 ones behind them, in any pieces. -/
theorem decodePieces_decodes {state : UInt8} {pieces : List (List UInt8)}
    {symbols : List UInt8} {k : ℕ} (hk : k < 30) (hne : pieces ≠ [])
    (h : huffPath state ++ bytesBits pieces.flatten =
      encodeBits huffCode symbols ++ List.replicate k true) (dst : List UInt8) :
    decodePieces huffDecodeCodes state dst pieces = some (0, dst ++ symbols) := by
  induction pieces generalizing state symbols dst with
  | nil => exact absurd rfl hne
  | cons piece pieces ih =>
      rw [List.flatten_cons, bytesBits_append] at h
      obtain ⟨state', ending, done, left, rfl, hloop, hrest, hending⟩ :=
        huffLoop_decodes hk h (fun _ _ => rfl) dst
      cases pieces with
      | nil =>
          rw [List.flatten_nil, bytesBits, List.flatMap_nil, List.append_nil] at hrest
          obtain rfl := eq_nil_of_path hrest
          rw [encodeBits, List.flatMap_nil, List.nil_append] at hrest
          rw [decodePieces, ngxHttpHuffDecode, hloop]
          simp only [if_true, hending k hrest, List.append_nil]
      | cons piece' pieces =>
          have hnext := ih (List.cons_ne_nil _ _) hrest (dst ++ done)
          simp only [decodePieces, ngxHttpHuffDecode, hloop, Bool.false_eq_true, if_false,
            Option.bind_eq_bind, Option.bind_some]
          rw [hnext, List.append_assoc]

/-! ## The encoder -/

def ngxTolower (c : UInt8) : UInt8 :=
  if 0x41 ≤ c ∧ c ≤ 0x5a then c ||| 0x20 else c

/-- What the codes of a string stand for. -/
def lowered (lower : Bool) (src : List UInt8) : List UInt8 :=
  if lower then src.map ngxTolower else src

set_option maxRecDepth 4000 in
theorem huffEncodeTableLc_eq :
    huffEncodeTableLc =
      huffEncodeTable.take 65 ++ ((huffEncodeTable.drop 97).take 26 ++ huffEncodeTable.drop 91) :=
  rfl

set_option maxRecDepth 4000 in
theorem ngxTolower_toNat (c : UInt8) :
    (ngxTolower c).toNat =
      if 65 ≤ c.toNat ∧ c.toNat < 91 then c.toNat + 32 else c.toNat := by
  have hall : ∀ n < 256, (ngxTolower (UInt8.ofNat n)).toNat =
      if 65 ≤ n ∧ n < 91 then n + 32 else n := by
    decide
  have hc := hall c.toNat c.toNat_lt
  rwa [UInt8.ofNat_toNat] at hc

/-- The other table has the codes of the small letters in the places of the capital
ones. -/
theorem huffEncodeTableLc_get (c : UInt8) :
    huffEncodeTableLc.getD c.toNat (0, 0) =
      huffEncodeTable.getD (ngxTolower c).toNat (0, 0) := by
  rw [huffEncodeTableLc_eq, ngxTolower_toNat]
  simp only [List.getD_eq_getElem?_getD, List.getElem?_append, List.length_take, List.length_drop,
    huffEncodeTable_length, List.getElem?_take, List.getElem?_drop]
  by_cases hsmall : c.toNat < 65
  · simp [hsmall, Nat.not_le.mpr hsmall]
  · by_cases hletter : c.toNat < 91
    · have hle : 65 ≤ c.toNat := by omega
      have hplace : 97 + (c.toNat - 65) = c.toNat + 32 := by omega
      have hin : c.toNat - 65 < 26 := by omega
      simp [hsmall, hletter, hle, hplace, hin]
    · have hplace : 91 + (c.toNat - 65 - 26) = c.toNat := by omega
      have hout : ¬c.toNat - 65 < 26 := by omega
      simp [hsmall, hletter, hplace, hout]

/-- The code of a byte, and what the encoder reads of its table. -/
theorem huffTable_get (lower : Bool) (c : UInt8) :
    (huffTable lower).getD c.toNat (0, 0) ∈ huffEncodeTable ∧
      toBits ((huffTable lower).getD c.toNat (0, 0)).2 ((huffTable lower).getD c.toNat (0, 0)).1 =
        encodeBits huffCode (lowered lower [c]) := by
  cases lower with
  | false => exact ⟨huffEncodeTable_mem c, (List.append_nil _).symm⟩
  | true =>
      rw [huffTable, if_pos rfl, huffEncodeTableLc_get]
      exact ⟨huffEncodeTable_mem _, (List.append_nil _).symm⟩

theorem lowered_append (lower : Bool) (src src' : List UInt8) :
    lowered lower (src ++ src') = lowered lower src ++ lowered lower src' := by
  cases lower with
  | false => rfl
  | true => exact List.map_append

theorem bytesBits_huffEncodeRest (n buf : ℕ) :
    bytesBits (huffEncodeRest n buf) = toBits (8 * n) buf := by
  induction n with
  | zero => rfl
  | succ n ih =>
      rw [huffEncodeRest, bytesBits_cons, ih, UInt8.toNat_ofNat', toBits_mod,
        Nat.shiftRight_eq_div_pow, ← toBits_append, Nat.mul_succ, Nat.add_comm]

theorem huffEncodeRest_length (n buf : ℕ) : (huffEncodeRest n buf).length = n := by
  induction n with
  | zero => rfl
  | succ n ih => rw [huffEncodeRest, List.length_cons, ih]

theorem bytesBits_huffEncodeBuf (buf : ℕ) : bytesBits (huffEncodeBuf buf) = toBits 64 buf :=
  bytesBits_huffEncodeRest 8 buf

/-- The variables hold `bits`: the bytes that have been written, and `value` in the
highest bits of `buf`. -/
structure HuffEncode.Holds (s : HuffEncode) (len : ℕ) (bits : List Bool) (value : ℕ) : Prop where
  pending_lt : s.pending < 64
  value_lt : value < 2 ^ s.pending
  buf_eq : s.buf = value * 2 ^ (64 - s.pending)
  bits_eq : bits = bytesBits s.dst ++ toBits s.pending value
  fits : s.dst = [] ∨ s.dst.length < len

theorem HuffEncode.Holds.length {s : HuffEncode} {len value : ℕ} {bits : List Bool}
    (h : s.Holds len bits value) : bits.length = 8 * s.dst.length + s.pending := by
  rw [h.bits_eq, List.length_append, length_bytesBits, toBits_length]

section Step

variable {s : HuffEncode} {len value : ℕ} {bits : List Bool} {code : ℕ × ℕ}

/-- A code that fits into the word. -/
theorem HuffEncode.Holds.accumulate (h : s.Holds len bits value) (hcode : code.1 < 2 ^ code.2)
    (hfits : s.pending + code.2 < 64) :
    ({ s with buf := s.buf ||| code.1 <<< (64 - (s.pending + code.2)) % 2 ^ 64
              pending := s.pending + code.2 } : HuffEncode).Holds len
      (bits ++ toBits code.2 code.1) (value * 2 ^ code.2 + code.1) := by
  have hpow : 2 ^ (64 - s.pending) = 2 ^ code.2 * 2 ^ (64 - (s.pending + code.2)) := by
    rw [← Nat.pow_add]
    congr 1
    omega
  have hshift : code.1 <<< (64 - (s.pending + code.2)) < 2 ^ (64 - s.pending) := by
    rw [Nat.shiftLeft_eq, hpow]
    exact Nat.mul_lt_mul_of_pos_right hcode (Nat.two_pow_pos _)
  have hword : 2 ^ (64 - s.pending) ≤ 2 ^ 64 := Nat.pow_le_pow_right (by decide) (Nat.sub_le _ _)
  refine ⟨hfits, ?_, ?_, ?_, h.fits⟩
  · calc
      value * 2 ^ code.2 + code.1 < value * 2 ^ code.2 + 2 ^ code.2 := Nat.add_lt_add_left hcode _
      _ = (value + 1) * 2 ^ code.2 := (Nat.succ_mul _ _).symm
      _ ≤ 2 ^ s.pending * 2 ^ code.2 := Nat.mul_le_mul_right _ h.value_lt
      _ = 2 ^ (s.pending + code.2) := (Nat.pow_add _ _ _).symm
  · rw [Nat.mod_eq_of_lt (Nat.lt_of_lt_of_le hshift hword), h.buf_eq, ← Nat.shiftLeft_eq,
      ← Nat.shiftLeft_add_eq_or_of_lt hshift, Nat.shiftLeft_eq, Nat.shiftLeft_eq, hpow,
      Nat.add_mul, Nat.mul_assoc]
  · rw [h.bits_eq, List.append_assoc, toBits_mul_add hcode]

/-- A code that does not fit: a word is written, and the rest of the code is kept. -/
theorem HuffEncode.Holds.flush (h : s.Holds len bits value) (hcode : code.1 < 2 ^ code.2)
    (hlen : code.2 ≤ 30) (hover : 64 ≤ s.pending + code.2) (hspace : s.dst.length + 8 < len) :
    (⟨s.dst ++ huffEncodeBuf (s.buf ||| code.1 >>> (s.pending + code.2 - 64)),
        if s.pending + code.2 - 64 ≠ 0 then
          code.1 <<< (64 - (s.pending + code.2 - 64)) % 2 ^ 64 else 0,
        s.pending + code.2 - 64⟩ : HuffEncode).Holds len
      (bits ++ toBits code.2 code.1) (code.1 % 2 ^ (s.pending + code.2 - 64)) := by
  have hpending := h.pending_lt
  generalize hkept : s.pending + code.2 - 64 = kept
  have hlow : code.1 >>> kept < 2 ^ (64 - s.pending) := by
    rw [Nat.shiftRight_eq_div_pow, Nat.div_lt_iff_lt_mul (Nat.two_pow_pos _), ← Nat.pow_add]
    have hsum : 64 - s.pending + kept = code.2 := by omega
    rwa [hsum]
  have hword : s.buf ||| code.1 >>> kept = value * 2 ^ (64 - s.pending) + code.1 / 2 ^ kept := by
    rw [h.buf_eq, ← Nat.shiftLeft_eq, ← Nat.shiftLeft_add_eq_or_of_lt hlow,
      Nat.shiftRight_eq_div_pow]
  rw [Nat.shiftRight_eq_div_pow] at hlow
  refine ⟨by simp only; omega, Nat.mod_lt _ (Nat.two_pow_pos _), ?_, ?_, .inr ?_⟩
  · by_cases hzero : kept = 0
    · rw [hzero, if_neg (fun hne => hne rfl), Nat.pow_zero, Nat.mod_one, Nat.zero_mul]
    · have hpow : 2 ^ 64 = 2 ^ kept * 2 ^ (64 - kept) := by
        rw [← Nat.pow_add]
        congr 1
        omega
      rw [if_pos hzero, Nat.shiftLeft_eq, hpow, Nat.mul_mod_mul_right]
  · have hwhole := toBits_mul_add (m := s.pending) (v := value) hlow
    rw [Nat.add_sub_of_le hpending.le] at hwhole
    have hsplit := toBits_append (64 - s.pending) kept code.1
    rw [show 64 - s.pending + kept = code.2 by omega] at hsplit
    rw [bytesBits_append, bytesBits_huffEncodeBuf, hword, hwhole, toBits_mod, h.bits_eq, hsplit]
    simp only [List.append_assoc]
  · rw [List.length_append]
    exact hspace

/-- The last bytes: ones follow the codes up to the end of a byte. -/
theorem HuffEncode.Holds.rest (h : s.Holds len bits value) :
    bytesBits (s.dst ++ huffEncodeRest ((s.pending + 7) / 8 * 8 / 8)
        ((s.buf ||| (2 ^ 64 - 1) >>> s.pending) >>> (64 - (s.pending + 7) / 8 * 8))) =
      bits ++ List.replicate ((s.pending + 7) / 8 * 8 - s.pending) true := by
  have hpending := h.pending_lt
  generalize haligned : (s.pending + 7) / 8 * 8 = aligned
  have hbytes : 8 * (aligned / 8) = aligned := by omega
  generalize hones : aligned - s.pending = ones
  have hpow : 2 ^ (64 - s.pending) = 2 ^ ones * 2 ^ (64 - aligned) := by
    rw [← Nat.pow_add]
    congr 1
    omega
  have hpos : 0 < 2 ^ (64 - aligned) := Nat.two_pow_pos _
  have hmask : (2 ^ 64 - 1) >>> s.pending = 2 ^ (64 - s.pending) - 1 := by
    have hdiv := ones_div (64 - s.pending) s.pending
    rw [← Nat.pow_add, Nat.sub_add_cancel hpending.le] at hdiv
    rw [Nat.shiftRight_eq_div_pow, hdiv]
  have hmask_lt : 2 ^ (64 - s.pending) - 1 < 2 ^ (64 - s.pending) :=
    Nat.sub_lt (Nat.two_pow_pos _) Nat.one_pos
  have hvalue : (s.buf ||| (2 ^ 64 - 1) >>> s.pending) >>> (64 - aligned) =
      value * 2 ^ ones + (2 ^ ones - 1) := by
    rw [hmask, h.buf_eq, ← Nat.shiftLeft_eq, ← Nat.shiftLeft_add_eq_or_of_lt hmask_lt,
      Nat.shiftLeft_eq, Nat.shiftRight_eq_div_pow, hpow, ← Nat.mul_assoc, Nat.mul_comm,
      Nat.mul_add_div hpos]
    rw [ones_div]
  have hlast : toBits aligned (value * 2 ^ ones + (2 ^ ones - 1)) =
      toBits s.pending value ++ List.replicate ones true := by
    have hsplit := toBits_mul_add (m := s.pending) (v := value)
      (Nat.sub_lt (Nat.two_pow_pos ones) Nat.one_pos)
    rw [show s.pending + ones = aligned by omega, toBits_ones] at hsplit
    exact hsplit
  rw [bytesBits_append, bytesBits_huffEncodeRest, hbytes, hvalue, hlast, h.bits_eq,
    List.append_assoc]

end Step

/-- The loop packs the codes of the string; when there is no place for a word, the
codes take as many bytes as the string has. -/
theorem huffEncodeLoop_holds (lower : Bool) {len value : ℕ} {bits : List Bool} {s : HuffEncode}
    (h : s.Holds len bits value) (src : List UInt8) :
    match huffEncodeLoop (huffTable lower) len src s with
    | .ok s' => ∃ value', s'.Holds len (bits ++ encodeBits huffCode (lowered lower src)) value'
    | .error dst => dst.length ≤ len ∧
        8 * len ≤ (bits ++ encodeBits huffCode (lowered lower src)).length := by
  induction src generalizing s value bits with
  | nil =>
      refine ⟨value, ?_⟩
      have hnil : lowered lower [] = [] := by
        cases lower <;> rfl
      rwa [hnil, encodeBits, List.flatMap_nil, List.append_nil]
  | cons ch src ih =>
      obtain ⟨hmem, hbits⟩ := huffTable_get lower ch
      obtain ⟨-, hlen, hcode⟩ := huffEncodeTable_wf _ hmem
      have hcodes : encodeBits huffCode (lowered lower (ch :: src)) =
          toBits ((huffTable lower).getD ch.toNat (0, 0)).2
              ((huffTable lower).getD ch.toNat (0, 0)).1 ++
            encodeBits huffCode (lowered lower src) := by
        rw [hbits, ← encodeBits_append, ← lowered_append, List.singleton_append]
      have hpending := h.pending_lt
      rw [huffEncodeLoop, hcodes, ← List.append_assoc]
      generalize (huffTable lower).getD ch.toNat (0, 0) = code at hlen hcode ⊢
      have hcode' : code.1 < 2 ^ code.2 := by omega
      by_cases hroom : s.pending + code.2 < 64
      · simp only [if_pos hroom]
        exact ih (h.accumulate hcode' hroom)
      · simp only [if_neg hroom]
        by_cases hspace : len ≤ s.dst.length + 8
        · simp only [if_pos hspace]
          have hlength := h.length
          constructor
          · rcases h.fits with hnil | hlt
            · rw [hnil]
              exact Nat.zero_le len
            · exact hlt.le
          · rw [List.length_append, List.length_append, toBits_length]
            omega
        · simp only [if_neg hspace]
          exact ih (h.flush hcode' hlen (by omega) (by omega))

/-- The bytes that the codes of a string take. -/
def huffLength (lower : Bool) (src : List UInt8) : ℕ :=
  ((encodeBits huffCode (lowered lower src)).length + 7) / 8

theorem ngxHttpHuffEncode_spec (lower : Bool) (src : List UInt8) :
    (ngxHttpHuffEncode lower src).1.length ≤ src.length ∧
    (((ngxHttpHuffEncode lower src).2 = 0 ∧ src.length ≤ huffLength lower src) ∨
      ((ngxHttpHuffEncode lower src).2 = (ngxHttpHuffEncode lower src).1.length ∧
        (ngxHttpHuffEncode lower src).1.length = huffLength lower src ∧
        0 < huffLength lower src ∧ huffLength lower src < src.length ∧
        ∃ k < 8, bytesBits (ngxHttpHuffEncode lower src).1 =
          encodeBits huffCode (lowered lower src) ++ List.replicate k true)) := by
  have hstart : HuffEncode.Holds ⟨[], 0, 0⟩ src.length [] 0 :=
    ⟨by decide, by decide, by decide, rfl, .inl rfl⟩
  have hloop := huffEncodeLoop_holds lower hstart src
  rw [ngxHttpHuffEncode, huffLength]
  cases hresult : huffEncodeLoop (huffTable lower) src.length src ⟨[], 0, 0⟩ with
  | error dst =>
      rw [hresult, List.nil_append] at hloop
      exact ⟨hloop.1, .inl ⟨rfl, by omega⟩⟩
  | ok s =>
      rw [hresult, List.nil_append] at hloop
      obtain ⟨value, hholds⟩ := hloop
      have hlength := hholds.length
      have hfits : s.dst.length ≤ src.length ∧ (0 < s.dst.length → s.dst.length < src.length) := by
        rcases hholds.fits with hnil | hlt
        · rw [hnil]
          exact ⟨Nat.zero_le _, fun hpos => absurd hpos (Nat.lt_irrefl 0)⟩
        · exact ⟨hlt.le, fun _ => hlt⟩
      by_cases hzero : s.pending = 0
      · simp only [if_pos hzero]
        refine ⟨hfits.1, ?_⟩
        by_cases hnone : s.dst.length = 0
        · -- Only an empty string has no codes.
          have hsrc : src = [] := by
            have hcodes := length_encodeBits_le (fun sym => (huffCode_length sym).1)
              (lowered lower src)
            have hsame : (lowered lower src).length = src.length := by
              cases lower
              · rfl
              · exact List.length_map _
            exact List.length_eq_zero_iff.mp (by omega)
          exact .inl ⟨hnone, by rw [hsrc]; exact Nat.zero_le _⟩
        · have hbits := hholds.bits_eq
          rw [hzero, toBits, List.append_nil] at hbits
          refine .inr ⟨trivial, by omega, by omega, ?_, 0, by decide, ?_⟩
          · have hlt := hfits.2 (by omega)
            omega
          · rw [hbits, List.replicate_zero, List.append_nil]
      · simp only [if_neg hzero]
        have hpending := hholds.pending_lt
        by_cases hspace : src.length ≤ s.dst.length + (s.pending + 7) / 8 * 8 / 8
        · simp only [if_pos hspace]
          exact ⟨hfits.1, .inl ⟨trivial, by omega⟩⟩
        · simp only [if_neg hspace]
          have hrest := hholds.rest
          rw [List.length_append, huffEncodeRest_length]
          exact ⟨by omega, .inr ⟨trivial, by omega, by omega, by omega, _, by omega, hrest⟩⟩

/-- What `ngx_http_huff_encode` writes is read back by `ngx_http_huff_decode` in any
pieces; it returns 0 exactly when the codes are not shorter than the string, and then
has not written more than the length of the string; the decoder never writes more than
what is allocated for it. -/
theorem huffman_round_trip (lower : Bool) (src : List UInt8) :
    (0 < (ngxHttpHuffEncode lower src).2 →
      (ngxHttpHuffEncode lower src).2 = (ngxHttpHuffEncode lower src).1.length ∧
      ∀ pieces : List (List UInt8), pieces.flatten = (ngxHttpHuffEncode lower src).1 →
        decodePieces huffDecodeCodes 0 [] pieces = some (0, lowered lower src)) ∧
    ((ngxHttpHuffEncode lower src).2 = 0 ↔ src.length ≤ huffLength lower src) ∧
    ((ngxHttpHuffEncode lower src).2 = 0 →
      (ngxHttpHuffEncode lower src).1.length ≤ src.length) ∧
    ∀ pieces : List (List UInt8),
      (piecesWritten huffDecodeCodes 0 pieces).length ≤ pieces.flatten.length * 8 / 5 := by
  obtain ⟨hwritten, hresult⟩ := ngxHttpHuffEncode_spec lower src
  refine ⟨?_, ?_, fun _ => hwritten, length_piecesWritten⟩
  · intro hpos
    rcases hresult with ⟨hzero, -⟩ | ⟨hreturned, -, -, -, k, hk, hbits⟩
    · omega
    · refine ⟨hreturned, ?_⟩
      intro pieces hpieces
      have hne : pieces ≠ [] := by
        rintro rfl
        rw [hreturned, ← hpieces] at hpos
        exact absurd hpos (Nat.lt_irrefl 0)
      have hstart : huffPath 0 = [] := by decide
      have hread : huffPath 0 ++ bytesBits pieces.flatten =
          encodeBits huffCode (lowered lower src) ++ List.replicate k true := by
        rw [hstart, List.nil_append, hpieces, hbits]
      exact decodePieces_decodes (by omega) hne hread []
  · rcases hresult with ⟨hzero, hle⟩ | ⟨hreturned, hlength, hpos, hlt, -⟩
    · exact ⟨fun _ => hle, fun _ => hzero⟩
    · exact ⟨fun hzero => by omega, fun hle => by omega⟩

end MultiversionBalancer.Http2
