import MultiversionBalancer.Http.Bytes
import Mathlib.Data.List.GetD

/-!
# Base64

`ngx_encode_base64`, `ngx_encode_base64url` and their decoders of `ngx_string.c`.  The
two alphabets come with the tables of both directions; the groups of three bytes and of
four characters and what is left over at the end are the same for both.
-/

namespace MultiversionBalancer.Core.Base64

open Http (byte bytes)

/-! ## The functions of the source -/

/-- The tables `basis64` of an encoder and of its decoder, which marks what is not in the
alphabet by 77. -/
structure Alphabet where
  symbols : List UInt8
  values : List UInt8
  length_symbols : symbols.length = 64
  value_symbol : ∀ i < 64, values.getD (symbols.getD i 0).toNat 0 = UInt8.ofNat i
  symbol_value : ∀ n < 256, values.getD n 0 = 77 ∨ ((values.getD n 0).toNat < 64 ∧
    symbols.getD (values.getD n 0).toNat 0 = UInt8.ofNat n)
  pad : values.getD (byte '=').toNat 0 = 77

/-! Each table is tested in one pass over its entries. -/

theorem forall_of_zipIdx {l : List UInt8} {n : ℕ} (hl : l.length = n) (p : UInt8 → ℕ → Bool)
    (h : (l.zipIdx.all fun x => p x.1 x.2) = true) : ∀ i < n, p (l.getD i 0) i = true := by
  intro i hi
  have hi' : i < l.length := by
    rw [hl]
    exact hi
  rw [List.getD_eq_getElem l 0 hi']
  exact List.all_eq_true.mp h (l[i], i)
    (List.mk_mem_zipIdx_iff_getElem?.mpr (List.getElem?_eq_getElem hi'))

theorem value_symbol_of_test {symbols values : List UInt8} (hlength : symbols.length = 64)
    (h : (symbols.zipIdx.all fun x => Nat.beq (values.getD x.1.toNat 0).toNat x.2) = true) :
    ∀ i < 64, values.getD (symbols.getD i 0).toNat 0 = UInt8.ofNat i := by
  intro i hi
  have htest := Nat.eq_of_beq_eq_true (forall_of_zipIdx hlength
    (fun c i => Nat.beq (values.getD c.toNat 0).toNat i) h i hi)
  exact UInt8.ofNat_toNat.symm.trans (congrArg UInt8.ofNat htest)

theorem symbol_value_of_test {symbols values : List UInt8} (hlength : values.length = 256)
    (h : (values.zipIdx.all fun x => Nat.beq x.1.toNat 77 ||
      (Nat.blt x.1.toNat 64 && Nat.beq (symbols.getD x.1.toNat 0).toNat x.2)) = true) :
    ∀ n < 256, values.getD n 0 = 77 ∨ ((values.getD n 0).toNat < 64 ∧
      symbols.getD (values.getD n 0).toNat 0 = UInt8.ofNat n) := by
  intro n hn
  have htest := forall_of_zipIdx hlength (fun v n => Nat.beq v.toNat 77 ||
    (Nat.blt v.toNat 64 && Nat.beq (symbols.getD v.toNat 0).toNat n)) h n hn
  rw [Bool.or_eq_true, Bool.and_eq_true] at htest
  rcases htest with hout | ⟨hlt, hsymbol⟩
  · exact .inl (UInt8.toNat_inj.mp (Nat.eq_of_beq_eq_true hout))
  · exact .inr ⟨Nat.blt_eq.mp hlt, UInt8.ofNat_toNat.symm.trans
      (congrArg UInt8.ofNat (Nat.eq_of_beq_eq_true hsymbol))⟩

/-- The tables of `ngx_encode_base64` and `ngx_decode_base64`. -/
def base64 : Alphabet where
  symbols := bytes "ABCDEFGHIJKLMNOPQRSTUVWXYZabcdefghijklmnopqrstuvwxyz0123456789+/"
  values := [
      77, 77, 77, 77, 77, 77, 77, 77, 77, 77, 77, 77, 77, 77, 77, 77,
      77, 77, 77, 77, 77, 77, 77, 77, 77, 77, 77, 77, 77, 77, 77, 77,
      77, 77, 77, 77, 77, 77, 77, 77, 77, 77, 77, 62, 77, 77, 77, 63,
      52, 53, 54, 55, 56, 57, 58, 59, 60, 61, 77, 77, 77, 77, 77, 77,
      77, 0, 1, 2, 3, 4, 5, 6, 7, 8, 9, 10, 11, 12, 13, 14,
      15, 16, 17, 18, 19, 20, 21, 22, 23, 24, 25, 77, 77, 77, 77, 77,
      77, 26, 27, 28, 29, 30, 31, 32, 33, 34, 35, 36, 37, 38, 39, 40,
      41, 42, 43, 44, 45, 46, 47, 48, 49, 50, 51, 77, 77, 77, 77, 77,
      77, 77, 77, 77, 77, 77, 77, 77, 77, 77, 77, 77, 77, 77, 77, 77,
      77, 77, 77, 77, 77, 77, 77, 77, 77, 77, 77, 77, 77, 77, 77, 77,
      77, 77, 77, 77, 77, 77, 77, 77, 77, 77, 77, 77, 77, 77, 77, 77,
      77, 77, 77, 77, 77, 77, 77, 77, 77, 77, 77, 77, 77, 77, 77, 77,
      77, 77, 77, 77, 77, 77, 77, 77, 77, 77, 77, 77, 77, 77, 77, 77,
      77, 77, 77, 77, 77, 77, 77, 77, 77, 77, 77, 77, 77, 77, 77, 77,
      77, 77, 77, 77, 77, 77, 77, 77, 77, 77, 77, 77, 77, 77, 77, 77,
      77, 77, 77, 77, 77, 77, 77, 77, 77, 77, 77, 77, 77, 77, 77, 77]
  length_symbols := by decide +kernel
  value_symbol := value_symbol_of_test (by decide +kernel) (by decide +kernel)
  symbol_value := symbol_value_of_test (by decide +kernel) (by decide +kernel)
  pad := by decide +kernel

/-- The tables of `ngx_encode_base64url` and `ngx_decode_base64url`. -/
def base64url : Alphabet where
  symbols := bytes "ABCDEFGHIJKLMNOPQRSTUVWXYZabcdefghijklmnopqrstuvwxyz0123456789-_"
  values := [
      77, 77, 77, 77, 77, 77, 77, 77, 77, 77, 77, 77, 77, 77, 77, 77,
      77, 77, 77, 77, 77, 77, 77, 77, 77, 77, 77, 77, 77, 77, 77, 77,
      77, 77, 77, 77, 77, 77, 77, 77, 77, 77, 77, 77, 77, 62, 77, 77,
      52, 53, 54, 55, 56, 57, 58, 59, 60, 61, 77, 77, 77, 77, 77, 77,
      77, 0, 1, 2, 3, 4, 5, 6, 7, 8, 9, 10, 11, 12, 13, 14,
      15, 16, 17, 18, 19, 20, 21, 22, 23, 24, 25, 77, 77, 77, 77, 63,
      77, 26, 27, 28, 29, 30, 31, 32, 33, 34, 35, 36, 37, 38, 39, 40,
      41, 42, 43, 44, 45, 46, 47, 48, 49, 50, 51, 77, 77, 77, 77, 77,
      77, 77, 77, 77, 77, 77, 77, 77, 77, 77, 77, 77, 77, 77, 77, 77,
      77, 77, 77, 77, 77, 77, 77, 77, 77, 77, 77, 77, 77, 77, 77, 77,
      77, 77, 77, 77, 77, 77, 77, 77, 77, 77, 77, 77, 77, 77, 77, 77,
      77, 77, 77, 77, 77, 77, 77, 77, 77, 77, 77, 77, 77, 77, 77, 77,
      77, 77, 77, 77, 77, 77, 77, 77, 77, 77, 77, 77, 77, 77, 77, 77,
      77, 77, 77, 77, 77, 77, 77, 77, 77, 77, 77, 77, 77, 77, 77, 77,
      77, 77, 77, 77, 77, 77, 77, 77, 77, 77, 77, 77, 77, 77, 77, 77,
      77, 77, 77, 77, 77, 77, 77, 77, 77, 77, 77, 77, 77, 77, 77, 77]
  length_symbols := by decide +kernel
  value_symbol := value_symbol_of_test (by decide +kernel) (by decide +kernel)
  symbol_value := symbol_value_of_test (by decide +kernel) (by decide +kernel)
  pad := by decide +kernel

/-- `basis[i]` of an encoder. -/
def Alphabet.symbol (α : Alphabet) (i : UInt8) : UInt8 := α.symbols.getD i.toNat 0

/-- `basis[c]` of a decoder. -/
def Alphabet.value (α : Alphabet) (c : UInt8) : UInt8 := α.values.getD c.toNat 0

def ngxEncodeBase64Internal (α : Alphabet) (padding : Bool) : List UInt8 → List UInt8
  | s0 :: s1 :: s2 :: s =>
      α.symbol ((s0 >>> 2) &&& 0x3f) :: α.symbol (((s0 &&& 3) <<< 4) ||| (s1 >>> 4)) ::
        α.symbol (((s1 &&& 0x0f) <<< 2) ||| (s2 >>> 6)) :: α.symbol (s2 &&& 0x3f) ::
        ngxEncodeBase64Internal α padding s
  | [s0, s1] =>
      α.symbol ((s0 >>> 2) &&& 0x3f) :: α.symbol (((s0 &&& 3) <<< 4) ||| (s1 >>> 4)) ::
        α.symbol ((s1 &&& 0x0f) <<< 2) :: if padding then [byte '='] else []
  | [s0] =>
      α.symbol ((s0 >>> 2) &&& 0x3f) :: α.symbol ((s0 &&& 3) <<< 4) ::
        if padding then [byte '=', byte '='] else []
  | [] => []

def ngxEncodeBase64 (src : List UInt8) : List UInt8 :=
  ngxEncodeBase64Internal base64 true src

def ngxEncodeBase64url (src : List UInt8) : List UInt8 :=
  ngxEncodeBase64Internal base64url false src

/-- The first loop of `ngx_decode_base64_internal`, which finds the length of what is
decoded. -/
def symbolsLength (α : Alphabet) : List UInt8 → Option ℕ
  | [] => some 0
  | c :: src =>
      if c = byte '=' then some 0
      else if α.value c = 77 then none
      else (symbolsLength α src).map (· + 1)

/-- What `ngx_decode_base64_internal` writes. -/
def decodeSymbols (α : Alphabet) : List UInt8 → List UInt8
  | s0 :: s1 :: s2 :: s3 :: s =>
      (α.value s0 <<< 2 ||| α.value s1 >>> 4) :: (α.value s1 <<< 4 ||| α.value s2 >>> 2) ::
        (α.value s2 <<< 6 ||| α.value s3) :: decodeSymbols α s
  | [s0, s1, s2] =>
      [α.value s0 <<< 2 ||| α.value s1 >>> 4, α.value s1 <<< 4 ||| α.value s2 >>> 2]
  | [s0, s1] => [α.value s0 <<< 2 ||| α.value s1 >>> 4]
  | _ => []

/-- `ngx_decode_base64_internal`; `none` is `NGX_ERROR`. -/
def ngxDecodeBase64Internal (α : Alphabet) (src : List UInt8) : Option (List UInt8) :=
  match symbolsLength α src with
  | none => none
  | some len => if len % 4 = 1 then none else some (decodeSymbols α (src.take len))

def ngxDecodeBase64 (src : List UInt8) : Option (List UInt8) :=
  ngxDecodeBase64Internal base64 src

def ngxDecodeBase64url (src : List UInt8) : Option (List UInt8) :=
  ngxDecodeBase64Internal base64url src

/-! ## The alphabets -/

namespace Alphabet

variable (α : Alphabet)

theorem value_symbol_eq {i : UInt8} (hi : i.toNat < 64) : α.value (α.symbol i) = i := by
  rw [value, symbol, α.value_symbol i.toNat hi, UInt8.ofNat_toNat]

theorem symbol_mem {i : UInt8} (hi : i.toNat < 64) : α.symbol i ∈ α.symbols := by
  have hlt : i.toNat < α.symbols.length := by
    rw [α.length_symbols]
    exact hi
  rw [symbol, List.getD_eq_getElem _ _ hlt]
  exact List.getElem_mem hlt

theorem mem_symbols_iff {c : UInt8} : c ∈ α.symbols ↔ α.value c ≠ 77 := by
  constructor
  · intro hmem
    obtain ⟨i, hi, rfl⟩ := List.mem_iff_getElem.mp hmem
    have hi' : i < 64 := by
      rw [← α.length_symbols]
      exact hi
    have hvalue := α.value_symbol i hi'
    rw [List.getD_eq_getElem _ _ hi] at hvalue
    rw [value, hvalue]
    intro h
    have hnat := congrArg UInt8.toNat h
    rw [UInt8.toNat_ofNat', Nat.mod_eq_of_lt (by omega)] at hnat
    exact absurd hnat (Nat.ne_of_lt (Nat.lt_trans hi' (by decide)))
  · intro hvalue
    obtain ⟨hlt, hsymbol⟩ := (α.symbol_value c.toNat c.toNat_lt).resolve_left hvalue
    rw [UInt8.ofNat_toNat] at hsymbol
    rw [← hsymbol]
    exact α.symbol_mem hlt

theorem pad_not_mem : byte '=' ∉ α.symbols := fun h => α.mem_symbols_iff.mp h α.pad

end Alphabet

/-! ## Bit fields -/

/-- A field over low bits. -/
theorem toNat_or {x y : UInt8} {n m k : ℕ} (hm : m = 2 ^ k) (hx : x.toNat = n * m)
    (hy : y.toNat < m) : (x ||| y).toNat = n * m + y.toNat := by
  subst hm
  rw [UInt8.toNat_or, hx, Nat.mul_comm, ← Nat.two_pow_add_eq_or_of_lt hy]

section

variable (x y : UInt8)

theorem four_eq : 4 = 2 ^ 2 := by decide

theorem sixteen_eq : 16 = 2 ^ 4 := by decide

theorem sixtyFour_eq : 64 = 2 ^ 6 := by decide

theorem toNat_shiftRight_two : (x >>> 2).toNat = x.toNat / 4 := by
  simp [UInt8.toNat_shiftRight, Nat.shiftRight_eq_div_pow]

theorem toNat_shiftRight_four : (x >>> 4).toNat = x.toNat / 16 := by
  simp [UInt8.toNat_shiftRight, Nat.shiftRight_eq_div_pow]

theorem toNat_shiftRight_six : (x >>> 6).toNat = x.toNat / 64 := by
  simp [UInt8.toNat_shiftRight, Nat.shiftRight_eq_div_pow]

theorem toNat_shiftLeft_two : (x <<< 2).toNat = x.toNat % 64 * 4 := by
  simp only [UInt8.toNat_shiftLeft, Nat.shiftLeft_eq]
  exact Nat.mul_mod_mul_right 4 x.toNat 64

theorem toNat_shiftLeft_four : (x <<< 4).toNat = x.toNat % 16 * 16 := by
  simp only [UInt8.toNat_shiftLeft, Nat.shiftLeft_eq]
  exact Nat.mul_mod_mul_right 16 x.toNat 16

theorem toNat_shiftLeft_six : (x <<< 6).toNat = x.toNat % 4 * 64 := by
  simp only [UInt8.toNat_shiftLeft, Nat.shiftLeft_eq]
  exact Nat.mul_mod_mul_right 64 x.toNat 4

theorem toNat_and_3 : (x &&& 3).toNat = x.toNat % 4 :=
  (UInt8.toNat_and x 3).trans (Nat.and_two_pow_sub_one_eq_mod x.toNat 2)

theorem toNat_and_15 : (x &&& 0x0f).toNat = x.toNat % 16 :=
  (UInt8.toNat_and x 15).trans (Nat.and_two_pow_sub_one_eq_mod x.toNat 4)

theorem toNat_and_63 : (x &&& 0x3f).toNat = x.toNat % 64 :=
  (UInt8.toNat_and x 63).trans (Nat.and_two_pow_sub_one_eq_mod x.toNat 6)

/-- The four indices of a group of three bytes. -/
theorem index_first : ((x >>> 2) &&& 0x3f).toNat = x.toNat / 4 := by
  have hx := x.toNat_lt
  rw [toNat_and_63, toNat_shiftRight_two]
  omega

theorem index_second_alone : ((x &&& 3) <<< 4).toNat = x.toNat % 4 * 16 := by
  rw [toNat_shiftLeft_four, toNat_and_3]
  omega

theorem index_second :
    (((x &&& 3) <<< 4) ||| (y >>> 4)).toNat = x.toNat % 4 * 16 + y.toNat / 16 := by
  have hlow : (y >>> 4).toNat < 16 := by
    have hy := y.toNat_lt
    rw [toNat_shiftRight_four]
    omega
  rw [toNat_or sixteen_eq (index_second_alone x) hlow, toNat_shiftRight_four]

theorem index_third_alone : ((x &&& 0x0f) <<< 2).toNat = x.toNat % 16 * 4 := by
  rw [toNat_shiftLeft_two, toNat_and_15]
  omega

theorem index_third :
    (((x &&& 0x0f) <<< 2) ||| (y >>> 6)).toNat = x.toNat % 16 * 4 + y.toNat / 64 := by
  have hlow : (y >>> 6).toNat < 4 := by
    have hy := y.toNat_lt
    rw [toNat_shiftRight_six]
    omega
  rw [toNat_or four_eq (index_third_alone x) hlow, toNat_shiftRight_six]

variable {x y}

/-- The three bytes of a group of four values. -/
theorem byte_first (hx : x.toNat < 64) (hy : y.toNat < 64) :
    (x <<< 2 ||| y >>> 4).toNat = x.toNat * 4 + y.toNat / 16 := by
  have hleft : (x <<< 2).toNat = x.toNat * 4 := by
    rw [toNat_shiftLeft_two, Nat.mod_eq_of_lt hx]
  rw [toNat_or four_eq hleft (by rw [toNat_shiftRight_four]; omega), toNat_shiftRight_four]

theorem byte_second (hy : y.toNat < 64) :
    (x <<< 4 ||| y >>> 2).toNat = x.toNat % 16 * 16 + y.toNat / 4 := by
  rw [toNat_or sixteen_eq (toNat_shiftLeft_four x) (by rw [toNat_shiftRight_two]; omega),
    toNat_shiftRight_two]

theorem byte_third (hy : y.toNat < 64) :
    (x <<< 6 ||| y).toNat = x.toNat % 4 * 64 + y.toNat :=
  toNat_or sixtyFour_eq (toNat_shiftLeft_six x) hy

end

/-! ## Round trip -/

variable (α : Alphabet)

theorem symbolsLength_append {text rest : List UInt8} (htext : ∀ c ∈ text, c ∈ α.symbols)
    (hrest : rest = [] ∨ rest.head? = some (byte '=')) :
    symbolsLength α (text ++ rest) = some text.length := by
  induction text with
  | nil =>
      cases rest with
      | nil => rfl
      | cons c rest =>
          obtain hc := Option.some.inj (hrest.resolve_left (List.cons_ne_nil c rest))
          exact if_pos hc
  | cons c text ih =>
      rw [List.forall_mem_cons] at htext
      have hc : c ≠ byte '=' := fun h => α.pad_not_mem (h ▸ htext.1)
      rw [List.cons_append, symbolsLength, if_neg hc,
        if_neg (α.mem_symbols_iff.mp htext.1), ih htext.2]
      rfl

section

variable (s0 s1 s2 : UInt8)

theorem index_first_lt : ((s0 >>> 2) &&& 0x3f).toNat < 64 := by
  have hs0 := s0.toNat_lt
  rw [index_first]
  omega

theorem index_second_lt : (((s0 &&& 3) <<< 4) ||| (s1 >>> 4)).toNat < 64 := by
  have hs1 := s1.toNat_lt
  rw [index_second]
  omega

theorem index_second_alone_lt : ((s0 &&& 3) <<< 4).toNat < 64 := by
  rw [index_second_alone]
  omega

theorem index_third_lt : (((s1 &&& 0x0f) <<< 2) ||| (s2 >>> 6)).toNat < 64 := by
  have hs2 := s2.toNat_lt
  rw [index_third]
  omega

theorem index_third_alone_lt : ((s1 &&& 0x0f) <<< 2).toNat < 64 := by
  rw [index_third_alone]
  omega

theorem index_fourth_lt : (s2 &&& 0x3f).toNat < 64 := by
  rw [toNat_and_63]
  omega

/-- The first byte comes back from the first two indices. -/
theorem first_back : (s0 >>> 2 &&& 0x3f) <<< 2 ||| ((s0 &&& 3) <<< 4 ||| s1 >>> 4) >>> 4 = s0 := by
  have hs1 := s1.toNat_lt
  rw [← UInt8.toNat_inj, byte_first (index_first_lt s0) (index_second_lt s0 s1), index_first,
    index_second]
  omega

theorem first_back_alone : (s0 >>> 2 &&& 0x3f) <<< 2 ||| ((s0 &&& 3) <<< 4) >>> 4 = s0 := by
  rw [← UInt8.toNat_inj, byte_first (index_first_lt s0) (index_second_alone_lt s0), index_first,
    index_second_alone]
  omega

/-- The second byte comes back from the second and the third index. -/
theorem second_back :
    ((s0 &&& 3) <<< 4 ||| s1 >>> 4) <<< 4 ||| ((s1 &&& 0x0f) <<< 2 ||| s2 >>> 6) >>> 2 = s1 := by
  have hs1 := s1.toNat_lt
  have hs2 := s2.toNat_lt
  rw [← UInt8.toNat_inj, byte_second (index_third_lt s1 s2), index_second, index_third]
  omega

theorem second_back_alone :
    ((s0 &&& 3) <<< 4 ||| s1 >>> 4) <<< 4 ||| ((s1 &&& 0x0f) <<< 2) >>> 2 = s1 := by
  have hs1 := s1.toNat_lt
  rw [← UInt8.toNat_inj, byte_second (index_third_alone_lt s1), index_second, index_third_alone]
  omega

/-- The third byte comes back from the last two indices. -/
theorem third_back :
    ((s1 &&& 0x0f) <<< 2 ||| s2 >>> 6) <<< 6 ||| (s2 &&& 0x3f) = s2 := by
  have hs2 := s2.toNat_lt
  rw [← UInt8.toNat_inj, byte_third (index_fourth_lt s2), index_third, toNat_and_63]
  omega

end

/-- The encoder writes symbols of the alphabet, which the decoder reads as what was encoded,
and behind them the padding. -/
theorem encode_split (padding : Bool) (s : List UInt8) :
    ∃ text, (∀ c ∈ text, c ∈ α.symbols) ∧ text.length = (4 * s.length + 2) / 3 ∧
      ngxEncodeBase64Internal α padding s =
        text ++ List.replicate (if padding then (4 - text.length % 4) % 4 else 0) (byte '=') ∧
      decodeSymbols α text = s := by
  fun_induction ngxEncodeBase64Internal α padding s with
  | case1 s0 s1 s2 s ih =>
      obtain ⟨text, hsymbols, hlength, hencode, hdecode⟩ := ih
      refine ⟨α.symbol ((s0 >>> 2) &&& 0x3f) :: α.symbol (((s0 &&& 3) <<< 4) ||| (s1 >>> 4)) ::
        α.symbol (((s1 &&& 0x0f) <<< 2) ||| (s2 >>> 6)) :: α.symbol (s2 &&& 0x3f) :: text,
        ?_, ?_, ?_, ?_⟩
      · simp only [List.forall_mem_cons]
        exact ⟨α.symbol_mem (index_first_lt s0), α.symbol_mem (index_second_lt s0 s1),
          α.symbol_mem (index_third_lt s1 s2), α.symbol_mem (index_fourth_lt s2), hsymbols⟩
      · simp only [List.length_cons]
        omega
      · have hpad : (text.length + 4) % 4 = text.length % 4 := Nat.add_mod_right _ 4
        rw [hencode]
        simp only [List.length_cons, Nat.add_assoc, Nat.reduceAdd, hpad, List.cons_append]
      · rw [decodeSymbols, α.value_symbol_eq (index_first_lt s0),
          α.value_symbol_eq (index_second_lt s0 s1), α.value_symbol_eq (index_third_lt s1 s2),
          α.value_symbol_eq (index_fourth_lt s2), first_back, second_back, third_back, hdecode]
  | case2 s0 s1 =>
      refine ⟨[α.symbol ((s0 >>> 2) &&& 0x3f), α.symbol (((s0 &&& 3) <<< 4) ||| (s1 >>> 4)),
        α.symbol ((s1 &&& 0x0f) <<< 2)], ?_, by simp, ?_, ?_⟩
      · simp only [List.forall_mem_cons]
        exact ⟨α.symbol_mem (index_first_lt s0), α.symbol_mem (index_second_lt s0 s1),
          α.symbol_mem (index_third_alone_lt s1), fun c hc => absurd hc List.not_mem_nil⟩
      · cases padding <;> rfl
      · rw [decodeSymbols, α.value_symbol_eq (index_first_lt s0),
          α.value_symbol_eq (index_second_lt s0 s1), α.value_symbol_eq (index_third_alone_lt s1),
          first_back, second_back_alone]
  | case3 s0 =>
      refine ⟨[α.symbol ((s0 >>> 2) &&& 0x3f), α.symbol ((s0 &&& 3) <<< 4)], ?_, by simp, ?_, ?_⟩
      · simp only [List.forall_mem_cons]
        exact ⟨α.symbol_mem (index_first_lt s0), α.symbol_mem (index_second_alone_lt s0),
          fun c hc => absurd hc List.not_mem_nil⟩
      · cases padding <;> rfl
      · rw [decodeSymbols, α.value_symbol_eq (index_first_lt s0),
          α.value_symbol_eq (index_second_alone_lt s0), first_back_alone]
  | case4 =>
      refine ⟨[], fun c hc => absurd hc List.not_mem_nil, rfl, ?_, rfl⟩
      cases padding <;> rfl

theorem decode_encode (padding : Bool) (s : List UInt8) :
    ngxDecodeBase64Internal α (ngxEncodeBase64Internal α padding s) = some s := by
  obtain ⟨text, hsymbols, hlength, hencode, hdecode⟩ := encode_split α padding s
  have hrest : List.replicate (if padding then (4 - text.length % 4) % 4 else 0) (byte '=') = [] ∨
      (List.replicate (if padding then (4 - text.length % 4) % 4 else 0) (byte '=')).head? =
        some (byte '=') := by
    cases (if padding then (4 - text.length % 4) % 4 else 0) with
    | zero => exact .inl rfl
    | succ n => exact .inr rfl
  have hsome := symbolsLength_append α hsymbols hrest
  have hone : ¬text.length % 4 = 1 := by omega
  rw [ngxDecodeBase64Internal, hencode, hsome]
  simp only [if_neg hone, List.take_left, hdecode]

/-! ## The decoder on any input -/

/-- What is before the first `=`. -/
def significant (src : List UInt8) : List UInt8 :=
  src.takeWhile fun c => c != byte '='

theorem significant_pad (src : List UInt8) : significant (byte '=' :: src) = [] := rfl

theorem significant_cons {c : UInt8} (hpad : c ≠ byte '=') (src : List UInt8) :
    significant (c :: src) = c :: significant src := by
  rw [significant, List.takeWhile_cons, if_pos (bne_iff_ne.mpr hpad)]
  rfl

theorem symbolsLength_of_symbols {src : List UInt8} (h : ∀ c ∈ significant src, c ∈ α.symbols) :
    symbolsLength α src = some (significant src).length := by
  induction src with
  | nil => rfl
  | cons c src ih =>
      rw [symbolsLength]
      by_cases hpad : c = byte '='
      · rw [if_pos hpad, hpad, significant_pad]
        rfl
      · rw [significant_cons hpad, List.forall_mem_cons] at h
        rw [if_neg hpad, if_neg (α.mem_symbols_iff.mp h.1), ih h.2, significant_cons hpad]
        rfl

theorem symbolsLength_of_other {src : List UInt8} (h : ∃ c ∈ significant src, c ∉ α.symbols) :
    symbolsLength α src = none := by
  induction src with
  | nil =>
      obtain ⟨c, hc, -⟩ := h
      exact absurd hc List.not_mem_nil
  | cons c src ih =>
      rw [symbolsLength]
      by_cases hpad : c = byte '='
      · rw [hpad, significant_pad] at h
        obtain ⟨c, hc, -⟩ := h
        exact absurd hc List.not_mem_nil
      · rw [significant_cons hpad, List.exists_mem_cons_iff] at h
        rw [if_neg hpad]
        rcases h with hc | hrest
        · exact if_pos (not_not.mp (mt α.mem_symbols_iff.mpr hc))
        · rw [ih hrest]
          exact ite_self none

theorem length_decodeSymbols (text : List UInt8) :
    (decodeSymbols α text).length = text.length * 3 / 4 := by
  fun_induction decodeSymbols α text with
  | case1 s0 s1 s2 s3 s ih =>
      simp only [List.length_cons, ih]
      omega
  | case2 => simp
  | case3 => simp
  | case4 text hfour hthree htwo =>
      match text with
      | [] => rfl
      | [_] => simp
      | [_, _] => exact absurd rfl (htwo _ _)
      | [_, _, _] => exact absurd rfl (hthree _ _ _)
      | _ :: _ :: _ :: _ :: _ => exact absurd rfl (hfour _ _ _ _ _)

theorem decode_eq_none_iff (src : List UInt8) :
    ngxDecodeBase64Internal α src = none ↔
      (∃ c ∈ significant src, c ∉ α.symbols) ∨ (significant src).length % 4 = 1 := by
  rw [ngxDecodeBase64Internal]
  by_cases hother : ∃ c ∈ significant src, c ∉ α.symbols
  · rw [symbolsLength_of_other α hother]
    exact ⟨fun _ => .inl hother, fun _ => rfl⟩
  · have hsymbols : ∀ c ∈ significant src, c ∈ α.symbols := fun c hc =>
      by_contra fun hnot => hother ⟨c, hc, hnot⟩
    rw [symbolsLength_of_symbols α hsymbols, or_iff_right hother]
    simp only [ite_eq_left_iff, reduceCtorEq, imp_false, not_not]

theorem length_decode_le {src out : List UInt8}
    (h : ngxDecodeBase64Internal α src = some out) :
    out.length ≤ 3 * ((src.length + 3) / 4) := by
  rw [ngxDecodeBase64Internal] at h
  cases hlen : symbolsLength α src with
  | none =>
      rw [hlen] at h
      cases h
  | some len =>
      rw [hlen] at h
      dsimp only at h
      split at h
      · cases h
      · obtain rfl := Option.some.inj h
        rw [length_decodeSymbols, List.length_take]
        omega

/-- What is encoded in either alphabet is decoded again, the encoders write four symbols for
three bytes, and the decoders fail exactly on what no encoder can have written before the
padding. -/
theorem base64_round_trip :
    (∀ s, ngxDecodeBase64 (ngxEncodeBase64 s) = some s ∧
      ngxDecodeBase64url (ngxEncodeBase64url s) = some s) ∧
    (∀ s, ∃ text, (∀ c ∈ text, c ∈ base64.symbols) ∧ text.length = (4 * s.length + 2) / 3 ∧
      ngxEncodeBase64 s =
        text ++ List.replicate ((4 - text.length % 4) % 4) (byte '=')) ∧
    (∀ s, (∀ c ∈ ngxEncodeBase64url s, c ∈ base64url.symbols) ∧
      (ngxEncodeBase64url s).length = (4 * s.length + 2) / 3) ∧
    ∀ α, α = base64 ∨ α = base64url → ∀ src,
      (∀ out, ngxDecodeBase64Internal α src = some out →
        out.length ≤ 3 * ((src.length + 3) / 4)) ∧
      (ngxDecodeBase64Internal α src = none ↔
        (∃ c ∈ significant src, c ∉ α.symbols) ∨ (significant src).length % 4 = 1) := by
  refine ⟨fun s => ⟨decode_encode base64 true s, decode_encode base64url false s⟩, ?_, ?_, ?_⟩
  · intro s
    obtain ⟨text, hsymbols, hlength, hencode, -⟩ := encode_split base64 true s
    exact ⟨text, hsymbols, hlength, hencode⟩
  · intro s
    obtain ⟨text, hsymbols, hlength, hencode, -⟩ := encode_split base64url false s
    rw [if_neg Bool.false_ne_true, List.replicate_zero, List.append_nil] at hencode
    rw [ngxEncodeBase64url, hencode]
    exact ⟨hsymbols, hlength⟩
  · exact fun α _ src => ⟨fun out => length_decode_le α, decode_eq_none_iff α src⟩

end MultiversionBalancer.Core.Base64
