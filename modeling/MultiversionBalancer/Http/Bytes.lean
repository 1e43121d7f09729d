import Mathlib.Data.Fintype.Basic
import Mathlib.Algebra.Ring.Nat

/-!
# Bytes

The bytes that the parsers of `ngx_http_parse.c` tell apart.
-/

namespace MultiversionBalancer.Http

abbrev byte (c : Char) : UInt8 := c.toUInt8

def bytes (s : String) : List UInt8 :=
  s.toList.map byte

abbrev cr : UInt8 := 13

abbrev lf : UInt8 := 10

/-- `(ch | 0x20) >= 'a' && (ch | 0x20) <= 'z'`. -/
def isAlpha (ch : UInt8) : Bool :=
  byte 'a' ≤ ch ||| 0x20 && ch ||| 0x20 ≤ byte 'z'

/-- `ch >= '0' && ch <= '9'`. -/
def isDigit (ch : UInt8) : Bool :=
  byte '0' ≤ ch && ch ≤ byte '9'

/-- `ch >= 'A' && ch <= 'Z' || ch == '_' || ch == '-'`. -/
def isMethodChar (ch : UInt8) : Bool :=
  byte 'A' ≤ ch && ch ≤ byte 'Z' || ch == byte '_' || ch == byte '-'

def usualMap : List (BitVec 32) :=
  [0x00000000, 0x7fff37d6, 0xffffffff, 0x7fffffff,
    0xffffffff, 0xffffffff, 0xffffffff, 0xffffffff]

/-- `usual[ch >> 5] & (1U << (ch & 0x1f))`. -/
def usual (ch : UInt8) : Bool :=
  (usualMap.getD (ch.toNat / 32) 0).getLsbD (ch.toNat % 32)

def digitByte (n : ℕ) : UInt8 := UInt8.ofNat (48 + n)

/-- `ch >= 'A' && ch <= 'Z'`. -/
def isUpper (ch : UInt8) : Bool :=
  byte 'A' ≤ ch && ch ≤ byte 'Z'

def ngxTolower (ch : UInt8) : UInt8 :=
  if isUpper ch then ch ||| 0x20 else ch

/-- `ngx_strlchr`: the text from the first `c` on. -/
def ngxStrlchr : List UInt8 → UInt8 → Option (List UInt8)
  | [], _ => none
  | a :: p, c => if a = c then some (a :: p) else ngxStrlchr p c

/-! ## Hexadecimal digits -/

/-- The value of a hexadecimal digit. -/
def hexDigit (ch : UInt8) : Option UInt8 :=
  if isDigit ch then some (ch - byte '0')
  else if byte 'a' ≤ ch ||| 0x20 ∧ ch ||| 0x20 ≤ byte 'f' then
    some ((ch ||| 0x20) - byte 'a' + 10)
  else none

/-- The value of a hexadecimal digit, in lower or in upper case. -/
def hexValue (ch : UInt8) : Option ℕ :=
  (bytes "0123456789abcdef").idxOf? ch <|> (bytes "0123456789ABCDEF").idxOf? ch

/-- A test that holds of the numbers below 256 holds of every byte. -/
theorem byte_test {p : UInt8 → Bool}
    (hall : ((List.range 256).all fun n => p (UInt8.ofNat n)) = true) (ch : UInt8) :
    p ch = true := by
  have hch := List.all_eq_true.mp hall ch.toNat (List.mem_range.mpr ch.toNat_lt)
  rwa [UInt8.ofNat_toNat] at hch

/-- Lowering a byte does not touch NUL and the marks in the names of hosts and in
arguments. -/
theorem ngxTolower_eq_iff {x : UInt8} (c : UInt8)
    (hx : x ∈ [0, byte '&', byte '.', byte ':', byte '[', byte ']']) :
    ngxTolower c = x ↔ c = x := by
  have htest := byte_test (p := fun c =>
    [0, byte '&', byte '.', byte ':', byte '[', byte ']'].all fun x =>
      decide (ngxTolower c = x) == decide (c = x)) (by decide +kernel) c
  have hx' := List.all_eq_true.mp htest x hx
  rw [beq_iff_eq, decide_eq_decide] at hx'
  exact hx'

theorem mem_map_ngxTolower {x : UInt8} {l : List UInt8}
    (hx : x ∈ [0, byte '&', byte '.', byte ':', byte '[', byte ']']) :
    x ∈ l.map ngxTolower ↔ x ∈ l := by
  rw [List.mem_map]
  constructor
  · rintro ⟨c, hc, heq⟩
    rwa [(ngxTolower_eq_iff c hx).mp heq] at hc
  · exact fun h => ⟨x, h, (ngxTolower_eq_iff x hx).mpr rfl⟩

theorem ngxStrlchr_of_not_mem {p : List UInt8} {c : UInt8} (hc : c ∉ p) :
    ngxStrlchr p c = none := by
  induction p with
  | nil => rfl
  | cons a p ih =>
      rw [List.mem_cons, not_or] at hc
      rw [ngxStrlchr, if_neg (Ne.symm hc.1), ih hc.2]

theorem ngxStrlchr_append {l : List UInt8} {c : UInt8} (hc : c ∉ l) (r : List UInt8) :
    ngxStrlchr (l ++ c :: r) c = some (c :: r) := by
  induction l with
  | nil => exact if_pos rfl
  | cons a l ih =>
      rw [List.mem_cons, not_or] at hc
      rw [List.cons_append, ngxStrlchr, if_neg (Ne.symm hc.1), ih hc.2]

theorem idxOf?_toNat (l : List UInt8) (ch : UInt8) :
    (l.map UInt8.toNat).idxOf? ch.toNat = l.idxOf? ch := by
  unfold List.idxOf?
  rw [List.findIdx?_map]
  congr 1
  funext x
  exact Bool.eq_iff_iff.mpr (by simp [UInt8.toNat_inj])

/-- The two texts of `hexValue` as numbers. -/
theorem hexValue_eq (ch : UInt8) :
    hexValue ch =
      ([48, 49, 50, 51, 52, 53, 54, 55, 56, 57, 97, 98, 99, 100, 101, 102].idxOf?
          ch.toNat <|>
        [48, 49, 50, 51, 52, 53, 54, 55, 56, 57, 65, 66, 67, 68, 69, 70].idxOf?
          ch.toNat) := by
  have hlower : (bytes "0123456789abcdef").map UInt8.toNat =
      [48, 49, 50, 51, 52, 53, 54, 55, 56, 57, 97, 98, 99, 100, 101, 102] := by
    decide +kernel
  have hupper : (bytes "0123456789ABCDEF").map UInt8.toNat =
      [48, 49, 50, 51, 52, 53, 54, 55, 56, 57, 65, 66, 67, 68, 69, 70] := by
    decide +kernel
  rw [← hlower, ← hupper, idxOf?_toNat, idxOf?_toNat]
  rfl

theorem hexDigit_test (ch : UInt8) :
    (hexDigit ch).map UInt8.toNat =
        ([48, 49, 50, 51, 52, 53, 54, 55, 56, 57, 97, 98, 99, 100, 101, 102].idxOf?
            ch.toNat <|>
          [48, 49, 50, 51, 52, 53, 54, 55, 56, 57, 65, 66, 67, 68, 69, 70].idxOf?
            ch.toNat) ∧
      (hexDigit ch).all fun d => d.toNat < 16 && isDigit ch == decide (d.toNat < 10) := by
  have htest := byte_test (p := fun ch =>
    ((hexDigit ch).map UInt8.toNat ==
      ([48, 49, 50, 51, 52, 53, 54, 55, 56, 57, 97, 98, 99, 100, 101, 102].idxOf?
          ch.toNat <|>
        [48, 49, 50, 51, 52, 53, 54, 55, 56, 57, 65, 66, 67, 68, 69, 70].idxOf?
          ch.toNat)) &&
      (hexDigit ch).all fun d => d.toNat < 16 && isDigit ch == decide (d.toNat < 10))
    (by decide +kernel) ch
  rwa [Bool.and_eq_true, beq_iff_eq] at htest

theorem hexDigit_toNat (ch : UInt8) :
    (hexDigit ch).map UInt8.toNat = hexValue ch := by
  rw [hexValue_eq]
  exact (hexDigit_test ch).1

theorem hexDigit_lt {ch d : UInt8} (h : hexDigit ch = some d) :
    d.toNat < 16 ∧ (isDigit ch = true ↔ d.toNat < 10) := by
  have htest := (hexDigit_test ch).2
  simp only [h, Option.all_some, Bool.and_eq_true, decide_eq_true_eq,
    beq_iff_eq] at htest
  rw [htest.2, decide_eq_true_eq]
  exact ⟨htest.1, Iff.rfl⟩

theorem hexValue_lt {ch : UInt8} {n : ℕ} (h : hexValue ch = some n) : n < 16 := by
  rw [← hexDigit_toNat] at h
  obtain ⟨d, hd, rfl⟩ := Option.map_eq_some_iff.mp h
  exact (hexDigit_lt hd).1

theorem digit_le {c : UInt8} (h : isDigit c = true) : (c - byte '0').toNat ≤ 9 := by
  obtain ⟨hlow, hhigh⟩ : byte '0' ≤ c ∧ c ≤ byte '9' := by simpa [isDigit] using h
  have hlow' : 48 ≤ c.toNat := UInt8.le_iff_toNat_le.mp hlow
  have hhigh' : c.toNat ≤ 57 := UInt8.le_iff_toNat_le.mp hhigh
  rw [UInt8.toNat_sub_of_le _ _ hlow]
  exact Nat.sub_le_of_le_add hhigh'

theorem digitByte_spec {n : ℕ} (hn : n < 10) :
    isDigit (digitByte n) = true ∧ (digitByte n - byte '0').toNat = n := by
  revert n
  decide

end MultiversionBalancer.Http
