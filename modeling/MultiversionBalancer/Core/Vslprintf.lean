import MultiversionBalancer.Core.CFloat
import MultiversionBalancer.Core.Inet
import MultiversionBalancer.Core.Numbers

/-!
# Formatted output

`ngx_vslprintf`, `ngx_sprintf_num` and `ngx_sprintf_str` of `ngx_string.c` on a 64-bit
machine.  A buffer is the text that it has so far, and `room` is `last - buf` of the call.
A byte that is written at `last` or behind it is a failure, and so are a read behind the end of
the format or of a string and an argument of another type.
-/

namespace MultiversionBalancer.Core.Vslprintf

open Http (byte bytes lf isDigit hexDigit)
open Inet (sprintfBase)

/-! ## The functions of the source -/

inductive Failure where
  | outside
  | unreadable
  | argument
  | turns
  deriving DecidableEq

inductive Hex where
  | none
  | lower
  | upper
  deriving DecidableEq

/-- `ngx_str_t`: the length, and the bytes from the pointer on. -/
structure NgxStr where
  len : BitVec 64
  data : List UInt8

/-- An argument: an integer or an address of 8 bytes, an integer of 4 bytes, a `double`, an
`ngx_str_t`, an `ngx_variable_value_t`, or the bytes from a pointer on. -/
inductive Arg (F : Type) where
  | word (w : BitVec 64)
  | half (w : BitVec 32)
  | double (f : F)
  | str (v : NgxStr)
  | var (len : BitVec 28) (data : List UInt8)
  | pointer (mem : List UInt8)

section Arguments

variable {F : Type}

/-- `va_arg` for an integer of 8 bytes. -/
def vaWord : List (Arg F) → Except Failure (BitVec 64 × List (Arg F))
  | .word w :: args => .ok (w, args)
  | _ => .error .argument

/-- `va_arg` for an integer of 4 bytes. -/
def vaHalf : List (Arg F) → Except Failure (BitVec 32 × List (Arg F))
  | .half w :: args => .ok (w, args)
  | _ => .error .argument

def vaDouble : List (Arg F) → Except Failure (F × List (Arg F))
  | .double f :: args => .ok (f, args)
  | _ => .error .argument

/-- `va_arg(args, ngx_str_t *)`. -/
def vaStr : List (Arg F) → Except Failure (NgxStr × List (Arg F))
  | .str v :: args => .ok (v, args)
  | _ => .error .argument

/-- `va_arg(args, ngx_variable_value_t *)`; the length has 28 bits. -/
def vaVar : List (Arg F) → Except Failure (NgxStr × List (Arg F))
  | .var len data :: args => .ok (⟨len.setWidth 64, data⟩, args)
  | _ => .error .argument

/-- `va_arg(args, u_char *)`. -/
def vaPointer : List (Arg F) → Except Failure (List UInt8 × List (Arg F))
  | .pointer mem :: args => .ok (mem, args)
  | _ => .error .argument

end Arguments

/-- `*buf++ = c`. -/
def store (room : ℕ) (c : UInt8) (buf : List UInt8) : Except Failure (List UInt8) :=
  if buf.length < room then .ok (buf ++ [c]) else .error .outside

/-- `ngx_cpymem` of the first `len` bytes of `src`. -/
def ngxCpymem (room len : ℕ) (src buf : List UInt8) : Except Failure (List UInt8) :=
  if src.length < len then .error .unreadable
  else if buf.length + len ≤ room then .ok (buf ++ src.take len)
  else .error .outside

def Hex.digit : Hex → ℕ → UInt8
  | .none, n => UInt8.ofNat n + byte '0'
  | .lower, n => (bytes "0123456789abcdef").getD n 0
  | .upper, n => (bytes "0123456789ABCDEF").getD n 0

def Hex.base : Hex → ℕ
  | .none => 10
  | .lower => 16
  | .upper => 16

/-- The loops that write digits into the bytes of `temp` that are left, from the last one
on. -/
def putDigits (hex : Hex) : ℕ → ℕ → List UInt8 → Except Failure (List UInt8)
  | 0, _, _ => .error .outside
  | left + 1, n, p =>
      let p := hex.digit (n % hex.base) :: p
      if n / hex.base = 0 then .ok p else putDigits hex left (n / hex.base) p

/-- The padding. -/
def pad (room : ℕ) (zero : UInt8) : ℕ → List UInt8 → Except Failure (List UInt8)
  | 0, buf => .ok buf
  | n + 1, buf =>
      if buf.length < room then do
        let buf ← store room zero buf
        pad room zero n buf
      else .ok buf

/-- `NGX_INT64_LEN`, `NGX_INT_T_LEN` and `NGX_ATOMIC_T_LEN`. -/
def ngxInt64Len : ℕ := 20

/-- `ngx_sprintf_num`; numbers up to `NGX_MAX_UINT32_VALUE` are divided as 32-bit numbers. -/
def ngxSprintfNum (room : ℕ) (ui64 : BitVec 64) (zero : UInt8) (hex : Hex) (width : BitVec 64)
    (buf : List UInt8) : Except Failure (List UInt8) := do
  let n := if hex = .none ∧ ui64 ≤ 0xffffffff then (ui64.setWidth 32).toNat else ui64.toNat
  let p ← putDigits hex ngxInt64Len n []
  let buf ← pad room zero (width.toNat - p.length) buf
  let len := if room < buf.length + p.length then room - buf.length else p.length
  ngxCpymem room len p buf

/-- `ngx_sprintf_str` for a string that ends with a null byte. -/
def copyCstr (room : ℕ) : List UInt8 → List UInt8 → Except Failure (List UInt8)
  | [], _ => .error .unreadable
  | c :: src, buf =>
      if c = 0 then .ok buf
      else if buf.length < room then do
        let buf ← store room c buf
        copyCstr room src buf
      else .ok buf

/-- The two digits of a byte. -/
def storeHex (room : ℕ) (hex : Hex) (c : UInt8) (buf : List UInt8) :
    Except Failure (List UInt8) := do
  let buf ← store room (hex.digit (c >>> 4).toNat) buf
  store room (hex.digit (c &&& 0xf).toNat) buf

/-- `ngx_sprintf_str` in hexadecimal for a string that ends with a null byte. -/
def hexCstr (room : ℕ) (hex : Hex) : List UInt8 → List UInt8 → Except Failure (List UInt8)
  | [], _ => .error .unreadable
  | c :: src, buf =>
      if c = 0 then .ok buf
      else if buf.length + 1 < room then do
        let buf ← storeHex room hex c buf
        hexCstr room hex src buf
      else .ok buf

/-- `ngx_sprintf_str` in hexadecimal for a string of a given length. -/
def hexStr (room : ℕ) (hex : Hex) : ℕ → List UInt8 → List UInt8 → Except Failure (List UInt8)
  | 0, _, buf => .ok buf
  | len + 1, src, buf =>
      if buf.length + 1 < room then
        match src with
        | [] => .error .unreadable
        | c :: src => do
            let buf ← storeHex room hex c buf
            hexStr room hex len src buf
      else .ok buf

/-- `ngx_sprintf_str`; the length `(size_t) -1` stands for the null byte. -/
def ngxSprintfStr (room : ℕ) (v : NgxStr) (hex : Hex) (buf : List UInt8) :
    Except Failure (List UInt8) :=
  if hex = .none then
    if v.len = -1 then copyCstr room v.data buf
    else ngxCpymem room (min (room - buf.length) v.len.toNat) v.data buf
  else if v.len = -1 then hexCstr room hex v.data buf
  else hexStr room hex v.len.toNat v.data buf

/-- The variables that are set before the conversion. -/
structure Spec where
  zero : UInt8
  width : BitVec 64
  sign : Bool
  hex : Hex
  maxWidth : Bool
  fracWidth : BitVec 64
  slen : BitVec 64

/-- The loops that read `width` and `frac_width`. -/
def readDigits : List UInt8 → BitVec 64 → BitVec 64 × List UInt8
  | [], n => (n, [])
  | c :: fmt, n =>
      if isDigit c then readDigits fmt (n * 10 + BitVec.ofNat 64 (c - byte '0').toNat)
      else (n, c :: fmt)

def readModifiers {F : Type} : List UInt8 → List (Arg F) → Spec →
    Except Failure (Spec × List UInt8 × List (Arg F))
  | [], args, spec => .ok (spec, [], args)
  | c :: fmt, args, spec =>
      if c = byte 'u' then readModifiers fmt args { spec with sign := false }
      else if c = byte 'm' then readModifiers fmt args { spec with maxWidth := true }
      else if c = byte 'X' then
        readModifiers fmt args { spec with hex := .upper, sign := false }
      else if c = byte 'x' then
        readModifiers fmt args { spec with hex := .lower, sign := false }
      else if c = byte '.' then
        let (fracWidth, fmt) := readDigits fmt spec.fracWidth
        .ok ({ spec with fracWidth }, fmt, args)
      else if c = byte '*' then do
        let (slen, args) ← vaWord args
        readModifiers fmt args { spec with slen }
      else .ok (spec, c :: fmt, args)

/-- The end of the loop for an integer, `i64` if it has a sign and else `ui64`. -/
def writeNumber (room : ℕ) (spec : Spec) (value : BitVec 64) (buf : List UInt8) :
    Except Failure (List UInt8) :=
  if spec.sign = true ∧ value.toInt < 0 then do
    let buf ← store room (byte '-') buf
    ngxSprintfNum room (-value) spec.zero spec.hex spec.width buf
  else ngxSprintfNum room value spec.zero spec.hex spec.width buf

section Conversions

variable {F : Type} [CFloat F]

/-- The conversion of a `double` to `uint64_t`; one that C leaves undefined is taken as
zero. -/
def castUint64 (f : F) : BitVec 64 :=
  match CFloat.toRat f with
  | none => 0
  | some q => if -1 < q ∧ q < 2 ^ 64 then BitVec.ofNat 64 q.floor.toNat else 0

/-- `ui64` and `frac` of the conversion `%f` for a number that is not negative. -/
def splitDouble (fracWidth : BitVec 64) (f : F) : BitVec 64 × BitVec 64 :=
  let ui64 := BitVec.ofInt 64 (CFloat.cast f)
  if fracWidth = 0 then (ui64, 0)
  else
    let scale := (10 : BitVec 64) ^ fracWidth.toNat
    let frac := castUint64 ((f - CFloat.ofInt ui64.toNat) * CFloat.ofInt scale.toNat +
      CFloat.lit (1 / 2))
    if frac = scale then (ui64 + 1, 0) else (ui64, frac)

/-- The conversion `%f` behind the sign. -/
def writeSplit (room : ℕ) (spec : Spec) (f : F) (buf : List UInt8) :
    Except Failure (List UInt8) := do
  let (ui64, frac) := splitDouble spec.fracWidth f
  let buf ← ngxSprintfNum room ui64 spec.zero .none spec.width buf
  if spec.fracWidth = 0 then .ok buf
  else do
    let buf ← if buf.length < room then store room (byte '.') buf else .ok buf
    ngxSprintfNum room frac (byte '0') .none spec.fracWidth buf

/-- The conversion `%f`. -/
def writeDouble (room : ℕ) (spec : Spec) (f : F) (buf : List UInt8) :
    Except Failure (List UInt8) :=
  if CFloat.lt f (CFloat.ofInt 0) = true then do
    let buf ← store room (byte '-') buf
    writeSplit room spec (CFloat.ofInt 0 - f) buf
  else writeSplit room spec f buf

/-- The `switch` over the conversions, each with its argument and what it writes. -/
def convert (room : ℕ) (spec : Spec) (c : UInt8) (args : List (Arg F)) (buf : List UInt8) :
    Except Failure (List UInt8 × List (Arg F)) :=
  if c = byte 'V' then do
    let (v, args) ← vaStr args
    let buf ← ngxSprintfStr room v spec.hex buf
    .ok (buf, args)
  else if c = byte 'v' then do
    let (vv, args) ← vaVar args
    let buf ← ngxSprintfStr room vv spec.hex buf
    .ok (buf, args)
  else if c = byte 's' then do
    let (p, args) ← vaPointer args
    let buf ← ngxSprintfStr room ⟨spec.slen, p⟩ spec.hex buf
    .ok (buf, args)
  else if c = byte 'O' ∨ c = byte 'T' ∨ c = byte 'r' then do
    let (i64, args) ← vaWord args
    let buf ← writeNumber room { spec with sign := true } i64 buf
    .ok (buf, args)
  else if c = byte 'P' then do
    let (pid, args) ← vaHalf args
    let buf ← writeNumber room { spec with sign := true } (pid.signExtend 64) buf
    .ok (buf, args)
  else if c = byte 'M' then do
    let (ms, args) ← vaWord args
    let buf ← writeNumber room { spec with sign := ms == -1 } ms buf
    .ok (buf, args)
  else if c = byte 'z' ∨ c = byte 'l' ∨ c = byte 'L' then do
    let (value, args) ← vaWord args
    let buf ← writeNumber room spec value buf
    .ok (buf, args)
  else if c = byte 'i' ∨ c = byte 'A' then do
    let (value, args) ← vaWord args
    let width := if spec.maxWidth then BitVec.ofNat 64 ngxInt64Len else spec.width
    let buf ← writeNumber room { spec with width } value buf
    .ok (buf, args)
  else if c = byte 'd' ∨ c = byte 'D' then do
    let (d, args) ← vaHalf args
    let value := if spec.sign then d.signExtend 64 else d.setWidth 64
    let buf ← writeNumber room spec value buf
    .ok (buf, args)
  else if c = byte 'f' then do
    let (f, args) ← vaDouble args
    let buf ← writeDouble room spec f buf
    .ok (buf, args)
  else if c = byte 'p' then do
    let (p, args) ← vaWord args
    let buf ← writeNumber room
      { spec with hex := .upper, sign := false, zero := byte '0', width := 16 } p buf
    .ok (buf, args)
  else if c = byte 'c' then do
    let (d, args) ← vaHalf args
    let buf ← store room (UInt8.ofBitVec (d.setWidth 8)) buf
    .ok (buf, args)
  else if c = byte 'Z' then do
    let buf ← store room 0 buf
    .ok (buf, args)
  else if c = byte 'N' then do
    let buf ← store room lf buf
    .ok (buf, args)
  else do
    -- the second of two percent signs, and a letter without conversion
    let buf ← store room c buf
    .ok (buf, args)

/-- The specification that begins at `fmt`, behind the percent sign. -/
def readSpec (fmt : List UInt8) (args : List (Arg F)) :
    Except Failure (Spec × List UInt8 × List (Arg F)) :=
  let zero := if fmt.head? = some (byte '0') then byte '0' else byte ' '
  let (width, fmt) := readDigits fmt 0
  readModifiers fmt args ⟨zero, width, true, .none, false, 0, -1⟩

def formatLoop (room : ℕ) : ℕ → List UInt8 → List (Arg F) → List UInt8 →
    Except Failure (List UInt8)
  | 0, _, _, _ => .error .turns
  | _ + 1, [], _, buf => .ok buf
  | turns + 1, c :: fmt, args, buf =>
      if buf.length < room then
        if c = byte '%' then do
          let (spec, fmt, args) ← readSpec fmt args
          match fmt with
          | [] => .error .unreadable
          | c :: fmt => do
              let (buf, args) ← convert room spec c args buf
              formatLoop room turns fmt args buf
        else do
          let buf ← store room c buf
          formatLoop room turns fmt args buf
      else .ok buf

/-- `ngx_vslprintf`: the bytes from `buf` to the pointer that is returned. -/
def ngxVslprintf (room : ℕ) (fmt : List UInt8) (args : List (Arg F)) :
    Except Failure (List UInt8) :=
  formatLoop room (fmt.length + 1) fmt args []

end Conversions

/-! ## Formats and what they say -/

/-- The modifiers of a conversion; an asterisk comes with its argument. -/
inductive Modifier where
  | unsigned
  | maxWidth
  | upper
  | lower
  | star (slen : BitVec 64)

def Modifier.letter : Modifier → UInt8
  | .unsigned => byte 'u'
  | .maxWidth => byte 'm'
  | .upper => byte 'X'
  | .lower => byte 'x'
  | .star _ => byte '*'

def Modifier.args {F : Type} : Modifier → List (Arg F)
  | .star slen => [.word slen]
  | _ => []

def Modifier.apply (spec : Spec) : Modifier → Spec
  | .unsigned => { spec with sign := false }
  | .maxWidth => { spec with maxWidth := true }
  | .upper => { spec with hex := .upper, sign := false }
  | .lower => { spec with hex := .lower, sign := false }
  | .star slen => { spec with slen }

/-- What stands between a percent sign and the letter of the conversion. -/
structure Directive where
  width : List UInt8
  modifiers : List Modifier
  frac : Option (List UInt8)
  width_digits : ∀ ch ∈ width, isDigit ch = true
  frac_digits : ∀ ds ∈ frac, ∀ ch ∈ ds, isDigit ch = true

namespace Directive

/-- The text of the width behind the dot. -/
def fracText (d : Directive) : List UInt8 :=
  match d.frac with
  | none => []
  | some ds => byte '.' :: ds

def text (d : Directive) : List UInt8 :=
  d.width ++ (d.modifiers.map Modifier.letter ++ d.fracText)

/-- The arguments of a directive. -/
def args {F : Type} (d : Directive) : List (Arg F) :=
  d.modifiers.flatMap Modifier.args

/-- What a directive asks for. -/
def spec (d : Directive) : Spec :=
  let zero := if d.width.head? = some (byte '0') then byte '0' else byte ' '
  let width := BitVec.ofNat 64 (decimal d.width)
  { d.modifiers.foldl Modifier.apply ⟨zero, width, true, .none, false, 0, -1⟩ with
    fracWidth := BitVec.ofNat 64 (decimal (d.frac.getD [])) }

end Directive

/-- A digit in upper case if `hex` is 2. -/
def Hex.letter (hex : Hex) (c : UInt8) : UInt8 :=
  if hex = .upper ∧ isDigit c = false then c - 32 else c

def Hex.digits (hex : Hex) (n : ℕ) : List UInt8 :=
  (sprintfBase hex.base n).map hex.letter

/-- The digits of a number, padded to a width. -/
def padded (hex : Hex) (zero : UInt8) (width : BitVec 64) (n : ℕ) : List UInt8 :=
  List.replicate (width.toNat - (hex.digits n).length) zero ++ hex.digits n

/-- A minus for what is below zero. -/
def minus (negative : Prop) [Decidable negative] : List UInt8 :=
  if negative then [byte '-'] else []

/-- A number: the sign, and the digits padded to the width. -/
def numberText (spec : Spec) (v : ℤ) : List UInt8 :=
  minus (v < 0) ++ padded spec.hex spec.zero spec.width v.natAbs

/-- The number that a word stands for. -/
def Spec.value {w : ℕ} (spec : Spec) (value : BitVec w) : ℤ :=
  if spec.sign then value.toInt else value.toNat

/-- The conversions of integers: the letter, the argument, and the number with what it is
written with. -/
inductive Number {F : Type} (spec : Spec) : UInt8 → Arg F → Spec → ℤ → Prop
  | signed (c : UInt8) (hc : c ∈ bytes "OTr") (w : BitVec 64) :
      Number spec c (.word w) spec w.toInt
  | pid (w : BitVec 32) : Number spec (byte 'P') (.half w) spec w.toInt
  | msec (w : BitVec 64) (hw : w ≠ -1) : Number spec (byte 'M') (.word w) spec w.toNat
  | msecNone : Number spec (byte 'M') (.word (-1)) spec (-1)
  | word (c : UInt8) (hc : c ∈ bytes "zlL") (w : BitVec 64) :
      Number spec c (.word w) spec (spec.value w)
  | int (c : UInt8) (hc : c ∈ bytes "iA") (w : BitVec 64) :
      Number spec c (.word w)
        { spec with width := if spec.maxWidth then 20 else spec.width } (spec.value w)
  | half (c : UInt8) (hc : c ∈ bytes "dD") (w : BitVec 32) :
      Number spec c (.half w) spec (spec.value w)
  | pointer (w : BitVec 64) :
      Number spec (byte 'p') (.word w)
        { spec with hex := .upper, zero := byte '0', width := 16 } w.toNat

def NgxStr.text (v : NgxStr) : List UInt8 :=
  if v.len = -1 then v.data.takeWhile (· != 0) else v.data.take v.len.toNat

/-- The bytes of a string are in the memory. -/
def NgxStr.Readable (v : NgxStr) : Prop :=
  if v.len = -1 then 0 ∈ v.data else v.len.toNat ≤ v.data.length

/-- The two digits of a byte. -/
def Hex.pair (hex : Hex) (c : UInt8) : List UInt8 :=
  [hex.digit (c >>> 4).toNat, hex.digit (c &&& 0xf).toNat]

def Hex.strText (hex : Hex) (v : NgxStr) : List UInt8 :=
  if hex = .none then v.text else v.text.flatMap hex.pair

section Formats

variable {F : Type} [CFloat F]

/-- What is written of a `double` that is not negative. -/
def splitText (spec : Spec) (f : F) : List UInt8 :=
  let (ui64, frac) := splitDouble spec.fracWidth f
  padded .none spec.zero spec.width ui64.toNat ++
    if spec.fracWidth = 0 then []
    else byte '.' :: padded .none (byte '0') spec.fracWidth frac.toNat

def doubleText (spec : Spec) (f : F) : List UInt8 :=
  let negative := CFloat.lt f (CFloat.ofInt 0) = true
  minus negative ++ splitText spec (if negative then CFloat.ofInt 0 - f else f)

/-- The conversions: the letter, the arguments and the text. -/
inductive Converts (spec : Spec) : UInt8 → List (Arg F) → List UInt8 → Prop
  | str (v : NgxStr) (hv : v.Readable) :
      Converts spec (byte 'V') [.str v] (spec.hex.strText v)
  | var (len : BitVec 28) (data : List UInt8) (hlen : len.toNat ≤ data.length) :
      Converts spec (byte 'v') [.var len data] (spec.hex.strText ⟨len.setWidth 64, data⟩)
  | cstr (mem : List UInt8) (hmem : NgxStr.Readable ⟨spec.slen, mem⟩) :
      Converts spec (byte 's') [.pointer mem] (spec.hex.strText ⟨spec.slen, mem⟩)
  | number {c : UInt8} {arg : Arg F} {as : Spec} {v : ℤ} (h : Number spec c arg as v) :
      Converts spec c [arg] (numberText as v)
  | double (f : F) : Converts spec (byte 'f') [.double f] (doubleText spec f)
  | char (d : BitVec 32) : Converts spec (byte 'c') [.half d] [UInt8.ofBitVec (d.setWidth 8)]
  | null : Converts spec (byte 'Z') [] [0]
  | newline : Converts spec (byte 'N') [] [lf]
  | percent : Converts spec (byte '%') [] [byte '%']

/-- The conversions of strings to hexadecimal digits. -/
def IsHexString (spec : Spec) (c : UInt8) : Prop :=
  spec.hex ≠ .none ∧ c ∈ bytes "Vvs"

/-- The formats whose every percent sign is followed by a conversion, with the arguments
that match and what is written into a buffer without limit.  Strings are converted to
hexadecimal digits only if `hexStrings` holds. -/
inductive Formats (hexStrings : Prop) : List UInt8 → List (Arg F) → List UInt8 → Prop
  | nil (args : List (Arg F)) : Formats hexStrings [] args []
  | plain {c : UInt8} {fmt : List UInt8} {args : List (Arg F)} {text : List UInt8}
      (hc : c ≠ 0 ∧ c ≠ byte '%') (h : Formats hexStrings fmt args text) :
      Formats hexStrings (c :: fmt) args (c :: text)
  | conversion {c : UInt8} {fmt : List UInt8} {own args : List (Arg F)}
      {first text : List UInt8} (d : Directive) (hc : Converts d.spec c own first)
      (hhex : IsHexString d.spec c → hexStrings) (h : Formats hexStrings fmt args text) :
      Formats hexStrings (byte '%' :: (d.text ++ c :: fmt)) (d.args ++ (own ++ args))
        (first ++ text)

end Formats

/-! ## Writing into the room -/

/-- The function writes as much of the text as there is room for. -/
def Writes (room : ℕ) (f : List UInt8 → Except Failure (List UInt8)) (text : List UInt8) : Prop :=
  ∀ buf, buf.length ≤ room → f buf = .ok ((buf ++ text).take room)

theorem take_append_take {α : Type} (l r : List α) (n : ℕ) :
    (l.take n ++ r).take n = (l ++ r).take n := by
  rw [List.take_append, List.take_append, List.take_take, Nat.min_self, List.length_take]
  congr 2
  omega

theorem take_full {α : Type} {n : ℕ} {buf pre : List α} (hpre : buf = pre.take n)
    (hfull : ¬buf.length < n) (r : List α) : buf = (pre ++ r).take n := by
  rw [hpre, List.length_take] at hfull
  rw [hpre, List.take_append_of_le_length (by omega)]

/-- A byte fits into a buffer that is not full. -/
theorem take_room_append {α : Type} {n : ℕ} {buf pre : List α} (hpre : buf = pre.take n)
    (hroom : buf.length < n) (c : α) : buf ++ [c] = (pre ++ [c]).take n := by
  have hlen : (buf ++ [c]).length ≤ n := by
    rw [List.length_append, List.length_singleton]
    exact hroom
  rw [← take_append_take, ← hpre, List.take_of_length_le hlen]

theorem Writes.bind {room : ℕ} {f g : List UInt8 → Except Failure (List UInt8)}
    {first second : List UInt8} (hf : Writes room f first) (hg : Writes room g second) :
    Writes room (fun buf => f buf >>= g) (first ++ second) := by
  intro buf hbuf
  have hroom : ((buf ++ first).take room).length ≤ room := List.length_take_le _ _
  simp only [hf buf hbuf]
  refine (hg _ hroom).trans ?_
  rw [take_append_take, List.append_assoc]

theorem Writes.nothing (room : ℕ) : Writes room .ok [] := fun buf hbuf => by
  rw [List.append_nil, List.take_of_length_le hbuf]

theorem store_eq {room : ℕ} {buf : List UInt8} (h : buf.length < room) (c : UInt8) :
    store room c buf = .ok (buf ++ [c]) :=
  if_pos h

theorem writes_pad (room : ℕ) (zero : UInt8) (n : ℕ) :
    Writes room (pad room zero n) (List.replicate n zero) := by
  induction n with
  | zero => exact .nothing room
  | succ n ih =>
      intro buf hbuf
      rw [pad]
      by_cases h : buf.length < room
      · have hnext : (buf ++ [zero]).length ≤ room := by
          rw [List.length_append, List.length_singleton]
          exact h
        simp only [if_pos h, store_eq h, bind, Except.bind]
        rw [ih _ hnext, List.append_assoc, List.singleton_append, List.replicate_succ]
      · have hfull : buf.length = room := by omega
        rw [if_neg h, ← hfull, List.take_left]

theorem ngxCpymem_eq {room len : ℕ} {src buf : List UInt8} (hsrc : len ≤ src.length)
    (hbuf : buf.length ≤ room) (hlen : src.take len = src.take (room - buf.length))
    (hroom : buf.length + len ≤ room) :
    ngxCpymem room len src buf = .ok ((buf ++ src).take room) := by
  rw [ngxCpymem, if_neg (Nat.not_lt.mpr hsrc), if_pos hroom, hlen, List.take_append,
    List.take_of_length_le hbuf]

theorem writes_copy (room : ℕ) (p : List UInt8) :
    Writes room (fun buf => ngxCpymem room
      (if room < buf.length + p.length then room - buf.length else p.length) p buf) p := by
  intro buf hbuf
  beta_reduce
  split_ifs with hlt
  · exact ngxCpymem_eq (by omega) hbuf rfl (by omega)
  · refine ngxCpymem_eq (Nat.le_refl _) hbuf ?_ (by omega)
    rw [List.take_length, List.take_of_length_le (by omega)]

/-! ## Digits -/

theorem Hex.one_lt_base (hex : Hex) : 1 < hex.base := by
  cases hex <;> decide

theorem Hex.base_le (hex : Hex) : hex.base ≤ 16 := by
  cases hex <;> decide

theorem Hex.digit_eq {hex : Hex} {n : ℕ} (hn : n < hex.base) : hex.digits n = [hex.digit n] := by
  have htest : ∀ n < 16, n < hex.base → hex.digits n = [hex.digit n] := by
    cases hex <;> decide
  exact htest n (Nat.lt_of_lt_of_le hn hex.base_le) hn

theorem Hex.digits_of_le {hex : Hex} {n : ℕ} (hn : hex.base ≤ n) :
    hex.digits n = hex.digits (n / hex.base) ++ hex.digits (n % hex.base) := by
  have hmod : n % hex.base < hex.base := Nat.mod_lt n (Nat.zero_lt_of_lt hex.one_lt_base)
  have hsplit : Nat.toDigits hex.base n =
      Nat.toDigits hex.base (n / hex.base) ++ Nat.toDigits hex.base (n % hex.base) := by
    rw [Nat.toDigits_of_base_le hex.one_lt_base hn, Nat.toDigits_of_lt_base hmod]
  rw [digits, sprintfBase, hsplit, List.map_append, List.map_append]
  rfl

theorem putDigits_eq (hex : Hex) {left n : ℕ} (hpos : 0 < left) (hn : n < hex.base ^ left)
    (p : List UInt8) : putDigits hex left n p = .ok (hex.digits n ++ p) := by
  induction left generalizing n p with
  | zero => cases hpos
  | succ left ih =>
      have hbase : 0 < hex.base := Nat.zero_lt_of_lt hex.one_lt_base
      have hmod : n % hex.base < hex.base := Nat.mod_lt n hbase
      rw [putDigits]
      by_cases h : n / hex.base = 0
      · have hlt := Nat.lt_of_div_eq_zero hbase h
        rw [if_pos h, Nat.mod_eq_of_lt hlt, Hex.digit_eq hlt, List.singleton_append]
      · have hle : hex.base ≤ n := by
          by_contra hlt
          exact h (Nat.div_eq_of_lt (Nat.lt_of_not_le hlt))
        have hnext : n / hex.base < hex.base ^ left := Nat.div_lt_of_lt_mul (by
          rwa [Nat.pow_succ'] at hn)
        have hleft : 0 < left := by
          by_contra hzero
          rw [Nat.eq_zero_of_not_pos hzero, Nat.pow_zero] at hnext
          exact h (Nat.lt_one_iff.mp hnext)
        rw [if_neg h, ih hleft hnext, Hex.digits_of_le hle, Hex.digit_eq hmod, List.append_assoc,
          List.singleton_append]

theorem Hex.foldl_digits (hex : Hex) (n : ℕ) :
    (hex.digits n).foldl (Inet.readDigit hex.base) 0 = n := by
  have htest : ∀ n < 16, n < hex.base → ((hexDigit (hex.digit n)).getD 0).toNat = n := by
    cases hex <;> decide
  have hlast {v n : ℕ} (hn : n < hex.base) :
      [hex.digit n].foldl (Inet.readDigit hex.base) v = v * hex.base + n := by
    rw [List.foldl_cons, List.foldl_nil, Inet.readDigit,
      htest n (Nat.lt_of_lt_of_le hn hex.base_le) hn]
  induction n using Nat.strong_induction_on with
  | _ n ih =>
      by_cases h : n < hex.base
      · rw [Hex.digit_eq h, hlast h, Nat.zero_mul, Nat.zero_add]
      · have hle := Nat.le_of_not_lt h
        have hbase : 0 < hex.base := Nat.zero_lt_of_lt hex.one_lt_base
        have hmod : n % hex.base < hex.base := Nat.mod_lt n hbase
        have hprev := ih (n / hex.base) (Nat.div_lt_self (by omega) hex.one_lt_base)
        rw [Hex.digits_of_le hle, List.foldl_append, hprev, Hex.digit_eq hmod, hlast hmod,
          Nat.mul_comm, Nat.div_add_mod]

theorem writes_num (room : ℕ) (ui64 : BitVec 64) (zero : UInt8) (hex : Hex) (width : BitVec 64) :
    Writes room (ngxSprintfNum room ui64 zero hex width) (padded hex zero width ui64.toNat) := by
  have hsame : (if hex = .none ∧ ui64 ≤ 0xffffffff then (ui64.setWidth 32).toNat
      else ui64.toNat) = ui64.toNat := by
    split_ifs with h
    · have hle : ui64.toNat ≤ 0xffffffff := h.2
      rw [BitVec.toNat_setWidth]
      omega
    · rfl
  have hsize : ui64.toNat < hex.base ^ ngxInt64Len := by
    refine Nat.lt_trans ui64.isLt ?_
    cases hex <;> decide
  intro buf hbuf
  have hpad := writes_pad room zero (width.toNat - (hex.digits ui64.toNat).length) buf hbuf
  rw [ngxSprintfNum, hsame, putDigits_eq hex (by decide) hsize, List.append_nil]
  simp only [bind, Except.bind]
  rw [hpad, padded, ← List.append_assoc]
  generalize buf ++ List.replicate (width.toNat - (hex.digits ui64.toNat).length) zero = written
  rw [← take_append_take written]
  exact writes_copy room (hex.digits ui64.toNat) _ (List.length_take_le room written)

theorem minus_true {p : Prop} [Decidable p] (h : p) : minus p = [byte '-'] :=
  if_pos h

theorem minus_false {p : Prop} [Decidable p] (h : ¬p) : minus p = [] :=
  if_neg h

/-- A function that may begin with a minus, which is written without a check. -/
theorem store_writes {room : ℕ} {f : List UInt8 → Except Failure (List UInt8)}
    {text buf : List UInt8} (hf : Writes room f text) (c : UInt8) (hbuf : buf.length < room) :
    (store room c buf >>= f) = .ok ((buf ++ c :: text).take room) := by
  have hnext : (buf ++ [c]).length ≤ room := by
    rw [List.length_append, List.length_singleton]
    exact hbuf
  rw [store_eq hbuf]
  refine (hf _ hnext).trans ?_
  rw [List.append_assoc, List.singleton_append]

theorem Writes.byte {room : ℕ} {f : List UInt8 → Except Failure (List UInt8)} {text : List UInt8}
    (hf : Writes room f text) (c : UInt8) :
    Writes room (fun buf => if buf.length < room then store room c buf >>= f
      else Except.ok buf >>= f) (c :: text) := by
  intro buf hbuf
  beta_reduce
  split_ifs with hroom
  · exact store_writes hf c hroom
  · have hfull : buf.length = room := by omega
    refine (hf buf hbuf).trans ?_
    rw [← hfull, List.take_left, List.take_left]

theorem writeNumber_eq {room : ℕ} {buf : List UInt8} (spec : Spec) (value : BitVec 64)
    (hbuf : buf.length < room) :
    writeNumber room spec value buf =
      .ok ((buf ++ numberText spec (spec.value value)).take room) := by
  rw [writeNumber, numberText, Spec.value]
  by_cases hneg : spec.sign = true ∧ value.toInt < 0
  · have habs : (-value).toNat = value.toInt.natAbs := by
      have hint := BitVec.toInt_eq_toNat_cond value
      have hlt := value.isLt
      have hbelow := hneg.2
      rw [BitVec.toNat_neg]
      split_ifs at hint <;> omega
    rw [if_pos hneg, if_pos hneg.1, minus_true hneg.2, List.singleton_append, ← habs]
    exact store_writes (writes_num room (-value) spec.zero spec.hex spec.width) _ hbuf
  · have hvalue : 0 ≤ (if spec.sign then value.toInt else (value.toNat : ℤ)) ∧
        (if spec.sign then value.toInt else (value.toNat : ℤ)).natAbs = value.toNat := by
      have hint := BitVec.toInt_eq_toNat_cond value
      split_ifs with hsign
      · have hpos : ¬value.toInt < 0 := fun h => hneg ⟨hsign, h⟩
        split_ifs at hint <;> omega
      · omega
    rw [if_neg hneg, minus_false (by omega), hvalue.2, List.nil_append]
    exact writes_num room value spec.zero spec.hex spec.width buf hbuf.le

/-! ## Strings -/

theorem writes_cstr (room : ℕ) {src : List UInt8} (hsrc : 0 ∈ src) :
    Writes room (copyCstr room src) (src.takeWhile (· != 0)) := by
  induction src with
  | nil => cases hsrc
  | cons c src ih =>
      intro buf hbuf
      rw [copyCstr]
      by_cases hzero : c = 0
      · rw [if_pos hzero, hzero]
        exact Writes.nothing room buf hbuf
      · have hrest : 0 ∈ src := (List.mem_cons.mp hsrc).resolve_left (Ne.symm hzero)
        have hcons : (c :: src).takeWhile (· != 0) = c :: src.takeWhile (· != 0) :=
          List.takeWhile_cons_of_pos (bne_iff_ne.mpr hzero)
        rw [if_neg hzero, hcons]
        split_ifs with hroom
        · exact store_writes (ih hrest) c hroom
        · have hfull : buf.length = room := by omega
          rw [← hfull, List.take_left]

theorem writes_str (room : ℕ) {v : NgxStr} (hv : v.Readable) :
    Writes room (ngxSprintfStr room v .none) v.text := by
  intro buf hbuf
  rw [ngxSprintfStr, if_pos rfl, NgxStr.text]
  rw [NgxStr.Readable] at hv
  split_ifs at hv ⊢ with hlen
  · exact writes_cstr room hv buf hbuf
  · have hmin : min (room - buf.length) v.len.toNat ≤ room - buf.length := Nat.min_le_left _ _
    have hread : min (room - buf.length) v.len.toNat ≤ v.data.length :=
      Nat.le_trans (Nat.min_le_right _ _) hv
    rw [ngxCpymem, if_neg (by omega), if_pos (by omega), List.take_append,
      List.take_of_length_le hbuf, List.take_take]

/-- The function ends with its text inside of the room. -/
def Stays (room : ℕ) (f : List UInt8 → Except Failure (List UInt8)) : Prop :=
  ∀ buf, buf.length ≤ room → ∃ out, f buf = .ok out ∧ out.length ≤ room

theorem Writes.stays {room : ℕ} {f : List UInt8 → Except Failure (List UInt8)}
    {text : List UInt8} (h : Writes room f text) : Stays room f :=
  fun buf hbuf => ⟨_, h buf hbuf, List.length_take_le _ _⟩

theorem storeHex_eq {room : ℕ} {buf : List UInt8} (h : buf.length + 1 < room) (hex : Hex)
    (c : UInt8) : storeHex room hex c buf = .ok (buf ++ hex.pair c) := by
  have hnext : (buf ++ [hex.digit (c >>> 4).toNat]).length < room := by
    rw [List.length_append, List.length_singleton]
    exact h
  rw [storeHex, store_eq (Nat.lt_of_succ_lt h)]
  refine (store_eq hnext _).trans ?_
  rw [List.append_assoc]
  rfl

theorem length_append_pair (buf : List UInt8) (hex : Hex) (c : UInt8) :
    (buf ++ hex.pair c).length = buf.length + 2 := by
  rw [List.length_append]
  rfl

theorem hexCstr_stays (room : ℕ) (hex : Hex) {src : List UInt8} (hsrc : 0 ∈ src) :
    Stays room (hexCstr room hex src) := by
  induction src with
  | nil => cases hsrc
  | cons c src ih =>
      intro buf hbuf
      rw [hexCstr]
      split_ifs with hzero hroom
      · exact ⟨buf, rfl, hbuf⟩
      · have hrest : 0 ∈ src := (List.mem_cons.mp hsrc).resolve_left (Ne.symm hzero)
        have hlen := length_append_pair buf hex c
        rw [storeHex_eq hroom]
        exact ih hrest _ (by omega)
      · exact ⟨buf, rfl, hbuf⟩

theorem hexStr_stays (room : ℕ) (hex : Hex) {len : ℕ} {src : List UInt8}
    (hsrc : len ≤ src.length) : Stays room (hexStr room hex len src) := by
  induction len generalizing src with
  | zero => exact fun buf hbuf => ⟨buf, rfl, hbuf⟩
  | succ len ih =>
      intro buf hbuf
      cases src with
      | nil => cases hsrc
      | cons c src =>
          rw [hexStr]
          split_ifs with hroom
          · have hlen := length_append_pair buf hex c
            rw [storeHex_eq hroom]
            exact ih (Nat.le_of_succ_le_succ hsrc) _ (by omega)
          · exact ⟨buf, rfl, hbuf⟩

theorem ngxSprintfStr_stays (room : ℕ) {v : NgxStr} (hv : v.Readable) (hex : Hex) :
    Stays room (ngxSprintfStr room v hex) := by
  by_cases hhex : hex = .none
  · rw [hhex]
    exact (writes_str room hv).stays
  · intro buf hbuf
    rw [ngxSprintfStr, if_neg hhex]
    rw [NgxStr.Readable] at hv
    split_ifs at hv ⊢ with hlen
    · exact hexCstr_stays room hex hv buf hbuf
    · exact hexStr_stays room hex hv buf hbuf

/-! ## The conversions -/

section Conversions

variable {F : Type} [CFloat F] {room : ℕ} {buf : List UInt8} {spec : Spec}

theorem writes_split (room : ℕ) (spec : Spec) (f : F) :
    Writes room (writeSplit room spec f) (splitText spec f) := by
  intro buf hbuf
  rw [writeSplit, splitText]
  obtain ⟨ui64, frac⟩ := splitDouble spec.fracWidth f
  have hwhole := writes_num room ui64 spec.zero .none spec.width
  by_cases hfrac : spec.fracWidth = 0
  · simp only [if_pos hfrac]
    rw [List.append_nil, hwhole buf hbuf]
    rfl
  · have hdot := (writes_num room frac (byte '0') .none spec.fracWidth).byte (byte '.')
    simp only [if_neg hfrac]
    exact hwhole.bind hdot buf hbuf

theorem writeDouble_eq (spec : Spec) (f : F) (hbuf : buf.length < room) :
    writeDouble room spec f buf = .ok ((buf ++ doubleText spec f).take room) := by
  rw [writeDouble, doubleText]
  split_ifs with hneg
  · rw [minus_true hneg, List.singleton_append]
    exact store_writes (writes_split room spec _) _ hbuf
  · rw [minus_false hneg, List.nil_append]
    exact writes_split room spec f buf hbuf.le

/-- An integer is fetched and written as the number it stands for. -/
theorem Number.convert_eq {c : UInt8} {arg : Arg F} {as : Spec} {v : ℤ}
    (h : Number spec c arg as v) (args : List (Arg F)) (hbuf : buf.length < room) :
    convert room spec c (arg :: args) buf = .ok ((buf ++ numberText as v).take room, args) := by
  have hwrite (spec' : Spec) (value : BitVec 64)
      (htext : numberText spec' (spec'.value value) = numberText as v) :
      (writeNumber room spec' value buf >>= fun buf => .ok (buf, args)) =
        (.ok ((buf ++ numberText as v).take room, args) :
          Except Failure (List UInt8 × List (Arg F))) := by
    rw [writeNumber_eq spec' value hbuf, htext]
    rfl
  cases h with
  | signed c hc w =>
      have hc' : c ∈ [byte 'O', byte 'T', byte 'r'] := hc
      simp only [List.mem_cons, List.not_mem_nil, or_false] at hc'
      rcases hc' with rfl | rfl | rfl <;> exact hwrite { spec with sign := true } w rfl
  | pid w =>
      have hsign : (w.signExtend 64).toInt = w.toInt :=
        BitVec.toInt_signExtend_of_le (by decide)
      exact hwrite { spec with sign := true } (w.signExtend 64)
        (congrArg (numberText spec) hsign)
  | msec w hw =>
      have hsign : (w == -1) = false := beq_false_of_ne hw
      refine hwrite { spec with sign := w == -1 } w ?_
      rw [hsign]
      rfl
  | msecNone => exact hwrite { spec with sign := true } (-1) rfl
  | word c hc w =>
      have hc' : c ∈ [byte 'z', byte 'l', byte 'L'] := hc
      simp only [List.mem_cons, List.not_mem_nil, or_false] at hc'
      rcases hc' with rfl | rfl | rfl <;> exact hwrite spec w rfl
  | int c hc w =>
      have hc' : c ∈ [byte 'i', byte 'A'] := hc
      simp only [List.mem_cons, List.not_mem_nil, or_false] at hc'
      rcases hc' with rfl | rfl <;>
        exact hwrite { spec with width := if spec.maxWidth then 20 else spec.width } w rfl
  | half c hc w =>
      have hvalue : spec.value (if spec.sign then w.signExtend 64 else w.setWidth 64) =
          spec.value w := by
        rw [Spec.value, Spec.value]
        split_ifs with hsign
        · exact BitVec.toInt_signExtend_of_le (by decide)
        · exact congrArg Int.ofNat (BitVec.toNat_setWidth_of_le (by decide))
      have hc' : c ∈ [byte 'd', byte 'D'] := hc
      simp only [List.mem_cons, List.not_mem_nil, or_false] at hc'
      rcases hc' with rfl | rfl <;>
        exact hwrite spec (if spec.sign then w.signExtend 64 else w.setWidth 64)
          (congrArg (numberText spec) hvalue)
  | pointer w =>
      exact hwrite { spec with hex := .upper, sign := false, zero := byte '0', width := 16 } w rfl

/-- A conversion stays inside of the room, and writes as much of its text as there is room
for unless it writes a string in hexadecimal. -/
theorem Converts.convert_spec {c : UInt8} {own : List (Arg F)} {text : List UInt8}
    (h : Converts spec c own text) (args : List (Arg F)) (hbuf : buf.length < room) :
    ∃ out, convert room spec c (own ++ args) buf = .ok (out, args) ∧ out.length ≤ room ∧
      (¬IsHexString spec c → out = (buf ++ text).take room) := by
  have hexact {text : List UInt8} {x : Except Failure (List UInt8)}
      (hx : x = .ok ((buf ++ text).take room)) :
      ∃ out, (x >>= fun buf => .ok (buf, args)) = .ok (out, args) ∧ out.length ≤ room ∧
        (¬IsHexString spec c → out = (buf ++ text).take room) := by
    rw [hx]
    exact ⟨_, rfl, List.length_take_le _ _, fun _ => rfl⟩
  have hstore (c : UInt8) : store room c buf = .ok ((buf ++ [c]).take room) := by
    rw [store_eq hbuf, List.take_of_length_le]
    rw [List.length_append, List.length_singleton]
    exact hbuf
  have hstring {v : NgxStr} (hv : v.Readable) (hc : c ∈ bytes "Vvs") :
      ∃ out, (ngxSprintfStr room v spec.hex buf >>= fun buf => .ok (buf, args)) =
          .ok (out, args) ∧ out.length ≤ room ∧
        (¬IsHexString spec c → out = (buf ++ spec.hex.strText v).take room) := by
    obtain ⟨out, hout, hroom⟩ := ngxSprintfStr_stays room hv spec.hex buf hbuf.le
    refine ⟨out, by rw [hout]; rfl, hroom, fun hplain => ?_⟩
    have hhex : spec.hex = .none := by
      by_contra hne
      exact hplain ⟨hne, hc⟩
    rw [hhex, writes_str room hv buf hbuf.le] at hout
    rw [hhex, Hex.strText, if_pos rfl]
    exact (Except.ok.inj hout).symm
  cases h with
  | str v hv => exact hstring hv (by decide)
  | var len data hlen =>
      have hset : (len.setWidth 64).toNat = len.toNat := BitVec.toNat_setWidth_of_le (by decide)
      have hne : len.setWidth 64 ≠ -1 := fun h => by
        have hall : (len.setWidth 64).toNat = 2 ^ 64 - 1 := by rw [h]; rfl
        have hlt := len.isLt
        omega
      refine hstring ?_ (by decide)
      rw [NgxStr.Readable, if_neg hne, hset]
      exact hlen
  | cstr mem hmem => exact hstring hmem (by decide)
  | number h => exact ⟨_, h.convert_eq args hbuf, List.length_take_le _ _, fun _ => rfl⟩
  | double f => exact hexact (writeDouble_eq spec f hbuf)
  | char d => exact hexact (hstore _)
  | null => exact hexact (hstore _)
  | newline => exact hexact (hstore _)
  | percent => exact hexact (hstore _)

end Conversions

/-! ## The directives -/

section Directives

variable {F : Type} {spec : Spec}

/-- The letters of the conversions of integers. -/
def numberLetters : List UInt8 := bytes "OTrPMzlLiAdDp"

def letters : List UInt8 := bytes "VvsfcZN%" ++ numberLetters

theorem Number.mem_letters {c : UInt8} {arg : Arg F} {as : Spec} {v : ℤ}
    (h : Number spec c arg as v) : c ∈ numberLetters := by
  have hsub {names : List UInt8} (hnames : names ⊆ numberLetters) (hc : c ∈ names) :
      c ∈ numberLetters := hnames hc
  cases h with
  | signed c hc w => exact hsub (by decide) hc
  | pid w => decide
  | msec w hw => decide
  | msecNone => decide
  | word c hc w => exact hsub (by decide) hc
  | int c hc w => exact hsub (by decide) hc
  | half c hc w => exact hsub (by decide) hc
  | pointer w => decide

theorem Converts.mem_letters [CFloat F] {c : UInt8} {own : List (Arg F)} {text : List UInt8}
    (h : Converts spec c own text) : c ∈ letters := by
  cases h with
  | str v hv => decide
  | var len data hlen => decide
  | cstr mem hmem => decide
  | number h => exact List.mem_append_right _ h.mem_letters
  | double f => decide
  | char d => decide
  | null => decide
  | newline => decide
  | percent => decide

theorem letter_final {c : UInt8} (hc : c ∈ letters) :
    isDigit c = false ∧ c ∉ bytes "umXx.*" := by
  have htest : (letters.all fun c => !isDigit c && !(bytes "umXx.*").contains c) = true := by
    decide
  have h := List.all_eq_true.mp htest c hc
  rw [Bool.and_eq_true, Bool.not_eq_true', Bool.not_eq_true', List.contains_eq_mem,
    decide_eq_false_iff_not] at h
  exact h

/-- An integer is no string. -/
theorem not_mem_of_number {c : UInt8} (hc : c ∈ numberLetters) : c ∉ bytes "Vvs" := by
  have htest : (numberLetters.all fun c => !(bytes "Vvs").contains c) = true := by decide
  have h := List.all_eq_true.mp htest c hc
  rw [Bool.not_eq_true', List.contains_eq_mem, decide_eq_false_iff_not] at h
  exact h

theorem readDigits_eq {ds fmt : List UInt8} (hds : ∀ ch ∈ ds, isDigit ch = true)
    (hfmt : ∀ ch ∈ fmt.head?, isDigit ch = false) (n : ℕ) :
    readDigits (ds ++ fmt) (BitVec.ofNat 64 n) =
      (BitVec.ofNat 64 (ds.foldl (fun v c => v * 10 + (c - byte '0').toNat) n), fmt) := by
  induction ds generalizing n with
  | nil =>
      cases fmt with
      | nil => rfl
      | cons c fmt =>
          have hc : ¬isDigit c = true := by
            rw [hfmt c rfl]
            decide
          rw [List.nil_append, readDigits, if_neg hc]
          rfl
  | cons c ds ih =>
      obtain ⟨hc, hds⟩ := List.forall_mem_cons.mp hds
      have hnext : BitVec.ofNat 64 n * 10 + BitVec.ofNat 64 (c - byte '0').toNat =
          BitVec.ofNat 64 (n * 10 + (c - byte '0').toNat) := by
        rw [BitVec.ofNat_add, BitVec.ofNat_mul]
        rfl
      rw [List.cons_append, readDigits, if_pos hc, hnext, ih hds]
      rfl

theorem isDigit_letter (m : Modifier) : isDigit m.letter = false := by
  cases m <;> rfl

theorem readModifiers_eq {d : Directive} {c : UInt8} (hc : c ∈ letters) (fmt : List UInt8)
    (args : List (Arg F)) (modifiers : List Modifier) (hspec : spec.fracWidth = 0) :
    readModifiers (modifiers.map Modifier.letter ++ (d.fracText ++ c :: fmt))
        (modifiers.flatMap Modifier.args ++ args) spec =
      .ok ({ modifiers.foldl Modifier.apply spec with
        fracWidth := BitVec.ofNat 64 (decimal (d.frac.getD [])) }, c :: fmt, args) := by
  obtain ⟨hdigit, hmodifier⟩ := letter_final hc
  induction modifiers generalizing spec with
  | nil =>
      rw [List.map_nil, List.nil_append, List.flatMap_nil, List.nil_append, List.foldl_nil,
        Directive.fracText]
      cases hfrac : d.frac with
      | none =>
          have hne (ch : UInt8) (hch : ch ∈ bytes "umXx.*") : c ≠ ch := fun h =>
            hmodifier (h ▸ hch)
          have hzero : ({ spec with fracWidth := BitVec.ofNat 64 (decimal []) } : Spec) = spec := by
            have hnil : BitVec.ofNat 64 (decimal []) = spec.fracWidth := by
              rw [hspec]
              rfl
            rw [hnil]
          simp only [List.nil_append, Option.getD_none, hzero]
          rw [readModifiers, if_neg (hne _ (by decide)), if_neg (hne _ (by decide)),
            if_neg (hne _ (by decide)), if_neg (hne _ (by decide)), if_neg (hne _ (by decide)),
            if_neg (hne _ (by decide))]
      | some ds =>
          have hhead : ∀ ch ∈ (c :: fmt).head?, isDigit ch = false := fun ch hch => by
            rw [List.head?_cons, Option.mem_some_iff] at hch
            rwa [← hch]
          have hread := readDigits_eq (d.frac_digits ds hfrac) hhead 0
          have hstart : spec.fracWidth = BitVec.ofNat 64 0 := hspec
          simp only [List.cons_append, Option.getD_some]
          rw [readModifiers, if_neg (by decide), if_neg (by decide), if_neg (by decide),
            if_neg (by decide), if_pos rfl, hstart, hread]
          rfl
  | cons m modifiers ih =>
      have hnext : (m.apply spec).fracWidth = 0 := by
        rw [← hspec]
        cases m <;> rfl
      rw [List.foldl_cons, ← ih hnext]
      cases m <;> rfl

theorem readSpec_eq (d : Directive) {c : UInt8} (hc : c ∈ letters) (fmt : List UInt8)
    (args : List (Arg F)) :
    readSpec (d.text ++ c :: fmt) (d.args ++ args) = .ok (d.spec, c :: fmt, args) := by
  have hhead : ∀ ch ∈ (d.modifiers.map Modifier.letter ++ (d.fracText ++ c :: fmt)).head?,
      isDigit ch = false := by
    intro ch hch
    cases hmodifiers : d.modifiers with
    | cons m modifiers =>
        rw [hmodifiers] at hch
        cases hch
        exact isDigit_letter m
    | nil =>
        rw [hmodifiers, List.map_nil, List.nil_append, Directive.fracText] at hch
        cases hfrac : d.frac with
        | none =>
            rw [hfrac] at hch
            cases hch
            exact (letter_final hc).1
        | some ds =>
            rw [hfrac] at hch
            cases hch
            rfl
  have hzero : (d.text ++ c :: fmt).head? = some (byte '0') ↔
      d.width.head? = some (byte '0') := by
    rw [Directive.text, List.append_assoc, List.append_assoc]
    cases hwidth : d.width with
    | cons ch width => rfl
    | nil =>
        refine ⟨fun h => ?_, fun h => by cases h⟩
        cases hhead _ h
  have hwidth := readDigits_eq d.width_digits hhead 0
  have htext : d.text ++ c :: fmt =
      d.width ++ (d.modifiers.map Modifier.letter ++ (d.fracText ++ c :: fmt)) := by
    rw [Directive.text, List.append_assoc, List.append_assoc]
  have hread : readDigits (d.text ++ c :: fmt) 0 =
      (BitVec.ofNat 64 (decimal d.width),
        d.modifiers.map Modifier.letter ++ (d.fracText ++ c :: fmt)) := by
    rw [htext]
    exact hwidth
  rw [readSpec, hread]
  simp only [hzero]
  exact readModifiers_eq hc fmt args d.modifiers rfl

end Directives

/-! ## The loop -/

section Loop

variable {F : Type} [CFloat F] {room : ℕ} {hexStrings : Prop}

theorem Formats.loop_spec {fmt : List UInt8} {args : List (Arg F)} {text : List UInt8}
    (h : Formats hexStrings fmt args text) {turns : ℕ} (hturns : fmt.length < turns)
    {buf : List UInt8} (hbuf : buf.length ≤ room) :
    ∃ out, formatLoop room turns fmt args buf = .ok out ∧ out.length ≤ room ∧
      (¬hexStrings → ∀ pre, buf = pre.take room → out = (pre ++ text).take room) := by
  induction h generalizing turns buf with
  | nil args =>
      obtain ⟨turns, rfl⟩ := Nat.exists_eq_succ_of_ne_zero (Nat.ne_zero_of_lt hturns)
      refine ⟨buf, rfl, hbuf, fun _ pre hpre => ?_⟩
      rw [hpre, List.append_nil]
  | @plain c fmt args text hc h ih =>
      obtain ⟨turns, rfl⟩ := Nat.exists_eq_succ_of_ne_zero (Nat.ne_zero_of_lt hturns)
      rw [formatLoop]
      by_cases hroom : buf.length < room
      · have hnext : (buf ++ [c]).length ≤ room := by
          rw [List.length_append, List.length_singleton]
          exact hroom
        obtain ⟨out, hout, hlen, htext⟩ := ih (Nat.lt_of_succ_lt_succ hturns) hnext
        rw [if_pos hroom, if_neg hc.2, store_eq hroom]
        refine ⟨out, hout, hlen, fun hplain pre hpre => ?_⟩
        rw [htext hplain (pre ++ [c]) (by rw [take_room_append hpre hroom]), List.append_assoc,
          List.singleton_append]
      · rw [if_neg hroom]
        exact ⟨buf, rfl, hbuf, fun _ pre hpre => take_full hpre hroom _⟩
  | @conversion c fmt own args first text d hc hhex h ih =>
      obtain ⟨turns, rfl⟩ := Nat.exists_eq_succ_of_ne_zero (Nat.ne_zero_of_lt hturns)
      rw [formatLoop]
      by_cases hroom : buf.length < room
      · obtain ⟨buf', hconv, hbuf', hfirst⟩ := hc.convert_spec args hroom
        have hshort : fmt.length < turns := by
          simp only [List.length_cons, List.length_append] at hturns
          omega
        obtain ⟨out, hout, hlen, htext⟩ := ih hshort hbuf'
        rw [if_pos hroom, if_pos rfl, readSpec_eq d hc.mem_letters]
        simp only [bind, Except.bind, hconv]
        refine ⟨out, hout, hlen, fun hplain pre hpre => ?_⟩
        have hwritten := hfirst fun h => hplain (hhex h)
        rw [htext hplain (pre ++ first) ?_, List.append_assoc]
        rw [hwritten, hpre, take_append_take]
      · rw [if_neg hroom]
        exact ⟨buf, rfl, hbuf, fun _ pre hpre => take_full hpre hroom _⟩

theorem Formats.writes_spec {fmt : List UInt8} {args : List (Arg F)} {text : List UInt8}
    (h : Formats hexStrings fmt args text) (room : ℕ) :
    ∃ out, ngxVslprintf room fmt args = .ok out ∧ out.length ≤ room ∧
      (¬hexStrings → out = text.take room) := by
  have hnil : ([] : List UInt8).length ≤ room := Nat.zero_le room
  obtain ⟨out, hout, hlen, htext⟩ := h.loop_spec (Nat.lt_succ_self _) hnil
  exact ⟨out, hout, hlen, fun hplain => htext hplain [] List.take_nil.symm⟩

/-- A conversion of an integer alone. -/
theorem Number.formats {d : Directive} {c : UInt8} {arg : Arg F} {as : Spec} {v : ℤ}
    (h : Number d.spec c arg as v) :
    Formats False (byte '%' :: (d.text ++ [c])) (d.args ++ [arg]) (numberText as v) := by
  have hplain : ¬IsHexString d.spec c := fun hhex => not_mem_of_number h.mem_letters hhex.2
  have hnil : Formats False [] ([] : List (Arg F)) [] := .nil []
  have hformats := Formats.conversion d (.number h) (fun h => hplain h) hnil
  rwa [List.append_nil, List.append_nil] at hformats

/-- Nothing is written outside of the buffer, without strings in hexadecimal what is written
is cut off at the end of the buffer, and a number that fits is written exactly. -/
theorem ngxVslprintf_writes :
    (∀ (fmt : List UInt8) (args : List (Arg F)) (text : List UInt8),
      Formats True fmt args text → ∀ room, ∃ out,
        ngxVslprintf room fmt args = .ok out ∧ out.length ≤ room) ∧
    (∀ (fmt : List UInt8) (args : List (Arg F)) (text : List UInt8),
      Formats False fmt args text → ∀ room,
        ngxVslprintf room fmt args = .ok (text.take room)) ∧
    ∀ (d : Directive) (c : UInt8) (arg : Arg F) (as : Spec) (v : ℤ), Number d.spec c arg as v →
      (as.hex.digits v.natAbs).foldl (Inet.readDigit as.hex.base) 0 = v.natAbs ∧
      ∀ room, (numberText as v).length ≤ room →
        ngxVslprintf room (byte '%' :: (d.text ++ [c])) (d.args ++ [arg]) =
          .ok (numberText as v) := by
  have hcut {fmt : List UInt8} {args : List (Arg F)} {text : List UInt8}
      (h : Formats False fmt args text) (room : ℕ) :
      ngxVslprintf room fmt args = .ok (text.take room) := by
    obtain ⟨out, hout, -, htext⟩ := h.writes_spec room
    rw [hout, htext not_false]
  refine ⟨fun fmt args text h room => ?_, fun fmt args text h room => hcut h room,
    fun d c arg as v h => ⟨as.hex.foldl_digits v.natAbs, fun room hroom => ?_⟩⟩
  · obtain ⟨out, hout, hlen, -⟩ := h.writes_spec room
    exact ⟨out, hout, hlen⟩
  · rw [hcut h.formats room, List.take_of_length_le hroom]

theorem ngxVslprintf_writes_min :
    ngxVslprintf (F := RatFloat) 20 (bytes "%L") [.word (BitVec.intMin 64)] =
      .ok (bytes "-9223372036854775808") := by
  have hdirective : Number (F := RatFloat) (Directive.spec ⟨[], [], none, by simp, by simp⟩)
      (byte 'L') (.word (BitVec.intMin 64)) _ _ := .word _ (by decide) _
  exact (ngxVslprintf_writes.2.2 _ _ _ _ _ hdirective).2 20 (by decide +kernel)

end Loop

end MultiversionBalancer.Core.Vslprintf
