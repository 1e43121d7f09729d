import MultiversionBalancer.Http.UnsafeUri

/-!
# Percent encoding

`ngx_escape_uri` of `ngx_string.c` with its bitmaps.  What it writes has the length
that the counting pass promises, and `ngx_unescape_uri` gives the bytes back where the
percent sign is escaped too.  The bitmap for `Refresh` has the bits of `}` and `~`
exchanged.
-/

namespace MultiversionBalancer.Http

/-! ## The functions of the source -/

/-- The types of `ngx_escape_uri`, from `NGX_ESCAPE_URI` to `NGX_ESCAPE_MAIL_AUTH`. -/
inductive EscapeType where
  | uri
  | args
  | uriComponent
  | html
  | refresh
  | memcached
  | mailAuth
  deriving DecidableEq

/-- The array `map` of bitmaps. -/
def EscapeType.map : EscapeType → List (BitVec 32)
  | .uri => [0xffffffff, 0xd000002d, 0x50000000, 0xb8000001,
      0xffffffff, 0xffffffff, 0xffffffff, 0xffffffff]
  | .args => [0xffffffff, 0xd800086d, 0x50000000, 0xb8000001,
      0xffffffff, 0xffffffff, 0xffffffff, 0xffffffff]
  | .uriComponent => [0xffffffff, 0xfc009fff, 0x78000001, 0xb8000001,
      0xffffffff, 0xffffffff, 0xffffffff, 0xffffffff]
  | .html => [0xffffffff, 0x500000ad, 0x50000000, 0xb8000001,
      0xffffffff, 0xffffffff, 0xffffffff, 0xffffffff]
  | .refresh => [0xffffffff, 0x50000085, 0x50000000, 0xd8000001,
      0xffffffff, 0xffffffff, 0xffffffff, 0xffffffff]
  | .memcached => [0xffffffff, 0x00000021, 0x00000000, 0x00000000,
      0x00000000, 0x00000000, 0x00000000, 0x00000000]
  | .mailAuth => [0xffffffff, 0x00000021, 0x00000000, 0x00000000,
      0x00000000, 0x00000000, 0x00000000, 0x00000000]

/-- `escape[*src >> 5] & (1U << (*src & 0x1f))`. -/
def EscapeType.escapes (type : EscapeType) (ch : UInt8) : Bool :=
  (type.map.getD (ch.toNat / 32) 0).getLsbD (ch.toNat % 32)

def upperHex (n : UInt8) : UInt8 :=
  (bytes "0123456789ABCDEF").getD n.toNat 0

/-- `ngx_escape_uri` with `dst == NULL`: the number of the characters to be escaped. -/
def ngxEscapeUriCount (type : EscapeType) (src : List UInt8) : ℕ :=
  src.countP type.escapes

def escapeUriByte (type : EscapeType) (ch : UInt8) : List UInt8 :=
  if type.escapes ch then [byte '%', upperHex (ch >>> 4), upperHex (ch &&& 0xf)] else [ch]

def ngxEscapeUri (type : EscapeType) (src : List UInt8) : List UInt8 :=
  src.flatMap (escapeUriByte type)

/-! ## What the escapes are for -/

/-- The characters that RFC 3986 allows in a URI, and the percent sign. -/
def uriChar (ch : UInt8) : Bool :=
  isAlpha ch || isDigit ch || (bytes "-._~:/?#[]@!$&'()*+,;=%").contains ch

/-- The types whose output is a part of a URI. -/
def EscapeType.forUri (type : EscapeType) : Bool :=
  type ≠ .memcached && type ≠ .mailAuth

/-- The output has the counted length, is legal in a URI where it is meant for one, and
is decoded to the source where the percent sign is escaped. -/
structure EscapesWell (type : EscapeType) (src : List UInt8) : Prop where
  sized : (ngxEscapeUri type src).length = src.length + 2 * ngxEscapeUriCount type src
  legal : type.forUri = true → ∀ ch ∈ ngxEscapeUri type src, uriChar ch = true
  decoded : type.escapes (byte '%') = true →
    ngxUnescapeUri ⟨false, false⟩ (ngxEscapeUri type src) = (src, [])

/-! ## One byte -/

theorem escapeUriByte_length (type : EscapeType) (ch : UInt8) :
    (escapeUriByte type ch).length = 1 + if type.escapes ch then 2 else 0 := by
  rw [escapeUriByte]
  by_cases hescape : type.escapes ch = true
  · rw [if_pos hescape, if_pos hescape]
    rfl
  · rw [if_neg hescape, if_neg hescape]
    rfl

theorem upperHex_digits (ch : UInt8) :
    uriChar (upperHex (ch >>> 4)) = true ∧ uriChar (upperHex (ch &&& 0xf)) = true ∧
      hexDigit (upperHex (ch >>> 4)) = some (ch >>> 4) ∧
        hexDigit (upperHex (ch &&& 0xf)) = some (ch &&& 0xf) ∧
          ((ch >>> 4) <<< 4) + (ch &&& 0xf) = ch := by
  have htest := byte_test (p := fun ch =>
    uriChar (upperHex (ch >>> 4)) && (uriChar (upperHex (ch &&& 0xf)) &&
      (hexDigit (upperHex (ch >>> 4)) == some (ch >>> 4) &&
        (hexDigit (upperHex (ch &&& 0xf)) == some (ch &&& 0xf) &&
          ((ch >>> 4) <<< 4) + (ch &&& 0xf) == ch)))) (by decide +kernel) ch
  simpa only [Bool.and_eq_true, beq_iff_eq] using htest

/-- Which bytes are escaped though they are legal does not matter; every other byte is
escaped, but for one byte of one type. -/
theorem escapes_or_uriChar {type : EscapeType} (htype : type.forUri = true) (ch : UInt8) :
    (type.escapes ch = true ∨ uriChar ch = true) ↔ (type = .refresh → ch ≠ byte '}') := by
  have htest := byte_test (p := fun ch =>
    [EscapeType.uri, .args, .uriComponent, .html, .refresh].all fun type =>
      (type.escapes ch || uriChar ch) == !(decide (type = .refresh) && ch == byte '}'))
    (by decide +kernel) ch
  have hmem : type ∈ [EscapeType.uri, .args, .uriComponent, .html, .refresh] := by
    cases type with
    | uri | args | uriComponent | html | refresh => decide
    | memcached | mailAuth => cases htype
  have hone := List.all_eq_true.mp htest type hmem
  rw [beq_iff_eq, Bool.eq_iff_iff] at hone
  rw [imp_iff_not_or]
  simpa using hone

theorem escapeUriByte_legal {type : EscapeType} (htype : type.forUri = true) (ch : UInt8) :
    (∀ c ∈ escapeUriByte type ch, uriChar c = true) ↔ (type = .refresh → ch ≠ byte '}') := by
  rw [← escapes_or_uriChar htype ch, escapeUriByte]
  by_cases hescape : type.escapes ch = true
  · obtain ⟨hhigh, hlow, -⟩ := upperHex_digits ch
    have hmark : uriChar (byte '%') = true := by decide
    rw [if_pos hescape]
    refine iff_of_true ?_ (.inl hescape)
    simp [hmark, hhigh, hlow]
  · rw [if_neg hescape, List.forall_mem_singleton]
    exact (or_iff_right hescape).symm

theorem scanUnescape_escapeUriByte {type : EscapeType}
    (hmark : type.escapes (byte '%') = true) (ch : UInt8) (rest : List UInt8) :
    scanUnescape ⟨false, false⟩ .usual (escapeUriByte type ch ++ rest) =
      (ch :: (scanUnescape ⟨false, false⟩ .usual rest).1,
        (scanUnescape ⟨false, false⟩ .usual rest).2) := by
  rw [escapeUriByte]
  by_cases hescape : type.escapes ch = true
  · obtain ⟨-, -, hhigh, hlow, hvalue⟩ := upperHex_digits ch
    rw [if_pos hescape]
    simp [scanUnescape, stepUnescape, hhigh, hlow, hvalue]
  · have hne : ch ≠ byte '%' := fun h => hescape (h ▸ hmark)
    rw [if_neg hescape]
    simp [scanUnescape, stepUnescape, hne]

/-! ## Texts -/

theorem ngxEscapeUri_length (type : EscapeType) (src : List UInt8) :
    (ngxEscapeUri type src).length = src.length + 2 * ngxEscapeUriCount type src := by
  rw [ngxEscapeUri, ngxEscapeUriCount]
  induction src with
  | nil => rfl
  | cons ch src ih =>
      rw [List.flatMap_cons, List.length_append, ih, escapeUriByte_length, List.countP_cons,
        List.length_cons]
      split_ifs
      · omega
      · omega

theorem ngxUnescapeUri_ngxEscapeUri {type : EscapeType}
    (hmark : type.escapes (byte '%') = true) (src : List UInt8) :
    ngxUnescapeUri ⟨false, false⟩ (ngxEscapeUri type src) = (src, []) := by
  rw [ngxUnescapeUri, ngxEscapeUri]
  induction src with
  | nil => rfl
  | cons ch src ih =>
      rw [List.flatMap_cons, scanUnescape_escapeUriByte hmark, ih]

theorem not_escapesWell_of_mem {src : List UInt8} (hmem : byte '}' ∈ src) :
    ¬EscapesWell .refresh src := by
  intro h
  have hall : ∀ c ∈ escapeUriByte .refresh (byte '}'), uriChar c = true := fun c hc =>
    h.legal rfl c (List.mem_flatMap.mpr ⟨_, hmem, hc⟩)
  exact (escapeUriByte_legal rfl _).mp hall rfl rfl

/-- Everything that `ngx_escape_uri` promises holds, but for the `}` that the type for
`Refresh` leaves as it is. -/
theorem escapesWell_iff (type : EscapeType) (src : List UInt8) :
    EscapesWell type src ↔ (type = .refresh → byte '}' ∉ src) := by
  constructor
  · rintro h rfl hmem
    exact not_escapesWell_of_mem hmem h
  · intro hclosing
    refine ⟨ngxEscapeUri_length type src, fun htype c hc => ?_, fun hmark =>
      ngxUnescapeUri_ngxEscapeUri hmark src⟩
    obtain ⟨ch, hch, hc⟩ := List.mem_flatMap.mp hc
    refine (escapeUriByte_legal htype ch).mpr (fun hrefresh heq => ?_) c hc
    rw [heq] at hch
    exact hclosing hrefresh hch

/-- The closing brace in a URI for `Refresh`. -/
theorem not_escapesWell_brace : ¬∀ type src, EscapesWell type src := fun h =>
  not_escapesWell_of_mem List.mem_cons_self (h .refresh [byte '}'])

end MultiversionBalancer.Http
