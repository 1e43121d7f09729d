import MultiversionBalancer.Http2.Reads
import MultiversionBalancer.Http2.HuffmanRoundTrip
import Mathlib.Tactic.Ring

/-!
# Strings of header blocks

`ngx_http_v2_string_encode` and `ngx_http_v2_write_int` against the readers of the
block: `ngx_http_v2_parse_int` for the length, and the handler of the string, which
gets the bytes in as many reads as they come in.  The writer puts down seven bits after
seven bits until nothing is left, the parser looks at four octets.
-/

namespace MultiversionBalancer.Http2

def maxField : ℕ := 127 + 2 ^ ((intOctets - 1) * 7) - 1

def encodeRaw : UInt8 := 0

def encodeHuff : UInt8 := 0x80

def ngxHttpV2Prefix (bits : ℕ) : UInt8 := UInt8.ofNat (2 ^ bits - 1)

def writeOctets (value : ℕ) : List UInt8 :=
  if 128 ≤ value then UInt8.ofNat (value % 128 + 128) :: writeOctets (value / 128)
  else [UInt8.ofNat value]
termination_by value

/-- `ngx_http_v2_write_int`; `first` is what stands in the first byte. -/
def ngxHttpV2WriteInt (first intPrefix : UInt8) (value : ℕ) : List UInt8 :=
  if value < intPrefix.toNat then [first ||| UInt8.ofNat value]
  else (first ||| intPrefix) :: writeOctets (value - intPrefix.toNat)

def ngxHttpV2StringEncode (lower : Bool) (src : List UInt8) : List UInt8 :=
  let (tmp, hlen) := ngxHttpHuffEncode lower src
  if 0 < hlen then
    ngxHttpV2WriteInt encodeHuff (ngxHttpV2Prefix 7) hlen ++ tmp.take hlen
  else ngxHttpV2WriteInt encodeRaw (ngxHttpV2Prefix 7) src.length ++ lowered lower src

/-! ## Integers -/

section Integers

variable {length value bits : ℕ} {first : UInt8}

theorem toNat_byte {n : ℕ} (hn : n < 256) : (UInt8.ofNat n).toNat = n :=
  UInt8.toNat_ofNat_of_lt' hn

theorem octet_lt_iff {n : ℕ} (hn : n < 256) : UInt8.ofNat n < 128 ↔ n < 128 := by
  rw [UInt8.lt_iff_toNat_lt, toNat_byte hn]
  rfl

/-- The parser that is not stopped reads the value back. -/
theorem parseOctets_writeOctets (acc shift value : ℕ) (more : List UInt8) :
    parseOctets acc shift (writeOctets value ++ more) =
      some (acc + value <<< shift, (writeOctets value).length) := by
  induction value using Nat.strong_induction_on generalizing acc shift with
  | h value ih =>
      rw [writeOctets]
      by_cases hmore : 128 ≤ value
      · rw [if_pos hmore, List.cons_append, parseOctets]
        have hgoes : ¬UInt8.ofNat (value % 128 + 128) < 128 := by
          rw [octet_lt_iff (by omega)]
          omega
        rw [if_neg hgoes, ih _ (by omega), toNat_byte (by omega), Option.map_some]
        have hsum : acc + ((value % 128 + 128) % 128) <<< shift + (value / 128) <<< (shift + 7) =
            acc + value <<< shift := by
          rw [Nat.add_mod_right, Nat.mod_mod, Nat.shiftLeft_eq, Nat.shiftLeft_eq,
            Nat.shiftLeft_eq, pow_add]
          calc acc + value % 128 * 2 ^ shift + value / 128 * (2 ^ shift * 2 ^ 7)
              = acc + (value % 128 + 128 * (value / 128)) * 2 ^ shift := by ring
            _ = acc + value * 2 ^ shift := by rw [Nat.mod_add_div]
        rw [hsum, List.length_cons]
      · rw [if_neg hmore, List.cons_append, parseOctets]
        have hends : UInt8.ofNat value < 128 := by
          rw [octet_lt_iff (by omega)]
          exact Nat.lt_of_not_le hmore
        rw [if_pos hends, toNat_byte (by omega), Nat.mod_eq_of_lt (by omega)]
        rfl

theorem length_writeOctets_le_iff (k value : ℕ) :
    (writeOctets value).length ≤ k + 1 ↔ value < 128 ^ (k + 1) := by
  induction k generalizing value with
  | zero =>
      rw [writeOctets]
      by_cases hmore : 128 ≤ value
      · have hnext : 0 < (writeOctets (value / 128)).length := by
          have h := parseOctets_bound (parseOctets_writeOctets 0 0 (value / 128) [])
          exact h.1
        rw [if_pos hmore, List.length_cons]
        omega
      · rw [if_neg hmore, List.length_singleton]
        omega
  | succ k ih =>
      rw [writeOctets]
      by_cases hmore : 128 ≤ value
      · rw [if_pos hmore, List.length_cons, Nat.succ_le_succ_iff, ih,
          Nat.div_lt_iff_lt_mul (by decide), ← pow_succ]
      · have hpow : 128 ^ 1 ≤ 128 ^ (k + 1 + 1) :=
          Nat.pow_le_pow_right (by decide) (by omega)
        rw [if_neg hmore, List.length_singleton]
        omega

theorem ngxHttpV2Prefix_toNat (hbits : bits ≤ 8) : (ngxHttpV2Prefix bits).toNat = 2 ^ bits - 1 := by
  have hpow : 2 ^ bits ≤ 2 ^ 8 := Nat.pow_le_pow_right (by decide) hbits
  have hpos : 0 < 2 ^ bits := Nat.two_pow_pos bits
  exact toNat_byte (by omega)

theorem and_prefix (hbits : bits ≤ 8) (hfirst : first &&& ngxHttpV2Prefix bits = 0)
    (hvalue : value ≤ (ngxHttpV2Prefix bits).toNat) :
    ((first ||| UInt8.ofNat value) &&& ngxHttpV2Prefix bits).toNat = value := by
  have hlt := (ngxHttpV2Prefix bits).toNat_lt
  have hpos : 0 < 2 ^ bits := Nat.two_pow_pos bits
  have hzero := congrArg UInt8.toNat hfirst
  rw [UInt8.toNat_and, ngxHttpV2Prefix_toNat hbits, Nat.and_two_pow_sub_one_eq_mod] at hzero
  rw [ngxHttpV2Prefix_toNat hbits] at hvalue hlt
  rw [UInt8.toNat_and, UInt8.toNat_or, ngxHttpV2Prefix_toNat hbits, Nat.and_two_pow_sub_one_eq_mod,
    Nat.or_mod_two_pow, hzero, toNat_byte (by omega)]
  have hmod : value % 2 ^ bits = value := Nat.mod_eq_of_lt (by omega)
  rw [hmod]
  exact Nat.zero_or value

theorem length_writeInt_pos (first intPrefix : UInt8) (value : ℕ) :
    0 < (ngxHttpV2WriteInt first intPrefix value).length := by
  rw [ngxHttpV2WriteInt]
  split <;> exact Nat.succ_pos _

/-- A value takes at most `NGX_HTTP_V2_INT_OCTETS` bytes if it is no larger than what the
parser can find in them. -/
theorem length_writeInt_le_iff (first intPrefix : UInt8) (value : ℕ) :
    (ngxHttpV2WriteInt first intPrefix value).length ≤ intOctets ↔
      value ≤ intPrefix.toNat + 2 ^ 21 - 1 := by
  have hoctets := length_writeOctets_le_iff 2 (value - intPrefix.toNat)
  rw [ngxHttpV2WriteInt, intOctets]
  by_cases hshort : value < intPrefix.toNat
  · rw [if_pos hshort, List.length_singleton]
    omega
  · rw [if_neg hshort, List.length_cons]
    omega

/-- A value that is too large for the parser leaves more octets than it looks at. -/
theorem parseOctets_stopped {value : ℕ} (h : intOctets - 1 < (writeOctets value).length)
    (acc : ℕ) (more : List UInt8) :
    parseOctets acc 0 ((writeOctets value ++ more).take (intOctets - 1)) = none := by
  have hwhole := parseOctets_writeOctets acc 0 value []
  rw [List.append_nil] at hwhole
  rw [List.take_append_of_le_length h.le]
  apply parseOctets_short
  · rw [List.take_append_drop]
    exact hwhole
  · rw [List.length_take]
    omega

/-- The first bytes of a value that is small enough. -/
theorem parseInt_again (hbits : bits ≤ 8) (hfirst : first &&& ngxHttpV2Prefix bits = 0)
    (hfits : value ≤ (ngxHttpV2Prefix bits).toNat + 2 ^ 21 - 1) {ch : UInt8}
    {rest missing : List UInt8} (hmissing : missing ≠ [])
    (hwritten : ngxHttpV2WriteInt first (ngxHttpV2Prefix bits) value = ch :: rest ++ missing)
    (hlength : (ngxHttpV2WriteInt first (ngxHttpV2Prefix bits) value).length ≤ length) :
    ngxHttpV2ParseInt length ch rest (ngxHttpV2Prefix bits) = .again := by
  have hshort := (length_writeInt_le_iff first (ngxHttpV2Prefix bits) value).mpr hfits
  have hpos := List.length_pos_iff_ne_nil.mpr hmissing
  rw [hwritten, List.length_append, List.length_cons] at hlength hshort
  rw [ngxHttpV2WriteInt] at hwritten
  split at hwritten
  · have hone := congrArg List.length hwritten
    rw [List.length_singleton, List.length_append, List.length_cons] at hone
    omega
  · obtain ⟨rfl, hoctets⟩ := List.cons.inj hwritten
    have hread := and_prefix hbits hfirst (Nat.le_refl _)
    rw [UInt8.ofNat_toNat] at hread
    have hwhole := parseOctets_writeOctets (ngxHttpV2Prefix bits).toNat 0
      (value - (ngxHttpV2Prefix bits).toNat) []
    rw [List.append_nil, hoctets] at hwhole
    have hseen : rest.take (intOctets - 1) = rest :=
      List.take_of_length_le (by omega)
    have hnone : parseOctets (ngxHttpV2Prefix bits).toNat 0 rest = none := by
      refine parseOctets_short hwhole ?_
      exact Nat.lt_of_lt_of_eq (Nat.lt_add_of_pos_right hpos) List.length_append.symm
    rw [parseInt_none (UInt8.toNat_inj.mp hread) (by rw [hseen]; exact hnone), hseen,
      if_neg (by omega), if_neg (by omega)]

/-- What `ngx_http_v2_parse_int` makes of the bytes of a value that are all there: the
value if it is small enough. -/
theorem parseInt_writeInt (hbits : bits ≤ 8) (hfirst : first &&& ngxHttpV2Prefix bits = 0)
    (hfits : value ≤ (ngxHttpV2Prefix bits).toNat + 2 ^ 21 - 1)
    (hlength : (ngxHttpV2WriteInt first (ngxHttpV2Prefix bits) value).length ≤ length)
    (more : List UInt8) :
    ∃ ch rest, ngxHttpV2WriteInt first (ngxHttpV2Prefix bits) value = ch :: rest ∧
      ngxHttpV2ParseInt length ch (rest ++ more) (ngxHttpV2Prefix bits) =
        .value value
          (length - (ngxHttpV2WriteInt first (ngxHttpV2Prefix bits) value).length) more := by
  have hshort := (length_writeInt_le_iff first (ngxHttpV2Prefix bits) value).mpr hfits
  revert hlength hshort
  rw [ngxHttpV2WriteInt]
  by_cases hless : value < (ngxHttpV2Prefix bits).toNat
  · intro hlength _
    rw [if_pos hless, List.length_singleton] at hlength ⊢
    have hread := and_prefix hbits hfirst hless.le
    refine ⟨_, _, rfl, ?_⟩
    rw [ngxHttpV2ParseInt, if_pos (fun heq => by rw [heq] at hread; omega),
      if_neg (by omega), hread]
    rfl
  · intro hlength hshort
    rw [if_neg hless] at hlength hshort ⊢
    refine ⟨_, _, rfl, ?_⟩
    rw [List.length_cons] at hlength hshort ⊢
    have hread := and_prefix hbits hfirst (Nat.le_refl _)
    rw [UInt8.ofNat_toNat] at hread
    have hwhole := parseOctets_writeOctets (ngxHttpV2Prefix bits).toNat 0
      (value - (ngxHttpV2Prefix bits).toNat) []
    rw [List.append_nil, Nat.shiftLeft_zero, Nat.add_sub_cancel' (Nat.le_of_not_lt hless)]
      at hwhole
    have hseen : (writeOctets (value - (ngxHttpV2Prefix bits).toNat) ++ more).take
        (intOctets - 1) = writeOctets (value - (ngxHttpV2Prefix bits).toNat) ++
          more.take (intOctets - 1 -
            (writeOctets (value - (ngxHttpV2Prefix bits).toNat)).length) := by
      rw [List.take_append, List.take_of_length_le (Nat.le_sub_of_add_le hshort)]
    rw [parseInt_some (UInt8.toNat_inj.mp hread)
      (by rw [hseen]; exact parseOctets_append hwhole _), if_neg (by omega),
      List.drop_left]

theorem parseInt_writeInt_large (hbits : bits ≤ 8)
    (hfirst : first &&& ngxHttpV2Prefix bits = 0)
    (hlarge : (ngxHttpV2Prefix bits).toNat + 2 ^ 21 - 1 < value)
    (hlength : (ngxHttpV2WriteInt first (ngxHttpV2Prefix bits) value).length < length)
    (more : List UInt8) :
    ∃ ch rest, ngxHttpV2WriteInt first (ngxHttpV2Prefix bits) value = ch :: rest ∧
      ngxHttpV2ParseInt length ch (rest ++ more) (ngxHttpV2Prefix bits) = .declined := by
  have hlong := (length_writeInt_le_iff first (ngxHttpV2Prefix bits) value).not.mpr
    (Nat.not_le_of_lt hlarge)
  revert hlength hlong
  rw [ngxHttpV2WriteInt, if_neg (by omega), List.length_cons]
  intro hlength hlong
  refine ⟨_, _, rfl, ?_⟩
  have hread := and_prefix hbits hfirst (Nat.le_refl _)
  rw [UInt8.ofNat_toNat] at hread
  have hthree : intOctets - 1 = 3 := rfl
  have hseen : ((writeOctets (value - (ngxHttpV2Prefix bits).toNat) ++ more).take
      (intOctets - 1)).length = intOctets - 1 := by
    rw [List.length_take, List.length_append]
    omega
  rw [intOctets] at hlong
  rw [parseInt_none (UInt8.toNat_inj.mp hread) (parseOctets_stopped (by omega) _ more), hseen,
    if_neg (by omega), if_pos (show intOctets - 1 + 1 = intOctets from rfl)]

/-- An integer that is accepted lies in the bytes that are there and in the frame, whose
length goes down by what has been read. -/
theorem parseInt_consumes {ch intPrefix : UInt8} {rest rest' : List UInt8} {length' : ℕ}
    (h : ngxHttpV2ParseInt length ch rest intPrefix = .value value length' rest') :
    ∃ k, 0 < k ∧ k ≤ length ∧ k ≤ (ch :: rest).length ∧ length' = length - k ∧
      rest' = (ch :: rest).drop k := by
  by_cases hfull : ch &&& intPrefix = intPrefix
  · cases hoctets : parseOctets intPrefix.toNat 0 (rest.take (intOctets - 1)) with
    | none => exact absurd h (parseInt_fails hfull hoctets _ _ _)
    | some r =>
        obtain ⟨w, n⟩ := r
        have hbound := (parseOctets_bound hoctets).2
        rw [List.length_take] at hbound
        rw [parseInt_some hfull hoctets] at h
        split at h
        · cases h
        · cases h
          refine ⟨n + 1, Nat.succ_pos n, by omega, ?_, rfl, rfl⟩
          rw [List.length_cons]
          omega
  · rw [ngxHttpV2ParseInt, if_pos hfull] at h
    split at h
    · cases h
    · cases h
      exact ⟨1, Nat.one_pos, by omega, by simp, rfl, rfl⟩

end Integers

/-! ## Readers -/

section Readers

variable {T S : Type*} {env : Env T S} {handler : Handler}

/-- A handler that gets read after read, up to the call for the header: the state, and
the bytes and the reads that are left. -/
def readField (env : Env T S) (handler : Handler) :
    State T S → List (List UInt8) → Option (State T S × List UInt8 × List (List UInt8))
  | _, [] => none
  | s, input :: inputs =>
      match callHandler env handler s input with
      | .call .processHeader s rest => some (s, rest, inputs)
      | .save s => readField env handler s inputs
      | _ => none

/-- `ngx_http_v2_state_field_len` and the handler that the first bit names; `saved` is
what is left of the read before. -/
def readStringReads (env : Env T S) (s : State T S) :
    List UInt8 → List (List UInt8) → Option (State T S × List UInt8 × List (List UInt8))
  | _, [] => none
  | saved, input :: inputs =>
      match saved ++ input with
      | [] => readStringReads env s [] inputs
      | ch :: rest =>
          match ngxHttpV2ParseInt s.length ch rest (ngxHttpV2Prefix 7) with
          | .value len length rest =>
              readField env (if 128 ≤ ch then .fieldHuff else .fieldRaw)
                { s with
                  length := length
                  hpack := { s.hpack with fieldRest := len, field := [] } }
                (rest :: inputs)
          | .again => readStringReads env s (ch :: rest) inputs
          | _ => none

/-- A string is taken as a whole, however its bytes are cut into reads. -/
theorem readField_whole (hfield : handler.IsField) {s : State T S} {hpack : Hpack T S}
    {bytes more : List UInt8} {inputs : List (List UInt8)}
    (hwhole : takeField env handler (s.hpack.setRest 0) bytes = some hpack)
    (hrest : s.hpack.fieldRest = bytes.length) (hlength : bytes.length ≤ s.length)
    (hne : inputs ≠ []) (hinputs : inputs.flatten = bytes ++ more) :
    ∃ s' rest inputs', readField env handler s inputs = some (s', rest, inputs') ∧
      s'.hpack = hpack ∧ s'.length = s.length - bytes.length ∧
      rest ++ inputs'.flatten = more := by
  induction inputs generalizing s bytes with
  | nil => exact absurd rfl hne
  | cons input inputs ih =>
      rw [List.flatten_cons] at hinputs
      rw [readField, callHandler_field hfield, stateField]
      by_cases hends : bytes.length ≤ input.length
      · -- The rest of the string is in this read.
        obtain ⟨rest, rfl, hmore⟩ := append_split hinputs hends
        have hsize : min (min (bytes ++ rest).length s.hpack.fieldRest) s.length =
            bytes.length := by
          rw [hrest, List.length_append]
          omega
        have htaken : takeField env handler
            { s.hpack with fieldRest := s.hpack.fieldRest - bytes.length } bytes =
              some hpack := by
          rw [hrest, Nat.sub_self]
          exact hwhole
        have hzero : hpack.fieldRest = 0 := (takeField_keeps hwhole).2.2
        simp only [hsize, List.take_left, List.drop_left, htaken, if_pos hzero]
        exact ⟨_, _, _, rfl, rfl, rfl, hmore⟩
      · -- The read is a part of the string, and the rest is not empty.
        obtain ⟨later, rfl, hlater⟩ := append_split hinputs.symm (by omega)
        rw [List.length_append] at hrest hlength hends
        have hsize : min (min input.length s.hpack.fieldRest) s.length = input.length := by
          omega
        have hleft : s.hpack.fieldRest - input.length = later.length := by omega
        have hlaterNe : later ≠ [] := by
          rintro rfl
          exact hends (Nat.le_refl _)
        rw [takeField_append (m := later.length) (by omega) (.inl hlaterNe)] at hwhole
        obtain ⟨middle, hmiddle, hlast⟩ := Option.bind_eq_some_iff.mp hwhole
        have htaken : takeField env handler
            { s.hpack with fieldRest := s.hpack.fieldRest - input.length } input =
              some middle := by
          rw [hleft]
          exact hmiddle
        have hmiddleRest : middle.fieldRest = later.length := (takeField_keeps hmiddle).2.2
        have hsaved (s' : State T S) : ngxHttpV2StateSave s' [] handler =
            .save { s' with buffer := [], handler := handler } :=
          if_neg (Nat.not_lt_zero _)
        simp only [hsize, List.take_length, List.drop_length, htaken, hmiddleRest]
        rw [if_neg (by omega), if_pos (by omega), hsaved]
        have hnextNe : inputs ≠ [] := by
          rintro rfl
          rw [List.flatten_nil] at hlater
          exact hlaterNe (List.append_eq_nil_iff.mp hlater).1
        obtain ⟨s', rest, inputs', hread, hhpack, hs', hbehind⟩ :=
          ih (s := { s with
            length := s.length - input.length
            hpack := middle
            buffer := []
            handler := handler }) hlast hmiddleRest (Nat.le_sub_of_add_le' hlength) hnextNe
            hlater.symm
        refine ⟨s', rest, inputs', hread, hhpack, ?_, hbehind⟩
        rw [hs', List.length_append]
        exact Nat.sub_sub _ _ _

/-- The first bit of a string. -/
def stringMark (lower : Bool) (src : List UInt8) : UInt8 :=
  if 0 < (ngxHttpHuffEncode lower src).2 then encodeHuff else encodeRaw

def stringBytes (lower : Bool) (src : List UInt8) : List UInt8 :=
  if 0 < (ngxHttpHuffEncode lower src).2 then (ngxHttpHuffEncode lower src).1
  else lowered lower src

theorem length_lowered (lower : Bool) (src : List UInt8) :
    (lowered lower src).length = src.length := by
  cases lower
  · rfl
  · exact List.length_map _

theorem stringEncode_eq (lower : Bool) (src : List UInt8) :
    ngxHttpV2StringEncode lower src =
      ngxHttpV2WriteInt (stringMark lower src) (ngxHttpV2Prefix 7)
        (stringBytes lower src).length ++ stringBytes lower src := by
  have hreturned := (huffman_round_trip lower src).1
  simp only [ngxHttpV2StringEncode, stringMark, stringBytes]
  by_cases hhuff : 0 < (ngxHttpHuffEncode lower src).2
  · simp only [if_pos hhuff]
    rw [(hreturned hhuff).1, List.take_length]
  · simp only [if_neg hhuff, length_lowered]

/-- The codes are used only where they are shorter. -/
theorem length_stringBytes_le (lower : Bool) (src : List UInt8) :
    (stringBytes lower src).length ≤ src.length := by
  rw [stringBytes]
  split
  · exact (ngxHttpHuffEncode_spec lower src).1
  · exact (length_lowered lower src).le

/-- The handler of a string, as its first bit has it. -/
def stringHandler (lower : Bool) (src : List UInt8) : Handler :=
  if 0 < (ngxHttpHuffEncode lower src).2 then .fieldHuff else .fieldRaw

theorem takeField_string (hcodes : env.huffDecodeCodes = huffDecodeCodes) (lower : Bool)
    (src : List UInt8) (hpack : Hpack T S) (hstate : hpack.fieldState = 0)
    (hfield : hpack.field = []) :
    ∃ hpack', takeField env (stringHandler lower src) (hpack.setRest 0)
        (stringBytes lower src) = some hpack' ∧ hpack'.field = lowered lower src := by
  rw [stringHandler, stringBytes]
  by_cases hhuff : 0 < (ngxHttpHuffEncode lower src).2
  · have hread := ((huffman_round_trip lower src).1 hhuff).2 [(ngxHttpHuffEncode lower src).1]
      (by simp)
    have hdecode : ngxHttpHuffDecode env.huffDecodeCodes hpack.fieldState
        (ngxHttpHuffEncode lower src).1 hpack.field true = some (0, lowered lower src) := by
      rw [hcodes, hstate, hfield]
      exact hread
    rw [if_pos hhuff, if_pos hhuff]
    exact ⟨_, congrArg (Option.map _) hdecode, rfl⟩
  · rw [if_neg hhuff, if_neg hhuff]
    refine ⟨_, rfl, ?_⟩
    change hpack.field ++ lowered lower src = lowered lower src
    rw [hfield, List.nil_append]

theorem stringHandler_isField (lower : Bool) (src : List UInt8) :
    (stringHandler lower src).IsField := by
  rw [stringHandler]
  split
  · exact .inl rfl
  · exact .inr (.inl rfl)

theorem first_byte {lower : Bool} {src rest : List UInt8} {ch : UInt8}
    (h : ngxHttpV2WriteInt (stringMark lower src) (ngxHttpV2Prefix 7)
      (stringBytes lower src).length = ch :: rest) :
    (if 128 ≤ ch then Handler.fieldHuff else .fieldRaw) = stringHandler lower src := by
  have hraw {v : UInt8} (hv : v < 128) : ¬(128 : UInt8) ≤ encodeRaw ||| v := by
    rw [encodeRaw, UInt8.zero_or, UInt8.not_le]
    exact hv
  have hhuff (v : UInt8) : (128 : UInt8) ≤ encodeHuff ||| v := by
    rw [encodeHuff, UInt8.le_iff_toNat_le, UInt8.toNat_or]
    exact Nat.left_le_or
  obtain ⟨v, hv, rfl⟩ : ∃ v : UInt8, v < 128 ∧ stringMark lower src ||| v = ch := by
    rw [ngxHttpV2WriteInt] at h
    split at h
    · next hless =>
      have hones : (ngxHttpV2Prefix 7).toNat = 127 := rfl
      rw [hones] at hless
      exact ⟨_, (octet_lt_iff (by omega)).mpr (by omega), (List.cons.inj h).1⟩
    · exact ⟨_, by decide, (List.cons.inj h).1⟩
  rw [stringMark, stringHandler]
  by_cases hcoded : 0 < (ngxHttpHuffEncode lower src).2
  · rw [if_pos hcoded, if_pos (hhuff v), if_pos hcoded]
  · rw [if_neg hcoded, if_neg (hraw hv), if_neg hcoded]

/-- A string that has been encoded is read back from the bytes, in whatever reads they
come. -/
theorem readStringReads_encode (hcodes : env.huffDecodeCodes = huffDecodeCodes) {lower : Bool}
    {src : List UInt8} (hsrc : src.length ≤ maxField) {s : State T S}
    (hstate : s.hpack.fieldState = 0)
    (hlength : (ngxHttpV2StringEncode lower src).length ≤ s.length)
    {saved more : List UInt8} {inputs : List (List UInt8)}
    (hsaved : saved.length < (ngxHttpV2WriteInt (stringMark lower src) (ngxHttpV2Prefix 7)
      (stringBytes lower src).length).length)
    (hinputs : saved ++ inputs.flatten = ngxHttpV2StringEncode lower src ++ more) :
    ∃ s' rest inputs', readStringReads env s saved inputs = some (s', rest, inputs') ∧
      s'.hpack.field = lowered lower src ∧
      s'.length = s.length - (ngxHttpV2StringEncode lower src).length ∧
      rest ++ inputs'.flatten = more := by
  have hbits : 7 ≤ 8 := by decide
  have hmark : stringMark lower src &&& ngxHttpV2Prefix 7 = 0 := by
    rw [stringMark]
    split
    · rfl
    · rfl
  have hfits : (stringBytes lower src).length ≤ (ngxHttpV2Prefix 7).toNat + 2 ^ 21 - 1 :=
    (length_stringBytes_le lower src).trans hsrc
  rw [stringEncode_eq] at hlength hinputs ⊢
  rw [List.length_append] at hlength
  induction inputs generalizing saved with
  | nil =>
      have hall := congrArg List.length hinputs
      rw [List.flatten_nil, List.append_nil, List.length_append, List.length_append] at hall
      omega
  | cons input inputs ih =>
      rw [List.flatten_cons, ← List.append_assoc] at hinputs
      rw [readStringReads]
      by_cases hpart : (saved ++ input).length < (ngxHttpV2WriteInt (stringMark lower src)
          (ngxHttpV2Prefix 7) (stringBytes lower src).length).length
      · -- The length of the string goes on in the next read.
        cases hall : saved ++ input with
        | nil =>
            rw [hall] at hinputs
            exact ih (length_writeInt_pos _ _ _) hinputs
        | cons ch rest =>
            rw [hall, List.append_assoc] at hinputs
            rw [hall] at hpart
            obtain ⟨missing, hwritten, -⟩ := append_split hinputs.symm hpart.le
            have hmissing : missing ≠ [] := by
              rintro rfl
              rw [hwritten, List.append_nil] at hpart
              exact Nat.lt_irrefl _ hpart
            simp only [parseInt_again hbits hmark hfits hmissing hwritten
              (Nat.le_of_add_right_le hlength)]
            exact ih hpart (by rw [hinputs, List.append_assoc])
      · have hsplit := hinputs.trans (List.append_assoc _ _ _)
        obtain ⟨rest, hall, hrest⟩ := append_split hsplit (Nat.le_of_not_lt hpart)
        obtain ⟨ch, octets, hwritten, hvalue⟩ :=
          parseInt_writeInt hbits hmark hfits (Nat.le_of_add_right_le hlength) rest
        have hhandler := first_byte hwritten
        rw [hwritten, List.cons_append] at hall
        obtain ⟨hpack, htake, hfield⟩ := takeField_string hcodes lower src
          { s.hpack with fieldRest := (stringBytes lower src).length, field := [] } hstate rfl
        rw [hall]
        simp only [hvalue, hhandler]
        obtain ⟨s', rest', inputs', hread, hhpack, hs', hbehind⟩ :=
          readField_whole (stringHandler_isField lower src)
            (s := { s with
              length := s.length - (ngxHttpV2WriteInt (stringMark lower src)
                (ngxHttpV2Prefix 7) (stringBytes lower src).length).length
              hpack := { s.hpack with
                fieldRest := (stringBytes lower src).length, field := [] } })
            htake rfl (Nat.le_sub_of_add_le' hlength) (List.cons_ne_nil rest inputs) hrest
        refine ⟨s', rest', inputs', hread, ?_, ?_, hbehind⟩
        · rw [hhpack, hfield]
        · rw [hs', List.length_append]
          exact Nat.sub_sub _ _ _

end Readers

/-- What `ngx_http_v2_string_encode` writes is at most `NGX_HTTP_V2_INT_OCTETS` longer than
the string, and the readers of a header block get the string back from it.  The parser of
integers accepts what `ngx_http_v2_write_int` writes up to the prefix and three octets,
declines what is larger, and never takes more than the frame has. -/
theorem string_round_trip {T S : Type*} (lower : Bool) (src : List UInt8)
    (hsrc : src.length ≤ maxField) :
    (ngxHttpV2StringEncode lower src).length ≤ intOctets + src.length ∧
    (∀ (env : Env T S) (s : State T S) (more : List UInt8) (inputs : List (List UInt8)),
      env.huffDecodeCodes = huffDecodeCodes → s.hpack.fieldState = 0 →
      (ngxHttpV2StringEncode lower src).length ≤ s.length →
      inputs.flatten = ngxHttpV2StringEncode lower src ++ more →
      ∃ s' rest inputs', readStringReads env s [] inputs = some (s', rest, inputs') ∧
        s'.hpack.field = lowered lower src ∧
        s'.length = s.length - (ngxHttpV2StringEncode lower src).length ∧
        rest ++ inputs'.flatten = more) ∧
    (∀ (bits value length : ℕ) (first : UInt8) (more : List UInt8), bits ≤ 8 →
      first &&& ngxHttpV2Prefix bits = 0 →
      (ngxHttpV2WriteInt first (ngxHttpV2Prefix bits) value).length < length →
      ∃ ch rest, ngxHttpV2WriteInt first (ngxHttpV2Prefix bits) value = ch :: rest ∧
        ngxHttpV2ParseInt length ch (rest ++ more) (ngxHttpV2Prefix bits) =
          if value ≤ (ngxHttpV2Prefix bits).toNat + 2 ^ 21 - 1 then
            .value value
              (length - (ngxHttpV2WriteInt first (ngxHttpV2Prefix bits) value).length) more
          else .declined) ∧
    ∀ (length : ℕ) (ch intPrefix : UInt8) (rest : List UInt8) (value length' : ℕ)
      (rest' : List UInt8),
      ngxHttpV2ParseInt length ch rest intPrefix = .value value length' rest' →
      ∃ k, 0 < k ∧ k ≤ length ∧ k ≤ (ch :: rest).length ∧ length' = length - k ∧
        rest' = (ch :: rest).drop k := by
  have hbytes := length_stringBytes_le lower src
  have hfits : (stringBytes lower src).length ≤ (ngxHttpV2Prefix 7).toNat + 2 ^ 21 - 1 :=
    hbytes.trans hsrc
  refine ⟨?_, ?_, ?_, fun _ _ _ _ _ _ _ => parseInt_consumes⟩
  · have hwritten := (length_writeInt_le_iff (stringMark lower src) _ _).mpr hfits
    rw [stringEncode_eq, List.length_append]
    omega
  · intro env s more inputs hcodes hstate hlength hinputs
    exact readStringReads_encode hcodes hsrc hstate hlength (length_writeInt_pos _ _ _) hinputs
  · intro bits value length first more hbits hfirst hlength
    by_cases hvalue : value ≤ (ngxHttpV2Prefix bits).toNat + 2 ^ 21 - 1
    · rw [if_pos hvalue]
      exact parseInt_writeInt hbits hfirst hvalue hlength.le more
    · rw [if_neg hvalue]
      exact parseInt_writeInt_large hbits hfirst (Nat.lt_of_not_le hvalue) hlength more

/-- `GET`, written in lower case and read in two parts, and two integers. -/
theorem string_round_trip_get :
    (ngxHttpV2StringEncode true [0x47, 0x45, 0x54]).length ≤ intOctets + 3 ∧
    (∃ s' rest inputs',
      readStringReads { plainEnv with huffDecodeCodes := huffDecodeCodes }
          (State.start 1 4 0 0 plainHpack) []
          [(ngxHttpV2StringEncode true [0x47, 0x45, 0x54]).take 2,
            (ngxHttpV2StringEncode true [0x47, 0x45, 0x54]).drop 2 ++ [0x80]] =
        some (s', rest, inputs') ∧
      s'.hpack.field = [0x67, 0x65, 0x74] ∧ rest ++ inputs'.flatten = [0x80]) ∧
    (∃ ch rest, ngxHttpV2WriteInt 0 (ngxHttpV2Prefix 7) 300 = ch :: rest ∧
      ngxHttpV2ParseInt 9 ch (rest ++ [0x80]) (ngxHttpV2Prefix 7) = .value 300 6 [0x80] ∧
      ∃ k, k ≤ 9 ∧ 6 = 9 - k ∧ [0x80] = (ch :: (rest ++ [0x80])).drop k) ∧
    ∃ ch rest, ngxHttpV2WriteInt 0 (ngxHttpV2Prefix 7) 4194304 = ch :: rest ∧
      ngxHttpV2ParseInt 9 ch (rest ++ [0x80]) (ngxHttpV2Prefix 7) = .declined := by
  obtain ⟨hlength, hread, hint, htaken⟩ :=
    string_round_trip (T := Unit) (S := Unit) true [0x47, 0x45, 0x54] (by decide)
  refine ⟨hlength, ?_, ?_, ?_⟩
  · have hinputs : [(ngxHttpV2StringEncode true [0x47, 0x45, 0x54]).take 2,
        (ngxHttpV2StringEncode true [0x47, 0x45, 0x54]).drop 2 ++ [0x80]].flatten =
          ngxHttpV2StringEncode true [0x47, 0x45, 0x54] ++ [0x80] := by
      rw [List.flatten_cons, List.flatten_singleton, ← List.append_assoc,
        List.take_append_drop]
    obtain ⟨s', rest, inputs', hreads, hfield, -, hmore⟩ :=
      hread { plainEnv with huffDecodeCodes := huffDecodeCodes }
        (State.start 1 4 0 0 plainHpack) [0x80] _ rfl rfl (by decide) hinputs
    exact ⟨s', rest, inputs', hreads, hfield, hmore⟩
  · have hwritten : (ngxHttpV2WriteInt 0 (ngxHttpV2Prefix 7) 300).length = 3 := by decide +kernel
    obtain ⟨ch, rest, hwrite, hparse⟩ :=
      hint 7 300 9 0 [0x80] (by decide) (by decide) (by rw [hwritten]; decide)
    rw [if_pos (by decide), hwritten] at hparse
    obtain ⟨k, -, hk, -, hleft, hrest⟩ := htaken 9 ch _ _ 300 6 _ hparse
    exact ⟨ch, rest, hwrite, hparse, k, hk, hleft, hrest⟩
  · have hwritten : (ngxHttpV2WriteInt 0 (ngxHttpV2Prefix 7) 4194304).length = 5 := by
      decide +kernel
    obtain ⟨ch, rest, hwrite, hparse⟩ :=
      hint 7 4194304 9 0 [0x80] (by decide) (by decide) (by rw [hwritten]; decide)
    rw [if_neg (by decide)] at hparse
    exact ⟨ch, rest, hwrite, hparse⟩

end MultiversionBalancer.Http2
