import Mathlib.Data.List.TakeWhile
import Mathlib.Algebra.BigOperators.Group.List.Basic
import Mathlib.Tactic.Ring
import MultiversionBalancer.Http.Bytes

/-!
# Range headers

`ngx_http_range_parse` turns the value of a `Range` header into the ranges of the
body that the response will hold. An `off_t` is an integer of 64 bits, and every
operation on one is wrapped; the results below say that nothing wraps.
-/

namespace MultiversionBalancer.Http.Range

/-! ## The parser -/

/-- The value that an `off_t` keeps of an integer. -/
def offT (x : ℤ) : ℤ :=
  x.bmod (2 ^ 64)

def ngxMaxOffTValue : ℤ := 9223372036854775807

/-- `ngx_http_range_t`, the range `[start, stop)` of the body. -/
structure HttpRange where
  start : ℤ
  stop : ℤ
deriving DecidableEq, Repr

/-- What `ngx_http_range_parse` returns other than `NGX_OK`. -/
inductive Refusal where
  | notSatisfiable
  | declined
deriving DecidableEq, Repr

def cString (data : List UInt8) : List UInt8 :=
  data.takeWhile (· != 0)

def peek (p : List UInt8) : UInt8 :=
  p.headD 0

/-- `while (*p == ' ') { p++; }`. -/
def skipSpaces (p : List UInt8) : List UInt8 :=
  p.dropWhile (· == byte ' ')

def digitValue (ch : UInt8) : ℤ :=
  ch.toNat - 48

/-- The loops over `start` and `end`: the number and the rest of the text. -/
def readOff (cutoff cutlim : ℤ) : ℤ → List UInt8 → Option (ℤ × List UInt8)
  | n, [] => some (n, [])
  | n, ch :: p =>
      if isDigit ch then
        if cutoff ≤ n ∧ (cutoff < n ∨ cutlim < digitValue ch) then none
        else readOff cutoff cutlim (offT (offT (n * 10) + digitValue ch)) p
      else some (n, ch :: p)

/-- `NGX_MAX_OFF_T_VALUE / 10` and `NGX_MAX_OFF_T_VALUE % 10` are the cutoffs. -/
def readNumber (p : List UInt8) : Option (ℤ × List UInt8) :=
  readOff (ngxMaxOffTValue / 10) (ngxMaxOffTValue % 10) 0 p

/-- The part of an element from its second number on. -/
def readEnd (contentLength : ℤ) (suffix : Bool) (start : ℤ) (p : List UInt8) :
    Option (HttpRange × List UInt8) :=
  if isDigit (peek p) then
    match readNumber p with
    | none => none
    | some (stop, p) =>
        let p := skipSpaces p
        if peek p ≠ byte ',' ∧ peek p ≠ 0 then none
        else
          let start :=
            if suffix then
              if stop < contentLength then offT (contentLength - stop) else 0
            else start
          let stop := if suffix then offT (contentLength - 1) else stop
          let stop :=
            if contentLength ≤ stop then contentLength else offT (stop + 1)
          some (⟨start, stop⟩, p)
  else none

/-- One element of the list, up to the label `found`. -/
def readRange (contentLength : ℤ) (p : List UInt8) :
    Option (HttpRange × List UInt8) :=
  let p := skipSpaces p
  if peek p = byte '-' then readEnd contentLength true 0 (p.drop 1)
  else if isDigit (peek p) then
    match readNumber p with
    | none => none
    | some (start, p) =>
        let p := skipSpaces p
        if peek p = byte '-' then
          let p := skipSpaces (p.drop 1)
          if peek p = byte ',' ∨ peek p = 0 then some (⟨start, contentLength⟩, p)
          else readEnd contentLength false start p
        else none
  else none

/-- The state of the loop: `ctx->ranges`, `size` and `ranges`. -/
structure Parsing where
  ranges : List HttpRange
  size : ℤ
  left : ℕ
deriving DecidableEq, Repr

/-- The code from the label `found` to the test for a comma. -/
def found (s : Parsing) (range : HttpRange) : Except Refusal Parsing :=
  if range.start < range.stop then
    let size := offT (range.stop - range.start)
    if offT (ngxMaxOffTValue - size) < s.size then .error .notSatisfiable
    else if s.left = 0 then .error .declined
    else
      .ok
        { ranges := s.ranges ++ [range]
          size := offT (s.size + size)
          left := s.left - 1 }
  else if range.start = 0 then .error .declined
  else .ok s

/-! ## The loop over the elements -/

theorem skipSpaces_suffix (p : List UInt8) : skipSpaces p <:+ p :=
  List.dropWhile_suffix _

theorem readOff_suffix {cutoff cutlim n m : ℤ} {p rest : List UInt8}
    (h : readOff cutoff cutlim n p = some (m, rest)) : rest <:+ p := by
  induction p generalizing n with
  | nil =>
      obtain ⟨-, rfl⟩ : n = m ∧ [] = rest := by simpa [readOff] using h
      exact List.suffix_rfl
  | cons ch p ih =>
      unfold readOff at h
      split at h
      · split at h
        · simp at h
        · exact (ih h).trans (List.suffix_cons ch p)
      · obtain ⟨-, rfl⟩ : n = m ∧ ch :: p = rest := by simpa using h
        exact List.suffix_rfl

theorem readEnd_suffix {contentLength start : ℤ} {suffix : Bool} {p rest : List UInt8}
    {range : HttpRange} (h : readEnd contentLength suffix start p = some (range, rest)) :
    rest <:+ p := by
  unfold readEnd at h
  split at h
  · split at h
    · simp at h
    · next stop p' hnum =>
        simp only at h
        split at h
        · simp at h
        · simp only [Option.some.injEq, Prod.mk.injEq] at h
          rw [← h.2]
          exact (skipSpaces_suffix p').trans (readOff_suffix hnum)
  · simp at h

theorem readRange_suffix {contentLength : ℤ} {p rest : List UInt8} {range : HttpRange}
    (h : readRange contentLength p = some (range, rest)) : rest <:+ p := by
  unfold readRange at h
  refine List.IsSuffix.trans ?_ (skipSpaces_suffix p)
  simp only at h
  split at h
  · exact (readEnd_suffix h).trans (List.drop_suffix 1 _)
  · split at h
    · split at h
      · simp at h
      · next start p' hnum =>
          refine List.IsSuffix.trans ?_ (readOff_suffix hnum)
          split at h
          · refine List.IsSuffix.trans ?_ (skipSpaces_suffix p')
            refine List.IsSuffix.trans ?_ (List.drop_suffix 1 _)
            refine List.IsSuffix.trans ?_ (skipSpaces_suffix _)
            split at h
            · simp only [Option.some.injEq, Prod.mk.injEq] at h
              rw [← h.2]
            · exact readEnd_suffix h
          · simp at h
    · simp at h

theorem eq_cons_of_peek {p : List UInt8} {ch : UInt8} (h : peek p = ch) (hch : ch ≠ 0) :
    p = ch :: p.drop 1 := by
  cases p with
  | nil => exact absurd h.symm hch
  | cons a p => simpa [peek] using h

theorem readRange_shortens {contentLength : ℤ} {p rest : List UInt8} {range : HttpRange}
    (hread : readRange contentLength p = some (range, rest))
    (hcomma : peek rest = byte ',') : rest.length - 1 < p.length := by
  have hle := (readRange_suffix hread).length_le
  have hcons := congrArg List.length (eq_cons_of_peek hcomma (by decide))
  simp only [List.length_cons] at hcons
  omega

def parseLoop (contentLength : ℤ) (s : Parsing) (p : List UInt8) :
    Except Refusal Parsing :=
  match hread : readRange contentLength p with
  | none => .error .notSatisfiable
  | some (range, rest) =>
      match found s range with
      | .error e => .error e
      | .ok s =>
          if hcomma : peek rest = byte ',' then
            have := readRange_shortens hread hcomma
            parseLoop contentLength s (rest.drop 1)
          else .ok s
termination_by p.length

/-- `ngx_http_range_parse` over the value of the header; `inherited` is the context
of the main request, as a subrequest finds it. -/
def ngxHttpRangeParse (inherited : Option (List HttpRange)) (value : List UInt8)
    (contentLength : ℤ) (ranges : ℕ) : Except Refusal (List HttpRange) :=
  match inherited with
  | some ranges => .ok ranges
  | none =>
      match parseLoop contentLength ⟨[], 0, ranges⟩ (cString (value.drop 6)) with
      | .error e => .error e
      | .ok s =>
          if s.ranges.length = 0 then .error .notSatisfiable
          else if contentLength < s.size then .error .declined
          else .ok s.ranges

/-! ## What the steps of the parser read -/

/-- The value of a string of digits. -/
def decimal (ds : List UInt8) : ℤ :=
  ds.foldl (fun n ch => n * 10 + digitValue ch) 0

def Spaces (t : List UInt8) : Prop :=
  ∀ ch ∈ t, ch = byte ' '

/-- A nonempty string of digits. -/
def Digits (t : List UInt8) : Prop :=
  t ≠ [] ∧ ∀ ch ∈ t, isDigit ch = true

theorem offT_of_lt {x : ℤ} (hlow : -2 ^ 63 ≤ x) (hhigh : x < 2 ^ 63) : offT x = x := by
  unfold offT
  apply Int.bmod_eq_of_le <;> omega

theorem digitValue_bounds {ch : UInt8} (h : isDigit ch = true) :
    0 ≤ digitValue ch ∧ digitValue ch ≤ 9 := by
  obtain ⟨h0, h9⟩ : byte '0' ≤ ch ∧ ch ≤ byte '9' := by simpa [isDigit] using h
  have hlow : 48 ≤ ch.toNat := UInt8.le_iff_toNat_le.mp h0
  have hhigh : ch.toNat ≤ 57 := UInt8.le_iff_toNat_le.mp h9
  unfold digitValue
  omega

theorem decimal_nonneg {ds : List UInt8} (h : Digits ds) : 0 ≤ decimal ds := by
  have hfold : ∀ (es : List UInt8) (n : ℤ), (∀ ch ∈ es, isDigit ch = true) → 0 ≤ n →
      0 ≤ es.foldl (fun n ch => n * 10 + digitValue ch) n := by
    intro es
    induction es with
    | nil =>
        intro n _ hn
        exact hn
    | cons ch es ih =>
        intro n hes hn
        have hch := digitValue_bounds (hes ch (by simp))
        have hnext : 0 ≤ n * 10 + digitValue ch := by omega
        exact ih _ (fun c hc => hes c (by simp [hc])) hnext
  exact hfold ds 0 h.2 (le_refl 0)

theorem skipSpaces_spec (p : List UInt8) : ∃ t, Spaces t ∧ p = t ++ skipSpaces p := by
  refine ⟨p.takeWhile (· == byte ' '), ?_, ?_⟩
  · intro ch hch
    simpa using List.mem_takeWhile_imp hch
  · exact (List.takeWhile_append_dropWhile).symm

/-- The loop over the digits computes their value without wrapping. -/
theorem readOff_spec {n m : ℤ} {p rest : List UInt8}
    (hn : 0 ≤ n) (hmax : n ≤ ngxMaxOffTValue)
    (h : readOff (ngxMaxOffTValue / 10) (ngxMaxOffTValue % 10) n p = some (m, rest)) :
    ∃ ds, p = ds ++ rest ∧ (∀ ch ∈ ds, isDigit ch = true) ∧
      isDigit (peek rest) = false ∧
      m = ds.foldl (fun n ch => n * 10 + digitValue ch) n ∧
      0 ≤ m ∧ m ≤ ngxMaxOffTValue := by
  induction p generalizing n with
  | nil =>
      obtain ⟨rfl, rfl⟩ : n = m ∧ [] = rest := by simpa [readOff] using h
      exact ⟨[], rfl, by simp, by decide, rfl, hn, hmax⟩
  | cons ch p ih =>
      by_cases hd : isDigit ch = true
      · by_cases hcut : ngxMaxOffTValue / 10 ≤ n ∧
            (ngxMaxOffTValue / 10 < n ∨ ngxMaxOffTValue % 10 < digitValue ch)
        · simp [readOff, hd, hcut] at h
        · obtain ⟨h0, h9⟩ := digitValue_bounds hd
          rw [readOff, if_pos hd, if_neg hcut] at h
          unfold ngxMaxOffTValue at hmax hcut
          have hten : offT (n * 10) = n * 10 := offT_of_lt (by omega) (by omega)
          have hsum : offT (n * 10 + digitValue ch) = n * 10 + digitValue ch :=
            offT_of_lt (by omega) (by omega)
          rw [hten, hsum] at h
          obtain ⟨ds, rfl, hds, hpeek, hm, hbounds⟩ :=
            ih (by omega) (by unfold ngxMaxOffTValue; omega) h
          refine ⟨ch :: ds, rfl, ?_, hpeek, hm, hbounds⟩
          simpa [hd] using hds
      · obtain ⟨rfl, rfl⟩ : n = m ∧ ch :: p = rest := by simpa [readOff, hd] using h
        exact ⟨[], rfl, by simp, by simpa [peek] using hd, rfl, hn, hmax⟩

theorem readNumber_spec {m : ℤ} {p rest : List UInt8} (hd : isDigit (peek p) = true)
    (h : readNumber p = some (m, rest)) :
    ∃ ds, p = ds ++ rest ∧ Digits ds ∧ m = decimal ds ∧
      0 ≤ m ∧ m ≤ ngxMaxOffTValue := by
  obtain ⟨ds, rfl, hds, hpeek, hm, hbounds⟩ :=
    readOff_spec (le_refl 0) (by decide) h
  refine ⟨ds, rfl, ⟨?_, hds⟩, hm, hbounds⟩
  rintro rfl
  rw [List.nil_append, hpeek] at hd
  exact Bool.false_ne_true hd

theorem readEnd_spec {contentLength start : ℤ} {suffix : Bool} {p rest : List UInt8}
    {range : HttpRange} (hlen : 0 ≤ contentLength) (hmax : contentLength ≤ ngxMaxOffTValue)
    (h : readEnd contentLength suffix start p = some (range, rest)) :
    ∃ ds t, p = ds ++ (t ++ rest) ∧ Digits ds ∧ Spaces t ∧
      (peek rest = byte ',' ∨ peek rest = 0) ∧
      range =
        if suffix then ⟨max 0 (contentLength - decimal ds), contentLength⟩
        else ⟨start, min (decimal ds + 1) contentLength⟩ := by
  unfold readEnd at h
  by_cases hd : isDigit (peek p) = true
  · rw [if_pos hd] at h
    cases hnum : readNumber p with
    | none => simp [hnum] at h
    | some x =>
        obtain ⟨stop, p'⟩ := x
        obtain ⟨ds, rfl, hds, rfl, h0, hstop⟩ := readNumber_spec hd hnum
        obtain ⟨t, ht, htp⟩ := skipSpaces_spec p'
        rw [hnum] at h
        by_cases hend : peek (skipSpaces p') ≠ byte ',' ∧ peek (skipSpaces p') ≠ 0
        · simp [hend] at h
        · simp only [if_neg hend, Option.some.injEq, Prod.mk.injEq] at h
          obtain ⟨hrange, rfl⟩ := h
          refine ⟨ds, t, by rw [← htp], hds, ht, by tauto, ?_⟩
          rw [← hrange]
          unfold ngxMaxOffTValue at hmax hstop
          cases suffix with
          | true =>
              have hone : offT (contentLength - 1) = contentLength - 1 :=
                offT_of_lt (by omega) (by omega)
              have hsub : offT (contentLength - decimal ds) = contentLength - decimal ds :=
                offT_of_lt (by omega) (by omega)
              have hback : offT (contentLength - 1 + 1) = contentLength :=
                (offT_of_lt (by omega) (by omega)).trans (by omega)
              simp only [if_true, hone, hsub, hback, HttpRange.mk.injEq]
              refine ⟨?_, ?_⟩
              · split <;> omega
              · split <;> rfl
          | false =>
              simp only [Bool.false_eq_true, if_false, HttpRange.mk.injEq, true_and]
              by_cases hle : contentLength ≤ decimal ds
              · rw [if_pos hle]
                omega
              · rw [if_neg hle, offT_of_lt (by omega) (by omega)]
                omega
  · simp [hd] at h

/-! ## Byte-range specs -/

inductive ByteRangeSpec where
  | span (first last : ℤ)
  | onwards (first : ℤ)
  | suffix (length : ℤ)
deriving DecidableEq, Repr

namespace ByteRangeSpec

/-- The text of a spec. Spaces may stand everywhere but inside a number and after
the dash of a suffix. -/
inductive Spells : List UInt8 → ByteRangeSpec → Prop
  | span {a b c d ds es : List UInt8} (ha : Spaces a) (hds : Digits ds) (hb : Spaces b)
      (hc : Spaces c) (hes : Digits es) (hd : Spaces d) :
      Spells (a ++ (ds ++ (b ++ byte '-' :: (c ++ (es ++ d)))))
        (span (decimal ds) (decimal es))
  | onwards {a b c ds : List UInt8} (ha : Spaces a) (hds : Digits ds) (hb : Spaces b)
      (hc : Spaces c) : Spells (a ++ (ds ++ (b ++ byte '-' :: c))) (onwards (decimal ds))
  | suffix {a d es : List UInt8} (ha : Spaces a) (hes : Digits es) (hd : Spaces d) :
      Spells (a ++ byte '-' :: (es ++ d)) (suffix (decimal es))

/-- A list of specs, separated by commas. -/
inductive SpellsList : List UInt8 → List ByteRangeSpec → Prop
  | one {t : List UInt8} {spec : ByteRangeSpec} (h : Spells t spec) : SpellsList t [spec]
  | more {t ts : List UInt8} {spec : ByteRangeSpec} {specs : List ByteRangeSpec}
      (h : Spells t spec) (hs : SpellsList ts specs) :
      SpellsList (t ++ byte ',' :: ts) (spec :: specs)

/-- The spec asks for byte `i` of a body of the given length. -/
def Asks (contentLength : ℤ) : ByteRangeSpec → ℤ → Prop
  | span first last, i => first ≤ i ∧ i ≤ last
  | onwards first, i => first ≤ i
  | suffix length, i => contentLength - length ≤ i

/-- The spec, clipped to the body. -/
def clip (contentLength : ℤ) : ByteRangeSpec → HttpRange
  | span first last => ⟨first, min (last + 1) contentLength⟩
  | onwards first => ⟨first, contentLength⟩
  | suffix length => ⟨max 0 (contentLength - length), contentLength⟩

def satisfied (contentLength : ℤ) (spec : ByteRangeSpec) : Option HttpRange :=
  if (clip contentLength spec).start < (clip contentLength spec).stop then
    some (clip contentLength spec)
  else none

theorem satisfied_eq_some {contentLength : ℤ} {spec : ByteRangeSpec} {range : HttpRange}
    (h : satisfied contentLength spec = some range) :
    range = clip contentLength spec ∧ range.start < range.stop := by
  unfold satisfied at h
  split at h
  · next hlt =>
      obtain rfl := Option.some.inj h
      exact ⟨rfl, hlt⟩
  · simp at h

theorem clip_stop_le {contentLength : ℤ} (spec : ByteRangeSpec) :
    (clip contentLength spec).stop ≤ contentLength := by
  cases spec <;> simp [clip]

theorem Spells.start_nonneg {contentLength : ℤ} {t : List UInt8} {spec : ByteRangeSpec}
    (h : Spells t spec) : 0 ≤ (clip contentLength spec).start := by
  cases h with
  | span _ hds _ _ _ _ => exact decimal_nonneg hds
  | onwards _ hds _ _ => exact decimal_nonneg hds
  | suffix _ _ _ => exact le_max_left _ _

theorem SpellsList.start_nonneg {contentLength : ℤ} {t : List UInt8}
    {specs : List ByteRangeSpec} (h : SpellsList t specs) {spec : ByteRangeSpec}
    (hspec : spec ∈ specs) : 0 ≤ (clip contentLength spec).start := by
  induction h with
  | one h =>
      rw [List.mem_singleton.mp hspec]
      exact h.start_nonneg
  | more h _ ih =>
      rcases List.mem_cons.mp hspec with rfl | hmem
      · exact h.start_nonneg
      · exact ih hmem

/-- Clipping keeps the bytes of the body that are asked for. -/
theorem asks_iff_clip {contentLength i : ℤ} (spec : ByteRangeSpec)
    (h0 : 0 ≤ i) (hi : i < contentLength) :
    spec.Asks contentLength i ↔
      (spec.clip contentLength).start ≤ i ∧ i < (spec.clip contentLength).stop := by
  cases spec <;> simp only [Asks, clip] <;> omega

end ByteRangeSpec

open ByteRangeSpec

/-- The number of bytes of a list of ranges. -/
def total (ranges : List HttpRange) : ℤ :=
  (ranges.map fun range => range.stop - range.start).sum

theorem total_append (xs ys : List HttpRange) : total (xs ++ ys) = total xs + total ys := by
  simp [total]

theorem filterMap_cons_toList {α β : Type*} (f : α → Option β) (x : α) (xs : List α) :
    (x :: xs).filterMap f = (f x).toList ++ xs.filterMap f := by
  rw [List.filterMap_cons]
  cases f x <;> rfl

section

variable {contentLength : ℤ} (hlen : 0 ≤ contentLength)
  (hmax : contentLength ≤ ngxMaxOffTValue)

include hlen hmax

theorem readRange_spec {p rest : List UInt8} {range : HttpRange}
    (h : readRange contentLength p = some (range, rest)) :
    ∃ t spec, p = t ++ rest ∧ Spells t spec ∧ range = clip contentLength spec ∧
      (peek rest = byte ',' ∨ peek rest = 0) ∧
      0 ≤ range.start ∧ range.stop ≤ contentLength := by
  obtain ⟨a, ha, hap⟩ := skipSpaces_spec p
  unfold readRange at h
  generalize skipSpaces p = q at h hap
  subst hap
  by_cases hdash : peek q = byte '-'
  · have hq := eq_cons_of_peek hdash (by decide)
    simp only [if_pos hdash] at h
    obtain ⟨es, d, hp, hes, hd, hstop, rfl⟩ := readEnd_spec hlen hmax h
    refine ⟨_, .suffix (decimal es), ?_, .suffix ha hes hd, rfl, hstop, ?_, ?_⟩
    · rw [hq, hp]
      simp
    · exact le_max_left _ _
    · exact le_refl _
  · by_cases hdigit : isDigit (peek q) = true
    · simp only [if_neg hdash, if_pos hdigit] at h
      cases hnum : readNumber q with
      | none => simp [hnum] at h
      | some x =>
          obtain ⟨start, q'⟩ := x
          obtain ⟨ds, rfl, hds, rfl, h0, -⟩ := readNumber_spec hdigit hnum
          obtain ⟨b, hb, hbq⟩ := skipSpaces_spec q'
          simp only [hnum] at h
          generalize skipSpaces q' = r at h hbq
          subst hbq
          by_cases hdash' : peek r = byte '-'
          · have hr := eq_cons_of_peek hdash' (by decide)
            simp only [if_pos hdash'] at h
            obtain ⟨c, hc, hcr⟩ := skipSpaces_spec (r.drop 1)
            generalize skipSpaces (r.drop 1) = u at h hcr
            by_cases hopen : peek u = byte ',' ∨ peek u = 0
            · simp only [if_pos hopen, Option.some.injEq, Prod.mk.injEq] at h
              obtain ⟨rfl, rfl⟩ := h
              refine ⟨_, .onwards (decimal ds), ?_, .onwards ha hds hb hc, rfl, hopen, h0,
                le_refl _⟩
              rw [hr, hcr]
              simp
            · rw [if_neg hopen] at h
              obtain ⟨es, d, hp, hes, hd, hstop, rfl⟩ := readEnd_spec hlen hmax h
              refine ⟨_, .span (decimal ds) (decimal es), ?_, .span ha hds hb hc hes hd,
                rfl, hstop, h0, min_le_right _ _⟩
              rw [hr, hcr, hp]
              simp
          · simp [hdash'] at h
    · simp [hdash, hdigit] at h

omit hlen in
/-- A satisfiable range is pushed and counted; another one changes nothing. -/
theorem found_spec {s s' : Parsing} {spec : ByteRangeSpec}
    (hsize : 0 ≤ s.size) (hsmall : s.size ≤ ngxMaxOffTValue)
    (hstart : 0 ≤ (clip contentLength spec).start)
    (hstop : (clip contentLength spec).stop ≤ contentLength)
    (h : found s (clip contentLength spec) = .ok s') :
    let pushed := (satisfied contentLength spec).toList
    s'.ranges = s.ranges ++ pushed ∧ s'.left + pushed.length = s.left ∧
      s'.size = s.size + total pushed ∧ 0 ≤ s'.size ∧ s'.size ≤ ngxMaxOffTValue := by
  unfold satisfied
  generalize clip contentLength spec = range at *
  unfold found at h
  by_cases hlt : range.start < range.stop
  · unfold ngxMaxOffTValue at *
    have hdiff : offT (range.stop - range.start) = range.stop - range.start :=
      offT_of_lt (by omega) (by omega)
    have hroom : offT (9223372036854775807 - (range.stop - range.start)) =
        9223372036854775807 - (range.stop - range.start) :=
      offT_of_lt (by omega) (by omega)
    simp only [if_pos hlt, hdiff, hroom] at h
    split at h
    · simp at h
    · split at h
      · simp at h
      · have hsum : offT (s.size + (range.stop - range.start)) =
            s.size + (range.stop - range.start) :=
          offT_of_lt (by omega) (by omega)
        simp only [hsum, Except.ok.injEq] at h
        subst h
        simp only [if_pos hlt, Option.toList_some, total, List.map_cons, List.map_nil,
          List.sum_cons, List.sum_nil, List.length_singleton, true_and]
        exact ⟨by omega, by omega, by omega, by omega⟩
  · rw [if_neg hlt] at h
    split at h
    · simp at h
    · simp only [Except.ok.injEq] at h
      subst h
      simp [if_neg hlt, total, hsize, hsmall]

/-- The loop reads a list of specs and keeps the satisfiable ones. -/
theorem parseLoop_spec {s s' : Parsing} {p : List UInt8}
    (hsize : 0 ≤ s.size) (hsmall : s.size ≤ ngxMaxOffTValue) (hp : ∀ ch ∈ p, ch ≠ 0)
    (h : parseLoop contentLength s p = .ok s') :
    ∃ specs, SpellsList p specs ∧
      s'.ranges = s.ranges ++ specs.filterMap (satisfied contentLength) ∧
      s'.left + (specs.filterMap (satisfied contentLength)).length = s.left ∧
      s'.size = s.size + total (specs.filterMap (satisfied contentLength)) := by
  fun_induction parseLoop contentLength s p with
  | case1 s p hread => simp at h
  | case2 s p range rest hread e hfound => simp at h
  | case3 s p range rest hread s₁ hfound hcomma _ ih =>
      obtain ⟨t, spec, rfl, hspells, rfl, -, hstart, hstop⟩ := readRange_spec hlen hmax hread
      obtain ⟨hranges, hleft, hsum, hsize₁, hsmall₁⟩ :=
        found_spec hmax hsize hsmall hstart hstop hfound
      have hrest := eq_cons_of_peek hcomma (by decide)
      obtain ⟨specs, hspecs, hranges', hleft', hsum'⟩ :=
        ih hsize₁ hsmall₁ (fun ch hch => hp ch (by simp [List.mem_of_mem_drop hch])) h
      refine ⟨spec :: specs, ?_, ?_, ?_, ?_⟩
      · rw [hrest]
        exact .more hspells hspecs
      · rw [hranges', hranges, List.append_assoc, filterMap_cons_toList]
      · rw [filterMap_cons_toList, List.length_append]
        omega
      · rw [filterMap_cons_toList, total_append]
        omega
  | case4 s p range rest hread s₁ hfound hcomma =>
      obtain ⟨t, spec, rfl, hspells, rfl, hend, hstart, hstop⟩ :=
        readRange_spec hlen hmax hread
      obtain ⟨hranges, hleft, hsum, -⟩ := found_spec hmax hsize hsmall hstart hstop hfound
      have hnil : rest = [] := by
        cases rest with
        | nil => rfl
        | cons ch rest => exact absurd (hend.resolve_left hcomma) (hp ch (by simp))
      simp only [Except.ok.injEq] at h
      subst h hnil
      refine ⟨[spec], ?_, ?_, ?_, ?_⟩
      · simpa using SpellsList.one hspells
      · rw [filterMap_cons_toList, hranges]
        simp
      · rw [filterMap_cons_toList]
        simpa using hleft
      · rw [filterMap_cons_toList]
        simpa using hsum

/-- What an accepted `Range` header is: a list of byte-range specs, of which the
satisfiable ones are the ranges. -/
theorem ngxHttpRangeParse_ok {value : List UInt8} {maxRanges : ℕ} {ranges : List HttpRange}
    (h : ngxHttpRangeParse none value contentLength maxRanges = .ok ranges) :
    ranges ≠ [] ∧
      (∃ specs, SpellsList (cString (value.drop 6)) specs ∧
        ranges = specs.filterMap (satisfied contentLength)) ∧
      (∀ range ∈ ranges,
        0 ≤ range.start ∧ range.start < range.stop ∧ range.stop ≤ contentLength) ∧
      ranges.length ≤ maxRanges ∧ total ranges ≤ contentLength := by
  unfold ngxHttpRangeParse at h
  simp only at h
  split at h
  · simp at h
  · next s hloop =>
      split at h
      · simp at h
      · next hne =>
          split at h
          · simp at h
          · next hle =>
              simp only [Except.ok.injEq] at h
              subst h
              have hzero : (0 : ℤ) ≤ ngxMaxOffTValue := by decide
              obtain ⟨specs, hspecs, hranges, hleft, hsum⟩ :=
                parseLoop_spec hlen hmax (le_refl 0) hzero
                  (fun ch hch => by simpa using List.mem_takeWhile_imp hch) hloop
              simp only [List.nil_append, zero_add] at hranges hleft hsum
              refine ⟨by simpa using hne, ⟨specs, hspecs, hranges⟩, ?_, ?_, ?_⟩
              · intro range hrange
                rw [hranges] at hrange
                obtain ⟨spec, hspec, hsat⟩ := List.mem_filterMap.mp hrange
                obtain ⟨rfl, hlt⟩ := satisfied_eq_some hsat
                exact ⟨hspecs.start_nonneg hspec, hlt, clip_stop_le spec⟩
              · rw [hranges]
                omega
              · rw [hranges, ← hsum]
                omega

end

end MultiversionBalancer.Http.Range
