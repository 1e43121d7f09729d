import MultiversionBalancer.Http.Uri
import Mathlib.Tactic.SplitIfs

/-!
# The URI inside a request line

Inside the URI of a request line, `ngx_http_parse_request_line` makes the same
steps as `ngx_http_parse_uri` until the URI ends.  From this follows what is
known of the URI of an accepted request line: it is a path that
`ngx_http_parse_uri` accepts with the same fields, or, behind a host, a query
without a path.
-/

namespace MultiversionBalancer.Http

open Lib

/-! ## One byte -/

def RequestLine.uriFields (r : RequestLine) : UriFields where
  argsStart := r.argsStart
  uriExt := r.uriExt
  complexUri := r.complexUri
  quotedUri := r.quotedUri
  plusInUri := r.plusInUri

/-- Replace the fields about the URI. -/
def RequestLine.withUriFields (r : RequestLine) (f : UriFields) : RequestLine :=
  { r with
    argsStart := f.argsStart
    uriExt := f.uriExt
    complexUri := f.complexUri
    quotedUri := f.quotedUri
    plusInUri := f.plusInUri }

@[simp] theorem uriFields_withUriFields (r : RequestLine) (f : UriFields) :
    (r.withUriFields f).uriFields = f := rfl

@[simp] theorem withUriFields_uriFields (r : RequestLine) :
    r.withUriFields r.uriFields = r := rfl

/-- The state of the request line for a state of the path. -/
def UriScan.toLine : UriScan → LineState
  | .start => .spacesBeforeUri
  | .afterSlashInUri => .afterSlashInUri
  | .checkUri => .checkUri
  | .uri => .uri

/-- The bytes that end a URI in a request line. -/
def endsUri (ch : UInt8) : Bool :=
  ch = byte ' ' || ch = cr || ch = lf

theorem control_iff {ch : UInt8} (h : ch ≠ byte ' ') :
    (decide (ch < 0x20) || decide (ch = 0x7f)) =
      (decide (ch ≤ 0x20) || decide (ch = 0x7f)) := by
  have hlt : ch < 0x20 ↔ ch ≤ 0x20 := by
    constructor
    · exact fun hlt => UInt8.le_of_lt hlt
    · intro hle
      exact UInt8.lt_of_le_of_ne hle h
  simp [hlt]

/-- What the parser of the request line does with a step of
`ngx_http_parse_uri`. -/
def lineVerdict (r : RequestLine) : Option (UriScan × UriFields) → LineVerdict
  | some (σ, f) => goOn σ.toLine (r.withUriFields f)
  | none => reject .invalidRequest r

/-- Inside a URI both parsers make the same steps. -/
theorem stepLine_uri (seen : List UInt8) {ch : UInt8} {σ : UriScan}
    (r : RequestLine) (hσ : σ ≠ .start) (hch : endsUri ch = false) :
    stepLine seen ch (σ.toLine, r) =
      lineVerdict r (stepParseUri seen.length ch (σ, r.uriFields)) := by
  simp only [endsUri, Bool.or_eq_false_iff, decide_eq_false_iff_not] at hch
  obtain ⟨⟨hsp, hcr⟩, hlf⟩ := hch
  have hctl := control_iff hsp
  cases σ with
  | start => exact absurd rfl hσ
  | afterSlashInUri =>
      simp only [UriScan.toLine, stepLine, stepAfterSlash, stepParseUri,
        if_neg hsp, if_neg hcr, if_neg hlf, hctl, apply_ite (lineVerdict r)]
      rfl
  | checkUri =>
      simp only [UriScan.toLine, stepLine, stepCheckUri, stepParseUri,
        if_neg hsp, if_neg hcr, if_neg hlf, hctl, apply_ite (lineVerdict r)]
      rfl
  | uri =>
      simp only [UriScan.toLine, stepLine, stepUri, stepParseUri,
        if_neg hsp, if_neg hcr, if_neg hlf, hctl, apply_ite (lineVerdict r)]
      rfl

/-! ## The invariant of the request line -/

theorem scanParseUri_append (p : ℕ) (s : UriScan × UriFields)
    (xs ys : List UInt8) :
    scanParseUri p s (xs ++ ys) =
      (scanParseUri p s xs).bind fun s => scanParseUri (p + xs.length) s ys := by
  induction xs generalizing p s with
  | nil => rfl
  | cons x xs ih =>
      rw [List.cons_append, scanParseUri, scanParseUri]
      cases stepParseUri p x s with
      | none => rfl
      | some s' =>
          simp only [Option.bind_some, ih, List.length_cons,
            Nat.add_right_comm p 1, Nat.add_assoc]

def LineState.early : LineState → Bool
  | .start => true
  | .method => true
  | .spacesBeforeUri => true
  | .schema => true
  | .schemaSlash => true
  | .schemaSlashSlash => true
  | .hostStart => true
  | .host => true
  | .hostEnd => true
  | .hostIpLiteral => true
  | .port => true
  | _ => false

def LineState.behindSchema : LineState → Bool
  | .schemaSlashSlash => true
  | .hostStart => true
  | .host => true
  | .hostEnd => true
  | .hostIpLiteral => true
  | .port => true
  | _ => false

def LineState.late : LineState → Bool
  | .http09 => true
  | .httpH => true
  | .httpHT => true
  | .httpHTT => true
  | .httpHTTP => true
  | .firstMajorDigit => true
  | .majorDigit => true
  | .firstMinorDigit => true
  | .minorDigit => true
  | .spacesAfterDigit => true
  | .almostDone => true
  | _ => false

/-- Nothing is known of the URI yet, apart from the slash behind a schema. -/
structure Early (seen : List UInt8) (s : LineState) (r : RequestLine) :
    Prop where
  state : s.early = true
  fields : r.uriFields = .new
  path : r.emptyPathInUri = false
  schemaEnd : s = .schemaSlash → r.schemaEnd.map (· + 1) = some seen.length
  slash : s.behindSchema = true →
    ∃ e, r.schemaEnd = some e ∧ seen[e + 1]? = some (byte '/')

/-- The URI at position `b` and the fields about it: a path, or a query behind
a host. -/
inductive UriShape (b : ℕ) : List UInt8 → Bool → UriFields → Prop where
  | path {raw : List UInt8} {σ : UriScan} {f : UriFields} (hne : raw ≠ [])
      (h : scanParseUri b (.start, .new) raw = some (σ, f)) :
      UriShape b raw false f
  | query (q : List UInt8) :
      UriShape b (byte '?' :: q) true
        { UriFields.new with
          argsStart := some (b + 1)
          complexUri := decide (byte '#' ∈ q) }

structure Ended (seen : List UInt8) (r : RequestLine) (b e : ℕ) : Prop where
  uriStart : r.uriStart = some b
  uriEnd : r.uriEnd = some e
  le : b ≤ e
  bound : e ≤ seen.length
  shape : UriShape b ((seen.take e).drop b) r.emptyPathInUri r.uriFields

inductive LineInv (seen : List UInt8) : LineState × RequestLine → Prop where
  | early {s : LineState} {r : RequestLine} (h : Early seen s r) :
      LineInv seen (s, r)
  | path {σ : UriScan} {r : RequestLine} {b : ℕ} (hσ : σ ≠ .start)
      (hstart : r.uriStart = some b) (hb : b < seen.length)
      (hpath : r.emptyPathInUri = false)
      (hscan : scanParseUri b (.start, .new) (seen.drop b) =
        some (σ, r.uriFields)) :
      LineInv seen (σ.toLine, r)
  | query {r : RequestLine} {b : ℕ} {q : List UInt8}
      (hstart : r.uriStart = some b) (hpath : r.emptyPathInUri = true)
      (hb : b ≤ seen.length) (hq : seen.drop b = byte '?' :: q)
      (hfields : r.uriFields =
        { UriFields.new with
          argsStart := some (b + 1)
          complexUri := decide (byte '#' ∈ q) }) :
      LineInv seen (.uri, r)
  | late {s : LineState} {r : RequestLine} {b e : ℕ} (hs : s.late = true)
      (h : Ended seen r b e) : LineInv seen (s, r)

/-- The fields that describe the URI are the same. -/
structure SameUri (r r' : RequestLine) : Prop where
  uriStart : r'.uriStart = r.uriStart
  uriEnd : r'.uriEnd = r.uriEnd
  path : r'.emptyPathInUri = r.emptyPathInUri
  fields : r'.uriFields = r.uriFields

theorem SameUri.trans {r r' r'' : RequestLine} (h : SameUri r r')
    (h' : SameUri r' r'') : SameUri r r'' where
  uriStart := h'.uriStart.trans h.uriStart
  uriEnd := h'.uriEnd.trans h.uriEnd
  path := h'.path.trans h.path
  fields := h'.fields.trans h.fields

theorem Ended.append {seen : List UInt8} {r : RequestLine} {b e : ℕ}
    (h : Ended seen r b e) (rest : List UInt8) :
    Ended (seen ++ rest) r b e where
  uriStart := h.uriStart
  uriEnd := h.uriEnd
  le := h.le
  bound := by
    have hbound := h.bound
    simp only [List.length_append]
    omega
  shape := by
    rw [List.take_append_of_le_length h.bound]
    exact h.shape

theorem Ended.same {seen : List UInt8} {r r' : RequestLine} {b e : ℕ}
    (h : Ended seen r b e) (hsame : SameUri r r') : Ended seen r' b e where
  uriStart := hsame.uriStart.trans h.uriStart
  uriEnd := hsame.uriEnd.trans h.uriEnd
  le := h.le
  bound := h.bound
  shape := by
    rw [hsame.path, hsame.fields]
    exact h.shape

theorem stepLine_late (seen : List UInt8) (ch : UInt8) {s : LineState}
    (r : RequestLine) (hs : s.late = true) :
    (stepLine seen ch (s, r)).All (fun x => x.1.late = true ∧ SameUri r x.2)
      fun res => SameUri r res.line := by
  have hsame : SameUri r r := ⟨rfl, rfl, rfl, rfl⟩
  have hexpect (c : Char) (next : LineState) (hnext : next.late = true) :
      (expect c next ch r).All (fun x => x.1.late = true ∧ SameUri r x.2)
        fun res => SameUri r res.line := by
    apply Verdict.all_ite
    · exact ⟨hnext, hsame⟩
    · exact hsame
  have hmajor (major : ℕ) :
      (majorDigit ch major r).All (fun x => x.1.late = true ∧ SameUri r x.2)
        fun res => SameUri r res.line := by
    apply Verdict.all_ite
    · exact ⟨rfl, rfl, rfl, rfl⟩
    · exact ⟨rfl, rfl, rfl, rfl, rfl⟩
  cases s with
  | http09 =>
      apply Verdict.all_ite
      · exact ⟨rfl, hsame⟩
      apply Verdict.all_ite
      · exact ⟨rfl, rfl, rfl, rfl, rfl⟩
      apply Verdict.all_ite
      · exact ⟨rfl, rfl, rfl, rfl⟩
      apply Verdict.all_ite
      · exact ⟨rfl, rfl, rfl, rfl, rfl⟩
      · exact hsame
  | httpH => exact hexpect 'T' .httpHT rfl
  | httpHT => exact hexpect 'T' .httpHTT rfl
  | httpHTT => exact hexpect 'P' .httpHTTP rfl
  | httpHTTP => exact hexpect '/' .firstMajorDigit rfl
  | firstMajorDigit =>
      apply Verdict.all_ite
      · exact hsame
      · exact hmajor 0
  | majorDigit =>
      apply Verdict.all_ite
      · exact ⟨rfl, hsame⟩
      apply Verdict.all_ite
      · exact hmajor r.httpMajor
      · exact hsame
  | firstMinorDigit =>
      apply Verdict.all_ite
      · exact ⟨rfl, rfl, rfl, rfl, rfl⟩
      · exact hsame
  | minorDigit =>
      apply Verdict.all_ite
      · exact ⟨rfl, hsame⟩
      apply Verdict.all_ite
      · exact ⟨rfl, rfl, rfl, rfl⟩
      apply Verdict.all_ite
      · exact ⟨rfl, hsame⟩
      apply Verdict.all_ite
      · exact hsame
      · exact ⟨rfl, rfl, rfl, rfl, rfl⟩
  | spacesAfterDigit =>
      apply Verdict.all_ite
      · exact ⟨rfl, hsame⟩
      apply Verdict.all_ite
      · exact ⟨rfl, hsame⟩
      apply Verdict.all_ite
      · exact ⟨rfl, rfl, rfl, rfl⟩
      · exact hsame
  | almostDone =>
      apply Verdict.all_ite
      · exact ⟨rfl, rfl, rfl, rfl⟩
      · exact ⟨rfl, rfl, rfl, rfl⟩
  | _ => cases hs

/-- What holds after a byte: the invariant, or the URI of an accepted line. -/
def Kept (seen : List UInt8) (v : LineVerdict) : Prop :=
  v.All (LineInv seen) fun res =>
    res.code = .ok → ∃ b e, Ended seen res.line b e

/-- The end of a URI at the byte `ch`, with and without a version. -/
theorem Kept.of_ended {seen : List UInt8} {r : RequestLine} {b : ℕ}
    {ch : UInt8} (h : Ended (seen ++ [ch]) { r with uriEnd := some seen.length }
      b seen.length) :
    Kept (seen ++ [ch]) (goOn .http09 { r with uriEnd := some seen.length }) ∧
      Kept (seen ++ [ch]) (goOn .almostDone (endUri09 seen.length r)) ∧
      Kept (seen ++ [ch]) (finish seen.length (endUri09 seen.length r)) := by
  refine ⟨?_, ?_, ?_⟩
  · exact .late rfl h
  · exact .late rfl (h.same ⟨rfl, rfl, rfl, rfl⟩)
  · intro _
    exact ⟨b, seen.length, h.same ⟨rfl, rfl, rfl, rfl⟩⟩

theorem Kept.reject {seen : List UInt8} {code : ParseCode} {r : RequestLine}
    (h : code ≠ .ok) : Kept seen (reject code r) := by
  intro hok
  exact absurd hok h

theorem stepLine_endsUri (seen : List UInt8) {ch : UInt8} {σ : UriScan}
    (r : RequestLine) (hσ : σ ≠ .start) (hch : endsUri ch = true) :
    stepLine seen ch (σ.toLine, r) =
        goOn .http09 { r with uriEnd := some seen.length } ∨
      stepLine seen ch (σ.toLine, r) =
        goOn .almostDone (endUri09 seen.length r) ∨
      stepLine seen ch (σ.toLine, r) =
        finish seen.length (endUri09 seen.length r) := by
  simp only [endsUri, Bool.or_eq_true, decide_eq_true_eq] at hch
  obtain (rfl | rfl) | rfl := hch
  · left
    cases σ with
    | start => exact absurd rfl hσ
    | _ => rfl
  · right; left
    cases σ with
    | start => exact absurd rfl hσ
    | _ => rfl
  · right; right
    cases σ with
    | start => exact absurd rfl hσ
    | _ => rfl

theorem Kept.ends {seen : List UInt8} {ch : UInt8} {σ : UriScan}
    {r : RequestLine} {b : ℕ} (hσ : σ ≠ .start) (hch : endsUri ch = true)
    (hstart : r.uriStart = some b) (hb : b ≤ seen.length)
    (hshape : UriShape b (seen.drop b) r.emptyPathInUri r.uriFields) :
    Kept (seen ++ [ch]) (stepLine seen ch (σ.toLine, r)) := by
  have hended : Ended (seen ++ [ch]) { r with uriEnd := some seen.length } b
      seen.length := by
    refine ⟨hstart, rfl, hb, by simp, ?_⟩
    rw [List.take_left]
    exact hshape
  obtain ⟨hspace, hcr, hlf⟩ := Kept.of_ended hended
  obtain h | h | h := stepLine_endsUri seen r hσ hch
  · rwa [h]
  · rwa [h]
  · rwa [h]

theorem scanParseUri_ne_start {p : ℕ} {s s' : UriScan × UriFields} {ch : UInt8}
    (h : stepParseUri p ch s = some s') : s'.1 ≠ .start := by
  obtain ⟨σ, f⟩ := s
  cases σ <;> simp only [stepParseUri] at h <;> grind

theorem Kept.path {seen : List UInt8} {ch : UInt8} {σ : UriScan}
    {r : RequestLine} {b : ℕ} (hσ : σ ≠ .start) (hstart : r.uriStart = some b)
    (hb : b < seen.length) (hpath : r.emptyPathInUri = false)
    (hscan : scanParseUri b (.start, .new) (seen.drop b) =
      some (σ, r.uriFields)) :
    Kept (seen ++ [ch]) (stepLine seen ch (σ.toLine, r)) := by
  by_cases hch : endsUri ch = true
  · apply Kept.ends hσ hch hstart (Nat.le_of_lt hb)
    rw [hpath]
    refine .path ?_ hscan
    simpa using hb
  rw [stepLine_uri seen r hσ (by simpa using hch)]
  cases hstep : stepParseUri seen.length ch (σ, r.uriFields) with
  | none => exact Kept.reject (by decide)
  | some s =>
      obtain ⟨σ', f⟩ := s
      refine LineInv.path (scanParseUri_ne_start hstep) hstart ?_ hpath ?_
      · simp only [List.length_append]
        omega
      · have hlen : b + (seen.drop b).length = seen.length := by
          simp only [List.length_drop]
          omega
        rw [List.drop_append_of_le_length (Nat.le_of_lt hb), scanParseUri_append, hscan,
          Option.bind_some, hlen, scanParseUri, hstep]
        rfl

/-- Behind the path only a `#` changes a field. -/
theorem stepParseUri_uri (p : ℕ) (ch : UInt8) (f : UriFields) :
    stepParseUri p ch (.uri, f) = none ∨
      stepParseUri p ch (.uri, f) =
        some (.uri,
          { f with complexUri := f.complexUri || decide (ch = byte '#') }) := by
  rw [stepParseUri]
  by_cases hhash : ch = byte '#'
  · subst hhash
    right
    rw [if_neg (by decide), if_pos rfl]
    simp
  · simp only [if_neg hhash, decide_eq_false hhash, Bool.or_false]
    by_cases husual : usual ch = true
    · right
      rw [if_pos husual]
    rw [if_neg husual]
    by_cases hctl : (ch ≤ 0x20 || ch = 0x7f) = true
    · left
      rw [if_pos hctl]
    · right
      rw [if_neg hctl]

theorem Kept.query {seen : List UInt8} {ch : UInt8} {r : RequestLine} {b : ℕ}
    {q : List UInt8} (hstart : r.uriStart = some b)
    (hpath : r.emptyPathInUri = true) (hb : b ≤ seen.length)
    (hq : seen.drop b = byte '?' :: q)
    (hfields : r.uriFields =
      { UriFields.new with
        argsStart := some (b + 1)
        complexUri := decide (byte '#' ∈ q) }) :
    Kept (seen ++ [ch]) (stepLine seen ch (.uri, r)) := by
  by_cases hch : endsUri ch = true
  · apply Kept.ends (show UriScan.uri ≠ .start by decide) hch hstart hb
    rw [hpath, hq, hfields]
    exact .query q
  have hdrop : (seen ++ [ch]).drop b = byte '?' :: (q ++ [ch]) := by
    rw [List.drop_append_of_le_length hb, hq]
    rfl
  have hlen : b ≤ (seen ++ [ch]).length := by
    simp only [List.length_append]
    omega
  have hline : stepLine seen ch (.uri, r) = lineVerdict r _ :=
    stepLine_uri seen r (show UriScan.uri ≠ .start by decide)
      (by simpa using hch)
  rw [hline]
  obtain hstep | hstep := stepParseUri_uri seen.length ch r.uriFields
  · rw [hstep]
    exact Kept.reject (by decide)
  · rw [hstep]
    refine LineInv.query hstart hpath hlen hdrop ?_
    rw [uriFields_withUriFields, hfields]
    simp [eq_comm]

/-! ## Before the URI -/

section Early

variable {seen : List UInt8} {ch : UInt8} {s s' : LineState}
  {r r' : RequestLine}

/-- A step to a state before the host. -/
theorem Early.front (h : Early seen s r) (hs' : s'.early = true)
    (hslash : s' ≠ .schemaSlash) (hbehind : s'.behindSchema = false)
    (hsame : SameUri r r') : Kept (seen ++ [ch]) (goOn s' r') := by
  refine LineInv.early ⟨hs', ?_, ?_, ?_, ?_⟩
  · rw [hsame.fields, h.fields]
  · rw [hsame.path, h.path]
  · exact fun hs => absurd hs hslash
  · intro hs
    rw [hbehind] at hs
    cases hs

theorem Early.host (h : Early seen s r) (hs : s.behindSchema = true)
    (hs' : s'.early = true) (hslash : s' ≠ .schemaSlash) (hsame : SameUri r r')
    (hschema : r'.schemaEnd = r.schemaEnd) :
    Kept (seen ++ [ch]) (goOn s' r') := by
  refine LineInv.early ⟨hs', ?_, ?_, ?_, ?_⟩
  · rw [hsame.fields, h.fields]
  · rw [hsame.path, h.path]
  · exact fun hs => absurd hs hslash
  · intro _
    obtain ⟨e, he, hat⟩ := h.slash hs
    refine ⟨e, hschema.trans he, ?_⟩
    rw [List.getElem?_append_left (List.getElem?_eq_some_iff.mp hat).1]
    exact hat

theorem Early.beginPath (h : Early seen s r) (r' : RequestLine)
    (hfields : r'.uriFields = r.uriFields)
    (hpath : r'.emptyPathInUri = r.emptyPathInUri) :
    Kept (seen ++ [byte '/'])
      (goOn .afterSlashInUri { r' with uriStart := some seen.length }) := by
  refine LineInv.path (show UriScan.afterSlashInUri ≠ .start by decide) rfl
    (by simp) (hpath.trans h.path) ?_
  have hnew : r'.uriFields = .new := hfields.trans h.fields
  rw [List.drop_left]
  change some (UriScan.afterSlashInUri, UriFields.new) = some (_, r'.uriFields)
  rw [hnew]

/-- The question mark behind a host. -/
theorem Early.beginQuery (h : Early seen s r)
    (hfields : r'.uriFields = r.uriFields) :
    Kept (seen ++ [byte '?']) (goOn .uri (emptyPath seen.length r')) := by
  refine LineInv.query (q := []) rfl rfl (by simp) (by simp) ?_
  have hnew : r'.uriFields = .new := hfields.trans h.fields
  change { r'.uriFields with argsStart := some (seen.length + 1) } = _
  rw [hnew]
  rfl

/-- The space behind a host: the path is the slash behind the schema. -/
theorem Early.noPath (h : Early seen s r) (hs : s.behindSchema = true)
    (hfields : r'.uriFields = r.uriFields)
    (hpath : r'.emptyPathInUri = r.emptyPathInUri)
    (hschema : r'.schemaEnd = r.schemaEnd) :
    Kept (seen ++ [ch]) (goOn .http09 (slashUri r')) := by
  obtain ⟨e, he, hat⟩ := h.slash hs
  obtain ⟨hlt, hget⟩ := List.getElem?_eq_some_iff.mp hat
  have hraw : ((seen ++ [ch]).take (e + 2)).drop (e + 1) = [byte '/'] := by
    rw [List.take_append_of_le_length hlt, List.take_succ_eq_append_getElem hlt,
      hget]
    apply List.drop_left'
    rw [List.length_take]
    omega
  refine LineInv.late rfl (b := e + 1) (e := e + 2) ⟨?_, ?_, by omega, ?_, ?_⟩
  · simp [slashUri, hschema, he]
  · simp [slashUri, hschema, he]
  · simp only [List.length_append]
    omega
  · have hnew : (slashUri r').uriFields = .new := hfields.trans h.fields
    have hnone : (slashUri r').emptyPathInUri = false := hpath.trans h.path
    rw [hraw, hnew, hnone]
    exact .path (by simp) rfl

theorem Early.stepHostEnd (h : Early seen s r) (hs : s.behindSchema = true)
    (hsame : SameUri r r') (hschema : r'.schemaEnd = r.schemaEnd) :
    Kept (seen ++ [ch]) (stepHostEnd seen.length ch r') := by
  unfold Http.stepHostEnd
  by_cases hcolon : ch = byte ':'
  · rw [if_pos hcolon]
    refine h.host hs rfl (by decide) ?_ hschema
    exact ⟨hsame.uriStart, hsame.uriEnd, hsame.path, hsame.fields⟩
  rw [if_neg hcolon]
  by_cases hslash : ch = byte '/'
  · rw [if_pos hslash, hslash]
    exact h.beginPath { r' with hostEnd := some seen.length } hsame.fields
      hsame.path
  rw [if_neg hslash]
  by_cases hquery : ch = byte '?'
  · rw [if_pos hquery, hquery]
    exact h.beginQuery hsame.fields
  rw [if_neg hquery]
  by_cases hspace : ch = byte ' '
  · rw [if_pos hspace]
    exact h.noPath hs hsame.fields hsame.path hschema
  rw [if_neg hspace]
  exact Kept.reject (by decide)

theorem Early.stepHost (h : Early seen s r) (hs : s.behindSchema = true)
    (hsame : SameUri r r') (hschema : r'.schemaEnd = r.schemaEnd) :
    Kept (seen ++ [ch]) (stepHost seen.length ch r') := by
  have hhost : Kept (seen ++ [ch]) (goOn .host r') :=
    h.host hs rfl (by decide) hsame hschema
  apply Verdict.all_ite
  · exact hhost
  apply Verdict.all_ite
  · exact hhost
  · exact h.stepHostEnd hs hsame hschema

theorem Early.stepPort (h : Early seen s r) (hs : s.behindSchema = true) :
    Kept (seen ++ [ch]) (stepPort seen.length ch r) := by
  unfold Http.stepPort
  by_cases hdigit : isDigit ch = true
  · rw [if_pos hdigit]
    exact h.host hs rfl (by decide) ⟨rfl, rfl, rfl, rfl⟩ rfl
  rw [if_neg hdigit]
  by_cases hslash : ch = byte '/'
  · rw [if_pos hslash, hslash]
    exact h.beginPath { r with portEnd := some seen.length } rfl rfl
  rw [if_neg hslash]
  by_cases hquery : ch = byte '?'
  · rw [if_pos hquery, hquery]
    exact h.beginQuery rfl
  rw [if_neg hquery]
  by_cases hspace : ch = byte ' '
  · rw [if_pos hspace]
    exact h.noPath hs rfl rfl rfl
  rw [if_neg hspace]
  exact Kept.reject (by decide)

theorem Early.step (h : Early seen s r) :
    Kept (seen ++ [ch]) (stepLine seen ch (s, r)) := by
  have hsame : SameUri r r := ⟨rfl, rfl, rfl, rfl⟩
  have hs := h.state
  cases s with
  | start =>
      apply Verdict.all_ite
      · exact h.front rfl (by decide) rfl ⟨rfl, rfl, rfl, rfl⟩
      apply Verdict.all_ite
      · exact h.front rfl (by decide) rfl ⟨rfl, rfl, rfl, rfl⟩
      · exact Kept.reject (by decide)
  | method =>
      apply Verdict.all_ite
      · exact h.front rfl (by decide) rfl ⟨rfl, rfl, rfl, rfl⟩
      apply Verdict.all_ite
      · exact h.front rfl (by decide) rfl hsame
      · exact Kept.reject (by decide)
  | spacesBeforeUri =>
      by_cases hslash : ch = byte '/'
      · subst hslash
        exact h.beginPath r rfl rfl
      rw [stepLine, if_neg hslash]
      apply Verdict.all_ite
      · exact h.front rfl (by decide) rfl ⟨rfl, rfl, rfl, rfl⟩
      apply Verdict.all_ite
      · exact h.front rfl (by decide) rfl hsame
      · exact Kept.reject (by decide)
  | schema =>
      apply Verdict.all_ite
      · exact h.front rfl (by decide) rfl hsame
      apply Verdict.all_ite
      · exact h.front rfl (by decide) rfl hsame
      apply Verdict.all_ite
      · refine LineInv.early ⟨rfl, h.fields, h.path, ?_, nofun⟩
        intro _
        simp
      · exact Kept.reject (by decide)
  | schemaSlash =>
      by_cases hslash : ch = byte '/'
      · subst hslash
        refine LineInv.early ⟨rfl, h.fields, h.path, nofun, ?_⟩
        intro _
        obtain ⟨e, he, hlen⟩ := Option.map_eq_some_iff.mp (h.schemaEnd rfl)
        refine ⟨e, he, ?_⟩
        rw [hlen]
        simp
      · rw [stepLine, expect, if_neg hslash]
        exact Kept.reject (by decide)
  | schemaSlashSlash =>
      apply Verdict.all_ite
      · exact h.host rfl rfl (by decide) hsame rfl
      · exact Kept.reject (by decide)
  | hostStart =>
      apply Verdict.all_ite
      · exact h.host rfl rfl (by decide) ⟨rfl, rfl, rfl, rfl⟩ rfl
      · exact h.stepHost rfl ⟨rfl, rfl, rfl, rfl⟩ rfl
  | host => exact h.stepHost rfl hsame rfl
  | hostEnd => exact h.stepHostEnd rfl hsame rfl
  | hostIpLiteral =>
      apply Verdict.all_ite
      · exact h.host rfl rfl (by decide) hsame rfl
      apply Verdict.all_ite
      · exact h.host rfl rfl (by decide) hsame rfl
      apply Verdict.all_ite
      · exact h.host rfl rfl (by decide) hsame rfl
      · exact Kept.reject (by decide)
  | port => exact h.stepPort rfl
  | _ => cases hs

end Early

theorem LineInv.step {seen : List UInt8} {x : LineState × RequestLine}
    (h : LineInv seen x) (ch : UInt8) :
    Kept (seen ++ [ch]) (stepLine seen ch x) := by
  cases h with
  | early h => exact h.step
  | path hσ hstart hb hpath hscan => exact Kept.path hσ hstart hb hpath hscan
  | query hstart hpath hb hq hfields =>
      exact Kept.query hstart hpath hb hq hfields
  | late hs h =>
      rename_i s r b e
      have hlate := stepLine_late seen ch r hs
      cases hstep : stepLine seen ch (s, r) with
      | more x =>
          rw [hstep] at hlate
          exact .late hlate.1 ((h.append [ch]).same hlate.2)
      | stop res =>
          rw [hstep] at hlate
          intro _
          exact ⟨b, e, (h.append [ch]).same hlate⟩

theorem lineInv_init : LineInv [] (.start, .new) :=
  .early ⟨rfl, rfl, rfl, by decide, by decide⟩

theorem parseRequestLine_ended {input : List UInt8} {r : RequestLine}
    (h : ngxHttpParseRequestLine input = some ⟨.ok, r⟩) :
    ∃ b e, Ended input r b e := by
  rw [ngxHttpParseRequestLine] at h
  cases hscan : scanLine [] (.start, .new) input with
  | again s => rw [hscan] at h; cases h
  | stopped seen' res rest =>
      rw [hscan] at h
      obtain rfl : res = ⟨.ok, r⟩ := by simpa using h
      obtain ⟨before, x, s, hinv, hstop, rfl⟩ :=
        scan_stopped_invariant lineInv_init
          (fun seen ch s s' hinv hmore => by
            have hkept := hinv.step ch
            rwa [hmore] at hkept) hscan
      have hkept := hinv.step x
      rw [hstop] at hkept
      obtain ⟨b, e, hended⟩ := hkept rfl
      have hsplit := (scan_stopped_split hscan).1
      rw [List.nil_append] at hsplit
      rw [hsplit]
      exact ⟨b, e, hended.append rest⟩

/-! ## The URI of an accepted line -/

/-- Positions `b` further on. -/
def UriFields.shift (b : ℕ) (f : UriFields) : UriFields :=
  { f with
    argsStart := f.argsStart.map (· + b)
    uriExt := f.uriExt.map (· + b) }

theorem stepParseUri_shift (p b : ℕ) (ch : UInt8) (σ : UriScan)
    (f : UriFields) :
    stepParseUri (p + b) ch (σ, f.shift b) =
      (stepParseUri p ch (σ, f)).map (Prod.map id (UriFields.shift b)) := by
  have hpos : p + b + 1 = p + 1 + b := Nat.add_right_comm p b 1
  cases σ with
  | _ =>
      simp only [stepParseUri, hpos,
        apply_ite (Option.map (Prod.map id (UriFields.shift b)))]
      rfl

theorem scanParseUri_shift (p b : ℕ) (s : UriScan × UriFields)
    (raw : List UInt8) :
    scanParseUri (p + b) (s.1, s.2.shift b) raw =
      (scanParseUri p s raw).map (Prod.map id (UriFields.shift b)) := by
  induction raw generalizing p s with
  | nil => rfl
  | cons ch rest ih =>
      rw [scanParseUri, scanParseUri, stepParseUri_shift]
      cases stepParseUri p ch (s.1, s.2) with
      | none => rfl
      | some s' =>
          rw [Option.map_some, Option.bind_some, Option.bind_some,
            Nat.add_right_comm]
          exact ih (p + 1) s'

/-- A URI with the fields found about it. -/
def UriFields.request (raw : List UInt8) (emptyPath : Bool) (f : UriFields) :
    UriRequest where
  raw := raw
  argsStart := f.argsStart
  uriExt := f.uriExt
  complexUri := f.complexUri
  quotedUri := f.quotedUri
  emptyPathInUri := emptyPath
  plusInUri := f.plusInUri

inductive UriRequest.Accepted : UriRequest → Prop where
  | path {raw : List UInt8} {f : UriFields} (hne : raw ≠ [])
      (h : ngxHttpParseUri 0 raw = some f) :
      Accepted (f.request raw false)
  | query (q : List UInt8) :
      Accepted
        (UriFields.request (byte '?' :: q) true
          { UriFields.new with
            argsStart := some 1
            complexUri := decide (byte '#' ∈ q) })

def UriFields.relative (b : ℕ) (f : UriFields) : UriFields :=
  { f with
    argsStart := f.argsStart.map (· - b)
    uriExt := f.uriExt.map (· - b) }

theorem UriFields.relative_shift (b : ℕ) (f : UriFields) :
    (f.shift b).relative b = f := by
  have hsub (o : Option ℕ) : (o.map (· + b)).map (· - b) = o := by
    cases o with
    | none => rfl
    | some n => simp
  simp only [UriFields.shift, UriFields.relative, hsub]

theorem UriShape.accepted {b : ℕ} {raw : List UInt8} {emptyPath : Bool}
    {f : UriFields} (h : UriShape b raw emptyPath f) :
    ((f.relative b).request raw emptyPath).Accepted := by
  cases h with
  | query q =>
      have hfields := UriRequest.Accepted.query q
      simpa [UriFields.relative, UriFields.new] using hfields
  | path hne hscan =>
      refine .path hne ?_
      have hshift := scanParseUri_shift 0 b (.start, .new) raw
      rw [Nat.zero_add] at hshift
      obtain ⟨s, hs, hmap⟩ := Option.map_eq_some_iff.mp (hshift.symm.trans hscan)
      rw [ngxHttpParseUri, hs, Option.map_some]
      obtain ⟨-, rfl⟩ := Prod.mk.inj hmap
      rw [UriFields.relative_shift]

/-- The URI of an accepted request line is a path that `ngx_http_parse_uri`
accepts with the same fields, or a query behind a host. -/
theorem parseRequestLine_uriRequest {input : List UInt8} {r : RequestLine}
    (h : ngxHttpParseRequestLine input = some ⟨.ok, r⟩) :
    ∃ u, r.uriRequest input = some u ∧ u.Accepted := by
  obtain ⟨b, e, hended⟩ := parseRequestLine_ended h
  refine ⟨_, ?_, hended.shape.accepted⟩
  rw [RequestLine.uriRequest, hended.uriStart, hended.uriEnd]
  rfl

/-! ## Where the path ends -/

def pathPart (raw : List UInt8) : List UInt8 :=
  raw.takeWhile fun ch => ch ≠ byte '?' && ch ≠ byte '#'

theorem pathPart_cons {ch : UInt8} (rest : List UInt8) (hq : ch ≠ byte '?')
    (hh : ch ≠ byte '#') : pathPart (ch :: rest) = ch :: pathPart rest := by
  simp [pathPart, hq, hh]

@[simp] theorem pathPart_question (rest : List UInt8) :
    pathPart (byte '?' :: rest) = [] := rfl

@[simp] theorem pathPart_hash (rest : List UInt8) :
    pathPart (byte '#' :: rest) = [] := rfl

/-- Behind the path the fields stay as they are, apart from `complex_uri`. -/
theorem scanParseUri_uri {p : ℕ} {f : UriFields} {rest : List UInt8}
    {s : UriScan × UriFields} (h : scanParseUri p (.uri, f) rest = some s) :
    s = (.uri,
      { f with complexUri := f.complexUri || decide (byte '#' ∈ rest) }) := by
  induction rest generalizing p f with
  | nil => simpa [scanParseUri] using h.symm
  | cons ch rest ih =>
      rw [scanParseUri] at h
      obtain hstep | hstep := stepParseUri_uri p ch f
      · rw [hstep] at h
        cases h
      · rw [hstep, Option.bind_some] at h
        rw [ih h]
        simp [eq_comm, Bool.or_assoc]

/-- Only a `?` sets `args_start`, and the path ends there. -/
theorem stepParseUri_argsStart {p : ℕ} {f : UriFields} {ch : UInt8}
    {σ : UriScan} {s : UriScan × UriFields}
    (h : stepParseUri p ch (σ, f) = some s) :
    s.2.argsStart = f.argsStart ∨
      s.1 = .uri ∧ ch = byte '?' ∧ s.2.argsStart = some (p + 1) := by
  cases σ with
  | _ =>
      simp only [stepParseUri] at h
      repeat' split at h
      all_goals cases h
      all_goals first
        | exact .inl rfl
        | exact .inr ⟨rfl, ‹_›, rfl⟩

theorem stepParseUri_delimiter {p : ℕ} {f : UriFields} {ch : UInt8}
    {σ : UriScan} {s : UriScan × UriFields}
    (hch : ch = byte '?' ∨ ch = byte '#')
    (h : stepParseUri p ch (σ, f) = some s) : s.1 = .uri := by
  obtain rfl | rfl := hch
  · cases σ with
    | start => cases h
    | _ => cases h; rfl
  · cases σ with
    | start => cases h
    | _ => cases h; rfl

/-- `args_start` stands behind the `?` that ends the path. -/
theorem scanParseUri_argsStart {p : ℕ} {f : UriFields} {σ : UriScan}
    {rest : List UInt8} {s : UriScan × UriFields} (hf : f.argsStart = none)
    (h : scanParseUri p (σ, f) rest = some s) :
    s.2.argsStart = none ∨
      s.2.argsStart = some (p + (pathPart rest).length + 1) := by
  induction rest generalizing p f σ with
  | nil =>
      cases h
      exact .inl hf
  | cons ch rest ih =>
      rw [scanParseUri] at h
      obtain ⟨⟨σ₁, f₁⟩, hstep, hrest⟩ := Option.bind_eq_some_iff.mp h
      obtain hsame | ⟨hσ₁, rfl, hsome⟩ := stepParseUri_argsStart hstep
      · have hnone : f₁.argsStart = none := hsame.trans hf
        by_cases hσ₁ : σ₁ = .uri
        · subst hσ₁
          rw [scanParseUri_uri hrest]
          exact .inl hnone
        · have hch : ¬(ch = byte '?' ∨ ch = byte '#') :=
            fun hch => hσ₁ (stepParseUri_delimiter hch hstep)
          rw [not_or] at hch
          rw [pathPart_cons rest hch.1 hch.2, List.length_cons,
            Nat.add_comm (pathPart rest).length, ← Nat.add_assoc]
          exact ih hnone hrest
      · obtain rfl : σ₁ = .uri := hσ₁
        rw [scanParseUri_uri hrest]
        exact .inr hsome

/-- The length of the path that is taken for a buffer is enough for the path. -/
theorem pathPart_le_pathLen (passed : List UInt8) {rest : List UInt8} {f : UriFields}
    {σ : UriScan} {s : UriScan × UriFields} (hf : f.argsStart = none)
    (h : scanParseUri passed.length (σ, f) rest = some s) :
    passed.length + (pathPart rest).length ≤
      (s.2.request (passed ++ rest) false).pathLen := by
  have hargs : (s.2.request (passed ++ rest) false).argsStart = s.2.argsStart := rfl
  have hraw : (s.2.request (passed ++ rest) false).raw = passed ++ rest := rfl
  rw [UriRequest.pathLen, hargs, hraw]
  obtain hnone | hsome := scanParseUri_argsStart hf h
  · have hle : (pathPart rest).length ≤ rest.length :=
      (List.takeWhile_sublist _).length_le
    rw [hnone, List.length_append]
    exact Nat.add_le_add_left hle _
  · rw [hsome]
    exact Nat.le_refl _

end MultiversionBalancer.Http
