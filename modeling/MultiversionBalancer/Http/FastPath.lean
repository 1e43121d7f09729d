import MultiversionBalancer.Http.UriScan
import Mathlib.Data.List.TakeWhile

/-!
# The URI that is used as it is

`ngx_http_process_request_uri` reuses the bytes of a URI for which none of
`complex_uri`, `quoted_uri` and `empty_path_in_uri` is set.
`ngx_http_parse_complex_uri` makes the same of such a URI, and the request line
and `ngx_http_parse_uri` set the same fields.
-/

namespace MultiversionBalancer.Http

open Lib

/-! ## Paths without a complex part -/

/-- A step of `ngx_http_parse_uri` inside the path after which neither
`complex_uri` nor `quoted_uri` is set. -/
inductive PlainStep (p : ℕ) (f : UriFields) :
    UInt8 → UriScan → UriScan × UriFields → Prop where
  | plain {ch : UInt8} {σ σ' : UriScan} (hch : Plain ch) (hσ : σ ≠ .uri)
      (hσ' : σ' = σ ∨ σ' = .checkUri) (plus : Bool) :
      PlainStep p f ch σ (σ', { f with plusInUri := plus })
  | slash :
      PlainStep p f (byte '/') .checkUri (.afterSlashInUri, { f with uriExt := none })
  | dot :
      PlainStep p f (byte '.') .checkUri
        (.checkUri, { f with uriExt := some (p + 1) })
  | question {σ : UriScan} (hσ : σ ≠ .uri) :
      PlainStep p f (byte '?') σ (.uri, { f with argsStart := some (p + 1) })

theorem stepParseUri_plain {p : ℕ} {f : UriFields} {ch : UInt8} {σ : UriScan}
    {s : UriScan × UriFields} (hσ : σ ≠ .start) (hσu : σ ≠ .uri)
    (hch : Plain ch) (h : stepParseUri p ch (σ, f) = some s) :
    ∃ σ' plus, (σ' = σ ∨ σ' = .checkUri) ∧
      s = (σ', { f with plusInUri := plus }) := by
  have hsame : f = { f with plusInUri := f.plusInUri } := rfl
  have hgo {σ' : UriScan} {plus : Bool} (hσ' : σ' = σ ∨ σ' = .checkUri)
      (hs : some (σ', { f with plusInUri := plus }) = some s) :
      ∃ σ' plus, (σ' = σ ∨ σ' = .checkUri) ∧
        s = (σ', { f with plusInUri := plus }) :=
    ⟨σ', plus, hσ', (Option.some.inj hs).symm⟩
  cases σ with
  | start => exact absurd rfl hσ
  | uri => exact absurd rfl hσu
  | afterSlashInUri =>
      simp only [stepParseUri, if_neg hch.slash, if_neg hch.dot,
        if_neg hch.percent, if_neg hch.hash, if_neg hch.question] at h
      split at h
      · exact hgo (.inr rfl) h
      split at h
      · exact hgo (.inl rfl) h
      split at h
      · cases h
      · exact hgo (.inr rfl) h
  | checkUri =>
      simp only [stepParseUri, if_neg hch.slash, if_neg hch.dot,
        if_neg hch.percent, if_neg hch.hash, if_neg hch.question] at h
      split at h
      · exact hgo (.inl rfl) h
      split at h
      · exact hgo (.inl rfl) h
      split at h
      · cases h
      · exact hgo (.inl rfl) h

theorem plainStep_of_stepParseUri {p : ℕ} {f : UriFields} {ch : UInt8}
    {σ : UriScan} {s : UriScan × UriFields} (hσ : σ ≠ .start) (hσu : σ ≠ .uri)
    (h : stepParseUri p ch (σ, f) = some s) (hcomplex : s.2.complexUri = false)
    (hquoted : s.2.quotedUri = false) : PlainStep p f ch σ s := by
  by_cases hslash : ch = byte '/'
  · subst hslash
    cases σ with
    | start => exact absurd rfl hσ
    | uri => exact absurd rfl hσu
    | afterSlashInUri => cases h; cases hcomplex
    | checkUri => cases h; exact .slash
  by_cases hdot : ch = byte '.'
  · subst hdot
    cases σ with
    | start => exact absurd rfl hσ
    | uri => exact absurd rfl hσu
    | afterSlashInUri => cases h; cases hcomplex
    | checkUri => cases h; exact .dot
  by_cases hpercent : ch = byte '%'
  · subst hpercent
    cases σ with
    | start => exact absurd rfl hσ
    | uri => exact absurd rfl hσu
    | _ => cases h; cases hquoted
  by_cases hhash : ch = byte '#'
  · subst hhash
    cases σ with
    | start => exact absurd rfl hσ
    | uri => exact absurd rfl hσu
    | _ => cases h; cases hcomplex
  by_cases hquestion : ch = byte '?'
  · subst hquestion
    cases σ with
    | start => exact absurd rfl hσ
    | uri => exact absurd rfl hσu
    | _ => cases h; exact .question (by decide)
  have hch : Plain ch := ⟨hslash, hdot, hpercent, hquestion, hhash⟩
  obtain ⟨σ', plus, hσ', rfl⟩ := stepParseUri_plain hσ hσu hch h
  exact .plain hch hσu hσ' plus

theorem PlainStep.stays {p : ℕ} {f : UriFields} {ch : UInt8} {σ : UriScan}
    {s : UriScan × UriFields} (h : PlainStep p f ch σ s) (hσ : σ ≠ .start)
    (hch : ch ≠ byte '?') :
    ch ≠ byte '#' ∧ s.1 ≠ .start ∧ s.1 ≠ .uri ∧
      s.2.argsStart = f.argsStart := by
  cases h with
  | plain hplain hσu hσ' plus =>
      refine ⟨hplain.hash, ?_, ?_, rfl⟩
      · rintro rfl
        obtain h | h := hσ'
        · exact hσ h.symm
        · cases h
      · rintro rfl
        obtain h | h := hσ'
        · exact hσu h.symm
        · cases h
  | slash => exact ⟨by decide, nofun, nofun, rfl⟩
  | dot => exact ⟨by decide, nofun, nofun, rfl⟩
  | question => exact absurd rfl hch

theorem stepParseUri_flags {p : ℕ} {f : UriFields} {ch : UInt8} {σ : UriScan}
    {s : UriScan × UriFields} (h : stepParseUri p ch (σ, f) = some s) :
    (s.2.complexUri = false → f.complexUri = false) ∧
      (s.2.quotedUri = false → f.quotedUri = false) := by
  cases σ with
  | _ =>
      simp only [stepParseUri] at h
      repeat' split at h
      all_goals cases h
      all_goals first
        | exact ⟨id, id⟩
        | exact ⟨fun hset => Bool.noConfusion hset, id⟩
        | exact ⟨id, fun hset => Bool.noConfusion hset⟩

theorem scanParseUri_flags {p : ℕ} {s s' : UriScan × UriFields}
    {rest : List UInt8} (h : scanParseUri p s rest = some s') :
    (s'.2.complexUri = false → s.2.complexUri = false) ∧
      (s'.2.quotedUri = false → s.2.quotedUri = false) := by
  induction rest generalizing p s with
  | nil =>
      cases h
      exact ⟨id, id⟩
  | cons ch rest ih =>
      rw [scanParseUri] at h
      obtain ⟨s₁, hstep, hrest⟩ := Option.bind_eq_some_iff.mp h
      have hfirst := stepParseUri_flags hstep
      have hlast := ih hrest
      exact ⟨hfirst.1 ∘ hlast.1, hfirst.2 ∘ hlast.2⟩

/-- The two parsers side by side: the complex parser has written what
`ngx_http_parse_uri` has passed. -/
structure SideBySide (σ : UriScan) (f : UriFields) (passed : List UInt8)
    (l : ComplexUri) : Prop where
  out : l.out = passed
  uriExt : l.uriExt = f.uriExt
  state : l.state = .usual ∨ l.state = .slash ∧ σ = .afterSlashInUri

theorem SideBySide.inPath {σ : UriScan} {f : UriFields} {passed : List UInt8}
    {l : ComplexUri} (h : SideBySide σ f passed l) : l.state.inPath = true := by
  obtain hs | ⟨hs, -⟩ := h.state
  · rw [hs]
    rfl
  · rw [hs]
    rfl

theorem SideBySide.question {merge : Bool} {cap : ℕ} {σ : UriScan}
    {f : UriFields} {passed : List UInt8} {l : ComplexUri}
    (h : SideBySide σ f passed l) :
    stepPath merge cap (byte '?') l = .ok (.args l) := by
  rw [stepPath]
  obtain hs | ⟨hs, -⟩ := h.state
  · rw [hs]
    rfl
  · rw [hs]
    rfl

/-- A step of the two parsers that stays in the path. -/
theorem SideBySide.step (merge : Bool) {cap : ℕ} {f : UriFields} {ch : UInt8}
    {σ : UriScan} {passed : List UInt8} {s : UriScan × UriFields}
    {l : ComplexUri} (h : SideBySide σ f passed l)
    (hstep : PlainStep passed.length f ch σ s) (hch : ch ≠ byte '?')
    (hcap : passed.length < cap) :
    ∃ l', stepPath merge cap ch l = .ok (.next l') ∧
      SideBySide s.1 s.2 (passed ++ [ch]) l' := by
  have hroom : l.out.length < cap := by rwa [h.out]
  cases hstep with
  | plain hch hσ hσ' plus =>
      rw [stepPath_plain hch h.inPath, putPlus, putUsual, ComplexUri.put,
        if_pos hroom]
      refine ⟨_, rfl, ?_, h.uriExt, .inl rfl⟩
      simp only [h.out]
  | slash =>
      obtain hs | ⟨-, hσ⟩ := h.state
      · rw [stepPath_usual_slash hs hroom]
        refine ⟨_, rfl, ?_, rfl, .inr ⟨rfl, rfl⟩⟩
        simp only [h.out]
      · cases hσ
  | dot =>
      obtain hs | ⟨-, hσ⟩ := h.state
      · rw [stepPath_usual_dot hs hroom]
        refine ⟨_, rfl, ?_, ?_, .inl rfl⟩
        · simp only [h.out]
        · simp only [h.out]
      · cases hσ
  | question => exact absurd rfl hch

/-- What the complex parser makes of the rest of the URI. -/
theorem scanComplex_sideBySide (merge : Bool) {cap : ℕ} {σ : UriScan}
    {f : UriFields} (passed : List UInt8) {rest : List UInt8}
    {s : UriScan × UriFields} {l : ComplexUri} (hσ : σ ≠ .start) (hσu : σ ≠ .uri)
    (hf : f.argsStart = none)
    (hscan : scanParseUri passed.length (σ, f) rest = some s)
    (hcomplex : s.2.complexUri = false) (hquoted : s.2.quotedUri = false)
    (hcap : cap = (s.2.request (passed ++ rest) false).pathLen)
    (hl : SideBySide σ f passed l) :
    ∃ l' after, scanComplex merge cap rest l = .ok (l', after) ∧
      l'.out = (passed ++ rest).take cap ∧ l'.uriExt = s.2.uriExt ∧
      (after.getD []).takeWhile (· != byte '#') =
        (s.2.argsStart.map (passed ++ rest).drop).getD [] := by
  induction rest generalizing passed σ f l with
  | nil =>
      cases hscan
      have hlen : cap = passed.length := by
        rw [hcap, UriRequest.pathLen]
        simp [UriFields.request, hf]
      have hend : endComplex l = .ok l := by
        rw [endComplex]
        obtain hs | ⟨hs, -⟩ := hl.state
        · rw [hs]
        · rw [hs]
      refine ⟨l, none, ?_, ?_, hl.uriExt, ?_⟩
      · rw [scanComplex, hend]
        rfl
      · simp [hl.out, hlen]
      · simp [hf]
  | cons ch rest ih =>
      have hpath := pathPart_le_pathLen passed hf hscan
      rw [scanParseUri] at hscan
      obtain ⟨s₁, hstep, hrest⟩ := Option.bind_eq_some_iff.mp hscan
      have hflags := scanParseUri_flags hrest
      have hplain := plainStep_of_stepParseUri hσ hσu hstep (hflags.1 hcomplex)
        (hflags.2 hquoted)
      rw [scanComplex, stepComplex_inPath hl.inPath]
      by_cases hch : ch = byte '?'
      · subst hch
        rw [hl.question]
        refine ⟨l, some rest, rfl, ?_⟩
        cases hplain with
        | plain hplain => exact absurd rfl hplain.question
        | question _ =>
            have hs := scanParseUri_uri hrest
            have hhash : byte '#' ∉ rest := by
              intro hmem
              rw [hs] at hcomplex
              simp [hmem] at hcomplex
            have hlen : cap = passed.length := by
              rw [hcap, hs]
              rfl
            refine ⟨?_, ?_, ?_⟩
            · rw [hlen, List.take_left, hl.out]
            · rw [hs]
              exact hl.uriExt
            · have hdrop : (passed ++ byte '?' :: rest).drop (passed.length + 1) =
                  rest := by
                simp [List.drop_append]
              rw [hs, Option.map_some, Option.getD_some, Option.getD_some, hdrop,
                List.takeWhile_eq_self_iff]
              intro c hc
              rw [bne_iff_ne]
              rintro rfl
              exact hhash hc
      · obtain ⟨hhash, hstart, huri, hargs⟩ := hplain.stays hσ hch
        have hroom : passed.length < cap := by
          rw [pathPart_cons rest hch hhash, List.length_cons] at hpath
          omega
        obtain ⟨l', hnext, hl'⟩ := hl.step merge hplain hch hroom
        have happend : passed ++ ch :: rest = (passed ++ [ch]) ++ rest := by simp
        rw [hnext, happend]
        rw [happend] at hcap
        refine ih _ hstart huri (hargs.trans hf) ?_ hcap hl'
        simpa using hrest

/-- A path without a complex part: the complex parser makes of it what
`ngx_http_process_request_uri` makes of it without that parser. -/
theorem complex_eq_shortcut {merge : Bool} {raw : List UInt8} {f : UriFields}
    (h : ngxHttpParseUri 0 raw = some f) (hcomplex : f.complexUri = false)
    (hquoted : f.quotedUri = false) :
    (f.request raw false).complex merge (f.request raw false).capacity =
      .ok (f.request raw false).shortcut := by
  obtain ⟨s, hscan, rfl⟩ := Option.map_eq_some_iff.mp h
  cases raw with
  | nil =>
      cases hscan
      rfl
  | cons ch rest =>
      rw [scanParseUri] at hscan
      obtain ⟨s₁, hstep, hrest⟩ := Option.bind_eq_some_iff.mp hscan
      obtain rfl : ch = byte '/' := by
        by_contra hch
        rw [stepParseUri, if_neg hch] at hstep
        cases hstep
      cases hstep
      have hpath : 1 + (pathPart rest).length ≤
          (s.2.request (byte '/' :: rest) false).pathLen :=
        pathPart_le_pathLen [byte '/'] rfl hrest
      generalize hu : s.2.request (byte '/' :: rest) false = u at hpath ⊢
      have hempty : u.emptyPathInUri = false := by
        rw [← hu]
        rfl
      have hraw : u.raw = byte '/' :: rest := by
        rw [← hu]
        rfl
      have hcap : u.capacity = u.pathLen := by
        rw [UriRequest.capacity, hempty]
        rfl
      obtain ⟨l, after, hl, hout, hext, hargs⟩ :=
        scanComplex_sideBySide merge [byte '/']
          (l := { u.locals with state := .slash, out := [byte '/'] })
          (by decide) (by decide) rfl hrest hcomplex hquoted
          (congrArg UriRequest.pathLen hu.symm) ⟨rfl, rfl, .inr ⟨rfl, rfl⟩⟩
      rw [hcap, complex_of_slash hempty hraw (by omega), hl, Except.map,
        UriRequest.shortcut, ComplexUri.processed, hout, hext, hargs, hraw, ← hu]
      rfl

/-! ## The two parsers of a path -/

/-- The request line inside a URI, as far as `ngx_http_parse_uri` accepts it. -/
theorem scanLine_uri_again {seen uri : List UInt8} {r : RequestLine}
    {σ σ' : UriScan} {f : UriFields} (hσ : σ ≠ .start)
    (huri : ∀ ch ∈ uri, endsUri ch = false)
    (h : scanParseUri seen.length (σ, r.uriFields) uri = some (σ', f)) :
    scanLine seen (σ.toLine, r) uri = .again (σ'.toLine, r.withUriFields f) ∧
      σ' ≠ .start := by
  induction uri generalizing seen σ r with
  | nil =>
      cases h
      exact ⟨rfl, hσ⟩
  | cons ch rest ih =>
      rw [scanParseUri] at h
      obtain ⟨⟨σ₁, f₁⟩, hstep, hrest⟩ := Option.bind_eq_some_iff.mp h
      have hline := stepLine_uri seen r hσ (huri ch (by simp))
      rw [hstep] at hline
      rw [scanLine, scan_cons_more _ hline]
      apply ih (scanParseUri_ne_start hstep)
      · exact fun c hc => huri c (by simp [hc])
      · simpa using hrest

/-- The request line stops at a byte that `ngx_http_parse_uri` rejects. -/
theorem scanLine_uri_stopped {seen uri : List UInt8} {r : RequestLine}
    {σ : UriScan} (hσ : σ ≠ .start) (huri : ∀ ch ∈ uri, endsUri ch = false)
    (h : scanParseUri seen.length (σ, r.uriFields) uri = none) :
    ∃ seen' r' rest,
      scanLine seen (σ.toLine, r) uri =
        .stopped seen' ⟨.invalidRequest, r'⟩ rest := by
  induction uri generalizing seen σ r with
  | nil => cases h
  | cons ch rest ih =>
      have hline := stepLine_uri seen r hσ (huri ch (by simp))
      rw [scanParseUri] at h
      cases hstep : stepParseUri seen.length ch (σ, r.uriFields) with
      | none =>
          rw [hstep] at hline
          exact ⟨_, _, _, scan_cons_stop _ hline⟩
      | some s =>
          obtain ⟨σ₁, f₁⟩ := s
          rw [hstep, Option.bind_some] at h
          rw [hstep] at hline
          rw [scanLine, scan_cons_more _ hline]
          apply ih (scanParseUri_ne_start hstep)
          · exact fun c hc => huri c (by simp [hc])
          · simpa using h

theorem scanLine_version {σ : UriScan} (hσ : σ ≠ .start) (seen : List UInt8)
    (r : RequestLine) :
    ∃ seen' r', scanLine seen (σ.toLine, r) (bytes " HTTP/1.1\r\n") =
      .stopped seen' ⟨.ok, r'⟩ [] := by
  cases σ with
  | start => exact absurd rfl hσ
  | _ => exact ⟨_, _, rfl⟩

/-- Behind the URI a scan keeps the fields about it. -/
theorem scanLine_late {seen seen' input rest : List UInt8} {s : LineState}
    {r : RequestLine} {res : LineResult} (hs : s.late = true)
    (h : scanLine seen (s, r) input = .stopped seen' res rest) :
    SameUri r res.line := by
  have hkept (seen : List UInt8) (ch : UInt8) (x : LineState × RequestLine)
      (hx : x.1.late = true ∧ SameUri r x.2) :
      (stepLine seen ch x).All (fun x => x.1.late = true ∧ SameUri r x.2)
        fun res => SameUri r res.line := by
    have hlate := stepLine_late seen ch x.2 hx.1
    cases hstep : stepLine seen ch x with
    | more x' =>
        rw [hstep] at hlate
        exact ⟨hlate.1, hx.2.trans hlate.2⟩
    | stop res =>
        rw [hstep] at hlate
        exact hx.2.trans hlate
  have hinit : (fun (_ : List UInt8) (x : LineState × RequestLine) =>
      x.1.late = true ∧ SameUri r x.2) seen (s, r) :=
    ⟨hs, rfl, rfl, rfl, rfl⟩
  obtain ⟨before, ch, x, hx, hstop, -⟩ :=
    scan_stopped_invariant hinit
      (fun seen ch x x' hx hmore => by
        have hstep := hkept seen ch x hx
        rwa [hmore] at hstep) h
  have hstep := hkept before ch x hx
  rwa [hstop] at hstep

/-- The byte that ends the URI fixes the fields about it. -/
theorem scanLine_endsUri {seen seen' after rest : List UInt8} {ch : UInt8}
    {σ : UriScan} {r : RequestLine} {res : LineResult} (hσ : σ ≠ .start)
    (hch : endsUri ch = true)
    (h : scanLine seen (σ.toLine, r) (ch :: after) = .stopped seen' res rest) :
    SameUri { r with uriEnd := some seen.length } res.line := by
  rw [scanLine] at h
  obtain hstep | hstep | hstep :=
    stepLine_endsUri seen r hσ hch
  · rw [scan_cons_more _ hstep] at h
    exact scanLine_late rfl h
  · rw [scan_cons_more _ hstep] at h
    have hsame : SameUri { r with uriEnd := some seen.length }
        (endUri09 seen.length r) := ⟨rfl, rfl, rfl, rfl⟩
    exact hsame.trans (scanLine_late rfl h)
  · rw [scan_cons_stop _ hstep] at h
    cases h
    exact ⟨rfl, rfl, rfl, rfl⟩

/-- `ngx_http_parse_uri` and the parser of the request line say the same of a
path behind `before`. -/
structure SamePath (before uri : List UInt8) : Prop where
  rejected : ngxHttpParseUri before.length uri = none →
    ∀ after, ∃ r,
      ngxHttpParseRequestLine (before ++ uri ++ after) =
        some ⟨.invalidRequest, r⟩
  accepted : (ngxHttpParseUri before.length uri).isSome →
    ∃ r,
      ngxHttpParseRequestLine (before ++ uri ++ bytes " HTTP/1.1\r\n") =
        some ⟨.ok, r⟩
  fields : ∀ f, ngxHttpParseUri before.length uri = some f →
    ∀ ch after res, endsUri ch = true →
      ngxHttpParseRequestLine (before ++ uri ++ ch :: after) = some res →
      res.line.uriStart = some before.length ∧
        res.line.uriEnd = some (before.length + uri.length) ∧
        res.line.uriFields = f

theorem fields_beforeUri {before : List UInt8} {r : RequestLine}
    (h : scanLine [] (.start, .new) before = .again (.spacesBeforeUri, r)) :
    r.uriFields = .new := by
  have hinv : LineInv ([] ++ before) (.spacesBeforeUri, r) :=
    scan_again_invariant lineInv_init
      (fun seen ch s s' hinv hmore => by
        have hkept := hinv.step ch
        rwa [hmore] at hkept) h
  generalize hx : (LineState.spacesBeforeUri, r) = x at hinv
  cases hinv with
  | early h =>
      cases hx
      exact h.fields
  | path hσ =>
      rename_i σ _ _ _ _ _ _
      cases σ with
      | start => exact absurd rfl hσ
      | _ => cases hx
  | query => cases hx
  | late hs =>
      cases hx
      cases hs

def RequestLine.beginUri (p : ℕ) (r : RequestLine) : RequestLine :=
  { r with uriStart := some p }

section SamePath

variable {before rest : List UInt8} {r : RequestLine}

/-- The request line behind the slash that begins its URI. -/
theorem scanLine_afterSlash
    (hbefore : scanLine [] (.start, .new) before = .again (.spacesBeforeUri, r))
    (after : List UInt8) :
    scanLine [] (.start, .new) (before ++ byte '/' :: rest ++ after) =
      scanLine (before ++ [byte '/'])
        (.afterSlashInUri, r.beginUri before.length) (rest ++ after) := by
  rw [List.append_assoc, scanLine, scan_append_again _ hbefore, List.nil_append,
    List.cons_append]
  exact scan_cons_more _ rfl

theorem scanParseUri_afterSlash
    (hbefore : scanLine [] (.start, .new) before = .again (.spacesBeforeUri, r)) :
    scanParseUri before.length (.start, .new) (byte '/' :: rest) =
      scanParseUri (before ++ [byte '/']).length
        (.afterSlashInUri, (r.beginUri before.length).uriFields) rest := by
  have hnew : (r.beginUri before.length).uriFields = .new :=
    (fields_beforeUri hbefore : r.uriFields = .new)
  rw [hnew, List.length_append]
  rfl

/-- The request line behind a URI that `ngx_http_parse_uri` accepts. -/
theorem scanLine_afterUri {σ : UriScan} {f : UriFields}
    (hbefore : scanLine [] (.start, .new) before = .again (.spacesBeforeUri, r))
    (huri : ∀ ch ∈ rest, endsUri ch = false)
    (h : scanParseUri before.length (.start, .new) (byte '/' :: rest) =
      some (σ, f)) (after : List UInt8) :
    σ ≠ .start ∧
      scanLine [] (.start, .new) (before ++ byte '/' :: rest ++ after) =
        scanLine (before ++ byte '/' :: rest)
          (σ.toLine, (r.beginUri before.length).withUriFields f) after := by
  rw [scanParseUri_afterSlash hbefore] at h
  obtain ⟨hagain, hσ⟩ :=
    scanLine_uri_again (show UriScan.afterSlashInUri ≠ .start by decide) huri h
  refine ⟨hσ, ?_⟩
  rw [scanLine_afterSlash hbefore, scanLine]
  refine (scan_append_again after hagain).trans ?_
  rw [List.append_assoc]
  rfl

theorem samePath_of_beforeUri
    (hbefore : scanLine [] (.start, .new) before = .again (.spacesBeforeUri, r))
    (huri : ∀ ch ∈ rest, endsUri ch = false) :
    SamePath before (byte '/' :: rest) := by
  refine ⟨?_, ?_, ?_⟩
  · intro hnone after
    rw [ngxHttpParseUri, Option.map_eq_none_iff,
      scanParseUri_afterSlash hbefore] at hnone
    obtain ⟨seen', r', left, hstop⟩ :=
      scanLine_uri_stopped (show UriScan.afterSlashInUri ≠ .start by decide)
        huri hnone
    have hall := scan_append_stopped after hstop
    refine ⟨r', ?_⟩
    rw [ngxHttpParseRequestLine, scanLine_afterSlash hbefore, scanLine]
    change scan stepLine _ (LineState.afterSlashInUri, _) _ = _ at hall
    rw [hall]
  · intro hsome
    obtain ⟨f, hf⟩ := Option.isSome_iff_exists.mp hsome
    obtain ⟨⟨σ, f⟩, hscan, rfl⟩ := Option.map_eq_some_iff.mp hf
    obtain ⟨hσ, hline⟩ := scanLine_afterUri hbefore huri hscan
      (bytes " HTTP/1.1\r\n")
    obtain ⟨seen', r', hversion⟩ := scanLine_version hσ
      (before ++ byte '/' :: rest) ((r.beginUri before.length).withUriFields f)
    refine ⟨r', ?_⟩
    rw [ngxHttpParseRequestLine, hline, hversion]
  · intro f hf ch after res hch hres
    obtain ⟨⟨σ, f⟩, hscan, rfl⟩ := Option.map_eq_some_iff.mp hf
    obtain ⟨hσ, hline⟩ := scanLine_afterUri hbefore huri hscan (ch :: after)
    rw [ngxHttpParseRequestLine, hline] at hres
    cases hend : scanLine (before ++ byte '/' :: rest)
        (σ.toLine, (r.beginUri before.length).withUriFields f) (ch :: after) with
    | again s =>
        rw [hend] at hres
        cases hres
    | stopped seen' res' left =>
        rw [hend] at hres
        cases hres
        have hsame := scanLine_endsUri hσ hch hend
        refine ⟨hsame.uriStart, ?_, hsame.fields⟩
        rw [hsame.uriEnd, List.length_append]

end SamePath

theorem uriRequest_flags {input : List UInt8} {r : RequestLine}
    {u : UriRequest} (h : r.uriRequest input = some u) :
    u.complexUri = r.complexUri ∧ u.quotedUri = r.quotedUri ∧
      u.emptyPathInUri = r.emptyPathInUri := by
  rw [RequestLine.uriRequest] at h
  split at h
  · cases h
    exact ⟨rfl, rfl, rfl⟩
  · cases h

/-- The URIs whose bytes are used as they are go through the complex parser
unchanged, those of a request line and those of a path that
`ngx_http_parse_uri` accepts; and both parsers of a path say the same of it. -/
theorem fast_uri_agrees :
    (∀ input r, ngxHttpParseRequestLine input = some ⟨.ok, r⟩ →
      r.complexUri = false → r.quotedUri = false → r.emptyPathInUri = false →
      ∃ u, r.uriRequest input = some u ∧
        ∀ merge,
          ngxHttpProcessRequestUri merge u = .ok u.shortcut ∧
            u.complex merge u.capacity = .ok u.shortcut) ∧
    (∀ raw f, ngxHttpParseUri 0 raw = some f → f.complexUri = false →
      f.quotedUri = false →
      ∀ merge,
        ngxHttpProcessRequestUri merge (f.request raw false) =
            .ok (f.request raw false).shortcut ∧
          (f.request raw false).complex merge (f.request raw false).capacity =
            .ok (f.request raw false).shortcut) ∧
    ∀ before r uri,
      scanLine [] (.start, .new) before = .again (.spacesBeforeUri, r) →
      uri.head? = some (byte '/') → (∀ ch ∈ uri, endsUri ch = false) →
      SamePath before uri := by
  have hpath (raw : List UInt8) (f : UriFields)
      (h : ngxHttpParseUri 0 raw = some f) (hcomplex : f.complexUri = false)
      (hquoted : f.quotedUri = false) (merge : Bool) :
      ngxHttpProcessRequestUri merge (f.request raw false) =
          .ok (f.request raw false).shortcut ∧
        (f.request raw false).complex merge (f.request raw false).capacity =
          .ok (f.request raw false).shortcut := by
    refine ⟨?_, complex_eq_shortcut h hcomplex hquoted⟩
    have hflags : ((f.request raw false).complexUri ||
        (f.request raw false).quotedUri ||
        (f.request raw false).emptyPathInUri) = false := by
      simp [UriFields.request, hcomplex, hquoted]
    rw [ngxHttpProcessRequestUri, hflags]
    rfl
  refine ⟨?_, hpath, ?_⟩
  · intro input r h hcomplex hquoted hempty
    obtain ⟨u, hu, haccepted⟩ := parseRequestLine_uriRequest h
    refine ⟨u, hu, ?_⟩
    obtain ⟨hc, hq, he⟩ := uriRequest_flags hu
    cases haccepted with
    | path _ hparse =>
        exact hpath _ _ hparse (hc.trans hcomplex) (hq.trans hquoted)
    | query q => cases he.trans hempty
  · intro before r uri hbefore hslash huri
    cases uri with
    | nil => cases hslash
    | cons ch rest =>
        obtain rfl : ch = byte '/' := by simpa using hslash
        exact samePath_of_beforeUri hbefore fun c hc => huri c (by simp [hc])

/-- A request for `/a.b?c`. -/
theorem getLine_fast_uri_agrees :
    (∃ r u, ngxHttpParseRequestLine (bytes "GET /a.b?c HTTP/1.1\r\n") =
        some ⟨.ok, r⟩ ∧
      r.uriRequest (bytes "GET /a.b?c HTTP/1.1\r\n") = some u ∧
      u.complex true u.capacity = .ok u.shortcut ∧
      u.shortcut = ⟨bytes "/a.b", bytes "c", bytes "b"⟩) ∧
    (∃ f, ngxHttpParseUri 0 (bytes "/a.b?c") = some f ∧
      (f.request (bytes "/a.b?c") false).complex false
          (f.request (bytes "/a.b?c") false).capacity =
        .ok (f.request (bytes "/a.b?c") false).shortcut) ∧
    SamePath (bytes "GET ") (bytes "/a.b?c") := by
  obtain ⟨hline, hpath, hsame⟩ := fast_uri_agrees
  refine ⟨?_, ?_, ?_⟩
  · have hparse : (ngxHttpParseRequestLine
        (bytes "GET /a.b?c HTTP/1.1\r\n")).map (fun res =>
          (res.code, res.line.complexUri, res.line.quotedUri,
            res.line.emptyPathInUri,
            (res.line.uriRequest (bytes "GET /a.b?c HTTP/1.1\r\n")).map
              UriRequest.shortcut)) =
        some (.ok, false, false, false,
          some ⟨bytes "/a.b", bytes "c", bytes "b"⟩) := by
      decide +kernel
    obtain ⟨⟨code, r⟩, hres, hfields⟩ := Option.map_eq_some_iff.mp hparse
    simp only [Prod.mk.injEq] at hfields
    obtain ⟨rfl, hcomplex, hquoted, hempty, hshortcut⟩ := hfields
    obtain ⟨u, hu, hfast⟩ := hline _ r hres hcomplex hquoted hempty
    rw [hu] at hshortcut
    exact ⟨r, u, hres, hu, (hfast true).2, Option.some.inj hshortcut⟩
  · exact ⟨_, rfl, (hpath _ _ rfl rfl rfl false).2⟩
  · have hinside : (bytes "/a.b?c").all (fun ch => !endsUri ch) = true := by decide
    refine hsame _ _ _ rfl rfl (fun ch hch => ?_)
    simpa using List.all_eq_true.mp hinside ch hch

end MultiversionBalancer.Http
