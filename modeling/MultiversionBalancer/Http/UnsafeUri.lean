import MultiversionBalancer.Http.Path

/-!
# Internal URIs

`ngx_http_parse_unsafe_uri`, the check of a URI that an upstream or a script
names, and `ngx_unescape_uri` of `ngx_string.c`.

The check looks for `..` behind every slash of the text, and where the text has
an escape again behind every slash of the decoded path.  The first look takes
the end of the text and a slash for the end of a segment, but not the `?` before
the arguments.
-/

namespace MultiversionBalancer.Http

open Lib

/-! ## Percent decoding -/

/-- The flags `NGX_UNESCAPE_URI` and `NGX_UNESCAPE_REDIRECT`. -/
structure UnescapeType where
  uri : Bool
  redirect : Bool

/-- The states of `ngx_unescape_uri`; the last one has the first digit and its
value. -/
inductive UnescapeState where
  | usual
  | quoted
  | second (digit decoded : UInt8)

/-- One iteration of `ngx_unescape_uri`: the bytes it writes and the next state;
`none` is the jump to `done`. -/
def stepUnescape (type : UnescapeType) (ch : UInt8) :
    UnescapeState → List UInt8 × Option UnescapeState
  | .usual =>
      if ch = byte '?' ∧ (type.uri || type.redirect) then ([ch], none)
      else if ch = byte '%' then ([], some .quoted)
      else ([ch], some .usual)
  | .quoted =>
      match hexDigit ch with
      | some d => ([], some (.second ch d))
      | none => ([ch], some .usual)
  | .second digit decoded =>
      match hexDigit ch with
      | none => ([], some .usual)
      | some d =>
          let c := (decoded <<< 4) + d
          let redirected :=
            if byte '%' < c ∧ c < 0x7f then ([c], some .usual)
            else ([byte '%', digit, ch], some .usual)
          if isDigit ch then
            if type.redirect then redirected else ([c], some .usual)
          else if type.uri then
            if c = byte '?' then ([c], none) else ([c], some .usual)
          else if type.redirect then
            if c = byte '?' then ([c], none) else redirected
          else ([c], some .usual)

/-- The loop of `ngx_unescape_uri`: what it writes, and the source it leaves. -/
def scanUnescape (type : UnescapeType) :
    UnescapeState → List UInt8 → List UInt8 × List UInt8
  | _, [] => ([], [])
  | state, ch :: src =>
      match stepUnescape type ch state with
      | (out, none) => (out, src)
      | (out, some state) =>
          let (dst, src) := scanUnescape type state src
          (out ++ dst, src)

def ngxUnescapeUri (type : UnescapeType) (src : List UInt8) :
    List UInt8 × List UInt8 :=
  scanUnescape type .usual src

/-! ## The check -/

/-- The look-ahead for `..` and the end of its segment. -/
def dotDotAhead : List UInt8 → Bool
  | a :: b :: rest =>
      a = byte '.' && b = byte '.' &&
        match rest with
        | [] => true
        | c :: _ => c = byte '/'
  | _ => false

/-- The first loop: the bytes before the `?`, the arguments behind it, and
whether an escape has been seen; `none` is the jump to `unsafe`. -/
def scanUnsafe : List UInt8 → Bool →
    Option (List UInt8 × Option (List UInt8) × Bool)
  | [], quoted => some ([], none, quoted)
  | ch :: rest, quoted =>
      if ch = byte '%' then
        (scanUnsafe rest true).map fun r => (ch :: r.1, r.2)
      else if usual ch then
        (scanUnsafe rest quoted).map fun r => (ch :: r.1, r.2)
      else if ch = byte '?' then some ([], some rest, quoted)
      else if ch = 0 then none
      else if ch = byte '/' ∧ dotDotAhead rest then none
      else (scanUnsafe rest quoted).map fun r => (ch :: r.1, r.2)

/-- The second loop, over the decoded path. -/
def scanDecoded : List UInt8 → Bool
  | [] => true
  | ch :: rest =>
      if ch = 0 then false
      else if ch = byte '/' ∧ dotDotAhead rest then false
      else scanDecoded rest

/-- The URI and the arguments that `ngx_http_parse_unsafe_uri` leaves; the
arguments are written only if there is a `?`. -/
structure InternalUri where
  uri : List UInt8
  args : Option (List UInt8)
  deriving DecidableEq

/-- `ngx_http_parse_unsafe_uri`; `alloc` tells whether the memory for the
decoded path is there, and `none` is `NGX_ERROR`. -/
def ngxHttpParseUnsafeUri (alloc : Bool) (uri : List UInt8) :
    Option InternalUri :=
  if uri = [] ∨ uri.head? = some (byte '?') then none
  else if dotDotAhead uri then none
  else
    match scanUnsafe uri false with
    | none => none
    | some (path, args, false) => some { uri := path, args := args }
    | some (path, args, true) =>
        if alloc then
          let decoded := (ngxUnescapeUri ⟨false, false⟩ path).1
          if dotDotAhead decoded then none
          else if scanDecoded decoded then some { uri := decoded, args := args }
          else none
        else none

/-! ## Segments -/

/-- The path before the first `?`. -/
def beforeArgs (uri : List UInt8) : List UInt8 :=
  uri.takeWhile (· != byte '?')

/-- The arguments behind the first `?`. -/
def afterArgs (uri : List UInt8) : List UInt8 :=
  (uri.dropWhile (· != byte '?')).tail

/-- No NUL byte and no segment `..`. -/
def SafeUri (uri : List UInt8) : Prop :=
  0 ∉ uri ∧ bytes ".." ∉ uri.splitOn (byte '/')

theorem splitOn_head? (a : UInt8) (l : List UInt8) :
    (l.splitOn a).head? = some (l.takeWhile (· != a)) := by
  induction l with
  | nil => rfl
  | cons c l ih =>
      rw [List.splitOn_cons_eq_if_modifyHead]
      split
      · next hc =>
          rw [List.takeWhile_cons_of_neg (by simpa using hc)]
          rfl
      · next hc =>
          rw [List.takeWhile_cons_of_pos (by simpa using hc),
            List.head?_modifyHead, ih]
          rfl

/-- The look-ahead finds a first segment `..`. -/
theorem dotDotAhead_iff {l : List UInt8} :
    dotDotAhead l = true ↔ (l.splitOn (byte '/')).head? = some (bytes "..") := by
  rw [splitOn_head?, Option.some_inj]
  have hdots : bytes ".." = [byte '.', byte '.'] := rfl
  have hdot : (byte '.' != byte '/') = true := rfl
  -- a first segment begins with a byte other than the slash
  have hcons : ∀ (a : UInt8) (l m : List UInt8),
      (a :: l).takeWhile (· != byte '/') = byte '.' :: m ↔
        a = byte '.' ∧ l.takeWhile (· != byte '/') = m := by
    intro a l m
    rw [List.takeWhile_cons]
    by_cases ha : a = byte '.'
    · simp [ha, hdot]
    · simp only [ha, false_and, iff_false]
      split
      · exact fun h => ha (List.cons.inj h).1
      · exact nofun
  rw [hdots]
  rcases l with _ | ⟨a, _ | ⟨b, l⟩⟩
  · exact iff_of_false Bool.false_ne_true nofun
  · rw [hcons]
    exact iff_of_false Bool.false_ne_true fun h => nomatch h.2
  · rw [hcons, hcons]
    cases l with
    | nil => simp [dotDotAhead]
    | cons c l =>
        have hnil : (c :: l).takeWhile (· != byte '/') = [] ↔ c = byte '/' := by
          rw [List.takeWhile_eq_nil_iff]
          simp
        rw [hnil]
        simp [dotDotAhead, and_assoc]

theorem splitOn_tail_slash (l : List UInt8) :
    ((byte '/' :: l).splitOn (byte '/')).tail = l.splitOn (byte '/') := by
  rw [List.splitOn_cons_eq_if_modifyHead, if_pos (beq_self_eq_true _),
    List.tail_cons]

theorem splitOn_tail_ne {c : UInt8} (l : List UInt8) (hc : c ≠ byte '/') :
    ((c :: l).splitOn (byte '/')).tail = (l.splitOn (byte '/')).tail := by
  rw [List.splitOn_cons_eq_if_modifyHead, if_neg (by simpa using hc),
    List.tail_modifyHead]

/-- The last segment is that of the rest when a slash comes before it. -/
theorem splitOn_getLast? {c : UInt8} {l : List UInt8}
    (h : c = byte '/' ∨ (l.splitOn (byte '/')).tail ≠ []) :
    ((c :: l).splitOn (byte '/')).getLast? =
      (l.splitOn (byte '/')).getLast? := by
  rw [List.splitOn_cons_eq_if_modifyHead]
  cases hsegs : l.splitOn (byte '/') with
  | nil => exact absurd hsegs (List.splitOn_ne_nil _ l)
  | cons s segs =>
      by_cases hc : c = byte '/'
      · rw [if_pos (by simpa using hc), List.getLast?_cons_cons]
      · rw [hsegs] at h
        obtain ⟨t, ts, rfl⟩ := List.exists_cons_of_ne_nil (h.resolve_left hc)
        rw [if_neg (by simpa using hc), List.modifyHead_cons,
          List.getLast?_cons_cons, List.getLast?_cons_cons]

theorem mem_splitOn_iff {seg l : List UInt8} :
    seg ∈ l.splitOn (byte '/') ↔ (l.splitOn (byte '/')).head? = some seg ∨
      seg ∈ (l.splitOn (byte '/')).tail := by
  cases hsegs : l.splitOn (byte '/') with
  | nil => exact absurd hsegs (List.splitOn_ne_nil _ l)
  | cons s segs =>
      rw [List.mem_cons, List.head?_cons, Option.some_inj, List.tail_cons,
        eq_comm]

/-- The second loop accepts no NUL byte and no `..` behind a slash. -/
theorem scanDecoded_iff {l : List UInt8} :
    scanDecoded l = true ↔
      0 ∉ l ∧ bytes ".." ∉ (l.splitOn (byte '/')).tail := by
  induction l with
  | nil => simp [scanDecoded]
  | cons c l ih =>
      rw [scanDecoded, List.mem_cons]
      by_cases hzero : c = 0
      · simp [hzero]
      · rw [if_neg hzero, or_iff_right (Ne.symm hzero)]
        by_cases hslash : c = byte '/'
        · subst hslash
          rw [splitOn_tail_slash, mem_splitOn_iff, ← dotDotAhead_iff, not_or]
          by_cases hdots : dotDotAhead l = true
          · simp [hdots]
          · rw [if_neg (fun h => hdots h.2), ih]
            simp [hdots]
        · rw [if_neg (fun h => hslash h.1), ih, splitOn_tail_ne l hslash]

/-! ## The first loop -/

section FirstLoop

variable {l path : List UInt8} {args : Option (List UInt8)}
  {quoted quoted' : Bool}

/-- One iteration that goes on. -/
theorem scanUnsafe_cons {c : UInt8} (hc : c ≠ byte '?')
    (h : scanUnsafe (c :: l) quoted = some (path, args, quoted')) :
    c ≠ 0 ∧ ¬(c = byte '/' ∧ dotDotAhead l = true) ∧
      ∃ path', path = c :: path' ∧
        scanUnsafe l (quoted || c == byte '%') =
          some (path', args, quoted') := by
  have hgoOn : ∀ q, (scanUnsafe l q).map (fun r => (c :: r.1, r.2)) =
      some (path, args, quoted') → ∃ path', path = c :: path' ∧
        scanUnsafe l q = some (path', args, quoted') := by
    intro q hq
    obtain ⟨⟨path', rest⟩, hrest, heq⟩ := Option.map_eq_some_iff.mp hq
    obtain ⟨rfl, rfl⟩ := Prod.mk.inj heq
    exact ⟨path', rfl, hrest⟩
  rw [scanUnsafe] at h
  by_cases hpercent : c = byte '%'
  · rw [if_pos hpercent] at h
    rw [hpercent, beq_self_eq_true, Bool.or_true, ← hpercent]
    refine ⟨?_, ?_, hgoOn true h⟩
    · rw [hpercent]
      decide
    · rintro ⟨hslash, -⟩
      rw [hpercent] at hslash
      exact absurd hslash (by decide)
  · have hquoted : (quoted || c == byte '%') = quoted := by simp [hpercent]
    rw [if_neg hpercent] at h
    rw [hquoted]
    by_cases husual : usual c = true
    · rw [if_pos husual] at h
      refine ⟨?_, ?_, hgoOn quoted h⟩
      · rintro rfl
        exact absurd husual (by decide)
      · rintro ⟨rfl, -⟩
        exact absurd husual (by decide)
    · rw [if_neg husual, if_neg hc] at h
      by_cases hzero : c = 0
      · rw [if_pos hzero] at h
        cases h
      · rw [if_neg hzero] at h
        by_cases hslash : c = byte '/' ∧ dotDotAhead l = true
        · rw [if_pos hslash] at h
          cases h
        · rw [if_neg hslash] at h
          exact ⟨hzero, hslash, hgoOn quoted h⟩

theorem scanUnsafe_question :
    scanUnsafe (byte '?' :: l) quoted = some ([], some l, quoted) := by
  rw [scanUnsafe, if_neg (by decide), if_neg (by decide), if_pos rfl]

theorem beforeArgs_cons {c : UInt8} (hc : c ≠ byte '?') :
    beforeArgs (c :: l) = c :: beforeArgs l :=
  List.takeWhile_cons_of_pos (by simpa using hc)

theorem afterArgs_cons {c : UInt8} (hc : c ≠ byte '?') :
    afterArgs (c :: l) = afterArgs l := by
  unfold afterArgs
  rw [List.dropWhile_cons_of_pos (by simpa using hc)]

/-- The first loop ends at the first `?`. -/
theorem scanUnsafe_path
    (h : scanUnsafe l quoted = some (path, args, quoted')) :
    path = beforeArgs l ∧
      args = (if byte '?' ∈ l then some (afterArgs l) else none) ∧
      (quoted' = true ↔ quoted = true ∨ byte '%' ∈ path) := by
  induction l generalizing path quoted with
  | nil =>
      cases h
      exact ⟨rfl, rfl, by simp⟩
  | cons c l ih =>
      by_cases hc : c = byte '?'
      · subst hc
        rw [scanUnsafe_question] at h
        cases h
        exact ⟨rfl, by simp [afterArgs], by simp⟩
      · obtain ⟨-, -, path', rfl, hrest⟩ := scanUnsafe_cons hc h
        obtain ⟨rfl, rfl, hquoted⟩ := ih hrest
        rw [beforeArgs_cons hc, afterArgs_cons hc, hquoted]
        refine ⟨rfl, by simp [Ne.symm hc], ?_⟩
        rw [Bool.or_eq_true, beq_iff_eq, List.mem_cons, or_assoc, @eq_comm _ c]

/-- A first segment `..` that the look-ahead overlooks ends before a `?`. -/
theorem overlooked_head (hahead : dotDotAhead l = false)
    (hpath : dotDotAhead (beforeArgs l) = true) :
    byte '?' ∈ l ∧ beforeArgs l = bytes ".." := by
  have hsplit : l = beforeArgs l ++ l.dropWhile (· != byte '?') :=
    List.takeWhile_append_dropWhile.symm
  cases hrest : l.dropWhile (· != byte '?') with
  | nil =>
      rw [hrest, List.append_nil] at hsplit
      rw [hsplit, hpath] at hahead
      cases hahead
  | cons c rest =>
      have hc : c = byte '?' := by
        have hhead := List.head?_dropWhile_not (· != byte '?') l
        rw [hrest] at hhead
        simpa using hhead
      subst hc
      rw [hrest] at hsplit
      refine ⟨by rw [hsplit]; simp, ?_⟩
      revert hpath hsplit
      generalize beforeArgs l = path
      intro hpath hsplit
      subst hsplit
      match path, hpath, hahead with
      | [a, b], hpath, _ =>
          simp only [dotDotAhead, Bool.and_true, Bool.and_eq_true,
            decide_eq_true_eq] at hpath
          obtain ⟨rfl, rfl⟩ := hpath
          rfl
      | a :: b :: c :: path, hpath, hahead =>
          have hsame : dotDotAhead (a :: b :: c :: path) =
              dotDotAhead (a :: b :: c :: path ++ byte '?' :: rest) := rfl
          rw [hsame, hahead] at hpath
          cases hpath

/-- The first loop overlooks a segment `..` only as the last one before a
`?`. -/
theorem scanUnsafe_segments
    (h : scanUnsafe l quoted = some (path, args, quoted')) :
    0 ∉ path ∧ (bytes ".." ∈ (path.splitOn (byte '/')).tail →
      byte '?' ∈ l ∧
        (path.splitOn (byte '/')).getLast? = some (bytes "..")) := by
  induction l generalizing path quoted with
  | nil =>
      cases h
      simp
  | cons c l ih =>
      by_cases hc : c = byte '?'
      · subst hc
        rw [scanUnsafe_question] at h
        cases h
        simp
      · obtain ⟨hzero, hahead, path', rfl, hrest⟩ := scanUnsafe_cons hc h
        obtain ⟨hnul, hsegs⟩ := ih hrest
        obtain ⟨rfl, -, -⟩ := scanUnsafe_path hrest
        refine ⟨?_, ?_⟩
        · rw [List.mem_cons, not_or]
          exact ⟨Ne.symm hzero, hnul⟩
        · intro hmem
          rw [List.mem_cons]
          by_cases hslash : c = byte '/'
          · rw [hslash, splitOn_tail_slash, mem_splitOn_iff,
              ← dotDotAhead_iff] at hmem
            rw [splitOn_getLast? (.inl hslash)]
            rcases hmem with hhead | htail
            · have hmiss : dotDotAhead l = false := by simpa [hslash] using hahead
              obtain ⟨hquestion, hpath⟩ := overlooked_head hmiss hhead
              rw [hpath]
              exact ⟨.inr hquestion, rfl⟩
            · obtain ⟨hquestion, hlast⟩ := hsegs htail
              exact ⟨.inr hquestion, hlast⟩
          · rw [splitOn_tail_ne _ hslash] at hmem
            obtain ⟨hquestion, hlast⟩ := hsegs hmem
            rw [splitOn_getLast? (.inr (List.ne_nil_of_mem hmem))]
            exact ⟨.inr hquestion, hlast⟩

end FirstLoop

/-- The text has arguments, and its path ends in a segment `..` and has no
escape. -/
def DotDotBeforeArgs (uri : List UInt8) : Prop :=
  byte '?' ∈ uri ∧ byte '%' ∉ beforeArgs uri ∧
    ((beforeArgs uri).splitOn (byte '/')).getLast? = some (bytes "..")

/-- An accepted URI is without NUL and without a segment `..`, and without an
escape in the path it is the path and the arguments of the text, exactly if the
path is not one without an escape that ends in `..` before a `?`. -/
theorem parseUnsafeUri_safe_iff {alloc : Bool} {uri : List UInt8}
    {res : InternalUri} (h : ngxHttpParseUnsafeUri alloc uri = some res) :
    (SafeUri res.uri ∧
      (byte '%' ∉ beforeArgs uri → res.uri = beforeArgs uri ∧
        res.args = if byte '?' ∈ uri then some (afterArgs uri) else none)) ↔
      ¬DotDotBeforeArgs uri := by
  unfold ngxHttpParseUnsafeUri at h
  split at h
  · cases h
  · split at h
    · cases h
    · next hahead =>
        cases hscan : scanUnsafe uri false with
        | none =>
            rw [hscan] at h
            cases h
        | some r =>
            obtain ⟨path, args, quoted⟩ := r
            obtain ⟨rfl, rfl, hquoted⟩ := scanUnsafe_path hscan
            obtain ⟨hnul, hsegs⟩ := scanUnsafe_segments hscan
            rw [hscan] at h
            cases quoted with
            | true =>
                have hpercent : byte '%' ∈ beforeArgs uri := by
                  simpa using hquoted
                dsimp only at h
                split at h
                · split at h
                  · cases h
                  · next hfirst =>
                      split at h
                      · next hdecoded =>
                          obtain rfl := Option.some.inj h
                          obtain ⟨hnul', htail⟩ := scanDecoded_iff.mp hdecoded
                          refine iff_of_true ⟨⟨hnul', ?_⟩, ?_⟩ ?_
                          · rw [mem_splitOn_iff, ← dotDotAhead_iff]
                            exact not_or.mpr ⟨hfirst, htail⟩
                          · exact fun hno => absurd hpercent hno
                          · exact fun hbad => hbad.2.1 hpercent
                      · cases h
                · cases h
            | false =>
                have hpercent : byte '%' ∉ beforeArgs uri := by
                  simpa using hquoted
                obtain rfl := Option.some.inj h
                have hdots : bytes ".." ∈ (beforeArgs uri).splitOn (byte '/') ↔
                    DotDotBeforeArgs uri := by
                  constructor
                  · intro hmem
                    rw [mem_splitOn_iff, ← dotDotAhead_iff] at hmem
                    rcases hmem with hhead | htail
                    · obtain ⟨hquestion, hpath⟩ :=
                        overlooked_head (by simpa using hahead) hhead
                      refine ⟨hquestion, hpercent, ?_⟩
                      rw [hpath]
                      rfl
                    · obtain ⟨hquestion, hlast⟩ := hsegs htail
                      exact ⟨hquestion, hpercent, hlast⟩
                  · rintro ⟨-, -, hlast⟩
                    exact List.mem_of_getLast? hlast
                rw [← hdots]
                constructor
                · rintro ⟨⟨-, hsafe⟩, -⟩
                  exact hsafe
                · exact fun hsafe => ⟨⟨hnul, hsafe⟩, fun _ => ⟨rfl, rfl⟩⟩

theorem parseUnsafeUri_safe_escaped :
    ngxHttpParseUnsafeUri true (bytes "/a%2fb?c") =
      some ⟨bytes "/a/b", some (bytes "c")⟩ ∧ SafeUri (bytes "/a/b") := by
  have hrun : ngxHttpParseUnsafeUri true (bytes "/a%2fb?c") =
      some ⟨bytes "/a/b", some (bytes "c")⟩ := by decide +kernel
  refine ⟨hrun, ((parseUnsafeUri_safe_iff hrun).mpr ?_).1⟩
  rintro ⟨-, hpercent, -⟩
  exact absurd hpercent (by decide +kernel)

/-- The URI `/a/..` is accepted when arguments follow. -/
theorem parseUnsafeUri_dotDot :
    ngxHttpParseUnsafeUri true (bytes "/a/..?b") =
      some ⟨bytes "/a/..", some (bytes "b")⟩ ∧
    ngxHttpParseUnsafeUri true (bytes "/a/..") = none ∧
    ¬SafeUri (bytes "/a/..") := by
  refine ⟨by decide +kernel, by decide +kernel, ?_⟩
  rintro ⟨-, hsafe⟩
  exact absurd hsafe (by decide +kernel)

end MultiversionBalancer.Http
