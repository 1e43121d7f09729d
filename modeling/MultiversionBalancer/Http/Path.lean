import MultiversionBalancer.Http.UriScan
import Mathlib.Data.List.TakeWhile

/-!
# Normalised paths

What a path is normalised to: it is percent-decoded once, runs of slashes are
merged if this is asked for, and the segments `.` and `..` are removed from left
to right as in RFC 3986, section 5.2.4.  The same path comes out when the decoded
bytes are read one after the other, and it has no dot segment and no NUL byte.
-/

namespace MultiversionBalancer.Http

open Lib

/-! ## The path as it should be -/

/-- Decode a percent sequence; `none` if it is malformed or stands for NUL. -/
def percentByte (high low : UInt8) : Option UInt8 := do
  let h ← hexValue high
  let l ← hexValue low
  if 16 * h + l = 0 then none else pure (UInt8.ofNat (16 * h + l))

/-- Decode all percent sequences once. -/
def percentDecode : List UInt8 → Option (List UInt8)
  | [] => some []
  | ch :: rest =>
      if ch = byte '%' then
        match rest with
        | high :: low :: rest => do
            let c ← percentByte high low
            let decoded ← percentDecode rest
            pure (c :: decoded)
        | _ => none
      else do
        let decoded ← percentDecode rest
        pure (ch :: decoded)

/-- Make each run of slashes one slash. -/
def mergeRuns : List UInt8 → List UInt8
  | [] => []
  | ch :: rest =>
      if ch = byte '/' ∧ rest.head? = some (byte '/') then mergeRuns rest
      else ch :: mergeRuns rest

abbrev Segment := List UInt8

/-- Remove the dot segments of an absolute path from left to right; `done` are
the segments already in the output, the last one first.  A dot segment at the
end leaves an empty segment.  A `..` without a segment to remove fails. -/
def removeDotSegments : List Segment → List Segment → Option (List Segment)
  | done, [] => some done.reverse
  | done, seg :: rest =>
      if seg = bytes "." then
        removeDotSegments (if rest = [] then [] :: done else done) rest
      else if seg = bytes ".." then
        match done with
        | [] => none
        | _ :: done =>
            removeDotSegments (if rest = [] then [] :: done else done) rest
      else removeDotSegments (seg :: done) rest

def joinSegments (segs : List Segment) : List UInt8 :=
  segs.flatMap (byte '/' :: ·)

/-- The normalised form of a path that begins with a slash. -/
def normalise (merge : Bool) (path : List UInt8) : Option (List UInt8) := do
  let decoded ← percentDecode path
  let decoded := if merge then mergeRuns decoded else decoded
  let segs ← removeDotSegments [] (decoded.splitOn (byte '/')).tail
  pure (joinSegments segs)

/-- What follows the path: nothing, or the bytes behind the `?` that ends it. -/
def afterPath (tail : List UInt8) : AfterPath :=
  match tail with
  | [] => none
  | ch :: rest => if ch = byte '?' then some rest else none

/-- The arguments behind a path: they begin behind the `?` that ends the path,
and end at a `#`. -/
def argsPart (raw : List UInt8) : List UInt8 :=
  let tail := raw.dropWhile fun ch => ch ≠ byte '?' && ch ≠ byte '#'
  ((afterPath tail).getD []).takeWhile (· != byte '#')

/-! ## One byte after the other -/

theorem percentDecode_cons {ch : UInt8} (rest : List UInt8)
    (hch : ch ≠ byte '%') :
    percentDecode (ch :: rest) = (percentDecode rest).map (ch :: ·) := by
  rw [percentDecode.eq_def, Option.map_eq_bind]
  exact if_neg hch

theorem percentDecode_percent (high low : UInt8) (rest : List UInt8) :
    percentDecode (byte '%' :: high :: low :: rest) =
      (percentByte high low).bind fun c => (percentDecode rest).map (c :: ·) := by
  rw [percentDecode, if_pos rfl]
  simp only [Option.map_eq_bind]
  rfl

theorem percentDecode_cut {rest : List UInt8}
    (hrest : ∀ high low rest', rest = high :: low :: rest' → False) :
    percentDecode (byte '%' :: rest) = none := by
  match rest, hrest with
  | [], _ => rfl
  | [_], _ => rfl
  | high :: low :: rest', hrest => exact (hrest high low rest' rfl).elim

/-- A path that is read byte by byte: its closed segments, the last one first,
and the segment that is open. -/
structure Partial where
  closed : List Segment
  current : Segment
  deriving DecidableEq

/-- Apply a dot segment that is open. -/
def Partial.settle (s : Partial) : Option Partial :=
  if s.current = bytes "." then some ⟨s.closed, []⟩
  else if s.current = bytes ".." then
    match s.closed with
    | [] => none
    | _ :: closed => some ⟨closed, []⟩
  else some s

/-- A slash: close the open segment. -/
def Partial.close (merge : Bool) (s : Partial) : Option Partial :=
  if s.current = bytes "." ∨ s.current = bytes ".." then s.settle
  else if merge ∧ s.current = [] then some s
  else some ⟨s.current :: s.closed, []⟩

/-- A decoded byte. -/
def Partial.feed (merge : Bool) (c : UInt8) (s : Partial) : Option Partial :=
  if c = byte '/' then s.close merge
  else some { s with current := s.current ++ [c] }

/-- The decoded bytes of a path behind its first slash. -/
def Partial.run (merge : Bool) : Partial → List UInt8 → Option Partial
  | s, [] => s.settle
  | s, c :: rest => (s.feed merge c).bind fun s => s.run merge rest

def Partial.text (s : Partial) : List UInt8 :=
  joinSegments (s.current :: s.closed).reverse

theorem Partial.text_eq (s : Partial) :
    s.text = joinSegments s.closed.reverse ++ byte '/' :: s.current := by
  simp [Partial.text, joinSegments]

theorem removeDotSegments_dot (done rest : List Segment) :
    removeDotSegments done (bytes "." :: rest) =
      removeDotSegments (if rest = [] then [] :: done else done) rest := by
  rw [removeDotSegments.eq_def]
  exact if_pos rfl

theorem removeDotSegments_dotDot (last : Segment) (done rest : List Segment) :
    removeDotSegments (last :: done) (bytes ".." :: rest) =
      removeDotSegments (if rest = [] then [] :: done else done) rest := by
  rw [removeDotSegments.eq_def]
  exact (if_neg (by decide)).trans (if_pos rfl)

theorem removeDotSegments_fail (rest : List Segment) :
    removeDotSegments [] (bytes ".." :: rest) = none := by
  rw [removeDotSegments.eq_def]
  exact (if_neg (by decide)).trans (if_pos rfl)

theorem removeDotSegments_plain {seg : Segment} (done rest : List Segment)
    (hdot : seg ≠ bytes ".") (hdots : seg ≠ bytes "..") :
    removeDotSegments done (seg :: rest) =
      removeDotSegments (seg :: done) rest := by
  rw [removeDotSegments.eq_def]
  exact (if_neg hdot).trans (if_neg hdots)

theorem removeDotSegments_nil (done : List Segment) :
    removeDotSegments done [] = some done.reverse := by
  rw [removeDotSegments]

/-- Without merging, a path that is read byte by byte gives its segments with
the dot segments removed. -/
theorem Partial.run_text (s : Partial) (path : List UInt8) :
    (s.run false path).map Partial.text =
      (removeDotSegments s.closed
        ((path.splitOn (byte '/')).modifyHead (s.current ++ ·))).map
        joinSegments := by
  induction path generalizing s with
  | nil =>
      obtain ⟨closed, current⟩ := s
      have hsplit : ([] : List UInt8).splitOn (byte '/') = [[]] := rfl
      rw [hsplit, List.modifyHead_cons, List.append_nil, Partial.run,
        Partial.settle]
      by_cases hdot : current = bytes "."
      · rw [if_pos hdot, hdot, removeDotSegments_dot, if_pos rfl,
          removeDotSegments_nil]
        rfl
      rw [if_neg hdot]
      by_cases hdots : current = bytes ".."
      · rw [if_pos hdots, hdots]
        cases closed with
        | nil => rw [removeDotSegments_fail]; rfl
        | cons last closed =>
            rw [removeDotSegments_dotDot, if_pos rfl, removeDotSegments_nil]
            rfl
      · rw [if_neg hdots, removeDotSegments_plain _ _ hdot hdots,
          removeDotSegments_nil]
        rfl
  | cons c rest ih =>
      rw [Partial.run, Partial.feed, List.splitOn_cons_eq_if_modifyHead]
      by_cases hc : c = byte '/'
      · have hne := List.splitOn_ne_nil (byte '/') rest
        have hopen (segs : List Segment) : segs.modifyHead ([] ++ ·) = segs := by
          cases segs with
          | nil => rfl
          | cons seg segs => rfl
        obtain ⟨closed, current⟩ := s
        rw [if_pos hc, if_pos (by simp [hc]), List.modifyHead_cons,
          List.append_nil, Partial.close]
        by_cases hdot : current = bytes "."
        · rw [if_pos (.inl hdot), Partial.settle, if_pos hdot, hdot,
            removeDotSegments_dot, if_neg hne, Option.bind_some, ih, hopen]
        by_cases hdots : current = bytes ".."
        · rw [if_pos (.inr hdots), Partial.settle, if_neg hdot, if_pos hdots,
            hdots]
          cases closed with
          | nil => rw [removeDotSegments_fail]; rfl
          | cons last closed =>
              rw [removeDotSegments_dotDot, if_neg hne, Option.bind_some, ih,
                hopen]
        · rw [if_neg (not_or.mpr ⟨hdot, hdots⟩), if_neg (by simp),
            removeDotSegments_plain _ _ hdot hdots, Option.bind_some, ih, hopen]
      · rw [if_neg hc, if_neg (by simpa using hc), Option.bind_some, ih]
        congr 2
        cases rest.splitOn (byte '/') with
        | nil => rfl
        | cons seg segs => simp

theorem mergeRuns_slash_slash (rest : List UInt8) :
    mergeRuns (byte '/' :: byte '/' :: rest) = mergeRuns (byte '/' :: rest) := by
  rw [mergeRuns, if_pos ⟨rfl, rfl⟩]

theorem mergeRuns_cons_ne {c : UInt8} (rest : List UInt8) (hc : c ≠ byte '/') :
    mergeRuns (c :: rest) = c :: mergeRuns rest := by
  rw [mergeRuns, if_neg fun h => hc h.1]

theorem mergeRuns_slash_ne {c : UInt8} (rest : List UInt8) (hc : c ≠ byte '/') :
    mergeRuns (byte '/' :: c :: rest) = byte '/' :: c :: mergeRuns rest := by
  rw [mergeRuns, if_neg (by simpa using hc), mergeRuns_cons_ne rest hc]

theorem mergeRuns_slash (rest : List UInt8) :
    mergeRuns (byte '/' :: rest) = byte '/' :: (mergeRuns (byte '/' :: rest)).tail := by
  induction rest with
  | nil => rfl
  | cons c rest ih =>
      by_cases hc : c = byte '/'
      · subst hc
        rw [mergeRuns_slash_slash]
        exact ih
      · rw [mergeRuns_slash_ne rest hc]
        rfl

/-- A slash behind an open segment does the same with and without merging. -/
theorem Partial.close_merge {s : Partial} (hs : s.current ≠ []) :
    s.close true = s.close false := by
  rw [Partial.close, Partial.close]
  simp [hs]

theorem Partial.close_current {merge : Bool} {s s' : Partial}
    (h : s.close merge = some s') : s'.current = [] := by
  obtain ⟨closed, current⟩ := s
  rw [Partial.close, Partial.settle] at h
  by_cases hdot : current = bytes "."
  · rw [if_pos (.inl hdot), if_pos hdot] at h
    cases h
    rfl
  by_cases hdots : current = bytes ".."
  · rw [if_pos (.inr hdots), if_neg hdot, if_pos hdots] at h
    cases closed with
    | nil => cases h
    | cons last closed => cases h; rfl
  · rw [if_neg (not_or.mpr ⟨hdot, hdots⟩)] at h
    split at h
    · next hmerge =>
        cases h
        exact hmerge.2
    · cases h
      rfl

/-- To merge slashes while the path is read is to merge its runs first. -/
theorem Partial.run_merge (path : List UInt8) :
    (∀ s : Partial, s.current = [] →
      s.run true path = s.run false (mergeRuns (byte '/' :: path)).tail) ∧
    ∀ s : Partial, s.current ≠ [] →
      s.run true path = s.run false (mergeRuns path) := by
  induction path with
  | nil => exact ⟨fun s _ => rfl, fun s _ => rfl⟩
  | cons c rest ih =>
      by_cases hc : c = byte '/'
      · subst hc
        constructor
        · rintro ⟨closed, current⟩ (rfl : current = [])
          have hnoop : (⟨closed, []⟩ : Partial).feed true (byte '/') =
              some ⟨closed, []⟩ := rfl
          rw [mergeRuns_slash_slash, Partial.run, hnoop, Option.bind_some]
          exact ih.1 _ rfl
        · intro s hs
          rw [mergeRuns_slash, Partial.run, Partial.run, Partial.feed,
            Partial.feed, if_pos rfl, if_pos rfl, Partial.close_merge hs]
          cases hclose : s.close false with
          | none => rfl
          | some s' => exact ih.1 s' (Partial.close_current hclose)
      · constructor
        · intro s hs
          rw [mergeRuns_slash_ne rest hc, List.tail_cons, Partial.run,
            Partial.run, Partial.feed, Partial.feed, if_neg hc, if_neg hc]
          exact ih.2 _ (by simp)
        · intro s hs
          rw [mergeRuns_cons_ne rest hc, Partial.run, Partial.run, Partial.feed,
            Partial.feed, if_neg hc, if_neg hc]
          exact ih.2 _ (by simp)

/-- A path behind its first slash. -/
def Partial.empty : Partial := ⟨[], []⟩

/-- The normalised path, read byte by byte. -/
theorem normalise_slash (merge : Bool) (path : List UInt8) :
    normalise merge (byte '/' :: path) =
      (percentDecode path).bind fun decoded =>
        (Partial.empty.run merge decoded).map Partial.text := by
  have hsplit (decoded : List UInt8) :
      ((byte '/' :: decoded).splitOn (byte '/')).tail =
        (decoded.splitOn (byte '/')).modifyHead ([] ++ ·) := by
    rw [List.splitOn_cons_eq_if_modifyHead, if_pos (by decide), List.tail_cons]
    cases decoded.splitOn (byte '/') with
    | nil => rfl
    | cons seg segs => rfl
  rw [normalise, percentDecode_cons path (by decide)]
  cases percentDecode path with
  | none => rfl
  | some decoded =>
      change (removeDotSegments [] (List.tail _)).bind _ = _
      rw [Option.bind_some]
      cases merge with
      | false =>
          rw [Partial.run_text, if_neg (by decide), hsplit, Option.map_eq_bind]
          rfl
      | true =>
          rw [(Partial.run_merge decoded).1 _ rfl, Partial.run_text, if_pos rfl,
            mergeRuns_slash, hsplit, List.tail_cons, Option.map_eq_bind]
          rfl

example : normalise true (bytes "/a//%2e/b/..%2Fc%25") = some (bytes "/a/c%") := by
  decide +kernel

example : normalise false (bytes "//../a/..") = some (bytes "/") := by
  decide +kernel

/-! ## Normalised paths are safe -/

/-- A segment that may stand in a normalised path. -/
structure CleanSegment (seg : Segment) : Prop where
  slash : byte '/' ∉ seg
  nul : 0 ∉ seg
  dot : seg ≠ bytes "."
  dotDot : seg ≠ bytes ".."

/-- The closed segments are clean, and so is the open one unless dots make it a
dot segment. -/
structure Partial.Clean (s : Partial) : Prop where
  closed : ∀ seg ∈ s.closed, CleanSegment seg
  slash : byte '/' ∉ s.current
  nul : 0 ∉ s.current

theorem Partial.Clean.settle {s s' : Partial} (h : s.Clean)
    (hs : s.settle = some s') :
    (∀ seg ∈ s'.closed, CleanSegment seg) ∧ CleanSegment s'.current := by
  have hempty : CleanSegment [] := ⟨by simp, by simp, nofun, nofun⟩
  obtain ⟨closed, current⟩ := s
  rw [Partial.settle] at hs
  by_cases hdot : current = bytes "."
  · rw [if_pos hdot] at hs
    cases hs
    exact ⟨h.closed, hempty⟩
  rw [if_neg hdot] at hs
  by_cases hdots : current = bytes ".."
  · rw [if_pos hdots] at hs
    cases closed with
    | nil => cases hs
    | cons seg closed =>
        cases hs
        exact ⟨fun seg' hseg' => h.closed seg' (by simp [hseg']), hempty⟩
  · rw [if_neg hdots] at hs
    cases hs
    exact ⟨h.closed, h.slash, h.nul, hdot, hdots⟩

theorem Partial.Clean.feed {merge : Bool} {c : UInt8} {s s' : Partial}
    (h : s.Clean) (hc : c ≠ 0) (hs : s.feed merge c = some s') : s'.Clean := by
  rw [Partial.feed] at hs
  by_cases hslash : c = byte '/'
  · rw [if_pos hslash, Partial.close] at hs
    by_cases hdots : s.current = bytes "." ∨ s.current = bytes ".."
    · rw [if_pos hdots] at hs
      obtain ⟨hclosed, hcurrent⟩ := h.settle hs
      exact ⟨hclosed, hcurrent.slash, hcurrent.nul⟩
    rw [if_neg hdots] at hs
    rw [not_or] at hdots
    split at hs
    · cases hs
      exact h
    · cases hs
      refine ⟨?_, by simp, by simp⟩
      intro seg hseg
      obtain rfl | hseg := List.mem_cons.mp hseg
      · exact ⟨h.slash, h.nul, hdots.1, hdots.2⟩
      · exact h.closed seg hseg
  · rw [if_neg hslash] at hs
    cases hs
    refine ⟨h.closed, ?_, ?_⟩
    · simpa using ⟨h.slash, fun h => hslash h.symm⟩
    · simpa using ⟨h.nul, hc.symm⟩

theorem Partial.Clean.run {merge : Bool} {s s' : Partial} {decoded : List UInt8}
    (h : s.Clean) (hdecoded : 0 ∉ decoded) (hs : s.run merge decoded = some s') :
    (∀ seg ∈ s'.closed, CleanSegment seg) ∧ CleanSegment s'.current := by
  induction decoded generalizing s with
  | nil => exact h.settle hs
  | cons c rest ih =>
      rw [Partial.run] at hs
      obtain ⟨s₁, hfeed, hrest⟩ := Option.bind_eq_some_iff.mp hs
      rw [List.mem_cons, not_or] at hdecoded
      exact ih (h.feed (Ne.symm hdecoded.1) hfeed) hdecoded.2 hrest

/-- A path without dot segments and NUL bytes. -/
structure SafePath (path : List UInt8) : Prop where
  slash : path.head? = some (byte '/')
  segments : ∀ seg ∈ path.splitOn (byte '/'), seg ≠ bytes "." ∧ seg ≠ bytes ".."
  nul : 0 ∉ path

theorem joinSegments_eq_intercalate (segs : List Segment) :
    joinSegments segs = [byte '/'].intercalate ([] :: segs) := by
  induction segs with
  | nil => rfl
  | cons seg segs ih =>
      have hjoin : joinSegments (seg :: segs) =
          byte '/' :: (seg ++ joinSegments segs) := rfl
      rw [hjoin, ih, List.intercalate_cons_cons]
      cases segs with
      | nil => simp
      | cons seg' segs => simp [List.intercalate_cons_cons]

theorem safePath_join {segs : List Segment} (hne : segs ≠ [])
    (h : ∀ seg ∈ segs, CleanSegment seg) : SafePath (joinSegments segs) := by
  refine ⟨?_, ?_, ?_⟩
  · cases segs with
    | nil => exact absurd rfl hne
    | cons seg segs => rfl
  · have hslash : ∀ seg ∈ [] :: segs, byte '/' ∉ seg := by
      intro seg hseg
      obtain rfl | hseg := List.mem_cons.mp hseg
      · simp
      · exact (h seg hseg).slash
    intro seg hseg
    rw [joinSegments_eq_intercalate,
      List.splitOn_intercalate _ hslash (by simp)] at hseg
    obtain rfl | hseg := List.mem_cons.mp hseg
    · exact ⟨nofun, nofun⟩
    · exact ⟨(h seg hseg).dot, (h seg hseg).dotDot⟩
  · intro hzero
    obtain ⟨seg, hseg, hmem⟩ := List.mem_flatMap.mp hzero
    obtain hslash | hmem := List.mem_cons.mp hmem
    · revert hslash
      decide
    · exact (h seg hseg).nul hmem

theorem percentByte_ne_zero {high low c : UInt8}
    (h : percentByte high low = some c) : c ≠ 0 := by
  obtain ⟨n, hn, h⟩ := Option.bind_eq_some_iff.mp h
  obtain ⟨m, hm, h⟩ := Option.bind_eq_some_iff.mp h
  have hnlt := hexValue_lt hn
  have hmlt := hexValue_lt hm
  split at h
  · cases h
  · next hzero =>
      cases h
      intro hbyte
      have hnat := congrArg UInt8.toNat hbyte
      rw [UInt8.toNat_ofNat_of_lt' (show 16 * n + m < 256 by omega)] at hnat
      exact hzero hnat

theorem percentDecode_nul {path decoded : List UInt8} (hpath : 0 ∉ path)
    (h : percentDecode path = some decoded) : 0 ∉ decoded := by
  induction path using percentDecode.induct generalizing decoded with
  | case1 =>
      cases h
      simp
  | case2 high low rest ih =>
      rw [percentDecode_percent] at h
      obtain ⟨c, hc, h⟩ := Option.bind_eq_some_iff.mp h
      obtain ⟨decoded, hdecoded, rfl⟩ := Option.map_eq_some_iff.mp h
      simp only [List.mem_cons, not_or] at hpath ⊢
      exact ⟨Ne.symm (percentByte_ne_zero hc), ih hpath.2.2.2 hdecoded⟩
  | case3 rest hrest =>
      rw [percentDecode_cut hrest] at h
      cases h
  | case4 ch rest hch ih =>
      rw [percentDecode_cons rest hch] at h
      obtain ⟨decoded, hdecoded, rfl⟩ := Option.map_eq_some_iff.mp h
      simp only [List.mem_cons, not_or] at hpath ⊢
      exact ⟨hpath.1, ih hpath.2 hdecoded⟩

theorem safePath_normalise {merge : Bool} {path result : List UInt8}
    (hpath : 0 ∉ path) (h : normalise merge (byte '/' :: path) = some result) :
    SafePath result := by
  rw [normalise_slash] at h
  obtain ⟨decoded, hdecoded, h⟩ := Option.bind_eq_some_iff.mp h
  obtain ⟨s, hrun, rfl⟩ := Option.map_eq_some_iff.mp h
  have hclean : Partial.empty.Clean := ⟨nofun, nofun, nofun⟩
  obtain ⟨hclosed, hcurrent⟩ := hclean.run (percentDecode_nul hpath hdecoded) hrun
  apply safePath_join
  · simp
  · intro seg hseg
    rw [List.mem_reverse] at hseg
    obtain rfl | hseg := List.mem_cons.mp hseg
    · exact hcurrent
    · exact hclosed seg hseg

end MultiversionBalancer.Http
