import MultiversionBalancer.Http.ChunkedFilter
import Mathlib.Order.Bounds.Basic

/-!
# Encoded bodies

The chunked encodings of a body, with leading zeros, digits of both cases,
extensions, line ends of both kinds and trailers.  The machine accepts exactly
these, and the length it asks for is the least one with which it can come to an
end.
-/

namespace MultiversionBalancer.Http

open Lib

/-! ## The encodings -/

def IsLineEnd (e : List UInt8) : Prop :=
  e = [lf] ∨ e = [cr, lf]

/-- Bytes inside a line. -/
def IsText (text : List UInt8) : Prop :=
  ∀ ch ∈ text, ch ≠ cr ∧ ch ≠ lf

/-- The bytes between the size of a chunk and the end of its line. -/
def IsExtension (ext : List UInt8) : Prop :=
  ext = [] ∨ ∃ c text, ext = c :: text ∧
    (c = byte ';' ∨ c = byte ' ' ∨ c = byte '\t') ∧ IsText text

/-- The value of digits behind a number. -/
def readHex : ℕ → List UInt8 → Option ℕ
  | n, [] => some n
  | n, ch :: digits => (hexValue ch).bind fun d => readHex (n * 16 + d) digits

/-- Digits stand for a number; there is at least one. -/
def IsHex (digits : List UInt8) (n : ℕ) : Prop :=
  digits ≠ [] ∧ readHex 0 digits = some n

/-- The lines behind the last chunk. -/
inductive Trailers : List UInt8 → Prop where
  | stop {eol : List UInt8} (heol : IsLineEnd eol) : Trailers eol
  | line {text eol rest : List UInt8} (hne : text ≠ []) (htext : IsText text)
      (heol : IsLineEnd eol) (hrest : Trailers rest) :
      Trailers (text ++ (eol ++ rest))

/-- The encodings of a list of chunks that are not empty and whose sizes pass the
test of the parser. -/
inductive Encodes : List (List UInt8) → List UInt8 → Prop where
  | last {digits ext eol trailers : List UInt8} (hdigits : IsHex digits 0)
      (hext : IsExtension ext) (heol : IsLineEnd eol)
      (htrailers : Trailers trailers) :
      Encodes [] (digits ++ (ext ++ (eol ++ trailers)))
  | chunk {digits ext eol data eol' rest : List UInt8}
      {chunks : List (List UInt8)} (hdigits : IsHex digits data.length)
      (hne : data ≠ []) (hfits : data.length ≤ maxOff / 16)
      (hext : IsExtension ext) (heol : IsLineEnd eol) (heol' : IsLineEnd eol')
      (hrest : Encodes chunks rest) :
      Encodes (data :: chunks)
        (digits ++ (ext ++ (eol ++ (data ++ (eol' ++ rest)))))

/-! ## The machine accepts the encodings -/

section Accepts

variable {limit : ℕ} {data : List UInt8}

theorem hexDigit_of_hexValue {ch : UInt8} {n : ℕ} (h : hexValue ch = some n) :
    ∃ d, hexDigit ch = some d ∧ d.toNat = n := by
  rw [← hexDigit_toNat] at h
  exact Option.map_eq_some_iff.mp h

theorem le_of_readHex {n m : ℕ} {digits : List UInt8}
    (h : readHex n digits = some m) : n ≤ m := by
  induction digits generalizing n with
  | nil =>
      cases h
      exact Nat.le_refl _
  | cons ch digits ih =>
      obtain ⟨d, -, hrest⟩ := Option.bind_eq_some_iff.mp h
      have hle := ih hrest
      omega

theorem passes_digits {n m : ℕ} {digits : List UInt8}
    (h : readHex n digits = some m) (hm : m ≤ maxOff / 16) :
    Passes (stepBody limit) ⟨.chunkSize, n, data⟩ digits
      ⟨.chunkSize, m, data⟩ := by
  induction digits generalizing n with
  | nil =>
      cases h
      exact Passes.refl _ _
  | cons ch digits ih =>
      obtain ⟨d, hd, hrest⟩ := Option.bind_eq_some_iff.mp h
      obtain ⟨d, hdigit, rfl⟩ := hexDigit_of_hexValue hd
      have hle := le_of_readHex hrest
      refine Passes.cons ?_ (ih hrest)
      intro seen
      simp only [stepBody, stepChunked, hdigit]
      rw [if_neg (by omega)]

theorem passes_hex {n : ℕ} {digits : List UInt8} (h : IsHex digits n)
    (hn : n ≤ maxOff / 16) :
    Passes (stepBody limit) ⟨.chunkStart, 0, data⟩ digits
      ⟨.chunkSize, n, data⟩ := by
  obtain ⟨hne, hread⟩ := h
  cases digits with
  | nil => exact absurd rfl hne
  | cons ch digits =>
      obtain ⟨d, hd, hrest⟩ := Option.bind_eq_some_iff.mp hread
      obtain ⟨d, hdigit, rfl⟩ := hexDigit_of_hexValue hd
      rw [Nat.zero_mul, Nat.zero_add] at hrest
      refine Passes.cons ?_ (passes_digits hrest hn)
      intro seen
      simp only [stepBody, stepChunked, hdigit]

theorem passes_lineEnd {eol : List UInt8} {s almost done : BodyState}
    (heol : IsLineEnd eol)
    (hcr : ∀ seen, stepBody limit seen cr s = .more almost)
    (hlf : ∀ seen, stepBody limit seen lf s = .more done)
    (hfeed : ∀ seen, stepBody limit seen lf almost = .more done) :
    Passes (stepBody limit) s eol done := by
  obtain rfl | rfl := heol
  · exact Passes.single hlf
  · exact Passes.cons hcr (Passes.single hfeed)

/-- Bytes inside a line, in a state that stays in it. -/
theorem passes_text {text : List UInt8} {s : BodyState} (htext : IsText text)
    (hstay : ∀ ch, ch ≠ cr → ch ≠ lf → ∀ seen,
      stepBody limit seen ch s = .more s) :
    Passes (stepBody limit) s text s := by
  induction text with
  | nil => exact Passes.refl _ _
  | cons ch text ih =>
      obtain ⟨hcr, hlf⟩ := htext ch (by simp)
      exact Passes.cons (hstay ch hcr hlf) (ih fun c hc => htext c (by simp [hc]))

theorem stepBody_next {ch : UInt8} {s : BodyState} {state : ChunkedState}
    {size : ℕ} (h : stepChunked ch s.size s.state = .next state size)
    (seen : List UInt8) :
    stepBody limit seen ch s = .more { s with state := state, size := size } := by
  rw [stepBody, h]

/-- The states of the line of a chunk's size: behind its digits, inside its
extension and behind a carriage return. -/
structure SizeLine (n : ℕ) (inside almost done : ChunkedState) : Prop where
  digits : ∀ ch, hexDigit ch = none →
    stepChunked ch n .chunkSize = sizeEnd almost done inside ch n
  inside : ∀ ch, stepChunked ch n inside =
    lineEnd almost done (.next inside n) ch n
  almost : ∀ ch, stepChunked ch n almost = lineFeed done ch n

theorem sizeLine_chunk {n : ℕ} (hn : n ≤ maxOff / 16) (hpos : n ≠ 0) :
    SizeLine n .chunkExtension .chunkExtensionAlmostDone .chunkData where
  digits := by
    intro ch hch
    simp only [stepChunked, hch, if_neg hpos]
    exact if_neg (by omega)
  inside := fun _ => rfl
  almost := fun _ => rfl

theorem sizeLine_last :
    SizeLine 0 .lastChunkExtension .lastChunkExtensionAlmostDone .trailer where
  digits := by
    intro ch hch
    simp only [stepChunked, hch, if_pos]
    exact if_neg (by decide)
  inside := fun _ => rfl
  almost := fun _ => rfl

theorem passes_sizeLine {n : ℕ} {inside almost done : ChunkedState}
    {ext eol : List UInt8} (hline : SizeLine n inside almost done)
    (hext : IsExtension ext) (heol : IsLineEnd eol) :
    Passes (stepBody limit) ⟨.chunkSize, n, data⟩ (ext ++ eol)
      ⟨done, n, data⟩ := by
  have hfeed : stepChunked lf n almost = .next done n := hline.almost lf
  obtain rfl | ⟨c, text, rfl, hc, htext⟩ := hext
  · exact passes_lineEnd heol
      (stepBody_next (s := ⟨.chunkSize, n, data⟩) (hline.digits cr rfl))
      (stepBody_next (s := ⟨.chunkSize, n, data⟩) (hline.digits lf rfl))
      (stepBody_next (s := ⟨almost, n, data⟩) hfeed)
  · have hfirst : stepChunked c n .chunkSize = .next inside n := by
      obtain rfl | rfl | rfl := hc
      · exact hline.digits _ rfl
      · exact hline.digits _ rfl
      · exact hline.digits _ rfl
    have hstay (ch : UInt8) (hcr : ch ≠ cr) (hlf : ch ≠ lf) :
        stepChunked ch n inside = .next inside n := by
      rw [hline.inside, lineEnd, if_neg hcr, if_neg hlf]
    refine Passes.cons (stepBody_next (s := ⟨.chunkSize, n, data⟩) hfirst) ?_
    refine (passes_text htext fun ch hcr hlf =>
      stepBody_next (s := ⟨inside, n, data⟩) (hstay ch hcr hlf)).trans ?_
    exact passes_lineEnd heol
      (stepBody_next (s := ⟨inside, n, data⟩) (hline.inside cr))
      (stepBody_next (s := ⟨inside, n, data⟩) (hline.inside lf))
      (stepBody_next (s := ⟨almost, n, data⟩) hfeed)

theorem passes_data {w : List UInt8} (hw : w ≠ [])
    (hlimit : ¬exceeds limit ⟨.chunkData, w.length, data⟩) :
    Passes (stepBody limit) ⟨.chunkData, w.length, data⟩ w
      ⟨.afterData, 0, data ++ w⟩ := by
  intro seen rest
  have hlen : w.length ≠ 0 := by simpa using hw
  have hbody : ChunkedCtx.body ⟨.chunkData, w.length, 0⟩ data =
      ⟨.chunkData, w.length, data⟩ := by
    rw [ChunkedCtx.body, if_neg fun h => hlen h.2]
  have hscan := @scan_data limit ⟨.chunkData, w.length, 0⟩ seen data w rest rfl
    (Nat.le_refl w.length) (by rwa [hbody])
  rw [hbody] at hscan
  rw [hscan, ChunkedCtx.body, if_pos ⟨rfl, Nat.sub_self _⟩]

theorem passes_afterData {eol : List UInt8} (heol : IsLineEnd eol) :
    Passes (stepBody limit) ⟨.afterData, 0, data⟩ eol ⟨.chunkStart, 0, data⟩ :=
  passes_lineEnd heol (fun _ => rfl) (fun _ => rfl) fun _ => rfl

theorem passes_trailerLine {text eol : List UInt8} (hne : text ≠ [])
    (htext : IsText text) (heol : IsLineEnd eol) :
    Passes (stepBody limit) ⟨.trailer, 0, data⟩ (text ++ eol)
      ⟨.trailer, 0, data⟩ := by
  cases text with
  | nil => exact absurd rfl hne
  | cons ch text =>
      obtain ⟨hcr, hlf⟩ := htext ch (by simp)
      have hfirst : stepChunked ch 0 .trailer = .next .trailerHeader 0 := by
        rw [stepChunked, if_neg hcr, if_neg hlf]
      have hstay (ch : UInt8) (hcr : ch ≠ cr) (hlf : ch ≠ lf) :
          stepChunked ch 0 .trailerHeader = .next .trailerHeader 0 := by
        rw [stepChunked, lineEnd, if_neg hcr, if_neg hlf]
      refine Passes.cons (stepBody_next (s := ⟨.trailer, 0, data⟩) hfirst) ?_
      refine (passes_text (fun c hc => htext c (by simp [hc])) fun ch hcr hlf =>
        stepBody_next (s := ⟨.trailerHeader, 0, data⟩) (hstay ch hcr hlf)).trans ?_
      exact passes_lineEnd heol (fun _ => rfl) (fun _ => rfl) fun _ => rfl

theorem scan_trailers {seen trailers : List UInt8} (h : Trailers trailers)
    (further : List UInt8) :
    scan (stepBody limit) seen ⟨.trailer, 0, data⟩ (trailers ++ further) =
      .stopped (seen ++ trailers) (.done data) further := by
  induction h generalizing seen with
  | stop heol =>
      obtain rfl | rfl := heol
      · exact scan_cons_stop _ rfl
      · refine (scan_cons_more _ rfl).trans ?_
        refine (scan_cons_stop _ rfl).trans ?_
        simp
  | line hne htext heol hrest ih =>
      rename_i text eol rest
      rw [← List.append_assoc, List.append_assoc,
        passes_trailerLine hne htext heol, ih]
      simp

/-- A size of the data that the limit allows. -/
def Within (limit n : ℕ) : Prop :=
  limit = 0 ∨ n ≤ limit

theorem exceeds_iff (limit n : ℕ) (data : List UInt8) :
    exceeds limit ⟨.chunkData, n, data⟩ ↔ ¬Within limit (data.length + n) := by
  rw [exceeds, Within, not_or, Nat.not_le]

theorem passes_chunkLine {n : ℕ} {digits ext eol : List UInt8}
    (hdigits : IsHex digits n) (hpos : n ≠ 0) (hfits : n ≤ maxOff / 16)
    (hext : IsExtension ext) (heol : IsLineEnd eol) :
    Passes (stepBody limit) ⟨.chunkStart, 0, data⟩ (digits ++ (ext ++ eol))
      ⟨.chunkData, n, data⟩ :=
  (passes_hex hdigits hfits).trans
    (passes_sizeLine (sizeLine_chunk hfits hpos) hext heol)

/-- The machine on an encoding that the limit allows comes to its end. -/
theorem scan_encodes {chunks : List (List UInt8)} {enc : List UInt8}
    (h : Encodes chunks enc) (seen further : List UInt8)
    (hlimit : Within limit (data.length + chunks.flatten.length)) :
    scan (stepBody limit) seen ⟨.chunkStart, 0, data⟩ (enc ++ further) =
      .stopped (seen ++ enc) (.done (data ++ chunks.flatten)) further := by
  induction h generalizing seen data with
  | last hdigits hext heol htrailers =>
      rename_i digits ext eol trailers
      have hline : Passes (stepBody limit) ⟨.chunkStart, 0, data⟩
          (digits ++ (ext ++ eol)) ⟨.trailer, 0, data⟩ :=
        (passes_hex hdigits (Nat.zero_le _)).trans
          (passes_sizeLine sizeLine_last hext heol)
      have hsplit : digits ++ (ext ++ (eol ++ trailers)) ++ further =
          (digits ++ (ext ++ eol)) ++ (trailers ++ further) := by
        simp
      rw [hsplit, hline, scan_trailers htrailers]
      simp
  | chunk hdigits hne hfits hext heol heol' hrest ih =>
      rename_i digits ext eol chunk eol' rest chunks
      rw [List.flatten_cons, List.length_append] at hlimit
      have hpos : chunk.length ≠ 0 := by simpa using hne
      have hexceeds : ¬exceeds limit ⟨.chunkData, chunk.length, data⟩ := by
        rw [exceeds_iff, not_not]
        exact hlimit.imp_right fun h => by omega
      have hchunk : Passes (stepBody limit) ⟨.chunkStart, 0, data⟩
          (digits ++ (ext ++ eol) ++ chunk ++ eol')
          ⟨.chunkStart, 0, data ++ chunk⟩ :=
        ((passes_chunkLine hdigits hpos hfits hext heol).trans
          (passes_data hne hexceeds)).trans (passes_afterData heol')
      have hsplit : digits ++ (ext ++ (eol ++ (chunk ++ (eol' ++ rest)))) ++
          further = (digits ++ (ext ++ eol) ++ chunk ++ eol') ++
            (rest ++ further) := by
        simp
      rw [hsplit, hchunk, ih]
      · simp
      · rw [List.length_append]
        exact hlimit.imp_right fun h => by omega

/-- The machine on an encoding that the limit does not allow stops. -/
theorem scan_encodes_tooLarge {chunks : List (List UInt8)} {enc : List UInt8}
    (h : Encodes chunks enc) (seen further : List UInt8)
    (hdata : Within limit data.length)
    (hlimit : ¬Within limit (data.length + chunks.flatten.length)) :
    ∃ seen' rest,
      scan (stepBody limit) seen ⟨.chunkStart, 0, data⟩ (enc ++ further) =
        .stopped seen' .tooLarge rest := by
  induction h generalizing seen data with
  | last => exact absurd (by simpa using hdata) hlimit
  | chunk hdigits hne hfits hext heol heol' hrest ih =>
      rename_i digits ext eol chunk eol' rest chunks
      rw [List.flatten_cons, List.length_append] at hlimit
      have hpos : chunk.length ≠ 0 := by simpa using hne
      have hline : Passes (stepBody limit) ⟨.chunkStart, 0, data⟩
          (digits ++ (ext ++ eol)) ⟨.chunkData, chunk.length, data⟩ :=
        passes_chunkLine hdigits hpos hfits hext heol
      have hsplit : digits ++ (ext ++ (eol ++ (chunk ++ (eol' ++ rest)))) ++
          further = (digits ++ (ext ++ eol)) ++ (chunk ++ (eol' ++ (rest ++
            further))) := by
        simp
      rw [hsplit, hline]
      by_cases hexceeds : exceeds limit ⟨.chunkData, chunk.length, data⟩
      · obtain ⟨ch, tail, rfl⟩ := List.exists_cons_of_ne_nil hne
        exact ⟨_, _, scan_cons_stop _ (if_pos hexceeds)⟩
      · rw [passes_data hne hexceeds, passes_afterData heol']
        apply ih
        · rw [exceeds_iff, not_not] at hexceeds
          rw [List.length_append]
          exact hexceeds
        · rw [List.length_append, Nat.add_assoc]
          exact hlimit

end Accepts

/-! ## One byte of an accepted body -/

/-- The machine goes on behind a byte of the framing or of a chunk. -/
theorem stepBody_more {limit : ℕ} {seen : List UInt8} {ch : UInt8}
    {s s' : BodyState} (h : stepBody limit seen ch s = .more s') :
    (∃ state size, stepChunked ch s.size s.state = .next state size ∧
      s' = { s with state := state, size := size }) ∨
    (stepChunked ch s.size s.state = .data ∧ s' = takeData ch s) := by
  rw [stepBody] at h
  cases hstep : stepChunked ch s.size s.state with
  | next state size =>
      simp only [hstep] at h
      exact .inl ⟨state, size, rfl, (Verdict.more.inj h).symm⟩
  | data =>
      simp only [hstep] at h
      split at h
      · cases h
      · exact .inr ⟨rfl, (Verdict.more.inj h).symm⟩
  | done => simp only [hstep] at h; cases h
  | invalid => simp only [hstep] at h; cases h

/-- The first byte of an accepted body: the machine goes on, or it is the last
one. -/
theorem scan_cons_done {limit : ℕ} {seen seen' w rest d : List UInt8} {ch : UInt8}
    {s : BodyState}
    (h : scan (stepBody limit) seen s (ch :: w) =
      .stopped seen' (.done d) rest) :
    (∃ s', stepBody limit seen ch s = .more s' ∧
      scan (stepBody limit) (seen ++ [ch]) s' w = .stopped seen' (.done d) rest) ∨
    (stepChunked ch s.size s.state = .done ∧ w = rest) := by
  cases hstep : stepBody limit seen ch s with
  | more s' =>
      rw [scan_cons_more w hstep] at h
      exact .inl ⟨s', rfl, h⟩
  | stop e =>
      rw [scan_cons_stop w hstep] at h
      cases h
      right
      refine ⟨?_, rfl⟩
      rw [stepBody] at hstep
      cases hch : stepChunked ch s.size s.state with
      | done => rfl
      | next state size => simp only [hch] at hstep; cases hstep
      | invalid => simp only [hch] at hstep; cases hstep
      | data =>
          simp only [hch] at hstep
          split at hstep
          · cases hstep
          · cases hstep

/-! ## The machine accepts nothing else -/

/-- A line end and a rest behind it. -/
def LineThen (P : List UInt8 → Prop) (w : List UInt8) : Prop :=
  ∃ eol rest, w = eol ++ rest ∧ IsLineEnd eol ∧ P rest

/-- A line feed and a rest behind it. -/
def FeedThen (P : List UInt8 → Prop) (w : List UInt8) : Prop :=
  ∃ rest, w = lf :: rest ∧ P rest

/-- The end of a line and a rest behind it. -/
def TextThen (P : List UInt8 → Prop) (w : List UInt8) : Prop :=
  ∃ text rest, w = text ++ rest ∧ IsText text ∧ LineThen P rest

def Encoded (w : List UInt8) : Prop :=
  ∃ chunks, Encodes chunks w

def DataThen (n : ℕ) (w : List UInt8) : Prop :=
  ∃ data rest, w = data ++ rest ∧ data.length = n ∧ LineThen Encoded rest

/-- What follows the line of a size. -/
def AfterSize (n : ℕ) (w : List UInt8) : Prop :=
  if n = 0 then Trailers w else DataThen n w

/-- The digits of a size, the end of its line and what follows. -/
def SizeThen (n : ℕ) (w : List UInt8) : Prop :=
  ∃ digits ext rest m, w = digits ++ (ext ++ rest) ∧ readHex n digits = some m ∧
    m ≤ maxOff / 16 ∧ IsExtension ext ∧ LineThen (AfterSize m) rest

/-- What may follow in a state. -/
def Residual : ChunkedState → ℕ → List UInt8 → Prop
  | .chunkStart, _ => Encoded
  | .chunkSize, n => SizeThen n
  | .chunkExtension, n => TextThen (AfterSize n)
  | .chunkExtensionAlmostDone, n => FeedThen (AfterSize n)
  | .chunkData, n => DataThen n
  | .afterData, _ => LineThen Encoded
  | .afterDataAlmostDone, _ => FeedThen Encoded
  | .lastChunkExtension, _ => TextThen Trailers
  | .lastChunkExtensionAlmostDone, _ => FeedThen Trailers
  | .trailer, _ => Trailers
  | .trailerAlmostDone, _ => (· = [lf])
  | .trailerHeader, _ => TextThen Trailers
  | .trailerHeaderAlmostDone, _ => FeedThen Trailers

section Residual

variable {P : List UInt8 → Prop} {w : List UInt8}

theorem LineThen.feed (h : P w) : LineThen P (lf :: w) :=
  ⟨[lf], w, rfl, .inl rfl, h⟩

theorem LineThen.return (h : FeedThen P w) : LineThen P (cr :: w) := by
  obtain ⟨rest, rfl, hrest⟩ := h
  exact ⟨[cr, lf], rest, rfl, .inr rfl, hrest⟩

theorem TextThen.stop (h : LineThen P w) : TextThen P w :=
  ⟨[], w, rfl, by simp [IsText], h⟩

theorem TextThen.cons {ch : UInt8} (hcr : ch ≠ cr) (hlf : ch ≠ lf)
    (h : TextThen P w) : TextThen P (ch :: w) := by
  obtain ⟨text, rest, rfl, htext, hrest⟩ := h
  refine ⟨ch :: text, rest, rfl, ?_, hrest⟩
  intro c hc
  obtain rfl | hc := List.mem_cons.mp hc
  · exact ⟨hcr, hlf⟩
  · exact htext c hc

/-- A byte of a line in which the machine stays. -/
theorem TextThen.step {ch : UInt8} {n m : ℕ} {inside almost done s' : ChunkedState}
    (hstep : lineEnd almost done (.next inside n) ch n = .next s' m)
    (hinside : Residual inside n = TextThen P)
    (halmost : Residual almost n = FeedThen P)
    (hdone : Residual done n = P)
    (h : Residual s' m w) : TextThen P (ch :: w) := by
  rw [lineEnd] at hstep
  by_cases hcr : ch = cr
  · subst hcr
    cases hstep
    rw [halmost] at h
    exact TextThen.stop (LineThen.return h)
  rw [if_neg hcr] at hstep
  by_cases hlf : ch = lf
  · subst hlf
    cases hstep
    rw [hdone] at h
    exact TextThen.stop (LineThen.feed h)
  rw [if_neg hlf] at hstep
  cases hstep
  rw [hinside] at h
  exact TextThen.cons hcr hlf h

theorem FeedThen.step {ch : UInt8} {n m : ℕ} {done s' : ChunkedState}
    (hstep : lineFeed done ch n = .next s' m) (hdone : Residual done n = P)
    (h : Residual s' m w) : FeedThen P (ch :: w) := by
  rw [lineFeed] at hstep
  by_cases hlf : ch = lf
  · subst hlf
    cases hstep
    rw [hdone] at h
    exact ⟨w, rfl, h⟩
  · rw [if_neg hlf] at hstep
    cases hstep

theorem SizeThen.digit {ch : UInt8} {n d : ℕ} (hd : hexValue ch = some d)
    (h : SizeThen (n * 16 + d) w) : SizeThen n (ch :: w) := by
  obtain ⟨digits, ext, rest, m, rfl, hread, hm, hext, hrest⟩ := h
  refine ⟨ch :: digits, ext, rest, m, rfl, ?_, hm, hext, hrest⟩
  rw [readHex, hd]
  exact hread

theorem SizeThen.step {ch : UInt8} {n m : ℕ} {inside almost done s' : ChunkedState}
    (hn : n ≤ maxOff / 16)
    (hstep : sizeEnd almost done inside ch n = .next s' m)
    (hinside : Residual inside n = TextThen (AfterSize n))
    (halmost : Residual almost n = FeedThen (AfterSize n))
    (hdone : Residual done n = AfterSize n)
    (h : Residual s' m w) : SizeThen n (ch :: w) := by
  have hend (hrest : LineThen (AfterSize n) (ch :: w)) : SizeThen n (ch :: w) :=
    ⟨[], [], ch :: w, n, rfl, rfl, hn, .inl rfl, hrest⟩
  rw [sizeEnd, lineEnd] at hstep
  by_cases hcr : ch = cr
  · subst hcr
    cases hstep
    rw [halmost] at h
    exact hend (LineThen.return h)
  rw [if_neg hcr] at hstep
  by_cases hlf : ch = lf
  · subst hlf
    cases hstep
    rw [hdone] at h
    exact hend (LineThen.feed h)
  rw [if_neg hlf] at hstep
  split at hstep
  · rename_i hext
    cases hstep
    rw [hinside] at h
    obtain ⟨text, rest, rfl, htext, hrest⟩ := h
    exact ⟨[], ch :: text, rest, n, rfl, rfl, hn,
      .inr ⟨ch, text, rfl, hext, htext⟩, hrest⟩
  · cases hstep

theorem SizeThen.encoded {ch : UInt8} {d : ℕ} (hd : hexValue ch = some d)
    (h : SizeThen d w) : Encoded (ch :: w) := by
  obtain ⟨digits, ext, rest, m, rfl, hread, hm, hext, eol, after, rfl, heol,
    hafter⟩ := h
  have hhex : IsHex (ch :: digits) m := by
    refine ⟨by simp, ?_⟩
    rw [readHex, hd]
    simpa using hread
  rw [AfterSize] at hafter
  by_cases hzero : m = 0
  · rw [if_pos hzero] at hafter
    subst hzero
    exact ⟨[], .last hhex hext heol hafter⟩
  · rw [if_neg hzero] at hafter
    obtain ⟨data, rest, rfl, rfl, eol', rest', rfl, heol', chunks, hchunks⟩ :=
      hafter
    refine ⟨data :: chunks, .chunk hhex ?_ hm hext heol heol' hchunks⟩
    rintro rfl
    exact hzero rfl

theorem residual_chunkData {n : ℕ} (hn : 0 < n) :
    Residual .chunkData n = AfterSize n := by
  funext w
  rw [AfterSize, if_neg (Nat.ne_of_gt hn)]
  rfl

theorem residual_trailer : Residual .trailer 0 = AfterSize 0 := rfl

/-- A byte of the framing. -/
theorem residual_next {ch : UInt8} {state s' : ChunkedState} {n m : ℕ}
    (hok : SizeOk state n) (hstep : stepChunked ch n state = .next s' m)
    (h : Residual s' m w) : Residual state n (ch :: w) := by
  cases state with
  | chunkStart =>
      rw [stepChunked] at hstep
      cases hd : hexDigit ch with
      | none => rw [hd] at hstep; cases hstep
      | some d =>
          rw [hd] at hstep
          cases hstep
          have hvalue : hexValue ch = some d.toNat := by
            rw [← hexDigit_toNat, hd]
            rfl
          exact SizeThen.encoded hvalue h
  | chunkSize =>
      rw [stepChunked] at hstep
      by_cases hbig : maxOff / 16 < n
      · rw [if_pos hbig] at hstep
        cases hstep
      have hn : n ≤ maxOff / 16 := Nat.le_of_not_lt hbig
      rw [if_neg hbig] at hstep
      cases hd : hexDigit ch with
      | some d =>
          rw [hd] at hstep
          cases hstep
          have hvalue : hexValue ch = some d.toNat := by
            rw [← hexDigit_toNat, hd]
            rfl
          exact SizeThen.digit hvalue h
      | none =>
          simp only [hd] at hstep
          by_cases hzero : n = 0
          · rw [if_pos hzero] at hstep
            subst hzero
            exact SizeThen.step hn hstep rfl rfl residual_trailer h
          · rw [if_neg hzero] at hstep
            exact SizeThen.step hn hstep rfl rfl
              (residual_chunkData (Nat.pos_of_ne_zero hzero)) h
  | chunkExtension =>
      exact TextThen.step hstep rfl rfl
        (residual_chunkData (hok.ext (.inl rfl))) h
  | chunkExtensionAlmostDone =>
      exact FeedThen.step hstep (residual_chunkData (hok.ext (.inr rfl))) h
  | chunkData => cases hstep
  | afterData =>
      rw [stepChunked, lineEnd] at hstep
      by_cases hcr : ch = cr
      · subst hcr
        cases hstep
        exact LineThen.return h
      by_cases hlf : ch = lf
      · subst hlf
        cases hstep
        exact LineThen.feed h
      · rw [if_neg hcr, if_neg hlf] at hstep
        cases hstep
  | afterDataAlmostDone => exact FeedThen.step hstep rfl h
  | lastChunkExtension => exact TextThen.step hstep rfl rfl rfl h
  | lastChunkExtensionAlmostDone => exact FeedThen.step hstep rfl h
  | trailer =>
      rw [stepChunked] at hstep
      by_cases hcr : ch = cr
      · subst hcr
        cases hstep
        obtain rfl : w = [lf] := h
        exact .stop (.inr rfl)
      rw [if_neg hcr] at hstep
      by_cases hlf : ch = lf
      · rw [if_pos hlf] at hstep
        cases hstep
      rw [if_neg hlf] at hstep
      cases hstep
      obtain ⟨text, rest, rfl, htext, eol, rest, rfl, heol, hrest⟩ :
          TextThen Trailers w := h
      have htext' : IsText (ch :: text) := by
        intro c hc
        obtain rfl | hc := List.mem_cons.mp hc
        · exact ⟨hcr, hlf⟩
        · exact htext c hc
      exact Trailers.line (by simp) htext' heol hrest
  | trailerAlmostDone =>
      rw [stepChunked] at hstep
      split at hstep
      · cases hstep
      · cases hstep
  | trailerHeader => exact TextThen.step hstep rfl rfl rfl h
  | trailerHeaderAlmostDone => exact FeedThen.step hstep rfl h

theorem residual_data {ch : UInt8} {s : BodyState} (hstate : s.state = .chunkData)
    (hpos : 0 < s.size)
    (h : Residual (takeData ch s).state (takeData ch s).size w) :
    Residual s.state s.size (ch :: w) := by
  rw [hstate]
  rw [takeData] at h
  by_cases hone : s.size = 1
  · simp only [if_pos hone] at h
    exact ⟨[ch], w, rfl, hone.symm, h⟩
  · simp only [if_neg hone] at h
    obtain ⟨data, rest, rfl, hdata, hrest⟩ : DataThen (s.size - 1) w := h
    refine ⟨ch :: data, rest, rfl, ?_, hrest⟩
    rw [List.length_cons, hdata]
    omega

/-- The last byte of an encoding. -/
theorem residual_done {ch : UInt8} {state : ChunkedState} {n : ℕ}
    (hstep : stepChunked ch n state = .done) : Residual state n [ch] := by
  cases state with
  | trailer =>
      rw [stepChunked] at hstep
      split at hstep
      · cases hstep
      · split at hstep
        · rename_i hlf
          exact .stop (.inl (by rw [hlf]))
        · cases hstep
  | trailerAlmostDone =>
      rw [stepChunked] at hstep
      split at hstep
      · rename_i hlf
        exact congrArg (· :: []) hlf
      · cases hstep
  | _ =>
      simp only [stepChunked, sizeEnd, lineEnd, lineFeed] at hstep
      repeat' split at hstep
      all_goals cases hstep

/-- What the machine reads up to its end. -/
theorem residual_of_scan {limit : ℕ} {seen seen' d : List UInt8} {s : BodyState}
    (hok : SizeOk s.state s.size)
    (h : scan (stepBody limit) seen s w = .stopped seen' (.done d) []) :
    Residual s.state s.size w := by
  induction w generalizing seen s with
  | nil => cases h
  | cons ch w ih =>
      obtain ⟨s', hmore, hrest⟩ | ⟨hdone, rfl⟩ := scan_cons_done h
      · have hresidual := ih (hok.step hmore) hrest
        obtain ⟨state, size, hnext, rfl⟩ | ⟨hdata, rfl⟩ := stepBody_more hmore
        · exact residual_next hok hnext hresidual
        · have hstate := state_of_data hdata
          exact residual_data hstate (hok.pos hstate) hresidual
      · exact residual_done hdone

end Residual

/-! ## The length the machine asks for -/

/-- A byte of the framing brings the end nearer by one at most. -/
theorem chunkedLength_next {state state' : ChunkedState} {size size' : ℕ}
    {ch : UInt8} (h : stepChunked ch size state = .next state' size') :
    chunkedLength size state ≤ chunkedLength size' state' + 1 := by
  cases state with
  | _ =>
      simp only [stepChunked, sizeEnd, lineEnd, lineFeed] at h
      repeat' split at h
      all_goals cases h
      all_goals simp only [chunkedLength]
      all_goals repeat' split
      all_goals omega

theorem chunkedLength_data {ch : UInt8} {s : BodyState}
    (hstate : s.state = .chunkData) (hpos : 0 < s.size) :
    chunkedLength s.size s.state ≤
      chunkedLength (takeData ch s).size (takeData ch s).state + 1 := by
  rw [hstate, takeData]
  by_cases hone : s.size = 1
  · simp only [if_pos hone, chunkedLength]
    omega
  · simp only [if_neg hone, chunkedLength]
    omega

theorem chunkedLength_done {state : ChunkedState} {size : ℕ} {ch : UInt8}
    (h : stepChunked ch size state = .done) : chunkedLength size state = 1 := by
  cases state with
  | trailer => rfl
  | trailerAlmostDone => rfl
  | _ =>
      simp only [stepChunked, sizeEnd, lineEnd, lineFeed] at h
      repeat' split at h
      all_goals cases h

/-- No end comes before the length the machine asks for. -/
theorem chunkedLength_le {limit : ℕ} {seen seen' w d : List UInt8}
    {s : BodyState} (hs : SizeOk s.state s.size)
    (h : scan (stepBody limit) seen s w = .stopped seen' (.done d) []) :
    chunkedLength s.size s.state ≤ w.length := by
  induction w generalizing seen s with
  | nil => cases h
  | cons ch w ih =>
      rw [List.length_cons]
      obtain ⟨s', hmore, hrest⟩ | ⟨hdone, rfl⟩ := scan_cons_done h
      · have hlen := ih (hs.step hmore) hrest
        obtain ⟨state, size, hnext, rfl⟩ | ⟨hdata, rfl⟩ := stepBody_more hmore
        · exact (chunkedLength_next hnext).trans (Nat.succ_le_succ hlen)
        · have hstate := state_of_data hdata
          exact (chunkedLength_data hstate (hs.pos hstate)).trans
            (Nat.succ_le_succ hlen)
      · rw [chunkedLength_done hdone]
        exact Nat.le_add_left 1 _

/-- Without a limit the machine comes to its end behind `w`. -/
def Finishes (s : BodyState) (w : List UInt8) : Prop :=
  ∀ seen, ∃ seen' d, scan (stepBody 0) seen s w = .stopped seen' (.done d) []

theorem Finishes.pass {s s' : BodyState} {xs w : List UInt8}
    (hpass : Passes (stepBody 0) s xs s') (h : Finishes s' w) :
    Finishes s (xs ++ w) := by
  intro seen
  rw [hpass]
  exact h _

theorem Finishes.next {s : BodyState} {state : ChunkedState} {size : ℕ}
    {ch : UInt8} {w : List UInt8}
    (hnext : stepChunked ch s.size s.state = .next state size)
    (h : Finishes ⟨state, size, s.data⟩ w) : Finishes s (ch :: w) :=
  Finishes.pass (Passes.single (stepBody_next hnext)) h

theorem Finishes.done {s : BodyState} {ch : UInt8}
    (h : stepChunked ch s.size s.state = .done) : Finishes s [ch] := by
  intro seen
  refine ⟨_, s.data, scan_cons_stop [] ?_⟩
  rw [stepBody, h]

/-- The shortest end behind a size that is not 0, from the data on. -/
def dataEnd (size : ℕ) : List UInt8 :=
  List.replicate size 0 ++ [lf, byte '0', lf, lf]

def shortestEnd (size : ℕ) : ChunkedState → List UInt8
  | .chunkStart => [byte '0', lf, lf]
  | .chunkSize => lf :: if size = 0 then [lf] else dataEnd size
  | .chunkExtension => lf :: dataEnd size
  | .chunkExtensionAlmostDone => lf :: dataEnd size
  | .chunkData => dataEnd size
  | .afterData => [lf, byte '0', lf, lf]
  | .afterDataAlmostDone => [lf, byte '0', lf, lf]
  | .lastChunkExtension => [lf, lf]
  | .lastChunkExtensionAlmostDone => [lf, lf]
  | .trailer => [lf]
  | .trailerAlmostDone => [lf]
  | .trailerHeader => [lf, lf]
  | .trailerHeaderAlmostDone => [lf, lf]

theorem shortestEnd_length (size : ℕ) (state : ChunkedState) :
    (shortestEnd size state).length = chunkedLength size state := by
  have hdata : (dataEnd size).length = size + 4 := by simp [dataEnd]
  cases state with
  | chunkSize =>
      simp only [shortestEnd, chunkedLength, List.length_cons, apply_ite, hdata]
      split
      · rfl
      · omega
  | chunkExtension =>
      simp only [shortestEnd, chunkedLength, List.length_cons, hdata]
      omega
  | chunkExtensionAlmostDone =>
      simp only [shortestEnd, chunkedLength, List.length_cons, hdata]
      omega
  | chunkData => exact hdata
  | _ => rfl

section Shortest

variable {size : ℕ} {data : List UInt8}

theorem finishes_trailer : Finishes ⟨.trailer, size, data⟩ [lf] :=
  Finishes.done rfl

theorem finishes_chunkStart :
    Finishes ⟨.chunkStart, size, data⟩ [byte '0', lf, lf] := by
  have hzero : stepChunked (byte '0') size .chunkStart = .next .chunkSize 0 := rfl
  refine Finishes.next hzero ?_
  exact Finishes.next (sizeLine_last.digits lf rfl) finishes_trailer

theorem finishes_afterData :
    Finishes ⟨.afterData, size, data⟩ [lf, byte '0', lf, lf] :=
  Finishes.next rfl finishes_chunkStart

theorem finishes_chunkData (hpos : 0 < size) :
    Finishes ⟨.chunkData, size, data⟩ (dataEnd size) := by
  have hne : List.replicate size (0 : UInt8) ≠ [] := by
    simpa using Nat.ne_of_gt hpos
  have hpass := @passes_data 0 data _ hne (fun h => h.1 rfl)
  rw [List.length_replicate] at hpass
  exact Finishes.pass hpass finishes_afterData

/-- The machine comes to its end behind the length it asks for. -/
theorem finishes_shortestEnd {state : ChunkedState} (hs : SizeOk state size)
    (hsize : size ≤ maxOff / 16) :
    Finishes ⟨state, size, data⟩ (shortestEnd size state) := by
  cases state with
  | chunkStart => exact finishes_chunkStart
  | chunkSize =>
      rw [shortestEnd]
      by_cases hzero : size = 0
      · rw [if_pos hzero, hzero]
        exact Finishes.next (sizeLine_last.digits lf rfl) finishes_trailer
      · rw [if_neg hzero]
        exact Finishes.next ((sizeLine_chunk hsize hzero).digits lf rfl)
          (finishes_chunkData (Nat.pos_of_ne_zero hzero))
  | chunkExtension =>
      exact Finishes.next rfl (finishes_chunkData (hs.ext (.inl rfl)))
  | chunkExtensionAlmostDone =>
      exact Finishes.next rfl (finishes_chunkData (hs.ext (.inr rfl)))
  | chunkData => exact finishes_chunkData (hs.pos rfl)
  | afterData => exact finishes_afterData
  | afterDataAlmostDone => exact Finishes.next rfl finishes_chunkStart
  | trailer => exact finishes_trailer
  | trailerAlmostDone => exact Finishes.done rfl
  | _ => exact Finishes.next rfl finishes_trailer

end Shortest

/-- The machine with a limit reads as the one without. -/
theorem scan_again_unlimited {limit : ℕ} {seen w : List UInt8} {s s' : BodyState}
    (h : scan (stepBody limit) seen s w = .again s') :
    scan (stepBody 0) seen s w = .again s' := by
  induction w generalizing seen s with
  | nil => exact h
  | cons ch w ih =>
      cases hstep : stepBody limit seen ch s with
      | stop e =>
          rw [scan_cons_stop w hstep] at h
          cases h
      | more s₁ =>
          have hmore : stepBody 0 seen ch s = .more s₁ := by
            obtain ⟨state, size, hnext, rfl⟩ | ⟨hdata, rfl⟩ := stepBody_more hstep
            · exact stepBody_next hnext seen
            · rw [stepBody, hdata]
              exact if_neg fun hexceeds => hexceeds.1 rfl
          rw [scan_cons_more w hstep] at h
          rw [scan_cons_more w hmore]
          exact ih h

theorem encoded_append_iff {before w : List UInt8} {s : BodyState}
    (h : scan (stepBody 0) [] .new before = .again s) :
    Encoded (before ++ w) ↔
      ∃ seen d, scan (stepBody 0) before s w = .stopped seen (.done d) [] := by
  have happend := scan_append_again w h
  rw [List.nil_append] at happend
  constructor
  · rintro ⟨chunks, henc⟩
    have hscan := @scan_encodes 0 [] chunks _ henc [] [] (.inl rfl)
    rw [List.append_nil] at hscan
    exact ⟨_, _, happend.symm.trans hscan⟩
  · rintro ⟨seen, d, hscan⟩
    exact residual_of_scan bodyHolds_new.size (happend.trans hscan)

theorem isLeast_chunkedLength {before : List UInt8} {s : BodyState}
    (h : scan (stepBody 0) [] .new before = .again s)
    (hsize : s.size ≤ maxOff / 16) :
    IsLeast {n | ∃ w, w.length = n ∧ Encoded (before ++ w)}
      (chunkedLength s.size s.state) := by
  have hs : SizeOk s.state s.size := scan_sizeOk bodyHolds_new.size h
  constructor
  · refine ⟨shortestEnd s.size s.state, shortestEnd_length _ _, ?_⟩
    rw [encoded_append_iff h]
    exact finishes_shortestEnd hs hsize before
  · rintro n ⟨w, rfl, hencoded⟩
    obtain ⟨seen, d, hscan⟩ := (encoded_append_iff h).mp hencoded
    exact chunkedLength_le hs hscan

/-! ## Every cut of an encoding -/

section Cuts

variable {conf : BodyConf} {chunks : List (List UInt8)} {enc further : List UInt8}
  {inputs : List (List UInt8)}

theorem feedBody_within (h : Encodes chunks enc)
    (hcut : inputs.flatten = enc ++ further)
    (hlimit : Within conf.clientMaxBodySize chunks.flatten.length) :
    ∃ r, feedBody conf .new inputs = .ok r ∧
      FeedEnds [] chunks.flatten further r := by
  have hscan := @scan_encodes conf.clientMaxBodySize [] _ _ h [] further
    (by simpa using hlimit)
  rw [List.nil_append, List.nil_append, ← hcut] at hscan
  exact feedBody_done bodyHolds_new hscan

theorem feedBody_not_within (h : Encodes chunks enc)
    (hcut : inputs.flatten = enc ++ further)
    (hlimit : ¬Within conf.clientMaxBodySize chunks.flatten.length) :
    feedBody conf .new inputs = .error .tooLarge := by
  obtain ⟨seen, rest, hscan⟩ :=
    @scan_encodes_tooLarge conf.clientMaxBodySize [] _ _ h [] further
      (.inr (Nat.zero_le _)) (by simpa using hlimit)
  rw [← hcut] at hscan
  exact feedBody_tooLarge bodyHolds_new hscan

/-- Without a limit the machine has come to its end behind an encoding. -/
theorem scan_prefix_again {before after : List UInt8} {s : BodyState}
    (h : Encodes chunks enc) (hcut : before ++ after = enc ++ further)
    (hscan : scan (stepBody 0) [] .new before = .again s) :
    ∃ w seen d, scan (stepBody 0) before s w = .stopped seen (.done d) [] := by
  obtain ⟨extra, rfl, -⟩ | ⟨w, rfl, -⟩ := List.append_eq_append_iff.mp hcut
  · exact ⟨extra, (encoded_append_iff hscan).mp ⟨chunks, h⟩⟩
  · have hend := @scan_encodes 0 [] _ _ h [] w (.inl rfl)
    cases hend.symm.trans hscan

/-- Up to the end of an encoding the filter asks for the least length. -/
theorem feedBody_length {before after : List (List UInt8)} {r : FeedResult}
    (h : Encodes chunks enc)
    (hcut : before.flatten ++ after.flatten = enc ++ further)
    (hne : before ≠ []) (hr : feedBody conf .new before = .ok r)
    (hrest : r.body.rest ≠ 0) :
    IsLeast {n | ∃ w, w.length = n ∧ Encoded (before.flatten ++ w)}
      r.body.chunked.length := by
  cases hscan : scan (stepBody conf.clientMaxBodySize) [] .new before.flatten with
  | again s =>
      have hfree := scan_again_unlimited hscan
      obtain ⟨w, seen, d, hend⟩ := scan_prefix_again h hcut hfree
      have hs : SizeOk s.state s.size := scan_sizeOk bodyHolds_new.size hfree
      have hsize := size_le_of_stopped hs hend nofun
      obtain ⟨r', hr', -, hlength⟩ := feedBody_again bodyHolds_new hne hsize hscan
      obtain rfl : r = r' := Except.ok.inj (hr.symm.trans hr')
      rw [hlength]
      exact isLeast_chunkedLength hfree hsize
  | stopped seen e rest =>
      exfalso
      have hwhole := scan_append_stopped after.flatten hscan
      rw [hcut] at hwhole
      by_cases hlimit : Within conf.clientMaxBodySize chunks.flatten.length
      · have hend := @scan_encodes conf.clientMaxBodySize [] _ _ h [] further
          (by simpa using hlimit)
        cases hend.symm.trans hwhole
        obtain ⟨r', hr', hends⟩ := feedBody_done bodyHolds_new hscan
        obtain rfl : r = r' := Except.ok.inj (hr.symm.trans hr')
        exact hrest hends.rest
      · obtain ⟨seen', rest', hend⟩ :=
          @scan_encodes_tooLarge conf.clientMaxBodySize [] _ _ h [] further
            (.inr (Nat.zero_le _)) (by simpa using hlimit)
        cases hend.symm.trans hwhole
        cases hr.symm.trans (feedBody_tooLarge bodyHolds_new hscan)

end Cuts

/-- Every encoding of chunks, cut into buffers in any way, is decoded to the data
of the chunks or rejected for its size, and the length asked for on the way is
the least one with which the body can end. -/
theorem chunked_body_decodes (conf : BodyConf) (chunks : List (List UInt8))
    (enc further : List UInt8) (inputs : List (List UInt8))
    (h : Encodes chunks enc) (hcut : inputs.flatten = enc ++ further) :
    (∀ r, feedBody conf .new inputs = .ok r →
      r.emitted = chunks.flatten ∧ r.left = further ∧
      (∃ parts, r.out = parts ++ [.lastBuf] ∧ .lastBuf ∉ parts) ∧
      r.body.rest = 0 ∧ r.body.contentLengthN = chunks.flatten.length) ∧
    (∀ e, feedBody conf .new inputs = .error e ↔
      e = .tooLarge ∧ 0 < conf.clientMaxBodySize ∧
        conf.clientMaxBodySize < chunks.flatten.length) ∧
    ∀ before after r, inputs = before ++ after → before ≠ [] →
      feedBody conf .new before = .ok r → r.body.rest ≠ 0 →
      IsLeast {n | ∃ w, w.length = n ∧
        ∃ chunks', Encodes chunks' (before.flatten ++ w)}
        r.body.chunked.length := by
  refine ⟨?_, ?_, ?_⟩
  · intro r hr
    by_cases hlimit : Within conf.clientMaxBodySize chunks.flatten.length
    · obtain ⟨r', hr', hends⟩ := feedBody_within h hcut hlimit
      obtain rfl : r = r' := Except.ok.inj (hr.symm.trans hr')
      exact ⟨hends.emitted.symm, hends.left, hends.last, hends.rest,
        hends.contentLengthN⟩
    · cases hr.symm.trans (feedBody_not_within h hcut hlimit)
  · intro e
    by_cases hlimit : Within conf.clientMaxBodySize chunks.flatten.length
    · obtain ⟨r, hr, -⟩ := feedBody_within h hcut hlimit
      rw [hr, Within] at *
      constructor
      · intro herror
        cases herror
      · intro hlarge
        omega
    · rw [feedBody_not_within h hcut hlimit]
      rw [Within] at hlimit
      constructor
      · intro herror
        cases herror
        exact ⟨rfl, by omega, by omega⟩
      · rintro ⟨rfl, -⟩
        rfl
  · rintro before after r rfl hne hr hrest
    rw [List.flatten_append] at hcut
    exact feedBody_length h hcut hne hr hrest

theorem encodes_oneChunk : Encodes [bytes "A"] (bytes "1;x\r\nA\n0\n\n") := by
  have hlast : Encodes [] (bytes "0" ++ ([] ++ ([lf] ++ [lf]))) :=
    .last ⟨by decide, by decide⟩ (.inl rfl) (.inl rfl) (.stop (.inl rfl))
  have htext : IsText (bytes "x") := by
    intro ch hch
    obtain rfl : ch = byte 'x' := by simpa [bytes] using hch
    decide
  have hext : IsExtension (bytes ";x") :=
    .inr ⟨byte ';', bytes "x", rfl, .inl rfl, htext⟩
  have hchunk : Encodes [bytes "A"] (bytes "1" ++ (bytes ";x" ++ ([cr, lf] ++
      (bytes "A" ++ ([lf] ++ (bytes "0" ++ ([] ++ ([lf] ++ [lf])))))))) :=
    .chunk ⟨by decide, by decide⟩ (by decide) (by decide) hext (.inr rfl) (.inl rfl)
      hlast
  exact hchunk

theorem oneChunk_body_decodes :
    ∃ r, feedBody ⟨1, 8⟩ .new [bytes "1;x\r", bytes "\nA\n0\n\nB"] = .ok r ∧
      r.emitted = bytes "A" ∧ r.left = bytes "B" := by
  have hbody := chunked_body_decodes ⟨1, 8⟩ [bytes "A"]
    (bytes "1;x\r\nA\n0\n\n") (bytes "B")
    [bytes "1;x\r", bytes "\nA\n0\n\nB"] encodes_oneChunk (by decide)
  cases hr : feedBody ⟨1, 8⟩ .new [bytes "1;x\r", bytes "\nA\n0\n\nB"] with
  | ok r =>
      obtain ⟨hemitted, hleft, -⟩ := hbody.1 r hr
      exact ⟨r, rfl, hemitted, hleft⟩
  | error e =>
      obtain ⟨-, -, hlarge⟩ := (hbody.2.1 e).mp hr
      exact absurd hlarge (by decide)

end MultiversionBalancer.Http
