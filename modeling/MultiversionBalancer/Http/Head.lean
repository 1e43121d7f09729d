import MultiversionBalancer.Http.HeaderLine
import Mathlib.Data.List.Induction

/-!
# The request head in pieces

The head of a request arrives in pieces of any sizes.  After each piece the
parsers are called on the bytes that have not been consumed: first
`ngx_http_parse_request_line`, then `ngx_http_parse_header_line` once per
header.  A parser that runs out of bytes stores its state in the request and
is called again with it.

The results and the fields of the request do not depend on the pieces.  A
parser that rejects a byte returns without storing where it is, so `b->pos` and
the stored hash then show where the last piece began.
-/

namespace MultiversionBalancer.Http

open Lib

/-! ## The driver -/

/-- What the next call is for: the request line, a header, or nothing because
the head is complete or was rejected. -/
inductive Phase where
  | requestLine
  | headers
  | complete
  | rejected
  deriving DecidableEq

/-- A result other than `NGX_AGAIN`: the position of `b->pos`, and the fields
and the hash of the request when the parser returned it. -/
structure HeadResult where
  code : ParseCode
  pos : ℕ
  line : RequestLine
  header : HeaderLine
  hash : UInt64
  deriving DecidableEq

/-- A request and its buffer between two pieces: the bytes before and behind
`b->pos`, the fields of the request, the stored `r->state` of the request line,
and the stored state, hash and index of the headers. -/
structure Head where
  seen : List UInt8
  pending : List UInt8
  phase : Phase
  line : RequestLine
  lineState : LineState
  header : HeaderLine
  locals : HeaderLocals
  results : List HeadResult
  deriving DecidableEq

def Head.new : Head where
  seen := []
  pending := []
  phase := .requestLine
  line := .new
  lineState := .start
  header := .new
  locals := { state := .start, hash := 0, index := 0 }
  results := []

/-- Note a result. -/
def Head.record (h : Head) (code : ParseCode) : Head :=
  { h with
    results := h.results ++
      [{ code := code
         pos := h.seen.length
         line := h.line
         header := h.header
         hash := h.locals.hash }] }

/-- The request after a call of `ngx_http_parse_request_line`. -/
def Head.callLine (h : Head) : Head :=
  match scanLine h.seen (h.lineState, h.line) h.pending with
  | .again (s, line) =>
      { h with
        seen := h.seen ++ h.pending
        pending := []
        line := line
        lineState := s }
  | .stopped seen result rest =>
      let h := { h with line := result.line }
      let h := if result.code.consumes then
          { h with seen := seen, pending := rest, lineState := .start }
        else h
      { h.record result.code with
        phase := if result.code = .ok then .headers else .rejected }

/-- The request after a call of `ngx_http_parse_header_line`. -/
def Head.callHeader (conf : HeaderConf) (h : Head) : Head :=
  match scan (stepHeader conf) h.seen (h.locals, h.header) h.pending with
  | .again (l, header) =>
      { h with
        seen := h.seen ++ h.pending
        pending := []
        header := header
        locals := l }
  | .stopped seen result rest =>
      let h := { h with header := result.header }
      match result.code with
      | .ok =>
          Head.record
            { h with
              seen := seen
              pending := rest
              locals := { result.locals with state := .start } } .ok
      | .headerDone =>
          { Head.record
              { h with
                seen := seen
                pending := rest
                locals := { h.locals with state := .start } } .headerDone with
            phase := .complete }
      | .invalidHeader => { h.record .invalidHeader with phase := .rejected }

/-- One call of the parser the request is waiting for. -/
def Head.call (conf : HeaderConf) (h : Head) : Head :=
  match h.phase with
  | .requestLine => h.callLine
  | .headers => h.callHeader conf
  | .complete => h
  | .rejected => h

/-- Call the parsers until they have used up the bytes or the head is over; the
number bounds the calls. -/
def Head.run (conf : HeaderConf) : ℕ → Head → Head
  | 0, h => h
  | n + 1, h => (h.call conf).run conf n

/-- More bytes arrive. -/
def Head.extend (h : Head) (piece : List UInt8) : Head :=
  { h with pending := h.pending ++ piece }

/-- Parse what has arrived; every result but the last one consumes a byte. -/
def Head.parse (conf : HeaderConf) (h : Head) : Head :=
  h.run conf (h.pending.length + 1)

/-- The request after a piece has arrived. -/
def Head.feed (conf : HeaderConf) (h : Head) (piece : List UInt8) : Head :=
  (h.extend piece).parse conf

/-! ## What is observed -/

/-- A result without the position when a byte was rejected, and without the
hash when it does not end a header. -/
structure Observed where
  code : ParseCode
  pos : Option ℕ
  line : RequestLine
  header : HeaderLine
  hash : Option UInt64
  deriving DecidableEq

def HeadResult.observe (r : HeadResult) : Observed where
  code := r.code
  pos := if r.code.consumes then some r.pos else none
  line := r.line
  header := r.header
  hash := if r.code = .ok then some r.hash else none

/-- Two requests that have received the same bytes and observed the same. -/
structure Same (h h' : Head) : Prop where
  phase : h.phase = h'.phase
  line : h.line = h'.line
  header : h.header = h'.header
  results : h.results.map (·.observe) = h'.results.map (·.observe)
  received : h.seen ++ h.pending = h'.seen ++ h'.pending
  pos : h.phase ≠ .rejected → h.seen = h'.seen
  waiting : h.phase = .requestLine ∨ h.phase = .headers → h = h'

theorem Same.refl (h : Head) : Same h h :=
  ⟨rfl, rfl, rfl, rfl, rfl, fun _ => rfl, fun _ => rfl⟩

theorem Same.of_eq {h h' : Head} (heq : h = h') : Same h h' := by
  rw [heq]
  exact Same.refl h'

theorem Same.symm {h h' : Head} (hsame : Same h h') : Same h' h where
  phase := hsame.phase.symm
  line := hsame.line.symm
  header := hsame.header.symm
  results := hsame.results.symm
  received := hsame.received.symm
  pos := by
    rw [← hsame.phase]
    exact fun hne => (hsame.pos hne).symm
  waiting := by
    rw [← hsame.phase]
    exact fun hw => (hsame.waiting hw).symm

theorem Same.trans {h₁ h₂ h₃ : Head} (h : Same h₁ h₂) (h' : Same h₂ h₃) :
    Same h₁ h₃ where
  phase := h.phase.trans h'.phase
  line := h.line.trans h'.line
  header := h.header.trans h'.header
  results := h.results.trans h'.results
  received := h.received.trans h'.received
  pos := by
    intro hne
    have hne' := hne
    rw [h.phase] at hne'
    exact (h.pos hne).trans (h'.pos hne')
  waiting := by
    intro hw
    have hw' := hw
    rw [h.phase] at hw'
    exact (h.waiting hw).trans (h'.waiting hw')

/-! ## Calls -/

/-- How a call treats bytes that come later: it has used its bytes up and the
next call goes on, or it has returned a result and does not look at them. -/
inductive CallCase (conf : HeaderConf) (h : Head) : Prop where
  | again (hempty : (h.call conf).pending = [])
      (hlater : ∀ ys, Same ((h.extend ys).call conf)
        (((h.call conf).extend ys).call conf))
  | stopped (hlater : ∀ ys, (h.extend ys).call conf = (h.call conf).extend ys)
      (hover : (h.call conf).pending.length < h.pending.length ∨
        (h.call conf).phase = .complete ∨ (h.call conf).phase = .rejected)

theorem extend_extend (h : Head) (xs ys : List UInt8) :
    (h.extend xs).extend ys = h.extend (xs ++ ys) := by
  simp [Head.extend]

theorem call_requestLine {conf : HeaderConf} {h : Head}
    (hphase : h.phase = .requestLine) : h.call conf = h.callLine := by
  rw [Head.call, hphase]

theorem call_headers {conf : HeaderConf} {h : Head}
    (hphase : h.phase = .headers) : h.call conf = h.callHeader conf := by
  rw [Head.call, hphase]

theorem call_over {conf : HeaderConf} {h : Head}
    (hphase : h.phase = .complete ∨ h.phase = .rejected) :
    h.call conf = h := by
  rcases hphase with hphase | hphase
  · rw [Head.call, hphase]
  · rw [Head.call, hphase]

theorem not_ok_of_not_consumes {code : ParseCode}
    (h : ¬code.consumes = true) : code ≠ .ok := by
  rintro rfl
  exact h rfl

/-- A rejected request, with the position and the stored variables that the
rejection does not touch. -/
theorem Same.reject {h h' : Head} {code : ParseCode}
    (hcode : ¬code.consumes = true) (hline : h.line = h'.line)
    (hheader : h.header = h'.header)
    (hresults : h.results.map (·.observe) = h'.results.map (·.observe))
    (hreceived : h.seen ++ h.pending = h'.seen ++ h'.pending) :
    Same { h.record code with phase := .rejected }
      { h'.record code with phase := .rejected } where
  phase := rfl
  line := hline
  header := hheader
  results := by
    have hne := not_ok_of_not_consumes hcode
    simp only [Head.record, List.map_append, hresults, List.map_cons,
      List.map_nil]
    simp [HeadResult.observe, hcode, hne, hline, hheader]
  received := hreceived
  pos := fun hrej => absurd rfl hrej
  waiting := by
    rintro (hw | hw)
    · cases hw
    · cases hw

theorem callLine_case {conf : HeaderConf} {h : Head}
    (hphase : h.phase = .requestLine) : CallCase conf h := by
  cases hscan : scanLine h.seen (h.lineState, h.line) h.pending with
  | again s =>
      have hfirst : h.call conf =
          { h with
            seen := h.seen ++ h.pending
            pending := []
            line := s.2
            lineState := s.1 } := by
        rw [call_requestLine hphase, Head.callLine, hscan]
      refine .again (by rw [hfirst]) ?_
      intro ys
      have hnext : ((h.call conf).extend ys).phase = .requestLine := by
        rw [hfirst]
        exact hphase
      have hwhole : (h.extend ys).phase = .requestLine := hphase
      have hleft : scanLine h.seen (h.lineState, h.line) (h.pending ++ ys) =
          scanLine (h.seen ++ h.pending) s ys := scan_append_again ys hscan
      rw [call_requestLine hwhole, call_requestLine hnext, hfirst]
      simp only [Head.callLine, Head.extend, hleft, List.nil_append]
      cases scanLine (h.seen ++ h.pending) s ys with
      | again s' => exact Same.of_eq (by rw [List.append_assoc])
      | stopped seen result rest =>
          dsimp only
          by_cases hcons : result.code.consumes = true
          · exact Same.of_eq (by simp [hcons])
          · have hne := not_ok_of_not_consumes hcons
            simp only [hcons, Bool.false_eq_true, if_false, hne]
            exact Same.reject hcons rfl rfl rfl (by simp)
  | stopped seen result rest =>
      obtain ⟨-, hlen⟩ := scan_stopped_split hscan
      refine .stopped ?_ ?_
      · intro ys
        have hwhole : (h.extend ys).phase = .requestLine := hphase
        have hleft : scanLine h.seen (h.lineState, h.line) (h.pending ++ ys) =
            .stopped seen result (rest ++ ys) := scan_append_stopped ys hscan
        rw [call_requestLine hwhole, call_requestLine hphase]
        simp only [Head.callLine, Head.extend, hleft, hscan]
        by_cases hcons : result.code.consumes = true
        · simp [hcons, Head.record]
        · simp [hcons, Head.record]
      · rw [call_requestLine hphase]
        simp only [Head.callLine, hscan]
        by_cases hcons : result.code.consumes = true
        · left
          simpa [hcons, Head.record] using hlen
        · right
          right
          simp [not_ok_of_not_consumes hcons]

theorem callHeader_case {conf : HeaderConf} {h : Head}
    (hphase : h.phase = .headers) : CallCase conf h := by
  cases hscan : scan (stepHeader conf) h.seen (h.locals, h.header) h.pending with
  | again s =>
      have hfirst : h.call conf =
          { h with
            seen := h.seen ++ h.pending
            pending := []
            header := s.2
            locals := s.1 } := by
        rw [call_headers hphase, Head.callHeader, hscan]
      refine .again (by rw [hfirst]) ?_
      intro ys
      have hnext : ((h.call conf).extend ys).phase = .headers := by
        rw [hfirst]
        exact hphase
      have hwhole : (h.extend ys).phase = .headers := hphase
      have hleft : scan (stepHeader conf) h.seen (h.locals, h.header)
          (h.pending ++ ys) =
            scan (stepHeader conf) (h.seen ++ h.pending) s ys :=
        scan_append_again ys hscan
      rw [call_headers hwhole, call_headers hnext, hfirst]
      simp only [Head.callHeader, Head.extend, hleft, List.nil_append]
      cases scan (stepHeader conf) (h.seen ++ h.pending) s ys with
      | again s' => exact Same.of_eq (by rw [List.append_assoc])
      | stopped seen result rest =>
          obtain ⟨code, header, locals⟩ := result
          cases code with
          | ok => exact Same.refl _
          | headerDone =>
              refine ⟨rfl, rfl, rfl, ?_, rfl, fun _ => rfl, ?_⟩
              · simp [Head.record, HeadResult.observe]
              · rintro (hw | hw)
                · cases hw
                · cases hw
          | invalidHeader => exact Same.reject (by decide) rfl rfl rfl (by simp)
  | stopped seen result rest =>
      obtain ⟨-, hlen⟩ := scan_stopped_split hscan
      refine .stopped ?_ ?_
      · intro ys
        have hwhole : (h.extend ys).phase = .headers := hphase
        have hleft : scan (stepHeader conf) h.seen (h.locals, h.header)
            (h.pending ++ ys) = .stopped seen result (rest ++ ys) :=
          scan_append_stopped ys hscan
        rw [call_headers hwhole, call_headers hphase]
        simp only [Head.callHeader, Head.extend, hleft, hscan]
        obtain ⟨code, header, locals⟩ := result
        cases code with
        | ok => rfl
        | headerDone => rfl
        | invalidHeader => rfl
      · rw [call_headers hphase]
        simp only [Head.callHeader, hscan]
        obtain ⟨code, header, locals⟩ := result
        cases code with
        | ok => exact .inl hlen
        | headerDone => exact .inr (.inl rfl)
        | invalidHeader => exact .inr (.inr rfl)

theorem call_case (conf : HeaderConf) (h : Head) : CallCase conf h := by
  cases hphase : h.phase with
  | requestLine => exact callLine_case hphase
  | headers => exact callHeader_case hphase
  | complete =>
      have hcall : ∀ ys, (h.extend ys).call conf = h.extend ys :=
        fun ys => call_over (.inl hphase)
      have hself : h.call conf = h := call_over (.inl hphase)
      exact .stopped (fun ys => by rw [hcall, hself])
        (.inr (.inl (by rw [hself, hphase])))
  | rejected =>
      have hcall : ∀ ys, (h.extend ys).call conf = h.extend ys :=
        fun ys => call_over (.inr hphase)
      have hself : h.call conf = h := call_over (.inr hphase)
      exact .stopped (fun ys => by rw [hcall, hself])
        (.inr (.inr (by rw [hself, hphase])))

/-! ## Runs -/

theorem run_over {conf : HeaderConf} {h : Head}
    (hphase : h.phase = .complete ∨ h.phase = .rejected) (n : ℕ) :
    h.run conf n = h := by
  induction n with
  | zero => rfl
  | succ n ih => rw [Head.run, call_over hphase, ih]

/-- Without bytes a call changes nothing. -/
theorem call_empty {conf : HeaderConf} {h : Head} (hempty : h.pending = []) :
    h.call conf = h := by
  obtain ⟨seen, pending, phase, line, lineState, header, locals, results⟩ := h
  obtain rfl : pending = [] := hempty
  cases phase with
  | requestLine => simp [Head.call, Head.callLine, scanLine]
  | headers => simp [Head.call, Head.callHeader]
  | complete => rfl
  | rejected => rfl

theorem run_empty {conf : HeaderConf} {h : Head} (hempty : h.pending = [])
    (n : ℕ) : h.run conf n = h := by
  induction n with
  | zero => rfl
  | succ n ih => rw [Head.run, call_empty hempty, ih]

/-- More calls than there are bytes make no difference. -/
theorem run_eq_parse {conf : HeaderConf} {h : Head} {n : ℕ}
    (hn : h.pending.length < n) : h.run conf n = h.parse conf := by
  induction hlen : h.pending.length using Nat.strongRecOn
    generalizing h n with
  | _ len ih =>
      obtain ⟨m, rfl⟩ : ∃ m, n = m + 1 := ⟨n - 1, by omega⟩
      rw [Head.parse, Head.run, Head.run]
      cases call_case conf h with
      | again hempty _ => rw [run_empty hempty, run_empty hempty]
      | stopped _ hover =>
          rcases hover with hless | hover
          · rw [ih _ (by omega) (by omega) rfl, ih _ (by omega) (by omega) rfl]
          · rw [run_over hover, run_over hover]

theorem parse_eq_call {conf : HeaderConf} (h : Head) :
    h.parse conf = (h.call conf).parse conf := by
  rw [Head.parse, Head.run]
  cases call_case conf h with
  | again hempty _ => rw [run_empty hempty, Head.parse, run_empty hempty]
  | stopped _ hover =>
      rcases hover with hless | hover
      · exact run_eq_parse (by omega)
      · rw [run_over hover, Head.parse, run_over hover]

/-- Requests that are the same stay so. -/
theorem Same.parse {conf : HeaderConf} {h h' : Head} (hsame : Same h h') :
    Same (h.parse conf) (h'.parse conf) := by
  cases hphase : h.phase with
  | requestLine => exact Same.of_eq (by rw [hsame.waiting (.inl hphase)])
  | headers => exact Same.of_eq (by rw [hsame.waiting (.inr hphase)])
  | complete =>
      have hphase' := hsame.phase.symm.trans hphase
      rwa [Head.parse, Head.parse, run_over (.inl hphase),
        run_over (.inl hphase')]
  | rejected =>
      have hphase' := hsame.phase.symm.trans hphase
      rwa [Head.parse, Head.parse, run_over (.inr hphase),
        run_over (.inr hphase')]

theorem Same.extend {h h' : Head} (hsame : Same h h') (ys : List UInt8) :
    Same (h.extend ys) (h'.extend ys) where
  phase := hsame.phase
  line := hsame.line
  header := hsame.header
  results := hsame.results
  received := by
    have hreceived := hsame.received
    simp only [Head.extend, ← List.append_assoc, hreceived]
  pos := hsame.pos
  waiting := fun hw => by rw [hsame.waiting hw]

/-- Parsing what has arrived before more arrives changes nothing that is
observed. -/
theorem parse_extend (conf : HeaderConf) (h : Head) (ys : List UInt8) :
    Same ((h.extend ys).parse conf) (((h.parse conf).extend ys).parse conf) := by
  induction hlen : h.pending.length using Nat.strongRecOn
    generalizing h with
  | _ len ih =>
      rw [parse_eq_call h, parse_eq_call (h.extend ys)]
      cases call_case conf h with
      | again hempty hlater =>
          have hdone : (h.call conf).parse conf = h.call conf :=
            run_empty hempty _
          rw [hdone, parse_eq_call ((h.call conf).extend ys)]
          exact (hlater ys).parse
      | stopped hlater hover =>
          rw [hlater ys]
          rcases hover with hless | hover
          · exact ih _ (by omega) _ rfl
          · have hdone : (h.call conf).parse conf = h.call conf :=
              run_over hover _
            rw [hdone]
            exact Same.refl _

theorem feed_append (conf : HeaderConf) (h : Head) (xs ys : List UInt8) :
    Same (h.feed conf (xs ++ ys)) ((h.feed conf xs).feed conf ys) := by
  have hsplit := parse_extend conf (h.extend xs) ys
  rwa [extend_extend] at hsplit

/-- The request after pieces have arrived one after another. -/
def Head.feedAll (conf : HeaderConf) (pieces : List (List UInt8)) : Head :=
  pieces.foldl (Head.feed conf) Head.new

/-- However the bytes are cut into pieces, the request is the same as when they
arrive at once. -/
theorem feedAll_same (conf : HeaderConf) (pieces : List (List UInt8)) :
    Same (Head.feedAll conf pieces) (Head.new.feed conf pieces.flatten) := by
  induction pieces using List.reverseRecOn with
  | nil => exact Same.refl _
  | append_singleton pieces piece ih =>
      have hlast : Head.feedAll conf (pieces ++ [piece]) =
          (Head.feedAll conf pieces).feed conf piece := by
        simp [Head.feedAll]
      have hflat : (pieces ++ [piece]).flatten = pieces.flatten ++ piece := by
        simp
      rw [hlast, hflat]
      exact (ih.extend piece).parse.trans (feed_append conf _ _ _).symm

/-- The results, with the fields of the request at each of them, do not depend
on how the bytes are cut into pieces; nor does the position, unless a byte was
rejected. -/
theorem feedAll_observed (conf : HeaderConf) (pieces : List (List UInt8)) :
    let h := Head.feedAll conf pieces
    let h' := Head.new.feed conf pieces.flatten
    h.results.map (·.observe) = h'.results.map (·.observe) ∧
      h.line = h'.line ∧ h.header = h'.header ∧ h.phase = h'.phase ∧
      (h.phase ≠ .rejected → h.seen.length = h'.seen.length) ∧
      (h.phase = .requestLine ∨ h.phase = .headers → h = h') := by
  have hsame := feedAll_same conf pieces
  refine ⟨hsame.results, hsame.line, hsame.header, hsame.phase, ?_,
    hsame.waiting⟩
  intro hne
  rw [hsame.pos hne]

/-- The method `GE` is cut off and goes on with a control byte: the parser
rejects it without moving `b->pos`, which then stands behind the first piece
instead of at the start. -/
theorem not_feedAll_pos :
    ¬∀ (conf : HeaderConf) (pieces : List (List UInt8)),
      (Head.feedAll conf pieces).results.map (·.pos) =
        (Head.new.feed conf pieces.flatten).results.map (·.pos) := by
  intro hall
  have hpos := hall { allowUnderscores := false, upstream := false }
    [bytes "GE", [1]]
  exact absurd hpos (by decide)

end MultiversionBalancer.Http
