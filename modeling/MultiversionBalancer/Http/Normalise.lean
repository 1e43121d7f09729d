import MultiversionBalancer.Http.Path
import MultiversionBalancer.Lib.Run
import Mathlib.Data.List.Induction

/-!
# The parser of complex URIs

`ngx_http_parse_complex_uri` decodes a path, merges its slashes and removes its
dot segments in one pass.  It computes the normalised path, stays inside its
buffer, and rejects the URI exactly when there is no normalised path.
-/

namespace MultiversionBalancer.Http

open Lib

/-! ## The machine -/

/-- The state of the machine for the open segment. -/
def stateOf (seg : Segment) : ComplexState :=
  if seg = [] then .slash
  else if seg = bytes "." then .dot
  else if seg = bytes ".." then .dotDot
  else .usual

theorem stateOf_inPath (seg : Segment) : (stateOf seg).inPath = true := by
  rw [stateOf]
  split
  · rfl
  split
  · rfl
  split
  · rfl
  · rfl

theorem stateOf_append_ne {c : UInt8} (seg : Segment) (hc : c ≠ byte '.') :
    stateOf (seg ++ [c]) = .usual := by
  have hlast (dots : Segment) (h : seg ++ [c] = dots ++ [byte '.']) : False :=
    hc (List.append_inj_right' h rfl |> List.singleton_inj.mp)
  have hdot : seg ++ [c] ≠ bytes "." := hlast []
  have hdots : seg ++ [c] ≠ bytes ".." := hlast (bytes ".")
  rw [stateOf, if_neg (by simp), if_neg hdot, if_neg hdots]

/-- The machine has read a part of a path. -/
structure Reads (s : Partial) (l : ComplexUri) : Prop where
  out : l.out = s.text
  state : l.state = stateOf s.current
  current : byte '/' ∉ s.current
  closed : ∀ seg ∈ s.closed, byte '/' ∉ seg

theorem Reads.inPath {s : Partial} {l : ComplexUri} (h : Reads s l) :
    l.state.inPath = true := by
  rw [h.state]
  exact stateOf_inPath s.current

/-- A byte that is added to the open segment. -/
theorem Reads.append {s : Partial} {l l' : ComplexUri} {c : UInt8}
    (h : Reads s l) (hc : c ≠ byte '/') (hout : l'.out = l.out ++ [c])
    (hstate : l'.state = stateOf (s.current ++ [c])) :
    Reads { s with current := s.current ++ [c] } l' where
  out := by
    rw [hout, h.out, Partial.text_eq, Partial.text_eq]
    simp
  state := hstate
  current := by
    simpa using ⟨h.current, hc.symm⟩
  closed := h.closed

/-- The loop that looks for the slash before a segment finds it. -/
theorem seekSlash_eq (before seg after : List UInt8) (hseg : byte '/' ∉ seg) :
    seekSlash (before ++ byte '/' :: (seg ++ after))
      (before.length + 1 + seg.length) = .ok (before ++ [byte '/']) := by
  induction seg using List.reverseRecOn generalizing after with
  | nil =>
      have hat : (before ++ byte '/' :: ([] ++ after))[before.length]? =
          some (byte '/') := by
        simp
      rw [List.length_nil, Nat.add_zero, seekSlash, hat]
      simp [List.take_append, List.take_of_length_le (Nat.le_succ before.length)]
  | append_singleton seg c ih =>
      have hat : (before ++ byte '/' :: (seg ++ [c] ++ after))[before.length + 1 +
          seg.length]? = some c := by
        rw [List.getElem?_append_right (by omega)]
        simp [Nat.add_assoc, Nat.add_comm 1]
      have hc : c ≠ byte '/' := by
        rintro rfl
        simp at hseg
      rw [List.length_append, List.length_singleton, ← Nat.add_assoc, seekSlash,
        hat]
      simp only [if_neg hc]
      rw [List.append_assoc]
      apply ih
      simp only [List.mem_append, not_or] at hseg
      exact hseg.1

def ComplexState.afterDot : ComplexState → ComplexState
  | .slash => .dot
  | .dot => .dotDot
  | _ => .usual

theorem stateOf_append_dot (seg : Segment) :
    stateOf (seg ++ [byte '.']) = (stateOf seg).afterDot := by
  by_cases hempty : seg = []
  · subst hempty
    rfl
  by_cases hdot : seg = bytes "."
  · subst hdot
    rfl
  by_cases hdots : seg = bytes ".."
  · subst hdots
    rfl
  have hone : seg ++ [byte '.'] ≠ bytes "." := by
    intro h
    exact hempty (List.append_inj_left' (h.trans (List.nil_append _).symm) rfl)
  have htwo : seg ++ [byte '.'] ≠ bytes ".." := by
    intro h
    have hdots : seg ++ [byte '.'] = bytes "." ++ [byte '.'] := h
    exact hdot (List.append_inj_left' hdots rfl)
  rw [stateOf, if_neg (by simp), if_neg hone, if_neg htwo, stateOf,
    if_neg hempty, if_neg hdot, if_neg hdots]
  rfl

theorem stepPath_dot (merge : Bool) {cap : ℕ} {l : ComplexUri}
    (hstate : l.state.inPath = true) (hroom : l.out.length < cap) :
    ∃ l', stepPath merge cap (byte '.') l = .ok (.next l') ∧
      l'.out = l.out ++ [byte '.'] ∧ l'.state = l.state.afterDot := by
  have hput (l₁ : ComplexUri) (hout : l₁.out = l.out)
      (hs : l₁.state = l.state.afterDot)
      (hstep : stepPath merge cap (byte '.') l =
        (l₁.put cap (byte '.')).map ComplexStep.next) :
      ∃ l', stepPath merge cap (byte '.') l = .ok (.next l') ∧
        l'.out = l.out ++ [byte '.'] ∧ l'.state = l.state.afterDot := by
    rw [ComplexUri.put, hout, if_pos hroom] at hstep
    exact ⟨_, hstep, rfl, hs⟩
  obtain ⟨state, quotedState, decoded, out, uriExt, plus, quoted⟩ := l
  cases state with
  | usual =>
      exact hput ⟨.usual, quotedState, decoded, out, some (out.length + 1), plus,
        quoted⟩ rfl rfl rfl
  | slash =>
      exact hput ⟨.dot, quotedState, decoded, out, uriExt, plus, quoted⟩ rfl rfl
        rfl
  | dot =>
      exact hput ⟨.dotDot, quotedState, decoded, out, uriExt, plus, quoted⟩ rfl
        rfl rfl
  | dotDot =>
      exact hput ⟨.usual, quotedState, decoded, out, uriExt,
        plus || byte '.' = byte '+', quoted⟩ rfl rfl rfl
  | quoted => cases hstate
  | quotedSecond => cases hstate

/-- The machine rejects the URI where there is no normalised path, and
otherwise gives a value that fits. -/
def Computes {α β : Type} (P : α → β → Prop) :
    Option α → Except UriFault β → Prop
  | none, x => x = .error .invalidRequest
  | some a, x => ∃ b, x = .ok b ∧ P a b

theorem Computes.bind {α β α' β' : Type} {P : α → β → Prop}
    {Q : α' → β' → Prop} {o : Option α} {x : Except UriFault β}
    {f : α → Option α'} {g : β → Except UriFault β'} (h : Computes P o x)
    (hfg : ∀ a b, P a b → Computes Q (f a) (g b)) :
    Computes Q (o.bind f) (x.bind g) := by
  cases o with
  | none =>
      obtain rfl : x = .error .invalidRequest := h
      rfl
  | some a =>
      obtain ⟨b, rfl, hab⟩ := h
      exact hfg a b hab

theorem Computes.mono {α β : Type} {P Q : α → β → Prop} {o : Option α}
    {x : Except UriFault β} (h : Computes P o x) (hPQ : ∀ a b, P a b → Q a b) :
    Computes Q o x := by
  cases o with
  | none => exact h
  | some a =>
      obtain ⟨b, hb, hab⟩ := h
      exact ⟨b, hb, hPQ a b hab⟩

theorem Computes.map {α β γ : Type} {P : α → β → Prop} {Q : α → γ → Prop}
    {o : Option α} {x : Except UriFault β} {f : β → γ} (h : Computes P o x)
    (hPQ : ∀ a b, P a b → Q a (f b)) : Computes Q o (x.map f) := by
  cases o with
  | none =>
      obtain rfl : x = .error .invalidRequest := h
      rfl
  | some a =>
      obtain ⟨b, rfl, hab⟩ := h
      exact ⟨f b, rfl, hPQ a b hab⟩

theorem back_dot {closed : List Segment} {l : ComplexUri}
    (h : l.out = (⟨closed, bytes "."⟩ : Partial).text) :
    l.back = .ok { l with out := (⟨closed, []⟩ : Partial).text } := by
  have hout : l.out = joinSegments closed.reverse ++ [byte '/'] ++ [byte '.'] := by
    rw [h, Partial.text_eq, List.append_assoc]
    rfl
  rw [ComplexUri.back, if_neg (by simp [hout]), hout, List.dropLast_concat,
    Partial.text_eq]

theorem backSegment_dotDot {closed : List Segment} {l : ComplexUri}
    (h : l.out = (⟨closed, bytes ".."⟩ : Partial).text)
    (hclosed : ∀ seg ∈ closed, byte '/' ∉ seg) :
    Computes (fun s l' => l' = { l with out := s.text })
      (Partial.settle ⟨closed, bytes ".."⟩) l.backSegment := by
  cases closed with
  | nil =>
      have hout : l.out = bytes "/.." := h
      change l.backSegment = _
      rw [ComplexUri.backSegment, hout]
      rfl
  | cons seg closed =>
      have hout : l.out = joinSegments closed.reverse ++ byte '/' ::
          (seg ++ bytes "/..") := by
        rw [h, Partial.text_eq]
        simp [joinSegments, bytes]
      have hlen : l.out.length - 3 =
          (joinSegments closed.reverse).length + 1 + seg.length := by
        rw [hout]
        simp [bytes]
        omega
      refine ⟨_, ?_, rfl⟩
      rw [ComplexUri.backSegment, hlen, hout,
        seekSlash_eq _ _ _ (hclosed seg (by simp)), Partial.text_eq]
      rfl

theorem Reads.settle {s : Partial} {l : ComplexUri} (h : Reads s l) :
    Computes (fun s l' => l'.out = s.text) s.settle (endComplex l) := by
  obtain ⟨closed, current⟩ := s
  have hstate := h.state
  by_cases hdot : current = bytes "."
  · subst hdot
    have hend : endComplex l = l.back := by
      rw [endComplex, hstate]
      rfl
    exact ⟨_, hend.trans (back_dot h.out), rfl⟩
  by_cases hdots : current = bytes ".."
  · subst hdots
    have hend : endComplex l = l.backSegment := by
      rw [endComplex, hstate]
      rfl
    rw [hend]
    apply (backSegment_dotDot h.out h.closed).mono
    rintro s l' rfl
    rfl
  · have hend : endComplex l = .ok l := by
      rw [endComplex, hstate]
      by_cases hempty : current = []
      · subst hempty
        rfl
      · rw [stateOf, if_neg hempty, if_neg hdot, if_neg hdots]
    rw [Partial.settle, if_neg hdot, if_neg hdots]
    exact ⟨l, hend, h.out⟩

/-- The machine goes on with at most `n` bytes written. -/
def GoesOn (n : ℕ) (s : Partial) (st : ComplexStep) : Prop :=
  ∃ l, st = .next l ∧ Reads s l ∧ l.out.length ≤ n

theorem Reads.closes {s : Partial} {l l' : ComplexUri} (h : Reads s l)
    (hout : l'.out = l.out ++ [byte '/']) (hstate : l'.state = .slash) :
    Reads ⟨s.current :: s.closed, []⟩ l' where
  out := by
    rw [hout, h.out, Partial.text_eq, Partial.text_eq]
    simp [joinSegments]
  state := hstate
  current := by simp
  closed := by
    intro seg hseg
    obtain rfl | hseg := List.mem_cons.mp hseg
    · exact h.current
    · exact h.closed seg hseg

theorem Reads.slash {merge : Bool} {cap : ℕ} {s : Partial} {l : ComplexUri}
    (h : Reads s l) (hroom : l.out.length < cap) :
    Computes (GoesOn (l.out.length + 1)) (s.close merge)
      (stepPath merge cap (byte '/') l) := by
  obtain ⟨closed, current⟩ := s
  have hstate := h.state
  rw [Partial.close]
  by_cases hdot : current = bytes "."
  · subst hdot
    have hstep : stepPath merge cap (byte '/') l =
        ({ l with state := .slash }.back).map ComplexStep.next := by
      rw [stepPath, hstate]
      rfl
    have hback := back_dot (l := { l with state := .slash }) h.out
    rw [if_pos (.inl rfl)]
    refine ⟨_, hstep.trans (congrArg (Except.map _) hback), _, rfl, ?_, ?_⟩
    · exact ⟨rfl, rfl, by simp, h.closed⟩
    · rw [h.out, Partial.text_eq, Partial.text_eq]
      simp
  by_cases hdots : current = bytes ".."
  · subst hdots
    have hstep : stepPath merge cap (byte '/') l =
        l.backSegment.map fun l => ComplexStep.next { l with state := .slash } := by
      rw [stepPath, hstate]
      rfl
    have hback := backSegment_dotDot h.out h.closed
    rw [if_pos (.inr rfl), hstep]
    cases closed with
    | nil =>
        have herror : l.backSegment = .error .invalidRequest := hback
        rw [herror]
        rfl
    | cons seg closed =>
        obtain ⟨l', hl', rfl⟩ := hback
        refine ⟨_, congrArg (Except.map _) hl', _, rfl, ?_, ?_⟩
        · exact ⟨rfl, rfl, by simp, fun seg' hseg' => h.closed seg' (by simp [hseg'])⟩
        · rw [h.out, Partial.text_eq, Partial.text_eq]
          simp [joinSegments]
  rw [if_neg (not_or.mpr ⟨hdot, hdots⟩)]
  by_cases hempty : current = []
  · subst hempty
    cases merge with
    | true =>
        have hstep : stepPath true cap (byte '/') l = .ok (.next l) := by
          rw [stepPath, hstate]
          rfl
        exact ⟨_, hstep, l, rfl, h, Nat.le_succ _⟩
    | false =>
        have hstep : stepPath false cap (byte '/') l =
            (l.put cap (byte '/')).map ComplexStep.next := by
          rw [stepPath, hstate]
          rfl
        rw [ComplexUri.put, if_pos hroom] at hstep
        refine ⟨_, hstep, _, rfl, h.closes rfl hstate, ?_⟩
        simp
  · rw [stateOf, if_neg hempty, if_neg hdot, if_neg hdots] at hstate
    rw [if_neg fun hmerge => hempty hmerge.2]
    refine ⟨_, stepPath_usual_slash hstate hroom, _, rfl, h.closes rfl rfl, ?_⟩
    simp

/-- Write a byte that has come out of a percent sequence or has no meaning of
its own. -/
def takeByte (merge : Bool) (cap : ℕ) (c : UInt8) (l : ComplexUri) :
    Except UriFault ComplexStep :=
  if c = byte '%' ∨ c = byte '?' ∨ c = byte '#' then putUsual cap c l
  else stepPath merge cap c l

theorem Reads.takeByte {merge : Bool} {cap : ℕ} {c : UInt8} {s : Partial}
    {l : ComplexUri} (h : Reads s l) (hroom : l.out.length < cap) :
    Computes (GoesOn (l.out.length + 1)) (s.feed merge c)
      (takeByte merge cap c l) := by
  rw [Partial.feed, Http.takeByte]
  by_cases hslash : c = byte '/'
  · subst hslash
    rw [if_pos rfl, if_neg (by decide)]
    exact h.slash hroom
  rw [if_neg hslash]
  by_cases hdot : c = byte '.'
  · subst hdot
    obtain ⟨l', hstep, hout, hstate⟩ :=
      stepPath_dot merge h.inPath hroom
    rw [h.state, ← stateOf_append_dot] at hstate
    rw [if_neg (by decide)]
    refine ⟨_, hstep, l', rfl, h.append hslash hout hstate, ?_⟩
    simp [hout]
  have husual := stateOf_append_ne s.current hdot
  by_cases hspecial : c = byte '%' ∨ c = byte '?' ∨ c = byte '#'
  · rw [if_pos hspecial, putUsual, ComplexUri.put, if_pos hroom]
    refine ⟨_, rfl, _, rfl, h.append hslash rfl husual.symm, ?_⟩
    simp
  · simp only [not_or] at hspecial
    rw [if_neg (by simpa using hspecial),
      stepPath_plain ⟨hslash, hdot, hspecial.1, hspecial.2.1, hspecial.2.2⟩ h.inPath,
      putPlus, putUsual, ComplexUri.put, if_pos hroom]
    refine ⟨_, rfl, _, rfl, h.append hslash rfl husual.symm, ?_⟩
    simp

/-! ## Percent sequences -/

theorem decoded_toNat {high low : UInt8} (hhigh : high.toNat < 16)
    (hlow : low.toNat < 16) :
    ((high <<< 4) + low).toNat = 16 * high.toNat + low.toNat := by
  have hshift : (high <<< 4).toNat = high.toNat * 16 % 256 := by
    rw [UInt8.toNat_shiftLeft, Nat.shiftLeft_eq]
    rfl
  rw [UInt8.toNat_add, hshift]
  omega

theorem percentByte_eq {high low h l : UInt8} (hhigh : hexDigit high = some h)
    (hlow : hexDigit low = some l) :
    percentByte high low =
      if (h <<< 4) + l = 0 then none else some ((h <<< 4) + l) := by
  have hdecoded := decoded_toNat (hexDigit_lt hhigh).1 (hexDigit_lt hlow).1
  have hbyte : UInt8.ofNat (16 * h.toNat + l.toNat) = (h <<< 4) + l := by
    rw [← hdecoded, UInt8.ofNat_toNat]
  have hzero : 16 * h.toNat + l.toNat = 0 ↔ (h <<< 4) + l = 0 := by
    rw [← hdecoded, ← UInt8.toNat_inj]
    rfl
  rw [percentByte, ← hexDigit_toNat, ← hexDigit_toNat, hhigh, hlow]
  change (if 16 * h.toNat + l.toNat = 0 then none
    else some (UInt8.ofNat (16 * h.toNat + l.toNat))) = _
  rw [hbyte]
  simp only [hzero]

theorem percentByte_none {high low : UInt8}
    (h : hexDigit high = none ∨ hexDigit low = none) :
    percentByte high low = none := by
  rw [percentByte, ← hexDigit_toNat, ← hexDigit_toNat]
  obtain h | h := h
  · rw [h]
    rfl
  · rw [h]
    cases hexDigit high with
    | none => rfl
    | some d => rfl

/-- A percent sign begins a sequence in every state. -/
theorem stepPath_percent {merge : Bool} {cap : ℕ} {l : ComplexUri}
    (hstate : l.state.inPath = true) :
    stepPath merge cap (byte '%') l = startQuoted l := by
  obtain ⟨state, quotedState, decoded, out, uriExt, plus, quoted⟩ := l
  cases state with
  | quoted => cases hstate
  | quotedSecond => cases hstate
  | _ => rfl

/-- What follows a step of the machine. -/
def afterStep (merge : Bool) (cap : ℕ) (rest : List UInt8) :
    ComplexStep → Except UriFault (ComplexUri × AfterPath)
  | .next l => scanComplex merge cap rest l
  | .args l => .ok (l, some rest)
  | .done l => .ok (l, none)

theorem scanComplex_cons {merge : Bool} {cap : ℕ} (ch : UInt8)
    (rest : List UInt8) (l : ComplexUri) :
    scanComplex merge cap (ch :: rest) l =
      (stepComplex merge cap ch l).bind (afterStep merge cap rest) := by
  rw [scanComplex]
  cases stepComplex merge cap ch l with
  | error e => rfl
  | ok st =>
      cases st with
      | _ => rfl

/-- The second digit of a percent sequence: the decoded byte is taken in the
state before the sequence. -/
theorem stepQuotedSecond_eq (merge : Bool) (cap : ℕ) {low d : UInt8}
    {l : ComplexUri} (hlow : hexDigit low = some d)
    (hdecoded : l.decoded.toNat < 16) :
    ∃ plus, stepQuotedSecond merge cap low l =
      if (l.decoded <<< 4) + d = 0 then .error .invalidRequest
      else takeByte merge cap ((l.decoded <<< 4) + d)
        { l with plusInUri := plus, state := l.quotedState } := by
  obtain ⟨hd, hdigit⟩ := hexDigit_lt hlow
  have hc := decoded_toNat hdecoded hd
  rw [stepQuotedSecond, hlow]
  dsimp only
  generalize (l.decoded <<< 4) + d = c at hc ⊢
  have hbyte (b : UInt8) (h : c = b) :
      16 * l.decoded.toNat + d.toNat = b.toNat := by
    rw [← h, hc]
  by_cases hlt : d.toNat < 10
  · refine ⟨l.plusInUri, ?_⟩
    have hquestion : c ≠ byte '?' := by
      intro h
      have hb : 16 * l.decoded.toNat + d.toNat = 63 := hbyte _ h
      omega
    simp only [if_pos (hdigit.mpr hlt), takeByte, hquestion, false_or]
    by_cases hspecial : c = byte '%' ∨ c = byte '#'
    · have hzero : c ≠ 0 := by
        rintro rfl
        revert hspecial
        decide
      rw [if_pos hspecial, if_neg hzero, if_pos hspecial]
      rfl
    · rw [if_neg hspecial, if_neg hspecial]
  · have hzero : c ≠ 0 := by
      intro h
      have hb : 16 * l.decoded.toNat + d.toNat = 0 := hbyte _ h
      omega
    have hpercent : c ≠ byte '%' := by
      intro h
      have hb : 16 * l.decoded.toNat + d.toNat = 37 := hbyte _ h
      omega
    have hhash : c ≠ byte '#' := by
      intro h
      have hb : 16 * l.decoded.toNat + d.toNat = 35 := hbyte _ h
      omega
    have hnot : ¬isDigit low = true := fun h => hlt (hdigit.mp h)
    simp only [if_neg hnot, if_neg hzero, takeByte, hpercent, hhash, false_or,
      or_false]
    by_cases hquestion : c = byte '?'
    · refine ⟨l.plusInUri, ?_⟩
      rw [if_pos hquestion, if_pos hquestion]
      rfl
    · refine ⟨l.plusInUri || c = byte '+', ?_⟩
      rw [if_neg hquestion, if_neg hquestion]

theorem scanComplex_percent (merge : Bool) (cap : ℕ) {l : ComplexUri}
    (hstate : l.state.inPath = true) (high low : UInt8) (rest : List UInt8) :
    ∃ l', l'.out = l.out ∧ l'.state = l.state ∧
      scanComplex merge cap (byte '%' :: high :: low :: rest) l =
        (percentByte high low).elim (.error .invalidRequest) fun c =>
          (takeByte merge cap c l').bind (afterStep merge cap rest) := by
  have hfirst : scanComplex merge cap (byte '%' :: high :: low :: rest) l =
      scanComplex merge cap (high :: low :: rest)
        { l with quotedState := l.state, state := .quoted } := by
    rw [scanComplex_cons, stepComplex_inPath hstate, stepPath_percent hstate]
    rfl
  rw [hfirst, scanComplex_cons, stepComplex]
  cases hhigh : hexDigit high with
  | none =>
      rw [percentByte_none (.inl hhigh)]
      exact ⟨l, rfl, rfl, rfl⟩
  | some d =>
      have hsecond (l₁ : ComplexUri) (hl₁ : l₁.state = .quotedSecond) :
          scanComplex merge cap (low :: rest) l₁ =
            (stepQuotedSecond merge cap low l₁).bind
              (afterStep merge cap rest) := by
        rw [scanComplex_cons, stepComplex, hl₁]
      simp only [Except.bind, afterStep]
      rw [hsecond _ rfl]
      cases hlow : hexDigit low with
      | none =>
          rw [percentByte_none (.inr hlow), stepQuotedSecond, hlow]
          exact ⟨l, rfl, rfl, rfl⟩
      | some e =>
          obtain ⟨plus, hstep⟩ := stepQuotedSecond_eq merge cap
            (l := { l with quotedState := l.state, quotedUri := true, decoded := d,
                           state := .quotedSecond })
            hlow (hexDigit_lt hhigh).1
          rw [percentByte_eq hhigh hlow, hstep]
          refine ⟨{ l with quotedState := l.state, quotedUri := true, decoded := d,
                           plusInUri := plus }, rfl, rfl, ?_⟩
          by_cases hzero : (d <<< 4) + e = 0
          · rw [if_pos hzero, if_pos hzero]
            rfl
          · rw [if_neg hzero, if_neg hzero]
            rfl

/-! ## Whole paths -/

def EndsPath (tail : List UInt8) : Prop :=
  ∀ ch ∈ tail.head?, ch = byte '?' ∨ ch = byte '#'

/-- A percent sequence that the path ends in. -/
theorem scanComplex_quoted {merge : Bool} {cap : ℕ} {l : ComplexUri}
    {tail : List UInt8} (htail : EndsPath tail)
    (hstate : l.state = .quoted ∨ l.state = .quotedSecond) :
    scanComplex merge cap tail l = .error .invalidRequest := by
  cases tail with
  | nil =>
      rw [scanComplex, endComplex]
      obtain hs | hs := hstate
      · rw [hs]
        rfl
      · rw [hs]
        rfl
  | cons ch rest =>
      have hhex : hexDigit ch = none := by
        obtain rfl | rfl := htail ch rfl
        · rfl
        · rfl
      rw [scanComplex_cons, stepComplex]
      obtain hs | hs := hstate
      · rw [hs, hhex]
        rfl
      · rw [hs, stepQuotedSecond, hhex]
        rfl

/-- A percent sign without two bytes behind it in the path. -/
theorem scanComplex_cut {merge : Bool} {cap : ℕ} {l : ComplexUri}
    {rest tail : List UInt8} (hstate : l.state.inPath = true)
    (hrest : ∀ high low rest', rest = high :: low :: rest' → False)
    (htail : EndsPath tail) :
    scanComplex merge cap (byte '%' :: rest ++ tail) l =
      .error .invalidRequest := by
  have hfirst : scanComplex merge cap (byte '%' :: rest ++ tail) l =
      scanComplex merge cap (rest ++ tail)
        { l with quotedState := l.state, state := .quoted } := by
    rw [List.cons_append, scanComplex_cons, stepComplex_inPath hstate,
      stepPath_percent hstate]
    rfl
  rw [hfirst]
  match rest, hrest with
  | [], _ => exact scanComplex_quoted htail (.inl rfl)
  | [high], _ =>
      rw [List.singleton_append, scanComplex_cons, stepComplex]
      cases hexDigit high with
      | none => rfl
      | some d => exact scanComplex_quoted htail (.inr rfl)
  | high :: low :: rest', hrest => exact (hrest high low rest' rfl).elim

theorem stepPath_question {merge : Bool} {cap : ℕ} {l : ComplexUri}
    (hstate : l.state.inPath = true) :
    stepPath merge cap (byte '?') l = (endComplex l).map ComplexStep.args := by
  obtain ⟨state, quotedState, decoded, out, uriExt, plus, quoted⟩ := l
  cases state with
  | quoted => cases hstate
  | quotedSecond => cases hstate
  | _ => rfl

theorem stepPath_hash {merge : Bool} {cap : ℕ} {l : ComplexUri}
    (hstate : l.state.inPath = true) :
    stepPath merge cap (byte '#') l = (endComplex l).map ComplexStep.done := by
  obtain ⟨state, quotedState, decoded, out, uriExt, plus, quoted⟩ := l
  cases state with
  | quoted => cases hstate
  | quotedSecond => cases hstate
  | _ => rfl

theorem scanComplex_end {merge : Bool} {cap : ℕ} {l : ComplexUri}
    {tail : List UInt8} (hstate : l.state.inPath = true)
    (htail : EndsPath tail) :
    scanComplex merge cap tail l =
      (endComplex l).map fun l => (l, afterPath tail) := by
  cases tail with
  | nil =>
      rw [scanComplex]
      rfl
  | cons ch rest =>
      rw [scanComplex_cons, stepComplex_inPath hstate]
      obtain rfl | rfl := htail ch rfl
      · rw [stepPath_question hstate]
        cases endComplex l with
        | error e => rfl
        | ok l => rfl
      · rw [stepPath_hash hstate]
        cases endComplex l with
        | error e => rfl
        | ok l => rfl

/-- The result of the machine: the path, and what follows it. -/
def Result (after : AfterPath) (s : Partial) (x : ComplexUri × AfterPath) :
    Prop :=
  x.1.out = s.text ∧ x.2 = after

theorem run_cons_bind (merge : Bool) (c : UInt8) (s : Partial)
    (o : Option (List UInt8)) :
    (o.map (c :: ·)).bind (s.run merge) =
      (s.feed merge c).bind fun s => o.bind (s.run merge) := by
  cases o with
  | none => cases s.feed merge c <;> rfl
  | some rest => rfl

/-- What the machine makes of a part of a path and of what follows it. -/
def Normalises (merge : Bool) (cap : ℕ) (path tail : List UInt8) (s : Partial)
    (l : ComplexUri) : Prop :=
  Computes (Result (afterPath tail)) ((percentDecode path).bind (s.run merge))
    (scanComplex merge cap (path ++ tail) l)

theorem Reads.oneByte {merge : Bool} {cap : ℕ} {c : UInt8} {rest tail : List UInt8}
    {s : Partial} {l : ComplexUri} (h : Reads s l)
    (hroom : l.out.length + (rest.length + 1) ≤ cap)
    (ih : ∀ {s : Partial} {l : ComplexUri}, Reads s l →
      l.out.length + rest.length ≤ cap → Normalises merge cap rest tail s l) :
    Computes (Result (afterPath tail))
      (((percentDecode rest).map (c :: ·)).bind (s.run merge))
      ((Http.takeByte merge cap c l).bind
        (afterStep merge cap (rest ++ tail))) := by
  rw [run_cons_bind]
  apply (h.takeByte (by omega)).bind
  rintro s' _ ⟨l', rfl, hl', hlen⟩
  exact ih hl' (by omega)

/-- The machine normalises the path in one pass and stays inside its buffer. -/
theorem Reads.normalises {merge : Bool} {cap : ℕ} {path tail : List UInt8}
    {s : Partial} {l : ComplexUri} (h : Reads s l)
    (hpath : ∀ ch ∈ path, ch ≠ byte '?' ∧ ch ≠ byte '#')
    (hroom : l.out.length + path.length ≤ cap) (htail : EndsPath tail) :
    Normalises merge cap path tail s l := by
  rw [Normalises]
  induction path using percentDecode.induct generalizing s l with
  | case1 =>
      rw [List.nil_append, scanComplex_end h.inPath htail]
      apply h.settle.map
      intro s' l' hout
      exact ⟨hout, rfl⟩
  | case2 high low rest ih =>
      obtain ⟨l', hout, hstate, hscan⟩ :=
        scanComplex_percent merge cap h.inPath high low (rest ++ tail)
      have hl' : Reads s l' :=
        ⟨hout.trans h.out, hstate.trans h.state, h.current, h.closed⟩
      rw [percentDecode_percent, List.cons_append, List.cons_append,
        List.cons_append, hscan]
      cases percentByte high low with
      | none => rfl
      | some c =>
          simp only [List.length_cons, ← hout] at hroom
          apply hl'.oneByte (by omega)
          intro s l h hroom
          exact ih h (fun ch hch => hpath ch (by simp [hch])) hroom
  | case3 rest hrest =>
      rw [percentDecode_cut hrest]
      exact scanComplex_cut h.inPath hrest htail
  | case4 ch rest hch ih =>
      obtain ⟨hquestion, hhash⟩ := hpath ch (by simp)
      have hstep : stepComplex merge cap ch l = Http.takeByte merge cap ch l := by
        rw [stepComplex_inPath h.inPath, Http.takeByte,
          if_neg (by simp [hch, hquestion, hhash])]
      rw [percentDecode_cons rest hch, List.cons_append, scanComplex_cons, hstep]
      apply h.oneByte hroom
      intro s l h hroom
      exact ih h (fun ch hch => hpath ch (by simp [hch])) hroom

/-! ## The URI of a request -/

/-- The path of a URI; a query behind a host stands for `/`. -/
def UriRequest.path (u : UriRequest) : List UInt8 :=
  if u.emptyPathInUri then [byte '/'] else pathPart u.raw

/-- What the complex parser should make of a URI with the normalised path
`path`. -/
structure NormalisedUri (u : UriRequest) (path : List UInt8) (p : ProcessedUri) :
    Prop where
  uri : p.uri = path
  args : p.args = argsPart u.raw
  safe : SafePath path

theorem stepParseUri_nul (p : ℕ) (s : UriScan × UriFields) :
    stepParseUri p 0 s = none := by
  obtain ⟨σ, f⟩ := s
  cases σ with
  | _ => rfl

theorem scanParseUri_nul {p : ℕ} {s s' : UriScan × UriFields}
    {raw : List UInt8} (h : scanParseUri p s raw = some s') : 0 ∉ raw := by
  induction raw generalizing p s with
  | nil => simp
  | cons ch rest ih =>
      rw [scanParseUri] at h
      obtain ⟨s₁, hstep, hrest⟩ := Option.bind_eq_some_iff.mp h
      rw [List.mem_cons, not_or]
      refine ⟨?_, ih hrest⟩
      rintro rfl
      rw [stepParseUri_nul] at hstep
      cases hstep

theorem endsPath_dropWhile (raw : List UInt8) :
    EndsPath (raw.dropWhile fun ch => ch ≠ byte '?' && ch ≠ byte '#') := by
  intro ch hch
  have hnot := List.head?_dropWhile_not
    (fun ch => decide (ch ≠ byte '?') && decide (ch ≠ byte '#')) raw
  rw [Option.mem_def.mp hch] at hnot
  by_contra h
  rw [not_or] at h
  simp [h.1, h.2] at hnot

theorem mem_pathPart {raw : List UInt8} {ch : UInt8} (h : ch ∈ pathPart raw) :
    ch ≠ byte '?' ∧ ch ≠ byte '#' := by
  have hp := List.mem_takeWhile_imp h
  simpa using hp

theorem complex_path {merge : Bool} {raw : List UInt8} {f : UriFields}
    (hne : raw ≠ []) (h : ngxHttpParseUri 0 raw = some f) :
    Computes (NormalisedUri (f.request raw false))
      (normalise merge (f.request raw false).path)
      ((f.request raw false).complex merge (f.request raw false).capacity) := by
  obtain ⟨s, hscan, rfl⟩ := Option.map_eq_some_iff.mp h
  cases raw with
  | nil => exact absurd rfl hne
  | cons ch rest =>
      have hnul := scanParseUri_nul hscan
      rw [scanParseUri] at hscan
      obtain ⟨s₁, hstep, hrest⟩ := Option.bind_eq_some_iff.mp hscan
      obtain rfl : ch = byte '/' := by
        by_contra hch
        rw [stepParseUri, if_neg hch] at hstep
        cases hstep
      cases hstep
      have hcap : 1 + (pathPart rest).length ≤
          (s.2.request (byte '/' :: rest) false).capacity :=
        pathPart_le_pathLen [byte '/'] rfl hrest
      generalize hu : s.2.request (byte '/' :: rest) false = u at hcap ⊢
      have hempty : u.emptyPathInUri = false := by
        rw [← hu]
        rfl
      have hraw : u.raw = byte '/' :: rest := by
        rw [← hu]
        rfl
      have hpath : u.path = byte '/' :: pathPart rest := by
        rw [← hu]
        rfl
      have hargs : argsPart u.raw = argsPart rest := by
        rw [hraw]
        rfl
      have hreads : Reads Partial.empty
          { u.locals with state := .slash, out := [byte '/'] } :=
        ⟨rfl, rfl, List.not_mem_nil, fun _ hseg => absurd hseg List.not_mem_nil⟩
      have hscan : Normalises merge u.capacity (pathPart rest) _ _ _ :=
        hreads.normalises (fun ch hch => mem_pathPart hch) hcap
          (endsPath_dropWhile rest)
      have hsplit : pathPart rest ++
          (rest.dropWhile fun ch => ch ≠ byte '?' && ch ≠ byte '#') = rest :=
        List.takeWhile_append_dropWhile
      have hnorm : normalise merge u.path =
          ((percentDecode (pathPart rest)).bind
            (Partial.empty.run merge)).map Partial.text := by
        rw [hpath, normalise_slash]
        cases percentDecode (pathPart rest) with
        | none => rfl
        | some decoded => rfl
      have hsafe (path : List UInt8) (h : normalise merge u.path = some path) :
          SafePath path := by
        rw [hpath] at h
        apply safePath_normalise _ h
        intro hmem
        exact hnul (List.mem_cons_of_mem _ ((List.takeWhile_sublist _).subset hmem))
      rw [Normalises, hsplit] at hscan
      rw [complex_of_slash hempty hraw (by omega)]
      cases hrun : (percentDecode (pathPart rest)).bind
          (Partial.empty.run merge) with
      | none =>
          rw [hrun] at hscan hnorm
          rw [hnorm]
          exact congrArg (Except.map _) hscan
      | some s' =>
          rw [hrun] at hscan hnorm
          obtain ⟨⟨l, after⟩, hl, hout, rfl⟩ := hscan
          have hpathSafe := hsafe _ hnorm
          rw [hnorm]
          exact ⟨_, congrArg (Except.map _) hl, hout, hargs.symm, hpathSafe⟩

theorem complex_query (merge : Bool) (q : List UInt8) (f : UriFields) :
    Computes (NormalisedUri (f.request (byte '?' :: q) true))
      (normalise merge (f.request (byte '?' :: q) true).path)
      ((f.request (byte '?' :: q) true).complex merge
        (f.request (byte '?' :: q) true).capacity) := by
  have hcap : 0 < (f.request (byte '?' :: q) true).capacity := Nat.succ_pos _
  have hnorm : normalise merge [byte '/'] = some [byte '/'] := by
    cases merge with
    | true => rfl
    | false => rfl
  have hsafe : SafePath [byte '/'] := safePath_normalise (by simp) hnorm
  rw [complex_of_question rfl rfl hcap]
  change Computes _ (normalise merge [byte '/']) _
  rw [hnorm]
  exact ⟨_, rfl, rfl, rfl, hsafe⟩

/-- The complex parser computes the normalised path of every URI in an accepted
request line, and rejects the URI when there is none. -/
theorem complex_uri_normalised {input : List UInt8} {r : RequestLine}
    (h : ngxHttpParseRequestLine input = some ⟨.ok, r⟩) (merge : Bool) :
    ∃ u, r.uriRequest input = some u ∧
      Computes (NormalisedUri u) (normalise merge u.path)
        (u.complex merge u.capacity) := by
  obtain ⟨u, hu, haccepted⟩ := parseRequestLine_uriRequest h
  refine ⟨u, hu, ?_⟩
  cases haccepted with
  | path hne hparse => exact complex_path hne hparse
  | query q => exact complex_query merge q _

/-- A request for `/a/%2e%2e/b//c?x#y`. -/
theorem dotsLine_normalised :
    ∃ r u p, ngxHttpParseRequestLine
        (bytes "GET /a/%2e%2e/b//c?x#y HTTP/1.1\r\n") = some ⟨.ok, r⟩ ∧
      r.uriRequest (bytes "GET /a/%2e%2e/b//c?x#y HTTP/1.1\r\n") = some u ∧
      u.complex true u.capacity = .ok p ∧ p.uri = bytes "/b/c" ∧
      p.args = bytes "x" := by
  have hparse : (ngxHttpParseRequestLine
      (bytes "GET /a/%2e%2e/b//c?x#y HTTP/1.1\r\n")).map (fun res =>
        (res.code,
          (res.line.uriRequest (bytes "GET /a/%2e%2e/b//c?x#y HTTP/1.1\r\n")).map
            fun u => (normalise true u.path, argsPart u.raw))) =
      some (.ok, some (some (bytes "/b/c"), bytes "x")) := by
    decide +kernel
  obtain ⟨⟨code, r⟩, hres, hfields⟩ := Option.map_eq_some_iff.mp hparse
  obtain ⟨rfl, hfields⟩ := Prod.mk.inj hfields
  obtain ⟨u, hu, hcomplex⟩ := complex_uri_normalised hres true
  obtain ⟨u', hu', hparts⟩ := Option.map_eq_some_iff.mp hfields
  obtain rfl : u = u' := Option.some.inj (hu.symm.trans hu')
  obtain ⟨hpath, hargs⟩ := Prod.mk.inj hparts
  rw [hpath] at hcomplex
  obtain ⟨p, hp, hnormal⟩ := hcomplex
  exact ⟨r, u, p, hres, hu, hp, hnormal.uri, hnormal.args.trans hargs⟩

/-- The text behind the first `?` of a URI, up to a `#` or the end. -/
def behindFirstQuestion (raw : List UInt8) : List UInt8 :=
  ((raw.dropWhile (· != byte '?')).drop 1).takeWhile (· != byte '#')

/-- In `/a#b?c` the `?` stands behind the `#` that ends the URI, and there are
no arguments. -/
theorem not_args_behindFirstQuestion :
    ∃ r u p, ngxHttpParseRequestLine (bytes "GET /a#b?c HTTP/1.1\r\n") =
        some ⟨.ok, r⟩ ∧
      r.uriRequest (bytes "GET /a#b?c HTTP/1.1\r\n") = some u ∧
      u.complexUri = true ∧ u.complex true u.capacity = .ok p ∧
      p.args ≠ behindFirstQuestion u.raw := by
  have hparse : (ngxHttpParseRequestLine
      (bytes "GET /a#b?c HTTP/1.1\r\n")).map (fun res =>
        (res.code, (res.line.uriRequest (bytes "GET /a#b?c HTTP/1.1\r\n")).map
          fun u => (u.complexUri, (u.complex true u.capacity).toOption,
            behindFirstQuestion u.raw))) =
      some (.ok, some (true, some ⟨bytes "/a", [], []⟩, bytes "c")) := by
    decide +kernel
  obtain ⟨⟨code, r⟩, hres, hfields⟩ := Option.map_eq_some_iff.mp hparse
  obtain ⟨rfl, hfields⟩ := Prod.mk.inj hfields
  obtain ⟨u, hu, hparts⟩ := Option.map_eq_some_iff.mp hfields
  simp only [Prod.mk.injEq] at hparts
  obtain ⟨hflag, hcomplex, hbehind⟩ := hparts
  refine ⟨r, u, _, hres, hu, hflag, Lib.Except.toOption_eq_some.mp hcomplex, ?_⟩
  rw [hbehind]
  exact nofun

end MultiversionBalancer.Http
