import MultiversionBalancer.Core.ConfToken

/-!
# Bytes and refills

The reference reads the bytes that the buffer and the rest of the file hold, and the
bytes from `start` on are the token that it is in. A refill changes neither, unless the
bytes from `start` on fill the buffer: this cannot happen in a token of half the buffer,
but it does in a long comment.
-/

namespace MultiversionBalancer.Core.Conf

open Http (byte cr lf)
open Tokeniser (Mode State Step step stepSpace stepWord finish atEnd)

/-! ## Escapes -/

/-- A text that ends inside an escape. -/
def openEscape : List UInt8 → Bool
  | [] => false
  | [a] => a == backslash
  | a :: b :: text => if a = backslash then openEscape text else openEscape (b :: text)

theorem openEscape_append (text : List UInt8) (ch : UInt8) :
    openEscape (text ++ [ch]) = (!openEscape text && ch == backslash) := by
  fun_induction openEscape text with
  | case1 => simp [openEscape]
  | case2 a =>
      by_cases ha : a = backslash <;> simp [openEscape, ha]
  | case3 b text ih => simpa [openEscape] using ih
  | case4 a b text ha ih => simpa [openEscape, ha] using ih

theorem copyWord_cons_of_ne (stop : UInt8) {a : UInt8} (text : List UInt8)
    (ha : a ≠ backslash) : copyWord stop (a :: text) = a :: copyWord stop text := by
  cases text with
  | nil => simp [copyWord, ha]
  | cons b text => simp [copyWord, ha]

theorem escape_ne_backslash {ch : UInt8} (h : escape ch = none) : ch ≠ backslash := by
  rintro rfl
  simp [escape] at h

/-- A word whose escapes are complete is copied as the reference reads it. -/
theorem copyWord_eq_unescape (stop : UInt8) {text : List UInt8}
    (h : openEscape text = false) : copyWord stop text = unescape text := by
  fun_induction unescape text with
  | case1 => rfl
  | case2 a =>
      have ha : a ≠ backslash := by simpa [openEscape] using h
      simp [copyWord, ha]
  | case3 b text ch hch ih =>
      simp only [openEscape, if_true] at h
      simp [copyWord, hch, ih h]
  | case4 b text hch ih =>
      simp only [openEscape, if_true] at h
      simp [copyWord, hch, copyWord_cons_of_ne stop text (escape_ne_backslash hch), ih h]
  | case5 a b text ha ih =>
      simp only [openEscape, if_neg ha] at h
      simp [copyWord, ha, ih h]

/-! ## The states of the function and of the reference -/

/-- The local variables in a mode of the reference. -/
def scanOf (mode : Mode) (start startLine : ℕ) (args : List (List UInt8)) : Scan :=
  match mode with
  | .space => { start, startLine, args }
  | .comment _ => { start, startLine, args, sharpComment := true }
  | .word _ quote escaped inVariable =>
      { start, startLine, args, inVariable
        lastSpace := false
        quoted := escaped
        sQuoted := quote == some squote
        dQuoted := quote == some dquote }
  | .closed => { start, startLine, args, needSpace := true, lastSpace := false }

/-- What the bytes from `start` on are. -/
def Holds (c : ConfFile) (start : ℕ) : Mode → Prop
  | .space => c.pos - start < ngxConfBuffer
  | .comment seen => c.pos = start + seen
  | .word text quote escaped _ =>
      (c.buf.drop start).take (c.pos - start) = text ∧ escaped = openEscape text ∧
        (quote = none ∨ quote = some dquote ∨ quote = some squote)
  | .closed => c.pos - start ≤ ngxConfBuffer / 2 + 1

/-- The buffer and the file hold the text that is not read yet. -/
structure Ready (c : ConfFile) (text : List UInt8) (line : ℕ) : Prop where
  fd : c.fd = true
  unread : c.buf.drop c.pos ++ c.file.drop c.offset = text
  pos_le : c.pos ≤ c.buf.length
  buf_le : c.buf.length ≤ ngxConfBuffer
  line_eq : c.line = line

/-- The function is where the reference is. -/
structure Sim (c : ConfFile) (s : Scan) (t : State) (text : List UInt8) : Prop
    extends Ready c text t.line where
  scan : s = scanOf t.mode s.start s.startLine t.args
  start_le : s.start ≤ c.pos
  holds : Holds c s.start t.mode

def wordLength (t : State) : ℕ :=
  match t.mode with
  | .word text _ _ _ => text.length
  | _ => 0

/-- The function and the reference do the same at a byte. -/
def Agree : Turn → Step → List UInt8 → Prop
  | .next c s, .next t, text => Sim c s t text
  | .done result c args, .done result' t, text =>
      result = result' ∧ args = t.args ∧ Ready c text t.line
  | _, _, _ => False

/-- The file after `ch = *b->pos++`. -/
def advance (c : ConfFile) (ch : UInt8) : ConfFile :=
  { c with pos := c.pos + 1, line := if ch = lf then c.line + 1 else c.line }

theorem Ready.advance {c : ConfFile} {ch : UInt8} {text : List UInt8} {line : ℕ}
    (h : Ready c (ch :: text) line) (hpos : c.pos < c.buf.length) :
    c.buf.getD c.pos 0 = ch ∧
      Ready (advance c ch) text (if ch = lf then line + 1 else line) := by
  have hdrop : c.buf.drop c.pos = c.buf[c.pos] :: c.buf.drop (c.pos + 1) :=
    List.drop_eq_getElem_cons hpos
  have hunread := h.unread
  rw [hdrop, List.cons_append, List.cons.injEq] at hunread
  refine ⟨by simp [hpos, hunread.1], h.fd, hunread.2, hpos, h.buf_le, ?_⟩
  simp only [Conf.advance, h.line_eq]

/-! ## A byte -/

/-- A turn that goes on. -/
theorem agree_next {c : ConfFile} {t : State} {text : List UInt8} {start startLine : ℕ}
    (hready : Ready c text t.line) (hstart : start ≤ c.pos) (hholds : Holds c start t.mode) :
    Agree (.next c (scanOf t.mode start startLine t.args)) (.next t) text := by
  obtain ⟨mode, args, line⟩ := t
  refine ⟨hready, ?_, ?_, ?_⟩
  · cases mode <;> rfl
  · cases mode <;> exact hstart
  · cases mode <;> exact hholds

section

variable {c : ConfFile} {t : State} {text : List UInt8} {ch : UInt8} {start startLine : ℕ}

theorem agree_mode (mode : Mode) (hready : Ready c text t.line) (hstart : start ≤ c.pos)
    (hholds : Holds c start mode) :
    Agree (.next c (scanOf mode start startLine t.args)) (.next { t with mode }) text :=
  agree_next (t := { t with mode }) hready hstart hholds

theorem scanSpace_agree (hready : Ready c text t.line) (hpos : 0 < c.pos)
    (hbyte : (c.buf.drop (c.pos - 1)).take 1 = [ch]) :
    Agree (scanSpace c (scanOf .space start startLine t.args) ch) (stepSpace t ch) text := by
  have hone : c.pos - (c.pos - 1) = 1 := by omega
  have hle : c.pos - 1 ≤ c.pos := Nat.sub_le _ _
  have hword : ∀ escaped inVariable, escaped = openEscape [ch] →
      Holds c (c.pos - 1) (.word [ch] none escaped inVariable) := by
    intro escaped inVariable hescaped
    exact ⟨by rw [hone, hbyte], hescaped, .inl rfl⟩
  have hquote : ∀ q, q = dquote ∨ q = squote →
      Holds c (c.pos - 1 + 1) (.word [] (some q) false false) := by
    intro q hq
    refine ⟨?_, rfl, .inr (by simpa using hq)⟩
    rw [Nat.sub_add_cancel hpos, Nat.sub_self, List.take_zero]
  unfold scanSpace stepSpace
  by_cases hspace : isSpace ch = true
  · simp only [hspace, if_true]
    exact agree_mode .space hready hle
      (show c.pos - (c.pos - 1) < ngxConfBuffer by rw [hone]; decide)
  · simp only [hspace, Bool.false_eq_true, if_false]
    by_cases hend : ch = byte ';' ∨ ch = byte '{'
    · simp only [if_pos hend, scanOf, List.length_eq_zero_iff]
      by_cases hargs : t.args = []
      · simp only [if_pos hargs]
        exact ⟨rfl, rfl, hready⟩
      · by_cases hopen : ch = byte '{'
        · simp only [if_neg hargs, if_pos hopen]
          exact ⟨rfl, rfl, hready⟩
        · simp only [if_neg hargs, if_neg hopen]
          exact ⟨rfl, rfl, hready⟩
    · simp only [if_neg hend]
      by_cases hclose : ch = byte '}'
      · simp only [if_pos hclose, scanOf, ne_eq, List.length_eq_zero_iff]
        by_cases hargs : t.args = []
        · simp only [hargs, not_true, if_true, if_false]
          exact ⟨rfl, hargs.symm, hready⟩
        · simp only [hargs, not_false_iff, if_true, if_false]
          exact ⟨rfl, rfl, hready⟩
      · simp only [if_neg hclose]
        by_cases hsharp : ch = byte '#'
        · simp only [if_pos hsharp]
          exact agree_mode (.comment 1) hready hle
            (show c.pos = c.pos - 1 + 1 by omega)
        · simp only [if_neg hsharp]
          by_cases hback : ch = backslash
          · subst hback
            exact agree_mode (.word [backslash] none true false) hready hle
              (hword true false rfl)
          · by_cases hd : ch = dquote
            · subst hd
              exact agree_mode (.word [] (some dquote) false false) hready (by omega)
                (hquote dquote (.inl rfl))
            · by_cases hs : ch = squote
              · subst hs
                exact agree_mode (.word [] (some squote) false false) hready (by omega)
                  (hquote squote (.inr rfl))
              · have hclosed : false = openEscape [ch] := by simp [openEscape, hback]
                by_cases hdollar : ch = byte '$'
                · subst hdollar
                  exact agree_mode (.word [byte '$'] none false true) hready hle
                    (hword false true rfl)
                · simp only [hback, hd, hs, hdollar, if_false, or_false,
                    beq_eq_false_iff_ne.mpr hback, beq_eq_false_iff_ne.mpr hdollar]
                  exact agree_mode (.word [ch] none false false) hready hle
                    (hword false false hclosed)

theorem pushWord_agree {word : List UInt8} (mode : Mode) (startLine : ℕ) (ch : UInt8)
    (hready : Ready c text t.line)
    (hstart : start + 1 ≤ c.pos)
    (hword : (c.buf.drop start).take (c.pos - 1 - start) = word)
    (hescaped : openEscape word = false) (hlen : c.pos - start ≤ ngxConfBuffer / 2 + 1)
    (hmode : mode = .space ∨ mode = .closed) :
    Agree (pushWord c (scanOf mode start startLine t.args) ch)
      (if ch = byte ';' then .done .ok (finish t word mode)
      else if ch = byte '{' then .done .blockStart (finish t word mode)
      else .next (finish t word mode)) text := by
  have hpush : pushWord c (scanOf mode start startLine t.args) ch =
      if ch = byte ';' then .done .ok c (t.args ++ [unescape word])
      else if ch = byte '{' then .done .blockStart c (t.args ++ [unescape word])
      else .next c (scanOf mode start startLine (t.args ++ [unescape word])) := by
    rw [← copyWord_eq_unescape ch hescaped, ← hword]
    rcases hmode with rfl | rfl <;> rfl
  rw [hpush]
  by_cases hend : ch = byte ';'
  · simp only [if_pos hend]
    exact ⟨rfl, rfl, hready⟩
  · by_cases hopen : ch = byte '{'
    · simp only [if_neg hend, if_pos hopen]
      exact ⟨rfl, rfl, hready⟩
    · simp only [if_neg hend, if_neg hopen]
      refine agree_next (t := finish t word mode) hready (by omega) ?_
      rcases hmode with rfl | rfl
      · exact lt_of_le_of_lt hlen (by decide)
      · exact hlen

theorem scanWord_agree {word : List UInt8} {quote : Option UInt8} {inVariable : Bool}
    (hready : Ready c text t.line) (hstart : start + 1 ≤ c.pos)
    (hword : (c.buf.drop start).take (c.pos - 1 - start) = word)
    (hbyte : (c.buf.drop start).take (c.pos - start) = word ++ [ch])
    (hescaped : openEscape word = false) (hlen : c.pos - start ≤ ngxConfBuffer / 2 + 1)
    (hquote : quote = none ∨ quote = some dquote ∨ quote = some squote) :
    Agree (scanWord c (scanOf (.word word quote false inVariable) start startLine t.args) ch)
      (stepWord t word quote inVariable ch) text := by
  have hgrow : ∀ escaped inVariable, escaped = (ch == backslash) →
      Holds c start (.word (word ++ [ch]) quote escaped inVariable) := by
    intro escaped inVariable hesc
    refine ⟨hbyte, ?_, hquote⟩
    rw [openEscape_append, hescaped, hesc]
    rfl
  have hle : start ≤ c.pos := by omega
  unfold scanWord stepWord
  by_cases hbrace : ch = byte '{' ∧ inVariable = true
  · obtain ⟨rfl, rfl⟩ := hbrace
    exact agree_mode (.word (word ++ [byte '{']) quote false true) hready hle
      (hgrow false true rfl)
  · have hbrace' : ¬ (ch = byte '{' ∧
        (scanOf (.word word quote false inVariable) start startLine t.args).inVariable =
          true) := hbrace
    rw [if_neg hbrace, if_neg hbrace']
    simp only [scanOf]
    by_cases hback : ch = backslash
    · subst hback
      exact agree_mode (.word (word ++ [backslash]) quote true false) hready hle
        (hgrow true false rfl)
    · by_cases hdollar : ch = byte '$'
      · subst hdollar
        exact agree_mode (.word (word ++ [byte '$']) quote false true) hready hle
          (hgrow false true rfl)
      · have hback' : (ch == backslash) = false := beq_eq_false_iff_ne.mpr hback
        have hstay : Agree
            (.next c (scanOf (.word (word ++ [ch]) quote false false) start startLine t.args))
            (.next { t with mode := .word (word ++ [ch]) quote false false }) text :=
          agree_mode _ hready hle (hgrow false false hback'.symm)
        simp only [hback, hdollar, if_false, or_false]
        rcases hquote with rfl | rfl | rfl
        · -- a token without quotes
          have hd : ((none : Option UInt8) == some dquote) = false := rfl
          have hs : ((none : Option UInt8) == some squote) = false := rfl
          simp only [hd, hs, Bool.false_eq_true, if_false]
          have hpush := pushWord_agree .space startLine ch
            hready hstart hword hescaped hlen (.inl rfl)
          by_cases hend : ch = byte ';'
          · simp only [hend, true_or, or_true, if_true] at hpush ⊢
            exact hpush
          · by_cases hopen : ch = byte '{'
            · simp only [hopen, or_true, if_true] at hpush ⊢
              exact hpush
            · by_cases hspace : isSpace ch = true
              · simp only [hend, hopen, hspace, true_or, if_true, if_false] at hpush ⊢
                exact hpush
              · simp only [hend, hopen, hspace, or_false, if_false, Bool.false_eq_true]
                exact hstay
        · have hd : (some dquote == some dquote) = true := rfl
          simp only [hd, if_true]
          by_cases hclose : ch = dquote
          · subst hclose
            exact pushWord_agree .closed startLine dquote hready hstart hword hescaped hlen
              (.inr rfl)
          · simp only [if_neg hclose]
            exact hstay
        · have hd : (some squote == some dquote) = false := rfl
          have hs : (some squote == some squote) = true := rfl
          simp only [hd, hs, Bool.false_eq_true, if_false, if_true]
          by_cases hclose : ch = squote
          · subst hclose
            exact pushWord_agree .closed startLine squote hready hstart hword hescaped hlen
              (.inr rfl)
          · simp only [if_neg hclose]
            exact hstay

end

/-- The state of the reference after the byte is counted. -/
def countLine (t : State) (ch : UInt8) : State :=
  { t with line := if ch = lf then t.line + 1 else t.line }

theorem take_byte {c : ConfFile} {ch : UInt8} (hpos : c.pos < c.buf.length)
    (hch : c.buf.getD c.pos 0 = ch) {start : ℕ} (hstart : start ≤ c.pos) :
    (c.buf.drop start).take (c.pos + 1 - start) =
      (c.buf.drop start).take (c.pos - start) ++ [ch] := by
  have hget : (c.buf.drop start)[c.pos - start]? = some ch := by
    rw [List.getElem?_drop, Nat.add_sub_cancel' hstart, List.getElem?_eq_getElem hpos]
    simpa [hpos] using hch
  rw [Nat.sub_add_comm hstart, List.take_add_one, hget]
  rfl

/-- A byte of the buffer. -/
theorem scanChar_agree {c : ConfFile} {s : Scan} {t : State} {ch : UInt8}
    {text : List UInt8} (h : Sim c s t (ch :: text)) (hpos : c.pos < c.buf.length)
    (hshort : wordLength t ≤ ngxConfBuffer / 2) :
    Agree (scanChar c s) (step t ch) text := by
  obtain ⟨hch, hready⟩ := h.toReady.advance hpos
  have hscan := h.scan
  have hstart := h.start_le
  have hholds := h.holds
  generalize s.start = start, s.startLine = startLine at hscan hstart hholds
  subst hscan
  have hready' : Ready (advance c ch) text (countLine t ch).line := hready
  have hlast : ((advance c ch).buf.drop ((advance c ch).pos - 1)).take 1 = [ch] := by
    have hbyte := take_byte hpos hch (le_refl c.pos)
    rwa [Nat.sub_self, List.take_zero, List.nil_append, Nat.add_sub_cancel_left] at hbyte
  have hspace : ∀ start startLine, Agree
      (scanSpace (advance c ch) (scanOf .space start startLine (countLine t ch).args) ch)
      (stepSpace (countLine t ch) ch) text := fun _ _ =>
    scanSpace_agree hready' (Nat.succ_pos _) hlast
  have hadvance : { c with
      pos := c.pos + 1, line := if ch = lf then c.line + 1 else c.line } = advance c ch := rfl
  have hcount : { t with line := if ch = lf then t.line + 1 else t.line } = countLine t ch :=
    rfl
  unfold scanChar step
  simp only [hch]
  rw [hadvance, hcount]
  clear hadvance hcount
  obtain ⟨mode, args, line⟩ := t
  cases mode with
  | space => exact hspace start startLine
  | comment seen =>
      by_cases hlf : ch = lf
      · subst hlf
        exact hspace start startLine
      · have hgo : (true && ch != lf) = true := by simp [hlf]
        simp only [scanOf, hgo, if_true, if_neg hlf]
        have hseen : c.pos = start + seen := hholds
        refine agree_mode (t := ⟨.comment seen, args, line⟩) (.comment (seen + 1)) ?_
          (show start ≤ c.pos + 1 by omega) (show c.pos + 1 = start + (seen + 1) by omega)
        simpa [countLine, hlf] using hready'
  | word word quote escaped inVariable =>
      obtain ⟨hword, hescaped, hquote⟩ := hholds
      have hbyte := take_byte hpos hch hstart
      rw [hword] at hbyte
      cases escaped with
      | true =>
          refine agree_mode (t := countLine ⟨.word word quote true inVariable, args, line⟩ ch)
            (.word (word ++ [ch]) quote false inVariable) hready' (by
              show start ≤ c.pos + 1
              omega) ⟨hbyte, ?_, hquote⟩
          rw [openEscape_append, ← hescaped]
          rfl
      | false =>
          have hlen : word.length = c.pos - start := by
            rw [← hword, List.length_take, List.length_drop]
            omega
          refine scanWord_agree (t := countLine ⟨.word word quote false inVariable, args, line⟩ ch)
            hready' (Nat.succ_le_succ hstart) hword hbyte hescaped.symm ?_ hquote
          have hshort' : word.length ≤ ngxConfBuffer / 2 := hshort
          show c.pos + 1 - start ≤ ngxConfBuffer / 2 + 1
          omega
  | closed =>
      have hlen : c.pos - start ≤ ngxConfBuffer / 2 + 1 := hholds
      have hfit : c.pos + 1 - start < ngxConfBuffer := by
        unfold ngxConfBuffer at *
        omega
      simp only [scanOf, Bool.false_and, Bool.false_eq_true, if_false, if_true]
      by_cases hsp : isSpace ch = true
      · simp only [hsp, if_true]
        exact agree_mode (t := countLine ⟨.closed, args, line⟩ ch) .space hready'
          (show start ≤ c.pos + 1 by omega) hfit
      · by_cases hend : ch = byte ';'
        · simp only [if_neg hsp, if_pos hend]
          exact ⟨rfl, rfl, hready'⟩
        · by_cases hopen : ch = byte '{'
          · simp only [if_neg hsp, if_neg hend, if_pos hopen]
            exact ⟨rfl, rfl, hready'⟩
          · by_cases hparen : ch = byte ')'
            · simp only [if_neg hsp, if_neg hend, if_neg hopen, if_pos hparen]
              exact hspace start startLine
            · simp only [if_neg hsp, if_neg hend, if_neg hopen, if_neg hparen]
              exact ⟨rfl, rfl, hready'⟩

/-! ## Refills -/

def refill (c : ConfFile) (start : ℕ) : ConfFile :=
  let len := c.pos - start
  let size := min (c.file.length - c.offset) (ngxConfBuffer - len)
  { c with
    buf := (c.buf.drop start).take len ++ (c.file.drop c.offset).take size
    pos := len
    offset := c.offset + size }

/-- A refill keeps the text and what stands before it from `start` on. -/
theorem Sim.refill {c : ConfFile} {s : Scan} {t : State} {ch : UInt8} {text : List UInt8}
    (h : Sim c s t (ch :: text)) (hpos : ¬ c.pos < c.buf.length)
    (hroom : c.pos - s.start < ngxConfBuffer) :
    Sim (refill c s.start) { s with start := 0 } t (ch :: text) ∧
      (refill c s.start).pos < (refill c s.start).buf.length := by
  have hle := h.pos_le
  have hstart := h.start_le
  have hbuf : c.buf.drop c.pos = [] := List.drop_eq_nil_of_le (by omega)
  have hfile : c.file.drop c.offset = ch :: text := by
    have hunread := h.unread
    rwa [hbuf, List.nil_append] at hunread
  have hmore : c.offset < c.file.length := by
    have hlen := congrArg List.length hfile
    simp only [List.length_drop, List.length_cons] at hlen
    omega
  have hkept : ((c.buf.drop s.start).take (c.pos - s.start)).length = c.pos - s.start := by
    simp only [List.length_take, List.length_drop]
    omega
  have hlen : (Conf.refill c s.start).buf.length =
      c.pos - s.start +
        min (c.file.length - c.offset) (ngxConfBuffer - (c.pos - s.start)) := by
    simp only [Conf.refill, List.length_append, hkept, List.length_take, List.length_drop]
    omega
  have htake : (Conf.refill c s.start).buf.take (c.pos - s.start) =
      (c.buf.drop s.start).take (c.pos - s.start) := by
    simp only [Conf.refill]
    rw [List.take_append_of_le_length hkept.ge, List.take_of_length_le hkept.le]
  refine ⟨⟨⟨h.fd, ?_, ?_, ?_, h.line_eq⟩, ?_, Nat.zero_le _, ?_⟩, ?_⟩
  · simp only [Conf.refill]
    rw [List.drop_append_of_le_length hkept.ge, List.drop_of_length_le hkept.le,
      List.nil_append, ← List.drop_drop, List.take_append_drop, hfile]
  · rw [hlen]
    exact Nat.le_add_right _ _
  · rw [hlen]
    omega
  · have hscan := h.scan
    generalize s.start = start, s.startLine = startLine at hscan
    subst hscan
    obtain ⟨mode, args, line⟩ := t
    cases mode <;> rfl
  · have hholds := h.holds
    obtain ⟨mode, args, line⟩ := t
    cases mode with
    | space => exact hroom
    | comment seen =>
        have hseen : c.pos = s.start + seen := hholds
        show c.pos - s.start = 0 + seen
        omega
    | word word quote escaped inVariable =>
        obtain ⟨hword, hescaped, hquote⟩ := hholds
        exact ⟨htake.trans hword, hescaped, hquote⟩
    | closed => exact hholds
  · rw [hlen]
    simp only [Conf.refill]
    omega

/-! ## A turn of the loop -/

/-- A comment that more text follows leaves room in the buffer. -/
def CommentFits (t : State) (text : List UInt8) : Prop :=
  match t.mode with
  | .comment seen => text = [] ∨ seen < ngxConfBuffer
  | _ => True

instance (t : State) (text : List UInt8) : Decidable (CommentFits t text) := by
  unfold CommentFits
  split <;> infer_instance

/-- The token of the reference is at most half of the buffer. -/
def WordFits (t : State) : Prop :=
  wordLength t ≤ ngxConfBuffer / 2

instance (t : State) : Decidable (WordFits t) :=
  inferInstanceAs (Decidable (_ ≤ _))

theorem Sim.room {c : ConfFile} {s : Scan} {t : State} {ch : UInt8} {text : List UInt8}
    (h : Sim c s t (ch :: text)) (hword : WordFits t)
    (hcomment : CommentFits t (ch :: text)) : c.pos - s.start < ngxConfBuffer := by
  have hholds := h.holds
  have hle := h.pos_le
  obtain ⟨mode, args, line⟩ := t
  cases mode with
  | space => exact hholds
  | comment seen =>
      have hseen : c.pos = s.start + seen := hholds
      rcases hcomment with hnil | hlt
      · simp at hnil
      · omega
  | word word quote escaped inVariable =>
      have hlen := congrArg List.length hholds.1
      simp only [List.length_take, List.length_drop] at hlen
      have hshort : word.length ≤ ngxConfBuffer / 2 := hword
      unfold ngxConfBuffer at *
      omega
  | closed =>
      have hclosed : c.pos - s.start ≤ ngxConfBuffer / 2 + 1 := hholds
      unfold ngxConfBuffer at *
      omega

theorem Sim.file_ne_nil {c : ConfFile} {s : Scan} {t : State} {ch : UInt8}
    {text : List UInt8} (h : Sim c s t (ch :: text)) (hpos : ¬ c.pos < c.buf.length) :
    ¬ c.file.length ≤ c.offset := by
  intro hend
  have hunread := h.unread
  rw [List.drop_eq_nil_of_le (by omega), List.drop_eq_nil_of_le hend] at hunread
  simp at hunread

theorem scanTurn_agree {c : ConfFile} {s : Scan} {t : State} {ch : UInt8}
    {text : List UInt8} (h : Sim c s t (ch :: text)) (hword : WordFits t)
    (hcomment : CommentFits t (ch :: text)) : Agree (scanTurn c s) (step t ch) text := by
  unfold scanTurn
  by_cases hpos : c.pos < c.buf.length
  · rw [if_pos hpos]
    exact scanChar_agree h hpos hword
  · have hroom := h.room hword hcomment
    obtain ⟨hsim, hpos'⟩ := h.refill hpos hroom
    simp only [if_neg hpos, if_neg (h.file_ne_nil hpos), if_neg hroom.ne]
    exact scanChar_agree hsim hpos' hword

/-- In a comment that fills the buffer a turn fails. -/
theorem scanTurn_long {c : ConfFile} {s : Scan} {t : State} {ch : UInt8} {text : List UInt8}
    (h : Sim c s t (ch :: text)) (hcomment : ¬ CommentFits t (ch :: text)) :
    ∃ started, scanTurn c s =
      .done (.error (.tooLongParameter started)) { c with line := s.startLine } t.args := by
  have hholds := h.holds
  have hscan := h.scan
  have hle := h.pos_le
  have hbuf := h.buf_le
  obtain ⟨mode, args, line⟩ := t
  cases mode with
  | space => simp [CommentFits] at hcomment
  | word word quote escaped inVariable => simp [CommentFits] at hcomment
  | closed => simp [CommentFits] at hcomment
  | comment seen =>
      have hseen : c.pos = s.start + seen := hholds
      have hlong : ngxConfBuffer ≤ seen := by simpa [CommentFits] using hcomment
      have hpos : ¬ c.pos < c.buf.length := by omega
      have hfull : c.pos - s.start = ngxConfBuffer := by omega
      refine ⟨(c.buf.drop s.start).take 10, ?_⟩
      unfold scanTurn
      simp only [if_neg hpos, if_neg (h.file_ne_nil hpos), if_pos hfull]
      generalize s.start = start, s.startLine = startLine at *
      subst hscan
      rfl

theorem scanTurn_end {c : ConfFile} {s : Scan} {t : State} (h : Sim c s t []) :
    scanTurn c s = .done (atEnd t) c t.args := by
  obtain ⟨hbuf, hfile⟩ := List.append_eq_nil_iff.mp h.unread
  have hpos : ¬ c.pos < c.buf.length := Nat.not_lt.mpr (List.drop_eq_nil_iff.mp hbuf)
  have hend : c.file.length ≤ c.offset := List.drop_eq_nil_iff.mp hfile
  have hscan := h.scan
  generalize s.start = start, s.startLine = startLine at hscan
  subst hscan
  unfold scanTurn
  rw [if_neg hpos, if_pos hend, h.fd]
  obtain ⟨mode, args, line⟩ := t
  cases mode <;> cases args <;> rfl

end MultiversionBalancer.Core.Conf
