import MultiversionBalancer.Core.ConfTokenStep

/-!
# Tokens across refills

The calls of `ngx_conf_read_token` over a file report what the reference reads in the
whole text, as long as no comment fills the buffer.
-/

namespace MultiversionBalancer.Core.Conf

open Http (byte lf)
open Tokeniser (State step stepSpace stepWord atEnd)

/-! ## A call -/

/-- `P` holds at every byte that the reference passes in a call. -/
def Within (P : State → List UInt8 → Prop) : State → List UInt8 → Prop
  | t, [] => P t []
  | t, ch :: text =>
      P t (ch :: text) ∧
        match step t ch with
        | .next t => Within P t text
        | .done _ _ => True

/-- `P` holds at every byte that the reference passes in all its calls. -/
def Always (P : State → List UInt8 → Prop) : State → List UInt8 → Prop
  | t, [] => P t []
  | t, ch :: text =>
      P t (ch :: text) ∧
        match step t ch with
        | .next t => Always P t text
        | .done result t => result.isFinal = true ∨ Always P { line := t.line } text

instance decidableAlways {P : State → List UInt8 → Prop}
    [∀ t text, Decidable (P t text)] :
    (t : State) → (text : List UInt8) → Decidable (Always P t text)
  | t, [] => inferInstanceAs (Decidable (P t []))
  | t, ch :: text =>
      have : Decidable (match step t ch with
          | .next t => Always P t text
          | .done result t =>
              result.isFinal = true ∨ Always P { line := t.line } text) :=
        match step t ch with
        | .next t => decidableAlways t text
        | .done _ t =>
            have := decidableAlways (P := P) { line := t.line } text
            inferInstanceAs (Decidable (_ ∨ _))
      inferInstanceAs (Decidable (_ ∧ _))

theorem atEnd_isFinal (t : State) : (atEnd t).isFinal = true := by
  unfold atEnd
  split <;> rfl

/-- The calls after the first go on with the rest of the text. -/
theorem always_iff {P : State → List UInt8 → Prop} (t : State) (text : List UInt8) :
    Always P t text ↔ Within P t text ∧
      ((Tokeniser.read t text).1.isFinal = true ∨
        Always P { line := (Tokeniser.read t text).2.1.line }
          (Tokeniser.read t text).2.2) := by
  induction text generalizing t with
  | nil =>
      simp [Always, Within, Tokeniser.read, atEnd_isFinal]
  | cons ch text ih =>
      simp only [Always, Within, Tokeniser.read]
      cases hstep : step t ch with
      | next t' => simp only [ih t', and_assoc]
      | done result t' => simp

theorem read_shortens {t : State} {text : List UInt8}
    (h : (Tokeniser.read t text).1.isFinal = false) :
    (Tokeniser.read t text).2.2.length < text.length := by
  induction text generalizing t with
  | nil =>
      rw [Tokeniser.read, atEnd_isFinal] at h
      exact absurd h.symm Bool.false_ne_true
  | cons ch text ih =>
      rw [Tokeniser.read] at h ⊢
      cases hstep : step t ch with
      | next t' =>
          rw [hstep] at h
          exact (ih h).trans (Nat.lt_succ_self _)
      | done result t' => exact Nat.lt_succ_self _

theorem scanLoop_eq {c : ConfFile} {s : Scan} {t : State} {text : List UInt8} {fuel : ℕ}
    (h : Sim c s t text) (hfuel : text.length < fuel)
    (hword : Within (fun t _ => WordFits t) t text) (hcomment : Within CommentFits t text) :
    ∃ c', scanLoop fuel c s =
        some ((Tokeniser.read t text).1, c', (Tokeniser.read t text).2.1.args) ∧
      Ready c' (Tokeniser.read t text).2.2 (Tokeniser.read t text).2.1.line := by
  induction text generalizing c s t fuel with
  | nil =>
      obtain ⟨n, rfl⟩ := Nat.exists_eq_succ_of_ne_zero (Nat.ne_zero_of_lt hfuel)
      refine ⟨c, ?_, h.toReady⟩
      simp only [scanLoop, scanTurn_end h]
      rfl
  | cons ch text ih =>
      obtain ⟨n, rfl⟩ := Nat.exists_eq_succ_of_ne_zero (Nat.ne_zero_of_lt hfuel)
      have hagree := scanTurn_agree h hword.1 hcomment.1
      simp only [scanLoop, Tokeniser.read]
      cases hstep : step t ch with
      | next t' =>
          have hword' := hword.2
          have hcomment' := hcomment.2
          rw [hstep] at hagree
          simp only [hstep] at hword' hcomment'
          cases hturn : scanTurn c s with
          | done result c' args =>
              rw [hturn] at hagree
              exact hagree.elim
          | next c' s' =>
              rw [hturn] at hagree
              exact ih hagree (by simpa using hfuel) hword' hcomment'
      | done result t' =>
          rw [hstep] at hagree
          cases hturn : scanTurn c s with
          | next c' s' =>
              rw [hturn] at hagree
              exact hagree.elim
          | done result' c' args =>
              rw [hturn] at hagree
              obtain ⟨rfl, rfl, hready⟩ := hagree
              exact ⟨c', rfl, hready⟩

theorem scanLoop_long {c : ConfFile} {s : Scan} {t : State} {text : List UInt8} {fuel : ℕ}
    (h : Sim c s t text) (hfuel : text.length < fuel)
    (hword : Within (fun t _ => WordFits t) t text) (hcomment : ¬ Within CommentFits t text) :
    ∃ started c' args,
      scanLoop fuel c s = some (.error (.tooLongParameter started), c', args) := by
  induction text generalizing c s t fuel with
  | nil =>
      refine absurd ?_ hcomment
      obtain ⟨mode, args, line⟩ := t
      cases mode <;> simp [Within, CommentFits]
  | cons ch text ih =>
      obtain ⟨n, rfl⟩ := Nat.exists_eq_succ_of_ne_zero (Nat.ne_zero_of_lt hfuel)
      by_cases hfits : CommentFits t (ch :: text)
      · have hagree := scanTurn_agree h hword.1 hfits
        simp only [scanLoop]
        cases hstep : step t ch with
        | done result t' => simp [Within, hfits, hstep] at hcomment
        | next t' =>
            have hword' := hword.2
            have hcomment' : ¬ Within CommentFits t' text := by
              simpa [Within, hfits, hstep] using hcomment
            rw [hstep] at hagree
            simp only [hstep] at hword'
            cases hturn : scanTurn c s with
            | done result c' args =>
                rw [hturn] at hagree
                exact hagree.elim
            | next c' s' =>
                rw [hturn] at hagree
                exact ih hagree (by simpa using hfuel) hword' hcomment'
      · obtain ⟨started, hturn⟩ := scanTurn_long h hfits
        refine ⟨started, { c with line := s.startLine }, t.args, ?_⟩
        simp only [scanLoop, hturn]

theorem Ready.sim {c : ConfFile} {text : List UInt8} {line : ℕ} (h : Ready c text line) :
    Sim c { start := c.pos, startLine := c.line } { line } text := by
  refine ⟨h, rfl, le_refl _, ?_⟩
  show c.pos - c.pos < ngxConfBuffer
  rw [Nat.sub_self]
  decide

theorem Ready.unread_eq {c : ConfFile} {text : List UInt8} {line : ℕ} (h : Ready c text line) :
    c.unread = text.length := by
  rw [← h.unread, List.length_append, List.length_drop, List.length_drop]
  rfl

/-- A call of the function is a call of the reference. -/
theorem readToken_eq {c : ConfFile} {text : List UInt8} {line : ℕ} (h : Ready c text line)
    (hword : Within (fun t _ => WordFits t) { line } text)
    (hcomment : Within CommentFits { line } text) :
    ∃ c', ngxConfReadToken c =
        some ((Tokeniser.read { line } text).1, c',
          (Tokeniser.read { line } text).2.1.args) ∧
      Ready c' (Tokeniser.read { line } text).2.2
        (Tokeniser.read { line } text).2.1.line := by
  refine scanLoop_eq h.sim ?_ hword hcomment
  rw [h.unread_eq]
  exact Nat.lt_succ_self _

theorem readToken_long {c : ConfFile} {text : List UInt8} {line : ℕ} (h : Ready c text line)
    (hword : Within (fun t _ => WordFits t) { line } text)
    (hcomment : ¬ Within CommentFits { line } text) :
    ∃ started c' args,
      ngxConfReadToken c = some (.error (.tooLongParameter started), c', args) := by
  refine scanLoop_long h.sim ?_ hword hcomment
  rw [h.unread_eq]
  exact Nat.lt_succ_self _

/-! ## All calls -/

/-- No token of the text is longer than half of the buffer. -/
def ShortTokens (text : List UInt8) : Prop :=
  Always (fun t _ => WordFits t) {} text

/-- No comment of the text fills the buffer before the text ends. -/
def ShortComments (text : List UInt8) : Prop :=
  Always CommentFits {} text

instance (text : List UInt8) : Decidable (ShortTokens text) :=
  decidableAlways _ _

instance (text : List UInt8) : Decidable (ShortComments text) :=
  decidableAlways _ _

theorem readTokens_eq {n : ℕ} {c : ConfFile} {text : List UInt8} {line : ℕ}
    (h : Ready c text line) (hword : Always (fun t _ => WordFits t) { line } text)
    (hcomment : Always CommentFits { line } text) :
    readTokens n c = some (Tokeniser.reports n line text) := by
  induction n generalizing c text line with
  | zero => rfl
  | succ n ih =>
      obtain ⟨hword, hwords⟩ := (always_iff _ _).mp hword
      obtain ⟨hcomment, hcomments⟩ := (always_iff _ _).mp hcomment
      obtain ⟨c', hcall, hready⟩ := readToken_eq h hword hcomment
      simp only [readTokens, hcall, Tokeniser.reports, hready.line_eq]
      by_cases hfinal : (Tokeniser.read { line } text).1.isFinal = true
      · simp only [if_pos hfinal]
      · simp only [if_neg hfinal]
        rw [ih hready (hwords.resolve_left hfinal) (hcomments.resolve_left hfinal)]
        rfl

theorem stepSpace_ne_tooLong (t : State) (ch : UInt8) (started : List UInt8) (t' : State) :
    stepSpace t ch ≠ .done (.error (.tooLongParameter started)) t' := by
  unfold stepSpace
  grind

theorem step_ne_tooLong (t : State) (ch : UInt8) (started : List UInt8) (t' : State) :
    step t ch ≠ .done (.error (.tooLongParameter started)) t' := by
  have hspace : ∀ t ch, stepSpace t ch ≠ .done (.error (.tooLongParameter started)) t' :=
    fun t ch => stepSpace_ne_tooLong t ch started t'
  unfold step stepWord
  grind

theorem read_ne_tooLong (t : State) (text started : List UInt8) :
    (Tokeniser.read t text).1 ≠ .error (.tooLongParameter started) := by
  induction text generalizing t with
  | nil =>
      simp only [Tokeniser.read, atEnd]
      split <;> simp
  | cons ch text ih =>
      rw [Tokeniser.read]
      cases hstep : step t ch with
      | next t' => exact ih t'
      | done result t' =>
          rintro rfl
          exact step_ne_tooLong t ch started t' hstep

/-- After a long comment the function reports another sequence. -/
theorem readTokens_ne {c : ConfFile} {text : List UInt8} {line : ℕ}
    (h : Ready c text line) (hword : Always (fun t _ => WordFits t) { line } text)
    (hcomment : ¬ Always CommentFits { line } text) :
    ∃ n, readTokens n c ≠ some (Tokeniser.reports n line text) := by
  induction hlen : text.length using Nat.strong_induction_on generalizing c text line with
  | _ k ih =>
      subst hlen
      obtain ⟨hword, hwords⟩ := (always_iff _ _).mp hword
      by_cases hcall : Within CommentFits { line } text
      · obtain ⟨c', htoken, hready⟩ := readToken_eq h hword hcall
        rw [always_iff, not_and, not_or] at hcomment
        obtain ⟨hfinal, hrest⟩ := hcomment hcall
        obtain ⟨n, hn⟩ := ih _ (read_shortens (by simpa using hfinal)) hready
          (hwords.resolve_left hfinal) hrest rfl
        refine ⟨n + 1, fun heq => hn ?_⟩
        simp only [readTokens, htoken, Tokeniser.reports, hready.line_eq, if_neg hfinal] at heq
        obtain ⟨reports, hreports, hcons⟩ := Option.map_eq_some_iff.mp heq
        rw [hreports, (List.cons.inj hcons).2]
      · obtain ⟨started, c', args, htoken⟩ := readToken_long h hword hcall
        refine ⟨1, fun heq => ?_⟩
        have hstop : (Result.error (.tooLongParameter started)).isFinal = true := rfl
        have hresult := read_ne_tooLong { line } text started
        simp only [readTokens, htoken, Tokeniser.reports, hstop, if_true] at heq
        by_cases hfinal : (Tokeniser.read { line } text).1.isFinal = true
        · simp only [if_pos hfinal, Option.some.injEq, List.cons.injEq, Report.mk.injEq] at heq
          exact hresult heq.1.1.symm
        · simp only [if_neg hfinal, Option.some.injEq, List.cons.injEq, Report.mk.injEq] at heq
          exact hresult heq.1.1.symm

theorem openFile_ready (text : List UInt8) : Ready (openFile text) text 1 :=
  ⟨rfl, rfl, le_refl 0, Nat.zero_le _, rfl⟩

/-- The calls over a file of short tokens report what the reference reads in the whole
text, wherever the refills fall, unless a comment fills the buffer. -/
theorem tokens_independent_of_refills {text : List UInt8} (h : ShortTokens text) :
    (∀ n, readTokens n (openFile text) = some (Tokeniser.reports n 1 text)) ↔
      ShortComments text := by
  refine ⟨fun hall => ?_, fun hcomments n => readTokens_eq (openFile_ready text) h hcomments⟩
  by_contra hlong
  obtain ⟨n, hn⟩ := readTokens_ne (openFile_ready text) h hlong
  exact hn (hall n)

theorem tokens_independent_of_refills_listen :
    (∀ n, readTokens n (openFile (Http.bytes "listen 80;")) =
        some (Tokeniser.reports n 1 (Http.bytes "listen 80;"))) ↔
      ShortComments (Http.bytes "listen 80;") :=
  tokens_independent_of_refills (by decide)

/-! ## A long comment -/

/-- A directive after a comment of as many bytes as the buffer has. -/
def longComment : List UInt8 :=
  byte '#' :: (List.replicate 4095 (byte 'x') ++ [lf, byte 'a', byte ';'])

section

variable {args : List (List UInt8)} {line : ℕ} {rest : List UInt8} (seen k : ℕ)

theorem step_comment : step ⟨.comment seen, args, line⟩ (byte 'x') =
    .next ⟨.comment (seen + 1), args, line⟩ := rfl

theorem read_comment :
    Tokeniser.read ⟨.comment seen, args, line⟩ (List.replicate k (byte 'x') ++ rest) =
      Tokeniser.read ⟨.comment (seen + k), args, line⟩ rest := by
  induction k generalizing seen with
  | zero => rfl
  | succ k ih =>
      rw [List.replicate_succ, List.cons_append, Tokeniser.read, step_comment]
      exact (ih (seen + 1)).trans (by rw [Nat.add_right_comm, Nat.add_assoc])

theorem always_comment {P : State → List UInt8 → Prop}
    (h : Always P ⟨.comment seen, args, line⟩ (List.replicate k (byte 'x') ++ rest)) :
    Always P ⟨.comment (seen + k), args, line⟩ rest := by
  induction k generalizing seen with
  | zero => exact h
  | succ k ih =>
      rw [List.replicate_succ, List.cons_append, Always, step_comment] at h
      have hrest := ih (seen + 1) h.2
      rwa [Nat.add_right_comm, Nat.add_assoc] at hrest

theorem shortTokens_comment
    (h : Always (fun t _ => WordFits t) ⟨.comment (seen + k), args, line⟩ rest) :
    Always (fun t _ => WordFits t) ⟨.comment seen, args, line⟩
      (List.replicate k (byte 'x') ++ rest) := by
  induction k generalizing seen with
  | zero => exact h
  | succ k ih =>
      rw [List.replicate_succ, List.cons_append, Always, step_comment]
      refine ⟨Nat.zero_le _, ih (seen + 1) ?_⟩
      rwa [Nat.add_right_comm, Nat.add_assoc]

end

/-- A comment of as many bytes as the buffer has makes the next directive fail. -/
theorem long_comment_fails :
    ShortTokens longComment ∧
      Tokeniser.reports 1 1 longComment = [⟨.ok, [[byte 'a']], 2⟩] ∧
      ¬ ∀ n, readTokens n (openFile longComment) =
        some (Tokeniser.reports n 1 longComment) := by
  have hshort : ShortTokens longComment :=
    ⟨Nat.zero_le _, shortTokens_comment 1 4095 (by decide)⟩
  have hlong : ¬ ShortComments longComment := by
    intro h
    have hrest := always_comment 1 4095 h.2
    exact absurd hrest.1 (by decide)
  refine ⟨hshort, ?_, ?_⟩
  · have hread : Tokeniser.read {} longComment =
        Tokeniser.read ⟨.comment 4096, [], 1⟩ [lf, byte 'a', byte ';'] := by
      have hsharp : step {} (byte '#') = .next ⟨.comment 1, [], 1⟩ := rfl
      rw [longComment, Tokeniser.read, hsharp]
      simp only [read_comment]
    rw [Tokeniser.reports, hread]
    rfl
  · intro hall
    obtain ⟨n, hn⟩ := readTokens_ne (openFile_ready longComment) hshort hlong
    exact hn (hall n)

end MultiversionBalancer.Core.Conf
