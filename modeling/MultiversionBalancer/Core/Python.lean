import MultiversionBalancer.Core.TwoDecimals
import Mathlib.Data.List.DropRight

/-!
# Texts and numbers of Python

What `monitoring_server.py` uses of Python: `str.split`, slices, the conversions `int` and
`float`, and the format `"{:.2f}"`.  Texts consist of ASCII characters.
-/

namespace MultiversionBalancer.Core.Python

/-! ## The functions of the language -/

/-- `str.split`, behind `skip` characters of a separator: the part that goes on, and the
parts after it. -/
def splitFrom (sep : Text) : ℕ → Text → Text × List Text
  | _, [] => ([], [])
  | skip + 1, _ :: s => splitFrom sep skip s
  | 0, c :: s =>
      if sep.isPrefixOf (c :: s) then
        ([], (splitFrom sep (sep.length - 1) s).1 :: (splitFrom sep (sep.length - 1) s).2)
      else (c :: (splitFrom sep 0 s).1, (splitFrom sep 0 s).2)

/-- `s.split(sep)` for a separator that is not empty. -/
def split (s sep : Text) : List Text :=
  (splitFrom sep 0 s).1 :: (splitFrom sep 0 s).2

/-- `sep.join(parts)`. -/
def join (sep : Text) (parts : List Text) : Text :=
  sep.intercalate parts

def innerSlice (s : Text) : Text :=
  s.dropLast.drop 1

def isSpace (c : Char) : Bool :=
  c == ' ' || (9 ≤ c.toNat && c.toNat ≤ 13) || (28 ≤ c.toNat && c.toNat ≤ 31)

def strip (s : Text) : Text :=
  (s.dropWhile isSpace).rdropWhile isSpace

/-- The underscores of a number stand between digits; `prev` is the character before. -/
def dropUnderscores (prev : Char) : Text → Option Text
  | [] => if prev = '_' then none else some []
  | c :: s =>
      if c = '_' then
        if prev.isDigit then dropUnderscores c s else none
      else if prev = '_' ∧ c.isDigit = false then none
      else (dropUnderscores c s).map (c :: ·)

/-- Whether there is a minus sign, and the text behind the sign. -/
def sign : Text → Bool × Text
  | '-' :: s => (true, s)
  | '+' :: s => (false, s)
  | s => (false, s)

def digits (s : Text) : Option ℕ :=
  if s ≠ [] ∧ s.all Char.isDigit then some (Nat.ofDigitChars 10 s 0) else none

/-- A number with a sign or without one. -/
def signed (s : Text) : Option ℤ :=
  (digits (sign s).2).map fun n : ℕ => if (sign s).1 then -(n : ℤ) else (n : ℤ)

def int (s : Text) : Option ℤ :=
  (dropUnderscores ' ' (strip s)).bind signed

/-- The values of the type `float`; a number has a sign of its own, since there are two
zeros. -/
inductive PyFloat where
  | finite (negative : Bool) (magnitude : ℚ)
  | infinity (negative : Bool)
  | nan
  deriving DecidableEq

/-- The exponent at the end of a number. -/
def exponent : Text → Option ℤ
  | [] => some 0
  | c :: s => if c.toLower = 'e' then signed s else none

/-- A decimal number without a sign. -/
def decimal (s : Text) : Option ℚ :=
  let whole := s.takeWhile Char.isDigit
  let s := s.dropWhile Char.isDigit
  let frac := if s.head? = some '.' then s.tail.takeWhile Char.isDigit else []
  let s := if s.head? = some '.' then s.tail.dropWhile Char.isDigit else s
  if whole ++ frac = [] then none
  else (exponent s).map fun e : ℤ =>
    (Nat.ofDigitChars 10 (whole ++ frac) 0 : ℚ) * (10 : ℚ) ^ (e - (frac.length : ℤ))

/-- The nearest value of the type; numbers below the normal range are not treated
separately. -/
def ofMagnitude (negative : Bool) (q : ℚ) : PyFloat :=
  if roundTo 53 q < 2 ^ 1024 then .finite negative (roundTo 53 q) else .infinity negative

/-- What is behind the sign of a number. -/
def unsigned (negative : Bool) (s : Text) : Option PyFloat :=
  let lower := s.map Char.toLower
  if lower = "inf".toList ∨ lower = "infinity".toList then some (.infinity negative)
  else if lower = "nan".toList then some .nan
  else (decimal s).map (ofMagnitude negative)

def float (s : Text) : Option PyFloat :=
  (dropUnderscores ' ' (strip s)).bind fun s => unsigned (sign s).1 (sign s).2

/-- A number of hundredths with two decimals. -/
def fixed2 (hundredths : ℕ) : Text :=
  ngxSprintfNum (hundredths / 100) ' ' 0 ++ '.' :: ngxSprintfNum (hundredths % 100) '0' 2

def format2f : PyFloat → Text
  | .finite negative q =>
      (if negative then ['-'] else []) ++ fixed2 (roundHalfEven (q * 100)).toNat
  | .infinity negative => (if negative then ['-'] else []) ++ "inf".toList
  | .nan => "nan".toList

/-! ## Splitting -/

variable {c : Char} {s t sep : Text}

theorem split_nil (sep : Text) : split [] sep = [[]] := by
  rw [split, splitFrom]

/-- A separator of one character. -/
theorem split_singleton (c : Char) (s : Text) : split s [c] = s.splitOn c := by
  induction s with
  | nil => exact (split_nil [c]).trans (List.splitOn_nil c).symm
  | cons d s ih =>
      rw [split, splitFrom]
      by_cases hd : c = d
      · subst hd
        have hprefix : List.isPrefixOf [c] (c :: s) = true := by simp
        rw [if_pos hprefix, List.splitOn_cons_eq_if_modifyHead, if_pos (by simp)]
        exact congrArg ([] :: ·) ih
      · have hprefix : ¬ List.isPrefixOf [c] (d :: s) = true := by simpa using hd
        rw [if_neg hprefix, List.splitOn_cons_eq_if_modifyHead, if_neg (by simpa using Ne.symm hd),
          ← ih, split, List.modifyHead_cons]

theorem split_of_notMem (h : c ∉ s) : split s [c] = [s] := by
  rw [split_singleton, List.splitOn_eq_singleton h]

theorem split_append_cons (h : c ∉ s) (t : Text) : split (s ++ c :: t) [c] = s :: split t [c] := by
  rw [split_singleton, split_singleton, List.splitOn_append_cons_self_of_not_mem h]

theorem split_pair (hs : c ∉ s) (ht : c ∉ t) : split (s ++ c :: t) [c] = [s, t] := by
  rw [split_append_cons hs, split_of_notMem ht]

/-- A text has one part more than separators. -/
theorem length_split (c : Char) (s : Text) : (split s [c]).length = s.count c + 1 := by
  rw [split_singleton]
  induction s with
  | nil => rw [List.splitOn_nil, List.count_nil, List.length_singleton]
  | cons d s ih =>
      rw [List.splitOn_cons_eq_if_modifyHead, List.count_cons]
      by_cases hd : (d == c) = true
      · rw [if_pos hd, if_pos hd, List.length_cons, ih]
      · rw [if_neg hd, if_neg hd, List.length_modifyHead, ih, Nat.add_zero]

theorem splitFrom_skip (sep s t : Text) : splitFrom sep s.length (s ++ t) = splitFrom sep 0 t := by
  induction s with
  | nil => rfl
  | cons c s ih =>
      rw [List.length_cons, List.cons_append, splitFrom, ih]

/-- A character of the separator that the text lacks. -/
theorem splitFrom_of_notMem (hsep : c ∈ sep) (h : c ∉ s) : splitFrom sep 0 s = (s, []) := by
  induction s with
  | nil => rw [splitFrom]
  | cons d s ih =>
      have hprefix : ¬ sep.isPrefixOf (d :: s) = true := fun hpre =>
        h ((List.isPrefixOf_iff_prefix.mp hpre).subset hsep)
      rw [splitFrom, if_neg hprefix, ih fun hmem => h (List.mem_cons_of_mem d hmem)]

/-- A separator with a character of its own is found where it stands. -/
theorem split_marker {a b : Text} (ha : c ∉ a) (hs : c ∉ s) (ht : c ∉ t) :
    split (s ++ (a ++ c :: b) ++ t) (a ++ c :: b) = [s, t] := by
  have hmem : c ∈ a ++ c :: b := List.mem_append_right a List.mem_cons_self
  suffices hfrom : splitFrom (a ++ c :: b) 0 (s ++ (a ++ c :: b) ++ t) = (s, [t]) by
    rw [split, hfrom]
  induction s with
  | nil =>
      obtain ⟨d, rest, hsep⟩ := List.exists_cons_of_ne_nil (List.ne_nil_of_mem hmem)
      rw [List.nil_append]
      generalize a ++ c :: b = sep at hmem hsep ⊢
      have hprefix : sep.isPrefixOf (d :: (rest ++ t)) = true :=
        List.isPrefixOf_iff_prefix.mpr ⟨t, by rw [hsep, List.cons_append]⟩
      have hrest : splitFrom sep (sep.length - 1) (rest ++ t) = (t, []) := by
        rw [hsep, List.length_cons, Nat.add_sub_cancel, ← hsep, splitFrom_skip,
          splitFrom_of_notMem hmem ht]
      rw [show sep ++ t = d :: (rest ++ t) by rw [hsep, List.cons_append], splitFrom,
        if_pos hprefix, hrest]
  | cons d s ih =>
      obtain ⟨hd, hs⟩ := not_or.mp (mt List.mem_cons.mpr hs)
      have hprefix : ¬ (a ++ c :: b).isPrefixOf (d :: (s ++ (a ++ c :: b) ++ t)) = true := by
        intro hpre
        obtain ⟨z, hz⟩ := List.isPrefixOf_iff_prefix.mp hpre
        have hfirst := congrArg (List.idxOf c) hz
        simp only [List.append_assoc, List.cons_append, List.idxOf_append, if_neg ha, if_neg hs,
          List.idxOf_cons_self, List.idxOf_cons_ne _ (Ne.symm hd)] at hfirst
        omega
      rw [List.cons_append, List.cons_append, splitFrom, if_neg hprefix, ih hs]

/-! ## Numbers that are printed -/

/-- White space behind a text is dropped. -/
theorem strip_append {blanks : Text} (hs : ∀ ch ∈ s, isSpace ch = false)
    (hblanks : ∀ ch ∈ blanks, isSpace ch = true) : strip (s ++ blanks) = s := by
  have hright : (s ++ blanks).rdropWhile isSpace = s := by
    have hreverse : s.reverse.dropWhile isSpace = s.reverse := by
      cases hr : s.reverse with
      | nil => rfl
      | cons ch rest =>
          have hch : ch ∈ s := by
            rw [← List.mem_reverse, hr]
            exact List.mem_cons_self
          rw [List.dropWhile_cons_of_neg]
          rw [hs ch hch]
          exact Bool.false_ne_true
    rw [List.rdropWhile, List.reverse_append, List.dropWhile_append_of_pos
      fun ch hch => hblanks ch (List.mem_reverse.mp hch), hreverse, List.reverse_reverse]
  cases s with
  | nil =>
      have hdrop : blanks.dropWhile isSpace = [] :=
        List.dropWhile_eq_nil_iff.mpr hblanks
      rw [strip, List.nil_append, hdrop, List.rdropWhile_nil]
  | cons ch s =>
      have hch : ¬ isSpace ch = true := by
        rw [hs ch List.mem_cons_self]
        exact Bool.false_ne_true
      rw [strip, List.cons_append, List.dropWhile_cons_of_neg hch, ← List.cons_append, hright]

theorem dropUnderscores_of_notMem {prev : Char} (hprev : prev ≠ '_') (h : '_' ∉ s) :
    dropUnderscores prev s = some s := by
  induction s generalizing prev with
  | nil => rw [dropUnderscores, if_neg hprev]
  | cons ch s ih =>
      obtain ⟨hch, hs⟩ := not_or.mp (mt List.mem_cons.mpr h)
      rw [dropUnderscores, if_neg (Ne.symm hch), if_neg fun hand => hprev hand.1,
        ih (Ne.symm hch) hs]
      rfl

def isNumberChar (ch : Char) : Bool :=
  ch.isDigit || ['.', '-', 'a', 'f', 'i', 'n'].contains ch

theorem forall_mem_of_all {p : Char → Prop} [DecidablePred p] {s : Text}
    (h : (s.all fun ch => decide (p ch)) = true) : ∀ ch ∈ s, p ch := fun ch hch =>
  of_decide_eq_true (List.all_eq_true.mp h ch hch)

theorem isSpace_of_number {ch : Char} (h : isNumberChar ch = true) : isSpace ch = false := by
  have hlarge : 32 < ch.toNat := by
    rcases Bool.or_eq_true_iff.mp h with hdigit | hmark
    · simp only [Char.isDigit, Bool.and_eq_true, decide_eq_true_eq, ge_iff_le,
        UInt32.le_iff_toNat_le] at hdigit
      exact Nat.lt_of_lt_of_le (by decide) hdigit.1
    · have hall : ∀ d ∈ ['.', '-', 'a', 'f', 'i', 'n'], 32 < d.toNat :=
        forall_mem_of_all (by decide)
      exact hall ch (List.contains_iff_mem.mp hmark)
  have hblank : ch ≠ ' ' := fun heq => by
    rw [heq] at hlarge
    exact absurd hlarge (by decide)
  simp only [isSpace, beq_eq_false_iff_ne.mpr hblank, Bool.false_or, Bool.or_eq_false_iff,
    Bool.and_eq_false_iff, decide_eq_false_iff_not]
  omega

theorem float_append {blanks : Text} (hs : ∀ ch ∈ s, isNumberChar ch = true)
    (hblanks : ∀ ch ∈ blanks, isSpace ch = true) :
    float (s ++ blanks) = unsigned (sign s).1 (sign s).2 := by
  have hunderscore : '_' ∉ s := fun hmem => by
    have h := hs '_' hmem
    revert h
    decide
  rw [float, strip_append (fun ch hch => isSpace_of_number (hs ch hch)) hblanks,
    dropUnderscores_of_notMem (by decide) hunderscore, Option.bind_some]

theorem ngxSprintfNum_zero (n : ℕ) (zero : Char) : ngxSprintfNum n zero 0 = Nat.toDigits 10 n := by
  rw [ngxSprintfNum, Nat.zero_sub, List.replicate_zero, List.nil_append]

theorem isDigit_toDigits {n : ℕ} : ∀ ch ∈ Nat.toDigits 10 n, ch.isDigit = true := fun _ hch =>
  Nat.isDigit_of_mem_toDigits (by decide) (by decide) hch

theorem isDigit_ngxSprintfNum {n width : ℕ} :
    ∀ ch ∈ ngxSprintfNum n '0' width, ch.isDigit = true := by
  rw [ngxSprintfNum, List.forall_mem_append]
  refine ⟨fun ch hch => ?_, isDigit_toDigits⟩
  rw [List.eq_of_mem_replicate hch]
  decide

theorem ofDigitChars_ngxSprintfNum {n width : ℕ} (hwidth : 0 < width) (hn : n < 10 ^ width)
    (init : ℕ) : Nat.ofDigitChars 10 (ngxSprintfNum n '0' width) init = 10 ^ width * init + n := by
  have hlen : (Nat.toDigits 10 n).length ≤ width :=
    (Nat.length_toDigits_le_iff (by decide) hwidth).mpr hn
  rw [ngxSprintfNum, Nat.ofDigitChars_append, Nat.ofDigitChars_replicate_zero,
    Nat.ofDigitChars_eq_ofDigitChars_zero, Nat.ofDigitChars_toDigits (by decide) (by decide),
    ← mul_assoc, ← pow_add, Nat.add_sub_of_le hlen]

theorem takeWhile_digits {r : Text} (hs : ∀ ch ∈ s, ch.isDigit = true)
    (hr : ∀ ch ∈ r.head?, ch.isDigit = false) :
    (s ++ r).takeWhile Char.isDigit = s ∧ (s ++ r).dropWhile Char.isDigit = r := by
  rw [List.takeWhile_append_of_pos hs, List.dropWhile_append_of_pos hs]
  cases r with
  | nil => exact ⟨List.append_nil s, rfl⟩
  | cons ch r =>
      have hch : ¬ ch.isDigit = true := by
        rw [hr ch rfl]
        exact Bool.false_ne_true
      rw [List.takeWhile_cons_of_neg hch, List.dropWhile_cons_of_neg hch]
      exact ⟨List.append_nil s, rfl⟩

theorem decimal_toDigits (n : ℕ) : decimal (Nat.toDigits 10 n) = some (n : ℚ) := by
  obtain ⟨htake, hdrop⟩ := takeWhile_digits (s := Nat.toDigits 10 n) (r := []) isDigit_toDigits
    (fun ch hch => by cases hch)
  rw [List.append_nil] at htake hdrop
  simp only [decimal, htake, hdrop, List.head?_nil, reduceCtorEq, if_false, List.append_nil,
    if_neg Nat.toDigits_ne_nil, exponent, Option.map_some, List.length_nil, Nat.cast_zero,
    sub_zero, zpow_zero, mul_one, Nat.ofDigitChars_ten_toDigits]

theorem decimal_fixed2 (m : ℕ) : decimal (fixed2 m) = some ((m : ℚ) / 100) := by
  obtain ⟨htake, hdrop⟩ := takeWhile_digits (s := Nat.toDigits 10 (m / 100))
    (r := '.' :: ngxSprintfNum (m % 100) '0' 2) isDigit_toDigits (fun ch hch => by cases hch; rfl)
  obtain ⟨hfrac, hend⟩ := takeWhile_digits (s := ngxSprintfNum (m % 100) '0' 2) (r := [])
    isDigit_ngxSprintfNum (fun ch hch => by cases hch)
  have hlength : (ngxSprintfNum (m % 100) '0' 2).length = 2 := by
    have hle : (Nat.toDigits 10 (m % 100)).length ≤ 2 :=
      (Nat.length_toDigits_le_iff (by decide) (by decide)).mpr (Nat.mod_lt m (by decide))
    rw [ngxSprintfNum, List.length_append, List.length_replicate, Nat.sub_add_cancel hle]
  have hvalue : Nat.ofDigitChars 10
      (Nat.toDigits 10 (m / 100) ++ ngxSprintfNum (m % 100) '0' 2) 0 = m := by
    have hmod : m % 100 < 10 ^ 2 := Nat.mod_lt m (by decide)
    rw [Nat.ofDigitChars_append, Nat.ofDigitChars_ten_toDigits,
      ofDigitChars_ngxSprintfNum (by decide) hmod]
    exact Nat.div_add_mod m 100
  have hne : Nat.toDigits 10 (m / 100) ++ ngxSprintfNum (m % 100) '0' 2 ≠ [] :=
    List.append_ne_nil_of_left_ne_nil Nat.toDigits_ne_nil _
  rw [List.append_nil] at hfrac hend
  rw [fixed2, ngxSprintfNum_zero]
  simp only [decimal, htake, hdrop, List.head?_cons, if_true, List.tail_cons, hfrac, hend,
    if_neg hne, exponent, Option.map_some, hlength, hvalue]
  norm_num
  ring

theorem sign_of_digit {ch : Char} (h : ch.isDigit = true) (s : Text) :
    sign (ch :: s) = (false, ch :: s) := by
  unfold sign
  split
  · next heq =>
      cases heq
      cases h
  · next heq =>
      cases heq
      cases h
  · rfl

theorem exists_digit (n : ℕ) (r : Text) :
    ∃ ch s, Nat.toDigits 10 n ++ r = ch :: s ∧ ch.isDigit = true := by
  obtain ⟨ch, s, hs⟩ := List.exists_cons_of_ne_nil (Nat.toDigits_ne_nil (n := n) (b := 10))
  have hch : ch ∈ Nat.toDigits 10 n := by
    rw [hs]
    exact List.mem_cons_self
  exact ⟨ch, s ++ r, by rw [hs, List.cons_append], isDigit_toDigits ch hch⟩

theorem sign_printed (negative : Bool) (n : ℕ) (r : Text) :
    sign ((if negative then ['-'] else []) ++ (Nat.toDigits 10 n ++ r)) =
      (negative, Nat.toDigits 10 n ++ r) := by
  cases negative with
  | true => rfl
  | false =>
      obtain ⟨ch, s, hs, hch⟩ := exists_digit n r
      rw [hs]
      exact sign_of_digit hch s

/-- A text that begins with a digit is a decimal number, if it is a number. -/
theorem unsigned_digits (negative : Bool) (n : ℕ) (r : Text) :
    unsigned negative (Nat.toDigits 10 n ++ r) =
      (decimal (Nat.toDigits 10 n ++ r)).map (ofMagnitude negative) := by
  obtain ⟨ch, s, hs, hch⟩ := exists_digit n r
  have hlower : ch.toLower.isDigit = true := by
    have hsame : ch.toLower = ch := by
      simp only [Char.isDigit, Bool.and_eq_true, decide_eq_true_eq] at hch
      exact dif_neg fun hupper => absurd (UInt32.le_trans hupper.1 hch.2) (by decide)
    rw [hsame, hch]
  have hword {w : Text} (hw : w.head?.map Char.isDigit = some false) :
      ¬ (ch :: s).map Char.toLower = w := by
    rintro rfl
    rw [List.map_cons, List.head?_cons, Option.map_some, hlower] at hw
    cases hw
  rw [hs, unsigned, if_neg (not_or.mpr ⟨hword (by decide), hword (by decide)⟩),
    if_neg (hword (by decide))]

theorem isNumberChar_digit {ch : Char} (h : ch.isDigit = true) : isNumberChar ch = true := by
  rw [isNumberChar, h, Bool.true_or]

theorem isNumberChar_printed (negative : Bool) (n : ℕ) {r : Text}
    (hr : ∀ ch ∈ r, isNumberChar ch = true) :
    ∀ ch ∈ (if negative then ['-'] else []) ++ (Nat.toDigits 10 n ++ r),
      isNumberChar ch = true := by
  have hminus : isNumberChar '-' = true := by decide
  simp only [List.forall_mem_append]
  refine ⟨?_, fun ch hch => isNumberChar_digit (isDigit_toDigits ch hch), hr⟩
  cases negative with
  | true => exact List.forall_mem_singleton.mpr hminus
  | false => exact fun ch hch => absurd hch List.not_mem_nil

theorem isNumberChar_hundredths (m : ℕ) :
    ∀ ch ∈ '.' :: ngxSprintfNum (m % 100) '0' 2, isNumberChar ch = true :=
  List.forall_mem_cons.mpr
    ⟨by decide, fun ch hch => isNumberChar_digit (isDigit_ngxSprintfNum ch hch)⟩

theorem fixed2_eq (m : ℕ) :
    fixed2 m = Nat.toDigits 10 (m / 100) ++ '.' :: ngxSprintfNum (m % 100) '0' 2 := by
  rw [fixed2, ngxSprintfNum_zero]

theorem ngxSprintfInt_eq (i : ℤ) :
    ngxSprintfInt i =
      (if decide (i < 0) then ['-'] else []) ++ (Nat.toDigits 10 i.natAbs ++ []) := by
  rw [ngxSprintfInt, ngxSprintfNum_zero, List.append_nil]
  by_cases hi : i < 0
  · rw [if_pos hi, if_pos (decide_eq_true hi), List.singleton_append]
  · rw [if_neg hi, if_neg (by simpa using hi), List.nil_append]

theorem isNumberChar_ngxSprintfInt (i : ℤ) : ∀ ch ∈ ngxSprintfInt i, isNumberChar ch = true := by
  rw [ngxSprintfInt_eq]
  exact isNumberChar_printed _ _ (List.forall_mem_nil _)

section Reading

variable {blanks : Text} (hblanks : ∀ ch ∈ blanks, isSpace ch = true)

include hblanks

/-- Two decimals are read as the nearest value. -/
theorem float_fixed2 (negative : Bool) (m : ℕ) :
    float ((if negative then ['-'] else []) ++ fixed2 m ++ blanks) =
      some (ofMagnitude negative (m / 100)) := by
  rw [fixed2_eq, float_append (isNumberChar_printed _ _ (isNumberChar_hundredths m)) hblanks,
    sign_printed, unsigned_digits, ← fixed2_eq, decimal_fixed2, Option.map_some]

theorem float_ngxSprintfInt (i : ℤ) :
    float (ngxSprintfInt i ++ blanks) = some (ofMagnitude (decide (i < 0)) i.natAbs) := by
  rw [ngxSprintfInt_eq, float_append (isNumberChar_printed _ _ (List.forall_mem_nil _)) hblanks,
    sign_printed, unsigned_digits, List.append_nil, decimal_toDigits, Option.map_some]

end Reading

theorem digits_toDigits (n : ℕ) : digits (Nat.toDigits 10 n) = some n := by
  have hall : (Nat.toDigits 10 n).all Char.isDigit = true := List.all_eq_true.mpr isDigit_toDigits
  rw [digits, if_pos ⟨Nat.toDigits_ne_nil, hall⟩, Nat.ofDigitChars_ten_toDigits]

theorem int_ngxSprintfInt (i : ℤ) : int (ngxSprintfInt i) = some i := by
  have hchars := isNumberChar_ngxSprintfInt i
  have hunderscore : '_' ∉ ngxSprintfInt i := fun hmem => by
    have h := hchars '_' hmem
    revert h
    decide
  have hstrip : strip (ngxSprintfInt i) = ngxSprintfInt i := by
    have h := strip_append (fun ch hch => isSpace_of_number (hchars ch hch))
      (List.forall_mem_nil _)
    rwa [List.append_nil] at h
  rw [int, hstrip, dropUnderscores_of_notMem (by decide) hunderscore, Option.bind_some, signed,
    ngxSprintfInt_eq, sign_printed, List.append_nil, digits_toDigits, Option.map_some]
  by_cases hi : i < 0
  · rw [decide_eq_true hi, if_pos rfl]
    exact congrArg some (by omega)
  · rw [decide_eq_false hi, if_neg Bool.false_ne_true]
    exact congrArg some (by omega)

/-! ## Values that are printed with two decimals -/

section Printed

variable {F : Type} [CFloat F]

/-- The value that is read where `f` has been printed with two decimals. -/
def printed (f : F) : PyFloat :=
  match CFloat.toRat f with
  | some q => ofMagnitude (decide (q < 0)) (((roundHalfEven (|q| * 100)).toNat : ℚ) / 100)
  | none =>
      if CFloat.special f = "inf".toList then .infinity false
      else if CFloat.special f = "-inf".toList then .infinity true
      else .nan

/-- Whether a value is printed with a minus sign. -/
def HasMinus (f : F) : Prop :=
  match CFloat.toRat f with
  | some q => q < 0
  | none => '-' ∈ CFloat.special f

theorem sprintfFixed2_eq {f : F} {q : ℚ} (h : CFloat.toRat f = some q) :
    sprintfFixed2 f = (if decide (q < 0) then ['-'] else []) ++
      fixed2 (roundHalfEven (|q| * 100)).toNat := by
  rw [sprintfFixed2, h, fixed2]
  simp only [decide_eq_true_eq, List.append_assoc]

theorem isNumberChar_sprintfFixed2 [CFloatText F] (f : F) :
    ∀ ch ∈ sprintfFixed2 f, isNumberChar ch = true := by
  cases hq : CFloat.toRat f with
  | some q =>
      rw [sprintfFixed2_eq hq, fixed2_eq]
      exact isNumberChar_printed _ _ (isNumberChar_hundredths _)
  | none =>
      have hspecial := CFloatText.special_mem f
      rw [sprintfFixed2, hq]
      simp only [List.mem_cons, List.not_mem_nil, or_false] at hspecial
      rcases hspecial with h | h | h | h <;> rw [h] <;> exact forall_mem_of_all (by decide)

theorem float_sprintfFixed2 [CFloatText F] {blanks : Text}
    (hblanks : ∀ ch ∈ blanks, isSpace ch = true) (f : F) :
    float (sprintfFixed2 f ++ blanks) = some (printed f) := by
  cases hq : CFloat.toRat f with
  | some q => rw [sprintfFixed2_eq hq, float_fixed2 hblanks, printed, hq]
  | none =>
      have hspecial := CFloatText.special_mem f
      rw [float_append (isNumberChar_sprintfFixed2 f) hblanks, sprintfFixed2, hq, printed, hq]
      simp only [List.mem_cons, List.not_mem_nil, or_false] at hspecial
      rcases hspecial with h | h | h | h <;> rw [h] <;> decide

theorem not_mem_fixed2 {ch : Char} (hdigit : ch.isDigit = false) (hpoint : ch ≠ '.') (m : ℕ) :
    ch ∉ fixed2 m := by
  have hnot {s : Text} (hs : ∀ d ∈ s, d.isDigit = true) : ch ∉ s := fun hmem => by
    rw [hs ch hmem] at hdigit
    cases hdigit
  rw [fixed2_eq, List.mem_append, List.mem_cons]
  exact not_or.mpr ⟨hnot isDigit_toDigits, not_or.mpr ⟨hpoint, hnot isDigit_ngxSprintfNum⟩⟩

theorem minus_mem_sprintfFixed2 (f : F) : '-' ∈ sprintfFixed2 f ↔ HasMinus f := by
  cases hq : CFloat.toRat f with
  | some q =>
      rw [sprintfFixed2_eq hq, HasMinus, hq, List.mem_append,
        or_iff_left (not_mem_fixed2 (by decide) (by decide) _)]
      by_cases hneg : q < 0
      · simp [hneg]
      · simp [hneg]
  | none => rw [sprintfFixed2, hq, HasMinus, hq]

/-- A value without a minus sign is printed again as it was. -/
theorem format2f_printed [CFloatRange F] [CFloatText F] {x : F}
    (h : ¬ HasMinus (CFloat.narrow x)) :
    format2f (printed (CFloat.narrow x)) = sprintfFixed2 (CFloat.narrow x) := by
  cases hq : CFloat.toRat (CFloat.narrow x) with
  | some q =>
      rw [HasMinus, hq] at h
      have hnonneg : 0 ≤ q := not_lt.mp h
      have hrange := CFloatRange.toRat_narrow x q hq
      have hbits := CFloatText.narrow_bits x q hq hnonneg
      rw [abs_of_nonneg hnonneg] at hrange
      obtain ⟨m, hm⟩ : ∃ m, m = roundHalfEven (q * 100) := ⟨_, rfl⟩
      have hzero : 0 ≤ m := by
        rw [hm]
        exact roundHalfEven_nonneg (by positivity)
      have hzero' : (0 : ℚ) ≤ m := by exact_mod_cast hzero
      have hcast : ((m.toNat : ℕ) : ℚ) = (m : ℚ) := by
        exact_mod_cast Int.toNat_of_nonneg hzero
      have hsmall : roundTo 53 ((m : ℚ) / 100) < 2 ^ 1024 := by
        have hle : (m : ℚ) ≤ q * 100 + 1 := by
          rw [hm]
          exact roundHalfEven_le_add_one (q * 100)
        calc roundTo 53 ((m : ℚ) / 100) ≤ 2 * ((m : ℚ) / 100) :=
              MachineFloat.roundTo_le (by norm_num) (by positivity)
          _ ≤ 2 * (2 ^ 128 + 1) := by linarith
          _ ≤ 2 ^ 130 := by norm_num
          _ < 2 ^ 1024 := pow_lt_pow_right₀ (by norm_num) (by norm_num)
      rw [sprintfFixed2_eq hq, printed, hq]
      simp only [decide_eq_false h, abs_of_nonneg hnonneg, ← hm, hcast]
      rw [ofMagnitude, if_pos hsmall, format2f, hm, two_decimals hnonneg hbits]
  | none =>
      have hspecial := CFloatText.special_mem (CFloat.narrow x)
      rw [HasMinus, hq] at h
      rw [sprintfFixed2, hq, printed, hq]
      simp only [List.mem_cons, List.not_mem_nil, or_false] at hspecial
      rcases hspecial with heq | heq | heq | heq
      · simp only [heq]
        decide
      · rw [heq] at h
        exact absurd (by decide) h
      · simp only [heq]
        decide
      · rw [heq] at h
        exact absurd (by decide) h

end Printed

end MultiversionBalancer.Core.Python
