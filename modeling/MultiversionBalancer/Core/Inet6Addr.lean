import MultiversionBalancer.Core.Inet
import MultiversionBalancer.Lib.Buffer

/-!
# Reading IPv6 addresses

`ngx_inet6_addr` of `ngx_inet.c`.  The words of the text are written one after the
other; those behind `::` are moved to the end of the result when the text is over.
-/

namespace MultiversionBalancer.Core.Inet6

open Http (byte hexDigit)
open Inet (ngxInetAddr inaddrNone htonl readDigit)
open Lib (store openGap)

/-- `NGX_ERROR`, or a write outside the result. -/
inductive Failure where
  | error
  | outside
  deriving DecidableEq

/-- The variables of `ngx_inet6_addr`; `addr` and `zero` count from the beginning of
the result, and `digit` is the text from there on. -/
structure Scan where
  out : List UInt8
  addr : ℕ
  zero : Option ℕ
  digit : Option (List UInt8)
  n : ℕ
  nibbles : ℕ
  word : ℕ

/-- Two bytes are written, and `n` is decremented. -/
def Scan.write (s : Scan) (word : ℕ) : Except Failure Scan := do
  let out ← store .outside s.out s.addr (UInt8.ofNat (word / 256))
  let out ← store .outside out (s.addr + 1) (UInt8.ofNat word)
  return { s with out := out, addr := s.addr + 2, n := s.n - 1 }

/-- The loop of `ngx_inet6_addr`. -/
def scanAddr : List UInt8 → Scan → Except Failure Scan
  | [], s => .ok s
  | c :: p, s =>
      if c = byte ':' then
        if s.nibbles ≠ 0 then do
          let s ← s.write s.word
          if s.n ≠ 0 then scanAddr p { s with digit := some p, nibbles := 0, word := 0 }
          else .error .error
        else if s.zero = none then
          scanAddr p { s with digit := some p, zero := some s.addr }
        else .error .error
      else if c = byte '.' ∧ s.nibbles ≠ 0 then
        match s.digit with
        | none => .error .error
        | some digit =>
            if s.n < 2 then .error .error
            else
              let word := ngxInetAddr digit
              if word = inaddrNone then .error .error
              else do
                let word := (htonl word).toNat
                let s ← s.write (word / 65536)
                return { s with word := word }
      else if 4 < s.nibbles + 1 then .error .error
      else
        match hexDigit c with
        | some d =>
            scanAddr p { s with nibbles := s.nibbles + 1, word := s.word * 16 + d.toNat }
        | none => .error .error

/-- What follows the loop. -/
def Scan.finish (s : Scan) : Except Failure (List UInt8) :=
  if s.nibbles = 0 ∧ s.zero = none then .error .error
  else do
    let s ← s.write s.word
    if s.n ≠ 0 then
      match s.zero with
      | some start => openGap .outside 0 start s.addr (2 * s.n) s.out
      | none => .error .error
    else if s.zero = none then .ok s.out
    else .error .error

def ngxInet6Addr (text out : List UInt8) : Except Failure (List UInt8) :=
  if text = [] then .error .error
  else do
    let text := if text.head? = some (byte ':') then text.tail else text
    let s ← scanAddr text
      { out := out, addr := 0, zero := none, digit := none, n := 8, nibbles := 0, word := 0 }
    s.finish

/-! ## The words that are written -/

def putWords (words : List ℕ) : List UInt8 :=
  words.flatMap fun w => [UInt8.ofNat (w / 256), UInt8.ofNat w]

@[simp] theorem length_putWords (words : List ℕ) :
    (putWords words).length = 2 * words.length := by
  induction words with
  | nil => rfl
  | cons w words ih =>
      rw [putWords] at ih ⊢
      rw [List.flatMap_cons, List.length_append, ih, List.length_cons]
      simp only [List.length_cons, List.length_nil]
      omega

theorem putWords_append (words words' : List ℕ) :
    putWords (words ++ words') = putWords words ++ putWords words' :=
  List.flatMap_append

/-- The variables after some words. -/
def filled (out : List UInt8) (words : List ℕ) (zero : Option ℕ)
    (digit : Option (List UInt8)) (nibbles word : ℕ) : Scan :=
  { out := putWords words ++ out.drop (2 * words.length)
    addr := 2 * words.length
    zero := zero
    digit := digit
    n := 8 - words.length
    nibbles := nibbles
    word := word }

variable {out : List UInt8} {words : List ℕ} {zero : Option ℕ}
  {digit : Option (List UInt8)} {nibbles word : ℕ}

/-- One more word. -/
theorem write_filled (hout : out.length = 16) (hwords : words.length < 8) (w : ℕ) :
    (filled out words zero digit nibbles word).write w =
      .ok (filled out (words ++ [w]) zero digit nibbles word) := by
  obtain ⟨a, b, rest, hdrop⟩ : ∃ a b rest, out.drop (2 * words.length) = a :: b :: rest := by
    have hlength : (out.drop (2 * words.length)).length = 16 - 2 * words.length := by
      rw [List.length_drop, hout]
    match out.drop (2 * words.length), hlength with
    | [], h => simp only [List.length_nil] at h; omega
    | [a], h => simp only [List.length_cons, List.length_nil] at h; omega
    | a :: b :: rest, _ => exact ⟨a, b, rest, rfl⟩
  have hrest : out.drop (2 * (words.length + 1)) = rest := by
    rw [Nat.mul_add, ← List.drop_drop, hdrop]
    rfl
  have hfirst := Lib.store_append Failure.outside (putWords words) (b :: rest) a
    (UInt8.ofNat (w / 256))
  have hsecond := Lib.store_append Failure.outside
    (putWords words ++ [UInt8.ofNat (w / 256)]) rest b (UInt8.ofNat w)
  rw [List.length_append, length_putWords, List.length_singleton, List.append_assoc] at hsecond
  rw [length_putWords] at hfirst
  simp only [Scan.write, filled, hdrop, hfirst, bind, Except.bind]
  rw [List.singleton_append] at hsecond
  simp only [hsecond, pure, Except.pure, Except.ok.injEq, Scan.mk.injEq]
  refine ⟨?_, ?_, trivial, trivial, ?_, trivial, trivial⟩
  · rw [List.length_append, List.length_singleton, hrest, putWords_append]
    simp only [putWords, List.flatMap_cons, List.flatMap_nil, List.append_assoc,
      List.cons_append, List.nil_append]
  · rw [List.length_append, List.length_singleton]
    omega
  · rw [List.length_append, List.length_singleton]
    omega

/-- The result of a text without `::`. -/
theorem finish_full (hout : out.length = 16) (hwords : words.length = 7)
    (hnibbles : nibbles ≠ 0) :
    (filled out words none digit nibbles word).finish = .ok (putWords (words ++ [word])) := by
  have hlt : words.length < 8 := by omega
  have hwrite : (filled out words none digit nibbles word).write word =
      .ok (filled out (words ++ [word]) none digit nibbles word) :=
    write_filled hout hlt word
  have hlength : (words ++ [word]).length = 8 := by
    rw [List.length_append, hwords]
    rfl
  have hif : ¬((filled out words none digit nibbles word).nibbles = 0 ∧
      (filled out words none digit nibbles word).zero = none) := fun h => hnibbles h.1
  rw [Scan.finish, if_neg hif]
  simp only [filled] at hwrite ⊢
  simp only [hwrite, bind, Except.bind, hlength]
  rw [if_neg (by omega), if_pos trivial, List.drop_of_length_le (Nat.le_of_eq hout),
    List.append_nil]

/-- The result of a text with `::` after the words `before`. -/
theorem finish_gap {before after : List ℕ} (hout : out.length = 16)
    (hlength : before.length + after.length < 7) :
    (filled out (before ++ after) (some (2 * before.length)) digit nibbles word).finish =
      .ok (putWords before ++ List.replicate (14 - 2 * (before.length + after.length)) 0 ++
        putWords (after ++ [word])) := by
  have hwords : (before ++ after).length < 8 := by
    rw [List.length_append]
    omega
  have hwrite : (filled out (before ++ after) (some (2 * before.length)) digit nibbles
      word).write word = .ok (filled out (before ++ after ++ [word])
        (some (2 * before.length)) digit nibbles word) :=
    write_filled hout hwords word
  have hif : ¬((filled out (before ++ after) (some (2 * before.length)) digit nibbles
      word).nibbles = 0 ∧ (filled out (before ++ after) (some (2 * before.length)) digit
      nibbles word).zero = none) := fun h => nomatch h.2
  have hall : (before ++ after ++ [word]).length = before.length + after.length + 1 := by
    rw [List.length_append, List.length_append, List.length_singleton]
  have hgap : (out.drop (2 * (before.length + after.length + 1))).length =
      2 * (8 - (before.length + after.length + 1)) := by
    rw [List.length_drop, hout]
    omega
  have hopen := Lib.openGap_append Failure.outside (0 : UInt8) (putWords before)
    (putWords (after ++ [word])) (out.drop (2 * (before.length + after.length + 1))) []
  have haddr : 2 * before.length + 2 * (after.length + 1) =
      2 * (before.length + after.length + 1) := by
    omega
  rw [length_putWords, length_putWords, hgap, List.length_append, List.length_singleton, haddr,
    List.append_nil, List.append_nil, ← putWords_append, ← List.append_assoc] at hopen
  rw [Scan.finish, if_neg hif]
  simp only [filled] at hwrite ⊢
  simp only [hwrite, bind, Except.bind, hall]
  rw [if_pos (by omega), hopen]
  congr 5
  omega

/-- A text with too few words, or with `::` and too many. -/
theorem finish_error (hout : out.length = 16) (hwords : words.length < 8)
    (hnot : zero = none ∧ words.length ≠ 7 ∨ zero.isSome ∧ words.length = 7) :
    (filled out words zero digit nibbles word).finish = .error .error := by
  have hwrite : (filled out words zero digit nibbles word).write word =
      .ok (filled out (words ++ [word]) zero digit nibbles word) :=
    write_filled hout hwords word
  have hlength : (words ++ [word]).length = words.length + 1 := by
    rw [List.length_append, List.length_singleton]
  rw [Scan.finish]
  split
  · rfl
  · simp only [filled] at hwrite ⊢
    simp only [hwrite, bind, Except.bind, hlength]
    rcases hnot with ⟨rfl, hfew⟩ | ⟨hsome, hfull⟩
    · rw [if_pos (by omega)]
    · obtain ⟨z, rfl⟩ := Option.isSome_iff_exists.mp hsome
      rw [if_neg (by omega)]
      rfl

/-! ## Steps of the loop -/

theorem scanAddr_cons (c : UInt8) (p : List UInt8) (s : Scan) :
    scanAddr (c :: p) s =
      if c = byte ':' then
        if s.nibbles ≠ 0 then do
          let s ← s.write s.word
          if s.n ≠ 0 then scanAddr p { s with digit := some p, nibbles := 0, word := 0 }
          else .error .error
        else if s.zero = none then
          scanAddr p { s with digit := some p, zero := some s.addr }
        else .error .error
      else if c = byte '.' ∧ s.nibbles ≠ 0 then
        match s.digit with
        | none => .error .error
        | some digit =>
            if s.n < 2 then .error .error
            else
              let word := ngxInetAddr digit
              if word = inaddrNone then .error .error
              else do
                let word := (htonl word).toNat
                let s ← s.write (word / 65536)
                return { s with word := word }
      else if 4 < s.nibbles + 1 then .error .error
      else
        match hexDigit c with
        | some d =>
            scanAddr p { s with nibbles := s.nibbles + 1, word := s.word * 16 + d.toNat }
        | none => .error .error :=
  rfl

theorem scanAddr_colon (hout : out.length = 16) (hwords : words.length < 7)
    (hnibbles : nibbles ≠ 0) (rest : List UInt8) :
    scanAddr (byte ':' :: rest) (filled out words zero digit nibbles word) =
      scanAddr rest (filled out (words ++ [word]) zero (some rest) 0 0) := by
  have hlt : words.length < 8 := by omega
  have hwrite : (filled out words zero digit nibbles word).write
      (filled out words zero digit nibbles word).word =
        .ok (filled out (words ++ [word]) zero digit nibbles word) :=
    write_filled hout hlt word
  have hn : (filled out (words ++ [word]) zero digit nibbles word).n ≠ 0 := by
    simp only [filled, List.length_append, List.length_singleton]
    omega
  have hyes : (filled out words zero digit nibbles word).nibbles ≠ 0 := hnibbles
  rw [scanAddr_cons, if_pos rfl, if_pos hyes, hwrite]
  simp only [bind, Except.bind]
  rw [if_pos hn]
  rfl

/-- A colon behind the last word. -/
theorem scanAddr_full (hout : out.length = 16) (hwords : words.length < 8)
    (hfull : ¬words.length < 7) (hnibbles : nibbles ≠ 0) (rest : List UInt8) :
    scanAddr (byte ':' :: rest) (filled out words zero digit nibbles word) =
      .error .error := by
  have hwrite : (filled out words zero digit nibbles word).write
      (filled out words zero digit nibbles word).word =
        .ok (filled out (words ++ [word]) zero digit nibbles word) :=
    write_filled hout hwords word
  have hn : ¬(filled out (words ++ [word]) zero digit nibbles word).n ≠ 0 := by
    simp only [filled, List.length_append, List.length_singleton]
    omega
  have hyes : (filled out words zero digit nibbles word).nibbles ≠ 0 := hnibbles
  rw [scanAddr_cons, if_pos rfl, if_pos hyes, hwrite]
  exact if_neg hn

/-- The second colon of `::`. -/
theorem scanAddr_gap (rest : List UInt8) :
    scanAddr (byte ':' :: rest) (filled out words none digit 0 word) =
      scanAddr rest
        (filled out words (some (2 * words.length)) (some rest) 0 word) := by
  have hno : ¬(filled out words none digit 0 word).nibbles ≠ 0 := fun h => h rfl
  have hnone : (filled out words none digit 0 word).zero = none := rfl
  rw [scanAddr_cons, if_pos rfl, if_neg hno, if_pos hnone]
  rfl

theorem scanAddr_dot (hout : out.length = 16) (hwords : words.length < 7)
    (hnibbles : nibbles ≠ 0) (text rest : List UInt8) :
    scanAddr (byte '.' :: rest) (filled out words zero (some text) nibbles word) =
      if ngxInetAddr text = inaddrNone then .error .error
      else .ok (filled out (words ++ [(htonl (ngxInetAddr text)).toNat / 65536]) zero
        (some text) nibbles (htonl (ngxInetAddr text)).toNat) := by
  have hcolon : byte '.' ≠ byte ':' := by decide
  have hdot : byte '.' = byte '.' ∧
      (filled out words zero (some text) nibbles word).nibbles ≠ 0 := ⟨rfl, hnibbles⟩
  have hn : ¬(filled out words zero (some text) nibbles word).n < 2 := by
    simp only [filled]
    omega
  rw [scanAddr_cons, if_neg hcolon, if_pos hdot]
  simp only [show (filled out words zero (some text) nibbles word).digit = some text from rfl,
    if_neg hn]
  split
  · rfl
  · rw [write_filled hout (by omega)]
    rfl

theorem scanAddr_dot_error (hnibbles : nibbles ≠ 0)
    (hnot : digit = none ∨ ¬words.length < 7) (rest : List UInt8) :
    scanAddr (byte '.' :: rest) (filled out words zero digit nibbles word) =
      .error .error := by
  have hcolon : byte '.' ≠ byte ':' := by decide
  have hdot : byte '.' = byte '.' ∧
      (filled out words zero digit nibbles word).nibbles ≠ 0 := ⟨rfl, hnibbles⟩
  rw [scanAddr_cons, if_neg hcolon, if_pos hdot]
  cases digit with
  | none => rfl
  | some text =>
      have hroom : ¬words.length < 7 := hnot.resolve_left nofun
      have hn : (filled out words zero (some text) nibbles word).n < 2 := by
        simp only [filled]
        omega
      exact if_pos hn

theorem scanAddr_digit {c d : UInt8} (hd : hexDigit c = some d) (hfour : nibbles < 4)
    (rest : List UInt8) :
    scanAddr (c :: rest) (filled out words zero digit nibbles word) =
      scanAddr rest (filled out words zero digit (nibbles + 1) (readDigit 16 word c)) := by
  have hcolon : c ≠ byte ':' := by
    rintro rfl
    exact nomatch hd.symm.trans (by decide : hexDigit (byte ':') = none)
  have hdot : ¬(c = byte '.' ∧
      (filled out words zero digit nibbles word).nibbles ≠ 0) := by
    rintro ⟨rfl, -⟩
    exact nomatch hd.symm.trans (by decide : hexDigit (byte '.') = none)
  have hroom : ¬4 < (filled out words zero digit nibbles word).nibbles + 1 := by
    simp only [filled]
    omega
  have hvalue : readDigit 16 word c = word * 16 + d.toNat := by
    rw [readDigit, hd]
    rfl
  rw [scanAddr_cons, if_neg hcolon, if_neg hdot, if_neg hroom, hd, hvalue]
  rfl

theorem scanAddr_not_digit {c : UInt8} (hcolon : c ≠ byte ':')
    (hdot : ¬(c = byte '.' ∧ nibbles ≠ 0)) (hnot : hexDigit c = none ∨ ¬nibbles < 4)
    (rest : List UInt8) :
    scanAddr (c :: rest) (filled out words zero digit nibbles word) = .error .error := by
  have hdot' : ¬(c = byte '.' ∧
      (filled out words zero digit nibbles word).nibbles ≠ 0) := hdot
  rw [scanAddr_cons, if_neg hcolon, if_neg hdot']
  rcases hnot with hnone | hfour
  · rw [hnone]
    exact ite_self _
  · have hroom : 4 < (filled out words zero digit nibbles word).nibbles + 1 := by
      simp only [filled]
      omega
    exact if_pos hroom

/-! ## Every write is inside the result -/

/-- A word can still be written, and `::` stands behind some of the words. -/
def Placed (words : List ℕ) (zero : Option ℕ) : Prop :=
  words.length < 8 ∧ (zero = none ∨
    ∃ before after, words = before ++ after ∧ zero = some (2 * before.length))

theorem Placed.append (h : Placed words zero) (hroom : words.length < 7) (w : ℕ) :
    Placed (words ++ [w]) zero := by
  refine ⟨?_, ?_⟩
  · rw [List.length_append, List.length_singleton]
    omega
  · rcases h.2 with hnone | ⟨before, after, rfl, hzero⟩
    · exact .inl hnone
    · exact .inr ⟨before, after ++ [w], List.append_assoc .., hzero⟩

/-- A result that does not depend on what was in the buffer: an error, or one with a
property. -/
def Steady {α : Type} (good : (List UInt8 → α) → Prop)
    (x : List UInt8 → Except Failure α) : Prop :=
  (∀ out, out.length = 16 → x out = .error .error) ∨
    ∃ f, good f ∧ ∀ out, out.length = 16 → x out = .ok (f out)

theorem Steady.congr {α : Type} {good : (List UInt8 → α) → Prop}
    {x y : List UInt8 → Except Failure α} (hy : Steady good y)
    (hxy : ∀ out, out.length = 16 → x out = y out) : Steady good x := by
  rcases hy with herror | ⟨f, hgood, hok⟩
  · exact .inl fun out hout => (hxy out hout).trans (herror out hout)
  · exact .inr ⟨f, hgood, fun out hout => (hxy out hout).trans (hok out hout)⟩

/-- The variables of the loop, as a function of what was in the result. -/
def Filled (f : List UInt8 → Scan) : Prop :=
  ∃ words zero digit nibbles word, Placed words zero ∧
    f = fun out => filled out words zero digit nibbles word

/-- The loop does not depend on what was in the result, and writes inside it. -/
theorem scanAddr_steady (text : List UInt8) (hplaced : Placed words zero) :
    Steady Filled fun out => scanAddr text (filled out words zero digit nibbles word) := by
  induction text generalizing words zero digit nibbles word with
  | nil => exact .inr ⟨_, ⟨words, zero, digit, nibbles, word, hplaced, rfl⟩, fun _ _ => rfl⟩
  | cons c p ih =>
      by_cases hcolon : c = byte ':'
      · subst hcolon
        by_cases hnibbles : nibbles = 0
        · subst hnibbles
          cases zero with
          | none =>
              exact (ih ⟨hplaced.1, .inr ⟨words, [], (List.append_nil words).symm, rfl⟩⟩).congr
                fun out _ => scanAddr_gap p
          | some z => exact .inl fun out _ => rfl
        · by_cases hroom : words.length < 7
          · exact (ih (hplaced.append hroom word)).congr
              fun out hout => scanAddr_colon hout hroom hnibbles p
          · exact .inl fun out hout => scanAddr_full hout hplaced.1 hroom hnibbles p
      · by_cases hdot : c = byte '.' ∧ nibbles ≠ 0
        · obtain ⟨rfl, hnibbles⟩ := hdot
          cases digit with
          | none => exact .inl fun out _ => scanAddr_dot_error hnibbles (.inl rfl) p
          | some text =>
              by_cases hroom : words.length < 7
              · by_cases hnone : ngxInetAddr text = inaddrNone
                · exact .inl fun out hout =>
                    (scanAddr_dot hout hroom hnibbles text p).trans (if_pos hnone)
                · exact .inr ⟨_, ⟨_, zero, some text, nibbles, _,
                    hplaced.append hroom ((htonl (ngxInetAddr text)).toNat / 65536), rfl⟩,
                    fun out hout =>
                      (scanAddr_dot hout hroom hnibbles text p).trans (if_neg hnone)⟩
              · exact .inl fun out _ => scanAddr_dot_error hnibbles (.inr hroom) p
        · cases hd : hexDigit c with
          | none => exact .inl fun out _ => scanAddr_not_digit hcolon hdot (.inl hd) p
          | some d =>
              by_cases hfour : nibbles < 4
              · exact (ih hplaced).congr fun out _ => scanAddr_digit hd hfour p
              · exact .inl fun out _ => scanAddr_not_digit hcolon hdot (.inr hfour) p

/-- The sixteen bytes at the end. -/
theorem finish_steady (hplaced : Placed words zero) :
    Steady (fun f => ∃ result, result.length = 16 ∧ f = fun _ => result)
      fun out => (filled out words zero digit nibbles word).finish := by
  obtain ⟨hlt, hnone | ⟨before, after, rfl, hzero⟩⟩ := hplaced
  · subst hnone
    by_cases hfull : words.length = 7
    · by_cases hnibbles : nibbles = 0
      · subst hnibbles
        exact .inl fun out _ => rfl
      · refine .inr ⟨_, ⟨putWords (words ++ [word]), ?_, rfl⟩,
          fun out hout => finish_full hout hfull hnibbles⟩
        rw [length_putWords, List.length_append, hfull]
        rfl
    · exact .inl fun out hout => finish_error hout hlt (.inl ⟨rfl, hfull⟩)
  · subst hzero
    rw [List.length_append] at hlt
    by_cases hfull : before.length + after.length = 7
    · refine .inl fun out hout => finish_error hout ?_ (.inr ⟨rfl, ?_⟩)
      · rwa [List.length_append]
      · rwa [List.length_append]
    · refine .inr ⟨_, ⟨_, ?_, rfl⟩, fun out hout => finish_gap hout (by omega)⟩
      simp only [List.length_append, length_putWords, List.length_replicate,
        List.length_singleton]
      omega

/-- A text is read in one way, whatever was in the result, and no byte is written outside
it. -/
theorem ngxInet6Addr_steady (text : List UInt8) :
    Steady (fun f => ∃ result, result.length = 16 ∧ f = fun _ => result)
      (ngxInet6Addr text) := by
  have hempty : Placed [] none := ⟨by decide, .inl rfl⟩
  by_cases htext : text = []
  · exact .inl fun out _ => if_pos htext
  · have haddr (out : List UInt8) : ngxInet6Addr text out =
        scanAddr (if text.head? = some (byte ':') then text.tail else text)
          (filled out [] none none 0 0) >>= Scan.finish := if_neg htext
    rcases scanAddr_steady (if text.head? = some (byte ':') then text.tail else text) hempty
      with herror | ⟨f, ⟨words, zero, digit, nibbles, word, hplaced, rfl⟩, hok⟩
    · exact .inl fun out hout =>
        (haddr out).trans (congrArg (· >>= Scan.finish) (herror out hout))
    · exact (finish_steady hplaced).congr fun out hout =>
        (haddr out).trans (congrArg (· >>= Scan.finish) (hok out hout))

theorem ngxInet6Addr_inside (text : List UInt8) (hout : out.length = 16) :
    ngxInet6Addr text out ≠ .error .outside := by
  rcases ngxInet6Addr_steady text with herror | ⟨f, -, hok⟩
  · rw [herror out hout]
    exact nofun
  · rw [hok out hout]
    exact nofun

end MultiversionBalancer.Core.Inet6
