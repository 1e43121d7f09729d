import MultiversionBalancer.Core.Inet6Addr

/-!
# Writing IPv6 addresses

`ngx_inet6_ntop` of `ngx_inet.c`.  The longest run of zero words is written as `::`,
and some addresses end in the form of IPv4.
-/

namespace MultiversionBalancer.Core.Inet6

open Http (byte hexDigit)
open Inet (ngxInetAddr inaddrNone htonl readDigit sprintfBase sprintfInet octets)

structure In6Addr where
  s6Addr : List UInt8
  size : s6Addr.length = 16

def inet6AddrStrLen : ℕ := 45

def wordAt (p : List UInt8) (i : ℕ) : ℕ :=
  (p.getD i 0).toNat * 256 + (p.getD (i + 1) 0).toNat

/-- The variables of the first loop of `ngx_inet6_ntop`; `none` is `(ngx_uint_t) -1`. -/
structure Runs where
  zero : Option ℕ
  last : Option ℕ
  max : ℕ
  n : ℕ
  deriving DecidableEq

/-- A run that is over is compared with the longest one. -/
def Runs.close (r : Runs) : Runs :=
  if r.max < r.n then { r with zero := r.last, max := r.n } else r

/-- A turn of the first loop. -/
def Runs.next (p : List UInt8) (r : Runs) (i : ℕ) : Runs :=
  if p.getD i 0 ≠ 0 ∨ p.getD (i + 1) 0 ≠ 0 then { r.close with n := 0 }
  else { r with last := if r.n = 0 then some i else r.last, n := r.n + 1 }

/-- The first loop, with what follows it. -/
def longestRun (p : List UInt8) : Runs :=
  (([0, 2, 4, 6, 8, 10, 12, 14].foldl (Runs.next p))
    { zero := none, last := none, max := 1, n := 0 }).close

/-- The last two words are written as an IPv4 address. -/
def Embedded (p : List UInt8) (r : Runs) : Prop :=
  r.zero = some 0 ∧ (r.max = 5 ∧ p.getD 10 0 = 0xff ∧ p.getD 11 0 = 0xff ∨ r.max = 6 ∨
    r.max = 7 ∧ p.getD 14 0 ≠ 0 ∧ p.getD 15 0 ≠ 1)

instance (p : List UInt8) (r : Runs) : Decidable (Embedded p r) :=
  inferInstanceAs (Decidable (_ ∧ _))

/-- The second loop of `ngx_inet6_ntop` from `i` on; it takes at most one turn a word. -/
def writeGroups (p : List UInt8) (r : Runs) (n : ℕ) : ℕ → ℕ → List UInt8
  | 0, _ => []
  | turns + 1, i =>
      if i < n then
        if r.zero = some i then byte ':' :: writeGroups p r n turns (i + (r.max - 1) * 2 + 2)
        else
          sprintfBase 16 (wordAt p i) ++ (if i < 14 then [byte ':'] else []) ++
            writeGroups p r n turns (i + 2)
      else []

def ngxInet6Ntop (p : List UInt8) (len : ℕ) : List UInt8 :=
  if len < inet6AddrStrLen then []
  else
    let r := longestRun p
    let n := if Embedded p r then 12 else 16
    (if r.zero = some 0 then [byte ':'] else []) ++ writeGroups p r n 8 0 ++
      if n = 12 then
        sprintfInet (p.getD 12 0) (p.getD 13 0) (p.getD 14 0) (p.getD 15 0)
      else []

/-! ## The words of an address -/

def wordsFrom (p : List UInt8) (j k : ℕ) : List ℕ :=
  (List.range' j k).map fun i => wordAt p (2 * i)

@[simp] theorem length_wordsFrom (p : List UInt8) (j k : ℕ) :
    (wordsFrom p j k).length = k := by
  rw [wordsFrom, List.length_map, List.length_range']

theorem wordsFrom_add (p : List UInt8) (j k l : ℕ) :
    wordsFrom p j (k + l) = wordsFrom p j k ++ wordsFrom p (j + k) l := by
  rw [wordsFrom, wordsFrom, wordsFrom, ← List.map_append, List.range'_append_1]

theorem wordsFrom_succ (p : List UInt8) (j k : ℕ) :
    wordsFrom p j (k + 1) = wordsFrom p j k ++ [wordAt p (2 * (j + k))] :=
  wordsFrom_add p j k 1

theorem wordAt_lt (p : List UInt8) (i : ℕ) : wordAt p i < 65536 := by
  have hhigh := (p.getD i 0).toNat_lt
  have hlow := (p.getD (i + 1) 0).toNat_lt
  rw [wordAt]
  omega

theorem wordsFrom_lt {p : List UInt8} {j k w : ℕ} (hw : w ∈ wordsFrom p j k) :
    w < 65536 := by
  obtain ⟨i, -, rfl⟩ := List.mem_map.mp hw
  exact wordAt_lt p _

theorem wordAt_eq_zero {p : List UInt8} {i : ℕ} :
    wordAt p i = 0 ↔ ¬(p.getD i 0 ≠ 0 ∨ p.getD (i + 1) 0 ≠ 0) := by
  rw [wordAt, not_or, not_not, not_not, ← UInt8.toNat_inj, ← UInt8.toNat_inj]
  simp only [UInt8.toNat_zero]
  omega

theorem putWords_two (a b : UInt8) : putWords [a.toNat * 256 + b.toNat] = [a, b] := by
  have ha := a.toNat_lt
  have hb := b.toNat_lt
  have hhigh : (a.toNat * 256 + b.toNat) / 256 = a.toNat := by omega
  have hlow : (a.toNat * 256 + b.toNat) % 256 = b.toNat := by omega
  simp only [putWords, List.flatMap_cons, List.flatMap_nil, List.append_nil, hhigh,
    List.cons.injEq, and_true]
  constructor
  · exact UInt8.ofNat_toNat
  · apply UInt8.toNat_inj.mp
    rw [UInt8.toNat_ofNat', hlow]

theorem putWords_wordsFrom {p : List UInt8} {j k : ℕ} (h : p.length = 2 * (j + k)) :
    putWords (wordsFrom p j k) = p.drop (2 * j) := by
  induction k generalizing j with
  | zero => exact (List.drop_of_length_le (Nat.le_of_eq h)).symm
  | succ k ih =>
      have hone : wordsFrom p j 1 = [wordAt p (2 * j)] := rfl
      have hfirst : 2 * j < p.length := by omega
      have hsecond : 2 * j + 1 < p.length := by omega
      rw [Nat.add_comm k, wordsFrom_add, putWords_append, ih (by omega), hone, wordAt,
        putWords_two, List.getD_eq_getElem p 0 hfirst, List.getD_eq_getElem p 0 hsecond,
        List.drop_eq_getElem_cons hfirst, List.drop_eq_getElem_cons hsecond]
      rfl

theorem putWords_replicate (m : ℕ) :
    putWords (List.replicate m 0) = List.replicate (2 * m) 0 := by
  induction m with
  | zero => rfl
  | succ m ih =>
      rw [putWords] at ih ⊢
      rw [List.replicate_succ, List.flatMap_cons, ih]
      rfl

/-! ## The longest run -/

/-- What is known of the runs of zeros before the word `j`. -/
structure Runs.Found (p : List UInt8) (r : Runs) (j : ℕ) : Prop where
  current : ∃ i, i + r.n = j ∧ (r.n ≠ 0 → r.last = some (2 * i)) ∧
    wordsFrom p i r.n = List.replicate r.n 0
  pos : 0 < r.max
  best : r.zero = none ∨ ∃ i, r.zero = some (2 * i) ∧ 2 ≤ r.max ∧ i + r.max ≤ j ∧
    wordsFrom p i r.max = List.replicate r.max 0

theorem Runs.Found.close {p : List UInt8} {r : Runs} {j : ℕ} (h : r.Found p j) :
    r.close.Found p j := by
  rw [Runs.close]
  split
  · next hlonger =>
    have hpos := h.pos
    obtain ⟨i, hi, hlast, hwords⟩ := h.current
    exact ⟨⟨i, hi, hlast, hwords⟩, by simp only; omega,
      .inr ⟨i, hlast (by omega), by simp only; omega, Nat.le_of_eq hi, hwords⟩⟩
  · exact h

theorem Runs.Found.next {p : List UInt8} {r : Runs} {j : ℕ} (h : r.Found p j) :
    (r.next p (2 * j)).Found p (j + 1) := by
  rw [Runs.next]
  split
  · have hclose := h.close
    refine ⟨⟨j + 1, rfl, fun hne => absurd rfl hne, rfl⟩, hclose.pos, ?_⟩
    rcases hclose.best with hnone | ⟨i, hzero, htwo, hle, hwords⟩
    · exact .inl hnone
    · exact .inr ⟨i, hzero, htwo, Nat.le_succ_of_le hle, hwords⟩
  · next hzero =>
    obtain ⟨i, hi, hlast, hwords⟩ := h.current
    refine ⟨⟨i, by simp only; omega, ?_, ?_⟩, h.pos, ?_⟩
    · intro _
      by_cases hfirst : r.n = 0
      · have hij : i = j := by omega
        simp only [if_pos hfirst, hij]
      · simp only [if_neg hfirst]
        exact hlast hfirst
    · simp only
      rw [wordsFrom_succ, hwords, hi, wordAt_eq_zero.mpr hzero, List.replicate_succ']
    · rcases h.best with hnone | ⟨i, hzero, htwo, hle, hwords⟩
      · exact .inl hnone
      · exact .inr ⟨i, hzero, htwo, Nat.le_succ_of_le hle, hwords⟩

theorem longestRun_found (p : List UInt8) : (longestRun p).Found p 8 := by
  have hstart : Runs.Found p { zero := none, last := none, max := 1, n := 0 } 0 :=
    ⟨⟨0, rfl, fun hne => absurd rfl hne, rfl⟩, Nat.one_pos, .inl rfl⟩
  exact hstart.next.next.next.next.next.next.next.next.close

/-! ## The text -/

/-- Words in hexadecimal, each with its colon. -/
def hexGroups (words : List ℕ) : List UInt8 :=
  words.flatMap fun w => sprintfBase 16 w ++ [byte ':']

/-- The words from one of them on; no colon follows the last one. -/
def lastGroups (p : List UInt8) (j : ℕ) : List UInt8 :=
  if j < 8 then hexGroups (wordsFrom p j (7 - j)) ++ sprintfBase 16 (wordAt p 14) else []

theorem writeGroups_words {p : List UInt8} {r : Runs} {n turns j k : ℕ} (hk : k ≤ turns)
    (hn : 2 * (j + k) ≤ n) (hcolon : j + k ≤ 7)
    (hzero : ∀ i < k, r.zero ≠ some (2 * (j + i))) :
    writeGroups p r n turns (2 * j) =
      hexGroups (wordsFrom p j k) ++ writeGroups p r n (turns - k) (2 * (j + k)) := by
  induction k generalizing j turns with
  | zero => rfl
  | succ k ih =>
      obtain ⟨turns, rfl⟩ := Nat.exists_eq_succ_of_ne_zero (show turns ≠ 0 by omega)
      have hone : wordsFrom p j 1 = [wordAt p (2 * j)] := rfl
      have ih := ih (Nat.le_of_succ_le_succ hk) (j := j + 1) (by omega) (by omega)
        fun i hi => by
          have h := hzero (i + 1) (by omega)
          rwa [← Nat.add_assoc, Nat.add_right_comm] at h
      rw [Nat.succ_eq_add_one, writeGroups, if_pos (by omega),
        if_neg (show r.zero ≠ some (2 * j) from hzero 0 (by omega)), if_pos (by omega),
        Nat.add_comm k, wordsFrom_add, hone, hexGroups, List.flatMap_append]
      rw [hexGroups, Nat.mul_add] at ih
      rw [ih, List.flatMap_cons, List.flatMap_nil, List.append_nil]
      simp only [List.append_assoc, Nat.add_assoc, Nat.add_comm 1 k,
        Nat.add_sub_add_right]

/-- The loop from a word behind the longest run on. -/
theorem writeGroups_last {p : List UInt8} {r : Runs} {turns j : ℕ} (hturns : 8 - j ≤ turns)
    (hzero : ∀ i, j ≤ i → r.zero ≠ some (2 * i)) :
    writeGroups p r 16 turns (2 * j) = lastGroups p j := by
  have hover (turns i : ℕ) (hi : 16 ≤ i) : writeGroups p r 16 turns i = [] := by
    cases turns with
    | zero => rfl
    | succ turns => rw [writeGroups, if_neg (Nat.not_lt.mpr hi)]
  rw [lastGroups]
  by_cases hj : j < 8
  · rw [if_pos hj, writeGroups_words (k := 7 - j) (by omega) (by omega) (by omega)
      fun i _ => hzero (j + i) (Nat.le_add_right j i)]
    have hseven : 2 * (j + (7 - j)) = 14 := by omega
    obtain ⟨turns', hturns'⟩ := Nat.exists_eq_succ_of_ne_zero
      (show turns - (7 - j) ≠ 0 by omega)
    have hnot : r.zero ≠ some 14 := hzero 7 (by omega)
    rw [hseven, hturns', Nat.succ_eq_add_one, writeGroups, if_pos (by decide), if_neg hnot,
      if_neg (by decide), hover _ _ (Nat.le_refl 16), List.append_nil, List.append_nil]
  · rw [if_neg hj]
    exact hover turns _ (by omega)

/-- A text without `::`. -/
theorem ngxInet6Ntop_plain {p : List UInt8} {len : ℕ} (hlen : inet6AddrStrLen ≤ len)
    (hzero : (longestRun p).zero = none) : ngxInet6Ntop p len = lastGroups p 0 := by
  have hnot : ¬Embedded p (longestRun p) := fun h => nomatch hzero.symm.trans h.1
  have hwrite : writeGroups p (longestRun p) 16 8 (2 * 0) = lastGroups p 0 :=
    writeGroups_last (Nat.le_refl 8) fun i _ => by
      rw [hzero]
      exact nofun
  rw [ngxInet6Ntop, if_neg (Nat.not_lt.mpr hlen)]
  simp only [if_neg hnot]
  rw [hwrite, if_neg (by rw [hzero]; exact nofun), if_neg (by decide), List.append_nil,
    List.nil_append]

/-- A text with `::` in place of the words from `j` on. -/
theorem ngxInet6Ntop_gap {p : List UInt8} {len j : ℕ} (hlen : inet6AddrStrLen ≤ len)
    (hzero : (longestRun p).zero = some (2 * j)) (hmax : 0 < (longestRun p).max)
    (hfits : j + (longestRun p).max ≤ 8) (hnot : ¬Embedded p (longestRun p)) :
    ngxInet6Ntop p len =
      (if j = 0 then [byte ':'] else hexGroups (wordsFrom p 0 j)) ++
        byte ':' :: lastGroups p (j + (longestRun p).max) := by
  rw [ngxInet6Ntop, if_neg (Nat.not_lt.mpr hlen)]
  simp only [if_neg hnot]
  generalize longestRun p = r at *
  have hwords : writeGroups p r 16 8 (2 * 0) =
      hexGroups (wordsFrom p 0 j) ++ writeGroups p r 16 (8 - j) (2 * (0 + j)) :=
    writeGroups_words (by omega) (by omega) (by omega) fun i hi => by
      rw [hzero, Nat.zero_add, ne_eq, Option.some.injEq]
      omega
  have hgap : writeGroups p r 16 (8 - j) (2 * (0 + j)) =
      byte ':' :: lastGroups p (j + r.max) := by
    obtain ⟨turns, hturns⟩ := Nat.exists_eq_succ_of_ne_zero (show 8 - j ≠ 0 by omega)
    have hnext : 2 * j + (r.max - 1) * 2 + 2 = 2 * (j + r.max) := by omega
    have hlast : writeGroups p r 16 turns (2 * (j + r.max)) = lastGroups p (j + r.max) :=
      writeGroups_last (by omega) fun i hi => by
        rw [hzero, ne_eq, Option.some.injEq]
        omega
    rw [Nat.zero_add, hturns, Nat.succ_eq_add_one, writeGroups, if_pos (by omega),
      if_pos hzero, hnext, hlast]
  rw [Nat.mul_zero] at hwords
  rw [hwords, hgap, if_neg (by decide : ¬(16 : ℕ) = 12), List.append_nil]
  by_cases hj : j = 0
  · subst hj
    rw [if_pos hzero, if_pos rfl]
    rfl
  · have hsome : r.zero ≠ some 0 := by
      rw [hzero, ne_eq, Option.some.injEq]
      omega
    rw [if_neg hsome, if_neg hj, List.nil_append]

/-- A text that ends in the form of IPv4. -/
theorem ngxInet6Ntop_embedded {p : List UInt8} {len : ℕ} (hlen : inet6AddrStrLen ≤ len)
    (hyes : Embedded p (longestRun p)) :
    ngxInet6Ntop p len = byte ':' :: byte ':' ::
      (hexGroups (wordsFrom p (longestRun p).max (6 - (longestRun p).max)) ++
        sprintfInet (p.getD 12 0) (p.getD 13 0) (p.getD 14 0) (p.getD 15 0)) := by
  rw [ngxInet6Ntop, if_neg (Nat.not_lt.mpr hlen)]
  simp only [if_pos hyes, if_true]
  generalize longestRun p = r at *
  obtain ⟨hzero, hmax⟩ := hyes
  have hover (turns i : ℕ) (hi : 12 ≤ i) : writeGroups p r 12 turns i = [] := by
    cases turns with
    | zero => rfl
    | succ turns => rw [writeGroups, if_neg (Nat.not_lt.mpr hi)]
  have hnext : 0 + (r.max - 1) * 2 + 2 = 2 * r.max := by omega
  have hwords : writeGroups p r 12 7 (2 * r.max) =
      hexGroups (wordsFrom p r.max (6 - r.max)) := by
    by_cases hsix : r.max ≤ 6
    · rw [writeGroups_words (k := 6 - r.max) (by omega) (by omega) (by omega) fun i _ => by
        rw [hzero, ne_eq, Option.some.injEq]
        omega, hover _ _ (by omega), List.append_nil]
    · rw [hover _ _ (by omega), Nat.sub_eq_zero_of_le (by omega)]
      rfl
  rw [if_pos hzero, writeGroups, if_pos (by decide), if_pos hzero, hnext, hwords]
  rfl

end MultiversionBalancer.Core.Inet6
