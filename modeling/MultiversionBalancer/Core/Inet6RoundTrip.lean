import MultiversionBalancer.Core.Inet6

/-!
# IPv6 addresses that are written and read again

The text of `ngx_inet6_ntop` is given to `ngx_inet6_addr`.  The highest IPv4 address is
also the value with which `ngx_inet_addr` reports an error, so the two IPv6 addresses
that end in it are not read.
-/

namespace MultiversionBalancer.Core.Inet6

open Http (byte hexDigit)
open Inet (ngxInetAddr inaddrNone htonl readDigit sprintfBase sprintfInet octets)

variable {out : List UInt8} {words : List ℕ} {zero : Option ℕ}
  {digit : Option (List UInt8)} {nibbles word : ℕ}

/-! ## Reading the parts of a text -/

theorem scanAddr_digits {ds : List UInt8} (rest : List UInt8)
    (hds : ∀ c ∈ ds, ∃ d, hexDigit c = some d ∧ d.toNat < 16)
    (hfour : nibbles + ds.length ≤ 4) :
    scanAddr (ds ++ rest) (filled out words zero digit nibbles word) =
      scanAddr rest (filled out words zero digit (nibbles + ds.length)
        (ds.foldl (readDigit 16) word)) := by
  induction ds generalizing nibbles word with
  | nil => rfl
  | cons c ds ih =>
      obtain ⟨d, hd, -⟩ := hds c List.mem_cons_self
      rw [List.length_cons] at hfour
      rw [List.cons_append, scanAddr_digit hd (by omega), List.foldl_cons, List.length_cons,
        Nat.add_comm ds.length, ← Nat.add_assoc]
      exact ih (fun c hc => hds c (List.mem_cons_of_mem _ hc)) (by omega)

theorem scanAddr_word {w : ℕ} (hw : w < 65536) (rest : List UInt8) :
    scanAddr (sprintfBase 16 w ++ rest) (filled out words zero digit 0 0) =
      scanAddr rest (filled out words zero digit (sprintfBase 16 w).length w) := by
  have hfour : (sprintfBase 16 w).length ≤ 4 :=
    Inet.length_sprintfBase_le (by decide) (by decide) hw
  rw [scanAddr_digits rest (fun c hc => Inet.mem_sprintfBase (by decide) (by decide) hc)
    (by rwa [Nat.zero_add]), Inet.foldl_sprintfBase (by decide) (by decide), Nat.zero_add]

theorem length_sprintfBase_ne (base n : ℕ) : (sprintfBase base n).length ≠ 0 :=
  Nat.pos_iff_ne_zero.mp (Inet.length_sprintfBase_pos base n)

/-- Several words with their colons. -/
theorem scanAddr_groups (hout : out.length = 16) {groups : List ℕ}
    (hseven : words.length + groups.length ≤ 7) (hgroups : ∀ w ∈ groups, w < 65536)
    (rest : List UInt8) :
    ∃ digit', (digit = some (hexGroups groups ++ rest) → digit' = some rest) ∧
      scanAddr (hexGroups groups ++ rest) (filled out words zero digit 0 0) =
        scanAddr rest (filled out (words ++ groups) zero digit' 0 0) := by
  induction groups generalizing words digit with
  | nil =>
      refine ⟨digit, id, ?_⟩
      rw [List.append_nil]
      rfl
  | cons w groups ih =>
      rw [List.length_cons] at hseven
      have hlength : (words ++ [w]).length + groups.length ≤ 7 := by
        rw [List.length_append, List.length_singleton]
        omega
      obtain ⟨digit', hdigit, hscan⟩ : ∃ digit',
          (some (hexGroups groups ++ rest) = some (hexGroups groups ++ rest) →
            digit' = some rest) ∧ _ :=
        ih hlength fun w hw => hgroups w (List.mem_cons_of_mem _ hw)
      refine ⟨digit', fun _ => hdigit rfl, ?_⟩
      have htext : hexGroups (w :: groups) ++ rest =
          sprintfBase 16 w ++ byte ':' :: (hexGroups groups ++ rest) := by
        simp only [hexGroups, List.flatMap_cons, List.append_assoc, List.cons_append,
          List.nil_append]
      rw [htext, scanAddr_word (hgroups w List.mem_cons_self),
        scanAddr_colon hout (by omega) (length_sprintfBase_ne 16 w), hscan, List.append_assoc]
      rfl

/-- An IPv4 address in place of the last two words. -/
theorem scanAddr_inet (hout : out.length = 16) (hwords : words.length < 7) (a b c d : UInt8) :
    scanAddr (sprintfInet a b c d)
        (filled out words zero (some (sprintfInet a b c d)) 0 0) =
      if a = 255 ∧ b = 255 ∧ c = 255 ∧ d = 255 then .error .error
      else .ok (filled out (words ++ [octets a b c d / 65536]) zero
        (some (sprintfInet a b c d)) (sprintfBase 10 a.toNat).length (octets a b c d)) := by
  have hthree : (sprintfBase 10 a.toNat).length ≤ 3 := by
    have ha := a.toNat_lt
    exact Inet.length_sprintfBase_le (by decide) (by decide) (by omega)
  have hdigits (c : UInt8) (hc : c ∈ sprintfBase 10 a.toNat) :
      ∃ d, hexDigit c = some d ∧ d.toNat < 16 := by
    obtain ⟨d, hd, hlt⟩ := Inet.mem_sprintfBase (by decide) (by decide) hc
    exact ⟨d, hd, by omega⟩
  have hword : (htonl (ngxInetAddr (sprintfInet a b c d))).toNat = octets a b c d := by
    rw [Inet.ngxInetAddr_sprintfInet, Inet.htonl_htonl, BitVec.toNat_ofNat,
      Nat.mod_eq_of_lt (Inet.octets_lt a b c d)]
  have hnone := Inet.ngxInetAddr_sprintfInet_eq_none (a := a) (b := b) (c := c) (d := d)
  obtain ⟨rest, hrest⟩ : ∃ rest,
      sprintfInet a b c d = sprintfBase 10 a.toNat ++ byte '.' :: rest := ⟨_, rfl⟩
  generalize sprintfInet a b c d = text at *
  have hscan : scanAddr text (filled out words zero (some text) 0 0) =
      scanAddr (sprintfBase 10 a.toNat ++ byte '.' :: rest)
        (filled out words zero (some text) 0 0) := congrArg (scanAddr · _) hrest
  rw [hscan, scanAddr_digits _ hdigits (by omega), Nat.zero_add]
  rw [scanAddr_dot hout hwords (length_sprintfBase_ne 10 a.toNat), hword]
  exact if_congr hnone rfl rfl

/-- The words of a text from one of them on. -/
theorem scanAddr_lastGroups (hout : out.length = 16) {p : List UInt8} {j : ℕ} (hj : j < 8)
    (hwords : words.length ≤ j) :
    ∃ digit' nibbles', nibbles' ≠ 0 ∧
      scanAddr (lastGroups p j) (filled out words zero digit 0 0) =
        .ok (filled out (words ++ wordsFrom p j (7 - j)) zero digit' nibbles'
          (wordAt p 14)) := by
  have hseven : words.length + (wordsFrom p j (7 - j)).length ≤ 7 := by
    rw [length_wordsFrom]
    omega
  obtain ⟨digit', -, hscan⟩ : ∃ digit', _ ∧
      scanAddr (hexGroups (wordsFrom p j (7 - j)) ++ sprintfBase 16 (wordAt p 14))
        (filled out words zero digit 0 0) = _ :=
    scanAddr_groups hout hseven (fun w hw => wordsFrom_lt hw) (sprintfBase 16 (wordAt p 14))
  refine ⟨digit', _, length_sprintfBase_ne 16 (wordAt p 14), ?_⟩
  have hlast : scanAddr (sprintfBase 16 (wordAt p 14))
      (filled out (words ++ wordsFrom p j (7 - j)) zero digit' 0 0) =
        .ok (filled out (words ++ wordsFrom p j (7 - j)) zero digit'
          (sprintfBase 16 (wordAt p 14)).length (wordAt p 14)) := by
    rw [← List.append_nil (sprintfBase 16 (wordAt p 14)), scanAddr_word (wordAt_lt p 14),
      List.append_nil]
    rfl
  rw [lastGroups, if_pos hj, hscan, hlast]

/-! ## The beginning of a text -/

theorem ngxInet6Addr_colon (text : List UInt8) :
    ngxInet6Addr (byte ':' :: text) out =
      scanAddr text (filled out [] none none 0 0) >>= Scan.finish :=
  rfl

theorem ngxInet6Addr_word (w : ℕ) (rest : List UInt8) :
    ngxInet6Addr (sprintfBase 16 w ++ rest) out =
      scanAddr (sprintfBase 16 w ++ rest) (filled out [] none none 0 0) >>= Scan.finish := by
  obtain ⟨c, ds, hds⟩ := List.exists_cons_of_length_pos (Inet.length_sprintfBase_pos 16 w)
  have hc : c ∈ sprintfBase 16 w := by
    rw [hds]
    exact List.mem_cons_self
  obtain ⟨d, hd, -⟩ := Inet.mem_sprintfBase (by decide) (by decide) hc
  have hcolon : (c :: ds ++ rest).head? ≠ some (byte ':') := by
    rw [List.cons_append, List.head?_cons, ne_eq, Option.some.injEq]
    rintro rfl
    exact nomatch hd.symm.trans (by decide : hexDigit (byte ':') = none)
  have hne : c :: ds ++ rest ≠ [] := List.cons_ne_nil c _
  rw [hds, ngxInet6Addr, if_neg hne]
  simp only [if_neg hcolon]
  rfl

/-! ## The three forms -/

theorem putWords_run {p : List UInt8} {j m : ℕ} (hp : p.length = 16) (hfits : j + m ≤ 8)
    (hzeros : wordsFrom p j m = List.replicate m 0) :
    putWords (wordsFrom p 0 j) ++ List.replicate (2 * m) 0 ++
      putWords (wordsFrom p (j + m) (8 - (j + m))) = p := by
  have hall : wordsFrom p 0 8 =
      wordsFrom p 0 j ++ wordsFrom p j m ++ wordsFrom p (j + m) (8 - (j + m)) := by
    have h₁ := wordsFrom_add p 0 j m
    have h₂ := wordsFrom_add p 0 (j + m) (8 - (j + m))
    rw [Nat.zero_add] at h₁ h₂
    rw [← h₁, ← h₂, Nat.add_sub_cancel' hfits]
  rw [← putWords_replicate, ← hzeros, ← putWords_append, ← putWords_append, ← hall,
    putWords_wordsFrom hp]
  rfl

theorem read_plain {p : List UInt8} (hp : p.length = 16) (hout : out.length = 16) :
    ngxInet6Addr (lastGroups p 0) out = .ok p := by
  obtain ⟨digit, nibbles, hnibbles, hscan⟩ : ∃ digit' nibbles', nibbles' ≠ 0 ∧
      scanAddr (lastGroups p 0) (filled out [] none none 0 0) = _ :=
    scanAddr_lastGroups hout (by decide) (Nat.le_refl 0)
  obtain ⟨rest, hrest⟩ : ∃ rest, lastGroups p 0 = sprintfBase 16 (wordAt p 0) ++ rest := by
    refine ⟨byte ':' :: (hexGroups (wordsFrom p 1 6) ++ sprintfBase 16 (wordAt p 14)), ?_⟩
    have hseven : wordsFrom p 0 7 = wordAt p 0 :: wordsFrom p 1 6 := rfl
    rw [lastGroups, if_pos (by decide), hseven, hexGroups, List.flatMap_cons, ← hexGroups]
    simp only [List.append_assoc, List.cons_append, List.nil_append]
  rw [hrest, ngxInet6Addr_word, ← hrest, hscan]
  simp only [bind, Except.bind]
  rw [List.nil_append, finish_full hout (length_wordsFrom p 0 7) hnibbles,
    ← wordsFrom_succ p 0 7, putWords_wordsFrom hp]
  rfl

/-- The end of a text with `::` for `m` words, when `after` and `word` are those behind
it. -/
theorem finish_run {p : List UInt8} {j m : ℕ} {after : List ℕ} (hp : p.length = 16)
    (hout : out.length = 16) (hfits : j + m ≤ 8)
    (hzeros : wordsFrom p j m = List.replicate m 0) (hafter : j + after.length < 7)
    (hend : List.replicate (14 - 2 * (j + after.length)) 0 ++ putWords (after ++ [word]) =
      List.replicate (2 * m) 0 ++ putWords (wordsFrom p (j + m) (8 - (j + m)))) :
    (filled out (wordsFrom p 0 j ++ after) (some (2 * j)) digit nibbles word).finish =
      .ok p := by
  have hj := length_wordsFrom p 0 j
  have hfinish : (filled out (wordsFrom p 0 j ++ after)
      (some (2 * (wordsFrom p 0 j).length)) digit nibbles word).finish = _ :=
    finish_gap hout (by rwa [hj])
  rw [hj, List.append_assoc, hend, ← List.append_assoc, putWords_run hp hfits hzeros] at hfinish
  exact hfinish

/-- The second colon of `::` and what follows it. -/
theorem scanAddr_tail {p : List UInt8} {j m : ℕ} (hp : p.length = 16) (hout : out.length = 16)
    (hm : 2 ≤ m) (hfits : j + m ≤ 8) (hzeros : wordsFrom p j m = List.replicate m 0) :
    scanAddr (byte ':' :: lastGroups p (j + m)) (filled out (wordsFrom p 0 j) none digit 0 0) >>=
      Scan.finish = .ok p := by
  rw [scanAddr_gap, length_wordsFrom]
  by_cases hlast : j + m < 8
  · obtain ⟨digit', nibbles', -, hscan⟩ : ∃ digit' nibbles', nibbles' ≠ 0 ∧
        scanAddr (lastGroups p (j + m)) (filled out (wordsFrom p 0 j) (some (2 * j))
          (some (lastGroups p (j + m))) 0 0) = _ :=
      scanAddr_lastGroups hout hlast (by rw [length_wordsFrom]; omega)
    have hend : wordsFrom p (j + m) (8 - (j + m)) =
        wordsFrom p (j + m) (7 - (j + m)) ++ [wordAt p 14] := by
      have height : 8 - (j + m) = 7 - (j + m) + 1 := by omega
      have hfourteen : 2 * (j + m + (7 - (j + m))) = 14 := by omega
      rw [height, wordsFrom_succ, hfourteen]
    have hgap : 14 - 2 * (j + (7 - (j + m))) = 2 * m := by omega
    rw [hscan]
    exact finish_run hp hout hfits hzeros (by rw [length_wordsFrom]; omega)
      (by rw [length_wordsFrom, hgap, hend])
  · have hnil : lastGroups p (j + m) = [] := by rw [lastGroups, if_neg hlast]
    have hzero : List.replicate (14 - 2 * j) 0 ++ putWords [0] =
        List.replicate (2 * m) (0 : UInt8) := by
      have htwo : putWords [0] = List.replicate 2 0 := rfl
      rw [htwo, List.replicate_append_replicate]
      congr 1
      omega
    have hempty : putWords (wordsFrom p (j + m) (8 - (j + m))) = [] := by
      rw [Nat.sub_eq_zero_of_le (Nat.not_lt.mp hlast)]
      rfl
    have hfinish : (filled out (wordsFrom p 0 j ++ []) (some (2 * j)) (some []) 0 0).finish =
        .ok p :=
      finish_run hp hout hfits hzeros (by rw [List.length_nil]; omega) (by
        rw [hempty, List.append_nil, ← hzero]
        rfl)
    rw [List.append_nil] at hfinish
    rw [hnil]
    exact hfinish

/-- A text with `::`. -/
theorem read_gap {p : List UInt8} {j m : ℕ} (hp : p.length = 16) (hout : out.length = 16)
    (hm : 2 ≤ m) (hfits : j + m ≤ 8) (hzeros : wordsFrom p j m = List.replicate m 0) :
    ngxInet6Addr ((if j = 0 then [byte ':'] else hexGroups (wordsFrom p 0 j)) ++
      byte ':' :: lastGroups p (j + m)) out = .ok p := by
  by_cases hj : j = 0
  · subst hj
    rw [if_pos rfl]
    exact scanAddr_tail hp hout hm hfits hzeros
  · obtain ⟨k, rfl⟩ := Nat.exists_eq_succ_of_ne_zero hj
    have hseven : ([] : List ℕ).length + (wordsFrom p 0 (k + 1)).length ≤ 7 := by
      rw [length_wordsFrom, List.length_nil]
      omega
    obtain ⟨digit', -, hscan⟩ : ∃ digit', _ ∧
        scanAddr (hexGroups (wordsFrom p 0 (k + 1)) ++ byte ':' :: lastGroups p (k + 1 + m))
          (filled out [] none none 0 0) = _ :=
      scanAddr_groups hout hseven (fun w hw => wordsFrom_lt hw) _
    obtain ⟨rest, hrest⟩ : ∃ rest, hexGroups (wordsFrom p 0 (k + 1)) ++
        byte ':' :: lastGroups p (k + 1 + m) = sprintfBase 16 (wordAt p 0) ++ rest := by
      have hfirst : wordsFrom p 0 (k + 1) = wordAt p 0 :: wordsFrom p 1 k := rfl
      rw [hfirst, hexGroups, List.flatMap_cons, List.append_assoc, List.append_assoc]
      exact ⟨_, rfl⟩
    rw [if_neg hj, Nat.succ_eq_add_one, hrest, ngxInet6Addr_word, ← hrest, hscan,
      List.nil_append]
    exact scanAddr_tail hp hout hm hfits hzeros

/-- The last four bytes, as two words. -/
theorem putWords_octets (a b c d : UInt8) :
    putWords [octets a b c d / 65536, octets a b c d] = [a, b, c, d] := by
  have ha := a.toNat_lt
  have hb := b.toNat_lt
  have hc := c.toNat_lt
  have hd := d.toNat_lt
  have hfirst : octets a b c d / 65536 = a.toNat * 256 + b.toNat := by
    rw [octets]
    omega
  have hsecond : putWords [octets a b c d] = putWords [c.toNat * 256 + d.toNat] := by
    have hhigh : octets a b c d / 256 % 256 = (c.toNat * 256 + d.toNat) / 256 % 256 := by
      rw [octets]
      omega
    have hlow : octets a b c d % 256 = (c.toNat * 256 + d.toNat) % 256 := by
      rw [octets]
      omega
    simp only [putWords, List.flatMap_cons, List.flatMap_nil, List.append_nil,
      List.cons.injEq, and_true, ← UInt8.toNat_inj, UInt8.toNat_ofNat']
    exact ⟨hhigh, hlow⟩
  have hsplit : putWords [octets a b c d / 65536, octets a b c d] =
      putWords [octets a b c d / 65536] ++ putWords [octets a b c d] := rfl
  rw [hsplit, hsecond, hfirst, putWords_two, putWords_two]
  rfl

/-- A text that ends in the form of IPv4; `m` words are zero, and at most one follows
them. -/
theorem read_embedded {p : List UInt8} {m : ℕ} (hp : p.length = 16) (hout : out.length = 16)
    (hpos : 0 < m) (hm : m ≤ 6) (hzeros : wordsFrom p 0 m = List.replicate m 0) :
    ngxInet6Addr (byte ':' :: byte ':' :: (hexGroups (wordsFrom p m (6 - m)) ++
        sprintfInet (p.getD 12 0) (p.getD 13 0) (p.getD 14 0) (p.getD 15 0))) out =
      if p.getD 12 0 = 255 ∧ p.getD 13 0 = 255 ∧ p.getD 14 0 = 255 ∧ p.getD 15 0 = 255 then
        .error .error
      else .ok p := by
  have htwo : putWords (wordsFrom p 6 2) =
      [p.getD 12 0, p.getD 13 0, p.getD 14 0, p.getD 15 0] := by
    have hsplit : wordsFrom p 6 2 = [wordAt p 12] ++ [wordAt p 14] := rfl
    rw [hsplit, putWords_append, wordAt, wordAt, putWords_two, putWords_two]
    rfl
  generalize p.getD 12 0 = a at *
  generalize p.getD 13 0 = b at *
  generalize p.getD 14 0 = c at *
  generalize p.getD 15 0 = d at *
  have hgroups : ([] : List ℕ).length + (wordsFrom p m (6 - m)).length ≤ 7 := by
    rw [length_wordsFrom, List.length_nil]
    omega
  obtain ⟨digit', hdigit, hscan⟩ : ∃ digit', (some (hexGroups (wordsFrom p m (6 - m)) ++
      sprintfInet a b c d) = some (hexGroups (wordsFrom p m (6 - m)) ++ sprintfInet a b c d) →
        digit' = some (sprintfInet a b c d)) ∧
      scanAddr (hexGroups (wordsFrom p m (6 - m)) ++ sprintfInet a b c d)
        (filled out [] (some 0) (some (hexGroups (wordsFrom p m (6 - m)) ++
          sprintfInet a b c d)) 0 0) = _ :=
    scanAddr_groups hout hgroups (fun w hw => wordsFrom_lt hw) _
  have hseven : (wordsFrom p m (6 - m)).length < 7 := by
    rw [length_wordsFrom]
    omega
  rw [ngxInet6Addr_colon, scanAddr_gap]
  rw [List.nil_append, hdigit rfl] at hscan
  rw [List.length_nil, Nat.mul_zero, hscan, scanAddr_inet hout hseven]
  by_cases hall : a = 255 ∧ b = 255 ∧ c = 255 ∧ d = 255
  · rw [if_pos hall, if_pos hall]
    rfl
  · rw [if_neg hall, if_neg hall]
    have hend : wordsFrom p (0 + m) (8 - (0 + m)) = wordsFrom p m (6 - m) ++ wordsFrom p 6 2 := by
      have height : 8 - (0 + m) = 6 - m + 2 := by omega
      have hsix : m + (6 - m) = 6 := by omega
      rw [height, wordsFrom_add, Nat.zero_add, hsix]
    have hgap : 14 - 2 * (0 + (6 - m + 1)) = 2 * m := by omega
    have hfinish : (filled out (wordsFrom p 0 0 ++ (wordsFrom p m (6 - m) ++
        [octets a b c d / 65536])) (some (2 * 0)) (some (sprintfInet a b c d))
        (sprintfBase 10 a.toNat).length (octets a b c d)).finish = .ok p := by
      refine finish_run hp hout (show 0 + m ≤ 8 by omega) hzeros ?_ ?_
      · rw [List.length_append, length_wordsFrom, List.length_singleton]
        omega
      · rw [List.length_append, length_wordsFrom, List.length_singleton, hgap, hend,
          putWords_append _ (wordsFrom p 6 2), htwo, ← putWords_octets a b c d,
          ← putWords_append, List.append_assoc]
        rfl
    exact hfinish

/-! ## The length of a text -/

theorem length_hexGroups_le {groups : List ℕ} (hgroups : ∀ w ∈ groups, w < 65536) :
    (hexGroups groups).length ≤ 5 * groups.length := by
  induction groups with
  | nil => exact Nat.le_refl 0
  | cons w groups ih =>
      have hword : (sprintfBase 16 w).length ≤ 4 :=
        Inet.length_sprintfBase_le (by decide) (by decide) (hgroups w List.mem_cons_self)
      have ih := ih fun w hw => hgroups w (List.mem_cons_of_mem _ hw)
      rw [hexGroups] at ih ⊢
      simp only [List.flatMap_cons, List.length_append, List.length_cons, List.length_nil]
      omega

theorem length_hexGroups_wordsFrom_le (p : List UInt8) (j k : ℕ) :
    (hexGroups (wordsFrom p j k)).length ≤ 5 * k := by
  have hgroups : (hexGroups (wordsFrom p j k)).length ≤ _ :=
    length_hexGroups_le fun w hw => wordsFrom_lt hw
  rwa [length_wordsFrom] at hgroups

theorem length_lastGroups_le (p : List UInt8) (j : ℕ) :
    (lastGroups p j).length ≤ 5 * (8 - j) - 1 := by
  rw [lastGroups]
  split
  · next hj =>
    have hgroups := length_hexGroups_wordsFrom_le p j (7 - j)
    have hlast : (sprintfBase 16 (wordAt p 14)).length ≤ 4 :=
      Inet.length_sprintfBase_le (by decide) (by decide) (wordAt_lt p 14)
    rw [List.length_append]
    omega
  · exact Nat.zero_le _

theorem length_sprintfInet_le (a b c d : UInt8) : (sprintfInet a b c d).length ≤ 15 := by
  have hthree (a : UInt8) : (sprintfBase 10 a.toNat).length ≤ 3 := by
    have ha := a.toNat_lt
    exact Inet.length_sprintfBase_le (by decide) (by decide) (by omega)
  have ha := hthree a
  have hb := hthree b
  have hc := hthree c
  have hd := hthree d
  simp only [sprintfInet, List.length_append, List.length_cons]
  omega

/-! ## The round trip -/

/-- `::ffff:255.255.255.255`. -/
def mappedBroadcast : List UInt8 :=
  List.replicate 10 0 ++ List.replicate 6 255

def compatibleBroadcast : List UInt8 :=
  List.replicate 12 0 ++ List.replicate 4 255

/-- The words of the run that an address with an IPv4 form begins with. -/
theorem embedded_zeros {p : List UInt8} (hyes : Embedded p (longestRun p)) :
    ∃ m, 0 < m ∧ m ≤ 6 ∧ wordsFrom p 0 m = List.replicate m 0 ∧
      wordsFrom p (longestRun p).max (6 - (longestRun p).max) = wordsFrom p m (6 - m) ∧
      (m = 6 ∨ m = 5 ∧ p.getD 10 0 = 0xff ∧ p.getD 11 0 = 0xff) := by
  have hbest := (longestRun_found p).best
  generalize longestRun p = r at *
  obtain ⟨hzero, hmax⟩ := hyes
  obtain ⟨i, hi, -, -, hzeros⟩ := hbest.resolve_left fun hnone => nomatch hnone.symm.trans hzero
  rw [hzero, Option.some.injEq] at hi
  obtain rfl : i = 0 := by omega
  rcases hmax with ⟨hfive, h10, h11⟩ | hsix | ⟨hseven, -, -⟩
  · rw [hfive] at hzeros ⊢
    exact ⟨5, by decide, by decide, hzeros, rfl, .inr ⟨rfl, h10, h11⟩⟩
  · rw [hsix] at hzeros ⊢
    exact ⟨6, by decide, by decide, hzeros, rfl, .inl rfl⟩
  · rw [hseven] at hzeros ⊢
    refine ⟨6, by decide, by decide, ?_, rfl, .inl rfl⟩
    rw [wordsFrom_succ p 0 6, List.replicate_succ'] at hzeros
    exact (List.append_inj' hzeros rfl).1

/-- The addresses with an IPv4 form that end in the highest bytes. -/
theorem embedded_broadcast {p : List UInt8} {m : ℕ} (hp : p.length = 16) (hm : m ≤ 6)
    (hzeros : wordsFrom p 0 m = List.replicate m 0)
    (hcase : m = 6 ∨ m = 5 ∧ p.getD 10 0 = 0xff ∧ p.getD 11 0 = 0xff)
    (hall : p.getD 12 0 = 255 ∧ p.getD 13 0 = 255 ∧ p.getD 14 0 = 255 ∧ p.getD 15 0 = 255) :
    p = mappedBroadcast ∨ p = compatibleBroadcast := by
  have hrun := putWords_run hp (show 0 + m ≤ 8 by omega) hzeros
  obtain ⟨h12, h13, h14, h15⟩ := hall
  have hone (i : ℕ) : putWords [wordAt p i] = [p.getD i 0, p.getD (i + 1) 0] :=
    putWords_two _ _
  rcases hcase with rfl | ⟨rfl, h10, h11⟩
  · right
    have hend : wordsFrom p (0 + 6) (8 - (0 + 6)) = [wordAt p 12] ++ [wordAt p 14] := rfl
    rw [hend, putWords_append, hone, hone, h12, h13, h14, h15] at hrun
    exact hrun.symm
  · left
    have hend : wordsFrom p (0 + 5) (8 - (0 + 5)) =
        [wordAt p 10] ++ [wordAt p 12] ++ [wordAt p 14] := rfl
    rw [hend, putWords_append, putWords_append, hone, hone, hone, h10, h11, h12, h13, h14,
      h15] at hrun
    exact hrun.symm

/-- An address with an IPv4 form is written and read, unless its last four bytes are the
highest ones. -/
theorem round_trip_embedded {p : List UInt8} {len : ℕ} (hp : p.length = 16)
    (hout : out.length = 16) (hlen : inet6AddrStrLen ≤ len)
    (hyes : Embedded p (longestRun p)) :
    (ngxInet6Ntop p len).length ≤ inet6AddrStrLen ∧
      (ngxInet6Addr (ngxInet6Ntop p len) out = .ok p ↔
        p ≠ mappedBroadcast ∧ p ≠ compatibleBroadcast) := by
  obtain ⟨m, hpos, hm, hzeros, hgroups, hcase⟩ := embedded_zeros hyes
  rw [ngxInet6Ntop_embedded hlen hyes, hgroups]
  constructor
  · have hwords := length_hexGroups_wordsFrom_le p m (6 - m)
    have hinet := length_sprintfInet_le (p.getD 12 0) (p.getD 13 0) (p.getD 14 0) (p.getD 15 0)
    have h45 : inet6AddrStrLen = 45 := rfl
    simp only [List.length_cons, List.length_append]
    omega
  · rw [read_embedded hp hout hpos hm hzeros]
    by_cases hall : p.getD 12 0 = 255 ∧ p.getD 13 0 = 255 ∧ p.getD 14 0 = 255 ∧
        p.getD 15 0 = 255
    · rw [if_pos hall]
      refine ⟨nofun, fun hne => ?_⟩
      exact (embedded_broadcast hp hm hzeros hcase hall).elim (absurd · hne.1)
        (absurd · hne.2)
    · rw [if_neg hall]
      refine ⟨fun _ => ⟨?_, ?_⟩, fun _ => rfl⟩
      · rintro rfl
        exact hall (by decide)
      · rintro rfl
        exact hall (by decide)

/-- An address in hexadecimal is written and read. -/
theorem round_trip_plain {p : List UInt8} {len : ℕ} (hp : p.length = 16)
    (hout : out.length = 16) (hlen : inet6AddrStrLen ≤ len)
    (hnot : ¬Embedded p (longestRun p)) :
    (ngxInet6Ntop p len).length ≤ inet6AddrStrLen ∧
      ngxInet6Addr (ngxInet6Ntop p len) out = .ok p := by
  have h45 : inet6AddrStrLen = 45 := rfl
  rcases (longestRun_found p).best with hnone | ⟨j, hzero, htwo, hfits, hzeros⟩
  · rw [ngxInet6Ntop_plain hlen hnone]
    have hlength := length_lastGroups_le p 0
    exact ⟨by omega, read_plain hp hout⟩
  · rw [ngxInet6Ntop_gap hlen hzero (by omega) hfits hnot]
    have hlength := length_lastGroups_le p (j + (longestRun p).max)
    refine ⟨?_, read_gap hp hout htwo hfits hzeros⟩
    rw [List.length_append, List.length_cons]
    split
    · rw [List.length_singleton]
      omega
    · have hbefore := length_hexGroups_wordsFrom_le p 0 j
      omega

/-- The round trip fails for two addresses only. -/
theorem inet6_round_trip_iff (a result : In6Addr) {len : ℕ} (hlen : inet6AddrStrLen ≤ len) :
    ((ngxInet6Ntop a.s6Addr len).length ≤ inet6AddrStrLen ∧
        ngxInet6Addr (ngxInet6Ntop a.s6Addr len) result.s6Addr = .ok a.s6Addr ∧
        ∀ text, ngxInet6Addr text result.s6Addr ≠ .error .outside) ↔
      a.s6Addr ≠ mappedBroadcast ∧ a.s6Addr ≠ compatibleBroadcast := by
  have hinside (text : List UInt8) := ngxInet6Addr_inside text result.size
  obtain ⟨p, hp⟩ := a
  obtain ⟨out, hout⟩ := result
  simp only at hinside ⊢
  by_cases hembedded : Embedded p (longestRun p)
  · obtain ⟨hlength, hread⟩ := round_trip_embedded hp hout hlen hembedded
    rw [← hread]
    exact ⟨fun h => h.2.1, fun h => ⟨hlength, h, hinside⟩⟩
  · have hne : p ≠ mappedBroadcast ∧ p ≠ compatibleBroadcast := by
      constructor
      · rintro rfl
        exact hembedded (by decide)
      · rintro rfl
        exact hembedded (by decide)
    refine ⟨fun _ => hne, fun _ => ?_⟩
    obtain ⟨hlength, hread⟩ := round_trip_plain hp hout hlen hembedded
    exact ⟨hlength, hread, hinside⟩

/-- `2001:db8::1`. -/
theorem inet6_round_trip_documentation :
    let a := [0x20, 0x01, 0x0d, 0xb8, 0, 0, 0, 0, 0, 0, 0, 0, 0, 0, 0, 1]
    inet6AddrStrLen ≤ 45 ∧ (ngxInet6Ntop a 45).length ≤ inet6AddrStrLen ∧
      ngxInet6Addr (ngxInet6Ntop a 45) (List.replicate 16 0) = .ok a :=
  have h := (inet6_round_trip_iff
    ⟨[0x20, 0x01, 0x0d, 0xb8, 0, 0, 0, 0, 0, 0, 0, 0, 0, 0, 0, 1], rfl⟩
    ⟨List.replicate 16 0, rfl⟩ (Nat.le_refl 45)).mpr ⟨by decide, by decide⟩
  ⟨Nat.le_refl 45, h.1, h.2.1⟩

/-- The text of `::ffff:255.255.255.255` is not read. -/
theorem inet6_mapped_broadcast :
    ngxInet6Ntop mappedBroadcast 45 = Http.bytes "::ffff:255.255.255.255" ∧
      ngxInet6Addr (ngxInet6Ntop mappedBroadcast 45) (List.replicate 16 0) ≠
        .ok mappedBroadcast := by
  refine ⟨by decide +kernel, fun h => ?_⟩
  have hfails : (ngxInet6Addr (ngxInet6Ntop mappedBroadcast 45)
      (List.replicate 16 0)).toOption = none := by decide +kernel
  rw [h] at hfails
  cases hfails

end MultiversionBalancer.Core.Inet6
