import MultiversionBalancer.Http.Bytes
import MultiversionBalancer.Lib.Run
import Mathlib.Data.List.Chain
import Mathlib.Data.List.TakeWhile

/-!
# Host names

`ngx_http_validate_host` of `ngx_http_request.c`: it refuses a host with bytes
that do not belong into one, cuts the port off, lowers the rest and removes a
trailing dot.

The dot that is removed is looked for with the last dot of the whole text, so a
dot before the port stays when the port has a dot of its own.
-/

namespace MultiversionBalancer.Http

inductive HostState where
  | usual
  | literal
  | rest
  deriving DecidableEq

/-- The locals of `ngx_http_validate_host`. -/
structure HostScan where
  state : HostState
  dotPos : ℕ
  hostLen : ℕ
  alloc : Bool

/-- One iteration at position `i`; `none` is `NGX_DECLINED`.  A length is below
the largest `size_t`, so `i - 1` for the first byte is no position of a dot. -/
def stepValidHost (i : ℕ) (ch : UInt8) (s : HostScan) : Option HostScan :=
  if ch = byte '.' then
    if s.dotPos + 1 = i then none else some { s with dotPos := i }
  else if ch = byte ':' then
    if s.state = .usual then some { s with hostLen := i, state := .rest }
    else some s
  else if ch = byte '[' then
    if i = 0 then some { s with state := .literal } else some s
  else if ch = byte ']' then
    if s.state = .literal then
      some { s with hostLen := i + 1, state := .rest }
    else some s
  else if ch = byte '/' then none
  else if ch ≤ 0x20 ∨ ch = 0x7f then none
  else if isUpper ch then some { s with alloc := true }
  else some s

/-- The loop from position `i` on. -/
def scanHost : ℕ → List UInt8 → HostScan → Option HostScan
  | _, [], s => some s
  | i, ch :: rest, s => (stepValidHost i ch s).bind (scanHost (i + 1) rest)

inductive HostResult where
  | declined
  | error
  | ok (host : List UInt8)
  deriving DecidableEq

/-- `ngx_http_validate_host`; `memory` tells whether the pool has memory for the
lowered host. -/
def ngxHttpValidateHost (memory alloc : Bool) (host : List UInt8) : HostResult :=
  match scanHost 0 host ⟨.usual, host.length, host.length, alloc⟩ with
  | none => .declined
  | some s =>
      let hostLen := if s.dotPos + 1 = s.hostLen then s.hostLen - 1 else s.hostLen
      if hostLen = 0 then .declined
      else if s.alloc then
        if memory then .ok ((host.take hostLen).map ngxTolower) else .error
      else .ok (host.take hostLen)

/-! ## Canonical hosts -/

def badHostByte (ch : UInt8) : Prop :=
  ch = byte '/' ∨ ch ≤ 0x20 ∨ ch = 0x7f

instance (ch : UInt8) : Decidable (badHostByte ch) :=
  inferInstanceAs (Decidable (_ ∨ _ ∨ _))

/-- No two dots follow each other. -/
def SingleDots (host : List UInt8) : Prop :=
  host.IsChain fun a b => ¬(a = byte '.' ∧ b = byte '.')

/-- A host as it is compared with the configured names.  A colon stands only in
a literal, and nothing follows the bracket that closes a literal. -/
structure CanonicalHost (host : List UInt8) : Prop where
  nonempty : host ≠ []
  lower : ∀ c ∈ host, isUpper c = false
  good : ∀ c ∈ host, ¬badHostByte c
  port : byte ':' ∉ host ∨ host.head? = some (byte '[')
  closed : host.head? = some (byte '[') → byte ']' ∉ host.dropLast
  dots : SingleDots host
  trailing : host.getLast? ≠ some (byte '.')

/-- The part of the text before the port. -/
def hostPart (host : List UInt8) : List UInt8 :=
  if host.head? = some (byte '[') then
    if byte ']' ∈ host then host.takeWhile (· != byte ']') ++ [byte ']']
    else host
  else host.takeWhile (· != byte ':')

def DotBeforePort (host : List UInt8) : Prop :=
  (hostPart host).getLast? = some (byte '.') ∧
    byte '.' ∈ host.drop (hostPart host).length

instance (host : List UInt8) : Decidable (DotBeforePort host) :=
  inferInstanceAs (Decidable (_ ∧ _))

/-! ## The loop -/

/-- Where the part before the port ends, when the loop has read `pre` of a text
of length `n`. -/
def HostCut (n : ℕ) (pre : List UInt8) (s : HostScan) : Prop :=
  match s.state with
  | .usual => s.hostLen = n ∧ pre.head? ≠ some (byte '[') ∧ byte ':' ∉ pre
  | .literal => s.hostLen = n ∧ pre.head? = some (byte '[') ∧ byte ']' ∉ pre
  | .rest =>
      ∃ a b, pre = a ++ b ∧ a.length = s.hostLen ∧
        (a.head? ≠ some (byte '[') ∧ b.head? = some (byte ':') ∧ byte ':' ∉ a ∨
          ∃ a', a = a' ++ [byte ']'] ∧ a'.head? = some (byte '[') ∧
            byte ']' ∉ a')

/-- What the loop knows when it has read `pre` of a text of length `n`. -/
structure HostRead (n : ℕ) (alloc : Bool) (pre : List UInt8) (s : HostScan) :
    Prop where
  good : ∀ c ∈ pre, ¬badHostByte c
  dots : SingleDots pre
  dot : s.dotPos = n ∧ byte '.' ∉ pre ∨ ∃ a b, pre = a ++ byte '.' :: b ∧
    byte '.' ∉ b ∧ s.dotPos = a.length
  upper : s.alloc = (alloc || pre.any isUpper)
  cut : HostCut n pre s

/-- The state and the end of the part before the port after one more byte. -/
def HostScan.cutAt (i : ℕ) (ch : UInt8) (s : HostScan) : HostState × ℕ :=
  match s.state with
  | .usual =>
      if ch = byte ':' then (.rest, i)
      else if ch = byte '[' ∧ i = 0 then (.literal, s.hostLen)
      else (.usual, s.hostLen)
  | .literal =>
      if ch = byte ']' then (.rest, i + 1)
      else (.literal, s.hostLen)
  | .rest => (.rest, s.hostLen)

/-- A byte that is accepted updates each local by itself.  Only the first byte
can open a literal. -/
theorem stepValidHost_eq {i : ℕ} {s : HostScan} (ch : UInt8)
    (hfirst : i = 0 → s.state = .usual) :
    stepValidHost i ch s =
      if badHostByte ch ∨ ch = byte '.' ∧ s.dotPos + 1 = i then none
      else some
        { state := (s.cutAt i ch).1
          dotPos := if ch = byte '.' then i else s.dotPos
          hostLen := (s.cutAt i ch).2
          alloc := s.alloc || isUpper ch } := by
  obtain ⟨state, dotPos, hostLen, alloc⟩ := s
  dsimp only at hfirst
  unfold stepValidHost HostScan.cutAt
  dsimp only
  by_cases hdot : ch = byte '.'
  · subst hdot
    have hbad : ¬badHostByte (byte '.') := by decide
    have hupper : isUpper (byte '.') = false := by decide
    have hcolon : byte '.' ≠ byte ':' := by decide
    have hopen : byte '.' ≠ byte '[' := by decide
    have hclose : byte '.' ≠ byte ']' := by decide
    simp only [if_true, hbad, hupper, hcolon, hopen, hclose, false_or, true_and,
      false_and, if_false, Bool.or_false]
    cases state <;> rfl
  by_cases hcolon : ch = byte ':'
  · subst hcolon
    have hbad : ¬badHostByte (byte ':') := by decide
    have hupper : isUpper (byte ':') = false := by decide
    have hclose : byte ':' ≠ byte ']' := by decide
    simp only [if_true, hdot, hbad, hupper, hclose, false_or, false_and, if_false,
      Bool.or_false]
    cases state <;> rfl
  by_cases hopen : ch = byte '['
  · subst hopen
    have hbad : ¬badHostByte (byte '[') := by decide
    have hupper : isUpper (byte '[') = false := by decide
    have hclose : byte '[' ≠ byte ']' := by decide
    simp only [if_true, hdot, hcolon, hbad, hupper, hclose, false_or, false_and,
      true_and, if_false, Bool.or_false]
    by_cases hi : i = 0
    · rw [hfirst hi]
      simp [hi]
    · simp only [hi, if_false]
      cases state <;> rfl
  by_cases hclose : ch = byte ']'
  · subst hclose
    have hbad : ¬badHostByte (byte ']') := by decide
    have hupper : isUpper (byte ']') = false := by decide
    simp only [if_true, hdot, hcolon, hopen, hbad, hupper, false_or, false_and,
      if_false, Bool.or_false]
    cases state <;> rfl
  simp only [hdot, hcolon, hopen, hclose, false_and, or_false, if_false]
  have hbad : badHostByte ch ↔ ch = byte '/' ∨ ch ≤ 0x20 ∨ ch = 0x7f := Iff.rfl
  by_cases hslash : ch = byte '/'
  · simp [badHostByte, hslash]
  by_cases hctl : ch ≤ 0x20 ∨ ch = 0x7f
  · simp [hbad, hctl]
  · simp only [hbad, hslash, hctl, or_false, if_false]
    cases hupper : isUpper ch <;> cases state <;> simp

section Loop

variable {n : ℕ} {alloc : Bool} {pre rest : List UInt8} {s s' : HostScan}
  {ch : UInt8}

/-- The last dot is the last byte before position `k`, and none comes after
it. -/
theorem HostRead.dotPos_iff (h : HostRead n alloc pre s) {k : ℕ}
    (hk : k ≤ pre.length) (hn : pre.length ≤ n) :
    s.dotPos + 1 = k ↔
      (pre.take k).getLast? = some (byte '.') ∧ byte '.' ∉ pre.drop k := by
  rcases h.dot with ⟨hpos, hno⟩ | ⟨a, b, rfl, hb, hpos⟩
  · refine iff_of_false (by omega) ?_
    rintro ⟨hlast, -⟩
    exact hno (List.mem_of_mem_take (List.mem_of_getLast? hlast))
  · constructor
    · rintro rfl
      rw [hpos, List.take_length_add_append, List.drop_length_add_append]
      exact ⟨by simp, hb⟩
    · rintro ⟨hlast, hafter⟩
      have hlen : (a ++ byte '.' :: b).length = a.length + (b.length + 1) := by
        simp
      rcases Nat.lt_or_ge a.length k with hlt | hle
      · obtain ⟨j, rfl⟩ : ∃ j, k = a.length + (j + 1) :=
          ⟨k - a.length - 1, by omega⟩
        cases j with
        | zero => rw [hpos]
        | succ j =>
            rw [List.take_length_add_append, List.take_succ_cons] at hlast
            have hne : b.take (j + 1) ≠ [] := by
              refine List.ne_nil_of_length_pos ?_
              rw [List.length_take]
              omega
            obtain ⟨x, xs, hx⟩ := List.exists_cons_of_ne_nil hne
            rw [hx, List.getLast?_append, List.getLast?_cons_cons, ← hx] at hlast
            cases hb' : (b.take (j + 1)).getLast? with
            | none => exact absurd (List.getLast?_eq_none_iff.mp hb') hne
            | some y =>
                rw [hb', Option.some_or] at hlast
                obtain rfl := Option.some.inj hlast
                exact absurd (List.mem_of_mem_take
                  (List.mem_of_getLast? hb')) hb
      · rw [List.drop_append_of_le_length hle] at hafter
        exact absurd (List.mem_append_right _ List.mem_cons_self) hafter

theorem HostCut.first (h : HostCut n [] s) : s.state = .usual := by
  unfold HostCut at h
  cases hstate : s.state with
  | usual => rfl
  | literal =>
      rw [hstate] at h
      cases h.2.1
  | rest =>
      rw [hstate] at h
      obtain ⟨a, b, hab, -, hor⟩ := h
      obtain ⟨rfl, rfl⟩ := List.append_eq_nil_iff.mp hab.symm
      rcases hor with ⟨-, hb, -⟩ | ⟨a', ha', -⟩
      · cases hb
      · exact absurd ha'.symm (by simp)

/-- The part before the port stays what it is once it is known. -/
theorem HostCut.step (h : HostCut n pre s) (dotPos : ℕ) (alloc : Bool) :
    HostCut n (pre ++ [ch])
      { state := (s.cutAt pre.length ch).1
        dotPos := dotPos
        hostLen := (s.cutAt pre.length ch).2
        alloc := alloc } := by
  have hhead : pre ≠ [] → (pre ++ [ch]).head? = pre.head? :=
    List.head?_append_of_ne_nil pre
  have hpre := h
  unfold HostCut at h
  unfold HostScan.cutAt
  cases hstate : s.state with
  | usual =>
      rw [hstate] at h
      obtain ⟨hlen, hopen, hcolon⟩ := h
      dsimp only
      by_cases hport : ch = byte ':'
      · rw [if_pos hport, hport]
        exact ⟨pre, [byte ':'], rfl, rfl, .inl ⟨hopen, rfl, hcolon⟩⟩
      rw [if_neg hport]
      have hcolon' : byte ':' ∉ pre ++ [ch] := by
        simp [hcolon, Ne.symm hport]
      by_cases hfirst : ch = byte '[' ∧ pre.length = 0
      · rw [if_pos hfirst]
        obtain ⟨rfl, hnil⟩ := hfirst
        obtain rfl := List.eq_nil_of_length_eq_zero hnil
        exact ⟨hlen, rfl, by decide⟩
      · rw [if_neg hfirst]
        refine ⟨hlen, ?_, hcolon'⟩
        rcases eq_or_ne pre [] with rfl | hne
        · simpa using hfirst
        · rwa [hhead hne]
  | literal =>
      rw [hstate] at h
      obtain ⟨hlen, hopen, hclose⟩ := h
      have hne : pre ≠ [] := by
        rintro rfl
        cases hopen
      dsimp only
      by_cases hend : ch = byte ']'
      · rw [if_pos hend, hend]
        exact ⟨pre ++ [byte ']'], [], by simp, by simp,
          .inr ⟨pre, rfl, hopen, hclose⟩⟩
      · rw [if_neg hend]
        refine ⟨hlen, by rwa [hhead hne], ?_⟩
        simp [hclose, Ne.symm hend]
  | rest =>
      rw [hstate] at h
      obtain ⟨a, b, rfl, hlen, hor⟩ := h
      refine ⟨a, b ++ [ch], List.append_assoc .., hlen, ?_⟩
      rcases hor with ⟨hopen, hb, hcolon⟩ | hliteral
      · refine .inl ⟨hopen, ?_, hcolon⟩
        rw [List.head?_append, hb]
        rfl
      · exact .inr hliteral

/-- What the loop does with the next byte. -/
theorem HostRead.stepValidHost_eq (h : HostRead n alloc pre s) (hn : pre.length < n)
    (ch : UInt8) :
    stepValidHost pre.length ch s =
      if badHostByte ch ∨ ch = byte '.' ∧ pre.getLast? = some (byte '.') then none
      else some
        { state := (s.cutAt pre.length ch).1
          dotPos := if ch = byte '.' then pre.length else s.dotPos
          hostLen := (s.cutAt pre.length ch).2
          alloc := s.alloc || isUpper ch } := by
  have hlast := h.dotPos_iff (le_refl _) hn.le
  rw [List.take_length, List.drop_length] at hlast
  have hlast' : s.dotPos + 1 = pre.length ↔ pre.getLast? = some (byte '.') := by
    simpa using hlast
  rw [MultiversionBalancer.Http.stepValidHost_eq]
  · simp only [hlast']
  · intro hnil
    have hcut := h.cut
    rw [List.eq_nil_of_length_eq_zero hnil] at hcut
    exact hcut.first

theorem HostRead.step (h : HostRead n alloc pre s) (hn : pre.length < n)
    (hgood : ¬(badHostByte ch ∨
      ch = byte '.' ∧ pre.getLast? = some (byte '.'))) :
    ∃ s', stepValidHost pre.length ch s = some s' ∧
      HostRead n alloc (pre ++ [ch]) s' := by
  obtain ⟨hbad, hdots⟩ := not_or.mp hgood
  refine ⟨_, by rw [h.stepValidHost_eq hn, if_neg hgood], ?_⟩
  exact
    { good := by
        intro c hc
        rcases List.mem_append.mp hc with hc | hc
        · exact h.good c hc
        · rwa [List.mem_singleton.mp hc]
      dots := by
        refine List.isChain_append.mpr ⟨h.dots, List.isChain_singleton ch, ?_⟩
        rintro x hx y hy ⟨rfl, rfl⟩
        obtain rfl := Option.some.inj hy
        exact hdots ⟨rfl, hx⟩
      dot := by
        by_cases hch : ch = byte '.'
        · rw [if_pos hch, hch]
          exact .inr ⟨pre, [], rfl, by simp, rfl⟩
        · rw [if_neg hch]
          rcases h.dot with ⟨hpos, hno⟩ | ⟨a, b, rfl, hb, hpos⟩
          · exact .inl ⟨hpos, by simp [hno, Ne.symm hch]⟩
          · exact .inr ⟨a, b ++ [ch], by simp, by simp [hb, Ne.symm hch], hpos⟩
      upper := by
        rw [h.upper, List.any_append, Bool.or_assoc]
        simp
      cut := h.cut.step _ _ }

/-- The loop gets through exactly the texts of good bytes without two dots in
a row. -/
theorem HostRead.scan (h : HostRead n alloc pre s)
    (hn : pre.length + rest.length = n) :
    (∃ s', scanHost pre.length rest s = some s' ∧
        HostRead n alloc (pre ++ rest) s') ∨
      scanHost pre.length rest s = none ∧
        ¬((∀ c ∈ rest, ¬badHostByte c) ∧ SingleDots (pre ++ rest)) := by
  induction rest generalizing pre s with
  | nil => exact .inl ⟨s, rfl, by rwa [List.append_nil]⟩
  | cons ch rest ih =>
      rw [List.length_cons] at hn
      by_cases hgood : badHostByte ch ∨
          ch = byte '.' ∧ pre.getLast? = some (byte '.')
      · refine .inr ⟨?_, ?_⟩
        · rw [scanHost, h.stepValidHost_eq (by omega), if_pos hgood]
          rfl
        · rintro ⟨hgood', hdots⟩
          rcases hgood with hbad | ⟨rfl, hlast⟩
          · exact hgood' ch List.mem_cons_self hbad
          · exact (List.isChain_append.mp hdots).2.2 _ hlast _ rfl ⟨rfl, rfl⟩
      · obtain ⟨s₁, hstep, h₁⟩ := h.step (by omega) hgood
        have hlen : (pre ++ [ch]).length = pre.length + 1 := by simp
        have hrest := ih h₁ (by omega)
        rw [hlen, List.append_assoc, List.singleton_append] at hrest
        rw [scanHost, hstep, Option.bind_some]
        rcases hrest with hrun | ⟨hnone, hno⟩
        · exact .inl hrun
        · refine .inr ⟨hnone, fun hall => hno ⟨?_, hall.2⟩⟩
          exact fun c hc => hall.1 c (List.mem_cons_of_mem ch hc)

end Loop

/-- The loop over a whole text. -/
theorem scanHost_spec (alloc : Bool) (host : List UInt8) :
    (∃ s, scanHost 0 host ⟨.usual, host.length, host.length, alloc⟩ = some s ∧
        HostRead host.length alloc host s) ∨
      scanHost 0 host ⟨.usual, host.length, host.length, alloc⟩ = none ∧
        ¬((∀ c ∈ host, ¬badHostByte c) ∧ SingleDots host) := by
  have hstart : HostRead host.length alloc []
      ⟨.usual, host.length, host.length, alloc⟩ :=
    { good := by simp
      dots := List.isChain_nil
      dot := .inl ⟨rfl, by simp⟩
      upper := by simp
      cut := ⟨rfl, by simp, by simp⟩ }
  exact hstart.scan (by simp)

theorem takeWhile_append_stop {x : UInt8} {a : List UInt8} (b : List UInt8)
    (ha : x ∉ a) : (a ++ x :: b).takeWhile (· != x) = a := by
  rw [List.takeWhile_append_of_pos, List.takeWhile_cons_of_neg (by simp),
    List.append_nil]
  intro c hc
  rw [bne_iff_ne]
  rintro rfl
  exact ha hc

theorem takeWhile_of_not_mem {x : UInt8} {a : List UInt8} (ha : x ∉ a) :
    a.takeWhile (· != x) = a := by
  rw [List.takeWhile_eq_self_iff]
  intro c hc
  rw [bne_iff_ne]
  rintro rfl
  exact ha hc

/-- The end of the part before the port. -/
theorem HostRead.hostLen_eq {alloc : Bool} {host : List UInt8} {s : HostScan}
    (h : HostRead host.length alloc host s) :
    host.take s.hostLen = hostPart host ∧
      s.hostLen = (hostPart host).length := by
  have hcut := h.cut
  unfold HostCut at hcut
  have hwhole : hostPart host = host → s.hostLen = host.length →
      host.take s.hostLen = hostPart host ∧
        s.hostLen = (hostPart host).length := by
    intro hpart hlen
    rw [hpart, hlen, List.take_length]
    exact ⟨rfl, rfl⟩
  cases hstate : s.state with
  | usual =>
      rw [hstate] at hcut
      obtain ⟨hlen, hopen, hcolon⟩ := hcut
      refine hwhole ?_ hlen
      rw [hostPart, if_neg hopen, takeWhile_of_not_mem hcolon]
  | literal =>
      rw [hstate] at hcut
      obtain ⟨hlen, hopen, hclose⟩ := hcut
      refine hwhole ?_ hlen
      rw [hostPart, if_pos hopen, if_neg hclose]
  | rest =>
      rw [hstate] at hcut
      obtain ⟨a, b, rfl, hlen, hor⟩ := hcut
      rw [← hlen, List.take_left]
      have hpart : hostPart (a ++ b) = a := by
        rcases hor with ⟨hopen, hb, hcolon⟩ | ⟨a', rfl, hopen, hclose⟩
        · obtain ⟨c, b, rfl⟩ := List.exists_cons_of_ne_nil
            (show b ≠ [] by rintro rfl; cases hb)
          obtain rfl := Option.some.inj hb
          have hhead : (a ++ byte ':' :: b).head? ≠ some (byte '[') := by
            cases a with
            | nil => exact nofun
            | cons x a => exact hopen
          rw [hostPart, if_neg hhead, takeWhile_append_stop b hcolon]
        · have hne : a' ≠ [] := by
            rintro rfl
            cases hopen
          have hhead : (a' ++ [byte ']'] ++ b).head? = some (byte '[') := by
            rw [List.append_assoc, List.head?_append_of_ne_nil a' hne, hopen]
          rw [hostPart, if_pos hhead, if_pos (by simp), List.append_assoc,
            List.singleton_append, takeWhile_append_stop b hclose]
      rw [hpart]
      exact ⟨rfl, rfl⟩

/-! ## What is left of a host -/

theorem ngxTolower_spec (c : UInt8) :
    isUpper (ngxTolower c) = false ∧
      (badHostByte (ngxTolower c) ↔ badHostByte c) ∧
      (isUpper c = false → ngxTolower c = c) := by
  have htest := byte_test (p := fun c => !isUpper (ngxTolower c) &&
    decide (badHostByte (ngxTolower c)) == decide (badHostByte c))
    (by decide +kernel) c
  rw [Bool.and_eq_true, Bool.not_eq_true', beq_iff_eq, decide_eq_decide] at htest
  refine ⟨htest.1, htest.2, fun hupper => ?_⟩
  rw [ngxTolower, hupper]
  exact if_neg Bool.false_ne_true

theorem map_ngxTolower {l : List UInt8} (h : ∀ c ∈ l, isUpper c = false) :
    l.map ngxTolower = l := by
  conv_rhs => rw [← List.map_id l]
  exact List.map_congr_left fun c hc => (ngxTolower_spec c).2.2 (h c hc)

/-- The part before the port without the dot at its end, unless another dot
follows. -/
def hostName (host : List UInt8) : List UInt8 :=
  if (hostPart host).getLast? = some (byte '.') ∧
      byte '.' ∉ host.drop (hostPart host).length then
    (hostPart host).dropLast
  else hostPart host

/-- What the function accepts, and what it returns. -/
theorem validateHost_ok_iff {memory alloc : Bool} {host res : List UInt8} :
    ngxHttpValidateHost memory alloc host = .ok res ↔
      ((∀ c ∈ host, ¬badHostByte c) ∧ SingleDots host) ∧ hostName host ≠ [] ∧
        (memory = true ∨ (alloc || host.any isUpper) = false) ∧
        res = (hostName host).map ngxTolower := by
  unfold ngxHttpValidateHost
  rcases scanHost_spec alloc host with ⟨s, hscan, hread⟩ | ⟨hscan, hno⟩
  · obtain ⟨htake, hlen⟩ := hread.hostLen_eq
    have hle : s.hostLen ≤ host.length := by
      rw [← hread.hostLen_eq.1] at hlen
      rw [hlen, List.length_take]
      exact min_le_right _ _
    have hdot := hread.dotPos_iff hle le_rfl
    rw [htake, hlen] at hdot
    -- the bytes that are kept
    have hname : host.take
        (if s.dotPos + 1 = s.hostLen then s.hostLen - 1 else s.hostLen) =
          hostName host ∧
        (if s.dotPos + 1 = s.hostLen then s.hostLen - 1 else s.hostLen) =
          (hostName host).length := by
      unfold hostName
      rw [hlen]
      by_cases hstrip : s.dotPos + 1 = (hostPart host).length
      · rw [if_pos hstrip, if_pos (hdot.mp hstrip), List.length_dropLast,
          List.dropLast_eq_take, ← htake, List.take_take, hlen]
        simp
      · rw [if_neg hstrip, if_neg (fun h => hstrip (hdot.mpr h)), ← hlen, htake]
        exact ⟨rfl, rfl⟩
    obtain ⟨hkept, hkeptLen⟩ := hname
    rw [hscan]
    dsimp only
    simp only [hkept]
    simp only [hkeptLen, List.length_eq_zero_iff, hread.upper]
    have hgood : (∀ c ∈ host, ¬badHostByte c) ∧ SingleDots host :=
      ⟨hread.good, hread.dots⟩
    rw [and_iff_right hgood]
    by_cases hempty : hostName host = []
    · rw [if_pos hempty]
      exact iff_of_false nofun fun h => h.1 hempty
    · rw [if_neg hempty, and_iff_right hempty]
      cases hupper : (alloc || host.any isUpper) with
      | true =>
          cases memory with
          | true => simp [eq_comm]
          | false => simp
      | false =>
          have hsame : (hostName host).map ngxTolower = hostName host := by
            refine map_ngxTolower fun c hc => ?_
            have hany := (Bool.or_eq_false_iff.mp hupper).2
            rw [← hkept] at hc
            exact Bool.eq_false_iff.mpr
              (List.any_eq_false.mp hany c (List.mem_of_mem_take hc))
          simp [hsame, eq_comm]
  · rw [hscan]
    exact iff_of_false nofun fun h => hno h.1

theorem hostPart_isPrefix (host : List UInt8) : hostPart host <+: host := by
  unfold hostPart
  split
  · split
    · next hclose =>
        obtain ⟨a, b, rfl, ha⟩ := List.eq_append_cons_of_mem hclose
        rw [takeWhile_append_stop b ha]
        exact ⟨b, by simp⟩
    · exact List.prefix_rfl
  · exact List.takeWhile_prefix _

theorem hostName_isPrefix (host : List UInt8) :
    hostName host <+: hostPart host := by
  unfold hostName
  split
  · exact List.dropLast_prefix _
  · exact List.prefix_rfl

theorem hostPart_closed {host : List UInt8}
    (hopen : host.head? = some (byte '[')) :
    byte ']' ∉ (hostPart host).dropLast := by
  rw [hostPart, if_pos hopen]
  split
  · rw [List.dropLast_concat]
    intro hmem
    have hstop := List.mem_takeWhile_imp hmem
    simp at hstop
  · next hclose => exact fun hmem => hclose (List.mem_of_mem_dropLast hmem)

theorem CanonicalHost.hostPart_eq {host : List UInt8} (h : CanonicalHost host) :
    hostPart host = host := by
  unfold hostPart
  split
  · next hopen =>
      split
      · next hclose =>
          have hno := h.closed hopen
          have hsplit := List.dropLast_append_getLast h.nonempty
          rw [← hsplit, List.mem_append] at hclose
          have hlast := List.mem_singleton.mp (hclose.resolve_left hno)
          rw [← hlast] at hsplit
          conv_lhs => rw [← hsplit]
          rw [takeWhile_append_stop [] hno]
          exact hsplit
      · rfl
  · next hopen => exact takeWhile_of_not_mem (h.port.resolve_right hopen)

/-- A canonical host is accepted and left alone. -/
theorem CanonicalHost.validate {host : List UInt8} (h : CanonicalHost host)
    (alloc : Bool) : ngxHttpValidateHost true alloc host = .ok host := by
  have hname : hostName host = host := by
    rw [hostName, h.hostPart_eq, if_neg (fun hdot => h.trailing hdot.1)]
  refine validateHost_ok_iff.mpr ⟨⟨h.good, h.dots⟩, ?_, .inl rfl, ?_⟩
  · rw [hname]
    exact h.nonempty
  · rw [hname, map_ngxTolower h.lower]

/-- The host that is kept ends in a dot exactly when another dot follows the
part before the port. -/
theorem hostName_getLast? {host : List UInt8} (hdots : SingleDots host) :
    (hostName host).getLast? = some (byte '.') ↔ DotBeforePort host := by
  unfold hostName DotBeforePort
  by_cases hlast : (hostPart host).getLast? = some (byte '.')
  · by_cases hafter : byte '.' ∈ host.drop (hostPart host).length
    · rw [if_neg (fun h => h.2 hafter)]
      exact iff_of_true hlast ⟨hlast, hafter⟩
    · rw [if_pos ⟨hlast, hafter⟩]
      refine iff_of_false (fun hbefore => ?_) fun h => hafter h.2
      -- two dots in a row
      obtain ⟨t, ht⟩ := hostPart_isPrefix host
      obtain ⟨a, ha⟩ := List.getLast?_eq_some_iff.mp hlast
      rw [ha, List.dropLast_concat] at hbefore
      rw [← ht, ha] at hdots
      exact (List.isChain_append.mp (List.isChain_append.mp hdots).1).2.2
        _ hbefore _ rfl ⟨rfl, rfl⟩
  · rw [if_neg (fun h => hlast h.1)]
    exact iff_of_false hlast fun h => hlast h.1

theorem map_ngxTolower_eq_some {x : UInt8} {o : Option UInt8}
    (hx : x ∈ [0, byte '&', byte '.', byte ':', byte '[', byte ']']) :
    o.map ngxTolower = some x ↔ o = some x := by
  rw [Option.map_eq_some_iff]
  constructor
  · rintro ⟨c, rfl, heq⟩
    rw [(ngxTolower_eq_iff c hx).mp heq]
  · rintro rfl
    exact ⟨x, rfl, (ngxTolower_eq_iff x hx).mpr rfl⟩

/-- The host that is kept is canonical but for a dot at its end. -/
theorem hostName_canonical {host : List UInt8}
    (hgood : ∀ c ∈ host, ¬badHostByte c) (hdots : SingleDots host)
    (hne : hostName host ≠ []) :
    CanonicalHost ((hostName host).map ngxTolower) ↔ ¬DotBeforePort host := by
  obtain ⟨t, ht⟩ := (hostName_isPrefix host).trans (hostPart_isPrefix host)
  have hmem : ∀ c ∈ hostName host, c ∈ host := fun c hc =>
    ht ▸ List.mem_append_left t hc
  have hhead : (hostName host).head? = host.head? := by
    conv_rhs => rw [← ht]
    rw [List.head?_append_of_ne_nil _ hne]
  rw [← hostName_getLast? hdots]
  constructor
  · intro h hlast
    refine h.trailing ?_
    rw [List.getLast?_map, hlast]
    rfl
  · intro hlast
    exact
      { nonempty := by simpa using hne
        lower := by
          intro c hc
          obtain ⟨d, -, rfl⟩ := List.mem_map.mp hc
          exact (ngxTolower_spec d).1
        good := by
          intro c hc
          obtain ⟨d, hd, rfl⟩ := List.mem_map.mp hc
          rw [(ngxTolower_spec d).2.1]
          exact hgood d (hmem d hd)
        port := by
          rw [mem_map_ngxTolower (by simp), List.head?_map,
            map_ngxTolower_eq_some (by simp), hhead]
          by_cases hopen : host.head? = some (byte '[')
          · exact .inr hopen
          · left
            intro hcolon
            have hpart := (hostName_isPrefix host).subset hcolon
            rw [hostPart, if_neg hopen] at hpart
            have hstop := List.mem_takeWhile_imp hpart
            simp at hstop
        closed := by
          rw [List.head?_map, map_ngxTolower_eq_some (by simp), hhead,
            ← List.map_dropLast, mem_map_ngxTolower (by simp)]
          intro hopen hclose
          refine hostPart_closed hopen ?_
          unfold hostName at hclose
          split at hclose
          · exact List.mem_of_mem_dropLast hclose
          · exact hclose
        dots := by
          rw [← ht] at hdots
          refine (List.isChain_map _).mpr
            ((List.isChain_append.mp hdots).1.imp ?_)
          intro a b hab
          rw [ngxTolower_eq_iff a (by simp), ngxTolower_eq_iff b (by simp)]
          exact hab
        trailing := by
          rw [List.getLast?_map, Ne, map_ngxTolower_eq_some (by simp)]
          exact hlast }

/-- The host that `ngx_http_validate_host` returns is canonical, and validating
it again returns it unchanged, exactly if the part before the port does not end
in a dot that another dot follows. -/
theorem validateHost_canonical_iff {memory alloc : Bool}
    {host res : List UInt8}
    (h : ngxHttpValidateHost memory alloc host = .ok res) :
    (CanonicalHost res ∧ ∀ alloc, ngxHttpValidateHost true alloc res = .ok res) ↔
      ¬DotBeforePort host := by
  obtain ⟨⟨hgood, hdots⟩, hne, -, rfl⟩ := validateHost_ok_iff.mp h
  rw [← hostName_canonical hgood hdots hne]
  exact ⟨fun h => h.1, fun h => ⟨h, h.validate⟩⟩

theorem validateHost_canonical_port :
    ngxHttpValidateHost true false (bytes "Example.org.:80") =
        .ok (bytes "example.org") ∧
      CanonicalHost (bytes "example.org") := by
  have hrun : ngxHttpValidateHost true false (bytes "Example.org.:80") =
      .ok (bytes "example.org") := by decide +kernel
  exact ⟨hrun, ((validateHost_canonical_iff hrun).mpr (by decide +kernel)).1⟩

/-- A dot in what should be a port keeps the dot before it; a second validation
removes it. -/
theorem validateHost_trailing_dot :
    ngxHttpValidateHost true false (bytes "example.org.:8.0") =
        .ok (bytes "example.org.") ∧
      ngxHttpValidateHost true false (bytes "example.org.") =
        .ok (bytes "example.org") ∧
      ¬CanonicalHost (bytes "example.org.") := by
  refine ⟨by decide +kernel, by decide +kernel, fun h => ?_⟩
  exact h.trailing (by decide +kernel)

end MultiversionBalancer.Http
