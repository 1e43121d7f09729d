import MultiversionBalancer.Http2.Handlers
import Mathlib.Data.List.Infix

/-!
# A header block as a whole

What the handlers make of a header block when they see all of it: no frames, no
reads, and every length is the length of what is left of the block.
-/

namespace MultiversionBalancer.Http2

/-! ## Integers -/

section Integers

variable {value shift w n : ℕ} {xs ys : List UInt8}

theorem parseOctets_bound (h : parseOctets value shift xs = some (w, n)) :
    0 < n ∧ n ≤ xs.length := by
  induction xs generalizing value shift w n with
  | nil => cases h
  | cons octet xs ih =>
      rw [parseOctets] at h
      by_cases hlast : octet < 128
      · rw [if_pos hlast] at h
        cases h
        exact ⟨Nat.one_pos, by simp⟩
      · rw [if_neg hlast] at h
        obtain ⟨⟨w', n'⟩, hrest, heq⟩ := Option.map_eq_some_iff.mp h
        cases heq
        have hbound := ih hrest
        exact ⟨Nat.succ_pos _, Nat.succ_le_succ hbound.2⟩

/-- Octets that end an integer end it whatever follows. -/
theorem parseOctets_append {r : ℕ × ℕ} (h : parseOctets value shift xs = some r)
    (ys : List UInt8) : parseOctets value shift (xs ++ ys) = some r := by
  induction xs generalizing value shift r with
  | nil => cases h
  | cons octet xs ih =>
      rw [List.cons_append]
      rw [parseOctets] at h ⊢
      by_cases hlast : octet < 128
      · rw [if_pos hlast] at h ⊢
        exact h
      · rw [if_neg hlast] at h ⊢
        obtain ⟨r', hrest, heq⟩ := Option.map_eq_some_iff.mp h
        rw [ih hrest, Option.map_some, heq]

theorem parseOctets_none_of_append
    (h : parseOctets value shift (xs ++ ys) = none) :
    parseOctets value shift xs = none := by
  cases hxs : parseOctets value shift xs with
  | none => rfl
  | some r =>
      rw [parseOctets_append hxs] at h
      cases h

theorem parseOctets_short (h : parseOctets value shift (xs ++ ys) = some (w, n))
    (hn : xs.length < n) : parseOctets value shift xs = none := by
  cases hxs : parseOctets value shift xs with
  | none => rfl
  | some r =>
      have happend := parseOctets_append hxs ys
      rw [h] at happend
      cases happend
      have hbound := (parseOctets_bound hxs).2
      omega

theorem parseOctets_long (h : parseOctets value shift (xs ++ ys) = some (w, n))
    (hn : n ≤ xs.length) : parseOctets value shift xs = some (w, n) := by
  induction xs generalizing value shift w n with
  | nil =>
      have hbound := (parseOctets_bound h).1
      rw [List.length_nil] at hn
      omega
  | cons octet xs ih =>
      rw [List.cons_append] at h
      rw [parseOctets] at h ⊢
      by_cases hlast : octet < 128
      · rw [if_pos hlast] at h ⊢
        exact h
      · rw [if_neg hlast] at h ⊢
        obtain ⟨⟨w', n'⟩, hrest, heq⟩ := Option.map_eq_some_iff.mp h
        cases heq
        rw [ih hrest (Nat.le_of_succ_le_succ hn)]
        rfl

def IntResult.Fails (r : IntResult) : Prop :=
  ∀ value length rest, r ≠ .value value length rest

section Parse

variable {length : ℕ} {ch p : UInt8} {rest : List UInt8}

theorem parseInt_some (hp : ch &&& p = p)
    (h : parseOctets p.toNat 0 (rest.take (intOctets - 1)) = some (w, n)) :
    ngxHttpV2ParseInt length ch rest p =
      if length < n + 1 then .error
      else .value w (length - (n + 1)) (rest.drop n) := by
  rw [ngxHttpV2ParseInt, if_neg (not_not.mpr hp)]
  simp only [h]

theorem parseInt_none (hp : ch &&& p = p)
    (h : parseOctets p.toNat 0 (rest.take (intOctets - 1)) = none) :
    ngxHttpV2ParseInt length ch rest p =
      if length ≤ (rest.take (intOctets - 1)).length + 1 then .error
      else if (rest.take (intOctets - 1)).length + 1 = intOctets then .declined
      else .again := by
  rw [ngxHttpV2ParseInt, if_neg (not_not.mpr hp)]
  simp only [h]

theorem parseInt_fails (hp : ch &&& p = p)
    (h : parseOctets p.toNat 0 (rest.take (intOctets - 1)) = none) :
    (ngxHttpV2ParseInt length ch rest p).Fails := by
  intro value len rest'
  rw [parseInt_none hp h]
  split
  · nofun
  · split
    · nofun
    · nofun

end Parse

/-- The octets of a block that can be seen: they are the first ones of the block,
and there are all of them or enough for an integer. -/
structure Sees (length : ℕ) (input u : List UInt8) : Prop where
  agrees : input.take length <+: u
  length_le : length ≤ u.length
  enough : length = u.length ∨ intOctets ≤ length

/-- What an integer in the buffer says about the integer in the block. -/
def IntSeen (length : ℕ) (input u : List UInt8) (whole : IntResult) :
    IntResult → Prop
  | .value value length' rest =>
      ∃ k, 0 < k ∧ k ≤ length ∧ k ≤ input.length ∧ length' = length - k ∧
        rest = input.drop k ∧ whole = .value value (u.length - k) (u.drop k)
  | .error => whole.Fails
  | .declined => whole.Fails
  | .again => input.length < length ∧ input.length < intOctets

section Seen

variable {l : ℕ} {ch p : UInt8} {rest urest : List UInt8}

theorem Sees.take_eq {m : ℕ} (h : Sees (l + 1) (ch :: rest) (ch :: urest))
    (hm : m ≤ l) (hrest : m ≤ rest.length) : urest.take m = rest.take m := by
  obtain ⟨behind, hbehind⟩ := h.agrees
  rw [List.take_succ_cons] at hbehind
  have hurest : urest = rest.take l ++ behind := (List.cons.inj hbehind).2.symm
  have hlen : m ≤ (rest.take l).length := by
    rw [List.length_take]
    omega
  rw [hurest, List.take_append_of_le_length hlen, List.take_take,
    Nat.min_eq_left hm]

/-- The window of an integer in the block is seen, or it is cut off by the end of
the block. -/
theorem Sees.octets_eq {m : ℕ} (h : Sees (l + 1) (ch :: rest) (ch :: urest))
    (hm : m = min l (intOctets - 1)) (hrest : m ≤ rest.length) :
    urest.take (intOctets - 1) = rest.take m := by
  have henough := h.enough
  have hle := h.length_le
  rw [List.length_cons] at henough hle
  rw [← h.take_eq (by omega) hrest]
  by_cases hl : intOctets - 1 ≤ l
  · rw [hm, Nat.min_eq_right hl]
  · rw [List.take_of_length_le (by omega), List.take_of_length_le (by omega)]

theorem take_window (rest : List UInt8) {m : ℕ} (hm : m ≤ intOctets - 1) :
    rest.take (intOctets - 1) =
      rest.take m ++ (rest.drop m).take (intOctets - 1 - m) := by
  rw [← List.take_add, Nat.add_sub_of_le hm]

theorem parseInt_seen_some (hp : ch &&& p = p)
    (h : Sees (l + 1) (ch :: rest) (ch :: urest))
    (hparse : parseOctets p.toNat 0 (rest.take (intOctets - 1)) = some (w, n)) :
    IntSeen (l + 1) (ch :: rest) (ch :: urest)
      (ngxHttpV2ParseInt (urest.length + 1) ch urest p)
      (ngxHttpV2ParseInt (l + 1) ch rest p) := by
  have hbound := parseOctets_bound hparse
  rw [List.length_take] at hbound
  have hle := h.length_le
  rw [List.length_cons] at hle
  have hint : ngxHttpV2ParseInt (l + 1) ch rest p = _ := parseInt_some hp hparse
  rw [hint]
  by_cases hshort : l < n
  · -- The integer goes on behind the end of the block.
    rw [if_pos (by omega)]
    apply parseInt_fails hp
    rw [h.octets_eq rfl (by omega)]
    rw [take_window rest (m := min l (intOctets - 1)) (by omega)] at hparse
    apply parseOctets_short hparse
    rw [List.length_take]
    omega
  · rw [if_neg (by omega)]
    have hseen : parseOctets p.toNat 0 (rest.take n) = some (w, n) := by
      rw [take_window rest (m := n) (by omega)] at hparse
      apply parseOctets_long hparse
      rw [List.length_take]
      omega
    have hwhole : parseOctets p.toNat 0 (urest.take (intOctets - 1)) =
        some (w, n) := by
      rw [take_window urest (m := n) (by omega), h.take_eq (by omega) (by omega)]
      exact parseOctets_append hseen _
    refine ⟨n + 1, Nat.succ_pos _, by omega, ?_, rfl, rfl, ?_⟩
    · rw [List.length_cons]
      omega
    · rw [parseInt_some hp hwhole, if_neg (by omega)]
      rfl

theorem parseInt_seen_none (hp : ch &&& p = p)
    (h : Sees (l + 1) (ch :: rest) (ch :: urest))
    (hparse : parseOctets p.toNat 0 (rest.take (intOctets - 1)) = none) :
    IntSeen (l + 1) (ch :: rest) (ch :: urest)
      (ngxHttpV2ParseInt (urest.length + 1) ch urest p)
      (ngxHttpV2ParseInt (l + 1) ch rest p) := by
  have hwindow : (rest.take (intOctets - 1)).length =
      min (intOctets - 1) rest.length := List.length_take
  have hfails (hle : min l (intOctets - 1) ≤ rest.length) :
      (ngxHttpV2ParseInt (urest.length + 1) ch urest p).Fails := by
    apply parseInt_fails hp
    rw [h.octets_eq rfl hle]
    rw [take_window rest (m := min l (intOctets - 1)) (by omega)] at hparse
    exact parseOctets_none_of_append hparse
  have hint : ngxHttpV2ParseInt (l + 1) ch rest p = _ := parseInt_none hp hparse
  rw [hint, hwindow]
  by_cases hshort : l + 1 ≤ min (intOctets - 1) rest.length + 1
  · rw [if_pos hshort]
    exact hfails (by omega)
  · rw [if_neg hshort]
    by_cases hdeclined : min (intOctets - 1) rest.length + 1 = intOctets
    · rw [if_pos hdeclined]
      exact hfails (by rw [intOctets] at *; omega)
    · rw [if_neg hdeclined]
      rw [intOctets] at hdeclined hshort
      refine ⟨?_, ?_⟩
      · rw [List.length_cons]
        omega
      · rw [List.length_cons, intOctets]
        omega

theorem parseInt_seen (h : Sees (l + 1) (ch :: rest) (ch :: urest)) :
    IntSeen (l + 1) (ch :: rest) (ch :: urest)
      (ngxHttpV2ParseInt (urest.length + 1) ch urest p)
      (ngxHttpV2ParseInt (l + 1) ch rest p) := by
  by_cases hp : ch &&& p = p
  · cases hparse : parseOctets p.toNat 0 (rest.take (intOctets - 1)) with
    | none => exact parseInt_seen_none hp h hparse
    | some r => exact parseInt_seen_some hp h hparse
  · have hone (length : ℕ) (rest : List UInt8) :
        ngxHttpV2ParseInt (length + 1) ch rest p =
          .value (ch &&& p).toNat length rest := by
      rw [ngxHttpV2ParseInt, if_pos hp, if_neg (Nat.succ_ne_zero _)]
      rfl
    rw [hone, hone]
    exact ⟨1, Nat.one_pos, by omega, by simp, rfl, rfl, rfl⟩

end Seen

end Integers

/-! ## Strings -/

section Strings

variable {T S : Type*}

theorem huffLoop_append (codes : UInt8 → UInt8 → HuffCode) (state : UInt8)
    (ending : Bool) (dst a b : List UInt8) :
    huffLoop codes state ending dst (a ++ b) =
      (huffLoop codes state ending dst a).bind fun r =>
        huffLoop codes r.1 r.2.1 r.2.2 b := by
  induction a generalizing state ending dst with
  | nil => rfl
  | cons ch a ih =>
      rw [List.cons_append, huffLoop, huffLoop]
      cases hhigh : ngxHttpHuffDecodeBits codes (ch >>> 4) state dst with
      | none => rfl
      | some r =>
          obtain ⟨state₁, ending₁, dst₁⟩ := r
          change (ngxHttpHuffDecodeBits codes (ch &&& 15) state₁ dst₁ >>= _) =
            (ngxHttpHuffDecodeBits codes (ch &&& 15) state₁ dst₁ >>= _).bind _
          cases hlow : ngxHttpHuffDecodeBits codes (ch &&& 0xf) state₁ dst₁ with
          | none => rfl
          | some r =>
              obtain ⟨state₂, ending₂, dst₂⟩ := r
              exact ih state₂ ending₂ dst₂

/-- Whether a code ends at a byte does not depend on the bytes before. -/
theorem huffLoop_ending (codes : UInt8 → UInt8 → HuffCode) (state : UInt8)
    (ending ending' : Bool) (dst : List UInt8) {b : List UInt8} (hb : b ≠ []) :
    huffLoop codes state ending dst b = huffLoop codes state ending' dst b := by
  obtain ⟨ch, b, rfl⟩ := List.exists_cons_of_ne_nil hb
  rfl

/-- A string that comes in two parts. -/
theorem huffDecode_append (codes : UInt8 → UInt8 → HuffCode) (state : UInt8)
    (dst a b : List UInt8) {last : Bool} (h : b ≠ [] ∨ last = false) :
    ngxHttpHuffDecode codes state (a ++ b) dst last =
      (ngxHttpHuffDecode codes state a dst false).bind fun r =>
        ngxHttpHuffDecode codes r.1 b r.2 last := by
  simp only [ngxHttpHuffDecode, huffLoop_append]
  cases ha : huffLoop codes state true dst a with
  | none => rfl
  | some r =>
      obtain ⟨state', ending, dst'⟩ := r
      simp only [Option.bind_some]
      by_cases hb : b = []
      · have hlast : last = false := h.resolve_left (not_not.mpr hb)
        subst hb
        rw [hlast]
        rfl
      · rw [huffLoop_ending codes state' ending true dst' hb]
        rfl

/-- A handler that reads a string. -/
def Handler.IsField (handler : Handler) : Prop :=
  handler = .fieldHuff ∨ handler = .fieldRaw ∨ handler = .fieldSkip

/-- What a handler does with the bytes of a string. -/
def takeField (env : Env T S) : Handler → Hpack T S → List UInt8 →
    Option (Hpack T S)
  | .fieldHuff => Hpack.takeHuff env
  | .fieldRaw => Hpack.takeRaw
  | _ => Hpack.takeNone

def Hpack.setRest (hpack : Hpack T S) (rest : ℕ) : Hpack T S :=
  { hpack with fieldRest := rest }

variable {env : Env T S} {handler : Handler} {hpack hpack' : Hpack T S}
  {a b : List UInt8}

/-- The parts of the state that the bytes of a string do not change. -/
theorem takeField_keeps (h : takeField env handler hpack a = some hpack') :
    hpack'.fields = hpack.fields ∧ hpack'.table = hpack.table ∧
      hpack'.fieldRest = hpack.fieldRest := by
  have hnone (h : hpack.takeNone a = some hpack') : hpack'.fields = hpack.fields ∧
      hpack'.table = hpack.table ∧ hpack'.fieldRest = hpack.fieldRest := by
    cases h
    exact ⟨rfl, rfl, rfl⟩
  cases handler with
  | fieldHuff =>
      obtain ⟨r, -, rfl⟩ := Option.map_eq_some_iff.mp h
      exact ⟨rfl, rfl, rfl⟩
  | fieldRaw =>
      cases h
      exact ⟨rfl, rfl, rfl⟩
  | _ => exact hnone h

theorem takeField_append {m m' : ℕ} (hm : m ≠ 0) (h : b ≠ [] ∨ m' ≠ 0) :
    takeField env handler (hpack.setRest m') (a ++ b) =
      (takeField env handler (hpack.setRest m) a).bind fun hpack =>
        takeField env handler (hpack.setRest m') b := by
  cases handler with
  | fieldHuff =>
      have hlast : b ≠ [] ∨ decide (m' = 0) = false := by simpa using h
      have htake (m : ℕ) (bytes : List UInt8) :
          takeField env .fieldHuff (hpack.setRest m) bytes =
            (ngxHttpHuffDecode env.huffDecodeCodes hpack.fieldState bytes
              hpack.field (decide (m = 0))).map fun r =>
                { hpack.setRest m with fieldState := r.1, field := r.2 } :=
        rfl
      rw [htake, htake, huffDecode_append _ _ _ a b hlast, decide_eq_false hm]
      cases ngxHttpHuffDecode env.huffDecodeCodes hpack.fieldState a hpack.field
          false with
      | none => rfl
      | some r => rfl
  | fieldRaw => simp [takeField, Hpack.takeRaw, Hpack.setRest]
  | _ => rfl

/-- No bytes change nothing. -/
theorem takeField_nil {m : ℕ} (hm : m ≠ 0) :
    takeField env handler (hpack.setRest m) [] = some (hpack.setRest m) := by
  cases handler with
  | fieldHuff =>
      simp [takeField, Hpack.takeHuff, Hpack.setRest, ngxHttpHuffDecode, huffLoop, hm]
  | fieldRaw => simp [takeField, Hpack.takeRaw, Hpack.setRest]
  | _ => rfl

end Strings

/-! ## The block -/

section Block

variable {T S : Type*}

/-- How a block ends; what a connection that fails leaves is the header fields
and the table. -/
inductive BlockEnd (T S : Type*) where
  | complete (hpack : Hpack T S)
  | failed (fields : List Header) (table : T)

inductive BlockStep (T S : Type*) where
  | more (handler : Handler) (hpack : Hpack T S) (u : List UInt8)
  | stop (e : BlockEnd T S)

def Hpack.failed (hpack : Hpack T S) : BlockEnd T S :=
  .failed hpack.fields hpack.table

/-- Go on with what has been found, or fail. -/
def BlockStep.resume (u : List UInt8) :
    Except (Hpack T S) (Handler × Hpack T S) → BlockStep T S
  | .error hpack => .stop hpack.failed
  | .ok (handler, hpack) => .more handler hpack u

def fieldStep (env : Env T S) (handler : Handler) (hpack : Hpack T S)
    (u : List UInt8) : BlockStep T S :=
  if u.length < hpack.fieldRest then .stop hpack.failed
  else
    match takeField env handler (hpack.setRest 0) (u.take hpack.fieldRest) with
    | none => .stop hpack.failed
    | some hpack' => .more .processHeader hpack' (u.drop hpack.fieldRest)

/-- An integer in a block, and what follows it. -/
def intStep (hpack : Hpack T S)
    (found : ℕ → Except (Hpack T S) (Handler × Hpack T S)) :
    IntResult → BlockStep T S
  | .value value _ rest => .resume rest (found value)
  | _ => .stop hpack.failed

/-- What a handler does with the rest of the block. -/
def blockStep (env : Env T S) : Handler → Hpack T S → List UInt8 →
    BlockStep T S
  | .headerBlock, hpack, [] => .stop hpack.failed
  | .headerBlock, hpack, ch :: rest =>
      intStep hpack ((hpack.markIndex ch).headerValue env ch)
        (ngxHttpV2ParseInt (rest.length + 1) ch rest (headerPrefix ch))
  | .fieldLen, hpack, [] => .stop hpack.failed
  | .fieldLen, hpack, ch :: rest =>
      intStep hpack (hpack.fieldLength env (128 ≤ ch))
        (ngxHttpV2ParseInt (rest.length + 1) ch rest 127)
  | .fieldHuff, hpack, u => fieldStep env .fieldHuff hpack u
  | .fieldRaw, hpack, u => fieldStep env .fieldRaw hpack u
  | .fieldSkip, hpack, u => fieldStep env .fieldSkip hpack u
  | .processHeader, hpack, u => .resume u (hpack.processHeader env)
  | .headerComplete, hpack, [] => .stop (.complete hpack)
  | .headerComplete, hpack, ch :: rest => .more .headerBlock hpack (ch :: rest)
  | .skip, hpack, _ => .stop (.complete hpack)

inductive Decodes (env : Env T S) :
    Handler → Hpack T S → List UInt8 → BlockEnd T S → Prop where
  | stop {handler : Handler} {hpack : Hpack T S} {u : List UInt8}
      {e : BlockEnd T S} (h : blockStep env handler hpack u = .stop e) :
      Decodes env handler hpack u e
  | step {handler handler' : Handler} {hpack hpack' : Hpack T S}
      {u u' : List UInt8} {e : BlockEnd T S}
      (h : blockStep env handler hpack u = .more handler' hpack' u')
      (hrest : Decodes env handler' hpack' u' e) : Decodes env handler hpack u e

theorem Decodes.unique {env : Env T S} {handler : Handler} {hpack : Hpack T S}
    {u : List UInt8} {e e' : BlockEnd T S} (h : Decodes env handler hpack u e)
    (h' : Decodes env handler hpack u e') : e = e' := by
  induction h with
  | stop hstop =>
      cases h' with
      | stop hstop' => exact BlockStep.stop.inj (hstop.symm.trans hstop')
      | step hstep => cases hstop.symm.trans hstep
  | step hstep hrest ih =>
      cases h' with
      | stop hstop => cases hstep.symm.trans hstop
      | step hstep' hrest' =>
          cases hstep.symm.trans hstep'
          exact ih hrest'

def Handler.StartsInt (handler : Handler) : Prop :=
  handler = .headerBlock ∨ handler = .fieldLen

/-- The block is used up by handlers that begin no integer without enough octets
before them: nothing is left of it, and no error has been found. -/
inductive UsedUp (env : Env T S) :
    Handler → Hpack T S → List UInt8 → Prop where
  | complete {hpack : Hpack T S} : UsedUp env .headerComplete hpack []
  | fieldLen {hpack : Hpack T S} : UsedUp env .fieldLen hpack []
  | field {handler : Handler} {hpack hpack' : Hpack T S} {u : List UInt8}
      (hfield : handler.IsField) (hlt : u.length < hpack.fieldRest)
      (htake : takeField env handler
        (hpack.setRest (hpack.fieldRest - u.length)) u = some hpack') :
      UsedUp env handler hpack u
  | step {handler handler' : Handler} {hpack hpack' : Hpack T S}
      {u u' : List UInt8} (hint : handler.StartsInt → intOctets ≤ u.length)
      (h : blockStep env handler hpack u = .more handler' hpack' u')
      (hrest : UsedUp env handler' hpack' u') : UsedUp env handler hpack u

variable {env : Env T S} {handler : Handler} {hpack hpack' : Hpack T S}
  {u a b : List UInt8}

theorem blockStep_field (hfield : handler.IsField) :
    blockStep env handler hpack u = fieldStep env handler hpack u := by
  obtain rfl | rfl | rfl := hfield
  · rfl
  · rfl
  · rfl

/-- The first part of a string can be read before. -/
theorem blockStep_piece (hfield : handler.IsField)
    (hlt : a.length < hpack.fieldRest)
    (htake : takeField env handler (hpack.setRest (hpack.fieldRest - a.length)) a =
      some hpack') :
    blockStep env handler hpack (a ++ b) = blockStep env handler hpack' b := by
  obtain ⟨hfields, htable, hrest⟩ := takeField_keeps htake
  have hrest' : hpack'.fieldRest = hpack.fieldRest - a.length := hrest
  have hfailed : hpack'.failed = hpack.failed := by
    rw [Hpack.failed, hfields, htable]
    rfl
  rw [blockStep_field hfield, blockStep_field hfield, fieldStep, fieldStep, hfailed,
    hrest', List.length_append]
  by_cases hshort : b.length < hpack.fieldRest - a.length
  · rw [if_pos hshort, if_pos (by omega)]
  · have hsplit : (a ++ b).take hpack.fieldRest =
        a ++ b.take (hpack.fieldRest - a.length) := by
      rw [List.take_append, List.take_of_length_le (Nat.le_of_lt hlt)]
    have hdrop : (a ++ b).drop hpack.fieldRest =
        b.drop (hpack.fieldRest - a.length) := by
      rw [List.drop_append, List.drop_eq_nil_of_le (Nat.le_of_lt hlt),
        List.nil_append]
    have hne : b.take (hpack.fieldRest - a.length) ≠ [] := by
      rw [← List.length_pos_iff_ne_nil, List.length_take]
      omega
    rw [if_neg hshort, if_neg (by omega), hsplit, hdrop,
      takeField_append (Nat.sub_ne_zero_of_lt hlt) (.inl hne), htake]
    rfl

/-- A literal that has been marked before is marked again. -/
theorem blockStep_markIndex (ch : UInt8) :
    blockStep env .headerBlock (hpack.markIndex ch) (ch :: u) =
      blockStep env .headerBlock hpack (ch :: u) := by
  rw [blockStep, blockStep, Hpack.markIndex]
  by_cases hliteral : ch < 128 ∧ 64 ≤ ch
  · rw [if_pos hliteral, Hpack.markIndex, if_pos hliteral]
    rfl
  · rw [if_neg hliteral, Hpack.markIndex, if_neg hliteral]

/-- How the handlers get on in a block; `closed` says that the end of the block is
known. -/
inductive Moves (env : Env T S) (closed : Prop) :
    Handler → Hpack T S → List UInt8 → Handler → Hpack T S → List UInt8 →
      Prop where
  | stay {handler : Handler} {hpack : Hpack T S} {u : List UInt8} :
      Moves env closed handler hpack u handler hpack u
  | step {handler handler' : Handler} {hpack hpack' : Hpack T S}
      {u u' : List UInt8}
      (hint : closed ∨ (handler.StartsInt → intOctets ≤ u.length))
      (h : blockStep env handler hpack u = .more handler' hpack' u') :
      Moves env closed handler hpack u handler' hpack' u'
  | piece {handler : Handler} {hpack hpack' : Hpack T S} {a b : List UInt8}
      (hfield : handler.IsField) (hlt : a.length < hpack.fieldRest)
      (htake : takeField env handler
        (hpack.setRest (hpack.fieldRest - a.length)) a = some hpack') :
      Moves env closed handler hpack (a ++ b) handler hpack' b
  | mark {hpack : Hpack T S} {ch : UInt8} {u : List UInt8} :
      Moves env closed .headerBlock hpack (ch :: u) .headerBlock
        (hpack.markIndex ch) (ch :: u)
  | finish {hpack : Hpack T S} {u : List UInt8} (hclosed : closed) :
      Moves env closed .headerComplete hpack [] .skip hpack u
  | skip {hpack : Hpack T S} {u u' : List UInt8} (hclosed : closed) :
      Moves env closed .skip hpack u .skip hpack u'

theorem Decodes.of_eq {handler' : Handler} {u' : List UInt8} {e : BlockEnd T S}
    (heq : blockStep env handler hpack u = blockStep env handler' hpack' u')
    (h : Decodes env handler' hpack' u' e) : Decodes env handler hpack u e := by
  cases h with
  | stop hstop => exact .stop (heq.trans hstop)
  | step hstep hrest => exact .step (heq.trans hstep) hrest

theorem Moves.decodes {closed : Prop} {handler' : Handler} {u' : List UInt8}
    {e : BlockEnd T S} (hmoves : Moves env closed handler hpack u handler' hpack' u')
    (h : Decodes env handler' hpack' u' e) : Decodes env handler hpack u e := by
  cases hmoves with
  | stay => exact h
  | step hint hstep => exact .step hstep h
  | piece hfield hlt htake => exact .of_eq (blockStep_piece hfield hlt htake) h
  | mark => exact .of_eq (blockStep_markIndex _).symm h
  | finish => exact .of_eq (by rfl) h
  | skip => exact .of_eq (by rfl) h

theorem not_startsInt (hfield : handler.IsField) : ¬handler.StartsInt := by
  obtain rfl | rfl | rfl := hfield
  · nofun
  · nofun
  · nofun

/-- Where the handlers go on, the block is used up at the end or not at all. -/
theorem UsedUp.step_iff {handler' : Handler} {u' : List UInt8}
    (hint : handler.StartsInt → intOctets ≤ u.length)
    (hstep : blockStep env handler hpack u = .more handler' hpack' u') :
    UsedUp env handler hpack u ↔ UsedUp env handler' hpack' u' := by
  constructor
  · intro h
    cases h with
    | complete => cases hstep
    | fieldLen => cases hstep
    | field hfield hlt htake =>
        rw [blockStep_field hfield, fieldStep, if_pos hlt] at hstep
        cases hstep
    | step hint' hstep' hrest =>
        cases hstep.symm.trans hstep'
        exact hrest
  · exact .step hint hstep

theorem UsedUp.piece_iff (hfield : handler.IsField)
    (hlt : a.length < hpack.fieldRest)
    (htake : takeField env handler (hpack.setRest (hpack.fieldRest - a.length)) a =
      some hpack') :
    UsedUp env handler hpack (a ++ b) ↔ UsedUp env handler hpack' b := by
  have hstep := @blockStep_piece T S env handler hpack hpack' a b hfield hlt htake
  have hrest : hpack'.fieldRest = hpack.fieldRest - a.length :=
    (takeField_keeps htake).2.2
  have hlen (hshort : b.length < hpack.fieldRest - a.length) :
      takeField env handler
        (hpack.setRest (hpack.fieldRest - (a ++ b).length)) (a ++ b) =
      takeField env handler
        (hpack'.setRest (hpack'.fieldRest - b.length)) b := by
    have hleft : hpack.fieldRest - (a ++ b).length =
        hpack'.fieldRest - b.length := by
      rw [hrest, List.length_append]
      omega
    rw [takeField_append (Nat.sub_ne_zero_of_lt hlt) (.inr (by omega)), htake, hleft]
    rfl
  constructor
  · intro h
    generalize hwhole : a ++ b = whole at h
    cases h with
    | complete => obtain h | h | h := hfield <;> cases h
    | fieldLen => obtain h | h | h := hfield <;> cases h
    | field hfield hlt' htake' =>
        subst hwhole
        rw [List.length_append] at hlt'
        rw [hlen (by omega)] at htake'
        exact .field hfield (by omega) htake'
    | step hint hstep' hrest =>
        subst hwhole
        exact .step (fun h => absurd h (not_startsInt hfield))
          (hstep.symm.trans hstep') hrest
  · intro h
    cases h with
    | complete => obtain h | h | h := hfield <;> cases h
    | fieldLen => obtain h | h | h := hfield <;> cases h
    | field hfield hlt' htake' =>
        rw [hrest] at hlt'
        rw [← hlen hlt'] at htake'
        refine .field hfield ?_ htake'
        rw [List.length_append]
        omega
    | step hint hstep' hrest =>
        exact .step (fun h => absurd h (not_startsInt hfield))
          (hstep.trans hstep') hrest

theorem UsedUp.mark_iff {ch : UInt8} :
    UsedUp env .headerBlock hpack (ch :: u) ↔
      UsedUp env .headerBlock (hpack.markIndex ch) (ch :: u) := by
  have hstep := @blockStep_markIndex T S env hpack u ch
  constructor
  · intro h
    cases h with
    | field hfield => obtain h | h | h := hfield <;> cases h
    | step hint hstep' hrest => exact .step hint (hstep.trans hstep') hrest
  · intro h
    cases h with
    | field hfield => obtain h | h | h := hfield <;> cases h
    | step hint hstep' hrest => exact .step hint (hstep.symm.trans hstep') hrest

/-- As long as the end of the block is not known, whether it will be used up does
not change. -/
theorem Moves.usedUp_iff {handler' : Handler} {u' : List UInt8}
    (hmoves : Moves env False handler hpack u handler' hpack' u') :
    UsedUp env handler hpack u ↔ UsedUp env handler' hpack' u' := by
  cases hmoves with
  | stay => exact Iff.rfl
  | step hint hstep => exact UsedUp.step_iff (hint.resolve_left id) hstep
  | piece hfield hlt htake => exact UsedUp.piece_iff hfield hlt htake
  | mark => exact UsedUp.mark_iff
  | finish hclosed => exact hclosed.elim
  | skip hclosed => exact hclosed.elim

end Block

end MultiversionBalancer.Http2
