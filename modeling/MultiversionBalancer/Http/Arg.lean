import MultiversionBalancer.Http.Bytes
import MultiversionBalancer.Lib.Parts
import MultiversionBalancer.Lib.Reads

/-!
# Query arguments

`ngx_http_arg` of `ngx_http_parse.c`, with `ngx_strlcasestrn` and
`ngx_strncasecmp` of `ngx_string.c`.

The lookup goes from one occurrence of the name to the next.  A place that it
accepts is where a part `key=value` of the arguments starts whose key is the name,
so the first place gives the first such part.  The comparison is the one of C
strings: a NUL byte that both texts have ends it.
-/

namespace MultiversionBalancer.Http

open Lib

/-! ## The functions of the source -/

def ngxStrncasecmp : List UInt8 → List UInt8 → ℕ → Except ReadFailure ℤ
  | _, _, 0 => .ok 0
  | c1 :: s1, c2 :: s2, n + 1 =>
      if ngxTolower c1 = ngxTolower c2 then
        if ngxTolower c1 = 0 then .ok 0 else ngxStrncasecmp s1 s2 n
      else .ok ((ngxTolower c1).toNat - (ngxTolower c2).toNat)
  | _, _, _ + 1 => .error .outside

/-- The loops of `ngx_strlcasestrn` at `s1`, with `room` bytes before the shortened
`last`. -/
def seekArg (s : List UInt8) (c2 : UInt8) (s2 : List UInt8) (n : ℕ) :
    ℕ → ℕ → Except ReadFailure (Option ℕ)
  | 0, _ => .ok none
  | room + 1, s1 => do
      let c1 ← readAt s s1
      if ngxTolower c1 = c2 then
        let d ← ngxStrncasecmp (s.drop (s1 + 1)) s2 n
        if d = 0 then .ok (some s1) else seekArg s c2 s2 n room (s1 + 1)
      else seekArg s c2 s2 n room (s1 + 1)

/-- `ngx_strlcasestrn`; pointers into the text are places in it. -/
def ngxStrlcasestrn (s : List UInt8) (s1 last : ℕ) (s2 : List UInt8) (n : ℕ) :
    Except ReadFailure (Option ℕ) := do
  let c2 ← readAt s2 0
  seekArg s (ngxTolower c2) s2.tail n (last - n - s1) s1

/-- `(p == r->args.data || *(p - 1) == '&') && *(p + len) == '='`. -/
def isArgAt (args : List UInt8) (len p : ℕ) : Except ReadFailure Bool := do
  let first ← if p = 0 then .ok true else (· == byte '&') <$> readAt args (p - 1)
  if first then (· == byte '=') <$> readAt args (p + len) else .ok false

/-- `value->data` and `value->len` of an argument at `p`; the length is the difference
of the two pointers. -/
def argValue (args : List UInt8) (len p : ℕ) : ℕ × ℤ :=
  let data := p + len + 1
  match ngxStrlchr (args.drop p) (byte '&') with
  | none => (data, args.length - data)
  | some rest => (data, (args.length - rest.length : ℕ) - data)

/-- The loop of `ngx_http_arg`. -/
def scanArg (args name : List UInt8) : ℕ → ℕ → Except ReadFailure (Option (ℕ × ℤ))
  | 0, _ => .error .turns
  | turns + 1, p =>
      if p < args.length then do
        -- we need '=' after name, so drop one char from last
        match ← ngxStrlcasestrn args p (args.length - 1) name (name.length - 1) with
        | none => .ok none
        | some p =>
            if ← isArgAt args name.length p then
              .ok (some (argValue args name.length p))
            else scanArg args name turns (p + 1)
      else .ok none

/-- `ngx_http_arg`: the place and the length of the value, or `NGX_DECLINED`. -/
def ngxHttpArg (args name : List UInt8) : Except ReadFailure (Option (ℕ × ℤ)) :=
  if args.length = 0 then .ok none else scanArg args name (args.length + 1) 0

/-! ## What a lookup is for -/

/-- The part is `key=value`, and the key is the name but for the case of letters. -/
def IsArg (name part value : List UInt8) : Prop :=
  ∃ key, part = key ++ byte '=' :: value ∧ key.map ngxTolower = name.map ngxTolower

/-- The value of the first part with the key, or nothing where no part has it. -/
def FirstValue (args name : List UInt8) : Option (ℕ × ℤ) → Prop
  | none => ∀ part ∈ args.splitOn (byte '&'), ∀ value, ¬ IsArg name part value
  | some (data, len) => ∃ before part after value,
      args.splitOn (byte '&') = before ++ part :: after ∧
        (∀ other ∈ before, ∀ v, ¬ IsArg name other v) ∧ IsArg name part value ∧
          data + value.length = partStart before + part.length ∧ len = value.length ∧
            (args.drop data).take value.length = value

/-! ## Comparison -/

/-- No byte after the name's length is read. -/
theorem ngxStrncasecmp_append {key s2 : List UInt8} (h : key.length = s2.length)
    (r : List UInt8) :
    ngxStrncasecmp (key ++ r) s2 s2.length = ngxStrncasecmp key s2 s2.length := by
  induction key generalizing s2 with
  | nil =>
      obtain rfl := List.eq_nil_of_length_eq_zero h.symm
      simp only [List.length_nil, ngxStrncasecmp]
  | cons c1 key ih =>
      cases s2 with
      | nil => cases h
      | cons c2 s2 =>
          simp only [List.cons_append, List.length_cons, ngxStrncasecmp, ih (Nat.succ.inj h)]

theorem ngxStrncasecmp_ok {key s2 : List UInt8} (h : key.length = s2.length) :
    ∃ d, ngxStrncasecmp key s2 s2.length = .ok d := by
  induction key generalizing s2 with
  | nil =>
      obtain rfl := List.eq_nil_of_length_eq_zero h.symm
      exact ⟨0, by simp only [List.length_nil, ngxStrncasecmp]⟩
  | cons c1 key ih =>
      cases s2 with
      | nil => cases h
      | cons c2 s2 =>
          simp only [List.length_cons, ngxStrncasecmp]
          split_ifs
          · exact ⟨0, rfl⟩
          · exact ih (Nat.succ.inj h)
          · exact ⟨_, rfl⟩

/-- Without a NUL byte before the last one the comparison goes to the end. -/
theorem ngxStrncasecmp_eq_zero {key s2 : List UInt8} (h : key.length = s2.length)
    (hnul : (0 : UInt8) ∉ s2.dropLast) :
    ngxStrncasecmp key s2 s2.length = .ok 0 ↔ key.map ngxTolower = s2.map ngxTolower := by
  induction key generalizing s2 with
  | nil =>
      obtain rfl := List.eq_nil_of_length_eq_zero h.symm
      simp only [List.length_nil, ngxStrncasecmp, List.map_nil]
  | cons c1 key ih =>
      cases s2 with
      | nil => cases h
      | cons c2 s2 =>
          have hlen : key.length = s2.length := Nat.succ.inj h
          rw [List.map_cons, List.map_cons, List.cons.injEq, List.length_cons, ngxStrncasecmp]
          split_ifs with hc hzero
          · -- a common NUL byte is the last one of the name
            rw [hc] at hzero
            have hc2 : c2 = 0 := (ngxTolower_eq_iff c2 (by simp)).mp hzero
            cases s2 with
            | nil =>
                obtain rfl := List.eq_nil_of_length_eq_zero hlen
                exact iff_of_true rfl ⟨hc, rfl⟩
            | cons c s2 =>
                rw [hc2] at hnul
                exact absurd List.mem_cons_self hnul
          · have hnul' : (0 : UInt8) ∉ s2.dropLast := by
              cases s2 with
              | nil => exact List.not_mem_nil
              | cons c s2 => exact fun hmem => hnul (List.mem_cons_of_mem _ hmem)
            rw [ih hlen hnul']
            exact (and_iff_right hc).symm
          · refine iff_of_false (fun hd => hc ?_) fun hboth => hc hboth.1
            have hd' := Except.ok.inj hd
            exact UInt8.toNat_inj.mp (by omega)

/-- What `ngx_strlcasestrn` takes for the name. -/
def TakenFor (name key : List UInt8) : Prop :=
  key.length = name.length ∧ key.head?.map ngxTolower = name.head?.map ngxTolower ∧
    ngxStrncasecmp key.tail name.tail name.tail.length = .ok 0

theorem takenFor_iff {name : List UInt8} (hnul : (0 : UInt8) ∉ name.tail.dropLast)
    (key : List UInt8) :
    TakenFor name key ↔ key.map ngxTolower = name.map ngxTolower := by
  cases name with
  | nil =>
      rw [List.map_nil, List.map_eq_nil_iff]
      refine ⟨fun h => List.eq_nil_of_length_eq_zero h.1, ?_⟩
      rintro rfl
      exact ⟨rfl, rfl, by simp only [List.tail_nil, List.length_nil, ngxStrncasecmp]⟩
  | cons c s2 =>
      cases key with
      | nil => exact iff_of_false (fun h => nomatch h.1) fun h => nomatch h
      | cons c1 key =>
          rw [List.map_cons, List.map_cons, List.cons.injEq]
          constructor
          · rintro ⟨hlen, hhead, htail⟩
            exact ⟨Option.some.inj hhead,
              (ngxStrncasecmp_eq_zero (Nat.succ.inj hlen) hnul).mp htail⟩
          · rintro ⟨hhead, htail⟩
            have hlen : key.length = s2.length := by
              rw [← List.length_map (f := ngxTolower), htail, List.length_map]
            exact ⟨congrArg Nat.succ hlen, congrArg some hhead,
              (ngxStrncasecmp_eq_zero hlen hnul).mpr htail⟩

/-! ## The search -/

/-- The name is at `p`, with a byte after it. -/
def Occurs (args name : List UInt8) (p : ℕ) : Prop :=
  p + name.length < args.length ∧ TakenFor name ((args.drop p).take name.length)

theorem seekArg_first (args : List UInt8) (c : UInt8) (s2 : List UInt8) {room s1 : ℕ}
    (hroom : args.length - 1 - s2.length - s1 = room) :
    ∃ r, seekArg args (ngxTolower c) s2 s2.length room s1 = .ok r ∧
      FirstFrom (Occurs args (c :: s2)) s1 r := by
  induction room generalizing s1 with
  | zero =>
      refine ⟨none, rfl, fun j hj hocc => ?_⟩
      have hlt := hocc.1
      rw [List.length_cons] at hlt
      omega
  | succ room ih =>
      have hs1 : s1 < args.length := by omega
      have hkey : ((args.drop (s1 + 1)).take s2.length).length = s2.length := by
        rw [List.length_take, List.length_drop]
        omega
      have htake : (args.drop s1).take (c :: s2).length =
          args[s1] :: (args.drop (s1 + 1)).take s2.length := by
        rw [List.drop_eq_getElem_cons hs1, List.length_cons, List.take_succ_cons]
      obtain ⟨d, hd⟩ := ngxStrncasecmp_ok hkey
      have hcmp : ngxStrncasecmp (args.drop (s1 + 1)) s2 s2.length = .ok d := by
        rw [← hd, ← ngxStrncasecmp_append hkey ((args.drop (s1 + 1)).drop s2.length),
          List.take_append_drop]
      have hocc : Occurs args (c :: s2) s1 ↔ ngxTolower args[s1] = ngxTolower c ∧ d = 0 := by
        rw [Occurs, TakenFor, htake, List.length_cons, List.length_cons, hkey, List.head?_cons,
          List.head?_cons, Option.map_some, Option.map_some, Option.some.injEq, List.tail_cons,
          List.tail_cons, hd, Except.ok.injEq]
        refine ⟨fun h => ⟨h.2.2.1, h.2.2.2⟩, fun h => ⟨?_, rfl, h⟩⟩
        omega
      have hrest : args.length - 1 - s2.length - (s1 + 1) = room := by omega
      obtain ⟨r, hr, hfirst⟩ := ih hrest
      rw [seekArg, readAt_of_lt hs1]
      by_cases hhead : ngxTolower args[s1] = ngxTolower c
      · by_cases hzero : d = 0
        · refine ⟨some s1, ?_, .here (hocc.mpr ⟨hhead, hzero⟩)⟩
          simp only [bind, Except.bind, if_pos hhead, hcmp, if_pos hzero]
        · refine ⟨r, ?_, hfirst.skip fun h => hzero (hocc.mp h).2⟩
          simp only [bind, Except.bind, if_pos hhead, hcmp, if_neg hzero, hr]
      · refine ⟨r, ?_, hfirst.skip fun h => hhead (hocc.mp h).1⟩
        simp only [bind, Except.bind, if_neg hhead, hr]

theorem ngxStrlcasestrn_first {name : List UInt8} (hname : name ≠ []) (args : List UInt8)
    (p : ℕ) :
    ∃ r, ngxStrlcasestrn args p (args.length - 1) name (name.length - 1) = .ok r ∧
      FirstFrom (Occurs args name) p r := by
  obtain ⟨c, s2, rfl⟩ := List.exists_cons_of_ne_nil hname
  exact seekArg_first args c s2 rfl

/-! ## The lookup -/

/-- The lookup accepts the place `p`. -/
def Hit (args name : List UInt8) (p : ℕ) : Prop :=
  Occurs args name p ∧ (p = 0 ∨ args[p - 1]? = some (byte '&')) ∧
    args[p + name.length]? = some (byte '=')

theorem isArgAt_ok {args : List UInt8} {len p : ℕ} (h : p + len < args.length) :
    ∃ b, isArgAt args len p = .ok b ∧ (b = true ↔
      (p = 0 ∨ args[p - 1]? = some (byte '&')) ∧ args[p + len]? = some (byte '=')) := by
  have hp : p - 1 < args.length := by omega
  rw [isArgAt, readAt_of_lt h, readAt_of_lt hp, List.getElem?_eq_getElem h,
    List.getElem?_eq_getElem hp]
  by_cases hzero : p = 0
  · exact ⟨args[p + len] == byte '=', by rw [if_pos hzero]; rfl, by simp [hzero]⟩
  · rw [if_neg hzero]
    by_cases hand : args[p - 1] = byte '&'
    · refine ⟨args[p + len] == byte '=', ?_, by simp [hand]⟩
      simp only [Functor.map, Except.map, bind, Except.bind, beq_iff_eq.mpr hand, if_true]
    · refine ⟨false, ?_, by simp [hand, hzero]⟩
      simp only [Functor.map, Except.map, bind, Except.bind, beq_false_of_ne hand,
        Bool.false_eq_true, if_false]

theorem scanArg_first {name : List UInt8} (hname : name ≠ []) {args : List UInt8}
    {turns p : ℕ} (hp : p ≤ args.length) (hturns : args.length < p + turns) :
    ∃ r : Option ℕ,
      scanArg args name turns p = .ok (r.map (argValue args name.length)) ∧
        FirstFrom (Hit args name) p r := by
  induction turns generalizing p with
  | zero => omega
  | succ turns ih =>
      rw [scanArg]
      by_cases hlt : p < args.length
      · rw [if_pos hlt]
        obtain ⟨r, hr, hfirst⟩ := ngxStrlcasestrn_first hname args p
        rw [hr]
        cases r with
        | none => exact ⟨none, rfl, fun j hj hhit => hfirst j hj hhit.1⟩
        | some k =>
            obtain ⟨hpk, hocc, hbefore⟩ := hfirst
            have hnot : ∀ j, p ≤ j → j < k → ¬ Hit args name j :=
              fun j hj hjk hhit => hbefore j hj hjk hhit.1
            obtain ⟨b, hb, hbtrue⟩ := isArgAt_ok hocc.1
            have hk : k < args.length := Nat.lt_of_le_of_lt (Nat.le_add_right k _) hocc.1
            simp only [bind, Except.bind, hb]
            cases b with
            | true =>
                refine ⟨some k, rfl, hpk, ⟨hocc, hbtrue.mp rfl⟩, hnot⟩
            | false =>
                obtain ⟨r, hr, hrest⟩ := ih (p := k + 1) hk (by omega)
                refine ⟨r, by simpa using hr, .skip_to hpk hnot (hrest.skip fun hhit => ?_)⟩
                exact absurd (hbtrue.mpr hhit.2) Bool.false_ne_true
      · rw [if_neg hlt]
        refine ⟨none, rfl, fun j hj hhit => hlt ?_⟩
        have hj' := hhit.1.1
        omega

/-! ## The parts of the arguments -/

/-- A key has no separator when the name has none. -/
theorem notMem_of_map_eq {name key : List UInt8} (h : key.map ngxTolower = name.map ngxTolower)
    (hname : byte '&' ∉ name) : byte '&' ∉ key := by
  rwa [← mem_map_ngxTolower (by simp), h, mem_map_ngxTolower (by simp)]

/-- The lookup accepts the places of the parts with the key. -/
theorem hit_iff {name : List UInt8} (hnul : (0 : UInt8) ∉ name.tail.dropLast)
    (hand : byte '&' ∉ name) (args : List UInt8) (p : ℕ) :
    Hit args name p ↔ ∃ key value, PartAt (byte '&') args p (key ++ byte '=' :: value) ∧
      key.map ngxTolower = name.map ngxTolower := by
  constructor
  · rintro ⟨⟨hlt, htaken⟩, hstart, heq⟩
    rw [takenFor_iff hnul] at htaken
    have hkey : byte '&' ∉ (args.drop p).take name.length :=
      notMem_of_map_eq htaken hand
    have hdrop : args.drop p =
        (args.drop p).take name.length ++ args.drop (p + name.length) := by
      rw [← List.drop_drop, List.take_append_drop]
    have hmark : args[p + name.length] = byte '=' := by
      rwa [List.getElem?_eq_getElem hlt, Option.some.injEq] at heq
    rw [List.drop_eq_getElem_cons hlt, hmark] at hdrop
    obtain ⟨value, r, hvr, hvalue, hr⟩ :=
      exists_notMem_append (byte '&') (args.drop (p + name.length + 1))
    rw [hvr] at hdrop
    refine ⟨_, value, ⟨args.take p, r, ?_, ?_, ?_, ?_, hr⟩, htaken⟩
    · rw [List.append_assoc, List.cons_append, ← hdrop, List.take_append_drop]
    · rw [List.length_take]
      omega
    · rw [List.mem_append, List.mem_cons, not_or, not_or]
      exact ⟨hkey, by decide, hvalue⟩
    · rcases Nat.eq_zero_or_pos p with rfl | hpos
      · exact .inl List.take_zero
      · have hbefore := hstart.resolve_left (Nat.pos_iff_ne_zero.mp hpos)
        refine .inr ⟨args.take (p - 1), ?_⟩
        rw [← Nat.sub_add_cancel hpos, List.take_add_one, Nat.add_sub_cancel, hbefore]
        rfl
  · rintro ⟨key, value, ⟨a, r, rfl, rfl, -, hstart, -⟩, hmap⟩
    have hlen : key.length = name.length := by
      rw [← List.length_map (f := ngxTolower), hmap, List.length_map]
    refine ⟨⟨?_, ?_⟩, ?_, ?_⟩
    · rw [List.length_append, List.length_append, List.length_append, List.length_cons]
      omega
    · rw [takenFor_iff hnul, List.drop_left, List.append_assoc, ← hlen, List.take_left, hmap]
    · rcases hstart with rfl | ⟨b, rfl⟩
      · exact .inl rfl
      · right
        simp
    · rw [← hlen, List.append_assoc, ← List.append_assoc, ← List.length_append]
      simp

theorem argValue_of_partAt {args key value : List UInt8} {p : ℕ}
    (h : PartAt (byte '&') args p (key ++ byte '=' :: value)) :
    argValue args key.length p = (p + key.length + 1, (value.length : ℤ)) ∧
      (args.drop (p + key.length + 1)).take value.length = value := by
  obtain ⟨a, r, rfl, rfl, hpart, -, hend⟩ := h
  constructor
  · rw [argValue, List.drop_left]
    rcases hend with rfl | ⟨t, rfl⟩
    · rw [List.append_nil, ngxStrlchr_of_not_mem hpart]
      simp only [List.length_append, List.length_cons, Prod.mk.injEq, true_and]
      omega
    · rw [ngxStrlchr_append hpart]
      simp only [List.length_append, List.length_cons, Prod.mk.injEq, true_and]
      omega
  · have hsplit : a ++ (key ++ byte '=' :: value ++ r) =
        (a ++ key ++ [byte '=']) ++ (value ++ r) := by
      simp only [List.append_assoc, List.cons_append, List.nil_append]
    have hplace : a.length + key.length + 1 = (a ++ key ++ [byte '=']).length := by
      simp only [List.length_append, List.length_singleton]
    rw [hsplit, hplace, List.drop_left, List.take_left]

/-- The first place that the lookup accepts is the start of the first part with the
key. -/
theorem firstValue_of_first {name : List UInt8} (hnul : (0 : UInt8) ∉ name.tail.dropLast)
    (hand : byte '&' ∉ name) {args : List UInt8} {r : Option ℕ}
    (h : FirstFrom (Hit args name) 0 r) :
    FirstValue args name (r.map (argValue args name.length)) := by
  have hhit {before after : List (List UInt8)} {part value : List UInt8}
      (hsplit : args.splitOn (byte '&') = before ++ part :: after)
      (hpart : IsArg name part value) : Hit args name (partStart before) := by
    obtain ⟨key, rfl, hmap⟩ := hpart
    exact (hit_iff hnul hand args _).mpr ⟨key, value, partAt_of_splitOn hsplit, hmap⟩
  cases r with
  | none =>
      intro part hpart value harg
      obtain ⟨before, after, hsplit⟩ := List.append_of_mem hpart
      exact h _ (Nat.zero_le _) (hhit hsplit harg)
  | some p =>
      obtain ⟨-, hp, hbefore⟩ := h
      obtain ⟨key, value, hpart, hmap⟩ := (hit_iff hnul hand args p).mp hp
      obtain ⟨before, after, hsplit, rfl⟩ := hpart.splitOn
      have hlen : key.length = name.length := by
        rw [← List.length_map (f := ngxTolower), hmap, List.length_map]
      obtain ⟨hvalue, htake⟩ := argValue_of_partAt hpart
      rw [Option.map_some, ← hlen, hvalue]
      refine ⟨before, _, after, value, hsplit, ?_, ⟨key, rfl, hmap⟩, ?_, rfl, htake⟩
      · intro other hother v harg
        obtain ⟨first, last, rfl⟩ := List.append_of_mem hother
        rw [List.append_assoc, List.cons_append] at hsplit
        refine hbefore _ (Nat.zero_le _) ?_ (hhit hsplit harg)
        rw [partStart_append, partStart_cons]
        omega
      · rw [List.length_append, List.length_cons]
        omega

/-- The lookup reads no byte outside the arguments and the name, and where no NUL byte
stands between the ends of the name it gives the value of the first part with the key. -/
theorem ngxHttpArg_first {name : List UInt8} (hname : name ≠ []) (hand : byte '&' ∉ name)
    (args : List UInt8) :
    (∃ result, ngxHttpArg args name = .ok result) ∧
      ((0 : UInt8) ∉ name.tail.dropLast →
        ∃ result, ngxHttpArg args name = .ok result ∧ FirstValue args name result) := by
  by_cases hempty : args.length = 0
  · have hnone : ngxHttpArg args name = .ok none := if_pos hempty
    refine ⟨⟨none, hnone⟩, fun _ => ⟨none, hnone, ?_⟩⟩
    obtain rfl := List.eq_nil_of_length_eq_zero hempty
    rintro part hpart value ⟨key, rfl, -⟩
    rw [List.splitOn_nil, List.mem_singleton] at hpart
    exact List.append_ne_nil_of_right_ne_nil key (List.cons_ne_nil _ _) hpart
  · have hturns : args.length < 0 + (args.length + 1) := by omega
    obtain ⟨r, hr, hfirst⟩ := scanArg_first hname (Nat.zero_le args.length) hturns
    have hrun : ngxHttpArg args name = .ok (r.map (argValue args name.length)) := by
      rw [ngxHttpArg, if_neg hempty, hr]
    exact ⟨⟨_, hrun⟩, fun hnul => ⟨_, hrun, firstValue_of_first hnul hand hfirst⟩⟩

/-- `A=1&b=2` has `b`. -/
theorem ngxHttpArg_first_b :
    ∃ result, ngxHttpArg (bytes "A=1&b=2") (bytes "b") = .ok result ∧
      FirstValue (bytes "A=1&b=2") (bytes "b") result :=
  (ngxHttpArg_first (by decide) (by decide) (bytes "A=1&b=2")).2 (by decide)

/-- A NUL byte of the name ends the comparison: the name `a\0bc` is found at the start of
`a\0&x=1`, where the `=` of another part follows at the right distance. -/
theorem ngxHttpArg_nul :
    ¬ ∀ args name : List UInt8, name ≠ [] → byte '&' ∉ name → byte '=' ∉ name →
      ∃ result, ngxHttpArg args name = .ok result ∧ FirstValue args name result := by
  intro hall
  obtain ⟨result, hrun, hvalue⟩ := hall [97, 0, 38, 120, 61, 49] [97, 0, 98, 99]
    (by decide) (by decide) (by decide)
  have hfound : ngxHttpArg [97, 0, 38, 120, 61, 49] [97, 0, 98, 99] = .ok (some (5, -3)) := by
    decide
  obtain rfl := Except.ok.inj (hfound.symm.trans hrun)
  obtain ⟨before, part, after, value, -, -, -, -, hlen, -⟩ := hvalue
  omega

end MultiversionBalancer.Http
