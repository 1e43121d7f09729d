import MultiversionBalancer.Lib.Words
import MultiversionBalancer.Core.QueueSort
import Mathlib.Algebra.Ring.Nat

/-!
# The locations of a server

The locations of `ngx_http.c`, from the queue in which the configuration puts them to the nested
lists of which `ngx_http_create_locations_tree` makes a tree: sorted, those of regular expressions
and those with no place in the tree taken out, an exact location joined with the inclusive one of
its name, and the locations that an inclusive one takes in put on its list.
-/

namespace MultiversionBalancer.Http

open MultiversionBalancer.Core (ngxQueueSort ngxQueueSort_eq ngxQueueSort_perm
  ngxQueueSort_sorted mem_ngxQueueSort sublist_ngxQueueSort)
open Lib

/-- How a location is matched: `exact_match`, `regex`, `named` and `noname`, of which at most one
is set, and `noregex`, which goes with none of them. -/
inductive LocationKind where
  | exact
  | inclusive (noregex : Bool)
  | regex
  | named
  | noname
  deriving DecidableEq

/-- What `ngx_http_core_loc_conf_t` says about the choice of a location; `locations` is what a
location has of locations inside of it. -/
structure CoreLocConf (N : Type) where
  name : List UInt8
  kind : LocationKind
  autoRedirect : Bool
  locations : N

/-- A name without a NUL, which a word of the configuration can have.  A word is shorter than the
buffer that it is read from, and what sets `auto_redirect` has seen that the name ends with a
slash. -/
structure CoreLocConf.WellFormed {N : Type} (c : CoreLocConf N) : Prop where
  text : 0 ∉ c.name
  short : c.name.length < 2 ^ 16
  slash : c.autoRedirect = true → ∃ p, c.name = p ++ [0x2f]

/-- `ngx_http_location_queue_t`, without the list. -/
structure LocationQueue (N : Type) where
  exact : Option (CoreLocConf N)
  inclusive : Option (CoreLocConf N)
  name : List UInt8

inductive LocationLists (N : Type) where
  | empty
  | entry (lq : LocationQueue N) (list next : LocationLists N)

/-! ## Names -/

/-- What `ngx_filename_cmp` makes of two bytes that differ. -/
def byteCmp (c1 c2 : UInt8) : ℤ :=
  if c1 = 0 ∨ c2 = 0 then (c1.toNat : ℤ) - c2.toNat
  else
    -- the slash has to be the lowest character
    let c1 := if c1 = 0x2f then 0 else c1
    let c2 := if c2 = 0x2f then 0 else c2
    (c1.toNat : ℤ) - c2.toNat

/-- `ngx_filename_cmp`; a text ends with a NUL. -/
def ngxFilenameCmp (s1 s2 : List UInt8) : ℕ → ℤ
  | 0 => 0
  | n + 1 =>
    let c1 := s1.headD 0
    let c2 := s2.headD 0
    if c1 = c2 then
      if c1 ≠ 0 then ngxFilenameCmp s1.tail s2.tail n else 0
    else byteCmp c1 c2

/-- Where a byte comes in `ngx_filename_cmp`: a NUL first, and then the slash. -/
def fileNameRank (c : UInt8) : ℕ :=
  if c = 0 then 0 else if c = 0x2f then 1 else c.toNat + 1

/-- The order of bytes in `ngx_filename_cmp`. -/
def SlashFirst (c d : UInt8) : Prop :=
  fileNameRank c < fileNameRank d

instance : Std.Irrefl SlashFirst := ⟨fun _ => lt_irrefl _⟩

instance : IsTrans UInt8 SlashFirst := ⟨fun _ _ _ => lt_trans⟩

theorem fileNameRank_injective : Function.Injective fileNameRank := by
  intro c d h
  simp only [fileNameRank, ← UInt8.toNat_inj, UInt8.reduceToNat] at h ⊢
  split_ifs at h <;> omega

instance : Std.Trichotomous SlashFirst := ⟨fun _ _ hcd hdc =>
  fileNameRank_injective (Nat.le_antisymm (Nat.not_lt.mp hdc) (Nat.not_lt.mp hcd))⟩

theorem byteCmp_ne {c d : UInt8} (h : c ≠ d) : byteCmp c d ≠ 0 := by
  simp only [byteCmp, ne_eq, ← UInt8.toNat_inj, UInt8.reduceToNat, apply_ite UInt8.toNat] at h ⊢
  split_ifs <;> omega

theorem byteCmp_neg {c d : UInt8} : byteCmp c d < 0 ↔ SlashFirst c d := by
  simp only [byteCmp, SlashFirst, fileNameRank, ← UInt8.toNat_inj, UInt8.reduceToNat,
    apply_ite UInt8.toNat]
  split_ifs <;> omega

theorem byteCmp_pos {c d : UInt8} : 0 < byteCmp c d ↔ SlashFirst d c := by
  simp only [byteCmp, SlashFirst, fileNameRank, ← UInt8.toNat_inj, UInt8.reduceToNat,
    apply_ite UInt8.toNat]
  split_ifs <;> omega

theorem slash_first {c : UInt8} (h0 : c ≠ 0) (h : c ≠ 0x2f) : SlashFirst 0x2f c := by
  have hpos : 0 < c.toNat := Nat.pos_of_ne_zero fun h' => h0 (UInt8.toNat_inj.mp h')
  rw [SlashFirst, fileNameRank, fileNameRank, if_neg (by decide), if_pos rfl, if_neg h0, if_neg h]
  omega

theorem ngxFilenameCmp_self {c : UInt8} (hc : c ≠ 0) (s t : List UInt8) (n : ℕ) :
    ngxFilenameCmp (c :: s) (c :: t) (n + 1) = ngxFilenameCmp s t n :=
  (if_pos rfl).trans (if_pos hc)

theorem ngxFilenameCmp_of_ne {c d : UInt8} (hcd : c ≠ d) (s t : List UInt8) (n : ℕ) :
    ngxFilenameCmp (c :: s) (d :: t) (n + 1) = byteCmp c d :=
  if_neg hcd

/-- Compared as far as the shorter one goes, a text that may hold anything and one without a NUL
are told apart where they first differ. -/
theorem ngxFilenameCmp_min {s t : List UInt8} (ht : 0 ∉ t) :
    (ngxFilenameCmp s t (min s.length t.length) = 0 ↔ s <+: t ∨ t <+: s) ∧
      (ngxFilenameCmp s t (min s.length t.length) < 0 ↔ WordLt SlashFirst s t) ∧
      (0 < ngxFilenameCmp s t (min s.length t.length) ↔ WordLt SlashFirst t s) := by
  induction s generalizing t with
  | nil => simp [ngxFilenameCmp, not_nil_wordLt, not_wordLt_nil]
  | cons c s ih =>
      cases t with
      | nil => simp [ngxFilenameCmp, not_nil_wordLt, not_wordLt_nil]
      | cons d t =>
          obtain ⟨hd, ht'⟩ := not_or.mp (mt List.mem_cons.mpr ht)
          rw [List.length_cons, List.length_cons, Nat.succ_min_succ]
          by_cases hcd : c = d
          · subst hcd
            rw [ngxFilenameCmp_self (Ne.symm hd)]
            simp only [List.cons_prefix_cons, true_and, wordLt_cons_iff]
            exact ih ht'
          · rw [ngxFilenameCmp_of_ne hcd, wordLt_cons_of_ne hcd, wordLt_cons_of_ne (Ne.symm hcd)]
            simp only [List.cons_prefix_cons, hcd, Ne.symm hcd, false_and, or_false]
            exact ⟨iff_of_false (byteCmp_ne hcd) id, byteCmp_neg, byteCmp_pos⟩

/-- Compared with the NUL after the shorter one, two texts without a NUL are in order when the
first one is no later in the dictionary. -/
theorem ngxFilenameCmp_end {s t : List UInt8} (hs : 0 ∉ s) (ht : 0 ∉ t) :
    (ngxFilenameCmp s t (min s.length t.length + 1) = 0 ↔ s = t) ∧
      (ngxFilenameCmp s t (min s.length t.length + 1) ≤ 0 ↔ UpTo SlashFirst s t) := by
  induction s generalizing t with
  | nil =>
      cases t with
      | nil => simp [ngxFilenameCmp, UpTo]
      | cons d t =>
          have hd : (0 : UInt8) ≠ d := (List.ne_of_not_mem_cons ht)
          have hcmp : ngxFilenameCmp [] (d :: t) 1 = byteCmp 0 d := if_neg hd
          have hneg : byteCmp 0 d < 0 := byteCmp_neg.mpr (by
            rw [SlashFirst, fileNameRank, if_pos rfl, fileNameRank, if_neg (Ne.symm hd)]
            split_ifs <;> omega)
          rw [List.length_nil, Nat.zero_min, hcmp]
          exact ⟨iff_of_false hneg.ne (by simp), iff_of_true hneg.le (.inl List.nil_prefix)⟩
  | cons c s ih =>
      obtain ⟨hc, hs⟩ := not_or.mp (mt List.mem_cons.mpr hs)
      cases t with
      | nil =>
          have hcmp : ngxFilenameCmp (c :: s) [] 1 = byteCmp c 0 := if_neg (Ne.symm hc)
          have hpos : 0 < byteCmp c 0 := byteCmp_pos.mpr (by
            rw [SlashFirst, fileNameRank, if_pos rfl, fileNameRank, if_neg (Ne.symm hc)]
            split_ifs <;> omega)
          rw [List.length_nil, Nat.min_zero, hcmp]
          refine ⟨iff_of_false hpos.ne' (by simp), iff_of_false hpos.not_ge ?_⟩
          exact not_or.mpr ⟨by simp, not_wordLt_nil _⟩
      | cons d t =>
          obtain ⟨hd, ht'⟩ := not_or.mp (mt List.mem_cons.mpr ht)
          rw [List.length_cons, List.length_cons, Nat.succ_min_succ]
          by_cases hcd : c = d
          · subst hcd
            rw [ngxFilenameCmp_self (Ne.symm hd), List.cons.injEq, UpTo, List.cons_prefix_cons,
              wordLt_cons_iff]
            simp only [true_and]
            exact ih hs ht'
          · rw [ngxFilenameCmp_of_ne hcd, UpTo, wordLt_cons_of_ne hcd]
            simp only [List.cons_prefix_cons, List.cons.injEq, hcd, false_and, false_or]
            exact ⟨iff_of_false (byteCmp_ne hcd) id,
              (byteCmp_ne hcd).le_iff_lt.trans byteCmp_neg⟩

def ngxStrcmp : List UInt8 → List UInt8 → ℤ
  | [], [] => 0
  | [], d :: _ => -d.toNat
  | c :: _, [] => c.toNat
  | c :: s, d :: t => if c = d then ngxStrcmp s t else (c.toNat : ℤ) - d.toNat

theorem ngxStrcmp_le {s t : List UInt8} (hs : 0 ∉ s) :
    ngxStrcmp s t ≤ 0 ↔ UpTo (· < ·) s t := by
  induction s generalizing t with
  | nil =>
      refine iff_of_true ?_ (.inl List.nil_prefix)
      cases t <;> simp [ngxStrcmp]
  | cons c s ih =>
      obtain ⟨hc, hs'⟩ := not_or.mp (mt List.mem_cons.mpr hs)
      cases t with
      | nil =>
          have hpos : c.toNat ≠ 0 := fun h => hc (UInt8.toNat_inj.mp h).symm
          simp [ngxStrcmp, UpTo, not_wordLt_nil, hpos]
      | cons d t =>
          rw [ngxStrcmp, UpTo, List.cons_prefix_cons]
          by_cases hcd : c = d
          · subst hcd
            rw [if_pos rfl, wordLt_cons_iff, ih hs', UpTo]
            simp only [true_and]
          · rw [if_neg hcd, wordLt_cons_of_ne hcd, UInt8.lt_iff_toNat_lt]
            have hne : c.toNat ≠ d.toNat := fun h => hcd (UInt8.toNat_inj.mp h)
            simp only [hcd, false_and, false_or]
            omega

variable {N : Type}

namespace CoreLocConf

def exactMatch (clcf : CoreLocConf N) : Bool := clcf.kind = .exact

def regex (clcf : CoreLocConf N) : Bool := clcf.kind = .regex

def named (clcf : CoreLocConf N) : Bool := clcf.kind = .named

def noname (clcf : CoreLocConf N) : Bool := clcf.kind = .noname

end CoreLocConf

/-! ## The queue -/

namespace LocationQueue

/-- The entry that `ngx_http_add_location` makes for a location. -/
def ofConf (clcf : CoreLocConf N) : LocationQueue N :=
  if clcf.exactMatch || clcf.regex || clcf.named || clcf.noname then
    ⟨some clcf, none, clcf.name⟩
  else ⟨none, some clcf, clcf.name⟩

/-- `lq->exact ? lq->exact : lq->inclusive`. -/
def clcf (lq : LocationQueue N) : Option (CoreLocConf N) :=
  lq.exact.or lq.inclusive

end LocationQueue

def ngxHttpAddLocation (locations : List (LocationQueue N)) (clcf : CoreLocConf N) :
    List (LocationQueue N) :=
  locations ++ [.ofConf clcf]

/-- How `ngx_http_cmp_locations` compares two locations. -/
def cmpConfs (first second : CoreLocConf N) : ℤ :=
  -- the locations with no name come last
  if first.noname && !second.noname then 1
  else if !first.noname && second.noname then -1
  else if first.noname || second.noname then 0
  -- the named locations before them
  else if first.named && !second.named then 1
  else if !first.named && second.named then -1
  else if first.named && second.named then ngxStrcmp first.name second.name
  -- and the regular expressions before these
  else if first.regex && !second.regex then 1
  else if !first.regex && second.regex then -1
  else if first.regex || second.regex then 0
  else
    let rc := ngxFilenameCmp first.name second.name
      (min first.name.length second.name.length + 1)
    -- an exact match comes before the same inclusive one
    if rc = 0 && !first.exactMatch && second.exactMatch then 1 else rc

def ngxHttpCmpLocations (one two : LocationQueue N) : ℤ :=
  match one.clcf, two.clcf with
  | some first, some second => cmpConfs first second
  | _, _ => 0

/-- What `ngx_http_init_locations` makes of the queue: what stays on it, `regex_locations` and
`named_locations`. -/
structure InitLocations (N : Type) where
  locations : List (LocationQueue N)
  regexLocations : List (LocationQueue N)
  namedLocations : List (LocationQueue N)

/-- Whether the location of an entry has a property. -/
def LocationQueue.has (p : CoreLocConf N → Bool) (lq : LocationQueue N) : Bool :=
  lq.clcf.any p

def ngxHttpInitLocations (locations : List (LocationQueue N)) : InitLocations N :=
  let locations := ngxQueueSort ngxHttpCmpLocations locations
  let locations := locations.takeWhile fun lq => !lq.has CoreLocConf.noname
  let named := locations.dropWhile fun lq => !lq.has CoreLocConf.named
  let locations := locations.takeWhile fun lq => !lq.has CoreLocConf.named
  let regex := locations.dropWhile fun lq => !lq.has CoreLocConf.regex
  let locations := locations.takeWhile fun lq => !lq.has CoreLocConf.regex
  ⟨locations, regex, named⟩

/-- `ngx_http_join_exact_locations` from an entry on, or the name of a location that is there
twice. -/
def ngxHttpJoinExactLocations (lq : LocationQueue N) :
    List (LocationQueue N) → Except (List UInt8) (List (LocationQueue N))
  | [] => .ok [lq]
  | lx :: rest =>
    if lq.name.length = lx.name.length ∧ ngxFilenameCmp lq.name lx.name lx.name.length = 0 then
      if lq.exact.isSome && lx.exact.isSome || lq.inclusive.isSome && lx.inclusive.isSome then
        .error lx.name
      else ngxHttpJoinExactLocations { lq with inclusive := lx.inclusive } rest
    else (ngxHttpJoinExactLocations lx rest).map (lq :: ·)

/-- Whether an inclusive location takes in another one. -/
def LocationQueue.takesIn (lq lx : LocationQueue N) : Bool :=
  ¬ (lx.name.length < lq.name.length ∨ ngxFilenameCmp lq.name lx.name lq.name.length ≠ 0)

/-- `ngx_http_create_locations_list` from an entry on. -/
def ngxHttpCreateLocationsList : List (LocationQueue N) → LocationLists N
  | [] => .empty
  | lq :: rest =>
    if lq.inclusive.isNone then .entry lq .empty (ngxHttpCreateLocationsList rest)
    else
      .entry lq (ngxHttpCreateLocationsList (rest.takeWhile lq.takesIn))
        (ngxHttpCreateLocationsList (rest.dropWhile lq.takesIn))
  termination_by locations => locations.length
  decreasing_by
    · exact Nat.lt_succ_self _
    · exact Nat.lt_succ_of_le (List.takeWhile_sublist _).length_le
    · exact Nat.lt_succ_of_le (List.dropWhile_suffix _).length_le

/-! ## What the sorted queue looks like -/

section Sorted

theorem ofConf_clcf (c : CoreLocConf N) : (LocationQueue.ofConf c).clcf = some c := by
  rw [LocationQueue.ofConf]
  split_ifs <;> rfl

theorem ofConf_name (c : CoreLocConf N) : (LocationQueue.ofConf c).name = c.name := by
  rw [LocationQueue.ofConf]
  split_ifs <;> rfl

theorem cmpLocations_ofConf (a b : CoreLocConf N) :
    ngxHttpCmpLocations (.ofConf a) (.ofConf b) = cmpConfs a b := by
  rw [ngxHttpCmpLocations, ofConf_clcf, ofConf_clcf]

/-- The parts that the sorted queue falls into. -/
def CoreLocConf.part (c : CoreLocConf N) : ℕ :=
  match c.kind with
  | .exact | .inclusive _ => 0
  | .regex => 1
  | .named => 2
  | .noname => 3

/-- How two locations of the tree are compared. -/
def cmpNames (first second : CoreLocConf N) : ℤ :=
  let rc := ngxFilenameCmp first.name second.name
    (min first.name.length second.name.length + 1)
  if rc = 0 && !first.exactMatch && second.exactMatch then 1 else rc

theorem cmpConfs_eq (a b : CoreLocConf N) :
    cmpConfs a b =
      if b.part < a.part then 1
      else if a.part < b.part then -1
      else if a.part = 0 then cmpNames a b
      else if a.part = 2 then ngxStrcmp a.name b.name
      else 0 := by
  cases ha : a.kind <;> cases hb : b.kind <;>
    simp [cmpConfs, cmpNames, CoreLocConf.part, CoreLocConf.noname, CoreLocConf.named,
      CoreLocConf.regex, CoreLocConf.exactMatch, ha, hb]

/-- When a location of the tree does not have to come after another one. -/
def InTurn (a b : CoreLocConf N) : Prop :=
  UpTo SlashFirst a.name b.name ∧ (a.name = b.name → a.exactMatch = true ∨ b.exactMatch = false)

theorem cmpNames_le {a b : CoreLocConf N} (ha : a.WellFormed) (hb : b.WellFormed) :
    cmpNames a b ≤ 0 ↔ InTurn a b := by
  obtain ⟨heq, hle⟩ := ngxFilenameCmp_end ha.text hb.text
  rw [cmpNames, InTurn]
  by_cases hname : a.name = b.name
  · rw [heq.mpr hname, hname]
    cases a.exactMatch <;> cases b.exactMatch <;> simp [UpTo.refl]
  · simp [heq, hname, hle]

def InPart (a b : CoreLocConf N) : Prop :=
  (a.part = 0 → InTurn a b) ∧ (a.part = 2 → UpTo (· < ·) a.name b.name)

theorem cmpConfs_le_iff {a b : CoreLocConf N} (ha : a.WellFormed) (hb : b.WellFormed) :
    cmpConfs a b ≤ 0 ↔ a.part < b.part ∨ a.part = b.part ∧ InPart a b := by
  have hnames := cmpNames_le ha hb
  have hstr : ngxStrcmp a.name b.name ≤ 0 ↔ UpTo (· < ·) a.name b.name :=
    ngxStrcmp_le ha.text
  rw [cmpConfs_eq, InPart]
  rcases lt_trichotomy a.part b.part with h | h | h
  · simp [h, h.not_gt]
  · by_cases h0 : b.part = 0
    · simp [h, ← hnames, h0]
    · by_cases h2 : b.part = 2
      · simp [h, ← hstr, h2]
      · simp [h, h0, h2]
  · simp [h, h.le, h.ne']

theorem InTurn.trans {a b c : CoreLocConf N} (hab : InTurn a b) (hbc : InTurn b c) :
    InTurn a c := by
  refine ⟨hab.1.trans hbc.1, fun hac => ?_⟩
  have hba : UpTo SlashFirst b.name a.name := by
    rw [hac]
    exact hbc.1
  have hname : a.name = b.name := hab.1.antisymm hba
  rcases hab.2 hname with ha | hb
  · exact .inl ha
  · rcases hbc.2 (hname.symm.trans hac) with hb' | hc
    · rw [hb] at hb'
      cases hb'
    · exact .inr hc

theorem cmpConfs_trans {a b c : CoreLocConf N} (ha : a.WellFormed) (hb : b.WellFormed)
    (hc : c.WellFormed) (hab : cmpConfs a b ≤ 0) (hbc : cmpConfs b c ≤ 0) :
    cmpConfs a c ≤ 0 := by
  rw [cmpConfs_le_iff ha hb] at hab
  rw [cmpConfs_le_iff hb hc] at hbc
  rw [cmpConfs_le_iff ha hc]
  rcases hab with hab | ⟨hab, hturn, hstr⟩
  · rcases hbc with hbc | ⟨hbc, -⟩
    · exact .inl (hab.trans hbc)
    · exact .inl (hab.trans_eq hbc)
  · rcases hbc with hbc | ⟨hbc, hturn', hstr'⟩
    · exact .inl (hab.trans_lt hbc)
    · refine .inr ⟨hab.trans hbc, ?_, ?_⟩
      · intro h
        exact (hturn h).trans (hturn' (hab.symm.trans h))
      · intro h
        exact (hstr h).trans (hstr' (hab.symm.trans h))

theorem inTurn_total (a b : CoreLocConf N) : InTurn a b ∨ InTurn b a := by
  by_cases hname : a.name = b.name
  · rw [InTurn, InTurn, hname]
    cases a.exactMatch <;> cases b.exactMatch <;> simp [UpTo.refl]
  · exact (upTo_total a.name b.name).imp (fun h => ⟨h, fun h' => absurd h' hname⟩)
      fun h => ⟨h, fun h' => absurd h'.symm hname⟩

theorem cmpConfs_total {a b : CoreLocConf N} (ha : a.WellFormed) (hb : b.WellFormed) :
    cmpConfs a b ≤ 0 ∨ cmpConfs b a ≤ 0 := by
  rw [cmpConfs_le_iff ha hb, cmpConfs_le_iff hb ha]
  rcases lt_trichotomy a.part b.part with h | h | h
  · exact .inl (.inl h)
  · by_cases h0 : a.part = 0
    · have hno : a.part ≠ 2 := by omega
      exact (inTurn_total a b).imp (fun hi => .inr ⟨h, fun _ => hi, fun h' => absurd h' hno⟩)
        fun hi => .inr ⟨h.symm, fun _ => hi, fun h' => absurd (h.trans h') hno⟩
    · exact (upTo_total a.name b.name).imp
        (fun hs => .inr ⟨h, fun h' => absurd h' h0, fun _ => hs⟩)
        fun hs => .inr ⟨h.symm, fun h' => absurd (h.trans h') h0, fun _ => hs⟩
  · exact .inr (.inl h)

def queueOf (confs : List (CoreLocConf N)) : List (LocationQueue N) :=
  confs.foldl ngxHttpAddLocation []

theorem queueOf_eq (confs : List (CoreLocConf N)) : queueOf confs = confs.map .ofConf := by
  rw [queueOf, ← List.nil_append (confs.map _)]
  generalize ([] : List (LocationQueue N)) = q
  induction confs generalizing q with
  | nil => simp
  | cons c confs ih => rw [List.foldl_cons, ih, ngxHttpAddLocation]; simp

def sortedConfs (confs : List (CoreLocConf N)) : List (CoreLocConf N) :=
  ngxQueueSort cmpConfs confs

theorem sort_queueOf (confs : List (CoreLocConf N)) :
    ngxQueueSort ngxHttpCmpLocations (queueOf confs) = (sortedConfs confs).map .ofConf := by
  rw [queueOf_eq, sortedConfs, ngxQueueSort_eq, ngxQueueSort_eq, List.map_reverse,
    ← List.map_reverse,
    List.map_insertionSort (fun q prev => cmpConfs prev q ≤ 0)
      (fun q prev => ngxHttpCmpLocations prev q ≤ 0)]
  intro a _ b _
  rw [cmpLocations_ofConf]

theorem sortedConfs_sorted {confs : List (CoreLocConf N)} (hwf : ∀ c ∈ confs, c.WellFormed) :
    (sortedConfs confs).Pairwise fun a b => cmpConfs a b ≤ 0 :=
  ngxQueueSort_sorted _ (fun a ha b hb => cmpConfs_total (hwf a ha) (hwf b hb))
    fun a ha b hb c hc => cmpConfs_trans (hwf a ha) (hwf b hb) (hwf c hc)

theorem mem_sortedConfs {confs : List (CoreLocConf N)} {c : CoreLocConf N} :
    c ∈ sortedConfs confs ↔ c ∈ confs :=
  mem_ngxQueueSort _

/-- A list that goes up is split where it reaches a bound. -/
theorem takeWhile_of_sorted {α : Type} {f : α → ℕ} {l : List α} {p : α → Bool} {k : ℕ}
    (h : l.Pairwise fun a b => f a ≤ f b) (hp : ∀ a ∈ l, p a = decide (f a < k)) :
    l.takeWhile p = l.filter (fun a => f a < k) ∧
      l.dropWhile p = l.filter (fun a => k ≤ f a) := by
  induction l with
  | nil => exact ⟨rfl, rfl⟩
  | cons a l ih =>
      obtain ⟨ha, hl⟩ := List.pairwise_cons.mp h
      obtain ⟨htake, hdrop⟩ := ih hl fun b hb => hp b (List.mem_cons_of_mem _ hb)
      have hpa := hp a List.mem_cons_self
      by_cases hk : f a < k
      · simp [hpa, hk, htake, hdrop]
      · have hle : k ≤ f a := Nat.not_lt.mp hk
        have hall : ∀ b ∈ l, k ≤ f b := fun b hb => hle.trans (ha b hb)
        simpa [hpa, hk, hle] using
          ⟨hall, (List.filter_eq_self.mpr (by simpa using hall)).symm⟩

theorem part_le (c : CoreLocConf N) : c.part ≤ 3 := by
  rw [CoreLocConf.part]
  split <;> decide

theorem not_has_ofConf (c : CoreLocConf N) :
    (!(LocationQueue.ofConf c).has CoreLocConf.noname) = decide (c.part < 3) ∧
      (c.part < 3 → (!(LocationQueue.ofConf c).has CoreLocConf.named) = decide (c.part < 2)) ∧
      (c.part < 2 → (!(LocationQueue.ofConf c).has CoreLocConf.regex) = decide (c.part < 1)) := by
  rw [LocationQueue.has, LocationQueue.has, LocationQueue.has, ofConf_clcf]
  cases hc : c.kind <;>
    simp [CoreLocConf.part, CoreLocConf.noname, CoreLocConf.named, CoreLocConf.regex, hc]

/-- The entries of locations that come in the order of their parts are split between two parts. -/
theorem split_ofConf {l : List (CoreLocConf N)} {p : LocationQueue N → Bool} {k : ℕ}
    (h : l.Pairwise fun a b => a.part ≤ b.part)
    (hp : ∀ c ∈ l, p (.ofConf c) = decide (c.part < k)) :
    (l.map .ofConf).takeWhile p = (l.filter fun c => c.part < k).map .ofConf ∧
      (l.map .ofConf).dropWhile p = (l.filter fun c => k ≤ c.part).map .ofConf := by
  obtain ⟨htake, hdrop⟩ := takeWhile_of_sorted (p := p ∘ .ofConf) h hp
  rw [List.takeWhile_map, List.dropWhile_map, htake, hdrop]
  exact ⟨rfl, rfl⟩

def partOf (confs : List (CoreLocConf N)) (k : ℕ) : List (CoreLocConf N) :=
  (sortedConfs confs).filter fun c => c.part = k

/-- The sorted queue is taken apart into its parts. -/
theorem initLocations_eq {confs : List (CoreLocConf N)} (hwf : ∀ c ∈ confs, c.WellFormed) :
    ngxHttpInitLocations (queueOf confs) =
      ⟨(partOf confs 0).map .ofConf, (partOf confs 1).map .ofConf,
        (partOf confs 2).map .ofConf⟩ := by
  have hsorted : (sortedConfs confs).Pairwise fun a b => a.part ≤ b.part := by
    refine (sortedConfs_sorted hwf).imp_of_mem fun {a b} ha hb hab => ?_
    have hle := cmpConfs_le_iff (hwf a (mem_sortedConfs.mp ha)) (hwf b (mem_sortedConfs.mp hb))
    rcases hle.mp hab with hpart | ⟨hpart, -⟩
    · exact hpart.le
    · exact hpart.le
  rw [ngxHttpInitLocations, sort_queueOf]
  obtain ⟨hnoname, -⟩ := split_ofConf (k := 3)
    (p := fun lq => !lq.has CoreLocConf.noname) hsorted fun c _ => (not_has_ofConf c).1
  have hsorted := hsorted.filter fun c => decide (c.part < 3)
  obtain ⟨hnamed, hnamed'⟩ := split_ofConf (k := 2)
    (p := fun lq => !lq.has CoreLocConf.named) hsorted fun c hc =>
      (not_has_ofConf c).2.1 (by simpa using (List.mem_filter.mp hc).2)
  have hsorted := hsorted.filter fun c => decide (c.part < 2)
  obtain ⟨hregex, hregex'⟩ := split_ofConf (k := 1)
    (p := fun lq => !lq.has CoreLocConf.regex) hsorted fun c hc =>
      (not_has_ofConf c).2.2 (by simpa using (List.mem_filter.mp hc).2)
  rw [hnoname, hnamed, hnamed', hregex, hregex']
  simp only [List.filter_filter, partOf]
  congr 3 <;> funext c <;> have hc := part_le c <;>
    simp only [← Bool.decide_and, decide_eq_decide] <;> omega

/-- The regular expressions stay in the order of the configuration. -/
theorem partOf_one {confs : List (CoreLocConf N)} (hwf : ∀ c ∈ confs, c.WellFormed) :
    partOf confs 1 = confs.filter fun c => c.part = 1 := by
  have hperm : (partOf confs 1).Perm (confs.filter fun c => c.part = 1) :=
    (ngxQueueSort_perm _ confs).filter _
  have hpair : (confs.filter fun c => c.part = 1).Pairwise fun a b => cmpConfs a b ≤ 0 := by
    refine List.pairwise_of_forall_mem_list ?_
    intro a ha b hb
    have hpart := of_decide_eq_true (List.mem_filter.mp ha).2
    have hpart' := of_decide_eq_true (List.mem_filter.mp hb).2
    rw [cmpConfs_le_iff (hwf a (List.mem_filter.mp ha).1) (hwf b (List.mem_filter.mp hb).1)]
    exact .inr ⟨hpart.trans hpart'.symm, by omega, by omega⟩
  have hsub := (sublist_ngxQueueSort cmpConfs hpair List.filter_sublist).filter
    fun c => c.part = 1
  rw [List.filter_filter] at hsub
  simp only [Bool.and_self] at hsub
  exact (hsub.eq_of_length hperm.length_eq.symm).symm

theorem mem_partOf {confs : List (CoreLocConf N)} {k : ℕ} {c : CoreLocConf N} :
    c ∈ partOf confs k ↔ c ∈ confs ∧ c.part = k := by
  rw [partOf, List.mem_filter, mem_sortedConfs, decide_eq_true_iff]

theorem locations_sublist (locations : List (LocationQueue N)) :
    (ngxHttpInitLocations locations).locations.Sublist
      (ngxQueueSort ngxHttpCmpLocations locations) :=
  ((List.takeWhile_sublist _).trans (List.takeWhile_sublist _)).trans (List.takeWhile_sublist _)

theorem mem_of_locations {confs : List (CoreLocConf N)} {lq : LocationQueue N}
    (hlq : lq ∈ (ngxHttpInitLocations (queueOf confs)).locations) {c : CoreLocConf N}
    (hc : lq.clcf = some c) : c ∈ confs := by
  have hmem : lq ∈ queueOf confs := (mem_ngxQueueSort _).mp ((locations_sublist _).subset hlq)
  rw [queueOf_eq] at hmem
  obtain ⟨c', hc', rfl⟩ := List.mem_map.mp hmem
  rw [ofConf_clcf] at hc
  obtain rfl := Option.some.inj hc
  exact hc'

end Sorted

end MultiversionBalancer.Http
