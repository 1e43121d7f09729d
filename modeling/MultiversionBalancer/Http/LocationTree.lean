import Mathlib.Data.List.TakeWhile
import MultiversionBalancer.Http.LocationQueue
import MultiversionBalancer.Lib.Run

/-!
# The tree of locations

The trees that `ngx_http_init_static_location_trees` makes of the locations without regular
expressions, for a server and inside of its locations, and the search of
`ngx_http_core_find_static_location` in one of them.
-/

namespace MultiversionBalancer.Http

open MultiversionBalancer.Core (ngxQueueMiddle ngxQueueMiddle_eq ngxQueueSort_perm)
open Lib

variable {N : Type}

namespace LocationLists

/-- The entries of the queue itself. -/
def queue : LocationLists N → List (LocationQueue N)
  | .empty => []
  | .entry lq _ next => lq :: next.queue

/-- All entries, each one before those on its list. -/
def entries : LocationLists N → List (LocationQueue N)
  | .empty => []
  | .entry lq list next => lq :: list.entries ++ next.entries

/-- `ngx_queue_split`: the queue up to a place, and the rest of it. -/
def split : LocationLists N → ℕ → LocationLists N × LocationLists N
  | locations, 0 => (.empty, locations)
  | .empty, _ + 1 => (.empty, .empty)
  | .entry lq list next, n + 1 =>
    let (before, tail) := next.split n
    (.entry lq list before, tail)

theorem entries_split (locations : LocationLists N) (n : ℕ) :
    (locations.split n).1.entries ++ (locations.split n).2.entries = locations.entries := by
  induction locations generalizing n with
  | empty => cases n <;> rfl
  | entry lq list next _ ih =>
      cases n with
      | zero => rfl
      | succ n => simp [split, entries, ih]

theorem queue_split (locations : LocationLists N) (n : ℕ) :
    (locations.split n).1.queue = locations.queue.take n ∧
      (locations.split n).2.queue = locations.queue.drop n := by
  induction locations generalizing n with
  | empty => cases n <;> exact ⟨rfl, rfl⟩
  | entry lq list next _ ih =>
      cases n with
      | zero => exact ⟨rfl, rfl⟩
      | succ n => simp [split, queue, ih]

end LocationLists

/-- `ngx_http_location_tree_node_t`, or a null pointer. -/
inductive LocationTree (N : Type) where
  | null
  | node (left right tree : LocationTree N) (exact inclusive : Option (CoreLocConf N))
    (autoRedirect : Bool) (len : ℕ) (name : List UInt8)

def LocationQueue.autoRedirect (lq : LocationQueue N) : Bool :=
  lq.exact.any CoreLocConf.autoRedirect || lq.inclusive.any CoreLocConf.autoRedirect

def ngxHttpCreateLocationsTree (locations : LocationLists N) (pre : ℕ) : LocationTree N :=
  match h : locations.split (ngxQueueMiddle locations.queue) with
  | (_, .empty) => .null
  | (before, .entry lq list tail) =>
    let len := lq.name.length - pre
    .node (ngxHttpCreateLocationsTree before pre)
      (if before.queue.isEmpty then .null else ngxHttpCreateLocationsTree tail pre)
      (ngxHttpCreateLocationsTree list (pre + len))
      lq.exact lq.inclusive lq.autoRedirect (len % 2 ^ 16) (lq.name.drop pre)
  termination_by locations.entries.length
  decreasing_by
    all_goals
      have hlength := congrArg List.length
        (locations.entries_split (ngxQueueMiddle locations.queue))
      rw [h, List.length_append, LocationLists.entries, List.length_append,
        List.length_cons] at hlength
      dsimp only at hlength
      omega

/-- `rv` and `r->loc_conf` of the search. -/
inductive LocationMatch (N : Type) where
  | declined
  | ok (clcf : CoreLocConf N)
  | done (clcf : CoreLocConf N)
  | again (clcf : CoreLocConf N)

/-- `ngx_http_core_find_static_location` from a node on; there is no result if it reads a location
through a null pointer. -/
def ngxHttpCoreFindStaticLocation :
    LocationTree N → List UInt8 → LocationMatch N → Option (LocationMatch N)
  | .null, _, rv => some rv
  | .node left right tree exact inclusive autoRedirect len name, uri, rv =>
    let n := if uri.length ≤ len then uri.length else len
    let rc := ngxFilenameCmp uri name n
    if rc ≠ 0 then
      if rc < 0 then ngxHttpCoreFindStaticLocation left uri rv
      else ngxHttpCoreFindStaticLocation right uri rv
    else if uri.length > len then
      match inclusive with
      | some clcf => ngxHttpCoreFindStaticLocation tree (uri.drop n) (.again clcf)
      -- exact only
      | none => ngxHttpCoreFindStaticLocation right uri rv
    else if uri.length = len then
      match exact with
      | some clcf => some (.ok clcf)
      | none => inclusive.map .again
    else if uri.length + 1 = len ∧ autoRedirect then
      match exact.or inclusive with
      | some clcf => ngxHttpCoreFindStaticLocation left uri (.done clcf)
      | none => none
    else ngxHttpCoreFindStaticLocation left uri rv

/-- What `ngx_http_init_static_location_trees` does with a queue behind the loop over it. -/
def staticTree : List (LocationQueue N) → Except (List UInt8) (LocationTree N)
  | [] => .ok .null
  | q :: rest => (ngxHttpJoinExactLocations q rest).map fun locations =>
      ngxHttpCreateLocationsTree (ngxHttpCreateLocationsList locations) 0

/-! ## Joined entries -/

def LocationQueue.confs (lq : LocationQueue N) : List (CoreLocConf N) :=
  lq.exact.toList ++ lq.inclusive.toList

/-- An entry has the name of its locations, each of which is in its place. -/
structure LocationQueue.Ok (lq : LocationQueue N) : Prop where
  wellFormed : ∀ c ∈ lq.confs, c.WellFormed
  exact : ∀ c, lq.exact = some c → c.kind = .exact ∧ c.name = lq.name
  inclusive : ∀ c, lq.inclusive = some c → (∃ noregex, c.kind = .inclusive noregex) ∧
    c.name = lq.name
  some : lq.exact.isSome = true ∨ lq.inclusive.isSome = true

/-- An entry of the queue does not have to come after another one. -/
def LocationQueue.Before (one two : LocationQueue N) : Prop :=
  UpTo SlashFirst one.name two.name ∧
    (one.name = two.name → one.exact.isSome = true ∨ two.exact = none)

/-- Names that go up, and are all different. -/
def Ascending (locations : List (LocationQueue N)) : Prop :=
  locations.Pairwise fun one two => UpTo SlashFirst one.name two.name ∧ one.name ≠ two.name

/-- No two locations match the same name in the same way. -/
def NoDuplicates (confs : List (CoreLocConf N)) : Prop :=
  confs.Pairwise fun c c' => ¬ (c.name = c'.name ∧ c.exactMatch = c'.exactMatch)

section Join

variable {lq : LocationQueue N} {rest joined : List (LocationQueue N)}

theorem mem_confs {c : CoreLocConf N} :
    c ∈ lq.confs ↔ lq.exact = some c ∨ lq.inclusive = some c := by
  rw [LocationQueue.confs, List.mem_append, Option.mem_toList, Option.mem_toList]

theorem LocationQueue.Ok.name_eq (h : lq.Ok) {c : CoreLocConf N} (hc : c ∈ lq.confs) :
    c.name = lq.name := by
  rcases mem_confs.mp hc with hexact | hinclusive
  · exact (h.exact c hexact).2
  · exact (h.inclusive c hinclusive).2

theorem LocationQueue.Ok.exists_conf (h : lq.Ok) : ∃ c ∈ lq.confs, c.name = lq.name := by
  obtain ⟨c, hc⟩ : ∃ c, c ∈ lq.confs := by
    rcases h.some with hsome | hsome
    · obtain ⟨c, hc⟩ := Option.isSome_iff_exists.mp hsome
      exact ⟨c, mem_confs.mpr (.inl hc)⟩
    · obtain ⟨c, hc⟩ := Option.isSome_iff_exists.mp hsome
      exact ⟨c, mem_confs.mpr (.inr hc)⟩
  exact ⟨c, hc, h.name_eq hc⟩

theorem LocationQueue.Ok.text (h : lq.Ok) : 0 ∉ lq.name := by
  obtain ⟨c, hc, hname⟩ := h.exists_conf
  rw [← hname]
  exact (h.wellFormed c hc).text

/-- Names of one length that compare as equal are equal. -/
theorem sameName_iff {s t : List UInt8} (ht : 0 ∉ t) :
    s.length = t.length ∧ ngxFilenameCmp s t t.length = 0 ↔ s = t := by
  refine ⟨fun ⟨hlen, hcmp⟩ => ?_, fun h => ?_⟩
  · have hmin := (ngxFilenameCmp_min (s := s) ht).1
    rw [hlen, Nat.min_self] at hmin
    exact (hmin.mp hcmp).elim (fun h => h.eq_of_length hlen)
      fun h => (h.eq_of_length hlen.symm).symm
  · subst h
    have hmin := (ngxFilenameCmp_min (s := s) ht).1
    rw [Nat.min_self] at hmin
    exact ⟨rfl, hmin.mpr (.inl List.prefix_rfl)⟩

/-- An exact location and the inclusive one of its name make one entry, with all that holds of
the two. -/
theorem join_same {lx : LocationQueue N} (hok : ∀ l ∈ lq :: lx :: rest, l.Ok)
    (hbefore : (lq :: lx :: rest).Pairwise LocationQueue.Before) (hname : lq.name = lx.name)
    (hdup : ¬ (lq.exact.isSome && lx.exact.isSome ||
      lq.inclusive.isSome && lx.inclusive.isSome) = true) :
    (∀ l ∈ { lq with inclusive := lx.inclusive } :: rest, l.Ok) ∧
      ({ lq with inclusive := lx.inclusive } :: rest).Pairwise LocationQueue.Before ∧
      ({ lq with inclusive := lx.inclusive } :: rest).flatMap LocationQueue.confs =
        (lq :: lx :: rest).flatMap LocationQueue.confs := by
  obtain ⟨hlq, hrest⟩ := List.pairwise_cons.mp hbefore
  obtain ⟨hokq, hokx, hok'⟩ := List.forall_mem_cons.mp hok |>.imp_right List.forall_mem_cons.mp
  obtain ⟨hsome, hnone, hnone'⟩ :
      lq.exact.isSome = true ∧ lq.inclusive = none ∧ lx.exact = none := by
    have hfirst := (hlq lx List.mem_cons_self).2 hname
    have hq := hokq.some
    have hx := hokx.some
    cases he : lq.exact <;> cases hi : lq.inclusive <;> cases he' : lx.exact <;>
      cases hi' : lx.inclusive <;> simp_all
  have hjoined : LocationQueue.confs { lq with inclusive := lx.inclusive } =
      lq.confs ++ lx.confs := by
    simp [LocationQueue.confs, hnone, hnone']
  have hok₁ : LocationQueue.Ok { lq with inclusive := lx.inclusive } := by
    refine ⟨?_, hokq.exact, ?_, .inl hsome⟩
    · rw [hjoined]
      exact List.forall_mem_append.mpr ⟨hokq.wellFormed, hokx.wellFormed⟩
    · intro c hc
      rw [hname]
      exact hokx.inclusive c hc
  have hbefore₁ : ∀ l ∈ rest, LocationQueue.Before { lq with inclusive := lx.inclusive } l :=
    fun l hl => hlq l (List.mem_cons_of_mem _ hl)
  refine ⟨List.forall_mem_cons.mpr ⟨hok₁, hok'⟩, ?_, ?_⟩
  · exact List.pairwise_cons.mpr ⟨hbefore₁, (List.pairwise_cons.mp hrest).2⟩
  · rw [List.flatMap_cons, List.flatMap_cons, List.flatMap_cons, hjoined, List.append_assoc]

theorem joinExactLocations_ok (hok : ∀ l ∈ lq :: rest, l.Ok)
    (hbefore : (lq :: rest).Pairwise LocationQueue.Before)
    (h : ngxHttpJoinExactLocations lq rest = .ok joined) :
    joined.flatMap LocationQueue.confs = (lq :: rest).flatMap LocationQueue.confs ∧
      (∀ l ∈ joined, l.Ok) ∧ Ascending joined ∧
      ∀ l ∈ joined, UpTo SlashFirst lq.name l.name := by
  induction rest generalizing lq joined with
  | nil =>
      obtain rfl := Except.ok.inj h
      refine ⟨rfl, hok, List.pairwise_singleton _ _, fun l hl => ?_⟩
      obtain rfl := List.mem_singleton.mp hl
      exact .refl _
  | cons lx rest ih =>
      obtain ⟨hokq, hok'⟩ := List.forall_mem_cons.mp hok
      have hokx := hok' lx List.mem_cons_self
      rw [ngxHttpJoinExactLocations] at h
      by_cases hname : lq.name = lx.name
      · rw [if_pos ((sameName_iff hokx.text).mpr hname)] at h
        split_ifs at h with hdup
        obtain ⟨hok', hbefore', hflat⟩ := join_same hok hbefore hname hdup
        rw [← hflat]
        exact ih hok' hbefore' h
      · rw [if_neg (mt (sameName_iff hokx.text).mp hname)] at h
        obtain ⟨joined', hjoin, rfl⟩ := Except.map_eq_ok.mp h
        obtain ⟨hlq, hrest⟩ := List.pairwise_cons.mp hbefore
        have hlqx : UpTo SlashFirst lq.name lx.name := (hlq lx List.mem_cons_self).1
        obtain ⟨hflat, hoks, hasc, hfirst⟩ := ih hok' hrest hjoin
        have hup (l) (hl : l ∈ joined') : UpTo SlashFirst lq.name l.name :=
          hlqx.trans (hfirst l hl)
        have hne (l) (hl : l ∈ joined') : lq.name ≠ l.name := by
          intro hsame
          have hxq : UpTo SlashFirst lx.name lq.name := by
            rw [hsame]
            exact hfirst l hl
          exact hname (hlqx.antisymm hxq)
        refine ⟨?_, List.forall_mem_cons.mpr ⟨hokq, hoks⟩, ?_, ?_⟩
        · rw [List.flatMap_cons, hflat, ← List.flatMap_cons]
        · exact List.pairwise_cons.mpr ⟨fun l hl => ⟨hup l hl, hne l hl⟩, hasc⟩
        · exact List.forall_mem_cons.mpr ⟨.refl _, hup⟩

/-- The locations of entries with different names are no duplicates. -/
theorem Ascending.noDuplicates (hasc : Ascending joined) (hok : ∀ l ∈ joined, l.Ok) :
    NoDuplicates (joined.flatMap LocationQueue.confs) := by
  rw [NoDuplicates, List.pairwise_flatMap]
  constructor
  · intro l hl
    rw [LocationQueue.confs, List.pairwise_append]
    refine ⟨by cases l.exact <;> simp, by cases l.inclusive <;> simp, ?_⟩
    intro c hc c' hc' hsame
    have hexact := ((hok l hl).exact c (Option.mem_toList.mp hc)).1
    obtain ⟨noregex, hinclusive⟩ := ((hok l hl).inclusive c' (Option.mem_toList.mp hc')).1
    simp [CoreLocConf.exactMatch, hexact, hinclusive] at hsame
  · refine hasc.imp_of_mem fun {l l'} hl hl' hne c hc c' hc' hsame => hne.2 ?_
    calc
      l.name = c.name := ((hok l hl).name_eq hc).symm
      _ = c'.name := hsame.1
      _ = l'.name := (hok l' hl').name_eq hc'

/-- Where no location is there twice, the first entry has none of another one's. -/
theorem NoDuplicates.cons_cons {lx : LocationQueue N}
    (h : NoDuplicates ((lq :: lx :: rest).flatMap LocationQueue.confs)) :
    (∀ c ∈ lq.confs, ∀ c' ∈ lx.confs, ¬ (c.name = c'.name ∧ c.exactMatch = c'.exactMatch)) ∧
      NoDuplicates ((lx :: rest).flatMap LocationQueue.confs) := by
  rw [NoDuplicates, List.flatMap_cons, List.pairwise_append] at h
  obtain ⟨-, hrest, hcross⟩ := h
  refine ⟨?_, hrest⟩
  intro c hc c' hc'
  exact hcross c hc c' (List.mem_flatMap.mpr ⟨lx, List.mem_cons_self, hc'⟩)

theorem joinExactLocations_of_noDuplicates (hok : ∀ l ∈ lq :: rest, l.Ok)
    (hbefore : (lq :: rest).Pairwise LocationQueue.Before)
    (hno : NoDuplicates ((lq :: rest).flatMap LocationQueue.confs)) :
    ∃ joined, ngxHttpJoinExactLocations lq rest = .ok joined := by
  induction rest generalizing lq with
  | nil => exact ⟨_, rfl⟩
  | cons lx rest ih =>
      have hokq := hok lq List.mem_cons_self
      have hokx := hok lx (List.mem_cons_of_mem _ List.mem_cons_self)
      obtain ⟨hcross, hno'⟩ := hno.cons_cons
      rw [ngxHttpJoinExactLocations]
      by_cases hname : lq.name = lx.name
      · have hdup : ¬ (lq.exact.isSome && lx.exact.isSome ||
            lq.inclusive.isSome && lx.inclusive.isSome) = true := by
          intro hdup
          simp only [Bool.or_eq_true, Bool.and_eq_true, Option.isSome_iff_exists] at hdup
          rcases hdup with ⟨⟨c, hc⟩, c', hc'⟩ | ⟨⟨c, hc⟩, c', hc'⟩
          · obtain ⟨hkind, hc₁⟩ := hokq.exact c hc
            obtain ⟨hkind', hc₂⟩ := hokx.exact c' hc'
            refine hcross c (mem_confs.mpr (.inl hc)) c' (mem_confs.mpr (.inl hc'))
              ⟨hc₁.trans (hname.trans hc₂.symm), ?_⟩
            rw [CoreLocConf.exactMatch, CoreLocConf.exactMatch, hkind, hkind']
          · obtain ⟨⟨_, hkind⟩, hc₁⟩ := hokq.inclusive c hc
            obtain ⟨⟨_, hkind'⟩, hc₂⟩ := hokx.inclusive c' hc'
            refine hcross c (mem_confs.mpr (.inr hc)) c' (mem_confs.mpr (.inr hc'))
              ⟨hc₁.trans (hname.trans hc₂.symm), ?_⟩
            simp [CoreLocConf.exactMatch, hkind, hkind']
        rw [if_pos ((sameName_iff hokx.text).mpr hname), if_neg hdup]
        obtain ⟨hok', hbefore', hflat⟩ := join_same hok hbefore hname hdup
        rw [← hflat] at hno
        exact ih hok' hbefore' hno
      · rw [if_neg (mt (sameName_iff hokx.text).mp hname)]
        have hok' : ∀ l ∈ lx :: rest, l.Ok := fun l hl => hok l (List.mem_cons_of_mem _ hl)
        obtain ⟨joined, hjoin⟩ := ih hok' (List.pairwise_cons.mp hbefore).2 hno'
        exact ⟨lq :: joined, by rw [hjoin]; rfl⟩

end Join

/-! ## Nested lists -/

/-- What is on the list of an entry begins with its name, and only an inclusive location has such
a list, on which there is all that begins with its name. -/
def LocationLists.Nested : LocationLists N → Prop
  | .empty => True
  | .entry lq list next =>
    (∀ l ∈ list.entries, lq.name <+: l.name) ∧ (lq.inclusive = none → list = .empty) ∧
      (lq.inclusive.isSome = true → ∀ l ∈ next.entries, ¬ lq.name <+: l.name) ∧
      list.Nested ∧ next.Nested

section Nested

theorem takesIn_iff {lq lx : LocationQueue N} (htext : 0 ∉ lx.name) :
    lq.takesIn lx = true ↔ lq.name <+: lx.name := by
  have hmin := (ngxFilenameCmp_min (s := lq.name) htext).1
  rw [LocationQueue.takesIn, decide_eq_true_iff, not_or, not_not, Nat.not_lt]
  constructor
  · intro ⟨hlen, hcmp⟩
    rw [Nat.min_eq_left hlen] at hmin
    rcases hmin.mp hcmp with hpre | hpre
    · exact hpre
    · rw [hpre.eq_of_length (Nat.le_antisymm hpre.length_le hlen)]
  · intro h
    rw [Nat.min_eq_left h.length_le] at hmin
    exact ⟨h.length_le, hmin.mpr (.inl h)⟩

theorem entries_createLocationsList (locations : List (LocationQueue N)) :
    (ngxHttpCreateLocationsList locations).entries = locations := by
  induction locations using ngxHttpCreateLocationsList.induct with
  | case1 => simp [ngxHttpCreateLocationsList, LocationLists.entries]
  | case2 lq rest h ih =>
      simp [ngxHttpCreateLocationsList, h, LocationLists.entries, ih]
  | case3 lq rest h ih₁ ih₂ =>
      simp [ngxHttpCreateLocationsList, h, LocationLists.entries, ih₁, ih₂]

/-- From the first entry on that does not begin with a name, none does. -/
theorem not_prefix_of_dropWhile {lq : LocationQueue N} {rest : List (LocationQueue N)}
    (hok : ∀ l ∈ rest, l.Ok) (hasc : Ascending (lq :: rest)) {l : LocationQueue N}
    (hl : l ∈ rest.dropWhile lq.takesIn) : ¬ lq.name <+: l.name := by
  induction rest with
  | nil => cases hl
  | cons lx rest ih =>
      obtain ⟨hlq, hrest⟩ := List.pairwise_cons.mp hasc
      obtain ⟨hokx, hok'⟩ := List.forall_mem_cons.mp hok
      obtain ⟨hlqx, hlq'⟩ := List.forall_mem_cons.mp hlq
      by_cases htakes : lq.takesIn lx = true
      · rw [List.dropWhile_cons_of_pos htakes] at hl
        exact ih hok' (List.pairwise_cons.mpr ⟨hlq', (List.pairwise_cons.mp hrest).2⟩) hl
      · rw [List.dropWhile_cons_of_neg htakes] at hl
        have hbelow := hlqx.1.resolve_left (mt (takesIn_iff hokx.text).mpr htakes)
        rcases List.mem_cons.mp hl with rfl | hl
        · exact hbelow.not_begins
        · exact (hbelow.trans_upTo ((List.pairwise_cons.mp hrest).1 l hl).1).not_begins

theorem nested_createLocationsList {locations : List (LocationQueue N)}
    (hok : ∀ l ∈ locations, l.Ok) (hasc : Ascending locations) :
    (ngxHttpCreateLocationsList locations).Nested := by
  induction locations using ngxHttpCreateLocationsList.induct with
  | case1 => simp [ngxHttpCreateLocationsList, LocationLists.Nested]
  | case2 lq rest h ih =>
      obtain ⟨-, hok⟩ := List.forall_mem_cons.mp hok
      rw [ngxHttpCreateLocationsList, if_pos h]
      refine ⟨by simp [LocationLists.entries], fun _ => rfl, fun h' => ?_, trivial,
        ih hok (List.pairwise_cons.mp hasc).2⟩
      rw [Option.isNone_iff_eq_none.mp h] at h'
      cases h'
  | case3 lq rest h ih₁ ih₂ =>
      obtain ⟨-, hok⟩ := List.forall_mem_cons.mp hok
      obtain ⟨hlq, hasc⟩ := List.pairwise_cons.mp hasc
      rw [ngxHttpCreateLocationsList, if_neg h]
      refine ⟨fun l hl => ?_, fun h' => ?_, fun _ l hl => ?_,
        ih₁ (fun l hl => hok l ((List.takeWhile_sublist _).subset hl))
          (hasc.sublist (List.takeWhile_sublist _)),
        ih₂ (fun l hl => hok l ((List.dropWhile_sublist _).subset hl))
          (hasc.sublist (List.dropWhile_sublist _))⟩
      · rw [entries_createLocationsList] at hl
        exact (takesIn_iff (hok l ((List.takeWhile_sublist _).subset hl)).text).mp
          (List.mem_takeWhile_imp hl)
      · exact absurd (Option.isNone_iff_eq_none.mpr h') h
      · rw [entries_createLocationsList] at hl
        exact not_prefix_of_dropWhile hok (List.pairwise_cons.mpr ⟨hlq, hasc⟩) hl

end Nested

/-! ## The search in all entries -/

/-- What an entry with the name of the request makes of it. -/
def LocationQueue.hit (lq : LocationQueue N) : Option (LocationMatch N) :=
  match lq.exact with
  | some clcf => some (.ok clcf)
  | none => lq.inclusive.map .again

/-- An entry redirects a request for its name without the slash. -/
def LocationQueue.redirects (uri : List UInt8) (lq : LocationQueue N) : Bool :=
  lq.name = uri ++ [0x2f] && lq.autoRedirect

/-- An inclusive location takes a request for what begins with its name. -/
def LocationQueue.take (uri : List UInt8) (rv : LocationMatch N) (lq : LocationQueue N) :
    LocationMatch N :=
  match lq.inclusive with
  | some clcf => if lq.name <+: uri then .again clcf else rv
  | none => rv

/-- The search through entries whose names go up: for one with the name of the request, then for
one that redirects it, then for the last one that takes it. -/
def search (locations : List (LocationQueue N)) (uri : List UInt8) (rv : LocationMatch N) :
    Option (LocationMatch N) :=
  match locations.find? fun lq => lq.name = uri with
  | some lq => lq.hit
  | none =>
    match locations.find? (LocationQueue.redirects uri) with
    | some lq => lq.clcf.map .done
    | none => some (locations.foldl (LocationQueue.take uri) rv)

/-- An entry that has nothing to do with a request. -/
structure LocationQueue.Beside (uri : List UInt8) (lq : LocationQueue N) : Prop where
  name : lq.name ≠ uri
  redirects : lq.redirects uri = false
  inclusive : lq.inclusive.isSome = true → ¬ lq.name <+: uri

section Search

variable {uri : List UInt8} {l l' : List (LocationQueue N)} {lq : LocationQueue N}

theorem foldl_take_outside (h : ∀ lq ∈ l, lq.inclusive.isSome = true → ¬ lq.name <+: uri)
    (rv : LocationMatch N) : l.foldl (LocationQueue.take uri) rv = rv := by
  induction l generalizing rv with
  | nil => rfl
  | cons lq l ih =>
      obtain ⟨hlq, hl⟩ := List.forall_mem_cons.mp h
      have htake : lq.take uri rv = rv := by
        rw [LocationQueue.take]
        split
        · next clcf hclcf => exact if_neg (hlq (by rw [hclcf]; rfl))
        · rfl
      rw [List.foldl_cons, htake]
      exact ih hl rv

theorem find_beside (h : ∀ lq ∈ l, lq.Beside uri) :
    (l.find? fun lq => lq.name = uri) = none ∧
      l.find? (LocationQueue.redirects uri) = none := by
  refine ⟨List.find?_eq_none.mpr fun lq hlq => ?_, List.find?_eq_none.mpr fun lq hlq => ?_⟩
  · simpa using (h lq hlq).name
  · simp [(h lq hlq).redirects]

theorem search_append_of_left (h : ∀ lq ∈ l, lq.Beside uri) (rv : LocationMatch N) :
    search (l ++ l') uri rv = search l' uri rv := by
  obtain ⟨hname, hredirects⟩ := find_beside h
  rw [search, search, List.find?_append, List.find?_append, hname, hredirects, List.foldl_append,
    foldl_take_outside fun lq hlq => (h lq hlq).inclusive, Option.none_or, Option.none_or]

theorem search_append_of_right (h : ∀ lq ∈ l', lq.Beside uri) (rv : LocationMatch N) :
    search (l ++ l') uri rv = search l uri rv := by
  obtain ⟨hname, hredirects⟩ := find_beside h
  rw [search, search, List.find?_append, List.find?_append, hname, hredirects, List.foldl_append,
    foldl_take_outside fun lq hlq => (h lq hlq).inclusive, Option.or_none, Option.or_none]

/-- A name that does not begin with a request neither is the request nor redirects it. -/
theorem beside_of_not_begun (h : ¬ uri <+: lq.name)
    (hinclusive : lq.inclusive.isSome = true → ¬ lq.name <+: uri) : lq.Beside uri := by
  refine ⟨?_, ?_, hinclusive⟩
  · intro hname
    rw [hname] at h
    exact h List.prefix_rfl
  · rw [LocationQueue.redirects, Bool.and_eq_false_iff]
    left
    refine decide_eq_false fun hname => h ?_
    rw [hname]
    exact List.prefix_append _ _

theorem beside_of_below (h : WordLt SlashFirst uri lq.name) : lq.Beside uri :=
  beside_of_not_begun h.not_begins fun _ => h.not_begins'

theorem beside_of_above (h : WordLt SlashFirst lq.name uri) : lq.Beside uri :=
  beside_of_not_begun h.not_begins' fun _ => h.not_begins

/-- How the entries of a queue stand to the one in the middle: those before it and on their lists,
those on its list, and those after it. -/
structure Around (before : List (LocationQueue N)) (lq : LocationQueue N)
    (list after : List (LocationQueue N)) : Prop where
  before_upTo : ∀ l ∈ before, UpTo SlashFirst l.name lq.name
  before_ne : ∀ l ∈ before, l.name ≠ lq.name
  before_outside : ∀ l ∈ before, l.inclusive.isSome = true → ¬ l.name <+: lq.name
  list_inside : ∀ l ∈ list, lq.name <+: l.name
  list_ne : ∀ l ∈ list, l.name ≠ lq.name
  list_nil : lq.inclusive = none → list = []
  after_upTo : ∀ l ∈ after, UpTo SlashFirst lq.name l.name
  after_ne : ∀ l ∈ after, l.name ≠ lq.name
  after_outside : lq.inclusive.isSome = true → ∀ l ∈ after, ¬ lq.name <+: l.name

namespace Around

variable {before list after : List (LocationQueue N)} (h : Around before lq list after)

include h

/-- A request below the entry goes to those before it. -/
theorem search_below (huri : WordLt SlashFirst uri lq.name) (rv : LocationMatch N) :
    search (before ++ lq :: (list ++ after)) uri rv = search before uri rv := by
  refine search_append_of_right (List.forall_mem_cons.mpr ⟨beside_of_below huri, ?_⟩) rv
  refine List.forall_mem_append.mpr ⟨fun l hl => ?_, fun l hl => ?_⟩
  · exact beside_of_below (huri.extend List.prefix_rfl (h.list_inside l hl))
  · exact beside_of_below (huri.trans_upTo (h.after_upTo l hl))

/-- No entry before one that begins the request, or is below it, has to do with the request. -/
theorem before_beside (huri : UpTo SlashFirst lq.name uri) :
    ∀ l ∈ before, l.Beside uri := by
  intro l hl
  rcases h.before_upTo l hl with hpre | hbelow
  · refine beside_of_not_begun ?_ ?_
    · intro hbegun
      have hup : UpTo SlashFirst l.name lq.name := .inl hpre
      have hup' : UpTo SlashFirst lq.name l.name := huri.trans (.inl hbegun)
      exact h.before_ne l hl (hup.antisymm hup')
    · intro hsome
      exact absurd hpre (h.before_outside l hl hsome)
  · exact beside_of_above (hbelow.trans_upTo huri)

/-- A request above the entry goes to those after it. -/
theorem search_above (huri : WordLt SlashFirst lq.name uri) (rv : LocationMatch N) :
    search (before ++ lq :: (list ++ after)) uri rv = search after uri rv := by
  rw [search_append_of_left (h.before_beside (.inr huri)), ← List.cons_append]
  refine search_append_of_left (List.forall_mem_cons.mpr ⟨beside_of_above huri, ?_⟩) rv
  exact fun l hl => beside_of_above (huri.extend (h.list_inside l hl) List.prefix_rfl)

/-- A request that begins with the name of an inclusive location goes to those on its list. -/
theorem search_inside {clcf : CoreLocConf N} (hclcf : lq.inclusive = some clcf)
    (huri : lq.name <+: uri) (hne : lq.name ≠ uri) (rv : LocationMatch N) :
    search (before ++ lq :: (list ++ after)) uri rv = search list uri (.again clcf) := by
  have hlength : lq.name.length < uri.length :=
    Nat.lt_of_le_of_ne huri.length_le fun h' => hne (huri.eq_of_length h')
  rw [search_append_of_left (h.before_beside (.inl huri)), ← List.cons_append,
    search_append_of_right]
  · have hredirects : lq.redirects uri = false := by
      rw [LocationQueue.redirects, Bool.and_eq_false_iff]
      refine .inl (decide_eq_false fun h' => ?_)
      rw [h', List.length_append] at hlength
      omega
    have htake : lq.take uri rv = .again clcf := by
      rw [LocationQueue.take, hclcf]
      exact if_pos huri
    rw [search, search, List.find?_cons_of_neg (by simpa using hne),
      List.find?_cons_of_neg (by simp [hredirects]), List.foldl_cons, htake]
  · intro l hl
    have hout := h.after_outside (by rw [hclcf]; rfl) l hl
    exact beside_of_below (((h.after_upTo l hl).resolve_left hout).extend huri List.prefix_rfl)

/-- A request that begins with the name of an exact location goes to those after it. -/
theorem search_beyond (hnone : lq.inclusive = none) (huri : lq.name <+: uri)
    (hne : lq.name ≠ uri) (rv : LocationMatch N) :
    search (before ++ lq :: (list ++ after)) uri rv = search after uri rv := by
  have hlength : lq.name.length < uri.length :=
    Nat.lt_of_le_of_ne huri.length_le fun h' => hne (huri.eq_of_length h')
  have hlq : lq.Beside uri := by
    refine ⟨hne, ?_, fun hsome => by rw [hnone] at hsome; cases hsome⟩
    rw [LocationQueue.redirects, Bool.and_eq_false_iff]
    refine .inl (decide_eq_false fun h' => ?_)
    rw [h', List.length_append] at hlength
    omega
  rw [search_append_of_left (h.before_beside (.inl huri)), h.list_nil hnone, List.nil_append,
    ← List.singleton_append]
  exact search_append_of_left (by simpa using hlq) rv

/-- A request for the name of the entry. -/
theorem search_hit (huri : lq.name = uri) (rv : LocationMatch N) :
    search (before ++ lq :: (list ++ after)) uri rv = lq.hit := by
  have hup : UpTo SlashFirst lq.name uri := by
    rw [huri]
    exact .refl _
  rw [search_append_of_left (h.before_beside hup), search,
    List.find?_cons_of_pos (by simpa using huri)]

omit h in
theorem upTo_slash {s : List UInt8} (hs : 0 ∉ s) (huri : uri <+: s) (hne : uri ≠ s) :
    UpTo SlashFirst (uri ++ [0x2f]) s := by
  obtain ⟨t, rfl⟩ := huri
  cases t with
  | nil => simp at hne
  | cons c t =>
      by_cases hc : c = 0x2f
      · exact .inl ⟨t, by rw [hc]; simp⟩
      · refine .inr (WordLt.append_left ?_ uri)
        exact .head (slash_first (fun h0 => hs (by simp [h0])) hc) [] t

/-- What follows an entry that goes on from the request has nothing to do with it. -/
theorem later_beside (htext : 0 ∉ lq.name) (huri : uri <+: lq.name) (hne : uri ≠ lq.name) :
    ∀ l ∈ list ++ after, l.Beside uri := by
  have hlater (l : LocationQueue N) (hup : UpTo SlashFirst lq.name l.name)
      (hl : l.name ≠ lq.name) : l.Beside uri := by
    have hnot : ¬ l.name <+: uri := by
      intro hpre
      have hup' : UpTo SlashFirst l.name lq.name := .inl (hpre.trans huri)
      exact hl (hup'.antisymm hup)
    refine ⟨?_, ?_, fun _ => hnot⟩
    · intro hname
      rw [hname] at hnot
      exact hnot List.prefix_rfl
    · rw [LocationQueue.redirects, Bool.and_eq_false_iff]
      left
      refine decide_eq_false fun hname => hl ?_
      have hslash := upTo_slash htext huri hne
      rw [← hname] at hslash
      exact hslash.antisymm hup
  exact List.forall_mem_append.mpr
    ⟨fun l hl => hlater l (.inl (h.list_inside l hl)) (h.list_ne l hl),
      fun l hl => hlater l (h.after_upTo l hl) (h.after_ne l hl)⟩

/-- A request that the entry redirects is still looked for before it. -/
theorem search_redirect (htext : 0 ∉ lq.name) {clcf : CoreLocConf N}
    (hclcf : lq.clcf = some clcf) (hredirects : lq.redirects uri = true) (rv : LocationMatch N) :
    search (before ++ lq :: (list ++ after)) uri rv = search before uri (.done clcf) := by
  have hname : lq.name = uri ++ [0x2f] :=
    of_decide_eq_true (Bool.and_eq_true_iff.mp hredirects).1
  have hne : uri ≠ lq.name := by simp [hname]
  have hpre : uri <+: lq.name := by
    rw [hname]
    exact List.prefix_append _ _
  have hother : before.find? (LocationQueue.redirects uri) = none := by
    refine List.find?_eq_none.mpr fun l hl hredirects' => h.before_ne l hl ?_
    have hname' : l.name = uri ++ [0x2f] :=
      of_decide_eq_true (Bool.and_eq_true_iff.mp hredirects').1
    exact hname'.trans hname.symm
  have htake : before.foldl (LocationQueue.take uri) (.done clcf) = .done clcf :=
    foldl_take_outside (fun l hl hsome hl' => h.before_outside l hl hsome (hl'.trans hpre)) _
  rw [← List.singleton_append, ← List.append_assoc,
    search_append_of_right (h.later_beside htext hpre hne), search, search, List.find?_append,
    List.find?_append, hother, htake, List.find?_cons_of_neg (by simpa using hne.symm),
    List.find?_cons_of_pos hredirects]
  simp [hclcf]

/-- A request that an entry goes on from is looked for before it. -/
theorem search_before (htext : 0 ∉ lq.name) (huri : uri <+: lq.name) (hne : uri ≠ lq.name)
    (hredirects : lq.redirects uri = false) (rv : LocationMatch N) :
    search (before ++ lq :: (list ++ after)) uri rv = search before uri rv := by
  refine search_append_of_right (List.forall_mem_cons.mpr
    ⟨⟨hne.symm, hredirects, fun _ hpre => hne ?_⟩, h.later_beside htext huri hne⟩) rv
  exact huri.eq_of_length (Nat.le_antisymm huri.length_le hpre.length_le)

end Around

end Search

/-! ## The tree and the entries -/

section Tree

theorem LocationLists.mem_split {locations : LocationLists N} {n : ℕ} {l : LocationQueue N} :
    l ∈ locations.entries ↔
      l ∈ (locations.split n).1.entries ∨ l ∈ (locations.split n).2.entries := by
  rw [← locations.entries_split n, List.mem_append]

theorem LocationLists.mem_entry {lq l : LocationQueue N} {list next : LocationLists N} :
    l ∈ (LocationLists.entry lq list next).entries ↔
      l = lq ∨ l ∈ list.entries ∨ l ∈ next.entries := by
  simp [LocationLists.entries]

/-- The two parts of nested lists are nested, and no inclusive location of the first part takes in
any of the second part. -/
theorem LocationLists.Nested.split {locations : LocationLists N} (h : locations.Nested) (n : ℕ) :
    (locations.split n).1.Nested ∧ (locations.split n).2.Nested ∧
      ∀ l ∈ (locations.split n).1.entries, l.inclusive.isSome = true →
        ∀ l' ∈ (locations.split n).2.entries, ¬ l.name <+: l'.name := by
  induction locations generalizing n with
  | empty => cases n <;> simp [LocationLists.split, Nested, entries]
  | entry lq list next _ ih =>
      obtain ⟨hinside, hnil, houtside, hlist, hnext⟩ := h
      cases n with
      | zero =>
          exact ⟨trivial, ⟨hinside, hnil, houtside, hlist, hnext⟩,
            fun _ hl => absurd hl List.not_mem_nil⟩
      | succ n =>
          obtain ⟨hbefore, htail, hcross⟩ := ih hnext n
          refine ⟨⟨hinside, hnil, fun hsome l hl => houtside hsome l (mem_split.mpr (.inl hl)),
            hlist, hbefore⟩, htail, fun l hl hsome l' hl' hpre => ?_⟩
          rcases mem_entry.mp hl with rfl | hl | hl
          · exact houtside hsome l' (mem_split.mpr (.inr hl')) hpre
          · have hsome : lq.inclusive.isSome = true := by
              rw [Option.isSome_iff_ne_none]
              intro hnone
              rw [hnil hnone] at hl
              cases hl
            exact houtside hsome l' (mem_split.mpr (.inr hl')) ((hinside l hl).trans hpre)
          · exact hcross l hl hsome l' hl' hpre

/-- The entry in the middle of nested lists whose names go up. -/
theorem around_split {locations before list tail : LocationLists N} {lq : LocationQueue N}
    {n : ℕ} (hsplit : locations.split n = (before, .entry lq list tail))
    (hasc : Ascending locations.entries) (hnested : locations.Nested) :
    Around before.entries lq list.entries tail.entries := by
  obtain ⟨-, htail, hcross⟩ := hnested.split n
  rw [hsplit] at htail hcross
  obtain ⟨hinside, hnil, houtside, -⟩ := htail
  rw [← locations.entries_split n, hsplit] at hasc
  obtain ⟨-, hafter, hbefore⟩ := List.pairwise_append.mp hasc
  have hlq := (List.pairwise_cons.mp hafter).1
  have hmem : lq ∈ (LocationLists.entry lq list tail).entries :=
    LocationLists.mem_entry.mpr (.inl rfl)
  exact {
    before_upTo := fun l hl => (hbefore l hl lq hmem).1
    before_ne := fun l hl => (hbefore l hl lq hmem).2
    before_outside := fun l hl hsome => hcross l hl hsome lq hmem
    list_inside := hinside
    list_ne := fun l hl => (hlq l (List.mem_append_left _ hl)).2.symm
    list_nil := fun hnone => by rw [hnil hnone]; rfl
    after_upTo := fun l hl => (hlq l (List.mem_append_right _ hl)).1
    after_ne := fun l hl => (hlq l (List.mem_append_right _ hl)).2.symm
    after_outside := houtside }

theorem LocationQueue.Ok.short {lq : LocationQueue N} (h : lq.Ok) : lq.name.length < 2 ^ 16 := by
  obtain ⟨c, hc, hname⟩ := h.exists_conf
  rw [← hname]
  exact (h.wellFormed c hc).short

/-- An entry that redirects anything has a name that ends with a slash. -/
theorem LocationQueue.Ok.slash {lq : LocationQueue N} (h : lq.Ok)
    (hredirect : lq.autoRedirect = true) : ∃ p, lq.name = p ++ [0x2f] := by
  rw [LocationQueue.autoRedirect, Bool.or_eq_true, Option.any_eq_true, Option.any_eq_true]
    at hredirect
  obtain ⟨c, hc, hslash⟩ : ∃ c ∈ lq.confs, c.autoRedirect = true := by
    rcases hredirect with ⟨c, hc, hslash⟩ | ⟨c, hc, hslash⟩
    · exact ⟨c, mem_confs.mpr (.inl hc), hslash⟩
    · exact ⟨c, mem_confs.mpr (.inr hc), hslash⟩
  rw [← h.name_eq hc]
  exact (h.wellFormed c hc).slash hslash

/-- A name of one byte more that redirects is the request with a slash. -/
theorem LocationQueue.Ok.redirects_iff {lq : LocationQueue N} (h : lq.Ok) {uri : List UInt8}
    (huri : uri <+: lq.name) :
    lq.redirects uri = true ↔ uri.length + 1 = lq.name.length ∧ lq.autoRedirect = true := by
  rw [LocationQueue.redirects, Bool.and_eq_true, decide_eq_true_iff]
  refine and_congr_left fun hredirect => ⟨fun hname => by rw [hname]; simp, fun hlength => ?_⟩
  obtain ⟨p, hp⟩ := h.slash hredirect
  rw [hp] at huri hlength ⊢
  rw [List.length_append, List.length_singleton, Nat.add_right_cancel_iff] at hlength
  exact congrArg (· ++ [0x2f])
    (List.prefix_of_prefix_length_le huri (List.prefix_append _ _) hlength.le
      |>.eq_of_length hlength).symm

theorem LocationLists.eq_empty_of_queue {locations : LocationLists N}
    (h : locations.queue = []) : locations = .empty := by
  cases locations with
  | empty => rfl
  | entry => cases h

theorem createLocationsTree_empty (pre : ℕ) :
    ngxHttpCreateLocationsTree (.empty : LocationLists N) pre = .null := by
  rw [ngxHttpCreateLocationsTree]
  split
  · rfl
  · next h => cases h

theorem eq_empty_of_split {locations before : LocationLists N}
    (h : locations.split (ngxQueueMiddle locations.queue) = (before, .empty)) :
    locations = .empty := by
  have hdrop := (locations.queue_split (ngxQueueMiddle locations.queue)).2
  rw [h, ngxQueueMiddle_eq] at hdrop
  have hlength := List.drop_eq_nil_iff.mp hdrop.symm
  exact LocationLists.eq_empty_of_queue (List.length_eq_zero_iff.mp (by omega))

theorem createLocationsTree_entry {locations before list tail : LocationLists N}
    {lq : LocationQueue N} (pre : ℕ)
    (h : locations.split (ngxQueueMiddle locations.queue) = (before, .entry lq list tail)) :
    ngxHttpCreateLocationsTree locations pre =
      .node (ngxHttpCreateLocationsTree before pre) (ngxHttpCreateLocationsTree tail pre)
        (ngxHttpCreateLocationsTree list (pre + (lq.name.length - pre)))
        lq.exact lq.inclusive lq.autoRedirect ((lq.name.length - pre) % 2 ^ 16)
        (lq.name.drop pre) := by
  have htail : (if before.queue.isEmpty then .null else ngxHttpCreateLocationsTree tail pre) =
      ngxHttpCreateLocationsTree tail pre := by
    split_ifs with hbefore
    · obtain ⟨htake, hdrop⟩ := locations.queue_split (ngxQueueMiddle locations.queue)
      rw [h, ngxQueueMiddle_eq] at htake hdrop
      have hqueue : locations.queue = lq :: tail.queue := by
        rw [← List.take_append_drop (locations.queue.length / 2) locations.queue, ← htake,
          ← hdrop, List.isEmpty_iff.mp hbefore]
        rfl
      have hlength := congrArg List.length htake
      rw [List.isEmpty_iff.mp hbefore, List.length_take, hqueue] at hlength
      simp only [List.length_cons, List.length_nil] at hlength
      have htail : tail = .empty :=
        LocationLists.eq_empty_of_queue (List.length_eq_zero_iff.mp (by omega))
      rw [htail, createLocationsTree_empty]
    · rfl
  rw [ngxHttpCreateLocationsTree]
  split
  · next h' => rw [h] at h'; cases h'
  · next h' =>
      rw [h] at h'
      cases h'
      rw [htail]

/-- One step of the search is the search through the entries around a node, when the search in
its subtrees is the search through theirs. -/
theorem find_node {before list after : List (LocationQueue N)} {lq : LocationQueue N}
    (haround : Around before lq list after) (hok : lq.Ok) {p name : List UInt8}
    (hname : p ++ name = lq.name) {left right tree : LocationTree N} {uri : List UInt8}
    (hleft : ∀ rv, ngxHttpCoreFindStaticLocation left uri rv = search before (p ++ uri) rv)
    (hright : ∀ rv, ngxHttpCoreFindStaticLocation right uri rv = search after (p ++ uri) rv)
    (htree : ∀ suffix rv, uri = name ++ suffix →
      ngxHttpCoreFindStaticLocation tree suffix rv = search list (p ++ uri) rv)
    (rv : LocationMatch N) :
    ngxHttpCoreFindStaticLocation (.node left right tree lq.exact lq.inclusive lq.autoRedirect
      name.length name) uri rv = search (before ++ lq :: (list ++ after)) (p ++ uri) rv := by
  have htext : 0 ∉ name := by
    intro hzero
    refine hok.text ?_
    rw [← hname]
    exact List.mem_append_right _ hzero
  obtain ⟨hzero, hneg, hpos⟩ := ngxFilenameCmp_min (s := uri) htext
  have hn : (if uri.length ≤ name.length then uri.length else name.length) =
      min uri.length name.length := by
    rw [min_def]
  rw [ngxHttpCoreFindStaticLocation.eq_def]
  dsimp only
  rw [hn]
  by_cases hrc : ngxFilenameCmp uri name (min uri.length name.length) = 0
  · rw [if_neg (not_not.mpr hrc)]
    rcases lt_trichotomy name.length uri.length with hlt | heq | hgt
    · -- The name is a beginning of the request.
      have hprefix : name <+: uri := (hzero.mp hrc).resolve_left fun h' =>
        absurd h'.length_le (Nat.not_le.mpr hlt)
      have huri : lq.name <+: p ++ uri := by
        rw [← hname]
        exact (List.prefix_append_right_inj p).mpr hprefix
      have hne : lq.name ≠ p ++ uri := fun h' => by
        have := congrArg List.length (List.append_cancel_left (hname.trans h'))
        omega
      rw [if_pos hlt]
      cases hinclusive : lq.inclusive with
      | some clcf =>
          obtain ⟨suffix, rfl⟩ := hprefix
          have hdrop : (name ++ suffix).drop (min (name ++ suffix).length name.length) =
              suffix := by
            rw [Nat.min_eq_right (by simp), List.drop_left]
          rw [haround.search_inside hinclusive huri hne, hdrop]
          exact htree suffix _ rfl
      | none =>
          rw [haround.search_beyond hinclusive huri hne]
          exact hright rv
    · -- The name is the request.
      have hsame : name = uri := (hzero.mp hrc).elim (fun h' => (h'.eq_of_length heq.symm).symm)
        fun h' => h'.eq_of_length heq
      rw [if_neg (by omega), if_pos heq.symm, haround.search_hit (by rw [← hname, hsame]),
        LocationQueue.hit]
    · -- The name goes on from the request.
      have hprefix : uri <+: name := (hzero.mp hrc).resolve_right fun h' =>
        absurd h'.length_le (Nat.not_le.mpr hgt)
      have huri : p ++ uri <+: lq.name := by
        rw [← hname]
        exact (List.prefix_append_right_inj p).mpr hprefix
      have hne : p ++ uri ≠ lq.name := fun h' => by
        have := congrArg List.length (List.append_cancel_left (h'.trans hname.symm))
        omega
      rw [if_neg (by omega), if_neg (by omega)]
      have hredirects := hok.redirects_iff huri
      have hlength : (p ++ uri).length + 1 = lq.name.length ↔ uri.length + 1 = name.length := by
        rw [← hname, List.length_append, List.length_append]
        omega
      rw [hlength] at hredirects
      by_cases hredirect : lq.redirects (p ++ uri) = true
      · obtain ⟨clcf, hclcf⟩ : ∃ clcf, lq.exact.or lq.inclusive = some clcf := by
          rw [← Option.isSome_iff_exists, Option.isSome_or, Bool.or_eq_true]
          exact hok.some
        rw [if_pos (hredirects.mp hredirect), hclcf,
          haround.search_redirect hok.text hclcf hredirect]
        exact hleft _
      · rw [if_neg (mt hredirects.mpr hredirect),
          haround.search_before hok.text huri hne (Bool.eq_false_iff.mpr hredirect)]
        exact hleft rv
  · rw [if_pos hrc]
    by_cases hlt : ngxFilenameCmp uri name (min uri.length name.length) < 0
    · have hbelow : WordLt SlashFirst (p ++ uri) lq.name := by
        rw [← hname]
        exact (hneg.mp hlt).append_left p
      rw [if_pos hlt, haround.search_below hbelow]
      exact hleft rv
    · have hgt := hpos.mp (lt_of_le_of_ne (not_lt.mp hlt) (Ne.symm hrc))
      have habove : WordLt SlashFirst lq.name (p ++ uri) := by
        rw [← hname]
        exact hgt.append_left p
      rw [if_neg hlt, haround.search_above habove]
      exact hright rv

/-- The search in the tree is the search through all its entries. -/
theorem find_createLocationsTree (locations : LocationLists N) (pre : ℕ)
    (hok : ∀ l ∈ locations.entries, l.Ok) (hasc : Ascending locations.entries)
    (hnested : locations.Nested) {p : List UInt8} (hp : p.length = pre)
    (hpre : ∀ l ∈ locations.entries, p <+: l.name) (uri : List UInt8) (rv : LocationMatch N) :
    ngxHttpCoreFindStaticLocation (ngxHttpCreateLocationsTree locations pre) uri rv =
      search locations.entries (p ++ uri) rv := by
  induction locations, pre using ngxHttpCreateLocationsTree.induct generalizing p uri rv with
  | case1 locations pre before hsplit =>
      rw [eq_empty_of_split hsplit, createLocationsTree_empty]
      rfl
  | case2 locations pre before lq list tail hsplit len ihbefore ihtail ihlist =>
      have haround := around_split hsplit hasc hnested
      obtain ⟨hbefore, htail, -⟩ := hnested.split (ngxQueueMiddle locations.queue)
      have hentries := locations.entries_split (ngxQueueMiddle locations.queue)
      rw [hsplit] at hbefore htail hentries
      obtain ⟨-, -, -, hlist, htail⟩ := htail
      have hmem : lq ∈ locations.entries := by rw [← hentries]; simp [LocationLists.entries]
      obtain ⟨name, hname⟩ := hpre lq hmem
      have hdrop : lq.name.drop pre = name := by rw [← hname, ← hp, List.drop_left]
      have hlen : lq.name.length - pre = name.length := by
        rw [← hname, List.length_append, hp, Nat.add_sub_cancel_left]
      have hshort : name.length % 2 ^ 16 = name.length := by
        rw [← hlen]
        exact Nat.mod_eq_of_lt ((Nat.sub_le _ _).trans_lt (hok lq hmem).short)
      rw [← hentries] at hasc
      obtain ⟨hascBefore, hascRest, -⟩ := List.pairwise_append.mp hasc
      obtain ⟨hascList, hascTail, -⟩ := List.pairwise_append.mp (List.pairwise_cons.mp hascRest).2
      have hmem' (l) : l ∈ before.entries ∨ l ∈ list.entries ∨ l ∈ tail.entries →
          l ∈ locations.entries := by
        rw [← hentries]
        simpa [LocationLists.entries] using Or.imp_right Or.inr
      rw [createLocationsTree_entry pre hsplit, hdrop, hlen, hshort, ← hentries]
      refine find_node haround (hok lq hmem) hname ?_ ?_ ?_ rv
      · intro rv
        exact ihbefore (fun l hl => hok l (hmem' l (.inl hl))) hascBefore hbefore hp
          (fun l hl => hpre l (hmem' l (.inl hl))) uri rv
      · intro rv
        exact ihtail (fun l hl => hok l (hmem' l (.inr (.inr hl)))) hascTail htail hp
          (fun l hl => hpre l (hmem' l (.inr (.inr hl)))) uri rv
      · intro suffix rv huri
        have hlength : (p ++ name).length = pre + len := by
          rw [List.length_append, hp, ← hlen]
        have hinside (l) (hl : l ∈ list.entries) : p ++ name <+: l.name := by
          rw [hname]
          exact haround.list_inside l hl
        rw [huri, ← List.append_assoc, ← hlen]
        exact ihlist (fun l hl => hok l (hmem' l (.inr (.inl hl)))) hascList hlist hlength hinside
          suffix rv

end Tree

/-! ## What the configuration says -/

/-- A location that takes all requests that begin with its name. -/
def CoreLocConf.Inclusive (c : CoreLocConf N) : Prop :=
  ∃ noregex, c.kind = .inclusive noregex

def Unnamed (confs : List (CoreLocConf N)) (uri : List UInt8) : Prop :=
  ∀ c ∈ confs, c.part = 0 → c.name ≠ uri

/-- A request without the slash at the end is redirected to a location. -/
def Redirected (confs : List (CoreLocConf N)) (uri : List UInt8) : Prop :=
  ∃ c ∈ confs, c.part = 0 ∧ c.name = uri ++ [0x2f] ∧ c.autoRedirect = true

/-- The location of a request: the exact one of its name, the inclusive one of its name, the one
that it has to be redirected to, or the longest one that its name begins with. -/
inductive Chosen (confs : List (CoreLocConf N)) (uri : List UInt8) : LocationMatch N → Prop
  | exact {c} (hc : c ∈ confs) (hkind : c.kind = .exact) (hname : c.name = uri) :
    Chosen confs uri (.ok c)
  | inclusive {c} (hc : c ∈ confs) (hkind : c.Inclusive) (hname : c.name = uri)
    (hexact : ∀ c' ∈ confs, c'.kind = .exact → c'.name ≠ uri) : Chosen confs uri (.again c)
  | redirect {c} (hnamed : Unnamed confs uri) (hredirected : Redirected confs uri)
    (hc : c ∈ confs) (hpart : c.part = 0) (hname : c.name = uri ++ [0x2f])
    (hexact : c.kind = .exact ∨ ∀ c' ∈ confs, c'.kind = .exact → c'.name ≠ uri ++ [0x2f]) :
    Chosen confs uri (.done c)
  | longest {c} (hnamed : Unnamed confs uri) (hredirected : ¬ Redirected confs uri)
    (hc : c ∈ confs) (hkind : c.Inclusive) (hname : c.name <+: uri)
    (hlongest : ∀ c' ∈ confs, c'.Inclusive → c'.name <+: uri → c'.name <+: c.name) :
    Chosen confs uri (.again c)
  | declined (hnamed : Unnamed confs uri) (hredirected : ¬ Redirected confs uri)
    (houtside : ∀ c ∈ confs, c.Inclusive → ¬ c.name <+: uri) : Chosen confs uri .declined

section Chosen

variable {confs : List (CoreLocConf N)} {uri : List UInt8}
  {locations : List (LocationQueue N)}

theorem part_eq_zero_iff {c : CoreLocConf N} : c.part = 0 ↔ c.kind = .exact ∨ c.Inclusive := by
  rw [CoreLocConf.part, CoreLocConf.Inclusive]
  cases c.kind <;> simp

/-- The last of the entries that take a request is the one with the longest name. -/
theorem foldl_take (uri : List UInt8) (hasc : Ascending locations) (rv : LocationMatch N) :
    (∀ l ∈ locations, l.inclusive.isSome = true → ¬ l.name <+: uri) ∧
        locations.foldl (LocationQueue.take uri) rv = rv ∨
      ∃ l ∈ locations, ∃ c, l.inclusive = some c ∧ l.name <+: uri ∧
        locations.foldl (LocationQueue.take uri) rv = .again c ∧
        ∀ l' ∈ locations, l'.inclusive.isSome = true → l'.name <+: uri → l'.name <+: l.name := by
  induction locations generalizing rv with
  | nil => exact .inl ⟨nofun, rfl⟩
  | cons lq rest ih =>
      obtain ⟨hlq, hrest⟩ := List.pairwise_cons.mp hasc
      rcases ih hrest (lq.take uri rv) with ⟨hnone, hrv⟩ | ⟨l, hl, c, hc, hpre, hrv, hlongest⟩
      · by_cases htakes : lq.inclusive.isSome = true ∧ lq.name <+: uri
        · obtain ⟨c, hc⟩ := Option.isSome_iff_exists.mp htakes.1
          refine .inr ⟨lq, List.mem_cons_self, c, hc, htakes.2, ?_, ?_⟩
          · rw [List.foldl_cons, hrv, LocationQueue.take, hc]
            exact if_pos htakes.2
          · intro l' hl' hsome hpre
            rcases List.mem_cons.mp hl' with rfl | hl'
            · exact List.prefix_rfl
            · exact absurd hpre (hnone l' hl' hsome)
        · have hout : ∀ l ∈ lq :: rest, l.inclusive.isSome = true → ¬ l.name <+: uri :=
            List.forall_mem_cons.mpr ⟨fun hsome hpre => htakes ⟨hsome, hpre⟩, hnone⟩
          exact .inl ⟨hout, foldl_take_outside hout rv⟩
      · refine .inr ⟨l, List.mem_cons_of_mem _ hl, c, hc, hpre, hrv, ?_⟩
        refine List.forall_mem_cons.mpr ⟨fun _ hpre' => ?_, hlongest⟩
        rcases List.prefix_or_prefix_of_prefix hpre' hpre with h | h
        · exact h
        · have hup : UpTo SlashFirst l.name lq.name := .inl h
          rw [hup.antisymm (hlq l hl).1]

structure Joins (confs : List (CoreLocConf N)) (locations : List (LocationQueue N)) : Prop where
  ok : ∀ l ∈ locations, l.Ok
  ascending : Ascending locations
  mem_iff : ∀ c, c ∈ locations.flatMap LocationQueue.confs ↔ c ∈ confs ∧ c.part = 0

namespace Joins

variable (h : Joins confs locations)

include h

theorem mem {l : LocationQueue N} (hl : l ∈ locations) {c : CoreLocConf N} (hc : c ∈ l.confs) :
    c ∈ confs ∧ c.part = 0 :=
  (h.mem_iff c).mp (List.mem_flatMap.mpr ⟨l, hl, hc⟩)

theorem entry {c : CoreLocConf N} (hc : c ∈ confs) (hpart : c.part = 0) :
    ∃ l ∈ locations, l.name = c.name ∧ (c.kind = .exact → l.exact = some c) ∧
      (c.Inclusive → l.inclusive = some c) := by
  obtain ⟨l, hl, hcl⟩ := List.mem_flatMap.mp ((h.mem_iff c).mpr ⟨hc, hpart⟩)
  rcases List.mem_append.mp hcl with hcl | hcl
  · have hexact := Option.mem_toList.mp hcl
    obtain ⟨hkind, hname⟩ := (h.ok l hl).exact c hexact
    refine ⟨l, hl, hname.symm, fun _ => hexact, fun ⟨_, hi⟩ => ?_⟩
    rw [hkind] at hi
    cases hi
  · have hinclusive := Option.mem_toList.mp hcl
    obtain ⟨⟨_, hkind⟩, hname⟩ := (h.ok l hl).inclusive c hinclusive
    refine ⟨l, hl, hname.symm, fun he => ?_, fun _ => hinclusive⟩
    rw [hkind] at he
    cases he

theorem eq_of_name {l l' : LocationQueue N} (hl : l ∈ locations) (hl' : l' ∈ locations)
    (hname : l.name = l'.name) : l = l' := by
  have hnodup : (locations.map LocationQueue.name).Nodup :=
    List.pairwise_map.mpr (h.ascending.imp fun h => h.2)
  exact List.inj_on_of_nodup_map hnodup hl hl' hname

/-- When the entry of a name has no exact location, there is none of the name. -/
theorem no_exact {l : LocationQueue N} (hl : l ∈ locations) (hnone : l.exact = none) :
    ∀ c ∈ confs, c.kind = .exact → c.name ≠ l.name := by
  intro c hc hkind hname
  obtain ⟨l', hl', hname', hexact, -⟩ := h.entry hc (part_eq_zero_iff.mpr (.inl hkind))
  rw [h.eq_of_name hl' hl (hname'.trans hname), hnone] at hexact
  cases hexact hkind

theorem unnamed (hnone : ∀ l ∈ locations, l.name ≠ uri) : Unnamed confs uri := by
  intro c hc hpart hname
  obtain ⟨l, hl, hname', -⟩ := h.entry hc hpart
  exact hnone l hl (hname'.trans hname)

theorem redirected_iff :
    Redirected confs uri ↔ ∃ l ∈ locations, l.redirects uri = true := by
  constructor
  · rintro ⟨c, hc, hpart, hname, hslash⟩
    obtain ⟨l, hl, hname', hexact, hinclusive⟩ := h.entry hc hpart
    refine ⟨l, hl, ?_⟩
    rw [LocationQueue.redirects, Bool.and_eq_true, decide_eq_true_iff, LocationQueue.autoRedirect,
      Bool.or_eq_true, Option.any_eq_true, Option.any_eq_true]
    exact ⟨hname'.trans hname, (part_eq_zero_iff.mp hpart).imp (fun hk => ⟨c, hexact hk, hslash⟩)
      fun hk => ⟨c, hinclusive hk, hslash⟩⟩
  · rintro ⟨l, hl, hredirects⟩
    rw [LocationQueue.redirects, Bool.and_eq_true, decide_eq_true_iff, LocationQueue.autoRedirect,
      Bool.or_eq_true, Option.any_eq_true, Option.any_eq_true] at hredirects
    obtain ⟨hname, ⟨c, hc, hslash⟩ | ⟨c, hc, hslash⟩⟩ := hredirects
    · obtain ⟨hmem, hpart⟩ := h.mem hl (mem_confs.mpr (.inl hc))
      exact ⟨c, hmem, hpart, ((h.ok l hl).exact c hc).2.trans hname, hslash⟩
    · obtain ⟨hmem, hpart⟩ := h.mem hl (mem_confs.mpr (.inr hc))
      exact ⟨c, hmem, hpart, ((h.ok l hl).inclusive c hc).2.trans hname, hslash⟩

/-- The entry with the name of the request. -/
theorem chosen_hit {l : LocationQueue N} (hl : l ∈ locations) (hname : l.name = uri) :
    ∃ m, l.hit = some m ∧ Chosen confs uri m := by
  rw [LocationQueue.hit]
  cases hexact : l.exact with
  | some c =>
      obtain ⟨hkind, hc⟩ := (h.ok l hl).exact c hexact
      exact ⟨_, rfl, .exact (h.mem hl (mem_confs.mpr (.inl hexact))).1 hkind
        (hc.trans hname)⟩
  | none =>
      obtain ⟨c, hinclusive⟩ := Option.isSome_iff_exists.mp
        ((h.ok l hl).some.resolve_left (by rw [hexact]; exact Bool.false_ne_true))
      obtain ⟨hkind, hc⟩ := (h.ok l hl).inclusive c hinclusive
      have hnone := h.no_exact hl hexact
      rw [hname] at hnone
      exact ⟨.again c, by rw [hinclusive]; rfl,
        .inclusive (h.mem hl (mem_confs.mpr (.inr hinclusive))).1 hkind (hc.trans hname) hnone⟩

theorem chosen_redirect {l : LocationQueue N} (hl : l ∈ locations)
    (hnamed : Unnamed confs uri) (hredirects : l.redirects uri = true) :
    ∃ m, l.clcf.map .done = some m ∧ Chosen confs uri m := by
  have hredirected := h.redirected_iff.mpr ⟨l, hl, hredirects⟩
  have hname : l.name = uri ++ [0x2f] :=
    of_decide_eq_true (Bool.and_eq_true_iff.mp hredirects).1
  rw [LocationQueue.clcf]
  cases hexact : l.exact with
  | some c =>
      obtain ⟨hkind, hc⟩ := (h.ok l hl).exact c hexact
      obtain ⟨hmem, hpart⟩ := h.mem hl (mem_confs.mpr (.inl hexact))
      exact ⟨_, rfl, .redirect hnamed hredirected hmem hpart (hc.trans hname) (.inl hkind)⟩
  | none =>
      obtain ⟨c, hinclusive⟩ := Option.isSome_iff_exists.mp
        ((h.ok l hl).some.resolve_left (by rw [hexact]; exact Bool.false_ne_true))
      obtain ⟨-, hc⟩ := (h.ok l hl).inclusive c hinclusive
      obtain ⟨hmem, hpart⟩ := h.mem hl (mem_confs.mpr (.inr hinclusive))
      have hnone := h.no_exact hl hexact
      rw [hname] at hnone
      exact ⟨.done c, by rw [hinclusive]; rfl,
        .redirect hnamed hredirected hmem hpart (hc.trans hname) (.inr hnone)⟩

/-- The search through the entries of a tree finds what the configuration says. -/
theorem chosen : ∃ m, search locations uri .declined = some m ∧ Chosen confs uri m := by
  rw [search]
  cases hhit : locations.find? (fun lq => lq.name = uri) with
  | some l =>
      exact h.chosen_hit (List.mem_of_find?_eq_some hhit)
        (by simpa using List.find?_some hhit)
  | none =>
      have hnamed : Unnamed confs uri := h.unnamed fun l hl => by
        simpa using List.find?_eq_none.mp hhit l hl
      cases hslash : locations.find? (LocationQueue.redirects uri) with
      | some l =>
          exact h.chosen_redirect (List.mem_of_find?_eq_some hslash) hnamed
            (List.find?_some hslash)
      | none =>
          have hredirected : ¬ Redirected confs uri := fun hr => by
            obtain ⟨l, hl, hredirects⟩ := h.redirected_iff.mp hr
            exact List.find?_eq_none.mp hslash l hl hredirects
          have hinclusive {c : CoreLocConf N} (hc : c ∈ confs) (hkind : c.Inclusive) :
              ∃ l ∈ locations, l.name = c.name ∧ l.inclusive.isSome = true := by
            obtain ⟨l, hl, hname, -, hi⟩ := h.entry hc (part_eq_zero_iff.mpr (.inr hkind))
            exact ⟨l, hl, hname, by rw [hi hkind]; rfl⟩
          refine ⟨_, rfl, ?_⟩
          rcases foldl_take uri h.ascending .declined with
            ⟨hout, hrv⟩ | ⟨l, hl, c, hc, hpre, hrv, hlongest⟩
          · rw [hrv]
            refine .declined hnamed hredirected fun c hc hkind hpre => ?_
            obtain ⟨l, hl, hname, hsome⟩ := hinclusive hc hkind
            rw [← hname] at hpre
            exact hout l hl hsome hpre
          · rw [hrv]
            obtain ⟨hkind, hname⟩ := (h.ok l hl).inclusive c hc
            rw [← hname] at hpre
            refine .longest hnamed hredirected (h.mem hl (mem_confs.mpr (.inr hc))).1 hkind hpre
              fun c' hc' hkind' hpre' => ?_
            obtain ⟨l', hl', hname', hsome⟩ := hinclusive hc' hkind'
            rw [← hname'] at hpre'
            rw [hname, ← hname']
            exact hlongest l' hl' hsome hpre'

end Joins

theorem ofConf_ok {c : CoreLocConf N} (hpart : c.part = 0) (hwf : c.WellFormed) :
    (LocationQueue.ofConf c).Ok ∧ (LocationQueue.ofConf c).confs = [c] ∧
      (LocationQueue.ofConf c).exact.isSome = c.exactMatch := by
  rcases part_eq_zero_iff.mp hpart with hkind | ⟨noregex, hkind⟩
  · have hof : LocationQueue.ofConf c = ⟨some c, none, c.name⟩ :=
      if_pos (by rw [CoreLocConf.exactMatch, hkind]; rfl)
    have hconfs : (LocationQueue.ofConf c).confs = [c] := by rw [hof]; rfl
    refine ⟨⟨?_, ?_, ?_, ?_⟩, hconfs, ?_⟩
    · rw [hconfs]
      exact List.forall_mem_singleton.mpr hwf
    · rw [hof]
      rintro _ ⟨⟩
      exact ⟨hkind, rfl⟩
    · rw [hof]
      exact fun _ hnone => absurd hnone.symm (Option.some_ne_none _)
    · rw [hof]
      exact .inl rfl
    · rw [hof, CoreLocConf.exactMatch, hkind]
      rfl
  · have hof : LocationQueue.ofConf c = ⟨none, some c, c.name⟩ :=
      if_neg (by simp [CoreLocConf.exactMatch, CoreLocConf.regex, CoreLocConf.named,
        CoreLocConf.noname, hkind])
    have hconfs : (LocationQueue.ofConf c).confs = [c] := by rw [hof]; rfl
    refine ⟨⟨?_, ?_, ?_, ?_⟩, hconfs, ?_⟩
    · rw [hconfs]
      exact List.forall_mem_singleton.mpr hwf
    · rw [hof]
      exact fun _ hnone => absurd hnone.symm (Option.some_ne_none _)
    · rw [hof]
      rintro _ ⟨⟩
      exact ⟨⟨noregex, hkind⟩, rfl⟩
    · rw [hof]
      exact .inr rfl
    · rw [hof, CoreLocConf.exactMatch, hkind]
      rfl

theorem InPart.before {a b : CoreLocConf N} (h : InPart a b) (ha : a.part = 0) (hb : b.part = 0)
    (hwfa : a.WellFormed) (hwfb : b.WellFormed) :
    (LocationQueue.ofConf a).Before (.ofConf b) := by
  obtain ⟨hup, hfirst⟩ := h.1 ha
  have hexact := (ofConf_ok ha hwfa).2.2
  have hexact' := (ofConf_ok hb hwfb).2.2
  rw [LocationQueue.Before, ofConf_name, ofConf_name]
  refine ⟨hup, fun hname => ?_⟩
  rcases hfirst hname with hyes | hno
  · exact .inl (hexact.trans hyes)
  · right
    rw [hno] at hexact'
    exact Option.not_isSome_iff_eq_none.mp (Bool.eq_false_iff.mp hexact')

theorem partOf_zero (hwf : ∀ c ∈ confs, c.WellFormed) :
    (∀ l ∈ (partOf confs 0).map LocationQueue.ofConf, l.Ok) ∧
      ((partOf confs 0).map LocationQueue.ofConf).Pairwise LocationQueue.Before ∧
      ((partOf confs 0).map LocationQueue.ofConf).flatMap LocationQueue.confs =
        partOf confs 0 := by
  have hpart (c) (hc : c ∈ partOf confs 0) : c.part = 0 := (mem_partOf.mp hc).2
  have hwf' (c) (hc : c ∈ partOf confs 0) : c.WellFormed := hwf c (mem_partOf.mp hc).1
  refine ⟨?_, ?_, ?_⟩
  · intro l hl
    obtain ⟨c, hc, rfl⟩ := List.mem_map.mp hl
    exact (ofConf_ok (hpart c hc) (hwf' c hc)).1
  · rw [List.pairwise_map]
    refine ((sortedConfs_sorted hwf).filter _).imp_of_mem fun {a b} ha hb hab => ?_
    rcases (cmpConfs_le_iff (hwf' a ha) (hwf' b hb)).mp hab with hless | ⟨-, hturn⟩
    · rw [hpart a ha, hpart b hb] at hless
      exact absurd hless (Nat.lt_irrefl 0)
    · exact hturn.before (hpart a ha) (hpart b hb) (hwf' a ha) (hwf' b hb)
  · rw [List.flatMap_map]
    generalize partOf confs 0 = l at hpart hwf'
    induction l with
    | nil => rfl
    | cons c l ih =>
        obtain ⟨hc, hl⟩ := List.forall_mem_cons.mp hpart
        obtain ⟨hwfc, hwfl⟩ := List.forall_mem_cons.mp hwf'
        rw [List.flatMap_cons, (ofConf_ok hc hwfc).2.1, ih hl hwfl, List.singleton_append]

theorem noDuplicates_perm {l l' : List (CoreLocConf N)} (h : l.Perm l') :
    NoDuplicates l ↔ NoDuplicates l' :=
  h.pairwise_iff fun hne hsame => hne ⟨hsame.1.symm, hsame.2.symm⟩

theorem chosen_of_joined {joined : List (LocationQueue N)} (h : Joins confs joined)
    (uri : List UInt8) :
    ∃ m, ngxHttpCoreFindStaticLocation
        (ngxHttpCreateLocationsTree (ngxHttpCreateLocationsList joined) 0) uri .declined = some m ∧
      Chosen confs uri m := by
  have hentries := entries_createLocationsList joined
  have hok : ∀ l ∈ (ngxHttpCreateLocationsList joined).entries, l.Ok := by
    rw [hentries]
    exact h.ok
  have hasc : Ascending (ngxHttpCreateLocationsList joined).entries := by
    rw [hentries]
    exact h.ascending
  rw [find_createLocationsTree _ 0 hok hasc (nested_createLocationsList h.ok h.ascending)
    (p := []) rfl (fun _ _ => List.nil_prefix), hentries]
  exact h.chosen

/-- The tree of a queue is made when it has no location of the tree twice.  The search in it finds
for each request the location that the configuration says. -/
theorem staticTree_chosen (hwf : ∀ c ∈ confs, c.WellFormed) :
    ((∃ tree, staticTree (ngxHttpInitLocations (queueOf confs)).locations = .ok tree) ↔
        NoDuplicates (confs.filter fun c => c.part = 0)) ∧
      ∀ tree, staticTree (ngxHttpInitLocations (queueOf confs)).locations = .ok tree → ∀ uri,
        ∃ m, ngxHttpCoreFindStaticLocation tree uri .declined = some m ∧ Chosen confs uri m := by
  obtain ⟨hok, hbefore, hconfs⟩ := partOf_zero hwf
  have hperm : (partOf confs 0).Perm (confs.filter fun c => c.part = 0) :=
    (ngxQueueSort_perm _ confs).filter _
  rw [← noDuplicates_perm hperm, initLocations_eq hwf]
  dsimp only
  cases hparts : (partOf confs 0).map LocationQueue.ofConf with
  | nil =>
      rw [hparts, List.flatMap_nil] at hconfs
      rw [← hconfs]
      refine ⟨iff_of_true ⟨.null, rfl⟩ List.Pairwise.nil, ?_⟩
      rintro _ ⟨⟩ uri
      have hjoins : Joins confs [] := {
        ok := fun _ hl => absurd hl List.not_mem_nil
        ascending := List.Pairwise.nil
        mem_iff := fun c => by rw [← mem_partOf, ← hconfs, List.flatMap_nil] }
      exact hjoins.chosen
  | cons lq rest =>
      rw [hparts] at hok hbefore hconfs
      rw [← hconfs]
      refine ⟨⟨?_, ?_⟩, ?_⟩
      · rintro ⟨tree, htree⟩
        obtain ⟨joined, hjoined, -⟩ := Except.map_eq_ok.mp htree
        obtain ⟨hflat, hok', hasc, -⟩ := joinExactLocations_ok hok hbefore hjoined
        rw [← hflat]
        exact hasc.noDuplicates hok'
      · intro hno
        obtain ⟨joined, hjoined⟩ := joinExactLocations_of_noDuplicates hok hbefore hno
        refine ⟨ngxHttpCreateLocationsTree (ngxHttpCreateLocationsList joined) 0, ?_⟩
        rw [staticTree, hjoined]
        rfl
      · intro tree htree uri
        obtain ⟨joined, hjoined, rfl⟩ := Except.map_eq_ok.mp htree
        obtain ⟨hflat, hok', hasc, -⟩ := joinExactLocations_ok hok hbefore hjoined
        have hjoins : Joins confs joined := {
          ok := hok'
          ascending := hasc
          mem_iff := fun c => by rw [hflat, hconfs, mem_partOf] }
        exact chosen_of_joined hjoins uri

end Chosen

/-! ## Locations inside of locations -/

/-- The locations of a server, or inside of a location. -/
inductive Locations where
  | mk (confs : List (CoreLocConf Locations))

/-- `ngx_http_init_static_location_trees`, after `ngx_http_init_locations` has been in this queue
and in those inside of it.  The locations of regular expressions are not on the queue any more, so
that nothing is made of what is inside of them. -/
def ngxHttpInitStaticLocationTrees : Locations → Except (List UInt8) (LocationTree Locations)
  | .mk confs => do
    let locations := (ngxHttpInitLocations (queueOf confs)).locations
    locations.attach.forM fun lq =>
      match _hclcf : lq.1.clcf with
      | some clcf => (ngxHttpInitStaticLocationTrees clcf.locations).map fun _ => ()
      | none => .ok ()
    staticTree locations
  termination_by locations => locations
  decreasing_by
    have hmem := List.sizeOf_lt_of_mem (mem_of_locations lq.2 _hclcf)
    cases clcf
    simp only [CoreLocConf.mk.sizeOf_spec, Locations.mk.sizeOf_spec] at hmem ⊢
    omega

namespace Locations

/-- The locations, without those inside of them. -/
def confs : Locations → List (CoreLocConf Locations)
  | .mk confs => confs

inductive WellFormed : Locations → Prop
  | mk {confs} (here : ∀ c ∈ confs, c.WellFormed)
    (inside : ∀ c ∈ confs, c.locations.WellFormed) : WellFormed (.mk confs)

/-- No location of a tree is there twice, here or inside of a location of the tree. -/
inductive NoneTwice : Locations → Prop
  | mk {confs} (here : NoDuplicates (confs.filter fun c => c.part = 0))
    (inside : ∀ c ∈ confs, c.part = 0 → c.locations.NoneTwice) : NoneTwice (.mk confs)

end Locations

section Inside

/-- The locations that stay on the queue are those of the tree. -/
theorem mem_locations {confs : List (CoreLocConf N)} (hwf : ∀ c ∈ confs, c.WellFormed)
    {c : CoreLocConf N} :
    (∃ lq ∈ (ngxHttpInitLocations (queueOf confs)).locations, lq.clcf = some c) ↔
      c ∈ confs ∧ c.part = 0 := by
  rw [initLocations_eq hwf, ← mem_partOf]
  constructor
  · rintro ⟨lq, hlq, hclcf⟩
    obtain ⟨c', hc', rfl⟩ := List.mem_map.mp hlq
    rw [ofConf_clcf] at hclcf
    obtain rfl := Option.some.inj hclcf
    exact hc'
  · intro hc
    exact ⟨.ofConf c, List.mem_map_of_mem hc, ofConf_clcf c⟩

/-- A tree is made when one is made inside of each of its locations, and of the queue. -/
theorem initStaticLocationTrees_ok {confs : List (CoreLocConf Locations)}
    (hwf : ∀ c ∈ confs, c.WellFormed) {tree : LocationTree Locations} :
    ngxHttpInitStaticLocationTrees (.mk confs) = .ok tree ↔
      (∀ c ∈ confs, c.part = 0 → ∃ tree', ngxHttpInitStaticLocationTrees c.locations = .ok tree') ∧
        staticTree (ngxHttpInitLocations (queueOf confs)).locations = .ok tree := by
  rw [ngxHttpInitStaticLocationTrees, Except.bind_eq_ok]
  constructor
  · rintro ⟨⟨⟩, hloop, hqueue⟩
    refine ⟨fun c hc hpart => ?_, hqueue⟩
    obtain ⟨lq, hlq, hclcf⟩ := (mem_locations hwf).mpr ⟨hc, hpart⟩
    have hstep := Except.forM_eq_ok.mp hloop ⟨lq, hlq⟩ (List.mem_attach _ _)
    split at hstep
    · next clcf hclcf' =>
        rw [hclcf] at hclcf'
        obtain rfl := Option.some.inj hclcf'
        obtain ⟨tree', htree', -⟩ := Except.map_eq_ok.mp hstep
        exact ⟨tree', htree'⟩
    · next hnone =>
        rw [hclcf] at hnone
        cases hnone
  · rintro ⟨hinside, hqueue⟩
    refine ⟨(), Except.forM_eq_ok.mpr ?_, hqueue⟩
    intro lq _
    split
    · next clcf hclcf =>
        obtain ⟨hc, hpart⟩ := (mem_locations hwf).mp ⟨lq.1, lq.2, hclcf⟩
        obtain ⟨tree', htree'⟩ := hinside clcf hc hpart
        exact Except.map_eq_ok.mpr ⟨tree', htree', rfl⟩
    · rfl

/-- The configuration is taken when it has no location of a tree twice.  The search in a tree then
finds for each request the location that the configuration says, and there is a tree inside of
each location of the tree. -/
theorem staticLocations_chosen {locations : Locations} (hwf : locations.WellFormed) :
    ((∃ tree, ngxHttpInitStaticLocationTrees locations = .ok tree) ↔ locations.NoneTwice) ∧
      ∀ tree, ngxHttpInitStaticLocationTrees locations = .ok tree →
        (∀ c ∈ locations.confs, c.part = 0 →
          ∃ tree', ngxHttpInitStaticLocationTrees c.locations = .ok tree') ∧
        ∀ uri, ∃ m, ngxHttpCoreFindStaticLocation tree uri .declined = some m ∧
          Chosen locations.confs uri m := by
  induction hwf with
  | @mk confs here inside ih =>
      obtain ⟨htaken, hchosen⟩ := staticTree_chosen here
      refine ⟨⟨?_, ?_⟩, ?_⟩
      · rintro ⟨tree, htree⟩
        obtain ⟨hinside, hqueue⟩ := (initStaticLocationTrees_ok here).mp htree
        refine .mk (htaken.mp ⟨tree, hqueue⟩) ?_
        intro c hc hpart
        exact (ih c hc).1.mp (hinside c hc hpart)
      · rintro ⟨hno, hinside⟩
        obtain ⟨tree, hqueue⟩ := htaken.mpr hno
        refine ⟨tree, (initStaticLocationTrees_ok here).mpr ⟨?_, hqueue⟩⟩
        intro c hc hpart
        exact (ih c hc).1.mpr (hinside c hc hpart)
      · intro tree htree
        obtain ⟨hinside, hqueue⟩ := (initStaticLocationTrees_ok here).mp htree
        exact ⟨hinside, hchosen tree hqueue⟩

end Inside

def innerLocation : CoreLocConf Locations :=
  ⟨[0x2f, 0x61, 0x2f, 0x62], .inclusive false, false, .mk []⟩

def nestedLocations : Locations :=
  .mk [⟨[0x2f], .inclusive false, false, .mk []⟩, ⟨[0x2f, 0x61], .exact, false, .mk []⟩,
    ⟨[0x2f, 0x61, 0x2f], .inclusive false, true, .mk [innerLocation]⟩]

def twiceInside : Locations :=
  .mk [⟨[0x2f, 0x61], .inclusive false, false, .mk [innerLocation, innerLocation]⟩]

theorem wellFormed_nil : (Locations.mk []).WellFormed :=
  .mk (fun _ h => absurd h List.not_mem_nil) fun _ h => absurd h List.not_mem_nil

theorem noneTwice_nil : (Locations.mk []).NoneTwice :=
  .mk List.Pairwise.nil fun _ h => absurd h List.not_mem_nil

theorem innerLocation_wellFormed : innerLocation.WellFormed :=
  ⟨by decide, by decide, fun h => absurd h Bool.false_ne_true⟩

/-- The first configuration is taken and a request for `/a/bc` finds its location; the second one
is refused. -/
theorem staticLocations_chosen_nested :
    (∃ tree, ngxHttpInitStaticLocationTrees nestedLocations = .ok tree ∧
      ∃ m, ngxHttpCoreFindStaticLocation tree [0x2f, 0x61, 0x2f, 0x62, 0x63] .declined = some m ∧
        Chosen nestedLocations.confs [0x2f, 0x61, 0x2f, 0x62, 0x63] m) ∧
      ¬ ∃ tree, ngxHttpInitStaticLocationTrees twiceInside = .ok tree := by
  have hinner : (Locations.mk [innerLocation]).WellFormed :=
    .mk (List.forall_mem_singleton.mpr innerLocation_wellFormed)
      (List.forall_mem_singleton.mpr wellFormed_nil)
  have hnested : nestedLocations.WellFormed := by
    refine .mk ?_ ?_
    · simp only [List.forall_mem_cons]
      refine ⟨⟨by decide, by decide, by simp⟩, ⟨by decide, by decide, by simp⟩,
        ⟨by decide, by decide, fun _ => ⟨[0x2f, 0x61], rfl⟩⟩, fun _ h => absurd h List.not_mem_nil⟩
    · simp only [List.forall_mem_cons]
      exact ⟨wellFormed_nil, wellFormed_nil, hinner, fun _ h => absurd h List.not_mem_nil⟩
  have htwice : twiceInside.WellFormed := by
    refine .mk (List.forall_mem_singleton.mpr ⟨by decide, by decide, by simp⟩)
      (List.forall_mem_singleton.mpr (.mk ?_ ?_))
    · simp only [List.forall_mem_cons]
      exact ⟨innerLocation_wellFormed, innerLocation_wellFormed,
        fun _ h => absurd h List.not_mem_nil⟩
    · simp only [List.forall_mem_cons]
      exact ⟨wellFormed_nil, wellFormed_nil, fun _ h => absurd h List.not_mem_nil⟩
  constructor
  · obtain ⟨htaken, hchosen⟩ := staticLocations_chosen hnested
    obtain ⟨tree, htree⟩ := htaken.mpr (by
      refine .mk (by unfold NoDuplicates; decide) ?_
      simp only [List.forall_mem_cons]
      refine ⟨fun _ => noneTwice_nil, fun _ => noneTwice_nil, fun _ => ?_,
        fun _ h => absurd h List.not_mem_nil⟩
      refine .mk (by unfold NoDuplicates; decide) ?_
      exact List.forall_mem_singleton.mpr fun _ => noneTwice_nil)
    exact ⟨tree, htree, (hchosen tree htree).2 _⟩
  · intro htaken
    obtain ⟨-, hinside⟩ := (staticLocations_chosen htwice).1.mp htaken
    obtain ⟨hno, -⟩ := hinside _ List.mem_cons_self rfl
    revert hno
    unfold NoDuplicates
    decide

end MultiversionBalancer.Http
