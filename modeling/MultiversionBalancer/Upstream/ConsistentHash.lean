import Mathlib.Data.List.Sort
import Mathlib.Data.List.Nodup
import Mathlib.Data.UInt

/-!
# Consistent hashing

The points of `ngx_http_upstream_init_chash`, the search for the point of a key, and what
happens to the keys when a server is removed.  `crc32` is any function of its input, and
`qsort` any function that sorts.
-/

namespace MultiversionBalancer.Upstream

/-- A peer of the upstream: `peer->server` and `peer->weight`, which is not zero. -/
structure HashServer where
  name : List UInt8
  weight : ℕ
  positive : 0 < weight

structure ChashPoint where
  hash : UInt32
  server : List UInt8

/-- `ngx_tolower`. -/
def lower (c : UInt8) : UInt8 :=
  if 0x41 ≤ c ∧ c ≤ 0x5a then c ||| 0x20 else c

def unixPrefix : List UInt8 := [0x75, 0x6e, 0x69, 0x78, 0x3a]

/-- The host and the port of a server; the port is found from the end. -/
def hostPort (server : List UInt8) : List UInt8 × List UInt8 :=
  if 5 ≤ server.length ∧ (server.take 5).map lower = unixPrefix then (server.drop 5, [])
  else
    let digits := server.reverse.takeWhile fun c => decide (0x30 ≤ c ∧ c ≤ 0x39)
    if server.reverse[digits.length]? = some 0x3a then
      (server.take (server.length - digits.length - 1), server.drop (server.length - digits.length))
    else (server, [])

/-- The bytes of `prev_hash`, from the lowest on. -/
def hashBytes (hash : UInt32) : List UInt8 :=
  [hash.toUInt8, (hash >>> 8).toUInt8, (hash >>> 16).toUInt8, (hash >>> 24).toUInt8]

def serverPoints (crc32 : List UInt8 → UInt32) (server : List UInt8) :
    ℕ → UInt32 → List ChashPoint
  | 0, _ => []
  | n + 1, previous =>
      let hash := crc32 ((hostPort server).1 ++ [0] ++ (hostPort server).2 ++ hashBytes previous)
      ⟨hash, server⟩ :: serverPoints crc32 server n hash

/-- The points of all servers, before they are sorted. -/
def allPoints (crc32 : List UInt8 → UInt32) (servers : List HashServer) : List ChashPoint :=
  servers.flatMap fun s => serverPoints crc32 s.name (s.weight * 160) 0

/-- The loop that drops points with the hash of the point before; `n` rounds are left. -/
def dropEqual : ℕ → ℕ → ℕ → List ChashPoint → List ChashPoint × ℕ
  | 0, i, _, points => (points, i)
  | n + 1, i, j, points =>
      match points[i]?, points[j]? with
      | some a, some b =>
          if a.hash ≠ b.hash then dropEqual n (i + 1) (j + 1) (points.set (i + 1) b)
          else dropEqual n i (j + 1) points
      | _, _ => (points, i)

/-- `ngx_http_upstream_init_chash`; without a server there is no upstream. -/
def ngxHttpUpstreamInitChash (crc32 : List UInt8 → UInt32)
    (qsort : List ChashPoint → List ChashPoint) (servers : List HashServer) :
    Option (List ChashPoint) :=
  if servers = [] then none
  else
    let points := qsort (allPoints crc32 servers)
    let r := dropEqual (points.length - 1) 0 1 points
    some (r.1.take (r.2 + 1))

/-- The loop of `ngx_http_upstream_find_chash_point` between `i` and `j`. -/
def searchPoint (points : List ChashPoint) (hash : UInt32) (i j : ℕ) : ℕ :=
  if _h : i < j then
    match points[(i + j) / 2]? with
    | none => i
    | some point =>
        if point.hash < hash then searchPoint points hash ((i + j) / 2 + 1) j
        else if hash < point.hash then searchPoint points hash i ((i + j) / 2)
        else (i + j) / 2
  else i
termination_by j - i

def ngxHttpUpstreamFindChashPoint (points : List ChashPoint) (hash : UInt32) : ℕ :=
  searchPoint points hash 0 points.length

/-- The point of the first probe of `ngx_http_upstream_get_chash_peer` for a key with this
hash; `hp->hash` has 32 bits. -/
def firstProbe (points : List ChashPoint) (hash : UInt32) : Option ChashPoint :=
  points[ngxHttpUpstreamFindChashPoint points hash % 2 ^ 32 % points.length]?

/-! ## Points -/

theorem serverPoints_server {crc32 : List UInt8 → UInt32} {server : List UInt8} {n : ℕ}
    {previous : UInt32} {p : ChashPoint} (hp : p ∈ serverPoints crc32 server n previous) :
    p.server = server := by
  induction n generalizing previous with
  | zero => exact absurd hp List.not_mem_nil
  | succ n ih =>
      rcases List.mem_cons.mp hp with rfl | hp
      · rfl
      · exact ih hp

theorem serverPoints_length (crc32 : List UInt8 → UInt32) (server : List UInt8) (n : ℕ)
    (previous : UInt32) : (serverPoints crc32 server n previous).length = n := by
  induction n generalizing previous with
  | zero => rfl
  | succ n ih => rw [serverPoints, List.length_cons, ih]

/-- Two entries with one name have a point in common. -/
theorem names_nodup {crc32 : List UInt8 → UInt32} {servers : List HashServer}
    (hdistinct : ((allPoints crc32 servers).map ChashPoint.hash).Nodup) :
    (servers.map HashServer.name).Nodup := by
  induction servers with
  | nil => exact List.nodup_nil
  | cons s servers ih =>
      rw [allPoints, List.flatMap_cons, List.map_append, List.nodup_append] at hdistinct
      obtain ⟨-, hrest, hapart⟩ := hdistinct
      refine List.nodup_cons.mpr ⟨?_, ih hrest⟩
      intro hmem
      obtain ⟨t, ht, hname⟩ := List.mem_map.mp hmem
      have hfirst (u : HashServer) : crc32 ((hostPort u.name).1 ++ [0] ++ (hostPort u.name).2 ++
          hashBytes 0) ∈ (serverPoints crc32 u.name (u.weight * 160) 0).map ChashPoint.hash := by
        obtain ⟨n, hn⟩ : ∃ n, u.weight * 160 = n + 1 :=
          ⟨u.weight * 160 - 1, by have := u.positive; omega⟩
        rw [hn, serverPoints, List.map_cons]
        exact List.mem_cons_self
      have ht' := hfirst t
      rw [hname] at ht'
      refine hapart _ (hfirst s) _ ?_ rfl
      rw [← hname] at ht' ⊢
      obtain ⟨p, hp, hhash⟩ := List.mem_map.mp ht'
      exact List.mem_map.mpr ⟨p, List.mem_flatMap.mpr ⟨t, ht, hp⟩, hhash⟩

theorem countP_serverPoints_self (crc32 : List UInt8 → UInt32) (server : List UInt8) (n : ℕ) :
    (serverPoints crc32 server n 0).countP (fun p => p.server = server) = n := by
  rw [List.countP_eq_length.mpr fun p hp => decide_eq_true (serverPoints_server hp),
    serverPoints_length]

theorem countP_serverPoints_of_ne (crc32 : List UInt8 → UInt32) {server name : List UInt8}
    (hne : server ≠ name) (n : ℕ) :
    (serverPoints crc32 server n 0).countP (fun p => p.server = name) = 0 := by
  refine List.countP_eq_zero.mpr fun p hp => ?_
  rw [serverPoints_server hp]
  exact fun h => hne (of_decide_eq_true h)

/-- The points of a server are as many as its weight says. -/
theorem countP_allPoints (crc32 : List UInt8 → UInt32) {servers : List HashServer}
    (hnames : (servers.map HashServer.name).Nodup) {s : HashServer} (hs : s ∈ servers) :
    (allPoints crc32 servers).countP (fun p => p.server = s.name) = 160 * s.weight := by
  induction servers with
  | nil => exact absurd hs List.not_mem_nil
  | cons t servers ih =>
      obtain ⟨ht, hrest⟩ := List.nodup_cons.mp hnames
      have hskip (u : HashServer) (hu : ∀ v ∈ servers, v.name ≠ u.name) :
          (allPoints crc32 servers).countP (fun p => p.server = u.name) = 0 := by
        refine List.countP_eq_zero.mpr fun p hp => ?_
        obtain ⟨v, hv, hp⟩ := List.mem_flatMap.mp hp
        rw [serverPoints_server hp]
        exact fun h => hu v hv (of_decide_eq_true h)
      have hsplit : allPoints crc32 (t :: servers) =
          serverPoints crc32 t.name (t.weight * 160) 0 ++ allPoints crc32 servers := rfl
      rw [hsplit, List.countP_append]
      rcases List.mem_cons.mp hs with rfl | hs
      · rw [countP_serverPoints_self,
          hskip s fun v hv hname => ht (List.mem_map.mpr ⟨v, hv, hname⟩)]
        omega
      · have hne : t.name ≠ s.name := fun hname => ht (List.mem_map.mpr ⟨s, hs, hname.symm⟩)
        rw [countP_serverPoints_of_ne crc32 hne, ih hrest hs, Nat.zero_add]

/-! ## The order of the points -/

/-- The hashes get larger. -/
def Increasing (points : List ChashPoint) : Prop :=
  points.Pairwise fun a b => a.hash < b.hash

theorem dropEqual_of_increasing {points : List ChashPoint} (h : Increasing points) {n i : ℕ}
    (hn : i + n + 1 = points.length) : dropEqual n i (i + 1) points = (points, i + n) := by
  induction n generalizing i with
  | zero => rfl
  | succ n ih =>
      have hi : i < points.length := by omega
      have hj : i + 1 < points.length := by omega
      have hlt : points[i].hash < points[i + 1].hash :=
        List.pairwise_iff_getElem.mp h i (i + 1) hi hj (Nat.lt_succ_self i)
      rw [dropEqual, List.getElem?_eq_getElem hi, List.getElem?_eq_getElem hj]
      simp only
      rw [if_pos (UInt32.ne_of_lt hlt), List.set_getElem_self, ih (by omega)]
      exact congrArg (Prod.mk points) (by omega)

theorem Increasing.le_hash {points : List ChashPoint} (h : Increasing points) {k : ℕ}
    (hk : k < points.length) : k ≤ points[k].hash.toNat := by
  induction k with
  | zero => exact Nat.zero_le _
  | succ k ih =>
      have hk' : k < points.length := by omega
      have hlt : points[k].hash < points[k + 1].hash :=
        List.pairwise_iff_getElem.mp h k (k + 1) hk' hk (Nat.lt_succ_self k)
      have hle := ih hk'
      rw [UInt32.lt_iff_toNat_lt] at hlt
      omega

/-- `r` divides the points with a smaller hash from the others. -/
structure Divides (points : List ChashPoint) (hash : UInt32) (i j : ℕ) : Prop where
  below : ∀ k < i, ∀ p, points[k]? = some p → p.hash < hash
  above : ∀ k, j ≤ k → ∀ p, points[k]? = some p → hash ≤ p.hash

theorem searchPoint_spec {points : List ChashPoint} (h : Increasing points) {hash : UInt32}
    {i j : ℕ} (hdivides : Divides points hash i j) (hij : i ≤ j) (hj : j ≤ points.length) :
    Divides points hash (searchPoint points hash i j) (searchPoint points hash i j) ∧
      searchPoint points hash i j ≤ points.length := by
  have hless {k l : ℕ} {p q : ChashPoint} (hkl : k < l) (hp : points[k]? = some p)
      (hq : points[l]? = some q) : p.hash < q.hash := by
    obtain ⟨hk, rfl⟩ := List.getElem?_eq_some_iff.mp hp
    obtain ⟨hl, rfl⟩ := List.getElem?_eq_some_iff.mp hq
    exact List.pairwise_iff_getElem.mp h k l hk hl hkl
  fun_induction searchPoint points hash i j with
  | case1 i j hlt hnone =>
      rw [List.getElem?_eq_none_iff] at hnone
      omega
  | case2 i j hlt point hpoint hbelow ih =>
      refine ih ⟨?_, hdivides.above⟩ (by omega) hj
      intro k hk p hp
      by_cases hmid : k = (i + j) / 2
      · rw [hmid, hpoint] at hp
        rwa [← Option.some.inj hp]
      · exact UInt32.lt_trans (hless (by omega) hp hpoint) hbelow
  | case3 i j hlt point hpoint hbelow habove ih =>
      refine ih ⟨hdivides.below, ?_⟩ (by omega) (by omega)
      intro k hk p hp
      by_cases hmid : k = (i + j) / 2
      · rw [hmid, hpoint] at hp
        rw [← Option.some.inj hp]
        exact UInt32.le_of_lt habove
      · exact UInt32.le_of_lt (UInt32.lt_trans habove (hless (by omega) hpoint hp))
  | case4 i j hlt point hpoint hbelow habove =>
      have heq : point.hash = hash :=
        UInt32.le_antisymm (UInt32.not_lt.mp habove) (UInt32.not_lt.mp hbelow)
      refine ⟨⟨?_, ?_⟩, by omega⟩
      · intro k hk p hp
        rw [← heq]
        exact hless hk hp hpoint
      · intro k hk p hp
        by_cases hmid : k = (i + j) / 2
        · rw [hmid, hpoint] at hp
          rw [← Option.some.inj hp, heq]
          exact UInt32.le_refl hash
        · rw [← heq]
          exact UInt32.le_of_lt (hless (by omega) hpoint hp)
  | case5 i j hlt =>
      have hi : i = j := by omega
      rw [← hi] at hdivides
      exact ⟨hdivides, by omega⟩

section Search

variable {points : List ChashPoint} (h : Increasing points) (hash : UInt32)

include h

theorem findChashPoint_divides :
    Divides points hash (ngxHttpUpstreamFindChashPoint points hash)
      (ngxHttpUpstreamFindChashPoint points hash) ∧
      ngxHttpUpstreamFindChashPoint points hash ≤ points.length := by
  refine searchPoint_spec h ⟨fun k hk => absurd hk (Nat.not_lt_zero k), ?_⟩ (Nat.zero_le _)
    (Nat.le_refl _)
  intro k hk p hp
  rw [List.getElem?_eq_none hk] at hp
  exact absurd hp nofun

theorem findChashPoint_eq_countP :
    ngxHttpUpstreamFindChashPoint points hash = points.countP fun p => p.hash < hash := by
  obtain ⟨⟨hbelow, habove⟩, hle⟩ := findChashPoint_divides h hash
  generalize ngxHttpUpstreamFindChashPoint points hash = r at hbelow habove hle
  have htake : (points.take r).countP (fun p => p.hash < hash) = r := by
    rw [List.countP_eq_length.mpr, List.length_take, Nat.min_eq_left hle]
    intro p hp
    obtain ⟨k, hk⟩ := List.mem_iff_getElem?.mp hp
    rw [List.getElem?_take] at hk
    split at hk
    · next hlt => exact decide_eq_true (hbelow k hlt p hk)
    · exact absurd hk nofun
  have hdrop : (points.drop r).countP (fun p => p.hash < hash) = 0 := by
    refine List.countP_eq_zero.mpr fun p hp => ?_
    obtain ⟨k, hk⟩ := List.mem_iff_getElem?.mp hp
    rw [List.getElem?_drop] at hk
    have hge := habove (r + k) (Nat.le_add_right r k) p hk
    exact fun hlt => absurd (of_decide_eq_true hlt) (UInt32.not_lt.mpr hge)
  calc
    r = (points.take r).countP (fun p => p.hash < hash) +
        (points.drop r).countP (fun p => p.hash < hash) := by rw [htake, hdrop, Nat.add_zero]
    _ = points.countP fun p => p.hash < hash := by
      rw [← List.countP_append, List.take_append_drop]

theorem findChashPoint_lt : ngxHttpUpstreamFindChashPoint points hash < 2 ^ 32 := by
  obtain ⟨⟨hbelow, -⟩, hle⟩ := findChashPoint_divides h hash
  generalize ngxHttpUpstreamFindChashPoint points hash = r at hbelow hle
  cases r with
  | zero => decide
  | succ r =>
      have hr : r < points.length := by omega
      have hplace := h.le_hash hr
      have hless := hbelow r (Nat.lt_succ_self r) _ (List.getElem?_eq_getElem hr)
      rw [UInt32.lt_iff_toNat_lt] at hless
      have hbound := hash.toNat_lt
      omega

/-- The first probe takes the first point at or behind the hash, or else the first one. -/
theorem firstProbe_eq :
    firstProbe points hash = (points.find? fun p => hash ≤ p.hash).or points.head? := by
  obtain ⟨⟨hbelow, habove⟩, hle⟩ := findChashPoint_divides h hash
  have hsmall := findChashPoint_lt h hash
  rw [firstProbe, Nat.mod_eq_of_lt hsmall]
  generalize ngxHttpUpstreamFindChashPoint points hash = r at hbelow habove hle
  rcases Nat.lt_or_eq_of_le hle with hlt | heq
  · have hfind : (points.find? fun p => decide (hash ≤ p.hash)) = some points[r] := by
      refine List.find?_eq_some_iff_getElem.mpr ⟨?_, r, hlt, rfl, ?_⟩
      · exact decide_eq_true (habove r (Nat.le_refl r) _ (List.getElem?_eq_getElem hlt))
      · intro k hk
        have hless := hbelow k hk _ (List.getElem?_eq_getElem (hk.trans hlt))
        simpa using hless
    rw [hfind, Nat.mod_eq_of_lt hlt, List.getElem?_eq_getElem hlt]
    rfl
  · have hfind : (points.find? fun p => decide (hash ≤ p.hash)) = none := by
      refine List.find?_eq_none.mpr fun p hp => ?_
      obtain ⟨k, hk⟩ := List.mem_iff_getElem?.mp hp
      have hklt := (List.getElem?_eq_some_iff.mp hk).1
      rw [← heq] at hklt
      have hless := hbelow k hklt p hk
      simpa using hless
    rw [hfind, heq, Nat.mod_self, Option.none_or, List.head?_eq_getElem?]

end Search

/-! ## Servers -/

theorem firstProbe_filter {points : List ChashPoint} (h : Increasing points) {hash : UInt32}
    {p : ChashPoint} (hp : firstProbe points hash = some p) {q : ChashPoint → Bool}
    (hq : q p = true) : firstProbe (points.filter q) hash = some p := by
  rw [firstProbe_eq h] at hp
  rw [firstProbe_eq (List.Pairwise.filter q h), List.find?_filter]
  cases hfind : points.find? fun p => decide (hash ≤ p.hash) with
  | some a =>
      rw [hfind, Option.some_or] at hp
      obtain rfl := Option.some.inj hp
      obtain ⟨hpred, before, behind, rfl, hbefore⟩ := List.find?_eq_some_iff_append.mp hfind
      have hkept : ((before ++ a :: behind).find? fun p =>
          decide (q p = true ∧ decide (hash ≤ p.hash) = true)) = some a := by
        refine List.find?_eq_some_iff_append.mpr
          ⟨decide_eq_true ⟨hq, hpred⟩, before, behind, rfl, ?_⟩
        intro b hb
        have hnot := hbefore b hb
        rw [Bool.not_eq_true'] at hnot ⊢
        exact decide_eq_false fun hand => absurd (hnot.symm.trans hand.2) nofun
      rw [hkept, Option.some_or]
  | none =>
      have hkept : (points.find? fun p =>
          decide (q p = true ∧ decide (hash ≤ p.hash) = true)) = none := by
        refine List.find?_eq_none.mpr fun b hb => ?_
        have hnot := List.find?_eq_none.mp hfind b hb
        exact fun hand => hnot (of_decide_eq_true hand).2
      rw [hfind, Option.none_or] at hp
      rw [hkept, Option.none_or]
      obtain ⟨rest, rfl⟩ := List.head?_eq_some_iff.mp hp
      rw [List.filter_cons_of_pos hq, List.head?_cons]

section Init

variable {crc32 : List UInt8 → UInt32} {qsort : List ChashPoint → List ChashPoint}
  (hperm : ∀ points, (qsort points).Perm points)
  (hsort : ∀ points, (qsort points).Pairwise fun a b => a.hash ≤ b.hash)

include hperm hsort

theorem qsort_increasing {points : List ChashPoint}
    (hdistinct : (points.map ChashPoint.hash).Nodup) : Increasing (qsort points) := by
  have hnodup : ((qsort points).map ChashPoint.hash).Nodup :=
    ((hperm points).map ChashPoint.hash).nodup_iff.mpr hdistinct
  rw [List.Nodup, List.pairwise_map] at hnodup
  exact ((hsort points).and hnodup).imp fun hab => UInt32.lt_of_le_of_ne hab.1 hab.2

theorem initChash_eq {servers : List HashServer} (hne : servers ≠ [])
    (hdistinct : ((allPoints crc32 servers).map ChashPoint.hash).Nodup) :
    ngxHttpUpstreamInitChash crc32 qsort servers = some (qsort (allPoints crc32 servers)) := by
  have hincreasing := qsort_increasing hperm hsort hdistinct
  rw [ngxHttpUpstreamInitChash, if_neg hne]
  generalize hpoints : qsort (allPoints crc32 servers) = points at hincreasing
  cases points with
  | nil => rfl
  | cons p points =>
      have hlength : 0 + ((p :: points).length - 1) + 1 = (p :: points).length := by
        rw [List.length_cons]
        omega
      simp only
      rw [dropEqual_of_increasing hincreasing hlength, Nat.zero_add, List.take_of_length_le]
      exact Nat.le_of_eq (by rw [List.length_cons]; omega)

theorem qsort_filter {points : List ChashPoint} (q : ChashPoint → Bool)
    (hdistinct : (points.map ChashPoint.hash).Nodup) :
    qsort (points.filter q) = (qsort points).filter q := by
  have hkept : ((points.filter q).map ChashPoint.hash).Nodup :=
    hdistinct.sublist (List.filter_sublist.map ChashPoint.hash)
  have hsame : (qsort (points.filter q)).Perm ((qsort points).filter q) :=
    (hperm _).trans ((hperm points).filter q).symm
  refine hsame.eq_of_pairwise (fun a b _ _ hab hba => ?_)
    (qsort_increasing hperm hsort hkept)
    (List.Pairwise.filter q (qsort_increasing hperm hsort hdistinct))
  exact absurd hba (UInt32.lt_asymm hab)

omit hperm hsort in
theorem allPoints_eraseIdx {servers : List HashServer} {i : ℕ} {s : HashServer}
    (hnames : (servers.map HashServer.name).Nodup) (hs : servers[i]? = some s) :
    allPoints crc32 (servers.eraseIdx i) =
      (allPoints crc32 servers).filter fun p => p.server ≠ s.name := by
  have hkeep (t : HashServer) (hne : t.name ≠ s.name) :
      (serverPoints crc32 t.name (t.weight * 160) 0).filter (fun p => decide (p.server ≠ s.name)) =
        serverPoints crc32 t.name (t.weight * 160) 0 := by
    refine List.filter_eq_self.mpr fun p hp => ?_
    rw [serverPoints_server hp]
    exact decide_eq_true hne
  have hall (ts : List HashServer) (hts : ∀ t ∈ ts, t.name ≠ s.name) :
      (allPoints crc32 ts).filter (fun p => decide (p.server ≠ s.name)) = allPoints crc32 ts := by
    refine List.filter_eq_self.mpr fun p hp => ?_
    obtain ⟨t, ht, hp⟩ := List.mem_flatMap.mp hp
    rw [serverPoints_server hp]
    exact decide_eq_true (hts t ht)
  induction servers generalizing i with
  | nil => exact absurd hs nofun
  | cons t servers ih =>
      obtain ⟨ht, hrest⟩ := List.nodup_cons.mp hnames
      have hsplit (ts : List HashServer) : allPoints crc32 (t :: ts) =
          serverPoints crc32 t.name (t.weight * 160) 0 ++ allPoints crc32 ts := rfl
      cases i with
      | zero =>
          obtain rfl : t = s := Option.some.inj hs
          have hgone : (serverPoints crc32 t.name (t.weight * 160) 0).filter
              (fun p => decide (p.server ≠ t.name)) = [] := by
            refine List.filter_eq_nil_iff.mpr fun p hp => ?_
            rw [serverPoints_server hp]
            exact fun h => of_decide_eq_true h rfl
          rw [List.eraseIdx_zero, List.tail_cons, hsplit, List.filter_append, hgone,
            List.nil_append, hall servers fun u hu hname => ht (List.mem_map.mpr ⟨u, hu, hname⟩)]
      | succ i =>
          rw [List.getElem?_cons_succ] at hs
          have hne : t.name ≠ s.name := fun hname =>
            ht (List.mem_map.mpr ⟨s, List.mem_of_getElem? hs, hname.symm⟩)
          rw [List.eraseIdx_cons_succ, hsplit, hsplit, List.filter_append, hkeep t hne,
            ih hrest hs]

end Init

/-- Consistent hashing with distinct hashes: the order of the points, the search, the
shares of the servers, and the keys that stay when a server is removed. -/
theorem chash_consistent (crc32 : List UInt8 → UInt32)
    (qsort : List ChashPoint → List ChashPoint)
    (hperm : ∀ points, (qsort points).Perm points)
    (hsort : ∀ points, (qsort points).Pairwise fun a b => a.hash ≤ b.hash)
    (servers : List HashServer) (hne : servers ≠ [])
    (hdistinct : ((allPoints crc32 servers).map ChashPoint.hash).Nodup) :
    ∃ points, ngxHttpUpstreamInitChash crc32 qsort servers = some points ∧
      (points.Pairwise fun a b => a.hash < b.hash) ∧
      (∀ hash, ngxHttpUpstreamFindChashPoint points hash =
        points.countP fun p => p.hash < hash) ∧
      (∀ hash, firstProbe points hash =
        (points.find? fun p => hash ≤ p.hash).or points.head?) ∧
      (∀ s ∈ servers, points.countP (fun p => p.server = s.name) = 160 * s.weight) ∧
      ∀ i s, servers[i]? = some s → ∀ hash p, firstProbe points hash = some p →
        p.server ≠ s.name → ∃ points',
          ngxHttpUpstreamInitChash crc32 qsort (servers.eraseIdx i) = some points' ∧
            (firstProbe points' hash).map ChashPoint.server = some p.server := by
  have hnames := names_nodup hdistinct
  have hincreasing := qsort_increasing hperm hsort hdistinct
  refine ⟨_, initChash_eq hperm hsort hne hdistinct, hincreasing,
    findChashPoint_eq_countP hincreasing, firstProbe_eq hincreasing, ?_, ?_⟩
  · intro s hs
    rw [(hperm _).countP_eq]
    exact countP_allPoints crc32 hnames hs
  · intro i s hs hash p hp hserver
    have herase : allPoints crc32 (servers.eraseIdx i) =
        (allPoints crc32 servers).filter fun p => p.server ≠ s.name :=
      allPoints_eraseIdx hnames hs
    have hkept : ((allPoints crc32 (servers.eraseIdx i)).map ChashPoint.hash).Nodup := by
      rw [herase]
      exact hdistinct.sublist (List.filter_sublist.map ChashPoint.hash)
    have hprobe : firstProbe (qsort (allPoints crc32 (servers.eraseIdx i))) hash = some p := by
      rw [herase, qsort_filter hperm hsort _ hdistinct]
      exact firstProbe_filter hincreasing hp (decide_eq_true hserver)
    have hsome : servers.eraseIdx i ≠ [] := by
      intro hnil
      have hmem := List.mem_of_getElem? hprobe
      rw [(hperm _).mem_iff, hnil] at hmem
      exact absurd hmem List.not_mem_nil
    exact ⟨_, initChash_eq hperm hsort hsome hkept, congrArg (Option.map ChashPoint.server) hprobe⟩

/-- One bit of an entry of `ngx_crc32_table256`. -/
def crcBit (x : UInt32) : UInt32 :=
  if x &&& 1 = 1 then (x >>> 1) ^^^ 0xedb88320 else x >>> 1

/-- One byte of `ngx_crc32_update`. -/
def crcByte (crc : UInt32) (c : UInt8) : UInt32 :=
  Nat.iterate crcBit 8 ((crc ^^^ c.toUInt32) &&& 0xff) ^^^ (crc >>> 8)

/-- `ngx_crc32_init`, `ngx_crc32_update` and `ngx_crc32_final`. -/
def ngxCrc32 (bytes : List UInt8) : UInt32 :=
  bytes.foldl crcByte 0xffffffff ^^^ 0xffffffff

def sortPoints (points : List ChashPoint) : List ChashPoint :=
  points.mergeSort fun a b => decide (a.hash ≤ b.hash)

theorem sortPoints_pairwise (points : List ChashPoint) :
    (sortPoints points).Pairwise fun a b => a.hash ≤ b.hash := by
  refine (List.pairwise_mergeSort ?_ ?_ points).imp of_decide_eq_true
  · intro a b c hab hbc
    exact decide_eq_true (UInt32.le_trans (of_decide_eq_true hab) (of_decide_eq_true hbc))
  · intro a b
    rcases UInt32.le_total a.hash b.hash with hab | hba
    · rw [decide_eq_true hab, Bool.true_or]
    · rw [decide_eq_true hba, Bool.or_true]

section Evaluation

/-! The hashes of a server on numbers, in functions that the kernel evaluates at once. -/

def crcBitTest (x : ℕ) : ℕ :=
  bif Nat.beq (Nat.land x 1) 1 then Nat.xor (Nat.shiftRight x 1) 0xedb88320
  else Nat.shiftRight x 1

def crcByteTest (crc c : ℕ) : ℕ :=
  Nat.xor (Nat.iterate crcBitTest 8 (Nat.land (Nat.xor crc c) 0xff)) (Nat.shiftRight crc 8)

def crcTest (bytes : List ℕ) : ℕ :=
  Nat.xor (bytes.foldl crcByteTest 0xffffffff) 0xffffffff

/-- The hashes of `serverPoints` for the bytes in front of `prev_hash`. -/
def hashesTest (base : List ℕ) : ℕ → ℕ → List ℕ
  | 0, _ => []
  | n + 1, previous =>
      let hash := crcTest (base ++ [Nat.mod previous 0x100,
        Nat.mod (Nat.shiftRight previous 8) 0x100, Nat.mod (Nat.shiftRight previous 16) 0x100,
        Nat.mod (Nat.shiftRight previous 24) 0x100])
      hash :: hashesTest base n hash

/-- No two numbers have the same remainder; `seen` has the bits of the remainders so far. -/
def remaindersFresh (m : ℕ) : ℕ → List ℕ → Bool
  | _, [] => true
  | seen, x :: xs =>
      !seen.testBit (x % m) && remaindersFresh m (seen ||| 2 ^ (x % m)) xs

theorem nodup_of_remaindersFresh {m seen : ℕ} {xs : List ℕ}
    (h : remaindersFresh m seen xs = true) :
    xs.Nodup ∧ ∀ x ∈ xs, seen.testBit (x % m) = false := by
  induction xs generalizing seen with
  | nil => exact ⟨List.nodup_nil, nofun⟩
  | cons x xs ih =>
      rw [remaindersFresh, Bool.and_eq_true, Bool.not_eq_true'] at h
      obtain ⟨hnodup, hunseen⟩ := ih h.2
      have hrest : ∀ y ∈ xs, seen.testBit (y % m) = false ∧ y % m ≠ x % m := by
        intro y hy
        have hbit := hunseen y hy
        rw [Nat.testBit_or, Bool.or_eq_false_iff, Nat.testBit_two_pow] at hbit
        exact ⟨hbit.1, fun heq => of_decide_eq_false hbit.2 heq.symm⟩
      constructor
      · exact List.nodup_cons.mpr ⟨fun hx => (hrest x hx).2 rfl, hnodup⟩
      · exact List.forall_mem_cons.mpr ⟨h.1, fun y hy => (hrest y hy).1⟩

theorem crcBit_toNat (x : UInt32) : (crcBit x).toNat = crcBitTest x.toNat := by
  have hodd : (x &&& 1 = 1) ↔ Nat.beq (Nat.land x.toNat 1) 1 = true := by
    rw [Nat.beq_eq, ← UInt32.toNat_inj, UInt32.toNat_and]
    rfl
  have hshift : (x >>> 1).toNat = Nat.shiftRight x.toNat 1 := by
    rw [UInt32.toNat_shiftRight]
    rfl
  unfold crcBit crcBitTest
  by_cases h : x &&& 1 = 1
  · rw [if_pos h, hodd.mp h, cond_true, UInt32.toNat_xor, hshift]
    rfl
  · rw [if_neg h, Bool.eq_false_iff.mpr fun heq => h (hodd.mpr heq), cond_false, hshift]

theorem crcByte_toNat (crc : UInt32) (c : UInt8) :
    (crcByte crc c).toNat = crcByteTest crc.toNat c.toNat := by
  have hiterate : ∀ (n : ℕ) (x : UInt32),
      (Nat.iterate crcBit n x).toNat = Nat.iterate crcBitTest n x.toNat := by
    intro n
    induction n with
    | zero => exact fun _ => rfl
    | succ n ih =>
        intro x
        rw [Function.iterate_succ_apply, ih, crcBit_toNat, Function.iterate_succ_apply]
  rw [crcByte, UInt32.toNat_xor, hiterate, UInt32.toNat_and, UInt32.toNat_xor,
    UInt32.toNat_shiftRight, UInt8.toNat_toUInt32]
  rfl

theorem ngxCrc32_toNat (bytes : List UInt8) :
    (ngxCrc32 bytes).toNat = crcTest (bytes.map UInt8.toNat) := by
  have hfold : ∀ crc : UInt32, (bytes.foldl crcByte crc).toNat =
      (bytes.map UInt8.toNat).foldl crcByteTest crc.toNat := by
    induction bytes with
    | nil => exact fun _ => rfl
    | cons c bytes ih =>
        intro crc
        rw [List.foldl_cons, ih, crcByte_toNat, List.map_cons, List.foldl_cons]
  rw [ngxCrc32, UInt32.toNat_xor, hfold]
  rfl

theorem serverPoints_toNat (server : List UInt8) (n : ℕ) (previous : UInt32) :
    (serverPoints ngxCrc32 server n previous).map (fun p => p.hash.toNat) =
      hashesTest (((hostPort server).1 ++ [0] ++ (hostPort server).2).map UInt8.toNat) n
        previous.toNat := by
  have hbytes : ∀ hash : UInt32, (hashBytes hash).map UInt8.toNat =
      [Nat.mod hash.toNat 0x100, Nat.mod (Nat.shiftRight hash.toNat 8) 0x100,
        Nat.mod (Nat.shiftRight hash.toNat 16) 0x100,
        Nat.mod (Nat.shiftRight hash.toNat 24) 0x100] := by
    intro hash
    simp only [hashBytes, List.map_cons, List.map_nil, UInt32.toNat_toUInt8,
      UInt32.toNat_shiftRight]
    rfl
  induction n generalizing previous with
  | zero => rfl
  | succ n ih =>
      rw [serverPoints, List.map_cons, ih, ngxCrc32_toNat, List.map_append, hbytes]
      rfl

set_option maxRecDepth 100000

def twoServers : List HashServer :=
  [⟨[0x61], 1, Nat.one_pos⟩, ⟨[0x62], 1, Nat.one_pos⟩]

theorem twoServers_distinct : ((allPoints ngxCrc32 twoServers).map ChashPoint.hash).Nodup := by
  refine List.Nodup.of_map UInt32.toNat ?_
  have hpoints : allPoints ngxCrc32 twoServers =
      serverPoints ngxCrc32 [0x61] 160 0 ++ serverPoints ngxCrc32 [0x62] 160 0 := by
    simp only [allPoints, twoServers, List.flatMap_cons, List.flatMap_nil, List.append_nil,
      Nat.one_mul]
  rw [hpoints, List.map_map, List.map_append]
  refine (congrArg List.Nodup (congrArg₂ (· ++ ·) (serverPoints_toNat _ _ _)
    (serverPoints_toNat _ _ _))).mpr ?_
  exact (@nodup_of_remaindersFresh 6911 0 _ (by decide +kernel)).1

/-- Each server has its 160 points, and the key with the hash 0 keeps its server when the other
one is removed. -/
theorem chash_consistent_two :
    ∃ points, ngxHttpUpstreamInitChash ngxCrc32 sortPoints twoServers = some points ∧
      points.countP (fun p => p.server = [0x61]) = 160 ∧
      points.countP (fun p => p.server = [0x62]) = 160 ∧
      ∃ p i points', firstProbe points 0 = some p ∧ i < 2 ∧
        ngxHttpUpstreamInitChash ngxCrc32 sortPoints (twoServers.eraseIdx i) = some points' ∧
        (firstProbe points' 0).map ChashPoint.server = some p.server := by
  obtain ⟨points, hinit, -, -, hprobe, hshare, hremove⟩ := chash_consistent ngxCrc32 sortPoints
    (fun points => List.mergeSort_perm points _) sortPoints_pairwise twoServers
    (List.cons_ne_nil _ _) twoServers_distinct
  have hfirst : points.countP (fun p => p.server = [0x61]) = 160 := hshare _ List.mem_cons_self
  have hsecond : points.countP (fun p => p.server = [0x62]) = 160 :=
    hshare _ (List.mem_cons_of_mem _ List.mem_cons_self)
  obtain ⟨p, hp⟩ : ∃ p, firstProbe points 0 = some p := by
    cases points with
    | nil => cases hfirst
    | cons p points =>
        rw [hprobe, ← Option.isSome_iff_exists, List.head?_cons, Option.isSome_or]
        exact Bool.or_true _
  refine ⟨points, hinit, hfirst, hsecond, ?_⟩
  by_cases hserver : p.server = [0x61]
  · have hother : p.server ≠ [0x62] := by rw [hserver]; decide
    obtain ⟨points', hinit', hkept⟩ := hremove 1 _ rfl 0 p hp hother
    exact ⟨p, 1, points', hp, by decide, hinit', hkept⟩
  · obtain ⟨points', hinit', hkept⟩ := hremove 0 _ rfl 0 p hp hserver
    exact ⟨p, 0, points', hp, by decide, hinit', hkept⟩

end Evaluation

end MultiversionBalancer.Upstream
