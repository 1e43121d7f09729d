import MultiversionBalancer.Lib.Queue
import Mathlib.Data.List.Perm.Basic
import Mathlib.Data.List.Perm.Subperm
import Mathlib.Data.List.Range
import Mathlib.Data.Set.List
import Mathlib.Data.Set.Insert

/-!
# The cache of keepalive connections

`ngx_http_upstream_keepalive_module.c`: items go between the queues `cache` and `free`
when a request gets a peer, when it gives it back, and when a cached connection is closed.
A connection is a number.  What the balancer, the socket and the request say is given with
each event; `none` is a pointer that leads nowhere.
-/

namespace MultiversionBalancer.Upstream

open Lib

/-- The links of `kcf->cache`, of `kcf->free` and of the items. -/
inductive KeepaliveLink where
  | cache
  | free
  | item (i : ℕ)
  deriving DecidableEq

/-- `ngx_http_upstream_keepalive_cache_t`; `stamp` counts the connections stored before. -/
structure KeepaliveItem where
  connection : ℕ
  sockaddr : List UInt8
  stamp : ℕ

/-- The part of `ngx_peer_connection_t` of a request. -/
structure PeerConnection where
  connection : Option ℕ
  sockaddr : List UInt8

/-- The cache with the requests that use it.  `data` is `c->data` of a cached connection,
`fresh` the next new connection, `closed` the connections closed by the cache, and `freed`
the number of calls of the original hook.  `storedFor` is the address that a connection has
last been stored for. -/
structure Keepalive where
  links : Links KeepaliveLink
  items : ℕ → KeepaliveItem
  data : ℕ → Option ℕ
  peers : ℕ → PeerConnection
  fresh : ℕ
  closed : List ℕ
  freed : ℕ
  clock : ℕ
  storedFor : ℕ → Option (List UInt8)

/-- What the close handler finds: `c->close`, `c->read->timedout`, the result of `recv`
and the one of `ngx_handle_read_event`. -/
structure CloseInput where
  close : Bool
  timedout : Bool
  again : Bool
  handled : Bool

/-- What the hook for a peer that is given back finds. -/
structure FreeInput where
  failed : Bool
  readEof : Bool
  readError : Bool
  readTimedout : Bool
  writeError : Bool
  writeTimedout : Bool
  requests : ℕ
  startTime : ℕ
  now : ℕ
  keepalive : Bool
  requestBodySent : Bool
  exiting : Bool
  handled : Bool
  ready : Bool
  close : CloseInput

/-- `keepalive_requests` and `keepalive_time`. -/
structure KeepaliveConf where
  requests : ℕ
  time : ℕ

namespace Keepalive

def init (max : ℕ) : Keepalive where
  links := (List.range max).foldl (fun l i => l.insertHead .free (.item i))
    (((⟨fun a => a, fun a => a⟩ : Links KeepaliveLink).init .cache).init .free)
  items := fun _ => ⟨0, [], 0⟩
  data := fun _ => none
  peers := fun _ => ⟨none, []⟩
  fresh := 0
  closed := []
  freed := 0
  clock := 0
  storedFor := fun _ => none

def setPeer (s : Keepalive) (r : ℕ) (pc : PeerConnection) : Keepalive :=
  { s with peers := Function.update s.peers r pc }

/-- `ngx_queue_data` for an item. -/
def itemOf : KeepaliveLink → Option ℕ
  | .item i => some i
  | _ => none

/-- `ngx_http_upstream_get_keepalive_peer`; `answer` is the peer of the balancer. -/
def ngxHttpUpstreamGetKeepalivePeer (max : ℕ) (s : Keepalive) (r : ℕ)
    (answer : Option (List UInt8)) : Option Keepalive :=
  match answer with
  | none => some s
  | some sockaddr =>
      let s := s.setPeer r ⟨none, sockaddr⟩
      (s.links.elements .cache max (s.links.next .cache)).bind fun links =>
        (links.mapM itemOf).bind fun items =>
          match items.find? fun i => (s.items i).sockaddr == sockaddr with
          | none => some s
          | some i =>
              let c := (s.items i).connection
              let s := { s with
                links := (s.links.remove (.item i)).insertHead .free (.item i)
                data := Function.update s.data c none }
              some (s.setPeer r ⟨some c, sockaddr⟩)

def ngxHttpUpstreamKeepaliveClose (s : Keepalive) (c : ℕ) : Keepalive :=
  { s with closed := c :: s.closed, data := Function.update s.data c none }

def ngxHttpUpstreamKeepaliveCloseHandler (s : Keepalive) (c : ℕ) (input : CloseInput) :
    Option Keepalive :=
  if ¬(input.close ∨ input.timedout) ∧ input.again ∧ input.handled then some s
  else
    (s.data c).map fun i =>
      let s := s.ngxHttpUpstreamKeepaliveClose c
      { s with links := (s.links.remove (.item i)).insertHead .free (.item i) }

/-- Whether the connection of a peer that is given back is stored. -/
def storable (conf : KeepaliveConf) (input : FreeInput) : Bool :=
  !(input.failed || input.readEof || input.readError || input.readTimedout ||
      input.writeError || input.writeTimedout) &&
    decide (input.requests < conf.requests) &&
    decide (input.now - input.startTime ≤ conf.time) &&
    input.keepalive && input.requestBodySent && !input.exiting && input.handled

/-- The item for a connection that is stored: a free one, or the last one of the cache,
whose connection is closed. -/
def takeItem (s : Keepalive) : Option (ℕ × Keepalive) :=
  if s.links.next .free = .free then
    (itemOf (s.links.prev .cache)).map fun i =>
      let s := { s with links := s.links.remove (.item i) }
      (i, s.ngxHttpUpstreamKeepaliveClose (s.items i).connection)
  else
    (itemOf (s.links.next .free)).map fun i =>
      (i, { s with links := s.links.remove (.item i) })

/-- The connection `c` of a request is stored. -/
def store (s : Keepalive) (r c : ℕ) (input : FreeInput) : Option Keepalive :=
  s.takeItem.bind fun (i, s) =>
    let sockaddr := (s.peers r).sockaddr
    let s := { s with
      links := s.links.insertHead .cache (.item i)
      items := Function.update s.items i ⟨c, sockaddr, s.clock⟩
      data := Function.update s.data c (some i)
      clock := s.clock + 1
      storedFor := Function.update s.storedFor c (some sockaddr) }
    let s := s.setPeer r ⟨none, sockaddr⟩
    if input.ready then s.ngxHttpUpstreamKeepaliveCloseHandler c input.close else some s

def ngxHttpUpstreamFreeKeepalivePeer (conf : KeepaliveConf) (s : Keepalive) (r : ℕ)
    (input : FreeInput) : Option Keepalive :=
  let stored : Option Keepalive :=
    match (s.peers r).connection with
    | none => some s
    | some c => if storable conf input then s.store r c input else some s
  stored.map fun s => { s with freed := s.freed + 1 }

/-- What happens: a request gets a peer, connects to it, gives it back, or drops its
connection; or there is an event for a connection. -/
inductive Event where
  | get (r : ℕ) (answer : Option (List UInt8))
  | connect (r : ℕ)
  | free (r : ℕ) (input : FreeInput)
  | drop (r : ℕ)
  | close (c : ℕ) (input : CloseInput)

/-- One event.  The close handler is only called for cached connections. -/
def step (max : ℕ) (conf : KeepaliveConf) (s : Keepalive) : Event → Option Keepalive
  | .get r answer => s.ngxHttpUpstreamGetKeepalivePeer max r answer
  | .connect r =>
      match (s.peers r).connection with
      | some _ => some s
      | none =>
          let s' := s.setPeer r ⟨some s.fresh, (s.peers r).sockaddr⟩
          some { s' with fresh := s.fresh + 1 }
  | .free r input => s.ngxHttpUpstreamFreeKeepalivePeer conf r input
  | .drop r => some (s.setPeer r ⟨none, (s.peers r).sockaddr⟩)
  | .close c input =>
      if (s.data c).isSome then s.ngxHttpUpstreamKeepaliveCloseHandler c input else some s

def run (max : ℕ) (conf : KeepaliveConf) (s : Keepalive) (events : List Event) :
    Option Keepalive :=
  events.foldlM (step max conf) s

/-! ## Queues -/

/-- The elements of the two queues. -/
def lists (cache free : List ℕ) : KeepaliveLink → List KeepaliveLink
  | .cache => cache.map .item
  | .free => free.map .item
  | .item _ => []

theorem lists_update_cache (cache cache' free : List ℕ) :
    Function.update (lists cache free) .cache (cache'.map .item) = lists cache' free := by
  funext a
  cases a <;> simp [Function.update, lists]

theorem lists_update_free (cache free free' : List ℕ) :
    Function.update (lists cache free) .free (free'.map .item) = lists cache free' := by
  funext a
  cases a <;> simp [Function.update, lists]

/-- The queues `cache` and `free` hold the items of two lists. -/
def Holds (l : Links KeepaliveLink) (cache free : List ℕ) : Prop :=
  Queues l {.cache, .free} (lists cache free)

section Holds

variable {l : Links KeepaliveLink} {cache free : List ℕ} {i : ℕ}

theorem item_injective : Function.Injective KeepaliveLink.item :=
  fun _ _ h => KeepaliveLink.item.inj h

theorem Holds.removeCache (h : Holds l cache free) (hi : i ∈ cache) :
    Holds (l.remove (.item i)) (cache.erase i) free ∧
      FreeLink {.cache, .free} (lists (cache.erase i) free) (.item i) := by
  have hremove := Queues.remove h (h := .cache) (x := .item i) (.inl rfl)
    (List.mem_map_of_mem hi)
  have hlists : (lists cache free .cache).erase (.item i) = (cache.erase i).map .item :=
    (List.map_erase item_injective cache).symm
  rwa [hlists, lists_update_cache] at hremove

theorem Holds.removeFree (h : Holds l cache free) (hi : i ∈ free) :
    Holds (l.remove (.item i)) cache (free.erase i) ∧
      FreeLink {.cache, .free} (lists cache (free.erase i)) (.item i) := by
  have hremove := Queues.remove h (h := .free) (x := .item i) (.inr rfl)
    (List.mem_map_of_mem hi)
  have hlists : (lists cache free .free).erase (.item i) = (free.erase i).map .item :=
    (List.map_erase item_injective free).symm
  rwa [hlists, lists_update_free] at hremove

theorem Holds.insertCache (h : Holds l cache free)
    (hi : FreeLink {.cache, .free} (lists cache free) (.item i)) :
    Holds (l.insertHead .cache (.item i)) (i :: cache) free := by
  have hinsert := Queues.insertHead h (h := .cache) (.inl rfl) hi
  have hlists : KeepaliveLink.item i :: lists cache free .cache = (i :: cache).map .item := rfl
  rwa [hlists, lists_update_cache] at hinsert

theorem Holds.insertFree (h : Holds l cache free)
    (hi : FreeLink {.cache, .free} (lists cache free) (.item i)) :
    Holds (l.insertHead .free (.item i)) cache (i :: free) := by
  have hinsert := Queues.insertHead h (h := .free) (.inr rfl) hi
  have hlists : KeepaliveLink.item i :: lists cache free .free = (i :: free).map .item := rfl
  rwa [hlists, lists_update_free] at hinsert

theorem Holds.cacheQueue (h : Holds l cache free) : IsQueue l .cache (cache.map .item) :=
  h.queue .cache (.inl rfl)

theorem Holds.freeQueue (h : Holds l cache free) : IsQueue l .free (free.map .item) :=
  h.queue .free (.inr rfl)

theorem mapM_itemOf (items : List ℕ) : (items.map KeepaliveLink.item).mapM itemOf = some items := by
  induction items with
  | nil => rfl
  | cons i items ih => simp [List.mapM_cons, itemOf, ih]

end Holds

/-! ## The invariant -/

/-- What holds of the cache.  The items of `taken` are in neither queue. -/
structure Sound (max : ℕ) (s : Keepalive) (taken cache free : List ℕ) : Prop where
  holds : Holds s.links cache free
  perm : (taken ++ cache ++ free).Perm (List.range max)
  cached : ∀ i ∈ cache, s.data (s.items i).connection = some i
  data : ∀ c i, s.data c = some i → i ∈ cache ∧ (s.items i).connection = c
  opened : ∀ i ∈ cache, (s.items i).connection < s.fresh ∧ (s.items i).connection ∉ s.closed
  stored : ∀ i ∈ cache, s.storedFor (s.items i).connection = some (s.items i).sockaddr
  used : ∀ r c, (s.peers r).connection = some c → s.data c = none ∧ c < s.fresh ∧ c ∉ s.closed
  alone : ∀ r r' c, (s.peers r).connection = some c → (s.peers r').connection = some c → r = r'
  order : cache.Pairwise fun i j => (s.items j).stamp < (s.items i).stamp
  clock : ∀ i ∈ cache, (s.items i).stamp < s.clock
  past : ∀ c ∈ s.closed, c < s.fresh

section Sound

variable {max : ℕ} {s : Keepalive} {taken cache free : List ℕ}

theorem Sound.nodup (h : Sound max s taken cache free) : (taken ++ cache ++ free).Nodup :=
  h.perm.nodup_iff.mpr List.nodup_range

theorem Sound.cache_nodup (h : Sound max s taken cache free) : cache.Nodup :=
  (h.nodup.sublist (List.sublist_append_left _ _)).sublist (List.sublist_append_right _ _)

/-- A request has no connection any more. -/
theorem Sound.setPeer_none (h : Sound max s taken cache free) (r : ℕ) (sockaddr : List UInt8) :
    Sound max (s.setPeer r ⟨none, sockaddr⟩) taken cache free := by
  have hother (r' c : ℕ) (hc : ((s.setPeer r ⟨none, sockaddr⟩).peers r').connection = some c) :
      (s.peers r').connection = some c := by
    simp only [setPeer] at hc
    by_cases hr : r' = r
    · rw [hr, Function.update_self] at hc
      exact absurd hc nofun
    · rwa [Function.update_of_ne hr] at hc
  refine ⟨h.holds, h.perm, h.cached, h.data, h.opened, h.stored, ?_, ?_, h.order, h.clock, h.past⟩
  · exact fun r' c hc => h.used r' c (hother r' c hc)
  · exact fun r₁ r₂ c h₁ h₂ => h.alone r₁ r₂ c (hother r₁ c h₁) (hother r₂ c h₂)

/-- A request gets a connection that is open, not cached and not used. -/
theorem Sound.setPeer_some (h : Sound max s taken cache free) (r : ℕ) (sockaddr : List UInt8)
    {c : ℕ} (hdata : s.data c = none) (hfresh : c < s.fresh) (hclosed : c ∉ s.closed)
    (hunused : ∀ r', (s.peers r').connection ≠ some c) :
    Sound max (s.setPeer r ⟨some c, sockaddr⟩) taken cache free := by
  have hcases (r' c' : ℕ)
      (hc : ((s.setPeer r ⟨some c, sockaddr⟩).peers r').connection = some c') :
      (r' = r ∧ c' = c) ∨ (s.peers r').connection = some c' := by
    simp only [setPeer] at hc
    by_cases hr : r' = r
    · rw [hr, Function.update_self] at hc
      exact .inl ⟨hr, (Option.some.inj hc).symm⟩
    · rw [Function.update_of_ne hr] at hc
      exact .inr hc
  refine ⟨h.holds, h.perm, h.cached, h.data, h.opened, h.stored, ?_, ?_, h.order, h.clock, h.past⟩
  · intro r' c' hc
    rcases hcases r' c' hc with ⟨-, rfl⟩ | hold
    · exact ⟨hdata, hfresh, hclosed⟩
    · exact h.used r' c' hold
  · intro r₁ r₂ c' h₁ h₂
    rcases hcases r₁ c' h₁ with ⟨rfl, rfl⟩ | hold₁
    · rcases hcases r₂ c' h₂ with ⟨rfl, -⟩ | hold₂
      · rfl
      · exact absurd hold₂ (hunused r₂)
    · rcases hcases r₂ c' h₂ with ⟨rfl, rfl⟩ | hold₂
      · exact absurd hold₁ (hunused r₁)
      · exact h.alone r₁ r₂ c' hold₁ hold₂

/-- The connection of a cached item is used by no request. -/
theorem Sound.unused (h : Sound max s taken cache free) {i : ℕ} (hi : i ∈ cache) (r : ℕ) :
    (s.peers r).connection ≠ some (s.items i).connection := fun hr =>
  absurd ((h.used r _ hr).1.symm.trans (h.cached i hi)) nofun

/-- An item leaves the cache: its connection is not cached any more. -/
theorem Sound.uncache (h : Sound max s taken cache free) {i : ℕ} (hi : i ∈ cache)
    {l : Links KeepaliveLink} {taken' free' : List ℕ} (hl : Holds l (cache.erase i) free')
    (hperm : (taken' ++ cache.erase i ++ free').Perm (List.range max)) :
    Sound max { s with
      links := l, data := Function.update s.data (s.items i).connection none } taken'
      (cache.erase i) free' := by
  have hmem {j : ℕ} (hj : j ∈ cache.erase i) : j ∈ cache ∧ j ≠ i := by
    have hj' := (h.cache_nodup.mem_erase_iff).mp hj
    exact ⟨hj'.2, hj'.1⟩
  have hne {j : ℕ} (hj : j ∈ cache.erase i) : (s.items j).connection ≠ (s.items i).connection := by
    intro heq
    have hsame := h.cached j (hmem hj).1
    rw [heq, h.cached i hi] at hsame
    exact (hmem hj).2 (Option.some.inj hsame).symm
  refine ⟨hl, hperm, ?_, ?_, fun j hj => h.opened j (hmem hj).1, fun j hj => h.stored j (hmem hj).1,
    ?_, h.alone, h.order.sublist List.erase_sublist, fun j hj => h.clock j (hmem hj).1, h.past⟩
  · intro j hj
    simp only
    rw [Function.update_of_ne (hne hj)]
    exact h.cached j (hmem hj).1
  · intro c j hj
    simp only at hj
    by_cases hc : c = (s.items i).connection
    · rw [hc, Function.update_self] at hj
      exact absurd hj nofun
    · rw [Function.update_of_ne hc] at hj
      obtain ⟨hj', hconnection⟩ := h.data c j hj
      refine ⟨(h.cache_nodup.mem_erase_iff).mpr ⟨?_, hj'⟩, hconnection⟩
      rintro rfl
      exact hc hconnection.symm
  · intro r c hc
    obtain ⟨hdata, hrest⟩ := h.used r c hc
    refine ⟨?_, hrest⟩
    simp only
    by_cases heq : c = (s.items i).connection
    · rw [heq, Function.update_self]
    · rwa [Function.update_of_ne heq]

theorem Sound.close (h : Sound max s taken cache free) {c : ℕ} (hdata : s.data c = none)
    (hfresh : c < s.fresh) (hunused : ∀ r, (s.peers r).connection ≠ some c) :
    Sound max { s with closed := c :: s.closed } taken cache free := by
  refine ⟨h.holds, h.perm, h.cached, h.data, ?_, h.stored, ?_, h.alone, h.order, h.clock,
    fun c' hc' => ?_⟩
  · intro i hi
    obtain ⟨hfresh, hopen⟩ := h.opened i hi
    refine ⟨hfresh, fun hmem => ?_⟩
    rcases List.mem_cons.mp hmem with heq | hmem
    · have hcached := h.cached i hi
      rw [heq, hdata] at hcached
      cases hcached
    · exact hopen hmem
  · intro r c' hc
    obtain ⟨hnone, hfresh, hopen⟩ := h.used r c' hc
    refine ⟨hnone, hfresh, fun hmem => ?_⟩
    rcases List.mem_cons.mp hmem with heq | hmem
    · rw [heq] at hc
      exact hunused r hc
    · exact hopen hmem
  · rcases List.mem_cons.mp hc' with rfl | hmem
    · exact hfresh
    · exact h.past c' hmem

/-- An item goes from the cache to the free ones. -/
theorem Sound.toFree (h : Sound max s taken cache free) {i : ℕ} (hi : i ∈ cache) :
    Sound max { s with
      links := (s.links.remove (.item i)).insertHead .free (.item i)
      data := Function.update s.data (s.items i).connection none } taken (cache.erase i)
      (i :: free) := by
  obtain ⟨hremoved, hlink⟩ := h.holds.removeCache hi
  refine h.uncache hi (hremoved.insertFree hlink) (List.Perm.trans ?_ h.perm)
  have hcache : (i :: cache.erase i).Perm cache := (List.perm_cons_erase hi).symm
  calc
    (taken ++ cache.erase i ++ i :: free).Perm (taken ++ (i :: cache.erase i) ++ free) := by
      rw [List.append_assoc, List.append_assoc]
      exact List.Perm.append_left taken List.perm_middle
    _ |>.Perm (taken ++ cache ++ free) :=
      (List.Perm.append_left taken hcache).append_right free

/-- A taken item gets the connection of a request and goes to the head of the cache. -/
theorem Sound.insert {i r c : ℕ} (h : Sound max s [i] cache free)
    (hlink : FreeLink {.cache, .free} (lists cache free) (.item i))
    (hc : (s.peers r).connection = some c) (sockaddr : List UInt8) :
    Sound max { s with
      links := s.links.insertHead .cache (.item i)
      items := Function.update s.items i ⟨c, sockaddr, s.clock⟩
      data := Function.update s.data c (some i)
      clock := s.clock + 1
      storedFor := Function.update s.storedFor c (some sockaddr)
      peers := Function.update s.peers r ⟨none, sockaddr⟩ } [] (i :: cache) free := by
  obtain ⟨hdata, hfresh, hopen⟩ := h.used r c hc
  have hout : i ∉ cache := fun hi =>
    (List.nodup_cons.mp h.nodup).1 (List.mem_append_left free hi)
  have hne {j : ℕ} (hj : j ∈ cache) : j ≠ i := ne_of_mem_of_not_mem hj hout
  have hconnection {j : ℕ} (hj : j ∈ cache) : (s.items j).connection ≠ c := by
    intro heq
    have hcached := h.cached j hj
    rw [heq, hdata] at hcached
    cases hcached
  have hitem {j : ℕ} (hj : j ∈ cache) :
      Function.update s.items i ⟨c, sockaddr, s.clock⟩ j = s.items j := by
    rw [Function.update_of_ne (hne hj)]
  have hself : Function.update s.items i ⟨c, sockaddr, s.clock⟩ i = ⟨c, sockaddr, s.clock⟩ :=
    Function.update_self ..
  have hpeer {r' c' : ℕ}
      (hr : (Function.update s.peers r ⟨none, sockaddr⟩ r').connection = some c') :
      r' ≠ r ∧ (s.peers r').connection = some c' := by
    by_cases heq : r' = r
    · rw [heq, Function.update_self] at hr
      exact absurd hr nofun
    · rw [Function.update_of_ne heq] at hr
      exact ⟨heq, hr⟩
  refine ⟨h.holds.insertCache hlink, h.perm, ?_, ?_, ?_, ?_, ?_, ?_, ?_, ?_, h.past⟩
  · intro j hj
    rcases List.mem_cons.mp hj with rfl | hj
    · simp only [hself, Function.update_self]
    · simp only [hitem hj]
      rw [Function.update_of_ne (hconnection hj)]
      exact h.cached j hj
  · intro c' j hj
    simp only at hj ⊢
    by_cases heq : c' = c
    · rw [heq, Function.update_self] at hj
      obtain rfl := Option.some.inj hj
      rw [hself, heq]
      exact ⟨List.mem_cons_self, rfl⟩
    · rw [Function.update_of_ne heq] at hj
      obtain ⟨hj', hcj⟩ := h.data c' j hj
      rw [hitem hj']
      exact ⟨List.mem_cons_of_mem i hj', hcj⟩
  · intro j hj
    rcases List.mem_cons.mp hj with rfl | hj
    · simp only [hself]
      exact ⟨hfresh, hopen⟩
    · simp only [hitem hj]
      exact h.opened j hj
  · intro j hj
    rcases List.mem_cons.mp hj with rfl | hj
    · simp only [hself, Function.update_self]
    · simp only [hitem hj]
      rw [Function.update_of_ne (hconnection hj)]
      exact h.stored j hj
  · intro r' c' hr
    obtain ⟨hr', hold⟩ := hpeer hr
    obtain ⟨hnone, hrest⟩ := h.used r' c' hold
    refine ⟨?_, hrest⟩
    have hcc : c' ≠ c := by
      rintro rfl
      exact hr' (h.alone r' r c' hold hc)
    simp only
    rw [Function.update_of_ne hcc]
    exact hnone
  · intro r₁ r₂ c' h₁ h₂
    exact h.alone r₁ r₂ c' (hpeer h₁).2 (hpeer h₂).2
  · refine List.pairwise_cons.mpr ⟨?_, ?_⟩
    · intro j hj
      simp only [hitem hj, hself]
      exact h.clock j hj
    · refine h.order.imp_of_mem fun hj hk hlt => ?_
      simp only [hitem hj, hitem hk]
      exact hlt
  · intro j hj
    rcases List.mem_cons.mp hj with rfl | hj
    · simp only [hself]
      exact Nat.lt_succ_self _
    · simp only [hitem hj]
      exact Nat.lt_succ_of_lt (h.clock j hj)

/-! ## The hooks -/

theorem closeHandler_spec (h : Sound max s [] cache free) {c i : ℕ} (hc : s.data c = some i)
    (input : CloseInput) :
    ∃ s', s.ngxHttpUpstreamKeepaliveCloseHandler c input = some s' ∧
      (∃ cache' free', Sound max s' [] cache' free') ∧ s'.freed = s.freed ∧
      s'.items = s.items ∧ s.closed <:+ s'.closed := by
  rw [ngxHttpUpstreamKeepaliveCloseHandler]
  by_cases hkeep : ¬(input.close = true ∨ input.timedout = true) ∧ input.again = true ∧
      input.handled = true
  · exact ⟨s, if_pos hkeep, ⟨cache, free, h⟩, rfl, rfl, List.suffix_refl _⟩
  · obtain ⟨hi, rfl⟩ := h.data c i hc
    rw [if_neg hkeep, hc, Option.map_some]
    refine ⟨_, rfl, ⟨cache.erase i, i :: free, ?_⟩, rfl, rfl, List.suffix_cons _ _⟩
    exact (h.toFree hi).close (Function.update_self ..) (h.opened i hi).1 (h.unused hi)

theorem getKeepalivePeer_spec (h : Sound max s [] cache free) (r : ℕ)
    (answer : Option (List UInt8)) :
    ∃ s', s.ngxHttpUpstreamGetKeepalivePeer max r answer = some s' ∧
      (∃ cache' free', Sound max s' [] cache' free') ∧ s'.freed = s.freed ∧
      ∀ sockaddr c, answer = some sockaddr → (s'.peers r).connection = some c →
        s.storedFor c = some sockaddr ∧ s.data c ≠ none ∧ s'.data c = none := by
  cases answer with
  | none => exact ⟨s, rfl, ⟨cache, free, h⟩, rfl, nofun⟩
  | some sockaddr =>
      have h₁ := h.setPeer_none r sockaddr
      have hlength : (cache.map KeepaliveLink.item).length ≤ max := by
        have hle := (List.sublist_append_left cache free).length_le
        rw [← List.nil_append cache, h.perm.length_eq, List.length_range] at hle
        rwa [List.length_map]
      have hloop := h.holds.cacheQueue.elements hlength
      rw [ngxHttpUpstreamGetKeepalivePeer]
      simp only [setPeer]
      rw [hloop, Option.bind_some, mapM_itemOf, Option.bind_some]
      cases hfind : cache.find? fun i => (s.items i).sockaddr == sockaddr with
      | none =>
          refine ⟨_, rfl, ⟨cache, free, h₁⟩, rfl, ?_⟩
          intro _ c _ hc
          simp only [Function.update_self] at hc
          exact absurd hc nofun
      | some i =>
          have hi := List.mem_of_find?_eq_some hfind
          have hfound := List.find?_some hfind
          have haddress : (s.items i).sockaddr = sockaddr := beq_iff_eq.mp hfound
          obtain ⟨hfresh, hopen⟩ := h.opened i hi
          have h₂ := (h₁.toFree hi).setPeer_some r sockaddr
            (Function.update_self ..) hfresh hopen (h₁.unused hi)
          refine ⟨_, rfl, ⟨_, _, h₂⟩, rfl, ?_⟩
          intro _ c hanswer hc
          simp only [Function.update_self] at hc
          obtain rfl := Option.some.inj hc
          obtain rfl := Option.some.inj hanswer
          have hstored := h.stored i hi
          rw [haddress] at hstored
          refine ⟨hstored, ?_, Function.update_self ..⟩
          rw [h.cached i hi]
          exact nofun

/-- An item is taken: a free one, or the one that has been in the cache the longest. -/
theorem takeItem_spec (h : Sound max s [] cache free) (hmax : 1 ≤ max) :
    ∃ i s' cache' free', s.takeItem = some (i, s') ∧ Sound max s' [i] cache' free' ∧
      FreeLink {.cache, .free} (lists cache' free') (.item i) ∧ s'.peers = s.peers ∧
      s'.freed = s.freed ∧
      (free = [] → i ∈ cache ∧ (∀ j ∈ cache, (s.items i).stamp ≤ (s.items j).stamp) ∧
        s'.closed = (s.items i).connection :: s.closed) := by
  rw [takeItem]
  cases free with
  | nil =>
      have hne : cache ≠ [] := by
        rintro rfl
        have hlength := h.perm.length_eq
        rw [List.length_range, List.append_nil, List.append_nil, List.length_nil] at hlength
        omega
      obtain ⟨before, i, rfl⟩ := (List.eq_nil_or_concat cache).resolve_left hne
      have hempty : s.links.next .free = .free := h.holds.freeQueue.next_self
      have hqueue := h.holds.cacheQueue
      rw [List.concat_eq_append, List.map_append, List.map_singleton] at hqueue
      rw [List.concat_eq_append] at h
      have hi : i ∈ before ++ [i] := List.mem_append_right before List.mem_cons_self
      obtain ⟨hremoved, hlink⟩ := h.holds.removeCache hi
      have hperm : ([i] ++ (before ++ [i]).erase i ++ []).Perm (List.range max) := by
        refine List.Perm.trans ?_ h.perm
        rw [List.append_nil, List.append_nil, List.nil_append]
        exact (List.perm_cons_erase hi).symm
      rw [if_pos hempty, hqueue.prev_head]
      refine ⟨i, _, _, _, rfl, (h.uncache hi hremoved hperm).close (Function.update_self ..)
        (h.opened i hi).1 (h.unused hi), hlink, rfl, rfl, fun _ => ⟨?_, ?_, rfl⟩⟩
      · rw [List.concat_eq_append]
        exact hi
      · intro j hj
        rw [List.concat_eq_append] at hj
        rcases List.mem_append.mp hj with hj | hj
        · exact ((List.pairwise_append.mp h.order).2.2 j hj i List.mem_cons_self).le
        · rw [List.mem_singleton.mp hj]
  | cons i free =>
      have hqueue := h.holds.freeQueue
      rw [List.map_cons] at hqueue
      have hhead : s.links.next .free = .item i := hqueue.next_head
      obtain ⟨hremoved, hlink⟩ := h.holds.removeFree List.mem_cons_self
      rw [List.erase_cons_head] at hremoved hlink
      have hperm : ([i] ++ cache ++ free).Perm (List.range max) := by
        refine List.Perm.trans ?_ h.perm
        exact List.perm_middle.symm
      rw [if_neg (by rw [hhead]; exact nofun), hhead]
      refine ⟨i, _, cache, free, rfl, ?_, hlink, rfl, rfl, nofun⟩
      exact ⟨hremoved, hperm, h.cached, h.data, h.opened, h.stored, h.used, h.alone, h.order,
        h.clock, h.past⟩

theorem store_spec (h : Sound max s [] cache free) (hmax : 1 ≤ max) {r c : ℕ}
    (hc : (s.peers r).connection = some c) (input : FreeInput) :
    ∃ s', s.store r c input = some s' ∧ (∃ cache' free', Sound max s' [] cache' free') ∧
      s'.freed = s.freed ∧
      (free = [] → ∃ i ∈ cache, (∀ j ∈ cache, (s.items i).stamp ≤ (s.items j).stamp) ∧
        (s'.items i).connection = c ∧ (s.items i).connection :: s.closed <:+ s'.closed) := by
  obtain ⟨i, s₁, cache₁, free₁, htake, h₁, hlink, hpeers, hfreed, hold⟩ := takeItem_spec h hmax
  rw [← hpeers] at hc
  have h₂ := h₁.insert hlink hc (s₁.peers r).sockaddr
  rw [store, htake, Option.bind_some]
  simp only [setPeer]
  by_cases hready : input.ready = true
  · rw [if_pos hready]
    obtain ⟨s', hclose, hsound, hfreed', hitems, hclosed⟩ :=
      closeHandler_spec h₂ (c := c) (Function.update_self ..) input.close
    refine ⟨s', hclose, hsound, hfreed'.trans hfreed, ?_⟩
    intro hempty
    obtain ⟨hi, holdest, hclosed₁⟩ := hold hempty
    refine ⟨i, hi, holdest, ?_, ?_⟩
    · rw [hitems]
      simp only [Function.update_self]
    · rw [hclosed₁] at hclosed
      exact hclosed
  · rw [if_neg hready]
    refine ⟨_, rfl, ⟨_, _, h₂⟩, hfreed, ?_⟩
    intro hempty
    obtain ⟨hi, holdest, hclosed₁⟩ := hold hempty
    refine ⟨i, hi, holdest, ?_, ?_⟩
    · simp only [Function.update_self]
    · rewrite [hclosed₁]
      exact List.suffix_refl _

theorem freeKeepalivePeer_spec (conf : KeepaliveConf) (h : Sound max s [] cache free)
    (hmax : 1 ≤ max) (r : ℕ) (input : FreeInput) :
    ∃ s', s.ngxHttpUpstreamFreeKeepalivePeer conf r input = some s' ∧
      (∃ cache' free', Sound max s' [] cache' free') ∧ s'.freed = s.freed + 1 ∧
      ∀ c, (s.peers r).connection = some c → storable conf input → free = [] →
        ∃ i ∈ cache, (∀ j ∈ cache, (s.items i).stamp ≤ (s.items j).stamp) ∧
          (s'.items i).connection = c ∧ (s.items i).connection :: s.closed <:+ s'.closed := by
  have hcount {s' : Keepalive} {cache' free' : List ℕ} (h' : Sound max s' [] cache' free') :
      Sound max { s' with freed := s'.freed + 1 } [] cache' free' :=
    ⟨h'.holds, h'.perm, h'.cached, h'.data, h'.opened, h'.stored, h'.used, h'.alone, h'.order,
      h'.clock, h'.past⟩
  rw [ngxHttpUpstreamFreeKeepalivePeer]
  cases hc : (s.peers r).connection with
  | none => exact ⟨_, rfl, ⟨cache, free, hcount h⟩, rfl, nofun⟩
  | some c =>
      simp only
      by_cases hstore : storable conf input = true
      · obtain ⟨s', hrun, ⟨cache', free', h'⟩, hfreed, hold⟩ := store_spec h hmax hc input
        rw [if_pos hstore, hrun, Option.map_some]
        refine ⟨_, rfl, ⟨cache', free', hcount h'⟩, congrArg (· + 1) hfreed, ?_⟩
        intro c' hc' _ hempty
        obtain rfl := Option.some.inj hc'
        exact hold hempty
      · rw [if_neg hstore, Option.map_some]
        exact ⟨_, rfl, ⟨cache, free, hcount h⟩, rfl, fun _ _ hyes => absurd hyes hstore⟩

end Sound

/-! ## Runs -/

/-- The queues hold all items once, and a cached connection is open, cached once and used
by no request. -/
def IsCache (max : ℕ) (s : Keepalive) : Prop :=
  ∃ cache free : List ℕ,
    s.links.elements .cache max (s.links.next .cache) = some (cache.map .item) ∧
    s.links.elements .free max (s.links.next .free) = some (free.map .item) ∧
    (cache ++ free).Perm (List.range max) ∧
    (cache.map fun i => (s.items i).connection).Nodup ∧
    ∀ i ∈ cache, (s.items i).connection ∉ s.closed ∧
      ∀ r, (s.peers r).connection ≠ some (s.items i).connection

/-- The item `i` of the cache has been stored longest ago. -/
def Oldest (max : ℕ) (s : Keepalive) (i : ℕ) : Prop :=
  ∃ cache : List ℕ, s.links.elements .cache max (s.links.next .cache) = some (cache.map .item) ∧
    i ∈ cache ∧ ∀ j ∈ cache, (s.items i).stamp ≤ (s.items j).stamp

/-- What an event does: a connection that is used again was stored for the address of the
balancer, a full cache gives up its oldest item, and the original hook is called once for
each peer that is given back. -/
def Follows (max : ℕ) (conf : KeepaliveConf) (s : Keepalive) (event : Event) (s' : Keepalive) :
    Prop :=
  match event with
  | .get r answer => s'.freed = s.freed ∧
      ∀ sockaddr c, answer = some sockaddr → (s'.peers r).connection = some c →
        s.storedFor c = some sockaddr
  | .free r input => s'.freed = s.freed + 1 ∧
      ∀ c, (s.peers r).connection = some c → storable conf input → s.links.next .free = .free →
        ∃ i, Oldest max s i ∧ (s'.items i).connection = c ∧
          (s.items i).connection :: s.closed <:+ s'.closed
  | _ => s'.freed = s.freed

section Runs

variable {max : ℕ} {s : Keepalive} {cache free : List ℕ}

theorem Sound.elements_cache (h : Sound max s [] cache free) :
    s.links.elements .cache max (s.links.next .cache) = some (cache.map .item) := by
  refine h.holds.cacheQueue.elements ?_
  have hlength := h.perm.length_eq
  rw [List.nil_append, List.length_append, List.length_range] at hlength
  rw [List.length_map]
  omega

theorem Sound.isCache (h : Sound max s [] cache free) : s.IsCache max := by
  refine ⟨cache, free, h.elements_cache, h.holds.freeQueue.elements ?_, h.perm, ?_, ?_⟩
  · have hlength := h.perm.length_eq
    rw [List.nil_append, List.length_append, List.length_range] at hlength
    rw [List.length_map]
    omega
  · refine (List.nodup_map_iff_inj_on h.cache_nodup).mpr fun i hi j hj heq => ?_
    have hcached := h.cached i hi
    rw [heq, h.cached j hj] at hcached
    exact (Option.some.inj hcached).symm
  · exact fun i hi => ⟨(h.opened i hi).2, h.unused hi⟩

theorem step_spec (conf : KeepaliveConf) (h : Sound max s [] cache free) (hmax : 1 ≤ max)
    (event : Event) :
    ∃ s', s.step max conf event = some s' ∧ (∃ cache' free', Sound max s' [] cache' free') ∧
      Follows max conf s event s' := by
  cases event with
  | get r answer =>
      obtain ⟨s', hrun, hsound, hfreed, hreused⟩ := getKeepalivePeer_spec h r answer
      exact ⟨s', hrun, hsound, hfreed, fun sockaddr c ha hc => (hreused sockaddr c ha hc).1⟩
  | connect r =>
      rw [step]
      cases hc : (s.peers r).connection with
      | some c => exact ⟨s, rfl, ⟨cache, free, h⟩, rfl⟩
      | none =>
          have hdata : s.data s.fresh = none := by
            by_contra hne
            obtain ⟨i, hi⟩ := Option.ne_none_iff_exists'.mp hne
            obtain ⟨hmem, hconnection⟩ := h.data _ i hi
            have hopened := (h.opened i hmem).1
            rw [hconnection] at hopened
            exact Nat.lt_irrefl _ hopened
          have hunused (r' : ℕ) : (s.peers r').connection ≠ some s.fresh := fun hr =>
            Nat.lt_irrefl _ (h.used r' _ hr).2.1
          have hopen : s.fresh ∉ s.closed := fun hmem => Nat.lt_irrefl _ (h.past _ hmem)
          have hnext : Sound max { s with fresh := s.fresh + 1 } [] cache free :=
            ⟨h.holds, h.perm, h.cached, h.data,
              fun i hi => ⟨Nat.lt_succ_of_lt (h.opened i hi).1, (h.opened i hi).2⟩, h.stored,
              fun r' c hr => ⟨(h.used r' c hr).1, Nat.lt_succ_of_lt (h.used r' c hr).2.1,
                (h.used r' c hr).2.2⟩, h.alone, h.order, h.clock,
              fun c hmem => Nat.lt_succ_of_lt (h.past c hmem)⟩
          exact ⟨_, rfl, ⟨cache, free, hnext.setPeer_some r (s.peers r).sockaddr hdata
            (Nat.lt_succ_self _) hopen hunused⟩, rfl⟩
  | free r input =>
      obtain ⟨s', hrun, hsound, hfreed, hold⟩ := freeKeepalivePeer_spec conf h hmax r input
      refine ⟨s', hrun, hsound, hfreed, ?_⟩
      intro c hc hstore hempty
      have hnil : free = [] := by
        cases free with
        | nil => rfl
        | cons i free =>
            have hhead := h.holds.freeQueue.next_head
            exact absurd (hhead.symm.trans hempty) nofun
      obtain ⟨i, hi, holdest, hrest⟩ := hold c hc hstore hnil
      exact ⟨i, ⟨cache, h.elements_cache, hi, holdest⟩, hrest⟩
  | drop r => exact ⟨_, rfl, ⟨cache, free, h.setPeer_none r _⟩, rfl⟩
  | close c input =>
      rw [step]
      cases hc : s.data c with
      | none => exact ⟨s, rfl, ⟨cache, free, h⟩, rfl⟩
      | some i =>
          obtain ⟨s', hrun, hsound, hfreed, -⟩ := closeHandler_spec h hc input
          exact ⟨s', hrun, hsound, hfreed⟩

theorem init_holds (max : ℕ) : Holds (init max).links [] (List.range max).reverse := by
  simp only [init]
  induction max with
  | zero =>
      have hempty : Queues (⟨fun a => a, fun a => a⟩ : Links KeepaliveLink) ∅ (lists [] []) :=
        ⟨fun _ ha => absurd ha (Set.notMem_empty _), fun _ ha => absurd ha (Set.notMem_empty _)⟩
      have hcache := hempty.init (h := .cache) fun _ ha => absurd ha (Set.notMem_empty _)
      have hlists := lists_update_cache [] [] []
      rw [List.map_nil] at hlists
      rw [hlists] at hcache
      have hfree := hcache.init (h := .free) (by
        rintro a (rfl | ha)
        · exact nofun
        · exact absurd ha (Set.notMem_empty a))
      have hlists' := lists_update_free [] [] []
      rw [List.map_nil] at hlists'
      rw [hlists', Set.insert_comm, insert_empty_eq] at hfree
      exact hfree
  | succ n ih =>
      rw [List.range_succ, List.foldl_append, List.reverse_append]
      refine Holds.insertFree ih ?_
      rintro a (rfl | rfl) hmem
      · rcases List.mem_cons.mp hmem with heq | hmem
        · exact absurd heq nofun
        · exact absurd hmem List.not_mem_nil
      · rcases List.mem_cons.mp hmem with heq | hmem
        · exact absurd heq nofun
        · obtain ⟨m, hm, heq⟩ := List.mem_map.mp hmem
          obtain rfl := KeepaliveLink.item.inj heq
          exact absurd (List.mem_range.mp (List.mem_reverse.mp hm)) (Nat.lt_irrefl m)

theorem init_sound (max : ℕ) : Sound max (init max) [] [] (List.range max).reverse := by
  refine ⟨init_holds max, List.reverse_perm _, ?_, nofun, ?_, ?_, nofun, nofun, List.Pairwise.nil,
    ?_, ?_⟩
  · exact fun i hi => absurd hi List.not_mem_nil
  · exact fun i hi => absurd hi List.not_mem_nil
  · exact fun i hi => absurd hi List.not_mem_nil
  · exact fun i hi => absurd hi List.not_mem_nil
  · exact fun c hc => absurd hc List.not_mem_nil

theorem Sound.run (conf : KeepaliveConf) (hmax : 1 ≤ max) (events : List Event)
    (h : Sound max s [] cache free) :
    ∃ s', s.run max conf events = some s' ∧ ∃ cache' free', Sound max s' [] cache' free' := by
  induction events generalizing s cache free with
  | nil => exact ⟨s, rfl, cache, free, h⟩
  | cons event events ih =>
      obtain ⟨s₁, hstep, ⟨cache₁, free₁, h₁⟩, -⟩ := step_spec conf h hmax event
      obtain ⟨s', hrun, hsound⟩ := ih h₁
      refine ⟨s', ?_, hsound⟩
      rw [Keepalive.run, List.foldlM_cons, hstep]
      exact hrun

end Runs

/-- In every run the cache is sound, and each further event follows the rules. -/
theorem keepalive_sound (max : ℕ) (hmax : 1 ≤ max) (conf : KeepaliveConf) (events : List Event) :
    ∃ s, (init max).run max conf events = some s ∧ s.IsCache max ∧
      ∀ event, ∃ s', s.step max conf event = some s' ∧ s'.IsCache max ∧
        Follows max conf s event s' := by
  obtain ⟨s, hrun, cache, free, h⟩ := (init_sound max).run conf hmax events
  refine ⟨s, hrun, h.isCache, fun event => ?_⟩
  obtain ⟨s', hstep, ⟨cache', free', h'⟩, hfollows⟩ := step_spec conf h hmax event
  exact ⟨s', hstep, h'.isCache, hfollows⟩

/-- A peer that is given back with a connection that is worth keeping. -/
def goodInput : FreeInput where
  failed := false
  readEof := false
  readError := false
  readTimedout := false
  writeError := false
  writeTimedout := false
  requests := 1
  startTime := 0
  now := 0
  keepalive := true
  requestBodySent := true
  exiting := false
  handled := true
  ready := false
  close := ⟨false, false, false, false⟩

/-- In a cache of one item the connection of one request is stored and then reused by another
one to the same address. -/
theorem keepalive_sound_one :
    1 ≤ 1 ∧ ∃ s, (init 1).run 1 ⟨1000, 3600000⟩
        [.get 0 (some [1]), .connect 0, .free 0 goodInput, .get 1 (some [1])] = some s ∧
      s.IsCache 1 ∧ (s.peers 1).connection = some 0 ∧
      ∃ s', s.step 1 ⟨1000, 3600000⟩ (.free 1 goodInput) = some s' ∧ s'.IsCache 1 ∧
        Follows 1 ⟨1000, 3600000⟩ s (.free 1 goodInput) s' := by
  refine ⟨Nat.le_refl 1, ?_⟩
  obtain ⟨s, hrun, hcache, hnext⟩ := keepalive_sound 1 (Nat.le_refl 1) ⟨1000, 3600000⟩
    [.get 0 (some [1]), .connect 0, .free 0 goodInput, .get 1 (some [1])]
  refine ⟨s, hrun, hcache, ?_, hnext (.free 1 goodInput)⟩
  have hreused : ((init 1).run 1 ⟨1000, 3600000⟩
      [.get 0 (some [1]), .connect 0, .free 0 goodInput, .get 1 (some [1])]).map
        (fun s => (s.peers 1).connection) = some (some 0) := by
    decide
  rw [hrun] at hreused
  exact Option.some.inj hreused

end Keepalive

end MultiversionBalancer.Upstream
