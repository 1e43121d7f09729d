import MultiversionBalancer.Autoscaler.Window
import MultiversionBalancer.Core.Sprintf

/-!
# The autoscaler

The scaling program `microservices.py`: its configuration with the histories of
scaling wishes, the deployed servers, the decision for one monitor entry, the
two scaling actions and one iteration of the main loop.

Server objects are compared by identity, which is a number here; a server that
is picked from a list is a copy of the object, and no object changes between
the pick and its use.  Docker and the sockets only contribute the port of a new
container.  Loads and capacities are Python floats, of an arbitrary `CFloat`
type.
-/

namespace MultiversionBalancer.Autoscaler

open CFloat

/-! ## Configuration -/

/-- `Configuration`, without the descriptions of the two versions. -/
structure Configuration where
  pt : ℤ
  maxReplicas : ℤ
  scaleUp : IntLinkedList
  scaleDown24 : IntLinkedList
  scaleDown6 : IntLinkedList

/-- `Configuration(pt, max_replicas)`. -/
def Configuration.new (pt maxReplicas : ℤ) : Configuration where
  pt := pt
  maxReplicas := maxReplicas
  scaleUp := .new 2
  scaleDown24 := .new 24
  scaleDown6 := .new 6

/-- The result of `applyScalingData`. -/
structure ScaleDecision where
  upscale : Bool
  downscale : Bool
  deriving DecidableEq

/-- `up_on`: what an entry adds to the history of scale-outs. -/
def upOn (scaleUp : Bool) : ℤ :=
  if scaleUp then 1 else 0

/-- `down_on`: what an entry adds to the histories of scale-ins. -/
def downOn (scaleUp scaleDown : Bool) : ℤ :=
  if scaleUp then 0 else if scaleDown then 1 else 0

def Configuration.applyScalingData (scaleUp scaleDown : Bool)
    (c : Configuration) : Except Fault (Configuration × ScaleDecision) := do
  let up ← c.scaleUp.add (upOn scaleUp)
  let down24 ← c.scaleDown24.add (downOn scaleUp scaleDown)
  let down6 ← c.scaleDown6.add (downOn scaleUp scaleDown)
  pure
    ({ c with scaleUp := up, scaleDown24 := down24, scaleDown6 := down6 },
      { upscale := up.count = 2
        downscale := up.count ≠ 2 ∧ down6.count = 3 })

def Configuration.applyUpscale (c : Configuration) : Configuration :=
  { c with scaleUp := .new 2 }

/-- Add a zero to both histories of scale-in, `n` times. -/
def Configuration.addZeros :
    ℕ → Configuration → Except Fault Configuration
  | 0, c => .ok c
  | n + 1, c => do
      let down6 ← c.scaleDown6.add 0
      let down24 ← c.scaleDown24.add 0
      addZeros n { c with scaleDown6 := down6, scaleDown24 := down24 }

def Configuration.applyDownscale (c : Configuration) :
    Except Fault Configuration :=
  c.addZeros 6

/-! ## Servers -/

/-- `ServerDescription`, without the handle of its container; `id` is the
identity of the object. -/
structure ServerDescription (F : Type) where
  id : ℕ
  ip : Text
  port : ℤ
  capacityH : F
  capacityL : F
  isHeavy : Bool

/-- `System`; `fresh` is the identity of the next object. -/
structure System (F : Type) where
  heavy : List (ServerDescription F)
  light : List (ServerDescription F)
  loadHistory : List F
  fresh : ℕ

/-- An element of `servers` in a monitor entry. -/
structure ServerReport (F : Type) where
  ip : Text
  port : ℤ
  capacity : F

/-- A monitor entry.  The key `servers` is absent when the report names no
server. -/
structure MonitorEntry (F : Type) where
  concRequests : F
  totalCapacity : F
  servers : Option (List (ServerReport F))

/-- `"{}:{}".format(ip, port)`. -/
def serverKey (ip : Text) (port : ℤ) : Text :=
  ip ++ ':' :: ngxSprintfInt port

/-- `servers.get(key)`: the last report of an address wins. -/
def reportedCapacity {F : Type} (servers : List (ServerReport F))
    (key : Text) : Option F :=
  (servers.reverse.find? fun s => serverKey s.ip s.port = key).map (·.capacity)

/-- `len(self.heavy) + len(self.light)`. -/
def System.total {F : Type} (sys : System F) : ℕ :=
  sys.heavy.length + sys.light.length

/-- `updateCapacities`: a reported capacity replaces that of the version the
server runs. -/
def System.updateCapacities {F : Type} (servers : List (ServerReport F))
    (sys : System F) : System F :=
  let reported (s : ServerDescription F) (old : F) : F :=
    (reportedCapacity servers (serverKey s.ip s.port)).getD old
  { sys with
    heavy := sys.heavy.map fun h =>
      { h with capacityH := reported h h.capacityH }
    light := sys.light.map fun l =>
      { l with capacityL := reported l l.capacityL } }

variable {F : Type} [CFloat F]

def ServerDescription.capacityDelta (s : ServerDescription F) : F :=
  if s.isHeavy then s.capacityH else s.capacityL - s.capacityH

/-- The running minimum of `getMinDownscaleDelta`: `min_delta`, where `none` is
its initial value `-1`, and `server`. -/
structure MinDelta (F : Type) where
  delta : Option F
  server : Option (ServerDescription F)

def MinDelta.unset (m : MinDelta F) : Bool :=
  match m.delta with
  | none => true
  | some d => eq d (ofInt (-1))

def MinDelta.value (m : MinDelta F) : F :=
  m.delta.getD (ofInt (-1))

/-- The body of both loops of `getMinDownscaleDelta`; `delta` is what the loop
assigns to `min_delta`. -/
def MinDelta.step (delta : ServerDescription F → F) (m : MinDelta F)
    (s : ServerDescription F) : MinDelta F :=
  if m.unset || lt s.capacityDelta m.value then
    { delta := some (delta s), server := some s }
  else m

def System.getMinDownscaleDelta (sys : System F) : MinDelta F :=
  if 0 < sys.light.length then
    sys.light.foldl (MinDelta.step (·.capacityDelta)) ⟨none, none⟩
  else if 0 < sys.heavy.length then
    sys.heavy.foldl (MinDelta.step (·.capacityH)) ⟨none, none⟩
  else ⟨none, none⟩

/-- The loop over the heavy servers in `calculateScaling`. -/
def cheaperHeavy (server : Option (ServerDescription F))
    (h : ServerDescription F) : Option (ServerDescription F) :=
  match server with
  | none => some h
  | some s => if lt h.capacityH s.capacityH then some h else some s

/-- The heavy server that becomes light when no more servers may be
launched. -/
def System.cheapestHeavy (sys : System F) : Option (ServerDescription F) :=
  sys.heavy.foldl cheaperHeavy none

/-- The result of `calculateScaling`. -/
structure Wish (F : Type) where
  upscale : Bool
  downscale : Bool
  server : Option (ServerDescription F)

/-- The load history with a new load, and the predicted load. -/
def recordLoad (load : F) (history : List F) : List F × F :=
  let history := history ++ [load]
  let history := if 2 < history.length then history.drop 1 else history
  let predict :=
    match history with
    | [a, b] => (a + b) / ofInt 2
    | a :: _ => a
    | [] => load
  (history, predict)

/-- The decision of `calculateScaling` about the current lists. -/
def System.wish (maxScale : ℤ) (predict capacity : F) (sys : System F) :
    Wish F :=
  let min := sys.getMinDownscaleDelta
  if lt (lit (9 / 10) * capacity) predict ∧ (sys.light.length : ℤ) < maxScale
  then
    { upscale := true
      downscale := false
      server :=
        if (sys.total : ℤ) = maxScale then sys.cheapestHeavy else none }
  else if (eq predict (ofInt 0) ∨
      lt predict (lit (9 / 10) * (capacity - min.value))) ∧
      (1 < sys.heavy.length ∨ 0 < sys.light.length) then
    { upscale := false, downscale := true, server := min.server }
  else { upscale := false, downscale := false, server := none }

def System.calculateScaling (entry : MonitorEntry F) (c : Configuration)
    (sys : System F) : Except Fault (System F × Wish F) :=
  let (history, predict) := recordLoad entry.concRequests sys.loadHistory
  if c.pt = 0 then .error .zeroDivision
  else
    match entry.servers with
    | none => .error .missingServers
    | some servers =>
        let sys := { sys with loadHistory := history }.updateCapacities servers
        .ok (sys, sys.wish c.maxReplicas predict entry.totalCapacity)

/-! ## Scaling actions -/

/-- An element of the configuration sent to the load balancer. -/
structure ServerConfig where
  server : Text
  port : ℤ
  heavy : Bool
  pt : Option ℤ
  deriving DecidableEq

/-- A POST of a configuration, at once or by a thread that waits first. -/
structure Post where
  delayed : Bool
  data : List ServerConfig
  deriving DecidableEq

/-- `buildConfigData`: the first server carries the performance target. -/
def System.buildConfigData {F : Type} (pt : ℤ) (sys : System F) :
    Except Fault (List ServerConfig) :=
  let config (heavy : Bool) (s : ServerDescription F) : ServerConfig :=
    { server := s.ip, port := s.port, heavy := heavy, pt := none }
  match sys.heavy.map (config true) ++ sys.light.map (config false) with
  | [] => .error .noServers
  | s :: ss => .ok ({ s with pt := some pt } :: ss)

def removeServer {F : Type} (s : ServerDescription F)
    (l : List (ServerDescription F)) :
    Except Fault (List (ServerDescription F)) :=
  if l.any (·.id = s.id) then .ok (l.eraseP (·.id = s.id))
  else .error .notListed

def System.newServer (sys : System F) (ip : Text) (port : ℤ) :
    ServerDescription F where
  id := sys.fresh
  ip := ip
  port := port
  capacityH := ofInt 0
  capacityL := ofInt 0
  isHeavy := true

/-- The state of the scaling program. -/
structure State (F : Type) where
  system : System F
  config : Configuration

/-- `upscale`; `port` is the port of the new container. -/
def State.upscale (port : ℤ) (server : Option (ServerDescription F))
    (st : State F) : Except Fault (State F × List Post) :=
  let sys := st.system
  match server with
  | none =>
      match sys.heavy with
      | [] => .error .emptyHeavy
      | first :: _ => do
          let sys := { sys with
            heavy := sys.heavy ++ [sys.newServer first.ip port]
            fresh := sys.fresh + 1 }
          let data ← sys.buildConfigData st.config.pt
          pure ({ system := sys, config := st.config.applyUpscale },
            [{ delayed := true, data := data }])
  | some s => do
      let new := { sys.newServer s.ip port with
        capacityH := s.capacityH
        isHeavy := false }
      let heavy ← removeServer s sys.heavy
      let sys := { sys with
        heavy := heavy
        light := sys.light ++ [new]
        fresh := sys.fresh + 1 }
      let data ← sys.buildConfigData st.config.pt
      pure ({ system := sys, config := st.config.applyUpscale },
        [{ delayed := true, data := data }, { delayed := false, data := data }])

def State.downscale (port : ℤ) (server : Option (ServerDescription F))
    (st : State F) : Except Fault (State F × List Post) :=
  let sys := st.system
  match server with
  | none => .error .noneServer
  | some s =>
      if s.isHeavy then do
        let heavy ← removeServer s sys.heavy
        let sys := { sys with heavy := heavy }
        let data ← sys.buildConfigData st.config.pt
        let config ← st.config.applyDownscale
        pure ({ system := sys, config := config },
          [{ delayed := false, data := data }])
      else do
        let new := { sys.newServer s.ip port with capacityH := s.capacityH }
        let light ← removeServer s sys.light
        let sys := { sys with
          heavy := sys.heavy ++ [new]
          light := light
          fresh := sys.fresh + 1 }
        let data ← sys.buildConfigData st.config.pt
        let config ← st.config.applyDownscale
        pure ({ system := sys, config := config },
          [{ delayed := true, data := data },
            { delayed := false, data := data }])

/-! ## The main loop -/

/-- The entry that stands for no data: no load, and the capacities as they
are. -/
def System.noUserData (sys : System F) : MonitorEntry F where
  concRequests := ofInt 0
  totalCapacity :=
    sys.light.foldl (fun c l => c + l.capacityL)
      (sys.heavy.foldl (fun c h => c + h.capacityH) (ofInt 0))
  servers := some
    (sys.heavy.map (fun h => ⟨h.ip, h.port, h.capacityH⟩) ++
      sys.light.map fun l => ⟨l.ip, l.port, l.capacityL⟩)

/-- What an iteration of the main loop does after its entries. -/
inductive Action (F : Type) where
  | keep
  | upscale (server : Option (ServerDescription F))
  | downscale (server : Option (ServerDescription F))

/-- The action for the last wish and the last decision. -/
def chooseAction (wish : Wish F) (decision : ScaleDecision) : Action F :=
  if decision.upscale then .upscale wish.server
  else if decision.downscale then .downscale wish.server
  else .keep

/-- One monitor entry: the wish, and what the histories make of it. -/
def State.processEntry (entry : MonitorEntry F) (st : State F) :
    Except Fault (State F × Wish F × ScaleDecision) := do
  let (sys, wish) ← st.system.calculateScaling entry st.config
  let (config, decision) ←
    st.config.applyScalingData wish.upscale wish.downscale
  pure ({ system := sys, config := config }, wish, decision)

/-- The loop over the entries of an iteration; the wish and the decision of an
entry overwrite those of the one before. -/
def State.processEntries :
    List (MonitorEntry F) → Option (Wish F × ScaleDecision) → State F →
      Except Fault (State F × Option (Wish F × ScaleDecision))
  | [], last, st => .ok (st, last)
  | entry :: entries, _, st => do
      let (st, last) ← st.processEntry entry
      st.processEntries entries (some last)

/-- The monitor data of an iteration; when there are none, an entry without
load takes their place. -/
def State.monitorData (data : List (MonitorEntry F)) (st : State F) :
    List (MonitorEntry F) :=
  match data with
  | [] => [st.system.noUserData]
  | _ => data

/-- What the monitor delivers to an iteration, and the port of the container
that the iteration may start. -/
structure Round (F : Type) where
  data : List (MonitorEntry F)
  port : ℤ

/-- Carry an action out. -/
def State.perform (port : ℤ) (action : Action F) (st : State F) :
    Except Fault (State F × List Post) :=
  match action with
  | .keep => .ok (st, [])
  | .upscale server => st.upscale port server
  | .downscale server => st.downscale port server

/-- One iteration of the main loop. -/
def State.iteration (round : Round F) (st : State F) :
    Except Fault (State F × List Post) := do
  let (st, last) ← st.processEntries (st.monitorData round.data) none
  match last with
  | none => pure (st, [])
  | some (wish, decision) =>
      st.perform round.port (chooseAction wish decision)

/-- A run of the main loop. -/
def State.run : List (Round F) → State F → Except Fault (State F)
  | [], st => .ok st
  | round :: rounds, st => do
      let (st, _) ← st.iteration round
      st.run rounds

/-- The program after its start: one heavy server. -/
def initialState (pt maxReplicas : ℤ) (ip : Text) (port : ℤ) : State F where
  system :=
    { heavy := [⟨0, ip, port, ofInt 0, ofInt 0, true⟩]
      light := []
      loadHistory := []
      fresh := 1 }
  config := .new pt maxReplicas

end MultiversionBalancer.Autoscaler
