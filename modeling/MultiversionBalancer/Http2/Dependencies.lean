import MultiversionBalancer.Lib.Queue
import Mathlib.Data.Nat.Bitwise

/-!
# Dependencies of streams

The priority part of an HTTP/2 connection: `ngx_http_v2_get_node_by_id`,
`ngx_http_v2_get_closed_node`, `ngx_http_v2_set_dependency` and what the HEADERS and
PRIORITY frames, the pushes and the closings of streams do with them.  A node is known
by its address.  A loop that does not end, a pointer that leads nowhere and a division
by zero are `none`.  `rel_weight`, which only orders the frames of the output queue, is
left out.
-/

namespace MultiversionBalancer.Http2

open Lib

/-- The links of the queues: `h2c->dependencies`, `h2c->closed` and the ones of a
node. -/
inductive QueueLink where
  | null
  | dependencies
  | closed
  | queue (node : ℕ)
  | children (node : ℕ)
  | reuse (node : ℕ)
  deriving DecidableEq

/-- `node->parent`; `root` is `NGX_HTTP_V2_ROOT`. -/
inductive Parent where
  | null
  | root
  | node (address : ℕ)
  deriving DecidableEq

/-- The head of the queue of the children of a parent. -/
def Parent.children : Parent → QueueLink
  | .null => .null
  | .root => .dependencies
  | .node p => .children p

/-- The other fields of `ngx_http_v2_node_t`; `stream` tells whether there is one. -/
structure Node where
  id : ℕ
  parent : Parent
  rank : ℕ
  weight : ℕ
  stream : Bool

/-- The connection: the nodes at their addresses, the next address of the pool, the
links of all queues, and the nodes of each place of `streams_index`. -/
structure Dependencies where
  nodes : ℕ → Node
  fresh : ℕ
  links : Links QueueLink
  streamsIndex : ℕ → List ℕ
  closedNodes : ℕ
  lastSid : ℕ
  lastPush : ℕ

/-- The priority of a HEADERS or PRIORITY frame; `weight` is its byte. -/
structure Priority where
  depend : ℕ
  exclusive : Bool
  weight : UInt8

namespace Dependencies

def setNode (c : Dependencies) (node : ℕ) (f : Node → Node) : Dependencies :=
  { c with nodes := Function.update c.nodes node (f (c.nodes node)) }

def zeroNode (c : Dependencies) (node : ℕ) : Dependencies :=
  let zeroLink (l : Links QueueLink) (a : QueueLink) := (l.setPrev a .null).setNext a .null
  { c with
    nodes := Function.update c.nodes node ⟨0, .null, 0, 0, false⟩
    links := zeroLink (zeroLink (zeroLink c.links (.queue node)) (.children node)) (.reuse node) }

/-- The node of a link `queue`. -/
def queueData : QueueLink → Option ℕ
  | .queue node => some node
  | _ => none

/-- The nodes of a queue of children. -/
def childrenOf (c : Dependencies) (h : QueueLink) : Option (List ℕ) := do
  (← c.links.elements h c.fresh (c.links.next h)).mapM queueData

def nodeChildrenUpdate : ℕ → Dependencies → ℕ → Option Dependencies
  | 0, _, _ => none
  | n + 1, c, node => do
      (← c.childrenOf (.children node)).foldlM
        (fun c child =>
          nodeChildrenUpdate n
            (c.setNode child fun x => { x with rank := (c.nodes node).rank + 1 }) child) c

def ngxHttpV2Index (mask sid : ℕ) : ℕ :=
  (sid >>> 1) &&& mask

/-- The loop of `ngx_http_v2_get_node_by_id`. -/
def findNode (mask : ℕ) (c : Dependencies) (sid : ℕ) : Option ℕ :=
  (c.streamsIndex (ngxHttpV2Index mask sid)).find? fun node => (c.nodes node).id == sid

/-- The weight of a child of a node that is given up. -/
def inheritedWeight (node child total : ℕ) : ℕ :=
  if node * child / total = 0 then 1 else node * child / total

/-- The children of a node that is given up get its parent and a part of its weight. -/
def orphan (parent : Parent) (weight total : ℕ) (c : Dependencies) (children : List ℕ) :
    Dependencies :=
  children.foldl
    (fun c child => c.setNode child fun x =>
      { x with parent := parent, weight := inheritedWeight weight x.weight total }) c

/-- The rank that a node that is given up takes of its parent. -/
def rankAbove (c : Dependencies) : Parent → Option ℕ
  | .null => none
  | .root => some 0
  | .node p => some (c.nodes p).rank

/-- The part of `ngx_http_v2_get_closed_node` behind the loop over `streams_index`: the
node leaves the tree. -/
def giveUp (c : Dependencies) (node : ℕ) : Option Dependencies :=
  let c := { c with links := c.links.remove (.queue node) }
  (c.childrenOf (.children node)).bind fun children =>
    let weight := (children.map fun child => (c.nodes child).weight).sum
    if weight = 0 ∧ children ≠ [] then none
    else
      let parent := (c.nodes node).parent
      let c := orphan parent (c.nodes node).weight weight c children
      (c.rankAbove parent).bind fun rank =>
        let c := c.setNode node fun x => { x with rank := rank }
        (nodeChildrenUpdate (c.fresh + 1) c node).bind fun c =>
          let c := { c with links := c.links.add parent.children (.children node) }
          some (c.zeroNode node)

def ngxHttpV2GetClosedNode (mask : ℕ) (c : Dependencies) : Option (ℕ × Dependencies) :=
  match c.links.next .closed with
  | .reuse node =>
      let c := { c with closedNodes := c.closedNodes - 1, links := c.links.remove (.reuse node) }
      let index := ngxHttpV2Index mask (c.nodes node).id
      if node ∈ c.streamsIndex index then
        let c := { c with
          streamsIndex := Function.update c.streamsIndex index ((c.streamsIndex index).erase node) }
        (c.giveUp node).map fun c => (node, c)
      else none
  | _ => none

/-- The memory of a new node; allocations do not fail. -/
def newNode (mask : ℕ) (c : Dependencies) : Option (ℕ × Dependencies) :=
  if c.closedNodes < 32 then
    some (c.fresh, ({ c with fresh := c.fresh + 1 } : Dependencies).zeroNode c.fresh)
  else ngxHttpV2GetClosedNode mask c

/-- A new node gets its identifier and goes to `streams_index`. -/
def addIndex (mask : ℕ) (c : Dependencies) (node sid : ℕ) : Dependencies :=
  let c := c.setNode node fun x => { x with id := sid }
  let index := ngxHttpV2Index mask sid
  { c with
    links := c.links.init (.children node)
    streamsIndex := Function.update c.streamsIndex index (node :: c.streamsIndex index) }

/-- `ngx_http_v2_get_node_by_id` with `alloc`. -/
def ngxHttpV2GetNodeById (mask : ℕ) (c : Dependencies) (sid : ℕ) :
    Option (ℕ × Dependencies) :=
  match findNode mask c sid with
  | some node => some (node, c)
  | none => (newNode mask c).map fun (node, c) => (node, c.addIndex mask node sid)

/-- The loop of `ngx_http_v2_set_dependency`: whether `node` is above `next` or is
`next`. -/
def findAbove (c : Dependencies) (node : ℕ) : ℕ → Parent → Option Bool
  | _, .root => some false
  | _, .null => none
  | 0, .node _ => none
  | n + 1, .node next =>
      if (c.nodes node).rank ≤ (c.nodes next).rank then
        if next = node then some true else findAbove c node n (c.nodes next).parent
      else some false

def childRank (c : Dependencies) : Parent → ℕ
  | .node p => (c.nodes p).rank + 1
  | _ => 1

/-- A parent that is below its new child takes the child's place. -/
def raise (c : Dependencies) (node parent : ℕ) : Dependencies :=
  let c := { c with
    links := (c.links.remove (.queue parent)).insertHead (.queue node) (.queue parent) }
  let above := (c.nodes node).parent
  let c := c.setNode parent fun x => { x with parent := above }
  c.setNode parent fun x => { x with rank := c.childRank above }

/-- The same with the ranks of its children, when they stay its children. -/
def moveUp (c : Dependencies) (node parent : ℕ) (exclusive : Bool) : Option Dependencies :=
  let c := c.raise node parent
  if exclusive then some c else nodeChildrenUpdate (c.fresh + 1) c parent

/-- A node that is in the tree and above its new parent is found there. -/
def yield (c : Dependencies) (node parent : ℕ) (exclusive : Bool) : Option Dependencies :=
  if (c.nodes node).parent = .null then some c
  else
    (c.findAbove node (c.fresh + 1) (c.nodes parent).parent).bind fun found =>
      if found then c.moveUp node parent exclusive else some c

/-- `node` takes the children of a queue. -/
def takeChildren (c : Dependencies) (node : ℕ) (children : QueueLink) : Option Dependencies := do
  let c := (← c.childrenOf children).foldl
    (fun c child => c.setNode child fun x => { x with parent := .node node }) c
  some { c with links := (c.links.add (.children node) children).init children }

/-- The node leaves its queue and becomes the last child of `parent`. -/
def putUnder (c : Dependencies) (node : ℕ) (parent : Parent) : Dependencies :=
  let c :=
    if (c.nodes node).parent ≠ .null then { c with links := c.links.remove (.queue node) } else c
  let c := { c with links := c.links.insertTail parent.children (.queue node) }
  c.setNode node fun x => { x with parent := parent }

/-- The last part of `ngx_http_v2_set_dependency`. -/
def attach (c : Dependencies) (node : ℕ) (parent : Parent) (exclusive : Bool) :
    Option Dependencies :=
  (if exclusive then c.takeChildren node parent.children else some c).bind fun c =>
    let c := c.putUnder node parent
    nodeChildrenUpdate (c.fresh + 1) c node

/-- A closed node moves to the end of `h2c->closed`. -/
def touchClosed (c : Dependencies) (node : ℕ) : Dependencies :=
  if (c.nodes node).stream then c
  else { c with links := (c.links.remove (.reuse node)).insertTail .closed (.reuse node) }

def ngxHttpV2SetDependency (mask : ℕ) (c : Dependencies) (node depend : ℕ) (exclusive : Bool) :
    Option Dependencies :=
  match if depend = 0 then none else findNode mask c depend with
  | none =>
      let c := c.setNode node fun x => { x with rank := 1 }
      c.attach node .root (exclusive && depend == 0)
  | some parent =>
      (c.yield node parent exclusive).bind fun c =>
        let c := c.setNode node fun x => { x with rank := (c.nodes parent).rank + 1 }
        let c := c.touchClosed parent
        c.attach node (.node parent) exclusive

/-- A node gets a stream. -/
def giveStream (c : Dependencies) (node : ℕ) : Dependencies :=
  let c :=
    if (c.nodes node).parent ≠ .null then
      { c with closedNodes := c.closedNodes - 1, links := c.links.remove (.reuse node) }
    else c
  c.setNode node fun x => { x with stream := true }

def defaultWeight : ℕ := 16

/-- The part of `ngx_http_v2_state_headers` behind the parsing of the frame; a stream
can be refused.  An error of the connection changes nothing here. -/
def headers (mask : ℕ) (c : Dependencies) (sid : ℕ) (priority : Option Priority)
    (refused : Bool) : Option Dependencies :=
  let depend := (priority.map Priority.depend).getD 0
  let exclusive := (priority.map Priority.exclusive).getD false
  let weight := (priority.map fun p => p.weight.toNat + 1).getD defaultWeight
  if sid % 2 = 0 ∨ sid ≤ c.lastSid then some c
  else if depend = sid then some c
  else
    let c := { c with lastSid := sid }
    if refused then some c
    else
      (ngxHttpV2GetNodeById mask c sid).bind fun (node, c) =>
        let c := c.giveStream node
        if priority.isSome ∨ (c.nodes node).parent = .null then
          let c := c.setNode node fun x => { x with weight := weight }
          ngxHttpV2SetDependency mask c node depend exclusive
        else some c

/-- A node without a stream goes to the end of `h2c->closed`. -/
def keepClosed (c : Dependencies) (node : ℕ) : Dependencies :=
  if (c.nodes node).stream then c
  else
    let c :=
      if (c.nodes node).parent = .null then { c with closedNodes := c.closedNodes + 1 }
      else { c with links := c.links.remove (.reuse node) }
    { c with links := c.links.insertTail .closed (.reuse node) }

/-- The part of `ngx_http_v2_state_priority` behind the parsing of the frame. -/
def priority (mask : ℕ) (c : Dependencies) (sid : ℕ) (p : Priority) : Option Dependencies :=
  if sid = 0 then some c
  else if p.depend = sid then some c
  else
    (ngxHttpV2GetNodeById mask c sid).bind fun (node, c) =>
      let c := c.setNode node fun x => { x with weight := p.weight.toNat + 1 }
      let c := c.keepClosed node
      ngxHttpV2SetDependency mask c node p.depend p.exclusive

/-- `ngx_http_v2_push_stream` for the stream of a node, with the next identifier. -/
def push (mask : ℕ) (c : Dependencies) (parent : ℕ) : Option Dependencies :=
  let c := { c with lastPush := c.lastPush + 2 }
  (ngxHttpV2GetNodeById mask c c.lastPush).bind fun (node, c) =>
    let c := c.giveStream node
    let c := c.setNode node fun x => { x with weight := defaultWeight }
    ngxHttpV2SetDependency mask c node (c.nodes parent).id false

/-- The part of `ngx_http_v2_close_stream` for the node of a stream. -/
def closeStream (c : Dependencies) (node : ℕ) : Dependencies :=
  let c := c.setNode node fun x => { x with stream := false }
  { c with
    closedNodes := c.closedNodes + 1
    links := c.links.insertTail .closed (.reuse node) }

/-- What happens to a connection. -/
inductive Event where
  | headers (sid : ℕ) (priority : Option Priority) (refused : Bool)
  | priority (sid : ℕ) (priority : Priority)
  | push (parent : ℕ)
  | close (node : ℕ)

/-- One event; only a stream can push and be closed. -/
def step (mask : ℕ) (c : Dependencies) : Event → Option Dependencies
  | .headers sid priority refused => c.headers mask sid priority refused
  | .priority sid priority => c.priority mask sid priority
  | .push parent => if (c.nodes parent).stream then c.push mask parent else some c
  | .close node => if (c.nodes node).stream then some (c.closeStream node) else some c

def run (mask : ℕ) (c : Dependencies) (events : List Event) : Option Dependencies :=
  events.foldlM (step mask) c

/-- A new connection: the memory of no node has been allocated. -/
def initial : Dependencies where
  nodes := fun _ => ⟨0, .null, 0, 0, false⟩
  fresh := 0
  links := ((⟨fun _ => .null, fun _ => .null⟩ : Links QueueLink).init .dependencies).init .closed
  streamsIndex := fun _ => []
  closedNodes := 0
  lastSid := 0
  lastPush := 0

end Dependencies

end MultiversionBalancer.Http2
