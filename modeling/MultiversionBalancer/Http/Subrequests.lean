import MultiversionBalancer.Lib.Run
import Mathlib.Data.List.Chain
import Mathlib.Logic.Function.Basic

/-!
# Subrequests and the postpone filter

The requests that answer one client: the main request and the subrequests that any of them
starts.  One of them, `c->data`, sends what it puts out; the others leave their output and
their subrequests in the lists `postponed` until it is their turn.

From `ngx_http_postpone_filter_module.c`, and from `ngx_http_subrequest` and
`ngx_http_finalize_request` what decides whose turn it is.
-/

namespace MultiversionBalancer.Http

/-- `ngx_http_postponed_request_t`: output of a request, or one of its subrequests. -/
inductive PostponedRequest where
  | out (bytes : List UInt8)
  | request (r : ℕ)
  deriving DecidableEq

/-- What a request puts into the response: a byte, or all that a subrequest puts there. -/
inductive DocumentItem where
  | byte (b : UInt8)
  | request (r : ℕ)
  deriving DecidableEq

def DocumentItem.bytes (inner : ℕ → List UInt8) : DocumentItem → List UInt8
  | .byte b => [b]
  | .request r => inner r

/-- The fields of `ngx_http_request_s` that the filter and the functions around it read.  `out`
is the buffer of a subrequest in memory: what it holds and how much it can hold.  `document` is
what the request has put out so far, which no function reads. -/
structure ResponsePart where
  parent : Option ℕ
  subrequests : ℕ
  background : Bool
  subrequestInMemory : Bool
  postponed : List PostponedRequest
  out : Option (List UInt8 × ℕ)
  done : Bool
  document : List DocumentItem

/-- The requests of one client, numbered as they are created from the main request `0` on.
`data` is `c->data`, `count` is `r->main->count`, and `sent` is what the next filter was given. -/
structure Responses where
  request : ℕ → ResponsePart
  created : ℕ
  data : ℕ
  count : ℕ
  sent : List UInt8

namespace Responses

/-- The request `r` changes. -/
def modify (s : Responses) (r : ℕ) (f : ResponsePart → ResponsePart) : Responses :=
  { s with request := Function.update s.request r (f (s.request r)) }

@[simp] theorem modify_data (s : Responses) (r : ℕ) (f : ResponsePart → ResponsePart) :
    (s.modify r f).data = s.data := rfl

@[simp] theorem modify_created (s : Responses) (r : ℕ) (f : ResponsePart → ResponsePart) :
    (s.modify r f).created = s.created := rfl

@[simp] theorem modify_sent (s : Responses) (r : ℕ) (f : ResponsePart → ResponsePart) :
    (s.modify r f).sent = s.sent := rfl

theorem modify_self (s : Responses) (r : ℕ) (f : ResponsePart → ResponsePart) :
    (s.modify r f).request r = f (s.request r) :=
  Function.update_self ..

theorem modify_of_ne (s : Responses) {r x : ℕ} (f : ResponsePart → ResponsePart) (h : x ≠ r) :
    (s.modify r f).request x = s.request x :=
  Function.update_of_ne h ..

theorem modify_field (s : Responses) (r : ℕ) {f : ResponsePart → ResponsePart} {β : Type}
    (g : ResponsePart → β) (hg : ∀ q, g (f q) = g q) (x : ℕ) :
    g ((s.modify r f).request x) = g (s.request x) := by
  by_cases hx : x = r
  · rw [hx, modify_self, hg]
  · rw [modify_of_ne s f hx]

/-- The main request before it has put out anything; `NGX_HTTP_MAX_SUBREQUESTS` is 50. -/
def start : Responses where
  request := fun _ => ⟨none, 51, false, false, [], none, false, []⟩
  created := 1
  data := 0
  count := 1
  sent := []

def items (bytes : List UInt8) : List DocumentItem := bytes.map .byte

/-- `ngx_http_postpone_filter_add`, for the list: output goes to the last output of the list
when nothing comes after it. -/
def addOut : List PostponedRequest → List UInt8 → List PostponedRequest
  | [], bytes => [.out bytes]
  | [.out b], bytes => [.out (b ++ bytes)]
  | pr :: postponed, bytes => pr :: addOut postponed bytes

def postponeFilterAdd (s : Responses) (r : ℕ) (bytes : List UInt8) : Responses :=
  s.modify r fun q => { q with
    postponed := addOut q.postponed bytes
    document := q.document ++ items bytes }

/-- Output goes to the next filter. -/
def pass (s : Responses) (r : ℕ) (bytes : List UInt8) : Responses :=
  { s.modify r fun q => { q with document := q.document ++ items bytes } with
    sent := s.sent ++ bytes }

/-- The list `postponed` of a request is set. -/
def setPostponed (s : Responses) (r : ℕ) (l : List PostponedRequest) : Responses :=
  s.modify r fun q => { q with postponed := l }

theorem setPostponed_self (s : Responses) (r : ℕ) (l : List PostponedRequest) :
    (s.setPostponed r l).request r = { s.request r with postponed := l } :=
  s.modify_self ..

theorem setPostponed_of_ne (s : Responses) {r x : ℕ} (l : List PostponedRequest) (h : x ≠ r) :
    (s.setPostponed r l).request x = s.request x :=
  s.modify_of_ne _ h

theorem setPostponed_field (s : Responses) (r : ℕ) (l : List PostponedRequest) {β : Type}
    (g : ResponsePart → β) (hg : ∀ q, g { q with postponed := l } = g q) (x : ℕ) :
    g ((s.setPostponed r l).request x) = g (s.request x) :=
  s.modify_field r (f := fun q => { q with postponed := l }) g hg x

theorem setPostponed_eq_self {s : Responses} {r : ℕ} {l : List PostponedRequest}
    (hl : (s.request r).postponed = l) : s.setPostponed r l = s := by
  rw [setPostponed, modify, ← hl, Function.update_eq_self]

/-- To send output is to postpone it and to send it then. -/
theorem pass_eq {s : Responses} {r : ℕ} (bytes : List UInt8)
    (hempty : (s.request r).postponed = []) :
    s.pass r bytes = { (s.postponeFilterAdd r bytes).setPostponed r [] with
      sent := (s.postponeFilterAdd r bytes).sent ++ bytes } := by
  simp only [pass, postponeFilterAdd, setPostponed, modify, Function.update_self,
    Function.update_idem, hempty]

/-- The loop of `ngx_http_postpone_filter` over the list `postponed` of the request `r`: output
is sent up to a subrequest, which has its turn next. -/
def flush (s : Responses) (r : ℕ) : List PostponedRequest → Responses
  | [] => s
  | .out bytes :: postponed =>
    flush { s.setPostponed r postponed with sent := s.sent ++ bytes } r postponed
  | .request sr :: postponed => { s.setPostponed r postponed with data := sr }

/-- The buffer of a subrequest in memory, which is created by its first output: `size` is
`subrequest_output_buffer_size`, and the length of the response is known or not. -/
def memoryBuffer (size : ℕ) (q : ResponsePart) (length : Option ℕ) :
    Option (List UInt8 × ℕ) :=
  match q.out, length with
  | some out, _ => some out
  | none, some n => if n ≤ size then some ([], n) else none
  | none, none => some ([], size)

/-- `ngx_http_postpone_filter_in_memory`, which fails when the response is too big. -/
def postponeFilterInMemory (size : ℕ) (s : Responses) (r : ℕ) (length : Option ℕ)
    (bytes : List UInt8) : Option Responses :=
  (memoryBuffer size (s.request r) length).bind fun b =>
    if bytes.length ≤ b.2 - b.1.length then
      some (s.modify r fun q => { q with out := some (b.1 ++ bytes, b.2) })
    else none

/-- `ngx_http_postpone_filter`, where the next filter takes what it is given. -/
def postponeFilter (size : ℕ) (s : Responses) (r : ℕ) (length : Option ℕ)
    (input : Option (List UInt8)) : Option Responses :=
  if (s.request r).subrequestInMemory then
    s.postponeFilterInMemory size r length (input.getD [])
  else if r ≠ s.data then
    match input with
    | some bytes => some (s.postponeFilterAdd r bytes)
    | none => some s
  else if (s.request r).postponed = [] then some (s.pass r (input.getD []))
  else
    let s := match input with
      | some bytes => s.postponeFilterAdd r bytes
      | none => s
    some (s.flush r (s.request r).postponed)

/-- A new subrequest of the request `r`. -/
def create (s : Responses) (r : ℕ) (background inMemory : Bool) : Responses :=
  { s with
    request := Function.update s.request s.created
      ⟨some r, (s.request r).subrequests - 1, background, inMemory, [], none, false, []⟩
    created := s.created + 1
    count := s.count + 1 }

def post (s : Responses) (r sr : ℕ) : Responses :=
  s.modify r fun q => { q with
    postponed := q.postponed ++ [.request sr]
    document := q.document ++ [.request sr] }

/-- `ngx_http_subrequest`, where the allocations succeed. -/
def subrequest (s : Responses) (r : ℕ) (background inMemory : Bool) : Option Responses :=
  if (s.request r).subrequests = 0 then none
  else if 65535 - 1000 ≤ s.count then none
  else if (s.request r).subrequestInMemory then none
  else if background then some (s.create r background inMemory)
  else
    let data := if s.data = r ∧ (s.request r).postponed = [] then s.created else s.data
    some { (s.create r background inMemory).post r s.created with data := data }

def setDone (s : Responses) (r : ℕ) : Responses :=
  { s.modify r fun q => { q with done := true } with count := s.count - 1 }

theorem setDone_self (s : Responses) (r : ℕ) :
    (s.setDone r).request r = { s.request r with done := true } :=
  s.modify_self r fun q => { q with done := true }

theorem setDone_of_ne (s : Responses) {r x : ℕ} (h : x ≠ r) :
    (s.setDone r).request x = s.request x :=
  s.modify_of_ne (fun q => { q with done := true }) h

theorem setDone_field (s : Responses) (r : ℕ) {β : Type} (g : ResponsePart → β)
    (hg : ∀ q : ResponsePart, g { q with done := true } = g q) (x : ℕ) :
    g ((s.setDone r).request x) = g (s.request x) :=
  s.modify_field r (f := fun q => { q with done := true }) g hg x

/-- The list `postponed` without the request `r`, if that comes first. -/
def unpost (r : ℕ) (postponed : List PostponedRequest) : List PostponedRequest :=
  if postponed.head? = some (.request r) then postponed.tail else postponed

/-- What `ngx_http_finalize_request` does to a subrequest that has its turn: the parent goes on. -/
def finalizeActive (s : Responses) (r pr : ℕ) : Responses :=
  { (s.setDone r).setPostponed pr (unpost r (s.request pr).postponed) with data := pr }

/-- `ngx_http_finalize_request` with `NGX_OK`, for a request of which no filter holds a buffer:
a request waits while it has postponed anything. -/
def finalizeRequest (s : Responses) (r : ℕ) : Responses :=
  match (s.request r).parent with
  | some pr =>
    if (s.request r).postponed ≠ [] then s
    else if (s.request r).background then s.setDone r
    else if r = s.data then s.finalizeActive r pr
    else s
  | none =>
    if (s.request r).postponed ≠ [] ∨ r ≠ s.data then s
    else s.setDone r

end Responses

/-- What a request does. -/
inductive ResponseEvent where
  | output (r : ℕ) (length : Option ℕ) (input : Option (List UInt8))
  | subrequest (r : ℕ) (background inMemory : Bool)
  | finalize (r : ℕ)

def ResponseEvent.request : ResponseEvent → ℕ
  | .output r _ _ | .subrequest r _ _ | .finalize r => r

namespace Responses

/-- The next state, where a request that has been finalized does nothing any more; there is
none when a function fails. -/
def next (size : ℕ) (s : Responses) (e : ResponseEvent) : Option Responses :=
  if e.request < s.created ∧ (s.request e.request).done = false then
    match e with
    | .output r length input => s.postponeFilter size r length input
    | .subrequest r background inMemory => s.subrequest r background inMemory
    | .finalize r => some (s.finalizeRequest r)
  else none

/-- The states of the response to a client, whatever its requests do and in whichever order. -/
def Reaches (size : ℕ) (s : Responses) : Prop :=
  Lib.Reach (fun s => s = start) (fun _ _ => True) (fun s e s' => s.next size e = some s') s

/-- What every request has put out. -/
def documents (s : Responses) (r : ℕ) : List DocumentItem := (s.request r).document

/-- The bytes of items, where subrequests nested `n` deep put theirs in their places. -/
def render (documents : ℕ → List DocumentItem) : ℕ → List DocumentItem → List UInt8
  | 0, is => is.flatMap (DocumentItem.bytes fun _ => [])
  | n + 1, is => is.flatMap (DocumentItem.bytes fun r => render documents n (documents r))

/-- What a request has put out so far, its subrequests in the places where it started them. -/
def document (s : Responses) (r : ℕ) : List UInt8 :=
  render s.documents (s.request r).subrequests (s.documents r)

end Responses

end MultiversionBalancer.Http
