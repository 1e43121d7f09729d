import MultiversionBalancer.Http.Subrequests

/-!
# Subrequests answer in their places

Whatever the requests of a client do, and in whichever order, the client gets what the main
request puts out with the output of every subrequest in the place where it was started.

The requests from `c->data` up to the main request have sent the beginnings of what they put
out; all that the others put out is still postponed, or has been sent as a whole.
-/

namespace MultiversionBalancer.Http

open Function

namespace Responses

/-- The items of what a request has postponed. -/
def pending (postponed : List PostponedRequest) : List DocumentItem :=
  postponed.flatMap fun
    | .out bytes => items bytes
    | .request r => [.request r]

@[simp] theorem pending_nil : pending [] = [] := rfl

@[simp] theorem pending_out (bytes : List UInt8) (l : List PostponedRequest) :
    pending (.out bytes :: l) = items bytes ++ pending l := rfl

@[simp] theorem pending_request (r : ℕ) (l : List PostponedRequest) :
    pending (.request r :: l) = .request r :: pending l := rfl

theorem pending_append (l l' : List PostponedRequest) :
    pending (l ++ l') = pending l ++ pending l' :=
  List.flatMap_append

@[simp] theorem items_append (b b' : List UInt8) : items (b ++ b') = items b ++ items b' :=
  List.map_append

theorem request_not_mem_items (c : ℕ) (bytes : List UInt8) : .request c ∉ items bytes := by
  simp [items]

theorem request_mem_pending {c : ℕ} {l : List PostponedRequest} :
    .request c ∈ pending l ↔ .request c ∈ l := by
  induction l with
  | nil => simp
  | cons pr l ih =>
      cases pr with
      | out bytes => simp [ih, request_not_mem_items]
      | request r => simp [ih]

/-! ## Rendering -/

variable {doc doc' : ℕ → List DocumentItem}

@[simp] theorem render_nil (n : ℕ) : render doc n [] = [] := by
  cases n with
  | zero => rfl
  | succ n => rfl

theorem render_append (n : ℕ) (is is' : List DocumentItem) :
    render doc n (is ++ is') = render doc n is ++ render doc n is' := by
  cases n with
  | zero => exact List.flatMap_append
  | succ n => exact List.flatMap_append

theorem render_items (n : ℕ) (bytes : List UInt8) : render doc n (items bytes) = bytes := by
  have h (inner : ℕ → List UInt8) : (items bytes).flatMap (DocumentItem.bytes inner) = bytes := by
    induction bytes with
    | nil => rfl
    | cons b bytes ih => exact congrArg (b :: ·) ih
  cases n with
  | zero => exact h _
  | succ n => exact h _

theorem render_request (n r : ℕ) : render doc (n + 1) [.request r] = render doc n (doc r) :=
  List.append_nil _

/-- Rendering depends only on the documents that the items lead to. -/
theorem render_congr {D : ℕ → Prop} (hsame : ∀ c, D c → doc' c = doc c)
    (hclosed : ∀ c, D c → ∀ c', .request c' ∈ doc c → D c') (n : ℕ) {is : List DocumentItem}
    (his : ∀ c, .request c ∈ is → D c) : render doc' n is = render doc n is := by
  induction n generalizing is with
  | zero => rfl
  | succ n ih =>
      refine List.flatMap_congr fun i hi => ?_
      cases i with
      | byte b => rfl
      | request c =>
          have hc := his c hi
          rw [DocumentItem.bytes, DocumentItem.bytes, hsame c hc]
          exact ih (hclosed c hc)

/-! ## The invariant -/

/-- The request `p` waits for its subrequest `c`: it has put out `pre p` before `c`, and after
`c` what it has postponed. -/
structure Above (s : Responses) (pre : ℕ → List DocumentItem) (c p : ℕ) : Prop where
  parent : (s.request c).parent = some p
  document : ∃ l, ((s.request p).postponed = l ∨ (s.request p).postponed = .request c :: l) ∧
    s.documents p = pre p ++ .request c :: pending l

/-- What the requests have put out forms a tree. -/
structure Tree (s : Responses) : Prop where
  parent_lt : ∀ r p, (s.request r).parent = some p → p < r
  fresh : ∀ r, s.created ≤ r → s.request r = start.request r
  child : ∀ r c, .request c ∈ s.documents r → c < s.created ∧
    (s.request c).parent = some r ∧ (s.request c).background = false ∧
      (s.request r).subrequests = (s.request c).subrequests + 1
  once : ∀ r c, (s.documents r).count (.request c) ≤ 1

/-- The requests have put out the same, and come from the same requests. -/
structure SameTree (s s' : Responses) : Prop where
  created : s'.created = s.created
  parent : ∀ r, (s'.request r).parent = (s.request r).parent
  subrequests : ∀ r, (s'.request r).subrequests = (s.request r).subrequests
  background : ∀ r, (s'.request r).background = (s.request r).background
  documents : s'.documents = s.documents
  fresh : ∀ r, s.created ≤ r → s'.request r = s.request r

/-- The request that has its turn and those above it, up to the main request, have sent the
items `pre` of what they have put out. -/
structure InOrder (s : Responses) (above : List ℕ) (pre : ℕ → List DocumentItem) : Prop where
  tree : Tree s
  data_lt : s.data < s.created
  top : (s.data :: above).getLast? = some 0
  chain : (s.data :: above).IsChain (Above s pre)
  turn : s.documents s.data = pre s.data ++ pending (s.request s.data).postponed
  waiting : ∀ r, r ∉ s.data :: above → (s.request r).done = false →
    pre r = [] ∧ s.documents r = pending (s.request r).postponed
  finished : ∀ r, (s.request r).done = true →
    pre r = s.documents r ∧ (s.request r).postponed = [] ∧ (r ∈ s.data :: above → above = [])
  before : ∀ r c, .request c ∈ pre r → .request c ∈ s.documents r ∧ (s.request c).done = true
  after : ∀ r c, .request c ∈ (s.request r).postponed →
    .request c ∈ s.documents r ∧ (s.request c).done = false
  sent : s.sent = (s.data :: above).reverse.flatMap fun r =>
    render s.documents (s.request r).subrequests (pre r)

section Trees

variable {s s' : Responses}

theorem start_tree : Tree start where
  parent_lt r p h := by cases h
  fresh r _ := rfl
  child r c h := by cases h
  once r c := Nat.zero_le 1

theorem Tree.same (h : Tree s) (hs : SameTree s s') : Tree s' where
  parent_lt r p := by
    rw [hs.parent]
    exact h.parent_lt r p
  fresh r hr := by
    rw [hs.created] at hr
    rw [hs.fresh r hr, h.fresh r hr]
  child r c hc := by
    rw [hs.documents] at hc
    rw [hs.created, hs.parent, hs.background, hs.subrequests, hs.subrequests]
    exact h.child r c hc
  once r c := by
    rw [hs.documents]
    exact h.once r c

theorem SameTree.trans {s'' : Responses} (h : SameTree s s') (h' : SameTree s' s'') :
    SameTree s s'' where
  created := h'.created.trans h.created
  parent r := (h'.parent r).trans (h.parent r)
  subrequests r := (h'.subrequests r).trans (h.subrequests r)
  background r := (h'.background r).trans (h.background r)
  documents := h'.documents.trans h.documents
  fresh r hr := (h'.fresh r (by rwa [h.created])).trans (h.fresh r hr)

/-- Whether a request is done is not part of the tree. -/
theorem SameTree.setDone {r : ℕ} (hr : r < s.created) : SameTree s (s.setDone r) where
  created := rfl
  parent := setDone_field s r (·.parent) fun _ => rfl
  subrequests := setDone_field s r (·.subrequests) fun _ => rfl
  background := setDone_field s r (·.background) fun _ => rfl
  documents := funext (setDone_field s r (·.document) fun _ => rfl)
  fresh _ hx := s.setDone_of_ne (Nat.ne_of_gt (Nat.lt_of_lt_of_le hr hx))

theorem SameTree.setPostponed {r : ℕ} (hr : r < s.created) {l : List PostponedRequest}
    (hs : s'.request = (s.setPostponed r l).request) (hcreated : s'.created = s.created) :
    SameTree s s' where
  created := hcreated
  parent x := by
    rw [hs]
    exact s.setPostponed_field r l (·.parent) (fun _ => rfl) x
  subrequests x := by
    rw [hs]
    exact s.setPostponed_field r l (·.subrequests) (fun _ => rfl) x
  background x := by
    rw [hs]
    exact s.setPostponed_field r l (·.background) (fun _ => rfl) x
  documents := by
    funext x
    rw [Responses.documents, hs]
    exact s.setPostponed_field r l (·.document) (fun _ => rfl) x
  fresh x hx := by
    rw [hs]
    exact s.setPostponed_of_ne l (Nat.ne_of_gt (Nat.lt_of_lt_of_le hr hx))

theorem Tree.request_not_mem (h : Tree s) {c p : ℕ} {l : List PostponedRequest}
    {is : List DocumentItem} (hdoc : s.documents p = is ++ .request c :: pending l) :
    .request c ∉ l := by
  intro hmem
  have hcount := h.once p c
  have hpos := List.count_pos_iff.mpr (request_mem_pending.mpr hmem)
  rw [hdoc, List.count_append, List.count_cons_self] at hcount
  omega

/-- A request puts out more. -/
theorem Tree.extend (h : Tree s) {r : ℕ} (hr : r < s.created) {is : List DocumentItem}
    {l : List PostponedRequest}
    (hchild : ∀ c, .request c ∈ is → c < s.created ∧ (s.request c).parent = some r ∧
      (s.request c).background = false ∧
        (s.request r).subrequests = (s.request c).subrequests + 1)
    (honce : ∀ c, (s.documents r ++ is).count (.request c) ≤ 1) :
    Tree (s.modify r fun q => { q with postponed := l, document := q.document ++ is }) := by
  have hfield {β : Type} (g : ResponsePart → β)
      (hg : ∀ q, g { q with postponed := l, document := q.document ++ is } = g q) (x : ℕ) :=
    s.modify_field r g hg x
  have hdoc : (s.modify r fun q => { q with
      postponed := l, document := q.document ++ is }).documents =
      update s.documents r (s.documents r ++ is) := by
    funext x
    by_cases hx : x = r
    · rw [hx, documents, modify_self, update_self]
      rfl
    · rw [documents, modify_of_ne s _ hx, update_of_ne hx]
      rfl
  refine ⟨fun x p hp => ?_, fun x hx => ?_, fun x c hc => ?_, fun x c => ?_⟩
  · rw [hfield (·.parent) fun _ => rfl] at hp
    exact h.parent_lt x p hp
  · rw [modify_of_ne s _ (Nat.ne_of_gt (Nat.lt_of_lt_of_le hr hx))]
    exact h.fresh x hx
  · rw [hfield (·.parent) fun _ => rfl, hfield (·.background) fun _ => rfl,
      hfield (·.subrequests) fun _ => rfl, hfield (·.subrequests) fun _ => rfl]
    rw [hdoc] at hc
    by_cases hx : x = r
    · rw [hx, update_self] at hc
      rw [hx]
      exact (List.mem_append.mp hc).elim (h.child r c) (hchild c)
    · rw [update_of_ne hx] at hc
      exact h.child x c hc
  · rw [hdoc]
    by_cases hx : x = r
    · rw [hx, update_self]
      exact honce c
    · rw [update_of_ne hx]
      exact h.once x c

end Trees

namespace InOrder

variable {s : Responses} {above : List ℕ} {pre : ℕ → List DocumentItem}

theorem start_inOrder : InOrder start [] fun _ => [] where
  tree := start_tree
  data_lt := Nat.one_pos
  top := rfl
  chain := .singleton 0
  turn := rfl
  waiting r _ _ := ⟨rfl, rfl⟩
  finished r h := by cases h
  before r c h := by cases h
  after r c h := by cases h
  sent := rfl

/-- A subrequest has a higher number than the requests above it. -/
theorem sorted (h : InOrder s above pre) : (s.data :: above).Pairwise (· > ·) :=
  List.isChain_iff_pairwise.mp (h.chain.imp fun c p hc => h.tree.parent_lt c p hc.parent)

theorem lt_data (h : InOrder s above pre) {r : ℕ} (hr : r ∈ above) : r < s.data :=
  (List.pairwise_cons.mp h.sorted).1 r hr

theorem data_not_mem (h : InOrder s above pre) : s.data ∉ above := fun hmem =>
  absurd (h.lt_data hmem) (Nat.lt_irrefl _)

/-- What is rendered before a turn does not change with what a request adds that has not been
finalized. -/
theorem render_pre (h : InOrder s above pre) {doc' : ℕ → List DocumentItem}
    (hsame : ∀ c, (s.request c).done = true → doc' c = s.documents c) (n r : ℕ) :
    render doc' n (pre r) = render s.documents n (pre r) := by
  refine render_congr hsame (fun c hc c' hc' => ?_) n fun c hc => (h.before r c hc).2
  rw [← (h.finished c hc).1] at hc'
  exact (h.before c c' hc').2

/-- A request puts out more, and postpones it. -/
theorem extend (h : InOrder s above pre) {r : ℕ} (hr : r < s.created)
    (hdone : (s.request r).done = false) {is : List DocumentItem} {l : List PostponedRequest}
    (hpending : pending l = pending (s.request r).postponed ++ is)
    (hhead : ∀ c l₀, (s.request r).postponed = .request c :: l₀ →
      ∃ l₁, l = .request c :: l₁ ∧ pending l₁ = pending l₀ ++ is)
    (hchild : ∀ c, .request c ∈ is → c < s.created ∧ (s.request c).parent = some r ∧
      (s.request c).background = false ∧
        (s.request r).subrequests = (s.request c).subrequests + 1)
    (hnew : ∀ c, .request c ∈ is → (s.request c).done = false)
    (honce : ∀ c, (s.documents r ++ is).count (.request c) ≤ 1) :
    InOrder (s.modify r fun q => { q with postponed := l, document := q.document ++ is })
      above pre := by
  have htree := h.tree.extend (l := l) hr hchild honce
  generalize hs' : (s.modify r fun q => { q with
    postponed := l, document := q.document ++ is }) = s' at htree ⊢
  have hself : s'.request r = { s.request r with
      postponed := l, document := (s.request r).document ++ is } := by
    rw [← hs', modify_self]
  have hne {x : ℕ} (hx : x ≠ r) : s'.request x = s.request x := by
    rw [← hs', modify_of_ne s _ hx]
  have hfield {β : Type} (g : ResponsePart → β)
      (hg : ∀ q, g { q with postponed := l, document := q.document ++ is } = g q) (x : ℕ) :
      g (s'.request x) = g (s.request x) := by
    rw [← hs']
    exact s.modify_field r g hg x
  have hdoc : s'.documents r = s.documents r ++ is := congrArg ResponsePart.document hself
  have hdocne {x : ℕ} (hx : x ≠ r) : s'.documents x = s.documents x :=
    congrArg ResponsePart.document (hne hx)
  have hmem {x : ℕ} {i : DocumentItem} (hi : i ∈ s.documents x) : i ∈ s'.documents x := by
    by_cases hx : x = r
    · rw [hx] at hi ⊢
      rw [hdoc]
      exact List.mem_append_left _ hi
    · rwa [hdocne hx]
  have hdata : s'.data = s.data := by rw [← hs', modify_data]
  have hnotdone {x : ℕ} (hx : (s.request x).done = true) : x ≠ r := by
    rintro rfl
    rw [hdone] at hx
    cases hx
  refine ⟨htree, ?_, ?_, ?_, ?_, fun x hx hxdone => ?_, fun x hx => ?_, fun x c hc => ?_,
    fun x c hc => ?_, ?_⟩
  · rw [hdata, ← hs', modify_created]
    exact h.data_lt
  · rw [hdata]
    exact h.top
  · rw [hdata]
    refine h.chain.imp fun c p hc => ⟨(hfield (·.parent) (fun _ => rfl) c).trans hc.parent, ?_⟩
    obtain ⟨l₀, hl₀, hbefore⟩ := hc.document
    by_cases hp : p = r
    · subst hp
      rcases hl₀ with hl₀ | hl₀
      · refine ⟨l, .inl (by rw [hself]), ?_⟩
        rw [hdoc, hbefore, hpending, hl₀, List.append_assoc, List.cons_append]
      · obtain ⟨l₁, hl₁, hpending₁⟩ := hhead c l₀ hl₀
        refine ⟨l₁, .inr (by rw [hself, hl₁]), ?_⟩
        rw [hdoc, hbefore, hpending₁, List.append_assoc, List.cons_append]
    · rw [hne hp, hdocne hp]
      exact ⟨l₀, hl₀, hbefore⟩
  · rw [hdata]
    have hturn := h.turn
    by_cases hx : s.data = r
    · rw [hx] at hturn ⊢
      rw [hdoc, hturn, hself, hpending, List.append_assoc]
    · rw [hne hx, hdocne hx]
      exact hturn
  · rw [hdata] at hx
    rw [hfield (·.done) fun _ => rfl] at hxdone
    obtain ⟨hpre, hwaiting⟩ := h.waiting x hx hxdone
    refine ⟨hpre, ?_⟩
    by_cases hxr : x = r
    · subst hxr
      rw [hdoc, hwaiting, hself, hpending]
    · rw [hne hxr, hdocne hxr, hwaiting]
  · rw [hfield (·.done) fun _ => rfl] at hx
    rw [hdata, hne (hnotdone hx), hdocne (hnotdone hx)]
    exact h.finished x hx
  · rw [hfield (·.done) fun _ => rfl]
    exact (h.before x c hc).imp_left hmem
  · rw [hfield (·.done) fun _ => rfl]
    by_cases hxr : x = r
    · subst hxr
      rw [hself] at hc
      have hitem := request_mem_pending.mpr hc
      rw [hpending] at hitem
      rw [hdoc]
      rcases List.mem_append.mp hitem with hitem | hitem
      · exact (h.after x c (request_mem_pending.mp hitem)).imp_left (List.mem_append_left _)
      · exact ⟨List.mem_append_right _ hitem, hnew c hitem⟩
    · rw [hne hxr] at hc
      exact (h.after x c hc).imp_left hmem
  · rw [hdata, ← hs', modify_sent, hs', h.sent]
    refine List.flatMap_congr fun x _ => ?_
    rw [h.render_pre (fun c hc => hdocne (hnotdone hc)), hfield (·.subrequests) fun _ => rfl]

/-! ## Output -/

theorem pending_addOut (l : List PostponedRequest) (bytes : List UInt8) :
    pending (addOut l bytes) = pending l ++ items bytes := by
  induction l with
  | nil => simp [addOut]
  | cons pr l ih =>
      cases pr with
      | request r =>
          rw [addOut, pending_request, pending_request, ih, List.cons_append]
          simp
      | out b =>
          cases l with
          | nil => simp [addOut]
          | cons pr' l =>
              rw [addOut, pending_out, pending_out, ih, List.append_assoc]
              simp

theorem postponeFilterAdd (h : InOrder s above pre) {r : ℕ} (hr : r < s.created)
    (hdone : (s.request r).done = false) (bytes : List UInt8) :
    InOrder (s.postponeFilterAdd r bytes) above pre := by
  have hkeep := h.extend hr hdone
    (pending_addOut (s.request r).postponed bytes) ?_ ?_ ?_ ?_
  · exact hkeep
  · intro c l₀ hl₀
    refine ⟨addOut l₀ bytes, ?_, pending_addOut _ _⟩
    rw [hl₀, addOut]
    simp
  · exact fun c hc => absurd hc (request_not_mem_items c bytes)
  · exact fun c hc => absurd hc (request_not_mem_items c bytes)
  · intro c
    rw [List.count_append, List.count_eq_zero_of_not_mem (request_not_mem_items c bytes)]
    exact h.tree.once r c

/-- What has been sent, apart from what the request with the turn has sent. -/
theorem sent_eq (h : InOrder s above pre) :
    s.sent = (above.reverse.flatMap fun r =>
      render s.documents (s.request r).subrequests (pre r)) ++
        render s.documents (s.request s.data).subrequests (pre s.data) := by
  rw [h.sent, List.reverse_cons, List.flatMap_append, List.flatMap_singleton]

/-- The output that the request with the turn has postponed first is sent. -/
theorem emit (h : InOrder s above pre) {bytes : List UInt8} {l : List PostponedRequest}
    (hpost : (s.request s.data).postponed = .out bytes :: l) :
    InOrder { s.setPostponed s.data l with sent := s.sent ++ bytes } above
      (update pre s.data (pre s.data ++ items bytes)) := by
  generalize hs' : ({ s.setPostponed s.data l with sent := s.sent ++ bytes } : Responses) = s'
  have hrequest : s'.request = (s.setPostponed s.data l).request := by rw [← hs']
  have hdata : s'.data = s.data := by
    rw [← hs']
    rfl
  have hsame : SameTree s s' := .setPostponed h.data_lt hrequest (by rw [← hs']; rfl)
  have hself : s'.request s.data = { s.request s.data with postponed := l } := by
    rw [hrequest, setPostponed_self]
  have hne {x : ℕ} (hx : x ≠ s.data) : s'.request x = s.request x := by
    rw [hrequest, setPostponed_of_ne s _ hx]
  have hdone (x : ℕ) : (s'.request x).done = (s.request x).done := by
    rw [hrequest, setPostponed_field s s.data _ (·.done) fun _ => rfl]
  refine ⟨h.tree.same hsame, ?_, ?_, ?_, ?_, fun x hx hxdone => ?_, fun x hx => ?_,
    fun x c hc => ?_, fun x c hc => ?_, ?_⟩
  · rw [hdata, hsame.created]
    exact h.data_lt
  · rw [hdata]
    exact h.top
  · rw [hdata]
    refine h.chain.imp_of_mem_tail_imp fun c p _ hp hc => ?_
    have hpd : p ≠ s.data := by
      rintro rfl
      exact h.data_not_mem hp
    refine ⟨(hsame.parent c).trans hc.parent, ?_⟩
    rw [hne hpd, hsame.documents, update_of_ne hpd]
    exact hc.document
  · rw [hdata, hsame.documents, update_self, hself, h.turn, hpost, pending_out, List.append_assoc]
  · rw [hdata] at hx
    have hxd : x ≠ s.data := List.ne_of_not_mem_cons hx
    rw [hdone] at hxdone
    rw [update_of_ne hxd, hne hxd, hsame.documents]
    exact h.waiting x hx hxdone
  · rw [hdone] at hx
    have hfinished := h.finished x hx
    have hxd : x ≠ s.data := by
      rintro rfl
      rw [hpost] at hfinished
      exact List.cons_ne_nil _ _ hfinished.2.1
    rw [hdata, update_of_ne hxd, hne hxd, hsame.documents]
    exact hfinished
  · rw [hdone, hsame.documents]
    by_cases hxd : x = s.data
    · rw [hxd, update_self] at hc
      rcases List.mem_append.mp hc with hc | hc
      · rw [hxd]
        exact h.before s.data c hc
      · exact absurd hc (request_not_mem_items c bytes)
    · rw [update_of_ne hxd] at hc
      exact h.before x c hc
  · rw [hdone, hsame.documents]
    by_cases hxd : x = s.data
    · subst hxd
      rw [hself] at hc
      refine h.after s.data c ?_
      rw [hpost]
      exact List.mem_cons_of_mem _ hc
    · rw [hne hxd] at hc
      exact h.after x c hc
  · have habove : (above.reverse.flatMap fun r => render s'.documents
        (s'.request r).subrequests (update pre s.data (pre s.data ++ items bytes) r)) =
        above.reverse.flatMap fun r =>
          render s.documents (s.request r).subrequests (pre r) := by
      refine List.flatMap_congr fun x hx => ?_
      have hxd : x ≠ s.data := by
        rintro rfl
        exact h.data_not_mem (List.mem_reverse.mp hx)
      rw [hsame.documents, hsame.subrequests, update_of_ne hxd]
    rw [hdata, List.reverse_cons, List.flatMap_append, List.flatMap_singleton, habove, update_self,
      render_append, render_items, hsame.documents, hsame.subrequests, ← List.append_assoc,
      ← h.sent_eq, ← hs']

/-- The request with the turn gives it to the subrequest that it has postponed first. -/
theorem push (h : InOrder s above pre) {c : ℕ} {l l' : List PostponedRequest}
    (hpost : (s.request s.data).postponed = .request c :: l)
    (hl' : l' = l ∨ l' = .request c :: l) :
    InOrder { s.setPostponed s.data l' with data := c } (s.data :: above) pre := by
  generalize hs' : ({ s.setPostponed s.data l' with data := c } : Responses) = s'
  have hrequest : s'.request = (s.setPostponed s.data l').request := by rw [← hs']
  have hdata : s'.data = c := by rw [← hs']
  have hsent : s'.sent = s.sent := by
    rw [← hs']
    rfl
  have hsame : SameTree s s' := .setPostponed h.data_lt hrequest (by rw [← hs']; rfl)
  have hself : s'.request s.data = { s.request s.data with postponed := l' } := by
    rw [hrequest, setPostponed_self]
  have hne {x : ℕ} (hx : x ≠ s.data) : s'.request x = s.request x := by
    rw [hrequest, setPostponed_of_ne s _ hx]
  have hdone (x : ℕ) : (s'.request x).done = (s.request x).done := by
    rw [hrequest, setPostponed_field s s.data _ (·.done) fun _ => rfl]
  have hdoc : s.documents s.data = pre s.data ++ .request c :: pending l := by
    rw [h.turn, hpost, pending_request]
  obtain ⟨hcdoc, hcdone⟩ := h.after s.data c (by rw [hpost]; exact List.mem_cons_self)
  obtain ⟨hclt, hcparent, -, -⟩ := h.tree.child s.data c hcdoc
  have hdc : s.data < c := h.tree.parent_lt c s.data hcparent
  have hcpath : c ∉ s.data :: above := by
    intro hmem
    rcases List.mem_cons.mp hmem with rfl | hmem
    · exact Nat.lt_irrefl _ hdc
    · exact Nat.lt_asymm hdc (h.lt_data hmem)
  obtain ⟨hcpre, hcwait⟩ := h.waiting c hcpath hcdone
  refine ⟨h.tree.same hsame, ?_, ?_, ?_, ?_, fun x hx hxdone => ?_, fun x hx => ?_,
    fun x c' hc' => ?_, fun x c' hc' => ?_, ?_⟩
  · rw [hdata, hsame.created]
    exact hclt
  · rw [hdata, List.getLast?_cons_cons]
    exact h.top
  · rw [hdata, List.isChain_cons_cons]
    refine ⟨⟨(hsame.parent c).trans hcparent, l, ?_, ?_⟩, ?_⟩
    · rw [hself]
      exact hl'
    · rw [hsame.documents, hdoc]
    · refine h.chain.imp_of_mem_tail_imp fun c' p _ hp hc' => ?_
      have hpd : p ≠ s.data := by
        rintro rfl
        exact h.data_not_mem hp
      refine ⟨(hsame.parent c').trans hc'.parent, ?_⟩
      rw [hne hpd, hsame.documents]
      exact hc'.document
  · rw [hdata, hsame.documents, hcpre, hcwait, hne (Nat.ne_of_gt hdc), List.nil_append]
  · rw [hdata] at hx
    rw [hdone] at hxdone
    have hx' := List.not_mem_of_not_mem_cons hx
    rw [hne (List.ne_of_not_mem_cons hx'), hsame.documents]
    exact h.waiting x hx' hxdone
  · rw [hdone] at hx
    obtain ⟨hxpre, hxpost, hxpath⟩ := h.finished x hx
    have hxd : x ≠ s.data := by
      rintro rfl
      rw [hpost] at hxpost
      exact List.cons_ne_nil _ _ hxpost
    rw [hdata, hne hxd, hsame.documents]
    refine ⟨hxpre, hxpost, fun hmem => ?_⟩
    rcases List.mem_cons.mp hmem with rfl | hmem
    · rw [hcdone] at hx
      cases hx
    · rw [hxpath hmem] at hmem
      exact absurd (List.mem_singleton.mp hmem) hxd
  · rw [hdone, hsame.documents]
    exact h.before x c' hc'
  · rw [hdone, hsame.documents]
    by_cases hxd : x = s.data
    · rw [hxd, hself] at hc'
      rw [hxd]
      refine h.after s.data c' ?_
      rw [hpost]
      rcases hl' with rfl | rfl
      · exact List.mem_cons_of_mem _ hc'
      · exact hc'
    · rw [hne hxd] at hc'
      exact h.after x c' hc'
  · rw [hdata, List.reverse_cons, List.flatMap_append, List.flatMap_singleton, hcpre, render_nil,
      List.append_nil, hsame.documents]
    rw [hsent, h.sent]
    refine List.flatMap_congr fun x _ => ?_
    rw [hsame.subrequests]

/-! ## Finalizing -/

theorem done_setDone (s : Responses) (r x : ℕ) :
    ((s.setDone r).request x).done = true ↔ x = r ∨ (s.request x).done = true := by
  by_cases hx : x = r
  · rw [hx, setDone_self]
    exact iff_of_true rfl (.inl rfl)
  · rw [or_iff_right hx, setDone_of_ne s hx]

theorem setDone (h : InOrder s above pre) {r : ℕ} (hr : r < s.created)
    (hpost : (s.request r).postponed = []) (hpre : pre r = s.documents r)
    (hpath : r ∈ s.data :: above → above = []) (hroot : ∀ x, .request r ∉ s.documents x) :
    InOrder (s.setDone r) above pre := by
  have hsame := SameTree.setDone hr
  have hpostponed (x : ℕ) : ((s.setDone r).request x).postponed = (s.request x).postponed :=
    setDone_field s r (·.postponed) (fun _ => rfl) x
  have hfalse {x : ℕ} (hxr : x ≠ r) (hx : (s.request x).done = false) :
      ((s.setDone r).request x).done = false := by
    rw [← Bool.not_eq_true, done_setDone, not_or]
    exact ⟨hxr, by rw [hx]; exact Bool.false_ne_true⟩
  refine ⟨h.tree.same hsame, h.data_lt, h.top, h.chain.imp fun c p hc => ?_, ?_,
    fun x hx hxdone => ?_, fun x hx => ?_, fun x c hc => ?_, fun x c hc => ?_, ?_⟩
  · refine ⟨(hsame.parent c).trans hc.parent, ?_⟩
    rw [hpostponed, hsame.documents]
    exact hc.document
  · rw [hsame.documents, hpostponed]
    exact h.turn
  · rw [← Bool.not_eq_true, done_setDone, not_or, Bool.not_eq_true] at hxdone
    rw [hsame.documents, hpostponed]
    exact h.waiting x hx hxdone.2
  · rw [hsame.documents, hpostponed]
    rcases (done_setDone s r x).mp hx with rfl | hx
    · exact ⟨hpre, hpost, hpath⟩
    · exact h.finished x hx
  · rw [hsame.documents, done_setDone]
    exact (h.before x c hc).imp_right .inr
  · rw [hpostponed] at hc
    obtain ⟨hdoc, hcdone⟩ := h.after x c hc
    rw [hsame.documents]
    refine ⟨hdoc, hfalse ?_ hcdone⟩
    rintro rfl
    exact hroot x hdoc
  · rw [hsame.documents]
    refine h.sent.trans (List.flatMap_congr fun x _ => ?_)
    rw [hsame.subrequests]

/-- A request of the chain is the main request, or waits for its turn to come back. -/
theorem above_of_mem (h : InOrder s above pre) {r : ℕ} (hr : r ∈ s.data :: above) :
    r = 0 ∨ ∃ p, Above s pre r p := by
  have hchain := h.chain
  have htop := h.top
  generalize s.data :: above = path at hchain htop hr
  induction path with
  | nil => cases hr
  | cons x path ih =>
      cases path with
      | nil =>
          obtain rfl := List.mem_singleton.mp hr
          exact .inl (Option.some.inj htop)
      | cons p path =>
          rw [List.isChain_cons_cons] at hchain
          rcases List.mem_cons.mp hr with rfl | hr
          · exact .inr ⟨p, hchain.1⟩
          · exact ih hchain.2 (by rwa [List.getLast?_cons_cons] at htop) hr

theorem unpost_of_above (h : InOrder s above pre) {r p : ℕ} (hp : Above s pre r p) :
    s.documents p = pre p ++ .request r :: pending (unpost r (s.request p).postponed) ∧
      .request r ∉ unpost r (s.request p).postponed ∧
      ∀ i ∈ unpost r (s.request p).postponed, i ∈ (s.request p).postponed := by
  obtain ⟨l, hl, hdoc⟩ := hp.document
  have hnot := h.tree.request_not_mem hdoc
  have hunpost : unpost r (s.request p).postponed = l := by
    rcases hl with hl | hl
    · rw [hl, unpost, if_neg fun hhead => hnot (List.mem_of_head? hhead)]
    · rw [hl, unpost, List.head?_cons, if_pos rfl, List.tail_cons]
  rw [hunpost]
  refine ⟨hdoc, hnot, fun i hi => ?_⟩
  rcases hl with hl | hl
  · rwa [hl]
  · rw [hl]
    exact List.mem_cons_of_mem _ hi

/-- The subrequest with the turn is done, and the request `p` above it has the turn. -/
structure Popped (s s' : Responses) (p : ℕ) : Prop where
  parent : (s.request s.data).parent = some p
  same : SameTree s s'
  data : s'.data = p
  sent : s'.sent = s.sent
  self : s'.request p = { s.request p with
    postponed := unpost s.data (s.request p).postponed }
  ne : ∀ x, x ≠ p → x ≠ s.data → s'.request x = s.request x
  old : (s'.request s.data).postponed = []
  done : ∀ x, (s'.request x).done = true ↔ x = s.data ∨ (s.request x).done = true

theorem popped_finalizeActive {p : ℕ} (hparent : (s.request s.data).parent = some p)
    (hpost : (s.request s.data).postponed = []) (hpd : p < s.data) (hlt : s.data < s.created) :
    Popped s (s.finalizeActive s.data p) p := by
  have hrequest : (s.finalizeActive s.data p).request = ((s.setDone s.data).setPostponed p
      (unpost s.data (s.request p).postponed)).request := by
    rw [finalizeActive]
  refine
    { parent := hparent
      same := (SameTree.setDone hlt).trans (.setPostponed (hpd.trans hlt) hrequest rfl)
      data := by rw [finalizeActive]
      sent := rfl
      self := ?_
      ne := fun x hxp hxd => ?_
      old := ?_
      done := fun x => ?_ }
  · rw [hrequest, setPostponed_self, setDone_of_ne s hpd.ne]
  · rw [hrequest, setPostponed_of_ne _ _ hxp, setDone_of_ne s hxd]
  · rw [hrequest, setPostponed_of_ne _ _ hpd.ne', setDone_self, hpost]
  · rw [hrequest, setPostponed_field _ _ _ (·.done) fun _ => rfl, done_setDone]

/-- The request above a subrequest with the turn is its parent. -/
theorem exists_rest (h : InOrder s above pre) {p : ℕ}
    (hparent : (s.request s.data).parent = some p) : ∃ rest, above = p :: rest := by
  cases above with
  | nil =>
      have hlt := h.tree.parent_lt _ p hparent
      have hzero : s.data = 0 := Option.some.inj h.top
      rw [hzero] at hlt
      exact absurd hlt (Nat.not_lt_zero p)
  | cons p' rest =>
      obtain ⟨hp', -⟩ := List.isChain_cons_cons.mp h.chain
      rw [hp'.parent] at hparent
      exact ⟨rest, by rw [Option.some.inj hparent]⟩

section Pop

variable {s' : Responses} {p : ℕ} {rest : List ℕ}

theorem not_mem_rest (h : InOrder s (p :: rest) pre) : p ∉ rest := by
  intro hmem
  obtain ⟨hlt, -⟩ := List.pairwise_cons.mp (List.pairwise_cons.mp h.sorted).2
  exact absurd (hlt p hmem) (Nat.lt_irrefl p)

/-- What is finalized and has a request above it is not above the turn. -/
theorem not_mem_of_done (h : InOrder s (p :: rest) pre) {x : ℕ}
    (hx : (s.request x).done = true) : x ∉ s.data :: p :: rest := fun hmem =>
  absurd ((h.finished x hx).2.2 hmem) (List.cons_ne_nil _ _)

theorem popped_chain (h : InOrder s (p :: rest) pre) (hpop : Popped s s' p)
    (is : List DocumentItem) : (p :: rest).IsChain (Above s' (update pre p is)) := by
  obtain ⟨-, hchain⟩ := List.isChain_cons_cons.mp h.chain
  refine hchain.imp_of_mem_tail_imp fun c q _ hq hc => ?_
  have hqp : q ≠ p := by
    rintro rfl
    exact h.not_mem_rest hq
  have hqd : q ≠ s.data := by
    rintro rfl
    exact h.data_not_mem (List.mem_cons_of_mem _ hq)
  refine ⟨(hpop.same.parent c).trans hc.parent, ?_⟩
  rw [hpop.ne q hqp hqd, hpop.same.documents, update_of_ne hqp]
  exact hc.document

theorem popped_finished (h : InOrder s (p :: rest) pre) (hpop : Popped s s' p)
    (hturn : pre s.data = s.documents s.data) (is : List DocumentItem) {x : ℕ}
    (hx : (s'.request x).done = true) :
    update pre p is x = s'.documents x ∧ (s'.request x).postponed = [] ∧ x ∉ p :: rest := by
  have hdata := h.data_not_mem
  rw [hpop.same.documents]
  by_cases hxd : x = s.data
  · have hpd : s.data ≠ p := List.ne_of_not_mem_cons hdata
    rw [hxd, update_of_ne hpd]
    exact ⟨hturn, hpop.old, hdata⟩
  · have hx := ((hpop.done x).mp hx).resolve_left hxd
    obtain ⟨hxpre, hxpost, -⟩ := h.finished x hx
    have hnot := List.not_mem_of_not_mem_cons (h.not_mem_of_done hx)
    have hxp : x ≠ p := List.ne_of_not_mem_cons hnot
    rw [update_of_ne hxp, hpop.ne x hxp hxd]
    exact ⟨hxpre, hxpost, hnot⟩

theorem popped_after (h : InOrder s (p :: rest) pre) (hpop : Popped s s' p) {x c : ℕ}
    (hc : .request c ∈ (s'.request x).postponed) :
    .request c ∈ s'.documents x ∧ (s'.request c).done = false := by
  obtain ⟨habove, -⟩ := List.isChain_cons_cons.mp h.chain
  obtain ⟨-, hnot, hsub⟩ := h.unpost_of_above habove
  have hmem : .request c ∈ (s.request x).postponed ∧ (x = p → c ≠ s.data) := by
    by_cases hxp : x = p
    · rw [hxp, hpop.self] at hc
      rw [hxp]
      refine ⟨hsub _ hc, fun _ => ?_⟩
      rintro rfl
      exact hnot hc
    · refine ⟨?_, fun heq => absurd heq hxp⟩
      by_cases hxd : x = s.data
      · rw [hxd, hpop.old] at hc
        cases hc
      · rwa [hpop.ne x hxp hxd] at hc
  obtain ⟨hcdoc, hcdone⟩ := h.after x c hmem.1
  rw [hpop.same.documents]
  refine ⟨hcdoc, ?_⟩
  rw [← Bool.not_eq_true, hpop.done, not_or, Bool.not_eq_true]
  refine ⟨fun hcd => ?_, hcdone⟩
  rw [hcd] at hcdoc
  have hx := (h.tree.child x s.data hcdoc).2.1
  rw [hpop.parent] at hx
  exact hmem.2 (Option.some.inj hx).symm hcd

/-- What has been sent ends with the whole subrequest. -/
theorem popped_sent (h : InOrder s (p :: rest) pre) (hpop : Popped s s' p)
    (hturn : pre s.data = s.documents s.data)
    (hdepth : (s.request p).subrequests = (s.request s.data).subrequests + 1) :
    s'.sent = (p :: rest).reverse.flatMap fun r => render s'.documents (s'.request r).subrequests
      (update pre p (pre p ++ [.request s.data]) r) := by
  have hrest : (rest.reverse.flatMap fun r => render s'.documents
      (s'.request r).subrequests (update pre p (pre p ++ [.request s.data]) r)) =
      rest.reverse.flatMap fun r => render s.documents (s.request r).subrequests (pre r) := by
    refine List.flatMap_congr fun x hx => ?_
    have hxp : x ≠ p := by
      rintro rfl
      exact h.not_mem_rest (List.mem_reverse.mp hx)
    rw [hpop.same.documents, hpop.same.subrequests, update_of_ne hxp]
  rw [List.reverse_cons, List.flatMap_append, List.flatMap_singleton, hrest, update_self,
    render_append, hpop.same.documents, hpop.same.subrequests, hdepth, render_request, ← hturn,
    hpop.sent, h.sent_eq, List.reverse_cons, List.flatMap_append, List.flatMap_singleton, hdepth,
    List.append_assoc]

end Pop

/-- The subrequest with the turn is done, and its turn goes back to the request above it. -/
theorem pop (h : InOrder s above pre) {p : ℕ} (hparent : (s.request s.data).parent = some p)
    (hpost : (s.request s.data).postponed = []) :
    ∃ above' pre', InOrder (s.finalizeActive s.data p) above' pre' := by
  obtain ⟨rest, rfl⟩ := h.exists_rest hparent
  obtain ⟨habove, -⟩ := List.isChain_cons_cons.mp h.chain
  obtain ⟨hdoc, -, -⟩ := h.unpost_of_above habove
  have hturn : pre s.data = s.documents s.data := by
    rw [h.turn, hpost, pending_nil, List.append_nil]
  have hitem : .request s.data ∈ s.documents p := by
    rw [hdoc]
    exact List.mem_append_right _ List.mem_cons_self
  obtain ⟨hlt, -, -, hdepth⟩ := h.tree.child p s.data hitem
  have hpd := h.tree.parent_lt _ _ hparent
  have hpop := popped_finalizeActive hparent hpost hpd hlt
  generalize s.finalizeActive s.data p = s' at hpop ⊢
  have htop := h.top
  rw [List.getLast?_cons_cons] at htop
  refine ⟨rest, update pre p (pre p ++ [.request s.data]),
    { tree := h.tree.same hpop.same
      data_lt := by rw [hpop.data, hpop.same.created]; exact hpd.trans hlt
      top := by rw [hpop.data]; exact htop
      chain := by rw [hpop.data]; exact h.popped_chain hpop _
      turn := ?_
      waiting := fun x hx hxdone => ?_
      finished := fun x hx => ?_
      before := fun x c hc => ?_
      after := fun x c hc => h.popped_after hpop hc
      sent := by rw [hpop.data]; exact h.popped_sent hpop hturn hdepth }⟩
  · rw [hpop.data, hpop.same.documents, update_self, hpop.self, hdoc, List.append_assoc,
      List.singleton_append]
  · rw [hpop.data] at hx
    rw [← Bool.not_eq_true, hpop.done, not_or, Bool.not_eq_true] at hxdone
    have hxp : x ≠ p := List.ne_of_not_mem_cons hx
    have hx' : x ∉ s.data :: p :: rest := fun hmem =>
      (List.mem_cons.mp hmem).elim hxdone.1 hx
    rw [update_of_ne hxp, hpop.ne x hxp hxdone.1, hpop.same.documents]
    exact h.waiting x hx' hxdone.2
  · obtain ⟨hxpre, hxpost, hnot⟩ := h.popped_finished hpop hturn _ hx
    rw [hpop.data]
    exact ⟨hxpre, hxpost, fun hmem => absurd hmem hnot⟩
  · rw [hpop.same.documents, hpop.done]
    by_cases hxp : x = p
    · rw [hxp, update_self] at hc
      rw [hxp]
      rcases List.mem_append.mp hc with hc | hc
      · exact (h.before p c hc).imp_right .inr
      · obtain ⟨⟩ := List.mem_singleton.mp hc
        exact ⟨hitem, .inl rfl⟩
    · rw [update_of_ne hxp] at hc
      exact (h.before x c hc).imp_right .inr

/-! ## Runs -/

theorem flush (h : InOrder s above pre) (l : List PostponedRequest)
    (hpost : (s.request s.data).postponed = l) :
    ∃ above' pre', InOrder (s.flush s.data l) above' pre' := by
  induction l generalizing s pre with
  | nil => exact ⟨above, pre, h⟩
  | cons pr l ih =>
      cases pr with
      | request c => exact ⟨_, pre, h.push hpost (.inl rfl)⟩
      | out bytes => exact ih (h.emit hpost) (congrArg (·.postponed) (setPostponed_self s s.data l))

theorem setOut (h : InOrder s above pre) {r : ℕ} (hr : r < s.created)
    (out : Option (List UInt8 × ℕ)) :
    InOrder (s.modify r fun q => { q with out := out }) above pre := by
  have hfield {β : Type} (g : ResponsePart → β)
      (hg : ∀ q, g { q with out := out } = g q) (x : ℕ) := s.modify_field r g hg x
  have hsame : SameTree s (s.modify r fun q => { q with out := out }) :=
    ⟨rfl, hfield (·.parent) fun _ => rfl, hfield (·.subrequests) fun _ => rfl,
      hfield (·.background) fun _ => rfl, funext (hfield (·.document) fun _ => rfl),
      fun x hx => s.modify_of_ne _ (Nat.ne_of_gt (Nat.lt_of_lt_of_le hr hx))⟩
  have hpostponed := hfield (·.postponed) fun _ => rfl
  have hdone := hfield (·.done) fun _ => rfl
  refine ⟨h.tree.same hsame, h.data_lt, h.top, h.chain.imp fun c p hc => ?_, ?_,
    fun x hx hxdone => ?_, fun x hx => ?_, fun x c hc => ?_, fun x c hc => ?_, ?_⟩
  · refine ⟨(hsame.parent c).trans hc.parent, ?_⟩
    rw [hpostponed, hsame.documents]
    exact hc.document
  · rw [hsame.documents, hpostponed]
    exact h.turn
  · rw [hdone] at hxdone
    rw [hsame.documents, hpostponed]
    exact h.waiting x hx hxdone
  · rw [hdone] at hx
    rw [hsame.documents, hpostponed]
    exact h.finished x hx
  · rw [hsame.documents, hdone]
    exact h.before x c hc
  · rw [hpostponed] at hc
    rw [hsame.documents, hdone]
    exact h.after x c hc
  · rw [hsame.documents]
    refine h.sent.trans (List.flatMap_congr fun x _ => ?_)
    rw [hsame.subrequests]

theorem postponeFilterInMemory (h : InOrder s above pre) {r : ℕ} (hr : r < s.created)
    {size : ℕ} {length : Option ℕ} {bytes : List UInt8} {s' : Responses}
    (hs' : s.postponeFilterInMemory size r length bytes = some s') : InOrder s' above pre := by
  unfold Responses.postponeFilterInMemory at hs'
  obtain ⟨b, -, hs'⟩ := Option.bind_eq_some_iff.mp hs'
  split_ifs at hs' with hroom
  obtain rfl := Option.some.inj hs'
  exact h.setOut hr _

theorem postponeFilter (h : InOrder s above pre) {r : ℕ} (hr : r < s.created)
    (hdone : (s.request r).done = false) {size : ℕ} {length : Option ℕ}
    {input : Option (List UInt8)} {s' : Responses}
    (hs' : s.postponeFilter size r length input = some s') :
    ∃ above' pre', InOrder s' above' pre' := by
  unfold Responses.postponeFilter at hs'
  split_ifs at hs' with hmemory hturn hempty
  · exact ⟨above, pre, h.postponeFilterInMemory hr hs'⟩
  · cases input with
    | none =>
        obtain rfl := Option.some.inj hs'
        exact ⟨above, pre, h⟩
    | some bytes =>
        obtain rfl := Option.some.inj hs'
        exact ⟨above, pre, h.postponeFilterAdd hr hdone bytes⟩
  · obtain rfl := Option.some.inj hs'
    obtain rfl := not_not.mp hturn
    have hpost : ((s.postponeFilterAdd s.data (input.getD [])).request s.data).postponed =
        .out (input.getD []) :: [] := by
      rw [Responses.postponeFilterAdd, modify_self, hempty, addOut]
    have hemit := (h.postponeFilterAdd hr hdone (input.getD [])).emit hpost
    rw [pass_eq _ hempty]
    exact ⟨above, _, hemit⟩
  · obtain rfl := Option.some.inj hs'
    obtain rfl := not_not.mp hturn
    cases input with
    | none => exact h.flush _ rfl
    | some bytes => exact (h.postponeFilterAdd hr hdone bytes).flush _ rfl

theorem create (h : InOrder s above pre) {r : ℕ} (hr : r < s.created)
    (background inMemory : Bool) : InOrder (s.create r background inMemory) above pre := by
  generalize hs' : s.create r background inMemory = s'
  have hself : s'.request s.created =
      ⟨some r, (s.request r).subrequests - 1, background, inMemory, [], none, false, []⟩ := by
    rw [← hs']
    exact update_self ..
  have hne {x : ℕ} (hx : x ≠ s.created) : s'.request x = s.request x := by
    rw [← hs']
    exact update_of_ne hx ..
  have hfresh := h.tree.fresh s.created (Nat.le_refl _)
  have hfield {β : Type} (g : ResponsePart → β)
      (hg : g (s'.request s.created) = g (start.request s.created)) (x : ℕ) :
      g (s'.request x) = g (s.request x) := by
    by_cases hx : x = s.created
    · rw [hx, hg, hfresh]
    · rw [hne hx]
  have hpostponed := hfield (·.postponed) (by rw [hself]; rfl)
  have hdone := hfield (·.done) (by rw [hself]; rfl)
  have hdocuments : s'.documents = s.documents :=
    funext (hfield (·.document) (by rw [hself]; rfl))
  have hcreated : s'.created = s.created + 1 := by
    rw [← hs']
    rfl
  have hdata : s'.data = s.data := by
    rw [← hs']
    rfl
  have hlt {x : ℕ} (hx : x ∈ s.data :: above) : x < s.created := by
    rcases List.mem_cons.mp hx with rfl | hx
    · exact h.data_lt
    · exact Nat.lt_trans (h.lt_data hx) h.data_lt
  have hold {x : ℕ} (hx : x < s.created) : s'.request x = s.request x := hne (Nat.ne_of_lt hx)
  refine ⟨⟨fun x p hp => ?_, fun x hx => ?_, fun x c hc => ?_, fun x c => ?_⟩, ?_, ?_, ?_, ?_,
    fun x hx hxdone => ?_, fun x hx => ?_, fun x c hc => ?_, fun x c hc => ?_, ?_⟩
  · by_cases hx : x = s.created
    · rw [hx, hself] at hp
      rw [hx, ← Option.some.inj hp]
      exact hr
    · rw [hne hx] at hp
      exact h.tree.parent_lt x p hp
  · rw [hcreated] at hx
    rw [hne (by omega)]
    exact h.tree.fresh x (by omega)
  · rw [hdocuments] at hc
    have hx : x ≠ s.created := by
      rintro rfl
      rw [documents, hfresh] at hc
      cases hc
    obtain ⟨hclt, hchild⟩ := h.tree.child x c hc
    rw [hcreated, hold hclt, hne hx]
    exact ⟨Nat.lt_succ_of_lt hclt, hchild⟩
  · rw [hdocuments]
    exact h.tree.once x c
  · rw [hdata, hcreated]
    exact Nat.lt_succ_of_lt h.data_lt
  · rw [hdata]
    exact h.top
  · rw [hdata]
    refine h.chain.imp_of_mem_tail_imp fun c p hc _ hcp => ⟨?_, ?_⟩
    · rw [hold (hlt hc)]
      exact hcp.parent
    · rw [hpostponed, hdocuments]
      exact hcp.document
  · rw [hdata, hdocuments, hpostponed]
    exact h.turn
  · rw [hdata] at hx
    rw [hdone] at hxdone
    rw [hdocuments, hpostponed]
    exact h.waiting x hx hxdone
  · rw [hdone] at hx
    rw [hdata, hdocuments, hpostponed]
    exact h.finished x hx
  · rw [hdocuments, hdone]
    exact h.before x c hc
  · rw [hpostponed] at hc
    rw [hdocuments, hdone]
    exact h.after x c hc
  · have hsent : s'.sent = s.sent := by
      rw [← hs']
      rfl
    rw [hdata, hdocuments, hsent, h.sent]
    refine List.flatMap_congr fun x hx => ?_
    rw [hold (hlt (List.mem_reverse.mp hx))]

theorem post (h : InOrder s above pre) {r c : ℕ} (hr : r < s.created)
    (hdone : (s.request r).done = false) (hc : c < s.created)
    (hparent : (s.request c).parent = some r) (hbackground : (s.request c).background = false)
    (hdepth : (s.request r).subrequests = (s.request c).subrequests + 1)
    (hcdone : (s.request c).done = false) (hnew : .request c ∉ s.documents r) :
    InOrder (s.post r c) above pre := by
  refine h.extend hr hdone
    (pending_append (s.request r).postponed [.request c]) ?_ ?_ ?_ ?_
  · intro c' l₀ hl₀
    exact ⟨l₀ ++ [.request c], by rw [hl₀, List.cons_append], pending_append _ _⟩
  · intro c' hc'
    obtain ⟨⟩ := List.mem_singleton.mp hc'
    exact ⟨hc, hparent, hbackground, hdepth⟩
  · intro c' hc'
    obtain ⟨⟩ := List.mem_singleton.mp hc'
    exact hcdone
  · intro c'
    rw [List.count_append]
    by_cases hc' : c' = c
    · rw [hc', List.count_eq_zero_of_not_mem hnew, List.count_singleton_self]
    · have hne : DocumentItem.request c' ∉ [DocumentItem.request c] := fun hmem =>
        hc' (DocumentItem.request.inj (List.mem_singleton.mp hmem))
      rw [List.count_eq_zero_of_not_mem hne]
      exact h.tree.once r c'

theorem create_of_lt {r x : ℕ} {background inMemory : Bool} (hx : x < s.created) :
    (s.create r background inMemory).request x = s.request x :=
  update_of_ne (Nat.ne_of_lt hx) ..

theorem create_post (h : InOrder s above pre) {r : ℕ} (hr : r < s.created)
    (hdone : (s.request r).done = false) (hdepth : (s.request r).subrequests ≠ 0)
    {background : Bool} (hbackground : background = false) (inMemory : Bool) :
    InOrder ((s.create r background inMemory).post r s.created) above pre := by
  have hrequest : (s.create r background inMemory).request r = s.request r := create_of_lt hr
  have hself : (s.create r background inMemory).request s.created =
      ⟨some r, (s.request r).subrequests - 1, background, inMemory, [], none, false, []⟩ :=
    update_self ..
  refine (h.create hr background inMemory).post (Nat.lt_succ_of_lt hr) (by rw [hrequest, hdone])
    (Nat.lt_succ_self _) (by rw [hself]) (by rw [hself, hbackground]) ?_ (by rw [hself])
    fun hmem => ?_
  · rw [hself, hrequest]
    exact (Nat.succ_pred_eq_of_ne_zero hdepth).symm
  · rw [documents, hrequest] at hmem
    exact absurd (h.tree.child r _ hmem).1 (Nat.lt_irrefl _)

theorem subrequest (h : InOrder s above pre) {r : ℕ} (hr : r < s.created)
    (hdone : (s.request r).done = false) {background inMemory : Bool} {s' : Responses}
    (hs' : s.subrequest r background inMemory = some s') :
    ∃ above' pre', InOrder s' above' pre' := by
  unfold Responses.subrequest at hs'
  split_ifs at hs' with hdepth hcount hmemory hbackground hturn
  · obtain rfl := Option.some.inj hs'
    exact ⟨above, pre, h.create hr background inMemory⟩
  · obtain rfl := Option.some.inj hs'
    obtain ⟨rfl, hempty⟩ := hturn
    rw [Bool.not_eq_true] at hbackground
    have hpost := h.create_post hr hdone hdepth hbackground inMemory
    have hnew : (((s.create s.data background inMemory).post s.data s.created).request
        s.data).postponed = .request s.created :: [] := by
      rw [Responses.post, modify_self, create_of_lt hr, hempty, List.nil_append]
    have hpush := hpost.push hnew (.inr rfl)
    have hself : ((s.create s.data background inMemory).post s.data s.created).setPostponed
        ((s.create s.data background inMemory).post s.data s.created).data
        [.request s.created] = (s.create s.data background inMemory).post s.data s.created :=
      setPostponed_eq_self hnew
    rw [hself] at hpush
    exact ⟨_, pre, hpush⟩
  · obtain rfl := Option.some.inj hs'
    rw [Bool.not_eq_true] at hbackground
    exact ⟨above, pre, h.create_post hr hdone hdepth hbackground inMemory⟩

theorem finalizeRequest (h : InOrder s above pre) {r : ℕ} (hr : r < s.created) :
    ∃ above' pre', InOrder (s.finalizeRequest r) above' pre' := by
  unfold Responses.finalizeRequest
  split
  · rename_i p hparent
    split_ifs with hempty hbackground hturn
    · exact ⟨above, pre, h⟩
    · -- A background request is in no document, so it never has the turn.
      rw [not_not] at hempty
      have hroot (x : ℕ) : .request r ∉ s.documents x := fun hmem => by
        have hfalse := (h.tree.child x r hmem).2.2.1
        rw [hbackground] at hfalse
        cases hfalse
      have hpath : r ∉ s.data :: above := by
        intro hmem
        rcases h.above_of_mem hmem with rfl | ⟨q, hq⟩
        · exact absurd (h.tree.parent_lt 0 p hparent) (Nat.not_lt_zero p)
        · obtain ⟨l, -, hdoc⟩ := hq.document
          refine hroot q ?_
          rw [hdoc]
          exact List.mem_append_right _ List.mem_cons_self
      by_cases hdone : (s.request r).done = true
      · obtain ⟨hpre, -⟩ := h.finished r hdone
        exact ⟨above, pre, h.setDone hr hempty hpre (fun hmem => absurd hmem hpath) hroot⟩
      · rw [Bool.not_eq_true] at hdone
        obtain ⟨hpre, hdoc⟩ := h.waiting r hpath hdone
        rw [hempty, pending_nil] at hdoc
        exact ⟨above, pre, h.setDone hr hempty (hpre.trans hdoc.symm)
          (fun hmem => absurd hmem hpath) hroot⟩
    · rw [not_not] at hempty
      subst hturn
      exact h.pop hparent hempty
    · exact ⟨above, pre, h⟩
  · rename_i hparent
    split_ifs with hempty
    · exact ⟨above, pre, h⟩
    · rw [not_or, not_not, not_not] at hempty
      obtain ⟨hempty, rfl⟩ := hempty
      have hroot (x : ℕ) : .request s.data ∉ s.documents x := fun hmem => by
        have hparent' := (h.tree.child x _ hmem).2.1
        rw [hparent] at hparent'
        cases hparent'
      have habove : above = [] := by
        cases above with
        | nil => rfl
        | cons p above =>
            have hp := (List.isChain_cons_cons.mp h.chain).1.parent
            rw [hparent] at hp
            cases hp
      have hpre : pre s.data = s.documents s.data := by
        rw [h.turn, hempty, pending_nil, List.append_nil]
      exact ⟨above, pre, h.setDone hr hempty hpre (fun _ => habove) hroot⟩

theorem next (h : InOrder s above pre) {size : ℕ} {e : ResponseEvent} {s' : Responses}
    (hs' : s.next size e = some s') : ∃ above' pre', InOrder s' above' pre' := by
  unfold Responses.next at hs'
  split_ifs at hs' with hlive
  obtain ⟨hr, hdone⟩ := hlive
  cases e with
  | output r length input => exact h.postponeFilter hr hdone hs'
  | subrequest r background inMemory => exact h.subrequest hr hdone hs'
  | finalize r =>
      obtain rfl := Option.some.inj hs'
      exact h.finalizeRequest hr

end InOrder

variable {s : Responses}

theorem Reaches.inOrder {size : ℕ} (h : Reaches size s) : ∃ above pre, InOrder s above pre := by
  induction h with
  | init hs =>
      rw [hs]
      exact ⟨[], _, InOrder.start_inOrder⟩
  | step _ _ hs' ih =>
      obtain ⟨above, pre, hinv⟩ := ih
      exact hinv.next hs'

/-- What the requests of the chain have sent begins what the last of them has put out. -/
theorem InOrder.prefix_document {above : List ℕ} {pre : ℕ → List DocumentItem}
    (c : ℕ) (hchain : (c :: above).IsChain (Above s pre))
    (hdepth : ∀ c p, Above s pre c p →
      (s.request p).subrequests = (s.request c).subrequests + 1) {bytes : List UInt8}
    (hbytes : bytes <+: s.document c) {top : ℕ} (htop : (c :: above).getLast? = some top) :
    (above.reverse.flatMap fun r =>
      render s.documents (s.request r).subrequests (pre r)) ++ bytes <+: s.document top := by
  induction above generalizing c bytes with
  | nil =>
      obtain rfl := Option.some.inj htop
      exact hbytes
  | cons p above ih =>
      obtain ⟨hp, hchain⟩ := List.isChain_cons_cons.mp hchain
      rw [List.getLast?_cons_cons] at htop
      have hbytes' : render s.documents (s.request p).subrequests (pre p) ++ bytes <+:
          s.document p := by
        obtain ⟨l, -, hdoc⟩ := hp.document
        obtain ⟨rest, hrest⟩ := hbytes
        refine ⟨rest ++ render s.documents (s.request p).subrequests (pending l), ?_⟩
        rw [document, hdoc, ← List.singleton_append, render_append, render_append, hdepth c p hp,
          render_request, List.append_assoc, ← List.append_assoc bytes, hrest, document]
      have hstep := ih p hchain hbytes' htop
      rwa [List.reverse_cons, List.flatMap_append, List.flatMap_singleton, List.append_assoc]

/-- At any moment the client has been sent a beginning of the response: the output of the main
request, with that of every subrequest in the place where it was started.  When the main
request is done the client has been sent all of it. -/
theorem Reaches.sent_document {size : ℕ} (h : Reaches size s) :
    s.sent <+: s.document 0 ∧ ((s.request 0).done = true → s.sent = s.document 0) := by
  obtain ⟨above, pre, hinv⟩ := h.inOrder
  have hdepth (c p : ℕ) (hcp : Above s pre c p) :
      (s.request p).subrequests = (s.request c).subrequests + 1 := by
    obtain ⟨l, -, hdoc⟩ := hcp.document
    have hmem : .request c ∈ s.documents p := by
      rw [hdoc]
      exact List.mem_append_right _ List.mem_cons_self
    exact (hinv.tree.child p c hmem).2.2.2
  refine ⟨?_, fun hdone => ?_⟩
  · rw [hinv.sent_eq]
    refine InOrder.prefix_document s.data hinv.chain hdepth ?_ hinv.top
    rw [document, hinv.turn, render_append]
    exact List.prefix_append _ _
  · obtain ⟨hpre, -, hpath⟩ := hinv.finished 0 hdone
    obtain rfl := hpath (List.mem_of_getLast? hinv.top)
    obtain hdata : s.data = 0 := Option.some.inj hinv.top
    rw [hinv.sent, hdata, List.reverse_singleton, List.flatMap_singleton, hpre, document]

/-- Two subrequests, of which the second one answers first. -/
theorem Reaches.sent_document_two : ∃ s, Reaches 100 s ∧ (s.request 0).done = true ∧
    s.sent = [97, 98, 99] ∧ s.sent = s.document 0 := by
  have hrun : ([.subrequest 0 false false, .subrequest 0 false false, .output 2 none (some [98]),
      .output 0 none (some [99]), .output 1 none (some [97]), .finalize 1, .output 0 none none,
      .output 2 none none, .finalize 2, .output 0 none none, .finalize 0].foldlM (next 100)
        start).map (fun s => ((s.request 0).done, s.sent)) = some (true, [97, 98, 99]) := by decide
  obtain ⟨s, hs, hend⟩ := Option.map_eq_some_iff.mp hrun
  obtain ⟨hdone, hsent⟩ := Prod.ext_iff.mp hend
  have hreach : Reaches 100 s := Lib.Reach.of_foldlM _ (.init rfl) (fun _ _ => trivial) hs
  exact ⟨s, hreach, hdone, hsent, hreach.sent_document.2 hdone⟩

end Responses

end MultiversionBalancer.Http
