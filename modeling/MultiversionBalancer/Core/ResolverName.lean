import MultiversionBalancer.Http.Bytes
import Mathlib.Algebra.BigOperators.Group.List.Basic

/-!
# Names in DNS messages

`ngx_resolver_create_name_query` and `ngx_resolver_create_srv_query` of
`ngx_resolver.c` put a name into a question, from its end to its start with one
length for each label.  `ngx_resolver_copy` takes a name out of a message; it
walks over the labels and the compression pointers twice, first to find the
length and then to write.

A label of a question may have 255 bytes, but a length above 63 is no length
when the name is read.
-/

namespace MultiversionBalancer.Resolver

open Http (byte ngxTolower ngxTolower_eq_iff byte_test)

/-! ## Questions -/

/-- `r->ipv4` and `r->ipv6`, which cannot both be off. -/
structure Families where
  ipv4 : Bool
  ipv6 : Bool
  some_on : (ipv4 || ipv6) = true

def resolveA : UInt8 := 1

def resolveAaaa : UInt8 := 28

def resolveSrv : UInt8 := 33

def hdrSize : ℕ := 12

def identHi (ident : ℕ) : UInt8 := UInt8.ofNat (ident / 2 ^ 8 % 2 ^ 8)

def identLo (ident : ℕ) : UInt8 := UInt8.ofNat (ident % 2 ^ 8)

/-- `ngx_resolver_hdr_t` of a query: a recursive one with one question. -/
def queryHdr (hi lo : UInt8) : List UInt8 :=
  [hi, lo, 1, 0, 0, 1, 0, 0, 0, 0, 0, 0]

def queryQs (type : UInt8) : List UInt8 :=
  [0, type, 0, 1]

/-- The loop over the bytes of a name, the last one first; `p` is what has been
written, and `len` the length of the label that is at its start. -/
def encodeLoop : List UInt8 → ℕ → List UInt8 → Option (List UInt8)
  | [], len, p =>
      if len = 0 ∨ 255 < len then none else some (UInt8.ofNat len :: p)
  | s :: name, len, p =>
      if s ≠ byte '.' then encodeLoop name (len + 1) (s :: p)
      else if len = 0 ∨ 255 < len then none
      else encodeLoop name 0 (UInt8.ofNat len :: p)

/-- The length of the name of a question. -/
def nlen (name : List UInt8) : ℕ :=
  if name.length ≠ 0 then 1 + name.length + 1 else 1

def encodeName (name : List UInt8) : Option (List UInt8) :=
  if name = [] then none else encodeLoop name.reverse 0 [0]

/-- `rn->query` and `rn->query6`. -/
structure Queries where
  query : List UInt8
  query6 : Option (List UInt8)

/-- `NGX_OK` with the queries, `NGX_DECLINED` or `NGX_ERROR`. -/
inductive Created (α : Type*) where
  | ok (queries : α)
  | declined
  | error

/-- The second query is written over a copy of the first one. -/
def writeQuery6 (ident : ℕ) (name p : List UInt8) : List UInt8 :=
  ((p.set 0 (identHi ident)).set 1 (identLo ident)).set (hdrSize + nlen name + 1) resolveAaaa

/-- `ngx_resolver_create_name_query`.  `memory` is what `ngx_resolver_alloc`
returns, with the bytes that stand there; `rn->qlen` has 16 bits. -/
def ngxResolverCreateNameQuery (r : Families) (memory : Option (ℕ → UInt8))
    (ident ident6 : ℕ) (name : List UInt8) : Created Queries :=
  match memory with
  | none => .error
  | some bytes =>
      match encodeName name with
      | none => .declined
      | some encoded =>
          let hdr :=
            if r.ipv4 then queryHdr (identHi ident) (identLo ident)
            else queryHdr (bytes 0) (bytes 1)
          let query := hdr ++ encoded ++ queryQs resolveA
          let len := query.length
          let qlen := len % 2 ^ 16
          if r.ipv6 = false then .ok ⟨query, none⟩
          else if r.ipv4 then
            let copied := query.take qlen ++
              (List.range (len - qlen)).map fun i => bytes (len + qlen + i)
            .ok ⟨query, some (writeQuery6 ident6 name copied)⟩
          else
            let query := writeQuery6 ident6 name query
            .ok ⟨query, some query⟩

def ngxResolverCreateSrvQuery (memory : Option (ℕ → UInt8)) (ident : ℕ)
    (name : List UInt8) : Created (List UInt8) :=
  match memory with
  | none => .error
  | some _ =>
      match encodeName name with
      | none => .declined
      | some encoded =>
          .ok (queryHdr (identHi ident) (identLo ident) ++ encoded ++ queryQs resolveSrv)

/-! ## Names in a message -/

/-- What the first walk over a name ends with: the length, an error, or a byte
that is not in the message. -/
inductive Walk where
  | done (len : ℕ)
  | invalid (err : String)
  | overrun
  deriving DecidableEq

/-- The first walk of `ngx_resolver_copy`, from `p` on.  What is left of the 128
iterations comes first, and the message ends at `last`. -/
def walk (buf : List UInt8) : ℕ → ℕ → ℕ → Walk
  | 0, _, _ => .invalid "compression pointers loop in DNS response"
  | i + 1, p, len =>
      match buf[p]? with
      | none => .overrun
      | some n =>
          if n = 0 then .done len
          else if n &&& 0xc0 ≠ 0 then
            if n &&& 0xc0 ≠ 0xc0 then .invalid "invalid label type in DNS response"
            else if buf.length ≤ p + 1 then .invalid "name is out of DNS response"
            else
              match buf[p + 1]? with
              | none => .overrun
              | some m =>
                  let p := (n &&& 0x3f).toNat <<< 8 + m.toNat
                  if buf.length ≤ p then .invalid "name is out of DNS response"
                  else walk buf i p len
          else
            let p := p + 1 + n.toNat
            if buf.length ≤ p then .invalid "name is out of DNS response"
            else walk buf i p (len + (1 + n.toNat))

/-- What the second walk ends with: all that has been written, a byte that is not
in the message, or nothing. -/
inductive Written where
  | done (dst : List UInt8)
  | overrun
  | running
  deriving DecidableEq

/-- The second walk of `ngx_resolver_copy`, for so many rounds. -/
def copyLabels (buf : List UInt8) : ℕ → ℕ → List UInt8 → Written
  | 0, _, _ => .running
  | rounds + 1, src, dst =>
      match buf[src]? with
      | none => .overrun
      | some n =>
          if n = 0 then .done dst
          else if n &&& 0xc0 ≠ 0 then
            match buf[src + 1]? with
            | none => .overrun
            | some m => copyLabels buf rounds ((n &&& 0x3f).toNat <<< 8 + m.toNat) dst
          else if buf.length < src + 1 + n.toNat then .overrun
          else
            copyLabels buf rounds (src + 1 + n.toNat)
              (dst ++ ((buf.drop (src + 1)).take n.toNat).map ngxTolower ++ [byte '.'])

/-- What `ngx_resolver_copy` returns: `NGX_OK` with nothing to write to, with the
null string, or with the bytes that have been written to as many that have been
allocated and `name->len`; `NGX_ERROR`; a byte that is not in the message; or
nothing. -/
inductive Copied where
  | skipped
  | null
  | copied (allocated : ℕ) (written : List UInt8) (len : ℕ)
  | error
  | overrun
  | running
  deriving DecidableEq

/-- `ngx_resolver_copy`; `name` tells whether there is one to write to, `memory`
whether `ngx_resolver_alloc` succeeds, and the second walk is followed for so many
rounds. -/
def ngxResolverCopy (rounds : ℕ) (name memory : Bool) (buf : List UInt8) (src : ℕ) :
    Copied :=
  match walk buf 128 src 0 with
  | .overrun => .overrun
  | .invalid _ => .error
  | .done len =>
      if name = false then .skipped
      else if len = 0 then .null
      else if memory = false then .error
      else
        match copyLabels buf rounds src [] with
        | .running => .running
        | .overrun => .overrun
        | .done dst => .copied len dst (dst.length - 1)

def Copied.name : Copied → Option (List UInt8)
  | .null => some []
  | .copied _ written len => some (written.take len)
  | _ => none

/-! ## What a name is -/

/-- The labels of the name at a position of a message, compression pointers
followed. -/
inductive NameAt (buf : List UInt8) : ℕ → List (List UInt8) → Prop
  | root {p : ℕ} (hroot : buf[p]? = some 0) : NameAt buf p []
  | label {p : ℕ} {l : List UInt8} {ls : List (List UInt8)} (hne : l ≠ [])
      (hshort : l.length < 64) (hbytes : UInt8.ofNat l.length :: l <+: buf.drop p)
      (next : NameAt buf (p + 1 + l.length) ls) : NameAt buf p (l :: ls)
  | pointer {p : ℕ} {n m : UInt8} {ls : List (List UInt8)} (hn : buf[p]? = some n)
      (hpointer : 192 ≤ n.toNat) (hm : buf[p + 1]? = some m)
      (next : NameAt buf ((n.toNat - 192) * 256 + m.toNat) ls) : NameAt buf p ls

/-- The labels in lower case, each with a dot behind it. -/
def textOf (ls : List (List UInt8)) : List UInt8 :=
  ls.flatMap fun l => l.map ngxTolower ++ [byte '.']

theorem ngxTolower_dot : ngxTolower (byte '.') = byte '.' :=
  (ngxTolower_eq_iff _ (by simp)).mpr rfl

theorem textOf_cons (l : List UInt8) (ls : List (List UInt8)) :
    textOf (l :: ls) = l.map ngxTolower ++ byte '.' :: textOf ls := by
  rw [textOf, List.flatMap_cons, List.append_assoc]
  rfl

/-- Single dots stand between the labels, and one behind the last one. -/
theorem textOf_eq {ls : List (List UInt8)} (hne : ls ≠ []) :
    textOf ls = [byte '.'].intercalate (ls.map fun l => l.map ngxTolower) ++ [byte '.'] := by
  induction ls with
  | nil => exact absurd rfl hne
  | cons l ls ih =>
      rw [textOf_cons, List.map_cons]
      cases ls with
      | nil => simp [textOf]
      | cons l' ls =>
          rw [ih (List.cons_ne_nil _ _), List.map_cons, List.intercalate_cons_cons]
          simp

theorem textOf_splitOn (name : List UInt8) :
    textOf (name.splitOn (byte '.')) = name.map ngxTolower ++ [byte '.'] := by
  induction name with
  | nil => rfl
  | cons c name ih =>
      rw [List.splitOn_cons_eq_if_modifyHead]
      obtain ⟨l, ls, hsplit⟩ := List.exists_cons_of_ne_nil
        (List.splitOn_ne_nil (byte '.') name)
      rw [hsplit, textOf_cons] at ih
      split
      · next hdot =>
        rw [hsplit, textOf_cons, textOf_cons, ih, List.map_cons, beq_iff_eq.mp hdot,
          ngxTolower_dot]
        rfl
      · rw [hsplit, List.modifyHead_cons, textOf_cons, List.map_cons, List.cons_append, ih]
        rfl

/-! ## The bits of a length -/

theorem and_c0_eq_zero_iff (n : UInt8) : n &&& 0xc0 = 0 ↔ n.toNat < 64 := by
  have htest := byte_test (p := fun n => decide (n &&& 0xc0 = 0) == decide (n.toNat < 64))
    (by decide +kernel) n
  rwa [beq_iff_eq, decide_eq_decide] at htest

theorem and_c0_eq_iff (n : UInt8) : n &&& 0xc0 = 0xc0 ↔ 192 ≤ n.toNat := by
  have htest := byte_test (p := fun n => decide (n &&& 0xc0 = 0xc0) == decide (192 ≤ n.toNat))
    (by decide +kernel) n
  rwa [beq_iff_eq, decide_eq_decide] at htest

theorem offset_eq {n : UInt8} (hn : 192 ≤ n.toNat) (m : UInt8) :
    (n &&& 0x3f).toNat <<< 8 + m.toNat = (n.toNat - 192) * 256 + m.toNat := by
  have hlt := n.toNat_lt
  rw [UInt8.toNat_and, show (0x3f : UInt8).toNat = 2 ^ 6 - 1 from rfl,
    Nat.and_two_pow_sub_one_eq_mod, Nat.shiftLeft_eq]
  omega

/-! ## The walks -/

section Walks

variable {buf : List UInt8} {i p len total : ℕ}

theorem walk_label {n : UInt8} (hn : buf[p]? = some n) (hzero : n ≠ 0) (hshort : n.toNat < 64) :
    walk buf (i + 1) p len =
      if buf.length ≤ p + 1 + n.toNat then .invalid "name is out of DNS response"
      else walk buf i (p + 1 + n.toNat) (len + (1 + n.toNat)) := by
  have hbits := (and_c0_eq_zero_iff n).mpr hshort
  rw [walk, hn]
  simp only [if_neg hzero, if_neg (not_not.mpr hbits)]

theorem copyLabels_label {n : UInt8} (hn : buf[p]? = some n) (hzero : n ≠ 0)
    (hshort : n.toNat < 64) (hinside : p + 1 + n.toNat ≤ buf.length) (dst : List UInt8) :
    copyLabels buf (i + 1) p dst =
      copyLabels buf i (p + 1 + n.toNat)
        (dst ++ textOf [(buf.drop (p + 1)).take n.toNat]) := by
  have hbits := (and_c0_eq_zero_iff n).mpr hshort
  rw [copyLabels, hn]
  simp only [if_neg hzero, if_neg (not_not.mpr hbits), if_neg (Nat.not_lt.mpr hinside)]
  rw [textOf, List.flatMap_singleton, List.append_assoc]

theorem walk_pointer {n : UInt8} (hn : buf[p]? = some n) (hpointer : 192 ≤ n.toNat) :
    walk buf (i + 1) p len =
      match buf[p + 1]? with
      | none => .invalid "name is out of DNS response"
      | some m =>
          if buf.length ≤ (n.toNat - 192) * 256 + m.toNat then
            .invalid "name is out of DNS response"
          else walk buf i ((n.toNat - 192) * 256 + m.toNat) len := by
  have hzero : n ≠ 0 := by
    rintro rfl
    exact absurd hpointer (by decide)
  have hbits : n &&& 0xc0 ≠ 0 := fun h => by
    have hlt := (and_c0_eq_zero_iff n).mp h
    omega
  rw [walk, hn]
  simp only [if_neg hzero, if_pos hbits, if_neg (not_not.mpr ((and_c0_eq_iff n).mpr hpointer)),
    offset_eq hpointer]
  by_cases hlast : buf.length ≤ p + 1
  · rw [if_pos hlast, List.getElem?_eq_none hlast]
  · rw [if_neg hlast, List.getElem?_eq_getElem (Nat.lt_of_not_le hlast)]

theorem copyLabels_pointer {n m : UInt8} (hn : buf[p]? = some n) (hpointer : 192 ≤ n.toNat)
    (hm : buf[p + 1]? = some m) (dst : List UInt8) :
    copyLabels buf (i + 1) p dst =
      copyLabels buf i ((n.toNat - 192) * 256 + m.toNat) dst := by
  have hzero : n ≠ 0 := by
    rintro rfl
    exact absurd hpointer (by decide)
  have hbits : n &&& 0xc0 ≠ 0 := fun h => by
    have hlt := (and_c0_eq_zero_iff n).mp h
    omega
  rw [copyLabels, hn]
  simp only [if_neg hzero, if_pos hbits, hm, offset_eq hpointer]

/-- A length between 64 and 191 is none. -/
theorem walk_type {n : UInt8} (hn : buf[p]? = some n) (hlong : 64 ≤ n.toNat)
    (hpointer : n.toNat < 192) :
    walk buf (i + 1) p len = .invalid "invalid label type in DNS response" := by
  have hzero : n ≠ 0 := by
    rintro rfl
    exact absurd hlong (by decide)
  have hbits : n &&& 0xc0 ≠ 0 := fun h => by
    have hlt := (and_c0_eq_zero_iff n).mp h
    omega
  have htype : n &&& 0xc0 ≠ 0xc0 := fun h => by
    have hge := (and_c0_eq_iff n).mp h
    omega
  rw [walk, hn]
  simp only [if_neg hzero, if_pos hbits, if_pos htype]

/-- The first walk reads bytes of the message only. -/
theorem walk_inside (hp : p < buf.length) : walk buf i p len ≠ .overrun := by
  induction i generalizing p len with
  | zero => nofun
  | succ i ih =>
      have hn := List.getElem?_eq_getElem hp
      generalize buf[p] = n at hn
      by_cases hroot : n = 0
      · rw [walk, hn]
        simp only [if_pos hroot]
        nofun
      · rcases Nat.lt_or_ge n.toNat 64 with hshort | hlong
        · rw [walk_label hn hroot hshort]
          split
          · nofun
          · next hinside => exact ih (Nat.lt_of_not_le hinside)
        · rcases Nat.lt_or_ge n.toNat 192 with htype | hpointer
          · rw [walk_type hn hlong htype]
            nofun
          · rw [walk_pointer hn hpointer]
            split
            · nofun
            · split
              · nofun
              · next hinside => exact ih (Nat.lt_of_not_le hinside)

/-- A first walk that comes to an end has seen the labels of the name, and the second
walk writes them. -/
theorem walk_done (h : walk buf i p len = .done total) :
    ∃ ls, NameAt buf p ls ∧ ls.length < i ∧ total = len + (textOf ls).length ∧
      ∀ rounds, i ≤ rounds → ∀ dst, copyLabels buf rounds p dst = .done (dst ++ textOf ls) := by
  induction i generalizing p len with
  | zero => cases h
  | succ i ih =>
      cases hn : buf[p]? with
      | none =>
          rw [walk, hn] at h
          cases h
      | some n =>
          by_cases hroot : n = 0
          · rw [walk, hn] at h
            simp only [if_pos hroot] at h
            cases h
            subst hroot
            refine ⟨[], .root hn, Nat.succ_pos i, rfl, ?_⟩
            intro rounds hrounds dst
            obtain ⟨rounds, rfl⟩ := Nat.exists_eq_add_of_le' hrounds
            rw [← Nat.add_assoc, copyLabels, hn]
            simp [textOf]
          · rcases Nat.lt_or_ge n.toNat 64 with hshort | hlong
            · rw [walk_label hn hroot hshort] at h
              split at h
              · cases h
              · next hinside =>
                obtain ⟨ls, hname, hlength, htotal, hcopy⟩ := ih h
                have hpos : 0 < n.toNat := Nat.pos_of_ne_zero fun hzero =>
                  hroot (UInt8.toNat_inj.mp hzero)
                have hl : ((buf.drop (p + 1)).take n.toNat).length = n.toNat := by
                  rw [List.length_take, List.length_drop]
                  omega
                refine ⟨(buf.drop (p + 1)).take n.toNat :: ls, ?_, Nat.succ_lt_succ hlength, ?_,
                  ?_⟩
                · refine .label (List.length_pos_iff_ne_nil.mp (by omega)) (by omega) ?_
                    (by rw [hl]; exact hname)
                  obtain ⟨hp, rfl⟩ := List.getElem?_eq_some_iff.mp hn
                  rw [hl, UInt8.ofNat_toNat, List.drop_eq_getElem_cons hp]
                  exact (List.prefix_cons_inj _).mpr (List.take_prefix _ _)
                · rw [htotal, textOf_cons, List.length_append, List.length_map, hl,
                    List.length_cons]
                  omega
                · intro rounds hrounds dst
                  obtain ⟨rounds, rfl⟩ := Nat.exists_eq_add_of_le' hrounds
                  rw [← Nat.add_assoc, copyLabels_label hn hroot hshort (by omega),
                    hcopy _ (by omega), List.append_assoc, textOf_cons, textOf_cons]
                  simp [textOf]
            · rcases Nat.lt_or_ge n.toNat 192 with htype | hpointer
              · rw [walk_type hn hlong htype] at h
                cases h
              · rw [walk_pointer hn hpointer] at h
                split at h
                · cases h
                · next m hm =>
                  split at h
                  · cases h
                  · obtain ⟨ls, hname, hlength, htotal, hcopy⟩ := ih h
                    refine ⟨ls, .pointer hn hpointer hm hname, by omega, htotal, ?_⟩
                    intro rounds hrounds dst
                    obtain ⟨rounds, rfl⟩ := Nat.exists_eq_add_of_le' hrounds
                    rw [← Nat.add_assoc, copyLabels_pointer hn hpointer hm]
                    exact hcopy _ (by omega) dst

end Walks

/-- What `ngx_resolver_copy` does with any message and any position in it: it comes to an
end and reads bytes of the message only, and a name that is copied fills what has been
allocated for it, label after label with single dots between them. -/
theorem resolverCopy_spec {buf : List UInt8} {src rounds : ℕ} (hsrc : src < buf.length)
    (hrounds : 128 ≤ rounds) (name memory : Bool) :
    ngxResolverCopy rounds name memory buf src ≠ .running ∧
    ngxResolverCopy rounds name memory buf src ≠ .overrun ∧
    ∀ allocated written len,
      ngxResolverCopy rounds name memory buf src = .copied allocated written len →
      written.length = allocated ∧ len + 1 = allocated ∧
      ∃ ls, ls ≠ [] ∧ ls.length < 128 ∧ NameAt buf src ls ∧ written = textOf ls ∧
        written.take len = [byte '.'].intercalate (ls.map fun l => l.map ngxTolower) := by
  have hinside : walk buf 128 src 0 ≠ .overrun := walk_inside hsrc
  rw [ngxResolverCopy]
  cases hwalk : walk buf 128 src 0 with
  | overrun => exact absurd hwalk hinside
  | invalid err => exact ⟨nofun, nofun, nofun⟩
  | done total =>
      obtain ⟨ls, hname, hlength, rfl, hcopy⟩ := walk_done hwalk
      rw [Nat.zero_add]
      simp only [hcopy rounds hrounds, List.nil_append]
      split
      · exact ⟨nofun, nofun, nofun⟩
      · split
        · exact ⟨nofun, nofun, nofun⟩
        · next htext =>
          split
          · exact ⟨nofun, nofun, nofun⟩
          · refine ⟨nofun, nofun, ?_⟩
            intro allocated written len h
            have hne : ls ≠ [] := by
              rintro rfl
              exact htext rfl
            cases h
            refine ⟨rfl, by omega, ls, hne, hlength, hname, rfl, ?_⟩
            rw [textOf_eq hne, List.length_append, List.length_singleton, Nat.add_sub_cancel,
              List.take_left']
            rfl

/-! ## What a question has -/

/-- Labels with their lengths. -/
def wire (ls : List (List UInt8)) : List UInt8 :=
  ls.flatMap fun l => UInt8.ofNat l.length :: l

theorem wire_cons (l : List UInt8) (ls : List (List UInt8)) :
    wire (l :: ls) = UInt8.ofNat l.length :: (l ++ wire ls) :=
  List.flatMap_cons

theorem length_wire (ls : List (List UInt8)) : (wire ls).length = (textOf ls).length := by
  induction ls with
  | nil => rfl
  | cons l ls ih =>
      rw [wire_cons, textOf_cons, List.length_cons, List.length_append, List.length_append,
        List.length_cons, List.length_map, ih]
      omega

/-- A label that a question may have. -/
structure Askable (l : List UInt8) : Prop where
  ne : l ≠ []
  le : l.length ≤ 255
  dot : byte '.' ∉ l

/-- The loop with a label `l` at the start of what has been written. -/
theorem encodeLoop_some {name l p encoded : List UInt8} (hl : byte '.' ∉ l)
    (h : encodeLoop name l.length (l ++ p) = some encoded) :
    encoded = wire ((name.reverse ++ l).splitOn (byte '.')) ++ p ∧
      ∀ l' ∈ (name.reverse ++ l).splitOn (byte '.'), Askable l' := by
  induction name generalizing l p with
  | nil =>
      rw [encodeLoop] at h
      split at h
      · cases h
      · next hlength =>
        rw [not_or] at hlength
        rw [List.reverse_nil, List.nil_append, List.splitOn_eq_singleton hl]
        cases h
        refine ⟨by simp [wire], ?_⟩
        intro l' hl'
        obtain rfl := List.mem_singleton.mp hl'
        exact ⟨fun hnil => hlength.1 (by rw [hnil]; rfl), Nat.le_of_not_lt hlength.2, hl⟩
  | cons s name ih =>
      rw [encodeLoop] at h
      by_cases hs : s = byte '.'
      · rw [if_neg (not_not.mpr hs)] at h
        split at h
        · cases h
        · next hlength =>
          rw [not_or] at hlength
          have hrest := ih (l := []) (List.not_mem_nil) h
          rw [List.append_nil] at hrest
          subst hs
          rw [List.reverse_cons, List.append_assoc, List.singleton_append,
            List.splitOn_append_cons_self, List.splitOn_eq_singleton hl]
          refine ⟨by rw [hrest.1]; simp [wire], ?_⟩
          intro l' hl'
          rcases List.mem_append.mp hl' with hl' | hl'
          · exact hrest.2 l' hl'
          · obtain rfl := List.mem_singleton.mp hl'
            exact ⟨fun hnil => hlength.1 (by rw [hnil]; rfl), Nat.le_of_not_lt hlength.2, hl⟩
      · rw [if_pos hs] at h
        have hrest := ih (l := s :: l) (by
          rw [List.mem_cons, not_or]
          exact ⟨Ne.symm hs, hl⟩) h
        rw [List.reverse_cons, List.append_assoc, List.singleton_append]
        exact hrest

theorem encodeName_some {name encoded : List UInt8} (h : encodeName name = some encoded) :
    encoded = wire (name.splitOn (byte '.')) ++ [0] ∧ encoded.length = nlen name ∧
      ∀ l ∈ name.splitOn (byte '.'), Askable l := by
  rw [encodeName] at h
  split at h
  · cases h
  · next hname =>
    have hloop := encodeLoop_some (l := []) List.not_mem_nil h
    rw [List.append_nil, List.reverse_reverse] at hloop
    refine ⟨hloop.1, ?_, hloop.2⟩
    have hlength := List.length_pos_iff_ne_nil.mpr hname
    rw [hloop.1, List.length_append, length_wire, textOf_splitOn, List.length_append,
      List.length_map, nlen, if_pos (by omega), List.length_singleton, List.length_singleton]
    omega

/-! ## Questions that are read -/

section Read

variable {buf rest : List UInt8} {p : ℕ} {ls ls' : List (List UInt8)}

theorem NameAt.short (h : NameAt buf p ls) : ∀ l ∈ ls, l.length < 64 := by
  induction h with
  | root => nofun
  | label _ hshort _ _ ih => exact List.forall_mem_cons.mpr ⟨hshort, ih⟩
  | pointer _ _ _ _ ih => exact ih

/-- What stands where labels begin. -/
theorem getElem?_of_drop {b : UInt8} (h : buf.drop p = b :: rest) : buf[p]? = some b := by
  rw [← Nat.add_zero p, ← List.getElem?_drop, h]
  rfl

theorem drop_label {l : List UInt8} {n : UInt8} (h : buf.drop p = n :: (l ++ rest)) :
    buf.drop (p + 1 + l.length) = rest := by
  rw [← List.drop_drop, ← List.drop_drop, h, List.drop_one, List.tail_cons, List.drop_left]

theorem toNat_length {l : List UInt8} (hl : Askable l) :
    (UInt8.ofNat l.length).toNat = l.length ∧ UInt8.ofNat l.length ≠ 0 := by
  have hle := hl.le
  have hpos := List.length_pos_iff_ne_nil.mpr hl.ne
  have hvalue : (UInt8.ofNat l.length).toNat = l.length :=
    UInt8.toNat_ofNat_of_lt' (Nat.lt_succ_of_le hle)
  refine ⟨hvalue, fun hzero => ?_⟩
  rw [hzero] at hvalue
  exact hpos.ne hvalue

/-- Both walks pass labels that are short enough. -/
theorem walks_wire {i : ℕ} (len : ℕ) (hbuf : buf.drop p = wire ls ++ 0 :: rest)
    (hls : ∀ l ∈ ls, Askable l ∧ l.length < 64) (hi : ls.length < i) :
    walk buf i p len = .done (len + (textOf ls).length) ∧
      ∀ dst, copyLabels buf i p dst = .done (dst ++ textOf ls) := by
  induction ls generalizing i p len with
  | nil =>
      obtain ⟨i, rfl⟩ := Nat.exists_eq_add_of_le' (Nat.one_le_of_lt hi)
      refine ⟨?_, fun dst => ?_⟩
      · rw [walk, getElem?_of_drop hbuf]
        rfl
      · rw [copyLabels, getElem?_of_drop hbuf]
        simp [textOf]
  | cons l ls ih =>
      obtain ⟨i, rfl⟩ := Nat.exists_eq_add_of_le' (Nat.one_le_of_lt hi)
      obtain ⟨⟨hl, hshort⟩, hls⟩ := List.forall_mem_cons.mp hls
      rw [wire_cons, List.cons_append, List.append_assoc] at hbuf
      obtain ⟨hvalue, hzero⟩ := toNat_length hl
      have hn := getElem?_of_drop hbuf
      have hnext := drop_label hbuf
      have hinside : p + 1 + l.length < buf.length := by
        by_contra hout
        rw [List.drop_eq_nil_of_le (Nat.le_of_not_lt hout)] at hnext
        exact absurd hnext.symm (by simp)
      have hrest (len : ℕ) : walk buf i (p + 1 + l.length) len =
            .done (len + (textOf ls).length) ∧
          ∀ dst, copyLabels buf i (p + 1 + l.length) dst = .done (dst ++ textOf ls) :=
        ih len hnext hls (Nat.lt_of_succ_lt_succ hi)
      refine ⟨?_, fun dst => ?_⟩
      · rw [walk_label hn hzero (by omega), hvalue, if_neg (Nat.not_le.mpr hinside),
          (hrest _).1, textOf_cons, List.length_append, List.length_cons, List.length_map]
        congr 1
        omega
      · have htake : (buf.drop (p + 1)).take l.length = l := by
          rw [← List.drop_drop, hbuf, List.drop_one, List.tail_cons, List.take_left]
        rw [copyLabels_label hn hzero (by omega) (by omega), hvalue, htake, (hrest 0).2,
          List.append_assoc, textOf_cons, textOf_cons]
        simp [textOf]

/-- The dot behind a label that is read stands where the label of the question has none. -/
theorem text_ne {l l' : List UInt8} (hl : Askable l) (hlt : l'.length < l.length) :
    textOf (l' :: ls') ≠ textOf (l :: ls) := by
  intro htext
  rw [textOf_cons, textOf_cons] at htext
  have hat := congrArg (fun t => t[l'.length]?) htext
  have hdot : (l'.map ngxTolower ++ byte '.' :: textOf ls')[l'.length]? = some (byte '.') := by
    rw [List.getElem?_append_right (List.length_map _).le, List.length_map, Nat.sub_self]
    rfl
  have hlower : (l.map ngxTolower).length = l.length := List.length_map _
  simp only [hdot] at hat
  rw [List.getElem?_append_left (by omega), List.getElem?_map] at hat
  obtain ⟨c, hc, hcdot⟩ := Option.map_eq_some_iff.mp hat.symm
  rw [ngxTolower_eq_iff c (by simp)] at hcdot
  subst hcdot
  exact hl.dot (List.mem_of_getElem? hc)

/-- If the name that is read is the one of the question, no label has been taken for
something else. -/
theorem NameAt.wire_eq (hname : NameAt buf p ls') (hbuf : buf.drop p = wire ls ++ 0 :: rest)
    (hls : ∀ l ∈ ls, Askable l) (htext : textOf ls' = textOf ls) : ls' = ls := by
  induction ls generalizing p ls' with
  | nil =>
      cases ls' with
      | nil => rfl
      | cons l' ls' =>
          rw [textOf_cons] at htext
          exact absurd htext (by simp [textOf])
  | cons l ls ih =>
      obtain ⟨hl, hrest⟩ := List.forall_mem_cons.mp hls
      rw [wire_cons, List.cons_append, List.append_assoc] at hbuf
      obtain ⟨hvalue, hzero⟩ := toNat_length hl
      have hn := getElem?_of_drop hbuf
      cases hname with
      | root hroot =>
          rw [hn] at hroot
          exact absurd (Option.some_inj.mp hroot) hzero
      | @label _ l' ls' hne hshort hbytes next =>
          rw [hbuf, List.cons_prefix_cons] at hbytes
          have hlength : l'.length = l.length := by
            rw [← hvalue, ← hbytes.1]
            exact (UInt8.toNat_ofNat_of_lt' (hshort.trans (by decide))).symm
          have hl' : l' = l :=
            (List.prefix_of_prefix_length_le hbytes.2 (List.prefix_append _ _)
              hlength.le).eq_of_length hlength
          subst hl'
          rw [textOf_cons, textOf_cons] at htext
          have htail := (List.cons.inj (List.append_cancel_left htext)).2
          rw [ih next (drop_label hbuf) hrest htail]
      | pointer hn' hpointer _ next =>
          -- A name that is read has a dot within 64 bytes, the label has none.
          rw [hn] at hn'
          cases hn'
          rw [hvalue] at hpointer
          cases ls' with
          | nil =>
              rw [textOf_cons] at htext
              exact absurd htext.symm (by simp [textOf])
          | cons l' ls' =>
              have hshort := next.short l' List.mem_cons_self
              exact absurd htext (text_ne hl (by omega))

theorem length_textOf_le (h : ∀ l ∈ ls, l.length < 64) :
    (textOf ls).length ≤ 64 * ls.length := by
  induction ls with
  | nil => exact Nat.le_refl 0
  | cons l ls ih =>
      obtain ⟨hl, hls⟩ := List.forall_mem_cons.mp h
      have hrest := ih hls
      rw [textOf_cons, List.length_append, List.length_cons, List.length_map, List.length_cons]
      omega

end Read

/-- The labels that can be read back. -/
def Readable (name : List UInt8) : Prop :=
  (∀ l ∈ name.splitOn (byte '.'), l.length < 64) ∧ (name.splitOn (byte '.')).length < 128

theorem labels_of_copied {name buf : List UInt8} {src rounds : ℕ} (hname : name ≠ [])
    (hsrc : src < buf.length) (hrounds : 128 ≤ rounds)
    (h : (ngxResolverCopy rounds true true buf src).name = some (name.map ngxTolower)) :
    ∃ ls, NameAt buf src ls ∧ ls.length < 128 ∧
      textOf ls = textOf (name.splitOn (byte '.')) := by
  have hspec := (resolverCopy_spec hsrc hrounds true true).2.2
  cases hcopied : ngxResolverCopy rounds true true buf src with
  | copied allocated written len =>
      obtain ⟨-, -, ls, hne, hlength, hat, -, htext⟩ := hspec _ _ _ hcopied
      rw [hcopied, Copied.name, Option.some_inj, htext] at h
      refine ⟨ls, hat, hlength, ?_⟩
      rw [textOf_splitOn, textOf_eq hne, h]
  | null =>
      rw [hcopied] at h
      exact absurd (List.map_eq_nil_iff.mp (Option.some_inj.mp h).symm) hname
  | _ =>
      rw [hcopied] at h
      cases h

/-- A question that stands as a whole in a message is read back exactly if its name is
readable. -/
theorem copied_wire_iff {name buf rest : List UInt8} {src rounds : ℕ} (hname : name ≠ [])
    (hrounds : 128 ≤ rounds)
    (hbuf : buf.drop src = wire (name.splitOn (byte '.')) ++ 0 :: rest)
    (hls : ∀ l ∈ name.splitOn (byte '.'), Askable l) :
    (ngxResolverCopy rounds true true buf src).name = some (name.map ngxTolower) ↔
      Readable name := by
  constructor
  · intro h
    have hsrc : src < buf.length := by
      by_contra hout
      rw [List.drop_eq_nil_of_le (Nat.le_of_not_lt hout)] at hbuf
      exact absurd hbuf.symm (by simp)
    obtain ⟨ls, hat, hlength, htext⟩ := labels_of_copied hname hsrc hrounds h
    have hshort := hat.short
    obtain rfl := hat.wire_eq hbuf hls htext
    exact ⟨hshort, hlength⟩
  · rintro ⟨hshort, hlength⟩
    have hboth : ∀ l ∈ name.splitOn (byte '.'), Askable l ∧ l.length < 64 :=
      fun l hl => ⟨hls l hl, hshort l hl⟩
    have hwalk := (walks_wire 0 hbuf hboth hlength).1
    have hrounds : (name.splitOn (byte '.')).length < rounds := by omega
    have hcopy := (walks_wire 0 hbuf hboth hrounds).2 []
    rw [Nat.zero_add, textOf_splitOn] at hwalk
    rw [List.nil_append, textOf_splitOn] at hcopy
    rw [ngxResolverCopy, hwalk, hcopy]
    simp [Copied.name]

/-- A name that is too long for any readable one is not read from any message. -/
theorem not_copied_of_long {name buf : List UInt8} {src rounds : ℕ}
    (hsrc : src < buf.length) (hrounds : 128 ≤ rounds) (hlong : 64 * 128 ≤ name.length) :
    (ngxResolverCopy rounds true true buf src).name ≠ some (name.map ngxTolower) ∧
      ¬Readable name := by
  have hname : name ≠ [] := by
    rintro rfl
    exact absurd hlong (by decide)
  have htext := congrArg List.length (textOf_splitOn name)
  rw [List.length_append, List.length_map, List.length_singleton] at htext
  refine ⟨fun h => ?_, fun h => ?_⟩
  · obtain ⟨ls, hat, hlength, heq⟩ := labels_of_copied hname hsrc hrounds h
    have hle := length_textOf_le hat.short
    rw [heq] at hle
    omega
  · have hle := length_textOf_le h.1
    have hlt := h.2
    omega

/-- The queries that are made for a name. -/
def AsksFor (name query : List UInt8) : Prop :=
  (∃ r memory ident ident6 queries,
    ngxResolverCreateNameQuery r memory ident ident6 name = .ok queries ∧
      (query = queries.query ∨ queries.query6 = some query)) ∨
    ∃ memory ident, ngxResolverCreateSrvQuery memory ident name = .ok query

/-- What a query has behind its header: the labels of the name. -/
structure HasLabels (name query : List UInt8) : Prop where
  ne : name ≠ []
  askable : ∀ l ∈ name.splitOn (byte '.'), Askable l
  inside : hdrSize < query.length
  /-- A query whose length does not fit into `qlen` is not copied as a whole. -/
  layout : (∃ rest, query.drop hdrSize = wire (name.splitOn (byte '.')) ++ 0 :: rest) ∨
    64 * 128 ≤ name.length

section Queries

variable {name encoded : List UInt8}

theorem hasLabels_written (h : encodeName name = some encoded) (hi lo : UInt8)
    (qs : List UInt8) : HasLabels name (queryHdr hi lo ++ encoded ++ qs) := by
  obtain ⟨hwire, -, hls⟩ := encodeName_some h
  have hlength := congrArg List.length hwire
  rw [List.length_append, List.length_singleton] at hlength
  refine ⟨?_, hls, ?_, .inl ⟨qs, ?_⟩⟩
  · rintro rfl
    cases h
  · rw [List.length_append, List.length_append, hdrSize, queryHdr]
    simp only [List.length_cons, List.length_nil]
    omega
  · rw [List.append_assoc, hwire, List.append_assoc]
    rfl

/-- The identifier and the type of the second query stand outside of the name. -/
theorem writeQuery6_eq (h : encodeName name = some encoded) (ident : ℕ) (hi lo type : UInt8) :
    writeQuery6 ident name (queryHdr hi lo ++ encoded ++ queryQs type) =
      queryHdr (identHi ident) (identLo ident) ++ encoded ++ queryQs resolveAaaa := by
  have hlength := (encodeName_some h).2.1
  have hheader : ((queryHdr hi lo ++ (encoded ++ queryQs type)).set 0 (identHi ident)).set 1
      (identLo ident) =
        queryHdr (identHi ident) (identLo ident) ++ (encoded ++ queryQs type) := rfl
  have hsize : (queryHdr (identHi ident) (identLo ident)).length = hdrSize := rfl
  rw [writeQuery6, List.append_assoc, hheader, ← hlength, List.set_append_right _ _ (by omega),
    hsize, Nat.add_assoc, Nat.add_sub_cancel_left,
    List.set_append_right _ _ (Nat.le_add_right _ 1), Nat.add_sub_cancel_left,
    List.append_assoc]
  rfl

theorem length_writeQuery6 (ident : ℕ) (p : List UInt8) :
    (writeQuery6 ident name p).length = p.length := by
  rw [writeQuery6, List.length_set, List.length_set, List.length_set]

theorem hasLabels_copied (h : encodeName name = some encoded) (hi lo : UInt8) (ident : ℕ)
    (fresh : ℕ → UInt8) :
    HasLabels name (writeQuery6 ident name
      ((queryHdr hi lo ++ encoded ++ queryQs resolveA).take
          ((queryHdr hi lo ++ encoded ++ queryQs resolveA).length % 2 ^ 16) ++
        (List.range ((queryHdr hi lo ++ encoded ++ queryQs resolveA).length -
          (queryHdr hi lo ++ encoded ++ queryQs resolveA).length % 2 ^ 16)).map fresh)) := by
  obtain ⟨-, hlength, -⟩ := encodeName_some h
  have hfirst := hasLabels_written h hi lo (queryQs resolveA)
  have hquery : (queryHdr hi lo ++ encoded ++ queryQs resolveA).length = 12 + nlen name + 4 := by
    rw [List.length_append, List.length_append, hlength]
    rfl
  rcases Nat.lt_or_ge (queryHdr hi lo ++ encoded ++ queryQs resolveA).length (2 ^ 16)
    with hfits | hlong
  · rw [Nat.mod_eq_of_lt hfits, List.take_length, Nat.sub_self, List.range_zero, List.map_nil,
      List.append_nil, writeQuery6_eq h]
    exact hasLabels_written h _ _ _
  · have hname := List.length_pos_iff_ne_nil.mpr hfirst.ne
    have hinside := hfirst.inside
    refine ⟨hfirst.ne, hfirst.askable, ?_, .inr ?_⟩
    · rw [length_writeQuery6, List.length_append, List.length_take, List.length_map,
        List.length_range]
      omega
    · rw [nlen, if_pos (by omega)] at hquery
      omega

theorem AsksFor.hasLabels {query : List UInt8} (h : AsksFor name query) :
    HasLabels name query := by
  rcases h with ⟨r, memory, ident, ident6, queries, hcreated, hquery⟩ | ⟨memory, ident, hcreated⟩
  · cases memory with
    | none => cases hcreated
    | some bytes =>
        rw [ngxResolverCreateNameQuery] at hcreated
        cases hencoded : encodeName name with
        | none =>
            rw [hencoded] at hcreated
            cases hcreated
        | some encoded =>
            rw [hencoded] at hcreated
            have hwritten (hi lo : UInt8) := hasLabels_written hencoded hi lo (queryQs resolveA)
            have hsecond := hasLabels_written hencoded (identHi ident6) (identLo ident6)
              (queryQs resolveAaaa)
            cases hipv4 : r.ipv4 with
            | false =>
                have hipv6 : r.ipv6 = true := by
                  have hsome := r.some_on
                  rwa [hipv4, Bool.false_or] at hsome
                simp only [hipv4, hipv6, Bool.true_eq_false, Bool.false_eq_true, if_false,
                  writeQuery6_eq hencoded] at hcreated
                cases hcreated
                rcases hquery with rfl | hquery
                · exact hsecond
                · cases hquery
                  exact hsecond
            | true =>
                cases hipv6 : r.ipv6 with
                | false =>
                    simp only [hipv4, hipv6, if_true] at hcreated
                    cases hcreated
                    rcases hquery with rfl | hquery
                    · exact hwritten _ _
                    · cases hquery
                | true =>
                    simp only [hipv4, hipv6, if_true, Bool.true_eq_false, if_false] at hcreated
                    cases hcreated
                    rcases hquery with rfl | hquery
                    · exact hwritten _ _
                    · cases hquery
                      exact hasLabels_copied hencoded _ _ _ _
  · cases memory with
    | none => cases hcreated
    | some bytes =>
        rw [ngxResolverCreateSrvQuery] at hcreated
        cases hencoded : encodeName name with
        | none =>
            rw [hencoded] at hcreated
            cases hcreated
        | some encoded =>
            rw [hencoded] at hcreated
            cases hcreated
            exact hasLabels_written hencoded _ _ _

end Queries

/-- The name of a query is read back from it if its labels have at most 63 bytes and are at
most 127, and never otherwise. -/
theorem resolverCopy_query_iff {name query : List UInt8} {rounds : ℕ}
    (hquery : AsksFor name query) (hrounds : 128 ≤ rounds) :
    ((ngxResolverCopy rounds true true query hdrSize).name = some (name.map ngxTolower) ↔
      (∀ l ∈ name.splitOn (byte '.'), l.length ≤ 63) ∧
        (name.splitOn (byte '.')).length ≤ 127) ∧
    ∀ (buf : List UInt8) (src : ℕ) (wanted memory : Bool), src < buf.length →
      ngxResolverCopy rounds wanted memory buf src ≠ .running ∧
      ngxResolverCopy rounds wanted memory buf src ≠ .overrun ∧
      ∀ allocated written len,
        ngxResolverCopy rounds wanted memory buf src = .copied allocated written len →
        written.length = allocated ∧ len + 1 = allocated ∧
        ∃ ls, ls ≠ [] ∧ ls.length < 128 ∧ NameAt buf src ls ∧ written = textOf ls ∧
          written.take len = [byte '.'].intercalate (ls.map fun l => l.map ngxTolower) := by
  refine ⟨?_, fun buf src wanted memory hsrc => resolverCopy_spec hsrc hrounds wanted memory⟩
  have hlabels := hquery.hasLabels
  have hreadable : Readable name ↔ (∀ l ∈ name.splitOn (byte '.'), l.length ≤ 63) ∧
      (name.splitOn (byte '.')).length ≤ 127 := by
    simp only [Readable, Nat.lt_succ_iff]
  rw [← hreadable]
  rcases hlabels.layout with ⟨rest, hbuf⟩ | hlong
  · exact copied_wire_iff hlabels.ne hrounds hbuf hlabels.askable
  · obtain ⟨hnot, hnot'⟩ := not_copied_of_long hlabels.inside hrounds hlong
    exact iff_of_false hnot hnot'

/-- A label of 64 bytes. -/
theorem resolverCopy_long_label :
    ∃ name query, AsksFor name query ∧
      (ngxResolverCopy 128 true true query hdrSize).name ≠ some (name.map ngxTolower) := by
  refine ⟨List.replicate 64 (byte 'a'), _, .inr ⟨some fun _ => 0, 0, rfl⟩, ?_⟩
  decide

/-- The names of an address query for both families, which is written twice, and of a service
query. -/
theorem resolverCopy_query_nginx :
    (ngxResolverCopy 128 true true
        (queryHdr 0 7 ++ [1, 97, 2, 66, 98, 0] ++ queryQs resolveA) hdrSize).name =
      some (Http.bytes "a.bb") ∧
    (ngxResolverCopy 128 true true
        (queryHdr 0 8 ++ [1, 97, 2, 66, 98, 0] ++ queryQs resolveAaaa) hdrSize).name =
      some (Http.bytes "a.bb") ∧
    (ngxResolverCopy 128 true true
        (queryHdr 0 9 ++ [1, 97, 2, 66, 98, 0] ++ queryQs resolveSrv) hdrSize).name =
      some (Http.bytes "a.bb") := by
  have hquery : AsksFor (Http.bytes "a.Bb")
      (queryHdr 0 7 ++ [1, 97, 2, 66, 98, 0] ++ queryQs resolveA) :=
    .inl ⟨⟨true, true, rfl⟩, some fun _ => 0, 7, 8, _, rfl, .inl rfl⟩
  have hquery6 : AsksFor (Http.bytes "a.Bb")
      (queryHdr 0 8 ++ [1, 97, 2, 66, 98, 0] ++ queryQs resolveAaaa) :=
    .inl ⟨⟨true, true, rfl⟩, some fun _ => 0, 7, 8, _, rfl, .inr rfl⟩
  have hservice : AsksFor (Http.bytes "a.Bb")
      (queryHdr 0 9 ++ [1, 97, 2, 66, 98, 0] ++ queryQs resolveSrv) :=
    .inr ⟨some fun _ => 0, 9, rfl⟩
  exact ⟨(resolverCopy_query_iff hquery (Nat.le_refl 128)).1.mpr (by decide),
    (resolverCopy_query_iff hquery6 (Nat.le_refl 128)).1.mpr (by decide),
    (resolverCopy_query_iff hservice (Nat.le_refl 128)).1.mpr (by decide)⟩

end MultiversionBalancer.Resolver
