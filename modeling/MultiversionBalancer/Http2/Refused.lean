import MultiversionBalancer.Http2.Reads
import MultiversionBalancer.Http2.TableRuns

/-!
# Header blocks of refused streams

A header block is a list of representations.  When there is no stream, the strings
of a literal without indexing are passed over, and
`ngx_http_v2_state_process_header` takes the lengths of the string that was decoded
last for theirs.
-/

namespace MultiversionBalancer.Http2

variable {T S : Type*}

/-! ## Representations -/

/-- A representation in a header block, with the header field that it stands for. -/
inductive Rep where
  | indexed (header : Header)
  | update
  | literal (index newName : Bool) (header : Header)

def decodeString (env : Env T S) (huff : Bool) (bytes : List UInt8) :
    Option (List UInt8) :=
  if huff then (ngxHttpHuffDecode env.huffDecodeCodes 0 bytes [] true).map Prod.snd
  else some bytes

/-- A string with its length, and what stands behind it. -/
def readString (env : Env T S) : List UInt8 → Option (List UInt8 × List UInt8)
  | [] => none
  | ch :: rest =>
      match ngxHttpV2ParseInt (rest.length + 1) ch rest 127 with
      | .value len _ rest =>
          if env.largeClientHeaderBuffersSize < len ∨ rest.length < len then none
          else (decodeString env (128 ≤ ch) (rest.take len)).map fun s =>
            (s, rest.drop len)
      | _ => none

/-- The integer at the front of a representation. -/
def RepInt (ch : UInt8) (rest : List UInt8) (value : ℕ) (u : List UInt8) : Prop :=
  ∃ length, ngxHttpV2ParseInt (rest.length + 1) ch rest (headerPrefix ch) =
    .value value length u

/-- The table behind a literal. -/
def Inserts (env : Env T S) (index : Bool) (t : T) (header : Header) (t' : T) :
    Prop :=
  if index then env.addHeader t header = some t' else t' = t

/-- A representation at the front of a block, the table and the bytes behind it,
and where its integers begin. -/
inductive Spelled (env : Env T S) :
    T → List UInt8 → Rep → T → List UInt8 → List (List UInt8) → Prop where
  | indexed {t : T} {ch : UInt8} {rest u : List UInt8} {value : ℕ} {header : Header}
      (hch : 128 ≤ ch) (hint : RepInt ch rest value u)
      (hget : ∀ old, env.getIndexedHeader t value false old = some header) :
      Spelled env t (ch :: rest) (.indexed header) t u [ch :: rest]
  | update {t t' : T} {ch : UInt8} {rest u : List UInt8} {value : ℕ}
      (hlt : ch < 64) (hge : 32 ≤ ch) (hint : RepInt ch rest value u)
      (hsize : env.tableSize t value = some t') :
      Spelled env t (ch :: rest) .update t' u [ch :: rest]
  | newName {t t' : T} {ch : UInt8} {rest u₁ u₂ u₃ : List UInt8} {header : Header}
      (hlt : ch < 128) (hliteral : ¬(ch < 64 ∧ 32 ≤ ch))
      (hint : RepInt ch rest 0 u₁)
      (hname : readString env u₁ = some (header.name, u₂)) (hne : header.name ≠ [])
      (hvalue : readString env u₂ = some (header.value, u₃))
      (hinsert : Inserts env (64 ≤ ch) t header t') :
      Spelled env t (ch :: rest) (.literal (64 ≤ ch) true header) t' u₃
        [ch :: rest, u₁, u₂]
  | indexedName {t t' : T} {ch : UInt8} {rest u₁ u₂ : List UInt8} {value : ℕ}
      {header : Header} (hlt : ch < 128) (hliteral : ¬(ch < 64 ∧ 32 ≤ ch))
      (hint : RepInt ch rest value u₁) (hpos : value ≠ 0)
      (hget : ∀ old, ∃ found, env.getIndexedHeader t value true old = some found ∧
        found.name = header.name)
      (hvalue : readString env u₁ = some (header.value, u₂))
      (hinsert : Inserts env (64 ≤ ch) t header t') :
      Spelled env t (ch :: rest) (.literal (64 ≤ ch) false header) t' u₂
        [ch :: rest, u₁]

/-- A well-formed header block: its representations, the table behind it, and where
its integers begin. -/
inductive WellFormed (env : Env T S) :
    T → List UInt8 → List Rep → T → List (List UInt8) → Prop where
  | last {t t' : T} {u : List UInt8} {rep : Rep} {ints : List (List UInt8)}
      (h : Spelled env t u rep t' [] ints) : WellFormed env t u [rep] t' ints
  | more {t t' t'' : T} {u u' : List UInt8} {rep : Rep} {reps : List Rep}
      {ints ints' : List (List UInt8)} (hne : u' ≠ [])
      (h : Spelled env t u rep t' u' ints)
      (hrest : WellFormed env t' u' reps t'' ints') :
      WellFormed env t u (rep :: reps) t'' (ints ++ ints')

/-- The size that counts towards the limit on a header. -/
def Rep.size : Rep → ℕ
  | .indexed header => header.name.length + header.value.length
  | .update => 0
  | .literal _ _ header => header.name.length + header.value.length

/-- The request takes the header fields. -/
def Accepts (env : Env T S) : S → List Rep → Prop
  | _, [] => True
  | stream, .update :: reps => Accepts env stream reps
  | stream, .indexed header :: reps =>
      ∃ stream', env.processHeader stream header = .ok stream' ∧
        Accepts env stream' reps
  | stream, .literal _ _ header :: reps =>
      ∃ stream', env.processHeader stream header = .ok stream' ∧
        Accepts env stream' reps

/-- What is counted when there is no stream and `stale` is the length of the string
that was decoded last. -/
def Rep.charge (stale : ℕ) : Rep → ℕ
  | .literal false true _ => stale + stale
  | .literal false false header => header.name.length + stale
  | rep => rep.size

/-- The length of the string that was decoded last. -/
def Rep.stale (stale : ℕ) : Rep → ℕ
  | .literal true _ header => header.value.length
  | _ => stale

/-- A new name in a literal without indexing. -/
def Rep.SkipsName : Rep → Prop
  | .literal false true _ => True
  | _ => False

/-- No representation is taken for an empty name or for too large a header. -/
def Spared : ℕ → ℕ → List Rep → Prop
  | _, _, [] => True
  | limit, stale, rep :: reps =>
      (rep.SkipsName → stale ≠ 0) ∧ rep.charge stale ≤ limit ∧
        Spared (limit - rep.charge stale) (rep.stale stale) reps

/-! ## Runs through a block -/

/-- How the handlers get from one place in a block to another, with the inputs on
which integers begin. -/
inductive Reaches (env : Env T S) : Handler → Hpack T S → List UInt8 →
    List (List UInt8) → Handler → Hpack T S → List UInt8 → Prop where
  | refl {handler : Handler} {hpack : Hpack T S} {u : List UInt8} :
      Reaches env handler hpack u [] handler hpack u
  | int {handler handler₁ handler' : Handler} {hpack hpack₁ hpack' : Hpack T S}
      {u u₁ u' : List UInt8} {ints : List (List UInt8)} (hint : handler.StartsInt)
      (hstep : blockStep env handler hpack u = .more handler₁ hpack₁ u₁)
      (hrest : Reaches env handler₁ hpack₁ u₁ ints handler' hpack' u') :
      Reaches env handler hpack u (u :: ints) handler' hpack' u'
  | other {handler handler₁ handler' : Handler} {hpack hpack₁ hpack' : Hpack T S}
      {u u₁ u' : List UInt8} {ints : List (List UInt8)} (hint : ¬handler.StartsInt)
      (hstep : blockStep env handler hpack u = .more handler₁ hpack₁ u₁)
      (hrest : Reaches env handler₁ hpack₁ u₁ ints handler' hpack' u') :
      Reaches env handler hpack u ints handler' hpack' u'

section Reaches

variable {env : Env T S} {handler handler₁ handler' : Handler}
  {hpack hpack₁ hpack' : Hpack T S} {u u₁ u' : List UInt8}
  {ints ints' : List (List UInt8)}

theorem Reaches.trans (h : Reaches env handler hpack u ints handler₁ hpack₁ u₁)
    (h' : Reaches env handler₁ hpack₁ u₁ ints' handler' hpack' u') :
    Reaches env handler hpack u (ints ++ ints') handler' hpack' u' := by
  induction h with
  | refl => exact h'
  | int hint hstep hrest ih => exact .int hint hstep (ih h')
  | other hint hstep hrest ih => exact .other hint hstep (ih h')

theorem Reaches.decodes {e : BlockEnd T S}
    (h : Reaches env handler hpack u ints handler' hpack' u')
    (hend : Decodes env handler' hpack' u' e) : Decodes env handler hpack u e := by
  induction h with
  | refl => exact hend
  | int hint hstep hrest ih => exact .step hstep (ih hend)
  | other hint hstep hrest ih => exact .step hstep (ih hend)

/-- A block that is used up is used up at the end of the way, too. -/
theorem Reaches.usedUp (h : Reaches env handler hpack u ints handler' hpack' u')
    (hused : UsedUp env handler hpack u) :
    UsedUp env handler' hpack' u' ∧ ∀ x ∈ ints, intOctets ≤ x.length := by
  have hnext {handler₁ : Handler} {hpack₁ : Hpack T S} {u₁ : List UInt8}
      {handler : Handler} {hpack : Hpack T S} {u : List UInt8}
      (hstep : blockStep env handler hpack u = .more handler₁ hpack₁ u₁)
      (hused : UsedUp env handler hpack u) :
      (handler.StartsInt → intOctets ≤ u.length) ∧ UsedUp env handler₁ hpack₁ u₁ := by
    cases hused with
    | complete => cases hstep
    | fieldLen => cases hstep
    | field hfield hlt htake =>
        rw [blockStep_field hfield, fieldStep, if_pos hlt] at hstep
        cases hstep
    | step hint hstep' hrest =>
        cases hstep.symm.trans hstep'
        exact ⟨hint, hrest⟩
  induction h with
  | refl => exact ⟨hused, fun x hx => absurd hx List.not_mem_nil⟩
  | int hint hstep hrest ih =>
      obtain ⟨hfirst, hused'⟩ := hnext hstep hused
      obtain ⟨hend, hothers⟩ := ih hused'
      exact ⟨hend, List.forall_mem_cons.mpr ⟨hfirst hint, hothers⟩⟩
  | other hint hstep hrest ih => exact ih (hnext hstep hused).2

theorem Reaches.usedUp_of (h : Reaches env handler hpack u ints handler' hpack' u')
    (hints : ∀ x ∈ ints, intOctets ≤ x.length)
    (hused : UsedUp env handler' hpack' u') : UsedUp env handler hpack u := by
  induction h with
  | refl => exact hused
  | int hint hstep hrest ih =>
      obtain ⟨hfirst, hothers⟩ := List.forall_mem_cons.mp hints
      exact .step (fun _ => hfirst) hstep (ih hothers hused)
  | other hint hstep hrest ih =>
      exact .step (fun h => absurd h hint) hstep (ih hints hused)

/-- The way leads to a header field on which the connection fails. -/
def Fails (env : Env T S) (handler : Handler) (hpack : Hpack T S)
    (u : List UInt8) : Prop :=
  ∃ ints hpack' u' hpack'', Reaches env handler hpack u ints .processHeader hpack' u' ∧
    hpack'.processHeader env = .error hpack''

theorem Fails.decodes (h : Fails env handler hpack u) :
    ∃ hpack' : Hpack T S, Decodes env handler hpack u hpack'.failed := by
  obtain ⟨ints, hpack', u', hpack'', hreaches, herror⟩ := h
  refine ⟨hpack'', hreaches.decodes (.stop ?_)⟩
  rw [blockStep, herror]
  rfl

theorem Reaches.fails (h : Reaches env handler hpack u ints handler₁ hpack₁ u₁)
    (hfails : Fails env handler₁ hpack₁ u₁) : Fails env handler hpack u := by
  obtain ⟨ints', hpack', u', hpack'', hreaches, herror⟩ := hfails
  exact ⟨ints ++ ints', hpack', u', hpack'', h.trans hreaches, herror⟩

end Reaches

/-! ## Strings -/

section Strings

variable {env : Env T S} {hpack : Hpack T S} {u u' s : List UInt8}

/-- The state behind a string that has been decoded. -/
def Hpack.decoded (hpack : Hpack T S) (s : List UInt8) : Hpack T S :=
  { hpack with fieldState := 0, field := s, fieldRest := 0 }

/-- The state behind a string that has been passed over. -/
def Hpack.passed (hpack : Hpack T S) : Hpack T S :=
  { hpack with fieldRest := 0 }

theorem readString_eq_some (h : readString env u = some (s, u')) :
    ∃ ch rest len length rest', u = ch :: rest ∧
      ngxHttpV2ParseInt (rest.length + 1) ch rest 127 = .value len length rest' ∧
      ¬(env.largeClientHeaderBuffersSize < len) ∧ ¬(rest'.length < len) ∧
      decodeString env (128 ≤ ch) (rest'.take len) = some s ∧
      u' = rest'.drop len := by
  cases u with
  | nil => cases h
  | cons ch rest =>
      simp only [readString] at h
      cases hint : ngxHttpV2ParseInt (rest.length + 1) ch rest 127 with
      | value len length rest' =>
          rw [hint] at h
          simp only at h
          split at h
          next => cases h
          next hfits =>
            obtain ⟨s', hs, heq⟩ := Option.map_eq_some_iff.mp h
            cases heq
            rw [not_or] at hfits
            exact ⟨ch, rest, len, length, rest', rfl, hint, hfits.1, hfits.2, hs, rfl⟩
      | error =>
          rw [hint] at h
          cases h
      | declined =>
          rw [hint] at h
          cases h
      | again =>
          rw [hint] at h
          cases h

theorem reaches_field {handler : Handler} {hpack' : Hpack T S} {len : ℕ}
    (hfield : handler.IsField) (hrest : hpack.fieldRest = len) (hlen : ¬(u.length < len))
    (htake : takeField env handler (hpack.setRest 0) (u.take len) = some hpack') :
    Reaches env handler hpack u [] .processHeader hpack' (u.drop len) := by
  subst hrest
  refine .other (not_startsInt hfield) ?_ .refl
  rw [blockStep_field hfield, fieldStep, if_neg hlen, htake]

theorem huffDecode_last {codes : UInt8 → UInt8 → HuffCode} {state : UInt8}
    {src dst : List UInt8} {r : UInt8 × List UInt8}
    (h : ngxHttpHuffDecode codes state src dst true = some r) : r.1 = 0 := by
  rw [ngxHttpHuffDecode] at h
  split at h
  · cases h
  · rw [if_pos rfl] at h
    split at h
    · cases h
      rfl
    · cases h

theorem reaches_decoded (hneeded : ¬(hpack.stream.isNone ∧ hpack.index = false))
    (hstate : hpack.fieldState = 0) (h : readString env u = some (s, u')) :
    Reaches env .fieldLen hpack u [u] .processHeader (hpack.decoded s) u' := by
  obtain ⟨ch, rest, len, length, rest', rfl, hint, hsize, hlen, hdecode, rfl⟩ :=
    readString_eq_some h
  have hlength : blockStep env .fieldLen hpack (ch :: rest) =
      .more (if 128 ≤ ch then .fieldHuff else .fieldRaw)
        { hpack with fieldRest := len, field := [] } rest' := by
    rw [blockStep, hint, intStep, Hpack.fieldLength, if_neg hsize, if_neg hneeded]
    simp only [decide_eq_true_eq]
    rfl
  refine .int (.inr rfl) hlength ?_
  by_cases hhuff : 128 ≤ ch
  · rw [decodeString, decide_eq_true hhuff, if_pos rfl] at hdecode
    obtain ⟨r, hr, rfl⟩ := Option.map_eq_some_iff.mp hdecode
    rw [← hstate] at hr
    rw [if_pos hhuff]
    refine reaches_field (.inl rfl) rfl hlen ?_
    have htake := congrArg (Option.map fun r : UInt8 × List UInt8 =>
      ({ hpack with fieldRest := 0, fieldState := r.1, field := r.2 } : Hpack T S)) hr
    rw [Option.map_some, huffDecode_last hr] at htake
    exact htake
  · rw [if_neg hhuff]
    rw [decodeString, decide_eq_false hhuff, if_neg Bool.false_ne_true] at hdecode
    cases hdecode
    refine reaches_field (.inr (.inl rfl)) rfl hlen ?_
    rw [Hpack.decoded, ← hstate]
    rfl

theorem reaches_passed (hstream : hpack.stream.isNone) (hindex : hpack.index = false)
    (h : readString env u = some (s, u')) :
    Reaches env .fieldLen hpack u [u] .processHeader hpack.passed u' := by
  obtain ⟨ch, rest, len, length, rest', rfl, hint, hsize, hlen, -, rfl⟩ :=
    readString_eq_some h
  have hlength : blockStep env .fieldLen hpack (ch :: rest) =
      .more .fieldSkip { hpack with fieldRest := len } rest' := by
    rw [blockStep, hint, intStep, Hpack.fieldLength, if_neg hsize,
      if_pos ⟨hstream, hindex⟩]
    rfl
  exact .int (.inr rfl) hlength (reaches_field (.inr (.inr rfl)) rfl hlen rfl)

/-- What stands for a string from `field_start` to `field_end`. -/
def Hpack.seen (hpack : Hpack T S) (index : Bool) (s : List UInt8) : List UInt8 :=
  if hpack.stream.isNone ∧ index = false then hpack.field else s

theorem reaches_string (hstate : hpack.fieldState = 0)
    (h : readString env u = some (s, u')) :
    Reaches env .fieldLen hpack u [u] .processHeader
      { hpack with field := hpack.seen hpack.index s, fieldRest := 0 } u' := by
  by_cases hskip : hpack.stream.isNone ∧ hpack.index = false
  · rw [Hpack.seen, if_pos hskip]
    exact reaches_passed hskip.1 hskip.2 h
  · rw [Hpack.seen, if_neg hskip]
    have hreaches := reaches_decoded hskip hstate h
    rw [Hpack.decoded, ← hstate] at hreaches
    exact hreaches

end Strings

/-! ## Header fields -/

/-- The state between two header fields. -/
structure Hpack.Idle (hpack : Hpack T S) : Prop where
  parseName : hpack.parseName = false
  parseValue : hpack.parseValue = false
  index : hpack.index = false
  fieldState : hpack.fieldState = 0

/-- A header field is given to the stream, if there is one. -/
def Handed (env : Env T S) (header : Header) : Option S → Option S → Prop
  | none, stream' => stream' = none
  | some stream, stream' =>
      ∃ stream₁, env.processHeader stream header = .ok stream₁ ∧ stream' = some stream₁

/-- The state behind a header field. -/
structure Behind (hpack hpack' : Hpack T S) (table : T) (size : ℕ)
    (field : List UInt8) (stream : Option S) : Prop where
  idle : hpack'.Idle
  table : hpack'.table = table
  headerLimit : hpack'.headerLimit = hpack.headerLimit - size
  field : hpack'.field = field
  stream : hpack'.stream = stream

section Fields

variable {env : Env T S} {hpack : Hpack T S} {header : Header} {t' : T}
  {u : List UInt8} {stream' : Option S}

/-- The header field that has been read. -/
def Hpack.current (hpack : Hpack T S) : Header :=
  if hpack.parseValue then { hpack.header with value := hpack.field } else hpack.header

theorem processHeader_eq (hname : hpack.parseName = false) :
    hpack.processHeader env =
      Hpack.toTable env { hpack with parseValue := false, header := hpack.current } := by
  obtain ⟨parseName, parseValue, index, header, headerLimit, fieldState, field,
    fieldRest, stream, table, fields⟩ := hpack
  change parseName = false at hname
  subst hname
  cases parseValue with
  | false => rfl
  | true => rfl

theorem toStream_eq (hhanded : Handed env hpack.header hpack.stream stream') :
    hpack.toStream env = .ok (.headerComplete, { hpack with stream := stream' }) := by
  obtain ⟨parseName, parseValue, index, header, headerLimit, fieldState, field,
    fieldRest, stream, table, fields⟩ := hpack
  cases stream with
  | none =>
      obtain rfl : stream' = none := hhanded
      rfl
  | some stream =>
      obtain ⟨stream₁, hok, rfl⟩ := hhanded
      simp only [Hpack.toStream, hok]

/-- A header field within the limit. -/
theorem reaches_complete (hname : hpack.parseName = false)
    (hstate : hpack.fieldState = 0) (hheader : hpack.current = header)
    (hlimit : header.name.length + header.value.length ≤ hpack.headerLimit)
    (hinsert : Inserts env hpack.index hpack.table header t')
    (hhanded : Handed env header hpack.stream stream') :
    ∃ hpack', Reaches env .processHeader hpack u [] .headerComplete hpack' u ∧
      Behind hpack hpack' t' (header.name.length + header.value.length) hpack.field
        stream' := by
  have htable : hpack.processHeader env = .ok (.headerComplete,
      { hpack with
        parseValue := false
        header := header
        headerLimit := hpack.headerLimit - (header.name.length + header.value.length)
        fields := hpack.fields ++ [header]
        table := t'
        index := false
        stream := stream' }) := by
    rw [processHeader_eq hname, hheader, Hpack.toTable]
    simp only [if_neg (Nat.not_lt.mpr hlimit)]
    rw [Inserts] at hinsert
    by_cases hindex : hpack.index = true
    · rw [if_pos hindex] at hinsert ⊢
      rw [hinsert]
      exact toStream_eq hhanded
    · rw [if_neg hindex] at hinsert ⊢
      rw [hinsert, ← Bool.eq_false_of_not_eq_true hindex]
      exact toStream_eq hhanded
  refine ⟨_, .other (not_or.mpr ⟨by decide, by decide⟩) (by rw [blockStep, htable]; rfl) .refl, ?_⟩
  exact ⟨⟨hname, rfl, rfl, hstate⟩, rfl, rfl, rfl, rfl⟩

/-- A header field over the limit. -/
theorem fails_too_large (hname : hpack.parseName = false)
    (hheader : hpack.current = header)
    (hlimit : hpack.headerLimit < header.name.length + header.value.length) :
    Fails env .processHeader hpack u := by
  refine ⟨[], hpack, u, { hpack with parseValue := false, header := header }, .refl, ?_⟩
  rw [processHeader_eq hname, hheader, Hpack.toTable]
  exact if_pos hlimit

end Fields

section Ways

variable {env : Env T S} {hpack : Hpack T S} {t' : T} {ch : UInt8} {value : ℕ}
  {rest u u₁ u₂ : List UInt8}

theorem blockStep_int (hint : RepInt ch rest value u) :
    blockStep env .headerBlock hpack (ch :: rest) =
      .resume u ((hpack.markIndex ch).headerValue env ch value) := by
  obtain ⟨length, hint⟩ := hint
  rw [blockStep, hint]
  rfl

theorem reaches_indexed {header : Header} (hch : 128 ≤ ch)
    (hint : RepInt ch rest value u)
    (hget : ∀ old, env.getIndexedHeader hpack.table value false old = some header) :
    Reaches env .headerBlock hpack (ch :: rest) [ch :: rest] .processHeader
      { hpack with header := header } u := by
  refine .int (.inl rfl) ?_ .refl
  rw [blockStep_int hint, Hpack.markIndex, if_neg fun h => UInt8.not_lt.mpr hch h.1,
    Hpack.headerValue, if_pos hch, hget]
  rfl

theorem reaches_update (hlt : ch < 64) (hge : 32 ≤ ch) (hint : RepInt ch rest value u)
    (hsize : env.tableSize hpack.table value = some t') :
    Reaches env .headerBlock hpack (ch :: rest) [ch :: rest] .headerComplete
      { hpack with table := t' } u := by
  refine .int (.inl rfl) ?_ .refl
  have hlow : ¬128 ≤ ch := UInt8.not_le.mpr (UInt8.lt_trans hlt (by decide))
  rw [blockStep_int hint, Hpack.markIndex, if_neg fun h => UInt8.not_le.mpr hlt h.2,
    Hpack.headerValue, if_neg hlow, if_pos ⟨hlt, hge⟩, hsize]
  rfl

/-- A literal before its value. -/
def Hpack.named (hpack : Hpack T S) (index : Bool) (header : Header) : Hpack T S :=
  { hpack with parseValue := true, index := index, header := header }

def Hpack.valued (hpack : Hpack T S) (index : Bool) (header : Header)
    (value : List UInt8) : Hpack T S :=
  { hpack.named index header with field := value, fieldRest := 0 }

theorem Hpack.Idle.markIndex (hidle : hpack.Idle) (hlt : ch < 128) :
    hpack.markIndex ch = { hpack with index := decide (64 ≤ ch) } := by
  rw [Hpack.markIndex]
  by_cases hge : 64 ≤ ch
  · rw [if_pos ⟨hlt, hge⟩, decide_eq_true hge]
  · rw [if_neg fun h => hge h.2, decide_eq_false hge, ← hidle.index]

/-- The way to the value of a literal whose name is in the table. -/
theorem reaches_indexedName {s : List UInt8} {found : Header} (hidle : hpack.Idle)
    (hlt : ch < 128) (hliteral : ¬(ch < 64 ∧ 32 ≤ ch)) (hint : RepInt ch rest value u₁)
    (hpos : value ≠ 0)
    (hget : env.getIndexedHeader hpack.table value true hpack.header = some found)
    (hvalue : readString env u₁ = some (s, u₂)) :
    Reaches env .headerBlock hpack (ch :: rest) [ch :: rest, u₁] .processHeader
      (hpack.valued (64 ≤ ch) found (hpack.seen (64 ≤ ch) s)) u₂ := by
  have hfirst : blockStep env .headerBlock hpack (ch :: rest) =
      .more .fieldLen (hpack.named (64 ≤ ch) found) u₁ := by
    rw [blockStep_int hint, hidle.markIndex hlt, Hpack.headerValue,
      if_neg (UInt8.not_le.mpr hlt), if_neg hliteral, if_neg hpos]
    simp only [hget]
    rfl
  exact .int (.inl rfl) hfirst
    (reaches_string (show (hpack.named (64 ≤ ch) found).fieldState = 0 from
      hidle.fieldState) hvalue)

theorem reaches_newName {name : List UInt8} (hidle : hpack.Idle)
    (hlt : ch < 128) (hliteral : ¬(ch < 64 ∧ 32 ≤ ch)) (hint : RepInt ch rest 0 u₁)
    (hname : readString env u₁ = some (name, u₂)) :
    Reaches env .headerBlock hpack (ch :: rest) [ch :: rest, u₁] .processHeader
      { hpack.named (64 ≤ ch) hpack.header with
        parseName := true, field := hpack.seen (64 ≤ ch) name, fieldRest := 0 } u₂ := by
  have hfirst : blockStep env .headerBlock hpack (ch :: rest) =
      .more .fieldLen
        { hpack.named (64 ≤ ch) hpack.header with parseName := true } u₁ := by
    rw [blockStep_int hint, hidle.markIndex hlt, Hpack.headerValue,
      if_neg (UInt8.not_le.mpr hlt), if_neg hliteral, if_pos rfl]
    rfl
  refine .int (.inl rfl) hfirst ?_
  exact reaches_string (show Hpack.fieldState { hpack.named (64 ≤ ch) hpack.header with
    parseName := true } = 0 from hidle.fieldState) hname

theorem reaches_newName_value {name s u₃ : List UInt8} (hidle : hpack.Idle)
    (hlt : ch < 128) (hliteral : ¬(ch < 64 ∧ 32 ≤ ch)) (hint : RepInt ch rest 0 u₁)
    (hname : readString env u₁ = some (name, u₂))
    (hvalue : readString env u₂ = some (s, u₃))
    (hne : hpack.seen (64 ≤ ch) name ≠ []) :
    Reaches env .headerBlock hpack (ch :: rest) [ch :: rest, u₁, u₂] .processHeader
      (hpack.valued (64 ≤ ch) { hpack.header with name := hpack.seen (64 ≤ ch) name }
        (hpack.seen (64 ≤ ch) s)) u₃ := by
  have hway := reaches_newName hidle hlt hliteral hint hname
  have hname' : blockStep env .processHeader
      { hpack.named (64 ≤ ch) hpack.header with
        parseName := true, field := hpack.seen (64 ≤ ch) name, fieldRest := 0 } u₂ =
      .more .fieldLen
        { hpack.named (64 ≤ ch)
            { hpack.header with name := hpack.seen (64 ≤ ch) name } with
          parseName := false, field := hpack.seen (64 ≤ ch) name, fieldRest := 0 } u₂ := by
    change BlockStep.resume u₂ (Hpack.processHeader env _) = _
    rw [Hpack.processHeader, if_pos rfl]
    simp only [if_neg hne]
    rfl
  have hstring := reaches_string (show Hpack.fieldState
    { hpack.named (64 ≤ ch)
        { hpack.header with name := hpack.seen (64 ≤ ch) name } with
      parseName := false, field := hpack.seen (64 ≤ ch) name,
      fieldRest := 0 } = 0 from hidle.fieldState) hvalue
  have hseen : Hpack.seen
      { hpack.named (64 ≤ ch)
          { hpack.header with name := hpack.seen (64 ≤ ch) name } with
        parseName := false, field := hpack.seen (64 ≤ ch) name, fieldRest := 0 }
      (64 ≤ ch) s = hpack.seen (64 ≤ ch) s := by
    change (if hpack.stream.isNone = true ∧ decide (64 ≤ ch) = false then
      hpack.seen (64 ≤ ch) name else s) = _
    rw [Hpack.seen, Hpack.seen]
    split
    · rfl
    · rfl
  refine hway.trans (.other (not_or.mpr ⟨by decide, by decide⟩) hname' ?_)
  rw [Hpack.valued, ← hseen, Hpack.named, hidle.parseName]
  exact hstring

theorem fails_newName {name : List UInt8} (hidle : hpack.Idle)
    (hlt : ch < 128) (hliteral : ¬(ch < 64 ∧ 32 ≤ ch)) (hint : RepInt ch rest 0 u₁)
    (hname : readString env u₁ = some (name, u₂))
    (hnil : hpack.seen (64 ≤ ch) name = []) :
    Fails env .headerBlock hpack (ch :: rest) := by
  have herror (hpack₁ : Hpack T S) (hparse : hpack₁.parseName = true)
      (hfield : hpack₁.field = []) :
      ∃ hpack₂, hpack₁.processHeader env = .error hpack₂ := by
    rw [Hpack.processHeader, if_pos hparse]
    exact ⟨_, if_pos hfield⟩
  obtain ⟨hpack₂, herror⟩ := herror
    { hpack.named (64 ≤ ch) hpack.header with
      parseName := true, field := hpack.seen (64 ≤ ch) name, fieldRest := 0 } rfl hnil
  exact ⟨_, _, _, _, reaches_newName hidle hlt hliteral hint hname, herror⟩

end Ways

/-! ## One representation -/

section Representation

variable {env : Env T S} {hpack : Hpack T S} {rep : Rep} {t' : T}
  {u u' : List UInt8} {ints : List (List UInt8)}

theorem Hpack.seen_of_stream {stream : S} (hstream : hpack.stream = some stream)
    (index : Bool) (s : List UInt8) : hpack.seen index s = s := by
  rw [Hpack.seen, hstream]
  exact if_neg nofun

theorem Hpack.seen_of_index (s : List UInt8) : hpack.seen true s = s :=
  if_neg nofun

theorem Hpack.seen_of_none (hstream : hpack.stream = none) (s : List UInt8) :
    hpack.seen false s = hpack.field := by
  rw [Hpack.seen, hstream]
  exact if_pos ⟨rfl, rfl⟩

/-- A header field has been read, and nothing has been done with it. -/
structure Holding (hpack hpack₁ : Hpack T S) (index : Bool) (header : Header) :
    Prop where
  parseName : hpack₁.parseName = false
  fieldState : hpack₁.fieldState = 0
  headerLimit : hpack₁.headerLimit = hpack.headerLimit
  stream : hpack₁.stream = hpack.stream
  table : hpack₁.table = hpack.table
  index : hpack₁.index = index
  current : hpack₁.current = header

theorem Hpack.Idle.holding (hidle : hpack.Idle) (header : Header) :
    Holding hpack { hpack with header := header } false header :=
  ⟨hidle.parseName, hidle.fieldState, rfl, rfl, rfl, hidle.index,
    if_neg (by simp [hidle.parseValue])⟩

theorem Hpack.Idle.holding_valued (hidle : hpack.Idle) (index : Bool)
    (header : Header) (value : List UInt8) :
    Holding hpack (hpack.valued index header value) index
      { header with value := value } :=
  ⟨hidle.parseName, hidle.fieldState, rfl, rfl, rfl, rfl, rfl⟩

theorem Reaches.complete {hpack₁ : Hpack T S} {index : Bool} {header : Header}
    {stream' : Option S}
    (hway : Reaches env .headerBlock hpack u ints .processHeader hpack₁ u')
    (hholding : Holding hpack hpack₁ index header)
    (hlimit : header.name.length + header.value.length ≤ hpack.headerLimit)
    (hinsert : Inserts env index hpack.table header t')
    (hhanded : Handed env header hpack.stream stream') :
    ∃ hpack', Reaches env .headerBlock hpack u ints .headerComplete hpack' u' ∧
      Behind hpack hpack' t' (header.name.length + header.value.length) hpack₁.field
        stream' := by
  rw [← hholding.headerLimit] at hlimit
  rw [← hholding.table, ← hholding.index] at hinsert
  rw [← hholding.stream] at hhanded
  obtain ⟨hpack', hcomplete, hbehind⟩ := @reaches_complete T S env hpack₁ header t' u'
    stream' hholding.parseName hholding.fieldState hholding.current hlimit hinsert hhanded
  refine ⟨hpack', ?_, hbehind.idle, hbehind.table, ?_, hbehind.field, hbehind.stream⟩
  · simpa using hway.trans hcomplete
  · rw [hbehind.headerLimit, hholding.headerLimit]

theorem Reaches.too_large {hpack₁ : Hpack T S} {index : Bool} {header : Header}
    (hway : Reaches env .headerBlock hpack u ints .processHeader hpack₁ u')
    (hholding : Holding hpack hpack₁ index header)
    (hlimit : hpack.headerLimit < header.name.length + header.value.length) :
    Fails env .headerBlock hpack u := by
  rw [← hholding.headerLimit] at hlimit
  exact hway.fails (fails_too_large hholding.parseName hholding.current hlimit)

theorem handed_some {stream stream' : S} {header : Header}
    (hstream : hpack.stream = some stream)
    (hok : env.processHeader stream header = .ok stream') :
    Handed env header hpack.stream (some stream') := by
  rw [hstream]
  exact ⟨stream', hok, rfl⟩

theorem handed_none {header : Header} (hstream : hpack.stream = none) :
    Handed env header hpack.stream none := by
  rw [hstream]
  rfl

/-- A representation within the limits, for a stream that takes it. -/
theorem Spelled.accepted {stream : S} {reps : List Rep} (hidle : hpack.Idle)
    (hstream : hpack.stream = some stream)
    (h : Spelled env hpack.table u rep t' u' ints) (hsize : rep.size ≤ hpack.headerLimit)
    (haccepts : Accepts env stream (rep :: reps)) :
    ∃ hpack' stream' field,
      Reaches env .headerBlock hpack u ints .headerComplete hpack' u' ∧
        Behind hpack hpack' t' rep.size field (some stream') ∧
        Accepts env stream' reps := by
  generalize ht : hpack.table = t at h
  cases h with
  | indexed hch hint hget =>
      subst ht
      obtain ⟨stream', hok, haccepts⟩ := haccepts
      obtain ⟨hpack', hway, hbehind⟩ := (reaches_indexed hch hint hget).complete
        (hidle.holding _) hsize rfl (handed_some hstream hok)
      exact ⟨hpack', stream', _, hway, hbehind, haccepts⟩
  | update hlt hge hint hget =>
      subst ht
      exact ⟨_, stream, _, reaches_update hlt hge hint hget,
        ⟨⟨hidle.parseName, hidle.parseValue, hidle.index, hidle.fieldState⟩, rfl, rfl,
          rfl, hstream⟩, haccepts⟩
  | newName hlt hliteral hint hname hne hvalue hinsert =>
      subst ht
      obtain ⟨stream', hok, haccepts⟩ := haccepts
      have hway := reaches_newName_value hidle hlt hliteral hint hname hvalue
        (by rw [hpack.seen_of_stream hstream]; exact hne)
      rw [hpack.seen_of_stream hstream, hpack.seen_of_stream hstream] at hway
      obtain ⟨hpack', hway, hbehind⟩ := hway.complete (hidle.holding_valued _ _ _) hsize
        hinsert (handed_some hstream hok)
      exact ⟨hpack', stream', _, hway, hbehind, haccepts⟩
  | @indexedName _ _ _ _ _ _ header hlt hliteral hint hpos hget hvalue hinsert =>
      subst ht
      obtain ⟨stream', hok, haccepts⟩ := haccepts
      obtain ⟨found, hfound, hname⟩ := hget hpack.header
      have hway := reaches_indexedName hidle hlt hliteral hint hpos hfound hvalue
      rw [hpack.seen_of_stream hstream] at hway
      have hheader : { found with value := header.value } = header := by rw [hname]
      obtain ⟨hpack', hway, hbehind⟩ := hway.complete (hidle.holding_valued _ _ _)
        (by rwa [hheader]) (by rwa [hheader]) (handed_some hstream (by rwa [hheader]))
      rw [hheader] at hbehind
      exact ⟨hpack', stream', _, hway, hbehind, haccepts⟩

/-! When there is no stream, a literal is taken for the header field that can be
seen from `field_start` to `field_end`. -/

theorem charge_newName (hstream : hpack.stream = none) (index : Bool)
    (header : Header) :
    (Rep.literal index true header).charge hpack.field.length =
      (hpack.seen index header.name).length + (hpack.seen index header.value).length := by
  cases index with
  | true => rw [Hpack.seen_of_index, Hpack.seen_of_index]; rfl
  | false => rw [hpack.seen_of_none hstream, hpack.seen_of_none hstream]; rfl

theorem charge_indexedName (hstream : hpack.stream = none) (index : Bool)
    (header : Header) :
    (Rep.literal index false header).charge hpack.field.length =
      header.name.length + (hpack.seen index header.value).length := by
  cases index with
  | true => rw [Hpack.seen_of_index]; rfl
  | false => rw [hpack.seen_of_none hstream]; rfl

theorem stale_literal (hstream : hpack.stream = none) (index newName : Bool)
    (header : Header) :
    (hpack.seen index header.value).length =
      (Rep.literal index newName header).stale hpack.field.length := by
  cases index with
  | true => rw [Hpack.seen_of_index]; rfl
  | false => rw [hpack.seen_of_none hstream]; rfl

theorem skipsName_iff (hstream : hpack.stream = none) (index : Bool)
    {header : Header} (hne : header.name ≠ []) :
    ((Rep.literal index true header).SkipsName → hpack.field.length ≠ 0) ↔
      hpack.seen index header.name ≠ [] := by
  cases index with
  | true =>
      rw [Hpack.seen_of_index]
      exact ⟨fun _ => hne, fun _ h => h.elim⟩
  | false =>
      rw [hpack.seen_of_none hstream, ne_eq, ne_eq, List.length_eq_zero_iff]
      exact ⟨fun h => h trivial, fun h _ => h⟩

theorem not_skipsName (index : Bool) (header : Header) :
    ¬(Rep.literal index false header).SkipsName := by
  cases index with
  | true => exact id
  | false => exact id

theorem Inserts.seen {index : Bool} {header header' : Header} {t : T}
    (h : Inserts env index t header t')
    (hname : index = true → header'.name = header.name)
    (hvalue : header'.value = hpack.seen index header.value) :
    Inserts env index t header' t' := by
  cases index with
  | true =>
      rw [Hpack.seen_of_index] at hvalue
      have hheader : header' = header := by
        obtain ⟨name, value⟩ := header'
        obtain ⟨name', value'⟩ := header
        cases hname rfl
        cases hvalue
        rfl
      rw [hheader]
      exact h
  | false => exact h

theorem Inserts.seen_newName {index : Bool} {header : Header} {t : T}
    (h : Inserts env index t header t') (old : Header) :
    Inserts env index t { { old with name := hpack.seen index header.name } with
      value := hpack.seen index header.value } t' := by
  refine h.seen ?_ rfl
  rintro rfl
  exact Hpack.seen_of_index _

/-- A representation for no stream that is not taken for something else. -/
theorem Spelled.refused (hidle : hpack.Idle) (hstream : hpack.stream = none)
    (h : Spelled env hpack.table u rep t' u' ints)
    (hname : rep.SkipsName → hpack.field.length ≠ 0)
    (hcharge : rep.charge hpack.field.length ≤ hpack.headerLimit) :
    ∃ hpack' field, Reaches env .headerBlock hpack u ints .headerComplete hpack' u' ∧
      Behind hpack hpack' t' (rep.charge hpack.field.length) field none ∧
      field.length = rep.stale hpack.field.length := by
  generalize ht : hpack.table = t at h
  cases h with
  | indexed hch hint hget =>
      subst ht
      obtain ⟨hpack', hway, hbehind⟩ := (reaches_indexed hch hint hget).complete
        (hidle.holding _) hcharge rfl (handed_none hstream)
      exact ⟨hpack', _, hway, hbehind, rfl⟩
  | update hlt hge hint hget =>
      subst ht
      exact ⟨_, _, reaches_update hlt hge hint hget,
        ⟨⟨hidle.parseName, hidle.parseValue, hidle.index, hidle.fieldState⟩, rfl, rfl,
          rfl, hstream⟩, rfl⟩
  | newName hlt hliteral hint hread hne hvalue hinsert =>
      subst ht
      rw [charge_newName hstream] at hcharge ⊢
      have hway := reaches_newName_value hidle hlt hliteral hint hread hvalue
        ((skipsName_iff hstream _ hne).mp hname)
      obtain ⟨hpack', hway, hbehind⟩ := hway.complete (hidle.holding_valued _ _ _)
        hcharge (hinsert.seen_newName _) (handed_none hstream)
      exact ⟨hpack', _, hway, hbehind, stale_literal hstream _ _ _⟩
  | indexedName hlt hliteral hint hpos hget hvalue hinsert =>
      subst ht
      obtain ⟨found, hfound, hsame⟩ := hget hpack.header
      rw [charge_indexedName hstream, ← hsame] at hcharge ⊢
      have hway := reaches_indexedName hidle hlt hliteral hint hpos hfound hvalue
      obtain ⟨hpack', hway, hbehind⟩ := hway.complete (hidle.holding_valued _ _ _)
        hcharge (hinsert.seen (fun _ => hsame) rfl) (handed_none hstream)
      exact ⟨hpack', _, hway, hbehind, stale_literal hstream _ _ _⟩

/-- A representation for no stream that is taken for something else. -/
theorem Spelled.refused_fails (hidle : hpack.Idle) (hstream : hpack.stream = none)
    (h : Spelled env hpack.table u rep t' u' ints)
    (hbad : ¬((rep.SkipsName → hpack.field.length ≠ 0) ∧
      rep.charge hpack.field.length ≤ hpack.headerLimit)) :
    Fails env .headerBlock hpack u := by
  have hlimit (hname : rep.SkipsName → hpack.field.length ≠ 0) :
      hpack.headerLimit < rep.charge hpack.field.length := by
    by_contra hle
    exact hbad ⟨hname, Nat.le_of_not_lt hle⟩
  generalize ht : hpack.table = t at h
  cases h with
  | indexed hch hint hget =>
      subst ht
      exact (reaches_indexed hch hint hget).too_large (hidle.holding _)
        (hlimit False.elim)
  | update hlt hge hint hget => exact (hbad ⟨False.elim, Nat.zero_le _⟩).elim
  | @newName _ ch _ _ _ _ header hlt hliteral hint hread hne hvalue hinsert =>
      subst ht
      rw [skipsName_iff hstream _ hne] at hlimit
      rw [charge_newName hstream] at hlimit
      by_cases hnil : hpack.seen (64 ≤ ch) header.name = []
      · exact fails_newName hidle hlt hliteral hint hread hnil
      · have hway := reaches_newName_value hidle hlt hliteral hint hread hvalue hnil
        exact hway.too_large (hidle.holding_valued _ _ _) (hlimit hnil)
  | indexedName hlt hliteral hint hpos hget hvalue hinsert =>
      subst ht
      obtain ⟨found, hfound, hsame⟩ := hget hpack.header
      have hlimit := hlimit fun h => (not_skipsName _ _ h).elim
      rw [charge_indexedName hstream, ← hsame] at hlimit
      have hway := reaches_indexedName hidle hlt hliteral hint hpos hfound hvalue
      exact hway.too_large (hidle.holding_valued _ _ _) hlimit

end Representation

/-! ## The block -/

section WholeBlock

variable {env : Env T S} {hpack : Hpack T S} {reps : List Rep} {t t' : T}
  {u u' : List UInt8} {ints ints' : List (List UInt8)}

/-- The next header field. -/
theorem Reaches.again {handler : Handler} {hpack' hpack'' : Hpack T S}
    {u'' : List UInt8} (hne : u' ≠ [])
    (hfirst : Reaches env handler hpack u ints .headerComplete hpack' u')
    (hrest : Reaches env .headerBlock hpack' u' ints' .headerComplete hpack'' u'') :
    Reaches env handler hpack u (ints ++ ints') .headerComplete hpack'' u'' := by
  obtain ⟨ch, rest, rfl⟩ := List.exists_cons_of_ne_nil hne
  exact hfirst.trans (.other nofun rfl hrest)

theorem Reaches.again_fails {handler : Handler} {hpack' : Hpack T S} (hne : u' ≠ [])
    (hfirst : Reaches env handler hpack u ints .headerComplete hpack' u')
    (hrest : Fails env .headerBlock hpack' u') : Fails env handler hpack u := by
  obtain ⟨ch, rest, rfl⟩ := List.exists_cons_of_ne_nil hne
  exact hfirst.fails (Reaches.fails (.other nofun rfl .refl) hrest)

def headerSize (reps : List Rep) : ℕ :=
  (reps.map Rep.size).sum

theorem WellFormed.accepted {stream : S} (h : WellFormed env t u reps t' ints)
    (hidle : hpack.Idle) (ht : hpack.table = t) (hstream : hpack.stream = some stream)
    (hsize : headerSize reps ≤ hpack.headerLimit)
    (haccepts : Accepts env stream reps) :
    ∃ hpack', Reaches env .headerBlock hpack u ints .headerComplete hpack' [] ∧
      hpack'.table = t' := by
  induction h generalizing hpack stream with
  | last h =>
      subst ht
      rw [headerSize, List.map_singleton, List.sum_singleton] at hsize
      obtain ⟨hpack', stream', field, hway, hbehind, -⟩ :=
        h.accepted hidle hstream hsize haccepts
      exact ⟨hpack', hway, hbehind.table⟩
  | more hne h hrest ih =>
      subst ht
      rw [headerSize, List.map_cons, List.sum_cons] at hsize
      obtain ⟨hpack', stream', field, hway, hbehind, haccepts'⟩ :=
        h.accepted hidle hstream (by omega) haccepts
      obtain ⟨hpack'', hway', htable⟩ := ih hbehind.idle hbehind.table hbehind.stream
        (by rw [hbehind.headerLimit, headerSize]; omega) haccepts'
      exact ⟨hpack'', hway.again hne hway', htable⟩

theorem WellFormed.refused (h : WellFormed env t u reps t' ints) (hidle : hpack.Idle)
    (ht : hpack.table = t) (hstream : hpack.stream = none)
    (hspared : Spared hpack.headerLimit hpack.field.length reps) :
    ∃ hpack', Reaches env .headerBlock hpack u ints .headerComplete hpack' [] ∧
      hpack'.table = t' := by
  induction h generalizing hpack with
  | last h =>
      subst ht
      obtain ⟨hname, hcharge, -⟩ := hspared
      obtain ⟨hpack', field, hway, hbehind, -⟩ := h.refused hidle hstream hname hcharge
      exact ⟨hpack', hway, hbehind.table⟩
  | more hne h hrest ih =>
      subst ht
      obtain ⟨hname, hcharge, hspared⟩ := hspared
      obtain ⟨hpack', field, hway, hbehind, hstale⟩ := h.refused hidle hstream hname hcharge
      rw [← hbehind.field] at hstale
      rw [← hbehind.headerLimit, ← hstale] at hspared
      obtain ⟨hpack'', hway', htable⟩ := ih hbehind.idle hbehind.table hbehind.stream hspared
      exact ⟨hpack'', hway.again hne hway', htable⟩

theorem WellFormed.refused_fails (h : WellFormed env t u reps t' ints)
    (hidle : hpack.Idle) (ht : hpack.table = t) (hstream : hpack.stream = none)
    (hbad : ¬Spared hpack.headerLimit hpack.field.length reps) :
    Fails env .headerBlock hpack u := by
  induction h generalizing hpack with
  | last h =>
      subst ht
      exact h.refused_fails hidle hstream fun hgood => hbad ⟨hgood.1, hgood.2, trivial⟩
  | @more _ _ _ _ _ rep _ _ _ hne h hrest ih =>
      subst ht
      by_cases hgood : (rep.SkipsName → hpack.field.length ≠ 0) ∧
          rep.charge hpack.field.length ≤ hpack.headerLimit
      · obtain ⟨hpack', field, hway, hbehind, hstale⟩ :=
          h.refused hidle hstream hgood.1 hgood.2
        rw [← hbehind.field] at hstale
        refine hway.again_fails hne
          (ih hbehind.idle hbehind.table hbehind.stream fun hspared => ?_)
        rw [hbehind.headerLimit, hstale] at hspared
        exact hbad ⟨hgood.1, hgood.2, hspared⟩
      · exact h.refused_fails hidle hstream hgood

end WholeBlock

/-! ## Reads -/

/-- A connection with the dynamic table of `ngx_http_v2_table.c`. -/
def connectionEnv (largeClientHeaderBuffersSize : ℕ)
    (huffDecodeCodes : UInt8 → UInt8 → HuffCode)
    (processHeader : S → Header → Processed S) : Env Table S where
  largeClientHeaderBuffersSize := largeClientHeaderBuffersSize
  huffDecodeCodes := huffDecodeCodes
  getIndexedHeader := ngxHttpV2GetIndexedHeader
  tableSize := ngxHttpV2TableSize
  addHeader := fun t header => some (ngxHttpV2AddHeader t header)
  processHeader := processHeader

/-- The decoder with a stream, or without one. -/
def Hpack.withStream (hpack : Hpack T S) (stream : Option S) : Hpack T S :=
  { hpack with stream := stream }

/-- A well-formed header block within the limits ends for a refused stream as it
does for an accepted one, exactly if no literal that is passed over is taken for an
empty name or for too large a header. -/
theorem refused_iff (largeClientHeaderBuffersSize : ℕ)
    (huffDecodeCodes : UInt8 → UInt8 → HuffCode)
    (processHeader : S → Header → Processed S) (hpack : Hpack Table S) (stream : S)
    (sid : ℕ) (flags : UInt8) (first pad further read : List UInt8)
    (conts : List Continuation) (reads : List (List UInt8)) (reps : List Rep)
    (t' : Table) (ints : List (List UInt8)) (accepted : Hpack Table S)
    (rest : List UInt8) (hidle : hpack.Idle) (hsid : sid < 2 ^ 31)
    (hends : EndsHeaders flags conts)
    (hcut : read ++ reads.flatten = first ++ (pad ++ (encode sid conts ++ further)))
    (hreads : ∀ read ∈ reads, read ≠ [])
    (hblock : WellFormed (connectionEnv largeClientHeaderBuffersSize huffDecodeCodes
      processHeader) hpack.table (first ++ payloads conts) reps t' ints)
    (hsize : headerSize reps ≤ hpack.headerLimit)
    (haccepts : Accepts (connectionEnv largeClientHeaderBuffersSize huffDecodeCodes
      processHeader) stream reps)
    (haccepted : readAll (connectionEnv largeClientHeaderBuffersSize huffDecodeCodes
      processHeader) (State.start sid first.length pad.length flags
        (hpack.withStream (some stream))) (read :: reads) = .complete accepted rest) :
    (∃ refused, readAll (connectionEnv largeClientHeaderBuffersSize huffDecodeCodes
        processHeader) (State.start sid first.length pad.length flags
          (hpack.withStream none)) (read :: reads) = .complete refused rest ∧
        refused.table = accepted.table) ↔
      Spared hpack.headerLimit hpack.field.length reps := by
  generalize connectionEnv largeClientHeaderBuffersSize huffDecodeCodes processHeader =
    env at hblock haccepts haccepted ⊢
  have hne : first ++ payloads conts ≠ [] := by
    rintro hnil
    rw [hnil] at hblock
    cases hblock with
    | last h => cases h
    | more _ h => cases h
  have hidle' (stream : Option S) : (hpack.withStream stream).Idle :=
    ⟨hidle.parseName, hidle.parseValue, hidle.index, hidle.fieldState⟩
  have hready (stream : Option S) : Ready further .headerBlock
      (State.start sid first.length pad.length flags (hpack.withStream stream))
      ([] ++ (read :: reads).flatten) (first ++ payloads conts) conts :=
    ready_start hsid hends hne hcut
  have hfollows (stream : Option S) := @readAll_follows Table S env further
    (State.start sid first.length pad.length flags (hpack.withStream stream)) _ _
    (read :: reads) (by simp) (hready stream)
  obtain ⟨acceptedEnd, hway, htable⟩ := hblock.accepted (hidle' (some stream)) rfl rfl
    hsize haccepts
  have hdecodes := hfollows (some stream)
  rw [haccepted] at hdecodes
  obtain ⟨hdecodes, rfl⟩ := hdecodes
  cases hdecodes.unique (hway.decodes (.stop rfl))
  have hnone := hfollows none
  constructor
  · rintro ⟨refused, hrefused, -⟩
    by_contra hbad
    obtain ⟨failed, hfailed⟩ :=
      (hblock.refused_fails (hidle' none) rfl rfl hbad).decodes
    rw [hrefused] at hnone
    cases hnone.1.unique hfailed
  · intro hspared
    obtain ⟨refusedEnd, hway', htable'⟩ := hblock.refused (hidle' none) rfl rfl hspared
    have hend := hway'.decodes (.stop rfl)
    cases hread : readAll env (State.start sid first.length pad.length flags
        (hpack.withStream none)) (read :: reads) with
    | complete refused rest =>
        rw [hread] at hnone
        obtain ⟨hdecodes', rfl⟩ := hnone
        cases hdecodes'.unique hend
        exact ⟨_, rfl, htable'.trans htable.symm⟩
    | error failed =>
        rw [hread] at hnone
        cases Decodes.unique hnone hend
    | waiting s =>
        -- Then the accepted stream would wait, too.
        rw [hread] at hnone
        obtain ⟨rfl, hlast, hused⟩ := hnone
        have hused' := hway.usedUp_of (hway'.usedUp hused).2 .complete
        obtain ⟨s', hwaiting⟩ := @readAll_usedUp Table S env
          (State.start sid first.length pad.length flags
            (hpack.withStream (some stream))) _ _ (read :: reads) hreads
          (hready (some stream)) hlast hused'
        cases haccepted.symm.trans hwaiting
    | endless =>
        rw [hread] at hnone
        exact hnone.elim

/-- A request that takes every header field. -/
def takesAll (_ : Unit) (_ : Header) : Processed Unit :=
  .ok ()

/-- The decoder of a new connection. -/
def newHpack : Hpack Table Unit where
  parseName := false
  parseValue := false
  index := false
  header := ⟨[], []⟩
  headerLimit := 32768
  fieldState := 0
  field := []
  fieldRest := 0
  stream := none
  table := Table.new
  fields := []

theorem newHpack_idle : newHpack.Idle := ⟨rfl, rfl, rfl, rfl⟩

/-- A connection on which no string is encoded. -/
def sampleEnv : Env Table Unit :=
  connectionEnv 8192 plainEnv.huffDecodeCodes takesAll

/-- The field `a: b`, a literal without indexing. -/
def abBlock : List UInt8 := [0, 1, 97, 1, 98]

theorem abBlock_spelled (t : Table) :
    Spelled sampleEnv t abBlock (.literal false true ⟨[97], [98]⟩) t []
      [abBlock, [1, 97, 1, 98], [1, 98]] :=
  @Spelled.newName _ _ sampleEnv t t 0 [1, 97, 1, 98] [1, 97, 1, 98] [1, 98] []
    ⟨[97], [98]⟩ (by decide) (by decide) ⟨_, rfl⟩ rfl (by decide) rfl rfl

/-- The field `a: b`, a literal with indexing, and the same field without. -/
def indexedBlock : List UInt8 := 64 :: ([1, 97, 1, 98] ++ abBlock)

theorem indexedBlock_spelled :
    Spelled sampleEnv Table.new indexedBlock (.literal true true ⟨[97], [98]⟩)
      (ngxHttpV2AddHeader Table.new ⟨[97], [98]⟩) abBlock
      [indexedBlock, [1, 97, 1, 98] ++ abBlock, [1, 98] ++ abBlock] :=
  @Spelled.newName _ _ sampleEnv Table.new (ngxHttpV2AddHeader Table.new ⟨[97], [98]⟩)
    64 ([1, 97, 1, 98] ++ abBlock) ([1, 97, 1, 98] ++ abBlock) ([1, 98] ++ abBlock)
    abBlock ⟨[97], [98]⟩ (by decide) (by decide) ⟨_, rfl⟩ rfl (by decide) rfl rfl

theorem indexedBlock_wellFormed :
    WellFormed sampleEnv Table.new indexedBlock
      [.literal true true ⟨[97], [98]⟩, .literal false true ⟨[97], [98]⟩]
      (ngxHttpV2AddHeader Table.new ⟨[97], [98]⟩)
      ([indexedBlock, [1, 97, 1, 98] ++ abBlock, [1, 98] ++ abBlock] ++
        [abBlock, [1, 97, 1, 98], [1, 98]]) :=
  .more (by decide) indexedBlock_spelled (.last (abBlock_spelled _))

/-- The first header block of a connection: the accepted stream gets `a: b`, and for
the refused one the connection fails. -/
theorem refused_disturbed :
    WellFormed sampleEnv newHpack.table abBlock [.literal false true ⟨[97], [98]⟩]
        Table.new [abBlock, [1, 97, 1, 98], [1, 98]] ∧
      headerSize [.literal false true ⟨[97], [98]⟩] ≤ newHpack.headerLimit ∧
      (∃ accepted, readAll sampleEnv (State.start 1 5 0 endHeadersFlag
        (newHpack.withStream (some ()))) [abBlock] = .complete accepted []) ∧
      ¬∃ refused, readAll sampleEnv (State.start 1 5 0 endHeadersFlag
        (newHpack.withStream none)) [abBlock] = .complete refused [] := by
  refine ⟨.last (abBlock_spelled _), by decide, ⟨_, rfl⟩, ?_⟩
  have hfails : ∃ failed, readAll sampleEnv (State.start 1 5 0 endHeadersFlag
      (newHpack.withStream none)) [abBlock] = .error failed := ⟨_, rfl⟩
  obtain ⟨failed, hfailed⟩ := hfails
  rintro ⟨refused, hrefused⟩
  cases hfailed.symm.trans hrefused

/-- Behind a literal with indexing, whose value is decoded, the same field does no
harm. -/
theorem refused_behind_indexing :
    ∃ accepted refused,
      readAll sampleEnv (State.start 1 10 0 endHeadersFlag
        (newHpack.withStream (some ()))) [indexedBlock] = .complete accepted [] ∧
      readAll sampleEnv (State.start 1 10 0 endHeadersFlag
        (newHpack.withStream none)) [indexedBlock] = .complete refused [] ∧
      refused.table = accepted.table := by
  have haccepted : ∃ accepted, readAll sampleEnv (State.start 1 10 0 endHeadersFlag
      (newHpack.withStream (some ()))) [indexedBlock] = .complete accepted [] :=
    ⟨_, rfl⟩
  obtain ⟨accepted, haccepted⟩ := haccepted
  have hspared : Spared newHpack.headerLimit newHpack.field.length
      [.literal true true ⟨[97], [98]⟩, .literal false true ⟨[97], [98]⟩] := by
    refine ⟨False.elim, by decide, fun _ => by decide, by decide, trivial⟩
  obtain ⟨refused, hrefused, htable⟩ :=
    (refused_iff 8192 plainEnv.huffDecodeCodes takesAll newHpack () 1 endHeadersFlag
      indexedBlock [] [] indexedBlock [] [] _ _ _ accepted [] newHpack_idle (by decide)
      (show endHeaders endHeadersFlag = true by decide) (by decide) nofun
      indexedBlock_wellFormed (by decide) ⟨(), rfl, (), rfl, trivial⟩ haccepted).mpr
      hspared
  exact ⟨accepted, refused, haccepted, hrefused, htable⟩

end MultiversionBalancer.Http2
