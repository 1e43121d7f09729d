import MultiversionBalancer.Http2.Framing

/-!
# Header blocks under every framing

A header block that is divided into frames and comes in any number of reads ends
as the block does that comes in one frame, unless the last frame is an empty
`CONTINUATION` with nothing behind it: the handler that is to run behind such a
frame waits for a byte that the client need not send.
-/

namespace MultiversionBalancer.Http2

variable {T S : Type*} {env : Env T S} {further : List UInt8}

/-- The last frame is a `CONTINUATION` without a part of the block. -/
def LastEmpty (conts : List Continuation) : Prop :=
  ∃ c, conts.getLast? = some c ∧ c.payload = []

theorem LastEmpty.ne_nil {conts : List Continuation} (h : LastEmpty conts) :
    conts ≠ [] := by
  rintro rfl
  obtain ⟨c, hc, -⟩ := h
  cases hc

theorem lastEmpty_cons {c : Continuation} {conts : List Continuation}
    (hne : conts ≠ []) : LastEmpty (c :: conts) ↔ LastEmpty conts := by
  obtain ⟨c', conts, rfl⟩ := List.exists_cons_of_ne_nil hne
  rfl

theorem lastEmpty_single {c : Continuation} :
    LastEmpty [c] ↔ c.payload = [] := by
  simp [LastEmpty]

/-- While frames are to come, whether the block will be used up does not
change. -/
theorem Moves.usedUp_open {handler handler' : Handler} {hpack hpack' : Hpack T S}
    {u u' : List UInt8} {conts : List Continuation} (hne : conts ≠ [])
    (h : Moves env (conts = []) handler hpack u handler' hpack' u') :
    UsedUp env handler hpack u ↔ UsedUp env handler' hpack' u' := by
  rw [eq_false hne] at h
  exact h.usedUp_iff

theorem Framing.nothing_left {s : State T S} {u : List UInt8}
    {conts : List Continuation} (h : Framing further s [] u conts) :
    s.length = 0 ∧ conts = [] ∧ further = [] ∧ u = [] := by
  have hu : u = [] := by
    by_contra hne
    exact h.wire_ne_nil hne rfl
  obtain ⟨part, pad, hpart, -, hwire, -⟩ := h.layout
  cases conts with
  | nil =>
      have hnil := List.append_eq_nil_iff.mp hwire.symm
      have hfurther := (List.append_eq_nil_iff.mp hnil.2).2
      exact ⟨by rw [← hpart, hnil.1]; rfl, rfl, hfurther, hu⟩
  | cons c conts =>
      have hlen := congrArg List.length hwire
      have hhead := head_length s.sid c
      rw [frameHeaderSize] at hhead
      simp only [List.length_nil, List.length_append, encode, List.flatMap_cons]
        at hlen
      omega

/-! ## One read -/

/-- What the handlers leave at the end of a read. -/
structure Waits (env : Env T S) (further w : List UInt8) (handler : Handler)
    (hpack : Hpack T S) (u : List UInt8) (conts : List Continuation)
    (s' : State T S) (u' : List UInt8) (conts' : List Continuation) : Prop where
  ready : Ready further s'.handler s' (s'.buffer ++ w) u' conts'
  decodes : ∀ e, Decodes env s'.handler s'.hpack u' e → Decodes env handler hpack u e
  last : LastEmpty conts' → LastEmpty conts
  next : conts' ≠ [] → conts ≠ []
  usedUp : conts' ≠ [] → UsedUp env s'.handler s'.hpack u' →
    UsedUp env handler hpack u
  stuck : w = [] → further = [] ∧ LastEmpty conts ∧ UsedUp env handler hpack u

/-- What the end of a read says about the block. -/
def ReadSays (env : Env T S) (further w : List UInt8) (handler : Handler)
    (hpack : Hpack T S) (u : List UInt8) (conts : List Continuation) :
    ReadEnd T S → Prop
  | .complete hpack' rest =>
      Decodes env handler hpack u (.complete hpack') ∧ rest ++ w = further
  | .error hpack' => Decodes env handler hpack u hpack'.failed
  | .waiting s' =>
      ∃ u' conts', Waits env further w handler hpack u conts s' u' conts'
  | .endless => False

theorem ReadSays.before {handler handler' : Handler} {hpack hpack' : Hpack T S}
    {w u u' : List UInt8} {conts conts' : List Continuation} {r : ReadEnd T S}
    (hmoves : Moves env (conts = []) handler hpack u handler' hpack' u')
    (hnext : conts' = conts ∨ ∃ c, conts = c :: conts')
    (h : ReadSays env further w handler' hpack' u' conts' r) :
    ReadSays env further w handler hpack u conts r := by
  have hlast (hlast : LastEmpty conts') : LastEmpty conts := by
    obtain rfl | ⟨c, rfl⟩ := hnext
    · exact hlast
    · exact (lastEmpty_cons hlast.ne_nil).mpr hlast
  have hopen (hne : conts' ≠ []) : conts ≠ [] := by
    obtain rfl | ⟨c, rfl⟩ := hnext
    · exact hne
    · exact List.cons_ne_nil _ _
  have hused (hne : conts' ≠ []) (hused : UsedUp env handler' hpack' u') :
      UsedUp env handler hpack u :=
    (hmoves.usedUp_open (hopen hne)).mpr hused
  cases r with
  | complete hp rest => exact ⟨hmoves.decodes h.1, h.2⟩
  | error hp => exact hmoves.decodes h
  | endless => exact h
  | waiting s' =>
      obtain ⟨u₁, conts₁, hwaits⟩ := h
      refine ⟨u₁, conts₁, hwaits.ready, ?_, ?_, ?_, ?_, ?_⟩
      · exact fun e he => hmoves.decodes (hwaits.decodes e he)
      · exact fun he => hlast (hwaits.last he)
      · exact fun hne => hopen (hwaits.next hne)
      · intro hne he
        exact hused (hwaits.next hne) (hwaits.usedUp hne he)
      · intro hw
        obtain ⟨hfurther, hempty, husedUp⟩ := hwaits.stuck hw
        exact ⟨hfurther, hlast hempty, hused hempty.ne_nil husedUp⟩

/-- The handler behind the last frame has nothing to read. -/
theorem returns_waits {handler : Handler} {hpack : Hpack T S} {s' : State T S}
    {w u u' : List UInt8} {c : Continuation} {conts' : List Continuation}
    (hmoves : Moves env (c :: conts' = []) handler hpack u s'.handler s'.hpack u')
    (hready : Ready further s'.handler s' ([] ++ w) u' conts')
    (hpayload : c.payload.length ≤ s'.length)
    (hused : u' = [] → UsedUp env s'.handler s'.hpack []) :
    Waits env further w handler hpack u (c :: conts') { s' with buffer := [] } u'
      conts' := by
  refine ⟨⟨⟨hready.framing.sid, hready.framing.ends, hready.framing.layout⟩,
    hready.block, hready.skip⟩, fun e he => hmoves.decodes he, ?_, ?_, ?_, ?_⟩
  · exact fun hlast => (lastEmpty_cons hlast.ne_nil).mpr hlast
  · exact fun _ => List.cons_ne_nil _ _
  · exact fun _ he => (hmoves.usedUp_open (List.cons_ne_nil _ _)).mpr he
  · rintro rfl
    obtain ⟨hlength, rfl, hfurther, rfl⟩ := hready.framing.nothing_left
    refine ⟨hfurther, lastEmpty_single.mpr ?_,
      (hmoves.usedUp_open (List.cons_ne_nil _ _)).mpr ?_⟩
    · rw [← List.length_eq_zero_iff]
      omega
    · exact hused rfl

theorem readLoop_follows {fuel : ℕ} {handler : Handler} {s : State T S}
    {input w u : List UInt8} {conts : List Continuation}
    (hfuel : weight handler input < fuel)
    (h : Ready further handler s (input ++ w) u conts) :
    ReadSays env further w handler s.hpack u conts
      (readLoop env fuel handler s input) := by
  induction fuel generalizing handler s input u conts with
  | zero => exact absurd hfuel (Nat.not_lt_zero _)
  | succ fuel ih =>
      have hcall := @callHandler_simulates T S env further u w input s handler conts h
      rw [readLoop]
      cases haction : callHandler env handler s input with
      | call handler' s' input' =>
          rw [haction] at hcall
          obtain ⟨u', hmoves, hweight, hready⟩ := hcall
          exact (ih (by omega) hready).before hmoves (.inl rfl)
      | ret s' input' =>
          rw [haction] at hcall
          obtain ⟨u', hmoves, hweight, hreturns⟩ := hcall
          obtain ⟨hne, hready⟩ | ⟨c, conts', rfl, hready, hpayload, -, hused, -⟩ :=
            hreturns
          · simp only [if_neg hne]
            exact (ih (by omega) hready).before hmoves (.inl rfl)
          · by_cases hnil : input' = []
            · subst hnil
              exact ⟨u', conts', returns_waits hmoves hready hpayload hused⟩
            · simp only [if_neg hnil]
              exact (ih (by omega) hready).before hmoves (.inr ⟨c, rfl⟩)
      | save s' =>
          rw [haction] at hcall
          obtain ⟨hw, u', hmoves, hready⟩ := hcall
          refine ⟨u', conts, hready, fun e he => hmoves.decodes he, id,
            fun hne => hne, fun hne => (hmoves.usedUp_open hne).mpr,
            fun hnil => absurd hnil hw⟩
      | error hpack' =>
          rw [haction] at hcall
          exact hcall.1
      | complete hpack' rest =>
          rw [haction] at hcall
          exact ⟨hcall.1, hcall.2.1⟩

/-- A block that is used up before its last frame, which is empty, leaves the
handlers waiting. -/
theorem readLoop_usedUp {fuel : ℕ} {handler : Handler} {s : State T S}
    {input w u : List UInt8} {conts : List Continuation}
    (hfuel : weight handler input < fuel)
    (h : Ready [] handler s (input ++ w) u conts) (hlast : LastEmpty conts)
    (hused : UsedUp env handler s.hpack u) :
    ∃ s', readLoop env fuel handler s input = .waiting s' ∧
      (w = [] ∨ ∃ u' conts', Ready [] s'.handler s' (s'.buffer ++ w) u' conts' ∧
        LastEmpty conts' ∧ UsedUp env s'.handler s'.hpack u') := by
  induction fuel generalizing handler s input u conts with
  | zero => exact absurd hfuel (Nat.not_lt_zero _)
  | succ fuel ih =>
      have hcall := @callHandler_simulates T S env [] u w input s handler conts h
      rw [readLoop]
      cases haction : callHandler env handler s input with
      | call handler' s' input' =>
          rw [haction] at hcall
          obtain ⟨u', hmoves, hweight, hready⟩ := hcall
          exact ih (by omega) hready hlast
            ((hmoves.usedUp_open hlast.ne_nil).mp hused)
      | ret s' input' =>
          rw [haction] at hcall
          obtain ⟨u', hmoves, hweight, hreturns⟩ := hcall
          have hused' := (hmoves.usedUp_open hlast.ne_nil).mp hused
          obtain ⟨hne, hready⟩ | ⟨c, conts', rfl, hready, -, hpadding, -, hleft⟩ :=
            hreturns
          · simp only [if_neg hne]
            exact ih (by omega) hready hlast hused'
          by_cases hconts : conts' = []
          · -- Nothing stands behind the frame that has been taken.
            subst hconts
            obtain rfl := hleft (lastEmpty_single.mp hlast) rfl hused'
            obtain ⟨part, pad, -, hpad, hwire, hu⟩ := hready.framing.layout
            have hpart : part = [] := (List.append_eq_nil_iff.mp hu.symm).1
            have hnopad : pad = [] := by
              rw [← List.length_eq_zero_iff, hpad, hpadding]
            rw [hpart, hnopad] at hwire
            obtain ⟨rfl, rfl⟩ := List.append_eq_nil_iff.mp hwire
            exact ⟨_, rfl, .inl rfl⟩
          have hlast' := (lastEmpty_cons hconts).mp hlast
          by_cases hnil : input' = []
          · subst hnil
            exact ⟨_, rfl, .inr ⟨u', conts', ⟨⟨hready.framing.sid,
              hready.framing.ends, hready.framing.layout⟩, hready.block,
              hready.skip⟩, hlast', hused'⟩⟩
          · simp only [if_neg hnil]
            exact ih (by omega) hready hlast' hused'
      | save s' =>
          rw [haction] at hcall
          obtain ⟨hw, u', hmoves, hready⟩ := hcall
          exact ⟨s', rfl, .inr ⟨u', conts, hready, hlast,
            (hmoves.usedUp_open hlast.ne_nil).mp hused⟩⟩
      | error hpack' =>
          rw [haction] at hcall
          exact absurd hused (hcall.2 hlast.ne_nil)
      | complete hpack' rest =>
          rw [haction] at hcall
          exact absurd hcall.2.2 hlast.ne_nil

/-! ## All reads -/

theorem weight_lt (handler : Handler) (input : List UInt8) :
    weight handler input < 8 * input.length + 8 := by
  have hrank := handler.rank_le
  rw [weight]
  omega

/-- What the end of all reads says about the block. -/
def AllSays (env : Env T S) (further : List UInt8) (handler : Handler)
    (hpack : Hpack T S) (u : List UInt8) (conts : List Continuation) :
    ReadEnd T S → Prop
  | .complete hpack' rest =>
      Decodes env handler hpack u (.complete hpack') ∧ rest = further
  | .error hpack' => Decodes env handler hpack u hpack'.failed
  | .waiting _ => further = [] ∧ LastEmpty conts ∧ UsedUp env handler hpack u
  | .endless => False

theorem readAll_follows {s : State T S} {u : List UInt8} {conts : List Continuation}
    (reads : List (List UInt8)) (hne : reads ≠ [])
    (h : Ready further s.handler s (s.buffer ++ reads.flatten) u conts) :
    AllSays env further s.handler s.hpack u conts (readAll env s reads) := by
  induction reads generalizing s u conts with
  | nil => exact absurd rfl hne
  | cons read reads ih =>
      rw [List.flatten_cons, ← List.append_assoc] at h
      have hread := @readLoop_follows T S env further _ _ _ _ _ _ _
        (weight_lt s.handler (s.buffer ++ read)) h
      rw [readAll]
      cases hend : readLoop env (8 * (s.buffer ++ read).length + 8) s.handler s
          (s.buffer ++ read) with
      | complete hpack' rest =>
          rw [hend] at hread
          exact hread
      | error hpack' =>
          rw [hend] at hread
          exact hread
      | endless =>
          rw [hend] at hread
          exact hread
      | waiting s' =>
          rw [hend] at hread
          obtain ⟨u', conts', hwaits⟩ := hread
          by_cases hnil : reads = []
          · subst hnil
            exact hwaits.stuck rfl
          · have hrest := ih hnil hwaits.ready
            change AllSays env further s.handler s.hpack u conts (readAll env s' reads)
            cases hall : readAll env s' reads with
            | complete hpack' rest =>
                rw [hall] at hrest
                exact ⟨hwaits.decodes _ hrest.1, hrest.2⟩
            | error hpack' =>
                rw [hall] at hrest
                exact hwaits.decodes _ hrest
            | endless =>
                rw [hall] at hrest
                exact hrest
            | waiting s'' =>
                rw [hall] at hrest
                obtain ⟨hfurther, hempty, hused⟩ := hrest
                exact ⟨hfurther, hwaits.last hempty,
                  hwaits.usedUp hempty.ne_nil hused⟩

theorem readAll_usedUp {s : State T S} {u : List UInt8}
    {conts : List Continuation} (reads : List (List UInt8))
    (hreads : ∀ read ∈ reads.tail, read ≠ [])
    (h : Ready [] s.handler s (s.buffer ++ reads.flatten) u conts)
    (hlast : LastEmpty conts) (hused : UsedUp env s.handler s.hpack u) :
    ∃ s', readAll env s reads = .waiting s' := by
  induction reads generalizing s u conts with
  | nil => exact ⟨s, rfl⟩
  | cons read reads ih =>
      rw [List.flatten_cons, ← List.append_assoc] at h
      obtain ⟨s', hend, hrest⟩ :=
        readLoop_usedUp (weight_lt s.handler (s.buffer ++ read)) h hlast hused
      rw [readAll, hend]
      obtain hnil | ⟨u', conts', hready, hlast', hused'⟩ := hrest
      · have hnone : reads = [] := by
          cases reads with
          | nil => rfl
          | cons read' reads =>
              have hread' := hreads read' (by simp)
              rw [List.flatten_cons, List.append_eq_nil_iff] at hnil
              exact absurd hnil.1 hread'
        subst hnone
        exact ⟨s', rfl⟩
      · exact ih (fun read hread => hreads read (List.mem_of_mem_tail hread)) hready
          hlast' hused'

/-! ## Every framing -/

/-- Two header blocks end alike: both are complete with the same state, or both
fail the connection behind the same header fields and with the same table. -/
def SameEnd (further further' : List UInt8) (r r' : ReadEnd T S) : Prop :=
  (∃ hpack, r = .complete hpack further ∧ r' = .complete hpack further') ∨
    ∃ hpack hpack', r = .error hpack ∧ r' = .error hpack' ∧
      hpack.fields = hpack'.fields ∧ hpack.table = hpack'.table

/-- The handlers that are called for a header block. -/
theorem ready_start {sid : ℕ} {flags : UInt8} {hpack : Hpack T S}
    {first pad wire : List UInt8} {conts : List Continuation} (hsid : sid < 2 ^ 31)
    (hends : EndsHeaders flags conts) (hne : first ++ payloads conts ≠ [])
    (hwire : wire = first ++ (pad ++ (encode sid conts ++ further))) :
    Ready further .headerBlock (State.start sid first.length pad.length flags hpack)
      wire (first ++ payloads conts) conts :=
  ⟨⟨hsid, hends, first, pad, rfl, rfl, hwire, rfl⟩, fun _ => hne, nofun⟩

/-- The block in one frame without padding, which comes in one read. -/
theorem readAll_single {sid : ℕ} (hpack : Hpack T S) (block further' : List UInt8)
    (hsid : sid < 2 ^ 31) (hne : block ≠ []) :
    (∃ hpack', readAll env (State.start sid block.length 0 endHeadersFlag hpack)
        [block ++ further'] = .complete hpack' further' ∧
        Decodes env .headerBlock hpack block (.complete hpack')) ∨
      ∃ hpack', readAll env (State.start sid block.length 0 endHeadersFlag hpack)
        [block ++ further'] = .error hpack' ∧
        Decodes env .headerBlock hpack block hpack'.failed := by
  have hready : Ready further' .headerBlock
      (State.start sid block.length 0 endHeadersFlag hpack)
      ([] ++ [block ++ further'].flatten) (block ++ payloads []) [] :=
    @ready_start T S further' sid _ _ block [] _ [] hsid
      (show endHeaders endHeadersFlag = true by decide)
      (by simpa [payloads] using hne) (by simp [encode])
  have hsays := @readAll_follows T S env further'
    (State.start sid block.length 0 endHeadersFlag hpack) _ _ [block ++ further'] (by simp)
    hready
  rw [payloads, List.flatMap_nil, List.append_nil] at hsays
  cases hend : readAll env
      (State.start sid block.length 0 endHeadersFlag hpack)
      [block ++ further'] with
  | complete hpack' rest =>
      rw [hend] at hsays
      obtain ⟨hdecodes, rfl⟩ := hsays
      exact .inl ⟨hpack', rfl, hdecodes⟩
  | error hpack' =>
      rw [hend] at hsays
      exact .inr ⟨hpack', rfl, hsays⟩
  | waiting s' =>
      rw [hend] at hsays
      exact absurd rfl hsays.2.1.ne_nil
  | endless =>
      rw [hend] at hsays
      exact hsays.elim

/-- A header block that is divided into frames and comes in reads ends as the
block does in one frame, exactly unless nothing stands behind the last frame,
that frame is an empty `CONTINUATION`, and the block has been used up before. -/
theorem headerBlock_framing_iff (env : Env T S) (hpack : Hpack T S) (sid : ℕ)
    (flags : UInt8) (first pad further further' read : List UInt8)
    (conts : List Continuation) (reads : List (List UInt8)) (hsid : sid < 2 ^ 31)
    (hends : EndsHeaders flags conts) (hne : first ++ payloads conts ≠ [])
    (hcut : read ++ reads.flatten =
      first ++ (pad ++ (encode sid conts ++ further)))
    (hreads : ∀ read ∈ reads, read ≠ []) :
    SameEnd further further'
        (readAll env (State.start sid first.length pad.length flags hpack)
          (read :: reads))
        (readAll env (State.start sid (first ++ payloads conts).length 0
          endHeadersFlag hpack) [first ++ payloads conts ++ further']) ↔
      further ≠ [] ∨ ¬LastEmpty conts ∨
        ¬UsedUp env .headerBlock hpack (first ++ payloads conts) := by
  have hready : Ready further .headerBlock
      (State.start sid first.length pad.length flags hpack)
      ([] ++ (read :: reads).flatten) (first ++ payloads conts) conts :=
    ready_start hsid hends hne hcut
  constructor
  · intro hsame
    by_contra hstuck
    rw [not_or, not_or, not_not, not_not, not_not] at hstuck
    obtain ⟨rfl, hlast, hused⟩ := hstuck
    obtain ⟨s', hwaiting⟩ :=
      @readAll_usedUp T S env
        (State.start sid first.length pad.length flags hpack) _ _ (read :: reads) hreads hready
        hlast hused
    rw [hwaiting] at hsame
    obtain ⟨_, h, -⟩ | ⟨_, _, h, -⟩ := hsame
    · cases h
    · cases h
  · intro hcond
    have hsays := @readAll_follows T S env further
      (State.start sid first.length pad.length flags hpack) _ _ (read :: reads) (by simp) hready
    cases hend : readAll env (State.start sid first.length pad.length flags hpack)
        (read :: reads) with
    | complete hp rest =>
        rw [hend] at hsays
        obtain ⟨hdecodes, rfl⟩ := hsays
        obtain ⟨hp', hsingle, hdecodes'⟩ | ⟨hp', -, hdecodes'⟩ :=
          @readAll_single T S env sid hpack _ further' hsid hne
        · cases hdecodes.unique hdecodes'
          exact .inl ⟨hp, rfl, hsingle⟩
        · cases hdecodes.unique hdecodes'
    | error hp =>
        rw [hend] at hsays
        obtain ⟨hp', -, hdecodes'⟩ | ⟨hp', hsingle, hdecodes'⟩ :=
          @readAll_single T S env sid hpack _ further' hsid hne
        · cases Decodes.unique hsays hdecodes'
        · have hfailed := Decodes.unique hsays hdecodes'
          injection hfailed with hfields htable
          exact .inr ⟨hp, hp', rfl, hsingle, hfields, htable⟩
    | waiting s' =>
        rw [hend] at hsays
        obtain ⟨hfurther, hlast, hused⟩ := hsays
        obtain h | h | h := hcond
        · exact absurd hfurther h
        · exact absurd hlast h
        · exact absurd hused h
    | endless =>
        rw [hend] at hsays
        exact hsays.elim

/-- A server whose table stays as it is and whose requests accept everything. -/
def plainEnv : Env Unit Unit where
  largeClientHeaderBuffersSize := 8192
  huffDecodeCodes := fun state bits => ⟨state + bits + 1, true, bits, true⟩
  getIndexedHeader := fun _ _ _ header => some header
  tableSize := fun _ _ => some ()
  addHeader := fun _ _ => some ()
  processHeader := fun _ _ => .ok ()

/-- The decoder before a header block. -/
def plainHpack : Hpack Unit Unit where
  parseName := false
  parseValue := false
  index := false
  header := ⟨[], []⟩
  headerLimit := 32768
  fieldState := 0
  field := []
  fieldRest := 0
  stream := some ()
  table := ()
  fields := []

/-- The field `a: bcd`, a literal without indexing. -/
def abcdBlock : List UInt8 := [0, 1, 97, 3, 98, 99, 100]

/-- A `CONTINUATION` frame with `END_HEADERS`. -/
def lastContinuation (payload : List UInt8) (fits : payload.length < 2 ^ 24) :
    Continuation :=
  ⟨endHeadersFlag, false, payload, fits⟩

/-- The field stands in `HEADERS`, and an empty `CONTINUATION` follows: the
request is not run. -/
theorem not_sameEnd_emptyContinuation :
    ¬SameEnd [] []
      (readAll plainEnv (State.start 1 7 0 0 plainHpack)
        [abcdBlock ++ encode 1 [lastContinuation [] (by decide)]])
      (readAll plainEnv (State.start 1 7 0 endHeadersFlag plainHpack)
        [abcdBlock]) := by
  have hwaiting : ∃ s, readAll plainEnv (State.start 1 7 0 0 plainHpack)
      [abcdBlock ++ encode 1 [lastContinuation [] (by decide)]] = .waiting s :=
    ⟨_, rfl⟩
  obtain ⟨s, hs⟩ := hwaiting
  rw [hs]
  rintro (⟨_, h, -⟩ | ⟨_, _, h, -⟩)
  · cases h
  · cases h

/-- A `CONTINUATION` with the value of the field. -/
theorem abcd_framing :
    SameEnd [] []
      (readAll plainEnv (State.start 1 3 0 0 plainHpack)
        [[0, 1], [97, 0, 0, 4, 9, 4, 0, 0, 0, 1, 3, 98], [99, 100]])
      (readAll plainEnv (State.start 1 7 0 endHeadersFlag plainHpack)
        [abcdBlock]) :=
  (headerBlock_framing_iff plainEnv plainHpack 1 0 [0, 1, 97] [] [] [] [0, 1]
    [lastContinuation [3, 98, 99, 100] (by decide)]
    [[97, 0, 0, 4, 9, 4, 0, 0, 0, 1, 3, 98], [99, 100]] (by decide)
    ⟨rfl, show endHeaders endHeadersFlag = true by decide⟩ (by decide) (by decide)
    (by decide)).mpr
    (.inr (.inl fun h => absurd (lastEmpty_single.mp h) (by decide)))

end MultiversionBalancer.Http2
