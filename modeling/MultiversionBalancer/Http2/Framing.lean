import MultiversionBalancer.Http2.Block

/-!
# Frames and reads

A header block that comes in a `HEADERS` frame and `CONTINUATION` frames, in any
number of reads.  Each call of a handler does what can be seen in the block as a
whole, and a handler that saves its input waits for bytes that are still to come.
-/

namespace MultiversionBalancer.Http2

/-! ## Frames -/

structure Continuation where
  flags : UInt8
  reserved : Bool
  payload : List UInt8
  fits : payload.length < 2 ^ 24

/-- Four bytes in network order. -/
def uint32Bytes (n : ℕ) : List UInt8 :=
  [UInt8.ofNat (n / 2 ^ 24), UInt8.ofNat (n / 2 ^ 16), UInt8.ofNat (n / 2 ^ 8),
    UInt8.ofNat n]

def Continuation.head (sid : ℕ) (c : Continuation) : List UInt8 :=
  uint32Bytes (c.payload.length * 2 ^ 8 + continuationFrame) ++
    (c.flags :: uint32Bytes (sid + if c.reserved then 2 ^ 31 else 0))

def encode (sid : ℕ) (conts : List Continuation) : List UInt8 :=
  conts.flatMap fun c => c.head sid ++ c.payload

/-- The parts of the block in frames. -/
def payloads (conts : List Continuation) : List UInt8 :=
  conts.flatMap Continuation.payload

def EndsHeaders : UInt8 → List Continuation → Prop
  | flags, [] => endHeaders flags = true
  | flags, c :: conts => endHeaders flags = false ∧ EndsHeaders c.flags conts

theorem endHeaders_or (flags flags' : UInt8) (h : endHeaders flags = false) :
    endHeaders (flags ||| flags') = endHeaders flags' := by
  have hor : (flags ||| flags') &&& endHeadersFlag =
      (flags &&& endHeadersFlag) ||| (flags' &&& endHeadersFlag) :=
    UInt8.eq_of_toBitVec_eq BitVec.and_or_distrib_right
  have hzero : flags &&& endHeadersFlag = 0 := by simpa [endHeaders] using h
  rw [endHeaders, endHeaders, hor, hzero, UInt8.zero_or]

theorem EndsHeaders.or {flags flags' : UInt8} {conts : List Continuation}
    (h : endHeaders flags = false) (h' : EndsHeaders flags' conts) :
    EndsHeaders (flags ||| flags') conts := by
  cases conts with
  | nil => exact (endHeaders_or flags flags' h).trans h'
  | cons c conts => exact ⟨(endHeaders_or flags flags' h).trans h'.1, h'.2⟩

theorem EndsHeaders.flags_iff {flags : UInt8} {conts : List Continuation}
    (h : EndsHeaders flags conts) : endHeaders flags = true ↔ conts = [] := by
  cases conts with
  | nil => exact ⟨fun _ => rfl, fun _ => h⟩
  | cons c conts => simp [h.1]

theorem parseUint32_bytes (n : ℕ) (x : List UInt8) (hn : n < 2 ^ 32) :
    parseUint32 (uint32Bytes n ++ x) = n := by
  simp only [uint32Bytes, List.cons_append, parseUint32, List.getD_cons_zero,
    List.getD_cons_succ, UInt8.toNat_ofNat']
  omega

theorem head_length (sid : ℕ) (c : Continuation) :
    (c.head sid).length = frameHeaderSize := rfl

section Head

variable {sid : ℕ} (c : Continuation) (x : List UInt8)

theorem parseUint32_head :
    parseUint32 (c.head sid ++ x) = c.payload.length * 2 ^ 8 + continuationFrame := by
  have hfits := c.fits
  rw [Continuation.head, List.append_assoc, parseUint32_bytes]
  rw [continuationFrame]
  omega

theorem parseSid_head (hsid : sid < 2 ^ 31) :
    parseSid ((c.head sid ++ x).drop 5) = sid := by
  have hdrop : (c.head sid ++ x).drop 5 =
      uint32Bytes (sid + if c.reserved then 2 ^ 31 else 0) ++ x := rfl
  rw [hdrop, parseSid, parseUint32_bytes]
  · split
    · omega
    · omega
  · split
    · omega
    · omega

end Head

/-! ## The bytes that are still to come -/

variable {T S : Type*}

/-- The bytes from `pos` on, in the buffer and still to come, are what is left of
the frame, its padding, frames, and further bytes; `u` is what is left of the
block. -/
structure Framing (further : List UInt8) (s : State T S) (wire u : List UInt8)
    (conts : List Continuation) : Prop where
  sid : s.sid < 2 ^ 31
  ends : EndsHeaders s.flags conts
  layout : ∃ part pad, part.length = s.length ∧ pad.length = s.padding ∧
    wire = part ++ (pad ++ (encode s.sid conts ++ further)) ∧
    u = part ++ payloads conts

section Continuations

variable {further u w input : List UInt8} {s : State T S} {c : Continuation}
  {conts : List Continuation}

/-- The part of the frame that is left is in the buffer, or some of it is still
to come. -/
theorem append_split {part behind : List UInt8} (h : input ++ w = part ++ behind)
    (hle : part.length ≤ input.length) :
    ∃ x, input = part ++ x ∧ x ++ w = behind := by
  obtain ⟨x, rfl, rfl⟩ | ⟨x, rfl, rfl⟩ := List.append_eq_append_iff.mp h
  · have hnil : x = [] := by
      rw [← List.length_eq_zero_iff]
      rw [List.length_append] at hle
      omega
    subst hnil
    exact ⟨[], by simp, by simp⟩
  · exact ⟨x, rfl, rfl⟩

theorem shift_append (part skipped x : List UInt8) :
    shift part.length skipped.length (part ++ (skipped ++ x)) = part ++ x := by
  rw [shift, List.take_left, ← List.append_assoc, ← List.length_append,
    List.drop_left]

/-- What is left behind the padding that has arrived. -/
structure Skipped (further : List UInt8) (s s' : State T S)
    (input input' w u : List UInt8) (conts : List Continuation) : Prop where
  framing : Framing further s' (input' ++ w) u conts
  hpack : s'.hpack = s.hpack
  length : s'.length = s.length
  shorter : input'.length ≤ input.length
  padding : s.length < input'.length → s'.padding = 0

theorem skipPadding_skipped (h : Framing further s (input ++ w) u conts) :
    Skipped further s (skipPadding s input).1 input (skipPadding s input).2 w u
      conts := by
  rw [skipPadding]
  by_cases hskip : s.padding ≠ 0 ∧ s.length < input.length
  · rw [if_pos hskip]
    obtain ⟨part, pad, hpart, hpad, hwire, hu⟩ := h.layout
    obtain ⟨x, rfl, hx⟩ := append_split hwire (by omega)
    have hlen : (part ++ x).length - s.length = x.length := by
      rw [List.length_append]
      omega
    have hx' : x = x.take (min s.padding x.length) ++
        x.drop (min s.padding x.length) := (List.take_append_drop _ _).symm
    have hshift : shift s.length (min s.padding x.length) (part ++ x) =
        part ++ x.drop (min s.padding x.length) := by
      have htake : (x.take (min s.padding x.length)).length =
          min s.padding x.length := by
        rw [List.length_take]
        omega
      have hmove := shift_append part (x.take (min s.padding x.length))
        (x.drop (min s.padding x.length))
      rwa [List.take_append_drop, htake, hpart] at hmove
    have hdrop : x.drop (min s.padding x.length) ++ w =
        pad.drop (min s.padding x.length) ++ (encode s.sid conts ++ further) := by
      have hcut := congrArg (List.drop (min s.padding x.length)) hx
      rwa [List.drop_append_of_le_length (by omega),
        List.drop_append_of_le_length (by omega)] at hcut
    simp only [hlen, hshift]
    refine ⟨⟨h.sid, h.ends, part, pad.drop (min s.padding x.length), hpart, ?_, ?_,
      hu⟩, rfl, rfl, ?_, ?_⟩
    · rw [List.length_drop, hpad]
    · rw [List.append_assoc, hdrop]
    · rw [List.length_append, List.length_append, List.length_drop]
      omega
    · intro hlt
      rw [List.length_append, List.length_drop] at hlt
      change s.padding - min s.padding x.length = 0
      omega
  · rw [if_neg hskip]
    refine ⟨h, rfl, rfl, Nat.le_refl _, ?_⟩
    intro hlt
    by_contra hpad
    exact hskip ⟨hpad, hlt⟩

/-- What `ngx_http_v2_handle_continuation` does: it waits for bytes that are
still to come, or it takes the next frame. -/
def Continued (further : List UInt8) (s : State T S) (input w u : List UInt8)
    (c : Continuation) (conts : List Continuation) (handler : Handler) :
    Action T S → Prop
  | .save s' =>
      s'.handler = handler ∧ s'.hpack = s.hpack ∧ w ≠ [] ∧
        Framing further s' (s'.buffer ++ w) u (c :: conts)
  | .ret s' input' =>
      s'.handler = handler ∧ s'.hpack = s.hpack ∧
        s'.length = s.length + c.payload.length ∧ s'.padding = 0 ∧
        input'.length + frameHeaderSize ≤ input.length ∧
        Framing further s' (input' ++ w) u conts
  | _ => False

theorem save_eq {handler : Handler} (hlen : input.length ≤ stateBufferSize) :
    ngxHttpV2StateSave s input handler =
      .save { s with buffer := input, handler := handler } :=
  if_neg (Nat.not_lt.mpr hlen)

theorem takeFrameHeader_continued {handler : Handler}
    (h : Framing further s (input ++ w) u (c :: conts))
    (hlen : s.length < intOctets)
    (hpadding : s.length < input.length → s.padding = 0) :
    Continued further s input w u c conts handler
      (takeFrameHeader s input handler) := by
  obtain ⟨part, pad, hpart, hpad, hwire, hu⟩ := h.layout
  rw [takeFrameHeader]
  by_cases hshort : input.length < s.length + frameHeaderSize
  · have hsize : input.length ≤ stateBufferSize := by
      rw [intOctets] at hlen
      rw [frameHeaderSize] at hshort
      rw [stateBufferSize]
      omega
    rw [if_pos hshort, save_eq hsize]
    refine ⟨rfl, rfl, ?_, ⟨h.sid, h.ends, h.layout⟩⟩
    rintro rfl
    have hwhole := congrArg List.length hwire
    have hhead := head_length s.sid c
    simp only [List.append_nil, List.length_append, encode, List.flatMap_cons]
      at hwhole
    omega
  · rw [if_neg hshort]
    have hframe : frameHeaderSize = 9 := rfl
    obtain ⟨x, rfl, hx⟩ := append_split hwire (by omega)
    have hxlen : frameHeaderSize ≤ x.length := by
      rw [List.length_append] at hshort
      omega
    have hnopad : pad = [] := by
      rw [← List.length_eq_zero_iff, hpad]
      apply hpadding
      rw [List.length_append]
      omega
    subst hnopad
    have hencode : encode s.sid (c :: conts) ++ further =
        c.head s.sid ++ (c.payload ++ (encode s.sid conts ++ further)) := by
      simp [encode]
    rw [List.nil_append, hencode] at hx
    obtain ⟨y, rfl, hy⟩ := append_split hx (by rw [head_length]; exact hxlen)
    have hdrop : (part ++ (c.head s.sid ++ y)).drop s.length =
        c.head s.sid ++ y := by
      rw [← hpart, List.drop_left]
    have hshift : shift s.length frameHeaderSize (part ++ (c.head s.sid ++ y)) =
        part ++ y := by
      have hmove := shift_append part (c.head s.sid) y
      rwa [head_length, hpart] at hmove
    have htype : parseType (parseUint32 (c.head s.sid ++ y)) =
        continuationFrame := by
      rw [parseUint32_head, parseType, continuationFrame]
      omega
    have hlength : parseLength (parseUint32 (c.head s.sid ++ y)) =
        c.payload.length := by
      rw [parseUint32_head, parseLength, continuationFrame]
      omega
    simp only [hdrop, hshift, htype, hlength, parseSid_head c y h.sid, ne_eq,
      not_true_eq_false, if_false]
    refine ⟨rfl, rfl, rfl, hpad.symm, ?_, h.sid, h.ends.2.or h.ends.1,
      part ++ c.payload, [], ?_, hpad, ?_, ?_⟩
    · simp [head_length]
      omega
    · rw [List.length_append, hpart]
    · rw [List.append_assoc, hy]
      simp
    · rw [hu]
      simp [payloads]

theorem handleContinuation_continued {handler : Handler}
    (h : Framing further s (input ++ w) u (c :: conts))
    (hlen : s.length < intOctets) :
    Continued further s input w u c conts handler
      (ngxHttpV2HandleContinuation s input handler) := by
  have hskip := skipPadding_skipped h
  have hcont : Continued further (skipPadding s input).1 (skipPadding s input).2 w u
      c conts handler (ngxHttpV2HandleContinuation s input handler) := by
    apply takeFrameHeader_continued hskip.framing
    · rw [hskip.length]
      exact hlen
    · rw [hskip.length]
      exact hskip.padding
  cases haction : ngxHttpV2HandleContinuation s input handler with
  | save s' =>
      rw [haction] at hcont
      obtain ⟨hhandler, hhpack, hw, hframing⟩ := hcont
      exact ⟨hhandler, hhpack.trans hskip.hpack, hw, hframing⟩
  | ret s' input' =>
      rw [haction] at hcont
      obtain ⟨hhandler, hhpack, hlength, hpadding, hshorter, hframing⟩ := hcont
      rw [hskip.length] at hlength
      exact ⟨hhandler, hhpack.trans hskip.hpack, hlength, hpadding,
        hshorter.trans hskip.shorter, hframing⟩
  | _ =>
      rw [haction] at hcont
      exact hcont.elim

end Continuations

/-! ## One call -/

/-- The calls that can follow without a byte being read. -/
def Handler.rank : Handler → ℕ
  | .skip => 0
  | .headerBlock => 1
  | .headerComplete => 2
  | .fieldLen => 2
  | .processHeader => 3
  | .fieldHuff => 4
  | .fieldRaw => 4
  | .fieldSkip => 4

theorem Handler.rank_le (handler : Handler) : handler.rank ≤ 4 := by
  cases handler <;> decide

/-- A bound for the calls on what is in the buffer. -/
def weight (handler : Handler) (input : List UInt8) : ℕ :=
  8 * input.length + handler.rank

/-- The state in which a handler is called. -/
structure Ready (further : List UInt8) (handler : Handler) (s : State T S)
    (wire u : List UInt8) (conts : List Continuation) : Prop where
  framing : Framing further s wire u conts
  block : handler = .headerBlock → u ≠ []
  skip : handler = .skip → conts = [] ∧ s.padding = 0

/-- What a handler that returns leaves: either bytes for the next handler, or the
next frame has been taken. -/
def Returns (env : Env T S) (further : List UInt8) (s' : State T S)
    (input' w u' : List UInt8) (conts : List Continuation) : Prop :=
  (input' ≠ [] ∧ Ready further s'.handler s' (input' ++ w) u' conts) ∨
    ∃ c conts', conts = c :: conts' ∧
      Ready further s'.handler s' (input' ++ w) u' conts' ∧
      c.payload.length ≤ s'.length ∧ s'.padding = 0 ∧
      (u' = [] → UsedUp env s'.handler s'.hpack []) ∧
      (c.payload = [] → conts' = [] → UsedUp env s'.handler s'.hpack u' → u' = [])

/-- What a call of a handler does, seen in the block as a whole. -/
def Simulates (env : Env T S) (further : List UInt8) (handler : Handler)
    (hpack : Hpack T S) (input w u : List UInt8) (conts : List Continuation) :
    Action T S → Prop
  | .call handler' s' input' =>
      ∃ u', Moves env (conts = []) handler hpack u handler' s'.hpack u' ∧
        weight handler' input' < weight handler input ∧
        Ready further handler' s' (input' ++ w) u' conts
  | .ret s' input' =>
      ∃ u', Moves env (conts = []) handler hpack u s'.handler s'.hpack u' ∧
        weight s'.handler input' < weight handler input ∧
        Returns env further s' input' w u' conts
  | .save s' =>
      w ≠ [] ∧ ∃ u', Moves env (conts = []) handler hpack u s'.handler s'.hpack u' ∧
        Ready further s'.handler s' (s'.buffer ++ w) u' conts
  | .error hpack' =>
      Decodes env handler hpack u hpack'.failed ∧
        (conts ≠ [] → ¬UsedUp env handler hpack u)
  | .complete hpack' rest =>
      Decodes env handler hpack u (.complete hpack') ∧ rest ++ w = further ∧
        conts = []

section Calls

variable {env : Env T S} {further u w input : List UInt8} {s : State T S}
  {handler : Handler} {c : Continuation} {conts : List Continuation}

theorem Framing.length_eq {wire : List UInt8}
    (h : Framing further s wire u conts) :
    u.length = s.length + (payloads conts).length := by
  obtain ⟨part, pad, hpart, -, -, rfl⟩ := h.layout
  rw [List.length_append, hpart]

/-- An integer is not begun with too few octets. -/
theorem usedUp_short (hint : handler.StartsInt) {hpack : Hpack T S}
    (hlen : u.length < intOctets) (h : UsedUp env handler hpack u) : u = [] := by
  cases h with
  | complete => rfl
  | fieldLen => rfl
  | field hfield => exact absurd hint (not_startsInt hfield)
  | step henough => exact absurd (henough hint) (Nat.not_le.mpr hlen)

theorem Continued.simulates {handler' : Handler} {hpack : Hpack T S}
    {action : Action T S} {u₀ input₀ : List UInt8}
    (h : Continued further s input w u c conts handler' action)
    (hframing : Framing further s (input ++ w) u (c :: conts))
    (hmoves : Moves env (c :: conts = []) handler hpack u₀ handler' s.hpack u)
    (hshorter : input.length ≤ input₀.length)
    (hblock : handler' = .headerBlock → u ≠ []) (hskip : handler' ≠ .skip)
    (hused : u = [] → UsedUp env handler' s.hpack [])
    (hleft : handler'.StartsInt ∧ s.length < intOctets ∨ s.length = 0) :
    Simulates env further handler hpack input₀ w u₀ (c :: conts) action := by
  cases action with
  | save s' =>
      obtain ⟨rfl, hhpack, hw, hframing'⟩ := h
      rw [← hhpack] at hmoves
      exact ⟨hw, u, hmoves, hframing', hblock, fun h => absurd h hskip⟩
  | ret s' input' =>
      obtain ⟨rfl, hhpack, hlength, hpadding, hshorter', hframing'⟩ := h
      rw [← hhpack] at hmoves hused
      refine ⟨u, hmoves, ?_, .inr ⟨c, conts, rfl,
        ⟨hframing', hblock, fun h => absurd h hskip⟩, by omega, hpadding, hused, ?_⟩⟩
      · have hrank := s'.handler.rank_le
        rw [frameHeaderSize] at hshorter'
        rw [weight, weight]
        omega
      · intro hpayload hlast husedUp
        have hlen : u.length = s.length := by
          rw [hframing.length_eq, hlast]
          simp [payloads, hpayload]
        obtain ⟨hint, hshort⟩ | hzero := hleft
        · exact usedUp_short hint (by rw [hlen]; exact hshort) husedUp
        · rw [← List.length_eq_zero_iff, hlen, hzero]
  | _ => exact h.elim

theorem Framing.exists_next (h : Framing further s (input ++ w) u conts)
    (hflags : endHeaders s.flags = false) : ∃ c conts', conts = c :: conts' := by
  cases conts with
  | nil => exact absurd (h.ends.flags_iff.mpr rfl) (by rw [hflags]; decide)
  | cons c conts => exact ⟨c, conts, rfl⟩

theorem Framing.no_next (h : Framing further s (input ++ w) u conts)
    (hflags : endHeaders s.flags = true) : conts = [] :=
  h.ends.flags_iff.mp hflags

/-- What is known about an integer at the front of the buffer. -/
theorem Framing.sees (h : Framing further s (input ++ w) u conts)
    (henough : ¬(endHeaders s.flags = false ∧ s.length < intOctets)) :
    Sees s.length input u := by
  have hlen := h.length_eq
  obtain ⟨part, pad, hpart, -, hwire, hu⟩ := h.layout
  refine ⟨?_, by omega, ?_⟩
  · have hpre : input.take s.length <+: part := by
      rw [← hpart]
      obtain ⟨x, rfl, -⟩ | ⟨x, rfl, -⟩ := List.append_eq_append_iff.mp hwire
      · rw [List.take_of_length_le (by simp)]
        exact List.prefix_append _ _
      · rw [List.take_left]
    rw [hu]
    exact hpre.trans (List.prefix_append _ _)
  · by_cases hflags : endHeaders s.flags = true
    · left
      rw [hlen, h.no_next hflags]
      rfl
    · right
      by_contra hshort
      exact henough ⟨by simpa using hflags, by omega⟩

/-- The first bytes of the block have been read. -/
theorem Framing.drop {k : ℕ} {hpack' : Hpack T S}
    (h : Framing further s (input ++ w) u conts) (hk : k ≤ s.length)
    (hinput : k ≤ input.length) :
    Framing further { s with length := s.length - k, hpack := hpack' }
      (input.drop k ++ w) (u.drop k) conts := by
  obtain ⟨part, pad, hpart, hpad, hwire, hu⟩ := h.layout
  refine ⟨h.sid, h.ends, part.drop k, pad, ?_, hpad, ?_, ?_⟩
  · rw [List.length_drop, hpart]
  · have hcut := congrArg (List.drop k) hwire
    rwa [List.drop_append_of_le_length hinput,
      List.drop_append_of_le_length (by omega)] at hcut
  · rw [hu, List.drop_append_of_le_length (by omega)]

/-- As long as something is left of the frame, bytes are still to come or in the
buffer. -/
theorem Framing.length_le (h : Framing further s (input ++ w) u conts) :
    s.length ≤ input.length + w.length := by
  obtain ⟨part, pad, hpart, -, hwire, -⟩ := h.layout
  have hlen := congrArg List.length hwire
  rw [List.length_append, List.length_append] at hlen
  omega

theorem Framing.wire_ne_nil {wire : List UInt8}
    (h : Framing further s wire u conts) (hu : u ≠ []) : wire ≠ [] := by
  rintro rfl
  obtain ⟨part, pad, -, -, hwire, rfl⟩ := h.layout
  cases conts with
  | nil =>
      rw [eq_comm, List.append_eq_nil_iff] at hwire
      exact hu (by rw [hwire.1]; rfl)
  | cons c conts =>
      have hlen := congrArg List.length hwire
      have hhead := head_length s.sid c
      rw [frameHeaderSize] at hhead
      simp only [List.length_nil, List.length_append, encode, List.flatMap_cons]
        at hlen
      omega

theorem failed_markIndex (hpack : Hpack T S) (ch : UInt8) :
    (hpack.markIndex ch).failed = hpack.failed := by
  rw [Hpack.markIndex]
  split
  · rfl
  · rfl

theorem intStep_fails {hpack : Hpack T S} {r : IntResult}
    {found : ℕ → Except (Hpack T S) (Handler × Hpack T S)} (h : r.Fails) :
    intStep hpack found r = .stop hpack.failed := by
  cases r with
  | value v l rest => exact absurd rfl (h v l rest)
  | _ => rfl

/-- A handler that stops at an integer has not used the block up. -/
theorem not_usedUp_of_stop {hpack : Hpack T S} {ch : UInt8} {e : BlockEnd T S}
    (hfield : ¬handler.IsField)
    (hstop : blockStep env handler hpack (ch :: u) = .stop e) :
    ¬UsedUp env handler hpack (ch :: u) := by
  intro h
  cases h with
  | field h => exact hfield h
  | step hint hstep => cases hstep.symm.trans hstop

/-- An integer in the buffer. -/
theorem int_simulates {ch p : UInt8} {rest : List UInt8} {hpack' : Hpack T S}
    {found : ℕ → Except (Hpack T S) (Handler × Hpack T S)}
    (h : Framing further s (ch :: rest ++ w) u conts) (hu : u ≠ [])
    (henough : ¬(endHeaders s.flags = false ∧ s.length < intOctets))
    (hint : handler.StartsInt)
    (hstep : ∀ u, blockStep env handler s.hpack (ch :: u) =
      intStep s.hpack found (ngxHttpV2ParseInt (u.length + 1) ch u p))
    (hfailed : hpack'.failed = s.hpack.failed)
    (hmoves : ∀ u, Moves env (conts = []) handler s.hpack (ch :: u) handler hpack'
      (ch :: u))
    (hfound : ∀ v next hp, found v = .ok (next, hp) →
      next ≠ .headerBlock ∧ next ≠ .skip) :
    Simulates env further handler s.hpack (ch :: rest) w u conts
      (afterInt { s with hpack := hpack' } (ch :: rest) handler found
        (ngxHttpV2ParseInt s.length ch rest p)) := by
  have hsees := h.sees henough
  obtain ⟨l, hl⟩ : ∃ l, s.length = l + 1 := by
    have hpos : 0 < u.length := List.length_pos_iff_ne_nil.mpr hu
    have hlen := hsees.enough
    rw [intOctets] at hlen
    exact ⟨s.length - 1, by omega⟩
  obtain ⟨urest, rfl⟩ : ∃ urest, u = ch :: urest := by
    obtain ⟨behind, rfl⟩ := hsees.agrees
    rw [hl]
    exact ⟨rest.take l ++ behind, rfl⟩
  have hfield : ¬handler.IsField := fun h => not_startsInt h hint
  have hseen := hsees
  rw [hl] at hseen
  have hint' := @parseInt_seen l ch p rest urest hseen
  rw [← hl] at hint'
  cases hparse : ngxHttpV2ParseInt s.length ch rest p with
  | value v length' rest' =>
      rw [hparse] at hint'
      obtain ⟨k, hk, hkl, hki, rfl, rfl, hwhole⟩ := hint'
      have hblock : blockStep env handler s.hpack (ch :: urest) =
          .resume ((ch :: urest).drop k) (found v) := by
        rw [hstep, hwhole]
        rfl
      rw [afterInt]
      cases hv : found v with
      | error hp =>
          rw [hv] at hblock
          exact ⟨.stop hblock, fun _ => not_usedUp_of_stop hfield hblock⟩
      | ok r =>
          obtain ⟨next, hp⟩ := r
          rw [hv] at hblock
          obtain ⟨hnotBlock, hnotSkip⟩ := hfound v next hp hv
          refine ⟨(ch :: urest).drop k, .step ?_ hblock, ?_, h.drop hkl hki,
            fun h => absurd h hnotBlock, fun h => absurd h hnotSkip⟩
          · by_cases hflags : endHeaders s.flags = true
            · exact .inl (h.no_next hflags)
            · right
              intro _
              have hle := hsees.length_le
              have hflags' : endHeaders s.flags = false := by simpa using hflags
              have hge : intOctets ≤ s.length := by
                by_contra hlt
                exact henough ⟨hflags', by omega⟩
              exact hge.trans hle
          · have hrank := next.rank_le
            rw [weight, weight, List.length_drop]
            omega
  | again =>
      rw [hparse] at hint'
      obtain ⟨hless, hfew⟩ := hint'
      have hsize : (ch :: rest).length ≤ stateBufferSize := by
        rw [intOctets] at hfew
        rw [stateBufferSize]
        omega
      rw [afterInt, save_eq hsize]
      refine ⟨?_, ch :: urest, hmoves urest, ⟨h.sid, h.ends, h.layout⟩,
        fun _ => List.cons_ne_nil _ _, ?_⟩
      · rintro rfl
        have hle := h.length_le
        rw [List.length_nil] at hle
        omega
      · rintro rfl
        obtain hint | hint := hint <;> cases hint
  | declined =>
      rw [hparse] at hint'
      have hblock := (hstep urest).trans (intStep_fails hint')
      rw [afterInt, ngxHttpV2ConnectionError]
      refine ⟨.stop ?_, fun _ => not_usedUp_of_stop hfield hblock⟩
      rw [hfailed]
      exact hblock
  | error =>
      rw [hparse] at hint'
      have hblock := (hstep urest).trans (intStep_fails hint')
      rw [afterInt, ngxHttpV2ConnectionError]
      refine ⟨.stop ?_, fun _ => not_usedUp_of_stop hfield hblock⟩
      rw [hfailed]
      exact hblock

theorem headerValue_next {hpack hp : Hpack T S} {ch : UInt8} {v : ℕ}
    {next : Handler} (h : hpack.headerValue env ch v = .ok (next, hp)) :
    next ≠ .headerBlock ∧ next ≠ .skip := by
  rw [Hpack.headerValue] at h
  repeat' split at h
  all_goals cases h
  all_goals exact ⟨nofun, nofun⟩

theorem headerBlock_simulates
    (h : Ready further .headerBlock s (input ++ w) u conts) :
    Simulates env further .headerBlock s.hpack input w u conts
      (ngxHttpV2StateHeaderBlock env s input) := by
  have hu := h.block rfl
  cases input with
  | nil =>
      rw [ngxHttpV2StateHeaderBlock, save_eq (Nat.zero_le _)]
      refine ⟨?_, u, .stay, ⟨h.framing.sid, h.framing.ends, h.framing.layout⟩,
        h.block, nofun⟩
      exact h.framing.wire_ne_nil hu
  | cons ch rest =>
      rw [ngxHttpV2StateHeaderBlock]
      by_cases hshort : endHeaders s.flags = false ∧ s.length < intOctets
      · rw [if_pos hshort]
        obtain ⟨c, conts, rfl⟩ := h.framing.exists_next hshort.1
        exact (handleContinuation_continued h.framing hshort.2).simulates h.framing
          .stay (Nat.le_refl _) h.block nofun (fun hnil => absurd hnil hu)
          (.inl ⟨.inl rfl, hshort.2⟩)
      · rw [if_neg hshort]
        exact int_simulates h.framing hu hshort (.inl rfl) (fun _ => rfl)
          (failed_markIndex _ _) (fun _ => .mark) fun _ _ _ => headerValue_next

theorem fieldLength_next {hpack hp : Hpack T S} {huff : Bool} {v : ℕ}
    {next : Handler} (h : hpack.fieldLength env huff v = .ok (next, hp)) :
    next ≠ .headerBlock ∧ next ≠ .skip := by
  rw [Hpack.fieldLength] at h
  repeat' split at h
  all_goals cases h
  all_goals exact ⟨nofun, nofun⟩

theorem fieldLen_simulates (h : Ready further .fieldLen s (input ++ w) u conts) :
    Simulates env further .fieldLen s.hpack input w u conts
      (ngxHttpV2StateFieldLen env s input) := by
  unfold ngxHttpV2StateFieldLen
  by_cases hshort : endHeaders s.flags = false ∧ s.length < intOctets
  · rw [if_pos hshort]
    obtain ⟨c, conts, rfl⟩ := h.framing.exists_next hshort.1
    exact (handleContinuation_continued h.framing hshort.2).simulates h.framing
      .stay (Nat.le_refl _) h.block (fun hskip => by cases hskip) (fun _ => .fieldLen)
      (.inl ⟨.inr rfl, hshort.2⟩)
  rw [if_neg hshort]
  have hlen := h.framing.length_eq
  by_cases hzero : s.length < 1
  · rw [if_pos hzero]
    -- The block ends where a length should stand.
    have hclosed : conts = [] := by
      apply h.framing.no_next
      by_contra hflags
      refine hshort ⟨by simpa using hflags, ?_⟩
      rw [intOctets]
      omega
    have hnil : u = [] := by
      rw [← List.length_eq_zero_iff, hlen, hclosed]
      simp [payloads]
      omega
    subst hnil
    exact ⟨.stop rfl, fun hne => absurd hclosed hne⟩
  rw [if_neg hzero]
  cases input with
  | nil =>
      rw [save_eq (Nat.zero_le _)]
      refine ⟨?_, u, .stay, ⟨h.framing.sid, h.framing.ends, h.framing.layout⟩,
        h.block, (fun hskip => by cases hskip)⟩
      rintro rfl
      have hle := h.framing.length_le
      rw [List.length_nil] at hle
      omega
  | cons ch rest =>
      have hu : u ≠ [] := by
        rw [← List.length_pos_iff_ne_nil]
        omega
      exact int_simulates h.framing hu hshort (.inr rfl) (fun _ => rfl) rfl
        (fun _ => .stay) fun _ _ _ => fieldLength_next

theorem callHandler_field (hfield : handler.IsField) :
    callHandler env handler s input = stateField (takeField env handler) handler s
      input := by
  obtain rfl | rfl | rfl := hfield
  · rfl
  · rfl
  · rfl

/-- The first bytes in the buffer are the first bytes of the block. -/
theorem Framing.take_eq {k : ℕ} (h : Framing further s (input ++ w) u conts)
    (hk : k ≤ s.length) (hinput : k ≤ input.length) :
    input.take k = u.take k := by
  obtain ⟨part, pad, hpart, -, hwire, hu⟩ := h.layout
  have hcut := congrArg (List.take k) hwire
  rw [List.take_append_of_le_length hinput,
    List.take_append_of_le_length (by omega)] at hcut
  rw [hu, List.take_append_of_le_length (by omega), hcut]

/-- Bytes that are no part of a string. -/
theorem field_fails {k : ℕ} {hpack : Hpack T S} (hfield : handler.IsField)
    (hk : k ≤ u.length) (hrest : k ≤ hpack.fieldRest)
    (htake : takeField env handler (hpack.setRest (hpack.fieldRest - k)) (u.take k) =
      none) :
    Decodes env handler hpack u hpack.failed ∧ ¬UsedUp env handler hpack u := by
  have hlen : (u.take k).length = k := by
    rw [List.length_take]
    omega
  have hwhole {m : ℕ} {b : List UInt8} (hm : b ≠ [] ∨ m ≠ 0)
      (hpos : hpack.fieldRest - k ≠ 0) :
      takeField env handler (hpack.setRest m) (u.take k ++ b) = none := by
    rw [takeField_append hpos hm, htake]
    rfl
  have hstop : blockStep env handler hpack u = .stop hpack.failed := by
    rw [blockStep_field hfield, fieldStep]
    by_cases hshort : u.length < hpack.fieldRest
    · rw [if_pos hshort]
    · rw [if_neg hshort]
      by_cases hpos : hpack.fieldRest - k = 0
      · have heq : k = hpack.fieldRest := by omega
        rw [hpos, heq] at htake
        rw [htake]
      · have hsplit : u.take hpack.fieldRest =
            u.take k ++ (u.drop k).take (hpack.fieldRest - k) := by
          rw [← List.take_add, Nat.add_sub_of_le hrest]
        have hne : (u.drop k).take (hpack.fieldRest - k) ≠ [] := by
          rw [← List.length_pos_iff_ne_nil, List.length_take, List.length_drop]
          omega
        rw [hsplit, hwhole (.inl hne) hpos]
  refine ⟨.stop hstop, ?_⟩
  intro h
  cases h with
  | complete => obtain h | h | h := hfield <;> cases h
  | fieldLen => obtain h | h | h := hfield <;> cases h
  | field _ hlt htake' =>
      rw [← List.take_append_drop k u, hwhole (.inr ?_) (by omega)] at htake'
      · cases htake'
      · rw [List.take_append_drop]
        omega
  | step _ hstep => cases hstep.symm.trans hstop

/-- The last bytes of a string. -/
theorem field_complete {k : ℕ} {hpack' : Hpack T S} (hfield : handler.IsField)
    (hall : k = s.hpack.fieldRest) (hku : k ≤ u.length)
    (hbytes : takeField env handler (s.hpack.setRest (s.hpack.fieldRest - k)) (u.take k) =
      some hpack')
    (hframing : Framing further { s with length := s.length - k, hpack := hpack' }
      (input.drop k ++ w) (u.drop k) conts) :
    Simulates env further handler s.hpack input w u conts
      (.call .processHeader { s with length := s.length - k, hpack := hpack' }
        (input.drop k)) := by
  have hstep : blockStep env handler s.hpack u =
      .more .processHeader hpack' (u.drop k) := by
    rw [blockStep_field hfield, fieldStep, if_neg (by omega), ← hall]
    rw [hall, Nat.sub_self, ← hall] at hbytes
    rw [hbytes]
  refine ⟨u.drop k, .step (.inr ?_) hstep, ?_, hframing,
    (fun hblock => by cases hblock), (fun hskip => by cases hskip)⟩
  · exact fun hint => absurd hint (not_startsInt hfield)
  · have hrank : handler.rank = 4 := by
      obtain rfl | rfl | rfl := hfield
      · rfl
      · rfl
      · rfl
    rw [weight, weight, List.length_drop, hrank, Handler.rank]
    omega

/-- More bytes of a string, which goes on in this frame or in the next one. -/
theorem field_goes_on {k : ℕ} {hpack' : Hpack T S} (hfield : handler.IsField)
    (h : Ready further handler s (input ++ w) u conts)
    (hk : k = min (min input.length s.hpack.fieldRest) s.length)
    (hulen : (u.take k).length = k)
    (hbytes : takeField env handler (s.hpack.setRest (s.hpack.fieldRest - k)) (u.take k) =
      some hpack')
    (hdone : hpack'.fieldRest ≠ 0)
    (hframing : Framing further { s with length := s.length - k, hpack := hpack' }
      (input.drop k ++ w) (u.drop k) conts) :
    Simulates env further handler s.hpack input w u conts
      (if s.length - k ≠ 0 then
        ngxHttpV2StateSave { s with length := s.length - k, hpack := hpack' } (input.drop k)
          handler
      else if endHeaders s.flags then
        ngxHttpV2ConnectionError { s with length := s.length - k, hpack := hpack' }
      else ngxHttpV2HandleContinuation { s with length := s.length - k, hpack := hpack' }
        (input.drop k) handler) := by
  have hrest : hpack'.fieldRest = s.hpack.fieldRest - k := (takeField_keeps hbytes).2.2
  have hlen := h.framing.length_eq
  have hnotBlock : handler ≠ .headerBlock := by
    rintro rfl
    obtain h | h | h := hfield <;> cases h
  have hnotSkip : handler ≠ .skip := by
    rintro rfl
    obtain h | h | h := hfield <;> cases h
  have hmoves : Moves env (conts = []) handler s.hpack u handler hpack'
      (u.drop k) := by
    have hpiece : Moves env (conts = []) handler s.hpack
        (u.take k ++ u.drop k) handler hpack' (u.drop k) := by
      refine .piece hfield ?_ ?_
      · rw [hulen]
        omega
      · rw [hulen]
        exact hbytes
    rwa [List.take_append_drop] at hpiece
  by_cases hmore : s.length - k ≠ 0
  · rw [if_pos hmore]
    have hnil : input.drop k = [] := List.drop_eq_nil_of_le (by omega)
    rw [hnil, save_eq (Nat.zero_le _)]
    rw [hnil] at hframing
    refine ⟨?_, u.drop k, hmoves,
      ⟨hframing.sid, hframing.ends, hframing.layout⟩,
      fun h => absurd h hnotBlock, fun h => absurd h hnotSkip⟩
    rintro rfl
    have hle := hframing.length_le
    simp only [List.length_nil] at hle
    omega
  rw [if_neg hmore]
  by_cases hflags : endHeaders s.flags = true
  · -- The block ends inside the string.
    rw [if_pos hflags]
    have hclosed := h.framing.no_next hflags
    have hshort : u.length < s.hpack.fieldRest := by
      rw [hlen, hclosed]
      simp [payloads]
      omega
    refine ⟨.stop ?_, fun hne => absurd hclosed hne⟩
    obtain ⟨hfields, htable, -⟩ := takeField_keeps hbytes
    rw [blockStep_field hfield, fieldStep, if_pos hshort]
    change BlockStep.stop s.hpack.failed = .stop hpack'.failed
    rw [Hpack.failed, Hpack.failed, hfields, htable]
    rfl
  · rw [if_neg hflags]
    obtain ⟨c, conts, rfl⟩ := h.framing.exists_next (by simpa using hflags)
    refine (handleContinuation_continued hframing ?_).simulates hframing hmoves
      ?_ (fun h => absurd h hnotBlock) hnotSkip ?_ (.inr ?_)
    · rw [intOctets]
      change s.length - k < 4
      omega
    · rw [List.length_drop]
      omega
    · exact fun _ => .field hfield (Nat.pos_of_ne_zero hdone)
        (takeField_nil hdone)
    · change s.length - k = 0
      omega

theorem field_simulates (hfield : handler.IsField)
    (h : Ready further handler s (input ++ w) u conts) :
    Simulates env further handler s.hpack input w u conts
      (callHandler env handler s input) := by
  obtain ⟨k, hk⟩ : ∃ k, k = min (min input.length s.hpack.fieldRest) s.length :=
    ⟨_, rfl⟩
  have hlen := h.framing.length_eq
  have hkl : k ≤ s.length := by omega
  have hki : k ≤ input.length := by omega
  have htake := h.framing.take_eq hkl hki
  have hulen : (u.take k).length = k := by
    rw [List.length_take]
    omega
  rw [callHandler_field hfield, stateField]
  simp only [← hk, htake]
  cases hbytes : takeField env handler
      (s.hpack.setRest (s.hpack.fieldRest - k)) (u.take k) with
  | none =>
      obtain ⟨hfails, hused⟩ :=
        field_fails hfield (by omega) (by omega) hbytes
      have hbytes' : takeField env handler
          { s.hpack with fieldRest := s.hpack.fieldRest - k } (u.take k) = none :=
        hbytes
      simp only [hbytes']
      exact ⟨hfails, fun _ => hused⟩
  | some hpack' =>
      have hbytes' : takeField env handler
          { s.hpack with fieldRest := s.hpack.fieldRest - k } (u.take k) =
            some hpack' :=
        hbytes
      have hrest : hpack'.fieldRest = s.hpack.fieldRest - k :=
        (takeField_keeps hbytes).2.2
      have hframing : Framing further
          { s with length := s.length - k, hpack := hpack' } (input.drop k ++ w)
          (u.drop k) conts := h.framing.drop hkl hki
      simp only [hbytes']
      by_cases hdone : hpack'.fieldRest = 0
      · rw [if_pos hdone]
        exact field_complete hfield (by omega) (by omega) hbytes hframing
      · rw [if_neg hdone]
        exact field_goes_on hfield h hk hulen hbytes hdone hframing

theorem toStream_next {hpack hp : Hpack T S} {next : Handler}
    (h : hpack.toStream env = .ok (next, hp)) : next = .headerComplete := by
  rw [Hpack.toStream] at h
  repeat' split at h
  all_goals cases h
  all_goals rfl

theorem toTable_next {hpack hp : Hpack T S} {next : Handler}
    (h : hpack.toTable env = .ok (next, hp)) : next = .headerComplete := by
  simp only [Hpack.toTable] at h
  repeat' split at h
  all_goals first | exact toStream_next h | cases h

theorem processHeader_next {hpack hp : Hpack T S} {next : Handler}
    (h : hpack.processHeader env = .ok (next, hp)) :
    next = .fieldLen ∨ next = .headerComplete := by
  simp only [Hpack.processHeader] at h
  repeat' split at h
  · cases h
  · cases h
    exact .inl rfl
  · exact .inr (toTable_next h)
  · exact .inr (toTable_next h)

theorem processHeader_simulates
    (h : Ready further .processHeader s (input ++ w) u conts) :
    Simulates env further .processHeader s.hpack input w u conts
      (ngxHttpV2StateProcessHeader env s input) := by
  have hblock : blockStep env .processHeader s.hpack u =
      .resume u (s.hpack.processHeader env) := by
    rw [blockStep]
  rw [ngxHttpV2StateProcessHeader]
  cases hp : s.hpack.processHeader env with
  | error hpack' =>
      rw [hp] at hblock
      refine ⟨.stop hblock, ?_⟩
      intro _ husedUp
      cases husedUp with
      | field hfield => obtain h | h | h := hfield <;> cases h
      | step _ hstep => cases hstep.symm.trans hblock
  | ok r =>
      obtain ⟨next, hpack'⟩ := r
      rw [hp] at hblock
      have hframing : Framing further { s with length := s.length, hpack := hpack' }
          (input ++ w) u conts :=
        ⟨h.framing.sid, h.framing.ends, h.framing.layout⟩
      have hint : ¬Handler.StartsInt .processHeader := not_or.mpr ⟨by decide, by decide⟩
      refine ⟨u, .step (.inr fun h => absurd h hint) hblock, ?_, hframing, ?_, ?_⟩
      · obtain rfl | rfl := processHeader_next hp
        · exact Nat.add_lt_add_left (by decide) _
        · exact Nat.add_lt_add_left (by decide) _
      · obtain rfl | rfl := processHeader_next hp
        · exact fun hnext => by cases hnext
        · exact fun hnext => by cases hnext
      · obtain rfl | rfl := processHeader_next hp
        · exact fun hnext => by cases hnext
        · exact fun hnext => by cases hnext

theorem headerComplete_simulates
    (h : Ready further .headerComplete s (input ++ w) u conts) :
    Simulates env further .headerComplete s.hpack input w u conts
      (ngxHttpV2StateHeaderComplete s input) := by
  have hlen := h.framing.length_eq
  rw [ngxHttpV2StateHeaderComplete]
  by_cases hmore : s.length ≠ 0
  · rw [if_pos hmore]
    obtain ⟨ch, rest, rfl⟩ : ∃ ch rest, u = ch :: rest :=
      List.exists_cons_of_ne_nil (by rintro rfl; simp at hlen; omega)
    have hmoves : Moves env (conts = []) .headerComplete s.hpack (ch :: rest)
        .headerBlock s.hpack (ch :: rest) := .step (.inr nofun) rfl
    by_cases hinput : input ≠ []
    · rw [if_pos hinput]
      refine ⟨_, hmoves, Nat.add_lt_add_left
        (show Handler.rank .headerBlock < Handler.rank .headerComplete by decide) _,
        .inl ⟨hinput, ?_⟩⟩
      exact ⟨⟨h.framing.sid, h.framing.ends, h.framing.layout⟩, fun _ => nofun, nofun⟩
    · rw [if_neg hinput]
      have hnil : input = [] := not_not.mp hinput
      subst hnil
      rw [save_eq (Nat.zero_le _)]
      refine ⟨?_, _, hmoves, ⟨h.framing.sid, h.framing.ends, h.framing.layout⟩,
        fun _ => nofun, nofun⟩
      exact h.framing.wire_ne_nil nofun
  rw [if_neg hmore]
  have hzero : s.length = 0 := not_not.mp hmore
  by_cases hflags : endHeaders s.flags = false
  · rw [if_pos hflags]
    obtain ⟨c, conts, rfl⟩ := h.framing.exists_next hflags
    refine (handleContinuation_continued h.framing ?_).simulates h.framing .stay
      (Nat.le_refl _) nofun nofun (fun _ => .complete) (.inr hzero)
    rw [hzero]
    decide
  rw [if_neg hflags]
  have hclosed : conts = [] := h.framing.no_next (by simpa using hflags)
  subst hclosed
  obtain ⟨part, pad, hpart, hpad, hwire, hu⟩ := h.framing.layout
  have hnil : part = [] := by
    rw [← List.length_eq_zero_iff, hpart, hzero]
  subst hnil
  have hu' : u = [] := hu
  subst hu'
  by_cases hpadding : s.padding ≠ 0
  · rw [if_pos hpadding]
    refine ⟨pad, .finish rfl, Nat.add_lt_add_left (by decide) _, ⟨h.framing.sid,
      h.framing.ends, pad, [], ?_, rfl, hwire, ?_⟩, nofun, fun _ => ⟨rfl, rfl⟩⟩
    · change pad.length = s.length + s.padding
      omega
    · exact (List.append_nil pad).symm
  · rw [if_neg hpadding]
    have hnopad : pad = [] := by
      rw [← List.length_eq_zero_iff]
      omega
    subst hnopad
    exact ⟨.stop rfl, hwire, rfl⟩

theorem skip_simulates (h : Ready further .skip s (input ++ w) u conts) :
    Simulates env further .skip s.hpack input w u conts
      (ngxHttpV2StateSkip s input) := by
  obtain ⟨hclosed, hpadding⟩ := h.skip rfl
  subst hclosed
  rw [ngxHttpV2StateSkip]
  by_cases hshort : input.length < s.length
  · rw [if_pos hshort, save_eq (Nat.zero_le _)]
    have hframing : Framing further
        { s with length := s.length - input.length, hpack := s.hpack }
        (input.drop input.length ++ w) (u.drop input.length) [] :=
      h.framing.drop (Nat.le_of_lt hshort) (Nat.le_refl _)
    rw [List.drop_length] at hframing
    refine ⟨?_, _, .skip rfl, ⟨hframing.sid, hframing.ends, hframing.layout⟩, nofun,
      fun _ => ⟨rfl, hpadding⟩⟩
    rintro rfl
    have hle := h.framing.length_le
    rw [List.length_nil] at hle
    omega
  · rw [if_neg hshort]
    obtain ⟨part, pad, hpart, hpad, hwire, hu⟩ := h.framing.layout
    have hnopad : pad = [] := by
      rw [← List.length_eq_zero_iff, hpad, hpadding]
    subst hnopad
    obtain ⟨x, rfl, hx⟩ := append_split hwire (by omega)
    refine ⟨.stop rfl, ?_, rfl⟩
    rw [← hpart, List.drop_left]
    exact hx

/-- A call of a handler does what can be seen in the block as a whole. -/
theorem callHandler_simulates (h : Ready further handler s (input ++ w) u conts) :
    Simulates env further handler s.hpack input w u conts
      (callHandler env handler s input) := by
  cases handler with
  | headerBlock => exact headerBlock_simulates h
  | fieldLen => exact fieldLen_simulates h
  | fieldHuff => exact field_simulates (.inl rfl) h
  | fieldRaw => exact field_simulates (.inr (.inl rfl)) h
  | fieldSkip => exact field_simulates (.inr (.inr rfl)) h
  | processHeader => exact processHeader_simulates h
  | headerComplete => exact headerComplete_simulates h
  | skip => exact skip_simulates h

end Calls

end MultiversionBalancer.Http2
