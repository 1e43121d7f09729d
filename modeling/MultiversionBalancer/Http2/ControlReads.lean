import MultiversionBalancer.Http2.Control
import MultiversionBalancer.Http2.Framing
import Mathlib.Data.List.GetD

/-!
# Control frames under every cut into reads

A handler that is called again begins anew.  RST_STREAM, PING and WINDOW_UPDATE do
nothing before they are whole; PRIORITY counts itself once for each call, and
SETTINGS forgets the window that it has read in an earlier call.
-/

namespace MultiversionBalancer.Http2

variable {C : Type*} {calls : Calls C}

/-! ## Frames -/

/-- The types of control frames. -/
inductive ControlType where
  | priority
  | rstStream
  | settings
  | ping
  | windowUpdate

def ControlType.code : ControlType → ℕ
  | .priority => 0x2
  | .rstStream => 0x3
  | .settings => 0x4
  | .ping => 0x6
  | .windowUpdate => 0x8

structure ControlFrame where
  type : ControlType
  flags : UInt8
  reserved : Bool
  sid : ℕ
  payload : List UInt8
  sid_lt : sid < 2 ^ 31
  fits : payload.length < 2 ^ 24

def ControlFrame.head (frame : ControlFrame) : List UInt8 :=
  uint32Bytes (frame.payload.length * 2 ^ 8 + frame.type.code) ++
    (frame.flags :: uint32Bytes (frame.sid + if frame.reserved then 2 ^ 31 else 0))

def ControlFrame.bytes (frame : ControlFrame) : List UInt8 :=
  frame.head ++ frame.payload

def ControlFrame.state (frame : ControlFrame) (conn : Conn C) (handler : ControlHandler)
    (buffer : List UInt8) : ControlState C where
  conn := conn
  sid := frame.sid
  length := frame.payload.length
  flags := frame.flags
  buffer := buffer
  handler := handler

theorem controlHead_length (frame : ControlFrame) :
    frame.head.length = frameHeaderSize := rfl

theorem stateHead_frame (frame : ControlFrame) (s : ControlState C)
    (x : List UInt8) :
    ngxHttpV2StateHead calls s (frame.head ++ x) =
      frameStates calls frame.type.code (frame.state s.conn s.handler s.buffer) x := by
  have hfits := frame.fits
  have hsid := frame.sid_lt
  have hcode : frame.type.code < 2 ^ 8 := by
    cases frame.type <;> decide
  have hword : parseUint32 (frame.head ++ x) =
      frame.payload.length * 2 ^ 8 + frame.type.code := by
    rw [ControlFrame.head, List.append_assoc, parseUint32_bytes]
    omega
  have hid : parseSid ((frame.head ++ x).drop 5) = frame.sid := by
    have hdrop : (frame.head ++ x).drop 5 =
        uint32Bytes (frame.sid + if frame.reserved then 2 ^ 31 else 0) ++ x := rfl
    rw [hdrop, parseSid, parseUint32_bytes]
    · split
      · omega
      · omega
    · split
      · omega
      · omega
  have hlen : ¬(frame.head ++ x).length < frameHeaderSize := by
    rw [List.length_append, controlHead_length]
    omega
  rw [ngxHttpV2StateHead, if_neg hlen]
  simp only [hword, hid, parseType, parseLength]
  have htype : (frame.payload.length * 2 ^ 8 + frame.type.code) % 2 ^ 8 =
      frame.type.code := by omega
  have hlength : (frame.payload.length * 2 ^ 8 + frame.type.code) / 2 ^ 8 =
      frame.payload.length := by omega
  rw [htype, hlength]
  rfl

/-! ## Reads -/

def bytesBefore : ℕ → List (List UInt8) → ℕ
  | _, [] => 0
  | total, read :: reads =>
      if total ≤ read.length then 0
      else read.length + bytesBefore (total - read.length) reads

/-- What follows a handler. -/
def ControlAction.after (calls : Calls C) (reads : List (List UInt8)) :
    ControlAction C → ControlEnd C
  | .complete conn rest => .complete conn (rest ++ reads.flatten)
  | .error status conn => .error status conn
  | .save s => readControl calls s reads
  | .other s rest => .other s (rest ++ reads.flatten)

theorem readControl_cons (s : ControlState C) (read : List UInt8)
    (reads : List (List UInt8)) :
    readControl calls s (read :: reads) =
      (callControl calls s (s.buffer ++ read)).after calls reads := by
  rw [readControl]
  cases callControl calls s (s.buffer ++ read) with
  | complete conn rest => rfl
  | error status conn => rfl
  | save s => rfl
  | other s rest => rfl

theorem readControl_head {frame : ControlFrame} {s : ControlState C}
    {reads : List (List UInt8)} {y : List UInt8} (hhandler : s.handler = .head)
    (hbuffer : s.buffer.length < frameHeaderSize)
    (hcut : s.buffer ++ reads.flatten = frame.head ++ y) :
    ∃ x back, x ++ back.flatten = y ∧ (∀ read ∈ back, read ∈ reads) ∧
      (∃ handler buffer, readControl calls s reads =
        (frameStates calls frame.type.code (frame.state s.conn handler buffer) x).after
          calls back) ∧
      (∀ len, len ≤ x.length →
        s.buffer.length + bytesBefore (frameHeaderSize + len - s.buffer.length) reads <
          frameHeaderSize) ∧
      ∀ len, x.length < len →
        s.buffer.length + bytesBefore (frameHeaderSize + len - s.buffer.length) reads =
          frameHeaderSize + x.length + bytesBefore (len - x.length) back := by
  induction reads generalizing s with
  | nil =>
      have hlen := congrArg List.length hcut
      rw [List.length_append, List.length_append, controlHead_length, List.flatten_nil,
        List.length_nil] at hlen
      omega
  | cons read reads ih =>
      rw [List.flatten_cons, ← List.append_assoc] at hcut
      rw [readControl_cons, callControl, hhandler]
      by_cases hshort : (s.buffer ++ read).length < frameHeaderSize
      · have hsave : ngxHttpV2StateHead calls s (s.buffer ++ read) =
            .save { s with buffer := s.buffer ++ read, handler := .head } := by
          rw [ngxHttpV2StateHead, if_pos hshort, ControlState.save, if_neg]
          rw [frameHeaderSize] at hshort
          rw [stateBufferSize]
          omega
        obtain ⟨x, back, hy, hmem, hread, hle, hlt⟩ := @ih
          { s with buffer := s.buffer ++ read, handler := .head } rfl hshort hcut
        rw [List.length_append] at hle hlt hshort
        simp only [hsave]
        refine ⟨x, back, hy, fun y h => List.mem_cons_of_mem _ (hmem y h), hread, ?_, ?_⟩
        · intro len hlen
          have hbefore := hle len hlen
          rw [bytesBefore, if_neg (by omega)]
          have hsub : frameHeaderSize + len - s.buffer.length - read.length =
              frameHeaderSize + len - (s.buffer.length + read.length) := by omega
          rw [hsub]
          omega
        · intro len hlen
          have hbefore := hlt len hlen
          rw [bytesBefore, if_neg (by omega)]
          have hsub : frameHeaderSize + len - s.buffer.length - read.length =
              frameHeaderSize + len - (s.buffer.length + read.length) := by omega
          rw [hsub]
          omega
      · have hge : frame.head.length ≤ (s.buffer ++ read).length :=
          Nat.le_of_not_lt hshort
        obtain ⟨x, hx, hy⟩ := append_split hcut hge
        have hxlen := congrArg List.length hx
        rw [List.length_append, List.length_append, controlHead_length] at hxlen
        refine ⟨x, reads, hy, fun y h => List.mem_cons_of_mem _ h,
          ⟨.head, s.buffer, ?_⟩, ?_, ?_⟩
        · rw [hx, stateHead_frame, hhandler]
        · intro len hlen
          rw [bytesBefore, if_pos (by omega)]
          omega
        · intro len hlen
          rw [bytesBefore, if_neg (by omega)]
          have hsub : frameHeaderSize + len - s.buffer.length - read.length =
              len - x.length := by omega
          rw [hsub]
          omega

/-! ## Frames that wait for their last byte -/

/-- Bytes that a handler does not look at. -/
def ControlAction.extend (more : List UInt8) : ControlAction C → ControlAction C
  | .complete conn rest => .complete conn (rest ++ more)
  | .error status conn => .error status conn
  | .save s => .save s
  | .other s rest => .other s (rest ++ more)

/-- A handler that does nothing before `n` bytes are there. -/
def fixedHandler (n : ℕ) (handler : ControlHandler)
    (done : ControlState C → List UInt8 → ControlAction C) (s : ControlState C)
    (input : List UInt8) : ControlAction C :=
  if s.length ≠ n then .error .sizeError s.conn
  else if input.length < n then s.save input handler
  else done s input

/-- What is done with the `n` bytes does not depend on how they came. -/
structure WaitsFor (calls : Calls C) (n : ℕ) (handler : ControlHandler)
    (done : ControlState C → List UInt8 → ControlAction C) : Prop where
  size : n ≤ stateBufferSize
  call : ∀ s input, s.handler = handler →
    callControl calls s input = fixedHandler n handler done s input
  same : ∀ s buffer handler' input,
    done { s with buffer := buffer, handler := handler' } input = done s input
  extend : ∀ s input more, s.length = n → n ≤ input.length →
    done s (input ++ more) = (done s input).extend more
  ends : ∀ s input s', s.length = n → n ≤ input.length → done s input ≠ .save s'

theorem extend_after {action : ControlAction C} (h : ∀ s, action ≠ .save s)
    (reads : List (List UInt8)) :
    action.after calls reads = (action.extend reads.flatten).after calls [] := by
  cases action with
  | complete conn rest => exact congrArg _ (List.append_nil _).symm
  | error status conn => rfl
  | save s => exact absurd rfl (h s)
  | other s rest => exact congrArg _ (List.append_nil _).symm

theorem WaitsFor.after {n : ℕ} {handler : ControlHandler}
    {done : ControlState C → List UInt8 → ControlAction C}
    (h : WaitsFor calls n handler done) {s : ControlState C} {x : List UInt8}
    {back : List (List UInt8)} (hlen : s.length = n → n ≤ (x ++ back.flatten).length) :
    (fixedHandler n handler done s x).after calls back =
      (fixedHandler n handler done s (x ++ back.flatten)).after calls [] := by
  by_cases hlength : s.length = n
  swap
  · rw [fixedHandler, fixedHandler, if_pos hlength, if_pos hlength]
    rfl
  induction back generalizing s x with
  | nil => rw [List.flatten_nil, List.append_nil]
  | cons read back ih =>
      by_cases hshort : x.length < n
      · have hsave : fixedHandler n handler done s x =
            .save { s with buffer := x, handler := handler } := by
          have hsize := h.size
          rw [fixedHandler, if_neg (not_not.mpr hlength), if_pos hshort,
            ControlState.save, if_neg (by omega)]
        rw [List.flatten_cons, ← List.append_assoc] at hlen ⊢
        have hrest := @ih { s with buffer := x, handler := handler } (x ++ read) hlen
          hlength
        have hfull : ¬((x ++ read) ++ back.flatten).length < n :=
          Nat.not_lt.mpr (hlen hlength)
        rw [hsave, ControlAction.after, readControl_cons, h.call _ _ rfl, hrest,
          fixedHandler, fixedHandler, if_neg (not_not.mpr hlength),
          if_neg (not_not.mpr hlength), if_neg hfull, if_neg hfull, h.same]
      · have hle := Nat.le_of_not_lt hshort
        have hdone (input : List UInt8) (hinput : n ≤ input.length) :
            fixedHandler n handler done s input = done s input := by
          rw [fixedHandler, if_neg (not_not.mpr hlength), if_neg (Nat.not_lt.mpr hinput)]
        rw [hdone x hle, hdone _ (hlen hlength), h.extend s x _ hlength hle]
        exact extend_after (fun s' => h.ends s x s' hlength hle) _

theorem drop_append_of_le {n : ℕ} {input : List UInt8} (more : List UInt8)
    (h : n ≤ input.length) : (input ++ more).drop n = input.drop n ++ more :=
  List.drop_append_of_le_length h

theorem parseUint32_append {input : List UInt8} (more : List UInt8)
    (h : 4 ≤ input.length) : parseUint32 (input ++ more) = parseUint32 input := by
  have hget (i : ℕ) (hi : i < 4) : (input ++ more).getD i 0 = input.getD i 0 :=
    List.getD_append _ _ _ _ (by omega)
  rw [parseUint32, parseUint32, hget 0 (by decide), hget 1 (by decide),
    hget 2 (by decide), hget 3 (by decide)]

def rstStreamDone (calls : Calls C) (s : ControlState C) (input : List UInt8) :
    ControlAction C :=
  if s.sid = 0 then .error .protocolError s.conn
  else if s.conn.streamWindow s.sid = none then .complete s.conn (input.drop 4)
  else .complete (calls.reset s.conn s.sid (parseUint32 input)) (input.drop 4)

theorem rstStream_waitsFor :
    WaitsFor calls 4 .rstStream (rstStreamDone calls) where
  size := by decide
  call := by
    intro s input hhandler
    rw [callControl, hhandler]
    rfl
  same := fun _ _ _ _ => rfl
  extend := by
    intro s input more _ hle
    rw [rstStreamDone, rstStreamDone, drop_append_of_le more hle,
      parseUint32_append more hle]
    repeat' split
    all_goals rfl
  ends := by
    intro s input s' _ _
    rw [rstStreamDone]
    repeat' split
    all_goals nofun

def pingDone (s : ControlState C) (input : List UInt8) : ControlAction C :=
  if s.sid ≠ 0 then .error .protocolError s.conn
  else if s.flags &&& ackFlag ≠ 0 then stateSkip s input
  else
    .complete { s.conn with queued := s.conn.queued ++ [.pingAck (input.take 8)] }
      (input.drop 8)

theorem stateSkip_complete {s : ControlState C} {input : List UInt8}
    (h : s.length ≤ input.length) :
    stateSkip s input = .complete s.conn (input.drop s.length) :=
  if_neg (Nat.not_lt.mpr h)

theorem ping_waitsFor : WaitsFor calls 8 .ping pingDone where
  size := by decide
  call := by
    intro s input hhandler
    rw [callControl, hhandler]
    rfl
  same := fun _ _ _ _ => rfl
  extend := by
    intro s input more hlength hle
    have hle' : 8 ≤ (input ++ more).length := by
      rw [List.length_append]
      omega
    rw [pingDone, pingDone, stateSkip_complete (by rwa [hlength]),
      stateSkip_complete (by rwa [hlength]), hlength, drop_append_of_le more hle,
      List.take_append_of_le_length hle]
    repeat' split
    all_goals rfl
  ends := by
    intro s input s' hlength hle
    rw [pingDone, stateSkip_complete (by rwa [hlength])]
    repeat' split
    all_goals nofun

def windowUpdateDone (calls : Calls C) (s : ControlState C) (input : List UInt8) :
    ControlAction C :=
  let window := parseUint32 input % 2 ^ 31
  if window = 0 then .error .protocolError s.conn
  else if s.sid ≠ 0 then updateStream calls s.conn s.sid window (input.drop 4)
  else if maxWindow - s.conn.sendWindow < window then .error .flowCtrlError s.conn
  else
    .complete (calls.wakeWaiting
      { s.conn with sendWindow := s.conn.sendWindow + window }) (input.drop 4)

theorem updateStream_extend (conn : Conn C) (sid window : ℕ) (input more : List UInt8) :
    updateStream calls conn sid window (input ++ more) =
      (updateStream calls conn sid window input).extend more := by
  simp only [updateStream]
  repeat' split
  all_goals rfl

theorem updateStream_ends (conn : Conn C) (sid window : ℕ) (input : List UInt8)
    (s' : ControlState C) : updateStream calls conn sid window input ≠ .save s' := by
  simp only [updateStream]
  repeat' split
  all_goals nofun

theorem windowUpdate_waitsFor :
    WaitsFor calls 4 .windowUpdate (windowUpdateDone calls) where
  size := by decide
  call := by
    intro s input hhandler
    rw [callControl, hhandler]
    rfl
  same := fun _ _ _ _ => rfl
  extend := by
    intro s input more _ hle
    simp only [windowUpdateDone, drop_append_of_le more hle, parseUint32_append more hle,
      updateStream_extend]
    repeat' split
    all_goals rfl
  ends := by
    intro s input s' _ _
    simp only [windowUpdateDone]
    repeat' split
    · exact fun hsave => by cases hsave
    · exact updateStream_ends _ _ _ _ _
    · exact fun hsave => by cases hsave
    · exact fun hsave => by cases hsave

/-! ## PRIORITY -/

def ControlEnd.conn : ControlEnd C → Conn C
  | .complete conn _ => conn
  | .error _ conn => conn
  | .waiting s => s.conn
  | .other s _ => s.conn

section Priority

variable {s : ControlState C}

theorem applyPriority_limit (input : List UInt8) (reads : List (List UInt8)) :
    ((applyPriority calls s input).after calls reads).conn.priorityLimit =
      s.conn.priorityLimit := by
  simp only [applyPriority]
  repeat' split
  · rfl
  · rfl
  · exact calls.prioritise_limit _ _ _ _ _
  · exact calls.prioritise_limit _ _ _ _ _

theorem sub_one_sub_ofNat (limit : UInt64) (j : ℕ) :
    limit - 1 - UInt64.ofNat j = limit - UInt64.ofNat (j + 1) := by
  have hone : UInt64.ofNat 1 = 1 := rfl
  rw [UInt64.ofNat_add, hone]
  generalize UInt64.ofNat j = k
  grind

/-- A call for a part of the frame, and the next one. -/
theorem priority_again {x read : List UInt8} {back : List (List UInt8)}
    (hlength : s.length = 5) (hlimit : s.conn.decreaseLimit.priorityLimit ≠ 0)
    (hshort : x.length < 5) :
    (ngxHttpV2StatePriority calls s x).after calls (read :: back) =
      (ngxHttpV2StatePriority calls
        { s with conn := s.conn.decreaseLimit, buffer := x, handler := .priority }
        (x ++ read)).after calls back := by
  have hsave : ngxHttpV2StatePriority calls s x =
      .save { s with conn := s.conn.decreaseLimit, buffer := x, handler := .priority } := by
    rw [ngxHttpV2StatePriority, if_neg (not_not.mpr hlength)]
    simp only
    rw [if_neg hlimit, if_pos hshort, ControlState.save, if_neg]
    rw [stateBufferSize]
    omega
  rw [hsave, ControlAction.after, readControl_cons, callControl]

theorem priority_last {x : List UInt8} (back : List (List UInt8))
    (hlength : s.length = 5)
    (hdone : s.conn.decreaseLimit.priorityLimit = 0 ∨ 5 ≤ x.length) :
    ((ngxHttpV2StatePriority calls s x).after calls back).conn.priorityLimit =
      s.conn.priorityLimit - 1 := by
  rw [ngxHttpV2StatePriority, if_neg (not_not.mpr hlength)]
  simp only
  by_cases hzero : s.conn.decreaseLimit.priorityLimit = 0
  · rw [if_pos hzero]
    rfl
  · rw [if_neg hzero, if_neg (Nat.not_lt.mpr (hdone.resolve_left hzero))]
    exact applyPriority_limit _ _

/-- Every call of the handler counts. -/
theorem priority_limit {x : List UInt8} {back : List (List UInt8)}
    (hlength : s.length = 5) (hback : ∀ read ∈ back, read ≠ [])
    (hlen : 5 ≤ (x ++ back.flatten).length) :
    ∃ j : ℕ, 1 ≤ j ∧ j ≤ 1 + (5 - x.length) ∧
      ((ngxHttpV2StatePriority calls s x).after calls back).conn.priorityLimit =
        s.conn.priorityLimit - UInt64.ofNat j := by
  induction back generalizing s x with
  | nil =>
      rw [List.flatten_nil, List.append_nil] at hlen
      exact ⟨1, by omega, by omega, priority_last _ hlength (.inr hlen)⟩
  | cons read back ih =>
      by_cases hdone : s.conn.decreaseLimit.priorityLimit = 0 ∨ 5 ≤ x.length
      · exact ⟨1, by omega, by omega, priority_last _ hlength hdone⟩
      rw [not_or, Nat.not_le] at hdone
      obtain ⟨hread, hback⟩ := List.forall_mem_cons.mp hback
      have hpos := List.length_pos_iff_ne_nil.mpr hread
      rw [List.flatten_cons, ← List.append_assoc] at hlen
      obtain ⟨j, hj, hle, hlimit⟩ := @ih
        { s with conn := s.conn.decreaseLimit, buffer := x, handler := .priority }
        (x ++ read) hlength hback hlen
      rw [List.length_append] at hle
      refine ⟨j + 1, by omega, by omega, ?_⟩
      rw [priority_again hlength hdone.1 hdone.2, hlimit, ← sub_one_sub_ofNat]
      rfl

/-- A frame that comes in parts counts more than once. -/
theorem priority_limit_ne {x read : List UInt8} {back : List (List UInt8)}
    (hlength : s.length = 5) (hlimit : s.conn.priorityLimit ≠ 1) (hshort : x.length < 5)
    (hback : ∀ y ∈ read :: back, y ≠ [])
    (hlen : 5 ≤ (x ++ (read :: back).flatten).length) :
    ((ngxHttpV2StatePriority calls s x).after calls (read :: back)).conn.priorityLimit ≠
      s.conn.priorityLimit - 1 := by
  have hlimit' : s.conn.decreaseLimit.priorityLimit ≠ 0 := by
    change s.conn.priorityLimit - 1 ≠ 0
    intro hzero
    exact hlimit (by grind)
  obtain ⟨hread, hback⟩ := List.forall_mem_cons.mp hback
  rw [List.flatten_cons, ← List.append_assoc] at hlen
  obtain ⟨j, hj, hle, hcount⟩ := @priority_limit C calls
    { s with conn := s.conn.decreaseLimit, buffer := x, handler := .priority }
    (x ++ read) back hlength hback hlen
  rw [priority_again hlength hlimit' hshort, hcount]
  change s.conn.priorityLimit - 1 - UInt64.ofNat j ≠ s.conn.priorityLimit - 1
  intro hsame
  have hzero : UInt64.ofNat j = 0 := by grind
  have hnat := congrArg UInt64.toNat hzero
  rw [UInt64.toNat_ofNat', UInt64.toNat_zero] at hnat
  omega

theorem applyPriority_extend {input : List UInt8} (more : List UInt8)
    (h : 5 ≤ input.length) :
    applyPriority calls s (input ++ more) = (applyPriority calls s input).extend more := by
  have hweight : (input ++ more).getD 4 0 = input.getD 4 0 :=
    List.getD_append _ _ _ _ (by omega)
  simp only [applyPriority, parseUint32_append more (Nat.le_of_succ_le h), hweight,
    drop_append_of_le more h]
  repeat' split
  all_goals rfl

theorem applyPriority_ends (input : List UInt8) (s' : ControlState C) :
    applyPriority calls s input ≠ .save s' := by
  simp only [applyPriority]
  repeat' split
  all_goals
    intro hsave
    cases hsave

/-- A call that finds the whole frame, or fails at once. -/
theorem priority_after {x : List UInt8} {back : List (List UInt8)}
    (hdone : s.length ≠ 5 ∨ s.conn.decreaseLimit.priorityLimit = 0 ∨ 5 ≤ x.length) :
    (ngxHttpV2StatePriority calls s x).after calls back =
      (ngxHttpV2StatePriority calls s (x ++ back.flatten)).after calls [] := by
  rw [ngxHttpV2StatePriority, ngxHttpV2StatePriority]
  by_cases hlength : s.length = 5
  swap
  · rw [if_pos hlength, if_pos hlength]
    rfl
  rw [if_neg (not_not.mpr hlength), if_neg (not_not.mpr hlength)]
  simp only
  by_cases hzero : s.conn.decreaseLimit.priorityLimit = 0
  · rw [if_pos hzero, if_pos hzero]
    rfl
  have hle : 5 ≤ x.length :=
    (hdone.resolve_left (not_not.mpr hlength)).resolve_left hzero
  have hle' : 5 ≤ (x ++ back.flatten).length := by
    rw [List.length_append]
    omega
  rw [if_neg hzero, if_neg hzero, if_neg (Nat.not_lt.mpr hle),
    if_neg (Nat.not_lt.mpr hle'), applyPriority_extend _ hle]
  exact extend_after (applyPriority_ends x) back

end Priority

/-! ## SETTINGS -/

def paramsOf : List UInt8 → List (ℕ × ℕ)
  | a :: b :: c :: d :: e :: f :: input =>
      (a.toNat * 2 ^ 8 + b.toNat, parseUint32 [c, d, e, f]) :: paramsOf input
  | _ => []

/-- What parameters do, but for the windows. -/
def applyParams (concurrentPushes : ℕ) :
    Conn C → List (ℕ × ℕ) → Except (Status × Conn C) (Conn C)
  | conn, [] => .ok conn
  | conn, param :: params =>
      match applyParam concurrentPushes conn param.1 param.2 with
      | .error r => .error r
      | .ok conn => applyParams concurrentPushes conn params

def windowDelta (initWindow : ℕ) (delta : ℤ) : List (ℕ × ℕ) → ℤ
  | [] => delta
  | param :: params =>
      windowDelta initWindow (paramDelta initWindow delta param.1 param.2) params

section Settings

variable {s : ControlState C}

theorem exists_six {n : ℕ} {x : List UInt8} (h : 6 * (n + 1) ≤ x.length) :
    ∃ a b c d e f rest, x = a :: b :: c :: d :: e :: f :: rest ∧ 6 * n ≤ rest.length := by
  match x, h with
  | a :: b :: c :: d :: e :: f :: rest, h =>
      refine ⟨a, b, c, d, e, f, rest, rfl, ?_⟩
      simp only [List.length_cons] at h
      omega

theorem applyParam_initWindow {concurrentPushes : ℕ} {conn conn' : Conn C}
    {id value : ℕ} (h : applyParam concurrentPushes conn id value = .ok conn') :
    conn'.initWindow = conn.initWindow := by
  rw [applyParam] at h
  repeat' split at h
  all_goals cases h
  all_goals rfl

theorem applyParams_initWindow {concurrentPushes : ℕ} {conn conn' : Conn C}
    {params : List (ℕ × ℕ)} (h : applyParams concurrentPushes conn params = .ok conn') :
    conn'.initWindow = conn.initWindow := by
  induction params generalizing conn with
  | nil =>
      cases h
      rfl
  | cons param params ih =>
      rw [applyParams] at h
      cases happly : applyParam concurrentPushes conn param.1 param.2 with
      | error r =>
          rw [happly] at h
          cases h
      | ok conn₁ =>
          rw [happly] at h
          exact (ih h).trans (applyParam_initWindow happly)

theorem settingsLoop_params {n k : ℕ} {x : List UInt8} {delta : ℤ}
    (hlength : s.length = 6 * (n + k)) (hx : 6 * n ≤ x.length) :
    settingsLoop calls s delta x =
      match applyParams calls.concurrentPushes s.conn (paramsOf (x.take (6 * n))) with
      | .error r => .error r.1 r.2
      | .ok conn =>
          settingsLoop calls { s with conn := conn, length := 6 * k }
            (windowDelta s.conn.initWindow delta (paramsOf (x.take (6 * n))))
            (x.drop (6 * n)) := by
  induction n generalizing s x delta with
  | zero =>
      rw [Nat.zero_add] at hlength
      rw [Nat.mul_zero, List.take_zero, List.drop_zero, ← hlength]
      rfl
  | succ n ih =>
      obtain ⟨a, b, c, d, e, f, rest, rfl, hrest⟩ := exists_six hx
      have htake : (a :: b :: c :: d :: e :: f :: rest).take (6 * (n + 1)) =
          a :: b :: c :: d :: e :: f :: rest.take (6 * n) := rfl
      have hdrop : (a :: b :: c :: d :: e :: f :: rest).drop (6 * (n + 1)) =
          rest.drop (6 * n) := rfl
      rw [htake, hdrop, paramsOf, applyParams, settingsLoop, if_neg (by omega)]
      simp only
      cases happly : applyParam calls.concurrentPushes s.conn (a.toNat * 2 ^ 8 + b.toNat)
          (parseUint32 [c, d, e, f]) with
      | error r => rfl
      | ok conn =>
          simp only
          rw [@ih { s with conn := conn, length := s.length - 6 } rest _
            (by change s.length - 6 = _; omega) hrest, windowDelta]
          rw [applyParam_initWindow happly]

theorem settingsLoop_end {delta : ℤ} {input : List UInt8} (hlength : s.length = 0) :
    settingsLoop calls s delta input = settingsEnd calls s.conn delta input := by
  rw [settingsLoop.eq_def]
  split
  · exact if_pos hlength
  · exact if_pos hlength

theorem settingsLoop_short {delta : ℤ} {input : List UInt8} (hlength : s.length ≠ 0)
    (hshort : input.length < 6) :
    settingsLoop calls s delta input =
      .save { s with buffer := input, handler := .settingsParams } := by
  have hsave : s.save input .settingsParams =
      .save { s with buffer := input, handler := .settingsParams } := by
    rw [ControlState.save, if_neg]
    rw [stateBufferSize]
    omega
  rw [settingsLoop.eq_def, ← hsave]
  split
  · simp only [List.length_cons] at hshort
    omega
  · exact if_neg hlength

theorem paramsOf_append {m : ℕ} {x : List UInt8} (y : List UInt8)
    (h : x.length = 6 * m) :
    paramsOf (x ++ y) = paramsOf x ++ paramsOf y ∧ (paramsOf x).length = m := by
  induction m generalizing x with
  | zero =>
      obtain rfl := List.length_eq_zero_iff.mp h
      exact ⟨rfl, rfl⟩
  | succ m ih =>
      obtain ⟨a, b, c, d, e, f, rest, rfl, -⟩ := exists_six (Nat.le_of_eq h.symm)
      have hrest : rest.length = 6 * m := by
        simp only [List.length_cons] at h
        omega
      obtain ⟨happend, hlength⟩ := ih hrest
      simp only [List.cons_append, paramsOf, happend, List.length_cons, hlength, true_and]

theorem applyParams_append (concurrentPushes : ℕ) (conn : Conn C)
    (params params' : List (ℕ × ℕ)) :
    applyParams concurrentPushes conn (params ++ params') =
      match applyParams concurrentPushes conn params with
      | .error r => .error r
      | .ok conn => applyParams concurrentPushes conn params' := by
  induction params generalizing conn with
  | nil => rfl
  | cons param params ih =>
      rw [List.cons_append, applyParams, applyParams]
      cases applyParam concurrentPushes conn param.1 param.2 with
      | error r => rfl
      | ok conn => exact ih conn

theorem settingsEnd_after (conn : Conn C) (delta : ℤ) (input : List UInt8)
    (reads : List (List UInt8)) :
    (settingsEnd calls conn delta input).after calls reads =
      (settingsEnd calls conn delta (input ++ reads.flatten)).after calls [] := by
  have hends : ∀ s, settingsEnd calls conn delta input ≠ .save s := by
    intro s
    simp only [settingsEnd]
    repeat' split
    all_goals nofun
  rw [extend_after hends]
  congr 1
  simp only [settingsEnd]
  repeat' split
  all_goals rfl

def lastCall (total : ℕ) (x : List UInt8) (back : List (List UInt8)) : ℕ :=
  if total ≤ x.length then 0 else (x.length + bytesBefore (total - x.length) back) / 6

/-- What SETTINGS comes to: all parameters count, but the window only if it was read
in the last call. -/
def settingsResult (calls : Calls C) (conn : Conn C) (params : List (ℕ × ℕ)) (k : ℕ)
    (further : List UInt8) : ControlEnd C :=
  match applyParams calls.concurrentPushes conn params with
  | .error r => .error r.1 r.2
  | .ok conn' =>
      (settingsEnd calls conn' (windowDelta conn.initWindow 0 (params.drop k))
        further).after calls []

/-- The call that finds the rest of the payload. -/
theorem settings_last {n : ℕ} {x payload further : List UInt8}
    {back : List (List UInt8)} (hlength : s.length = 6 * n)
    (hpayload : payload.length = 6 * n) (hcut : x ++ back.flatten = payload ++ further)
    (hle : payload.length ≤ x.length) :
    (settingsLoop calls s 0 x).after calls back =
      settingsResult calls s.conn (paramsOf payload) 0 further := by
  obtain ⟨rest, rfl, hfurther⟩ := append_split hcut hle
  have htake : (payload ++ rest).take (6 * n) = payload := List.take_left' hpayload
  have hdrop : (payload ++ rest).drop (6 * n) = rest := List.drop_left' hpayload
  rw [@settingsLoop_params C calls s n 0 _ 0 hlength (by omega), htake, hdrop,
    settingsResult]
  cases applyParams calls.concurrentPushes s.conn (paramsOf payload) with
  | error r => rfl
  | ok conn =>
      simp only
      rw [settingsLoop_end (Nat.mul_zero _), settingsEnd_after, hfurther]
      rfl

/-- A call that does not find the rest of the payload. -/
theorem settings_part {m k : ℕ} {x : List UInt8} (back : List (List UInt8))
    (hlength : s.length = 6 * (m + k)) (hm : x.length / 6 = m) (hk : k ≠ 0) :
    (settingsLoop calls s 0 x).after calls back =
      match applyParams calls.concurrentPushes s.conn (paramsOf (x.take (6 * m))) with
      | .error r => .error r.1 r.2
      | .ok conn =>
          readControl calls
            { s with
              conn := conn
              length := 6 * k
              buffer := x.drop (6 * m)
              handler := .settingsParams } back := by
  rw [@settingsLoop_params C calls s m k _ 0 hlength (by omega)]
  cases applyParams calls.concurrentPushes s.conn (paramsOf (x.take (6 * m))) with
  | error r => rfl
  | ok conn =>
      have hshort : (x.drop (6 * m)).length < 6 := by
        rw [List.length_drop]
        omega
      simp only
      rw [settingsLoop_short (Nat.mul_ne_zero (by decide) hk) hshort]
      rfl

theorem drop_add_append {α : Type*} {m j : ℕ} {xs ys : List α} (h : xs.length = m) :
    (xs ++ ys).drop (m + j) = ys.drop j := by
  subst h
  exact List.drop_length_add_append _

theorem lastCall_step {m : ℕ} {x payload read : List UInt8}
    {back : List (List UInt8)} (hm : x.length / 6 = m)
    (hle : ¬payload.length ≤ x.length) :
    lastCall payload.length x (read :: back) =
      m + lastCall (payload.drop (6 * m)).length (x.drop (6 * m) ++ read) back := by
  rw [lastCall, if_neg hle, lastCall, bytesBefore, List.length_append, List.length_drop,
    List.length_drop]
  by_cases hend : payload.length - x.length ≤ read.length
  · rw [if_pos hend, if_pos (by omega)]
    omega
  · have hsub : payload.length - 6 * m - (x.length - 6 * m + read.length) =
        payload.length - x.length - read.length := by omega
    rw [if_neg hend, if_neg (by omega), hsub]
    omega

theorem settings_after {n : ℕ} {x payload further : List UInt8}
    {back : List (List UInt8)} (hlength : s.length = 6 * n)
    (hpayload : payload.length = 6 * n) (hcut : x ++ back.flatten = payload ++ further) :
    (settingsLoop calls s 0 x).after calls back =
      settingsResult calls s.conn (paramsOf payload) (lastCall payload.length x back)
        further := by
  induction back generalizing s x payload n with
  | nil =>
      have hle : payload.length ≤ x.length := by
        have hlen := congrArg List.length hcut
        rw [List.flatten_nil, List.append_nil, List.length_append] at hlen
        omega
      rw [settings_last hlength hpayload hcut hle, lastCall, if_pos hle]
  | cons read back ih =>
      by_cases hle : payload.length ≤ x.length
      · rw [settings_last hlength hpayload hcut hle, lastCall, if_pos hle]
      -- The parameters before the cut, and the payload behind them.
      obtain ⟨m, hm⟩ : ∃ m, x.length / 6 = m := ⟨_, rfl⟩
      obtain ⟨k, rfl⟩ : ∃ k, n = m + k := ⟨n - m, by omega⟩
      have hx : payload = x.take (6 * m) ++ payload.drop (6 * m) := by
        have htake : x.take (6 * m) = payload.take (6 * m) := by
          have hprefix := congrArg (List.take (6 * m)) hcut
          rw [List.take_append_of_le_length (by omega),
            List.take_append_of_le_length (by omega)] at hprefix
          exact hprefix
        rw [htake, List.take_append_drop]
      have hfirst : (x.take (6 * m)).length = 6 * m := by
        rw [List.length_take]
        omega
      obtain ⟨hparams, hcount⟩ := paramsOf_append (payload.drop (6 * m)) hfirst
      rw [← hx] at hparams
      rw [settings_part (read :: back) hlength hm (by omega), settingsResult, hparams,
        applyParams_append]
      cases happly : applyParams calls.concurrentPushes s.conn
          (paramsOf (x.take (6 * m))) with
      | error r => rfl
      | ok conn =>
          have hcut' : x.drop (6 * m) ++ read ++ back.flatten =
              payload.drop (6 * m) ++ further := by
            have hdrop := congrArg (List.drop (6 * m)) hcut
            rw [List.drop_append_of_le_length (by omega),
              List.drop_append_of_le_length (by omega), List.flatten_cons,
              ← List.append_assoc] at hdrop
            exact hdrop
          have hrest := @ih
            { s with
              conn := conn
              length := 6 * k
              buffer := x.drop (6 * m)
              handler := .settingsParams } k (x.drop (6 * m) ++ read)
            (payload.drop (6 * m)) rfl (by rw [List.length_drop]; omega) hcut'
          have hlast : lastCall payload.length x (read :: back) =
              m + lastCall (payload.drop (6 * m)).length (x.drop (6 * m) ++ read) back :=
            lastCall_step hm hle
          simp only
          rw [readControl_cons, callControl]
          simp only
          rw [ngxHttpV2StateSettingsParams, hrest, settingsResult,
            applyParams_initWindow happly, hlast, drop_add_append hcount]

theorem adjustLoop_initWindow (delta : ℤ) (sids : List ℕ) (conn : Conn C) :
    (adjustLoop calls delta sids conn).1.initWindow = conn.initWindow := by
  induction sids generalizing conn with
  | nil => rfl
  | cons sid sids ih =>
      rw [adjustLoop]
      split
      · exact ih conn
      next window _ =>
        split
        · simp only
          split
          · rw [ih, calls.terminate_initWindow]
          · exact calls.terminate_initWindow _ _
        · simp only
          rw [ih]
          split
          · exact calls.wake_initWindow _ _
          · rfl

theorem settingsEnd_initWindow (conn : Conn C) (delta : ℤ) (input : List UInt8) :
    ((settingsEnd calls conn delta input).after calls []).conn.initWindow =
      (conn.initWindow + delta).toNat := by
  simp only [settingsEnd]
  split
  next hzero =>
    rw [hzero, Int.add_zero, Int.toNat_natCast]
    rfl
  · split
    · exact adjustLoop_initWindow _ _ _
    · exact adjustLoop_initWindow _ _ _

/-- A difference of windows is nothing, or it leads to a window. -/
theorem windowDelta_cases (initWindow : ℕ) (params : List (ℕ × ℕ)) {delta : ℤ}
    (h : 0 ≤ initWindow + delta) :
    0 ≤ initWindow + windowDelta initWindow delta params := by
  induction params generalizing delta with
  | nil => exact h
  | cons param params ih =>
      apply ih
      rw [paramDelta]
      split
      · omega
      · exact h

theorem settingsResult_inj {conn : Conn C} {params : List (ℕ × ℕ)} {j k : ℕ}
    {further : List UInt8} :
    settingsResult calls conn params j further = settingsResult calls conn params k further ↔
      (∃ r, applyParams calls.concurrentPushes conn params = .error r) ∨
        windowDelta conn.initWindow 0 (params.drop j) =
          windowDelta conn.initWindow 0 (params.drop k) := by
  have hnonneg (j : ℕ) := @windowDelta_cases conn.initWindow (params.drop j) 0 (by omega)
  rw [settingsResult, settingsResult]
  cases happly : applyParams calls.concurrentPushes conn params with
  | error r => exact ⟨fun _ => .inl ⟨r, rfl⟩, fun _ => rfl⟩
  | ok conn' =>
      simp only
      constructor
      · intro heq
        right
        have hinit := congrArg (fun e => e.conn.initWindow) heq
        simp only [settingsEnd_initWindow, applyParams_initWindow happly] at hinit
        have hj := hnonneg j
        have hk := hnonneg k
        omega
      · rintro (⟨r, hr⟩ | heq)
        · cases hr
        · rw [heq]

def ValidParam (param : ℕ × ℕ) : Prop :=
  ¬(param.1 = 0x4 ∧ maxWindow < param.2) ∧
    ¬(param.1 = 0x5 ∧ (maxFrameSize < param.2 ∨ param.2 < defaultFrameSize)) ∧
    ¬(param.1 = 0x2 ∧ 1 < param.2)

theorem applyParam_error_iff (concurrentPushes : ℕ) (conn : Conn C) (param : ℕ × ℕ) :
    (∃ r, applyParam concurrentPushes conn param.1 param.2 = .error r) ↔
      ¬ValidParam param := by
  rw [applyParam, ValidParam]
  repeat' split
  all_goals simp_all

theorem applyParams_error_iff (concurrentPushes : ℕ) (conn : Conn C)
    (params : List (ℕ × ℕ)) :
    (∃ r, applyParams concurrentPushes conn params = .error r) ↔
      ∃ param ∈ params, ¬ValidParam param := by
  induction params generalizing conn with
  | nil => simp [applyParams]
  | cons param params ih =>
      have hfirst := applyParam_error_iff concurrentPushes conn param
      rw [applyParams, List.exists_mem_cons_iff, ← hfirst]
      cases happly : applyParam concurrentPushes conn param.1 param.2 with
      | error r => simp
      | ok conn' => simp [ih conn']

end Settings

/-! ## Every cut -/

/-- The frame comes to the same whether it is cut or not.  A PRIORITY frame must not
be cut in its payload, unless it is refused before it is read; the window in SETTINGS
has to stand among the parameters behind the last cut. -/
def Harmless (conn : Conn C) (frame : ControlFrame) (reads : List (List UInt8)) : Prop :=
  match frame.type with
  | .priority =>
      frame.payload.length ≠ 5 ∨ conn.priorityLimit = 1 ∨ bytesBefore 14 reads < 9
  | .settings =>
      frame.sid ≠ 0 ∨ frame.flags = ackFlag ∨ frame.payload.length % 6 ≠ 0 ∨
        (∃ param ∈ paramsOf frame.payload, ¬ValidParam param) ∨
        windowDelta conn.initWindow 0 (paramsOf frame.payload) =
          windowDelta conn.initWindow 0 ((paramsOf frame.payload).drop
            ((bytesBefore (9 + frame.payload.length) reads - 9) / 6))
  | _ => True

section Cut

variable {conn : Conn C} {frame : ControlFrame} {handler handler' : ControlHandler}
  {buffer buffer' x further : List UInt8} {back reads : List (List UInt8)}

theorem fixed_cut {n : ℕ} {done : ControlState C → List UInt8 → ControlAction C}
    (h : WaitsFor calls n handler' done)
    (hcut : x ++ back.flatten = frame.payload ++ further) :
    (fixedHandler n handler' done (frame.state conn handler buffer) x).after calls back =
      (fixedHandler n handler' done (frame.state conn .head [])
        (frame.payload ++ further)).after calls [] := by
  have hsame (input : List UInt8) :
      done (frame.state conn handler buffer) input =
        done (frame.state conn .head []) input :=
    h.same (frame.state conn .head []) buffer handler input
  rw [h.after, hcut, fixedHandler, hsame]
  · rfl
  · intro hlength
    rw [hcut, List.length_append, ← hlength]
    exact Nat.le_add_right _ _

theorem priority_cut (hback : ∀ read ∈ back, read ≠ [])
    (hcut : x ++ back.flatten = frame.payload ++ further) :
    (ngxHttpV2StatePriority calls (frame.state conn handler buffer) x).after calls back =
        (ngxHttpV2StatePriority calls (frame.state conn .head [])
          (frame.payload ++ further)).after calls [] ↔
      frame.payload.length ≠ 5 ∨ conn.priorityLimit = 1 ∨ 5 ≤ x.length := by
  have hsame (input : List UInt8) :
      ngxHttpV2StatePriority calls (frame.state conn handler buffer) input =
        ngxHttpV2StatePriority calls (frame.state conn .head []) input := rfl
  rw [hsame]
  constructor
  · intro heq
    by_contra hbad
    rw [not_or, not_or, not_not, Nat.not_le] at hbad
    obtain ⟨hlength, hlimit, hshort⟩ := hbad
    have hfull : 5 ≤ (frame.payload ++ further).length := by
      rw [List.length_append]
      omega
    have hwhole := @priority_last C calls (frame.state conn .head []) _ [] hlength
      (.inr hfull)
    cases back with
    | nil =>
        rw [List.flatten_nil, List.append_nil] at hcut
        rw [hcut] at hshort
        omega
    | cons read back =>
        rw [← heq] at hwhole
        rw [← hcut] at hfull
        exact priority_limit_ne hlength hlimit hshort hback hfull hwhole
  · intro hgood
    have hdone : (frame.state conn .head []).length ≠ 5 ∨
        (frame.state conn .head []).conn.decreaseLimit.priorityLimit = 0 ∨
        5 ≤ x.length := by
      obtain hlength | hlimit | hle := hgood
      · exact .inl hlength
      · refine .inr (.inl ?_)
        change conn.priorityLimit - 1 = 0
        rw [hlimit]
        rfl
      · exact .inr (.inr hle)
    rw [priority_after hdone, hcut]

theorem settings_cut (hcut : x ++ back.flatten = frame.payload ++ further) :
    (ngxHttpV2StateSettings calls (frame.state conn handler buffer) x).after calls back =
        (ngxHttpV2StateSettings calls (frame.state conn .head [])
          (frame.payload ++ further)).after calls [] ↔
      frame.sid ≠ 0 ∨ frame.flags = ackFlag ∨ frame.payload.length % 6 ≠ 0 ∨
        (∃ param ∈ paramsOf frame.payload, ¬ValidParam param) ∨
        windowDelta conn.initWindow 0 (paramsOf frame.payload) =
          windowDelta conn.initWindow 0 ((paramsOf frame.payload).drop
            (lastCall frame.payload.length x back)) := by
  have hunfold (handler : ControlHandler) (buffer x : List UInt8) :
      ngxHttpV2StateSettings calls (frame.state conn handler buffer) x =
        if frame.sid ≠ 0 then .error .protocolError conn
        else if frame.flags = ackFlag then
          if frame.payload.length ≠ 0 then .error .sizeError conn
          else .complete { conn with settingsAck := true } x
        else if frame.payload.length % 6 ≠ 0 then .error .sizeError conn
        else ngxHttpV2StateSettingsParams calls (frame.state conn handler buffer) x := rfl
  rw [hunfold, hunfold]
  by_cases hsid : frame.sid = 0
  swap
  · rw [if_pos hsid, if_pos hsid]
    exact ⟨fun _ => .inl hsid, fun _ => rfl⟩
  rw [if_neg (not_not.mpr hsid), if_neg (not_not.mpr hsid)]
  by_cases hflags : frame.flags = ackFlag
  · rw [if_pos hflags, if_pos hflags]
    refine ⟨fun _ => .inr (.inl hflags), fun _ => ?_⟩
    by_cases hlength : frame.payload.length = 0
    · rw [if_neg (not_not.mpr hlength), if_neg (not_not.mpr hlength), ← hcut]
      exact congrArg _ (List.append_nil _).symm
    · rw [if_pos hlength, if_pos hlength]
      rfl
  rw [if_neg hflags, if_neg hflags]
  by_cases hmod : frame.payload.length % 6 = 0
  swap
  · rw [if_pos hmod, if_pos hmod]
    exact ⟨fun _ => .inr (.inr (.inl hmod)), fun _ => rfl⟩
  rw [if_neg (not_not.mpr hmod), if_neg (not_not.mpr hmod)]
  have hpayload : frame.payload.length = 6 * (frame.payload.length / 6) := by omega
  have hcutEnd := @settings_after C calls (frame.state conn handler buffer) _ x
    frame.payload further back hpayload hpayload hcut
  have hwholeEnd := @settings_after C calls (frame.state conn .head []) _
    (frame.payload ++ further) frame.payload further [] hpayload hpayload
    (List.append_nil _)
  have hlast : lastCall frame.payload.length (frame.payload ++ further) [] = 0 :=
    if_pos (by rw [List.length_append]; omega)
  rw [ngxHttpV2StateSettingsParams, ngxHttpV2StateSettingsParams, hcutEnd, hwholeEnd,
    hlast]
  change settingsResult calls conn _ _ further = settingsResult calls conn _ 0 further ↔ _
  rw [settingsResult_inj, applyParams_error_iff, List.drop_zero]
  have hnot : ¬(frame.sid ≠ 0) := not_not.mpr hsid
  have hnotMod : ¬(frame.payload.length % 6 ≠ 0) := not_not.mpr hmod
  constructor
  · rintro (hinvalid | hdelta)
    · exact .inr (.inr (.inr (.inl hinvalid)))
    · exact .inr (.inr (.inr (.inr hdelta.symm)))
  · rintro (h | h | h | h | h)
    · exact absurd h hnot
    · exact absurd h hflags
    · exact absurd h hnotMod
    · exact .inl h
    · exact .inr h.symm

end Cut

section States

variable (s : ControlState C) (x : List UInt8)

theorem frameStates_priority :
    frameStates calls ControlType.priority.code s x = ngxHttpV2StatePriority calls s x :=
  if_pos rfl

theorem frameStates_rstStream :
    frameStates calls ControlType.rstStream.code s x =
      fixedHandler 4 .rstStream (rstStreamDone calls) s x := by
  rw [frameStates, if_neg (by decide), if_pos (by decide)]
  rfl

theorem frameStates_settings :
    frameStates calls ControlType.settings.code s x = ngxHttpV2StateSettings calls s x := by
  rw [frameStates, if_neg (by decide), if_neg (by decide), if_pos (by decide)]

theorem frameStates_ping :
    frameStates calls ControlType.ping.code s x = fixedHandler 8 .ping pingDone s x := by
  rw [frameStates, if_neg (by decide), if_neg (by decide), if_neg (by decide), if_pos (by decide)]
  rfl

theorem frameStates_windowUpdate :
    frameStates calls ControlType.windowUpdate.code s x =
      fixedHandler 4 .windowUpdate (windowUpdateDone calls) s x := by
  rw [frameStates, if_neg (by decide), if_neg (by decide), if_neg (by decide),
    if_neg (by decide), if_pos (by decide)]
  rfl

end States

/-- A control frame that is cut into reads has the effect of the whole frame, exactly
if the cut is harmless. -/
theorem controlFrame_cut_iff (calls : Calls C) (conn : Conn C) (frame : ControlFrame)
    (further : List UInt8) (reads : List (List UInt8))
    (hreads : ∀ read ∈ reads, read ≠ [])
    (hcut : reads.flatten = frame.bytes ++ further) :
    readControl calls (.start conn) reads =
        readControl calls (.start conn) [frame.bytes ++ further] ↔
      Harmless conn frame reads := by
  have hcut' : (ControlState.start conn).buffer ++ reads.flatten =
      frame.head ++ (frame.payload ++ further) := by
    rw [← List.append_assoc]
    exact hcut
  obtain ⟨x, back, hy, hmem, ⟨handler, buffer, hread⟩, hle, hlt⟩ :=
    @readControl_head C calls frame (ControlState.start conn) reads _ rfl
      (show 0 < 9 by decide) hcut'
  have hback : ∀ read ∈ back, read ≠ [] := fun read h => hreads read (hmem read h)
  have hwhole : readControl calls (.start conn) [frame.bytes ++ further] =
      (frameStates calls frame.type.code (frame.state conn .head [])
        (frame.payload ++ further)).after calls [] := by
    rw [readControl_cons, callControl]
    change (ngxHttpV2StateHead calls _ ([] ++ (frame.bytes ++ further))).after calls [] = _
    rw [List.nil_append, ControlFrame.bytes, List.append_assoc, stateHead_frame]
    rfl
  -- The cut as the handlers see it.
  have hbefore (len : ℕ) :
      (len ≤ x.length → bytesBefore (9 + len) reads < 9) ∧
        (x.length < len →
          bytesBefore (9 + len) reads = 9 + x.length + bytesBefore (len - x.length) back) := by
    have hle' := hle len
    have hlt' := hlt len
    change len ≤ x.length → 0 + bytesBefore (9 + len - 0) reads < 9 at hle'
    change x.length < len → 0 + bytesBefore (9 + len - 0) reads =
      9 + x.length + bytesBefore (len - x.length) back at hlt'
    rw [Nat.zero_add, Nat.sub_zero] at hle' hlt'
    exact ⟨hle', hlt'⟩
  rw [hread, hwhole, Harmless]
  cases htype : frame.type with
  | priority =>
      have hfive : 5 ≤ x.length ↔ bytesBefore 14 reads < 9 := by
        have hfive := hbefore 5
        constructor
        · exact hfive.1
        · intro hlt
          by_contra hshort
          have heq : bytesBefore 14 reads = _ := hfive.2 (Nat.lt_of_not_le hshort)
          omega
      rw [frameStates_priority, frameStates_priority, ← hfive]
      exact priority_cut hback hy
  | rstStream =>
      rw [frameStates_rstStream, frameStates_rstStream]
      exact iff_of_true (fixed_cut rstStream_waitsFor hy) trivial
  | settings =>
      have hlast : lastCall frame.payload.length x back =
          (bytesBefore (9 + frame.payload.length) reads - 9) / 6 := by
        obtain ⟨hfew, hmany⟩ := hbefore frame.payload.length
        rw [lastCall]
        split
        next hle =>
          have hlt := hfew hle
          omega
        next hgt =>
          have heq := hmany (Nat.lt_of_not_le hgt)
          omega
      rw [frameStates_settings, frameStates_settings, ← hlast]
      exact settings_cut hy
  | ping =>
      rw [frameStates_ping, frameStates_ping]
      exact iff_of_true (fixed_cut ping_waitsFor hy) trivial
  | windowUpdate =>
      rw [frameStates_windowUpdate, frameStates_windowUpdate]
      exact iff_of_true (fixed_cut windowUpdate_waitsFor hy) trivial

/-- A connection without streams. -/
def newConn : Conn Unit where
  initWindow := 65535
  sendWindow := 65535
  streamWindow := fun _ => none
  frameSize := defaultFrameSize
  pushDisabled := false
  concurrentPushes := 10
  tableUpdate := false
  settingsAck := false
  priorityLimit := 128
  queued := []
  rest := ()

/-- Requests that are not there. -/
def noCalls : Calls Unit where
  concurrentPushes := 10
  streamIds := fun _ => []
  wake := fun conn _ => conn
  wakeWaiting := fun conn => conn
  terminate := fun conn _ => (conn, true)
  reset := fun conn _ _ => conn
  prioritise := fun conn _ _ _ _ => (conn, true)
  wake_initWindow := fun _ _ => rfl
  terminate_initWindow := fun _ _ => rfl
  prioritise_limit := fun _ _ _ _ _ => rfl

/-- SETTINGS with a maximum frame size of 16384 and an initial window of 65536. -/
def windowSettings : ControlFrame where
  type := .settings
  flags := 0
  reserved := false
  sid := 0
  payload := [0, 5, 0, 0, 64, 0, 0, 4, 0, 1, 0, 0]
  sid_lt := by decide
  fits := by decide

/-- The frame is cut in its last parameter, the window: nothing is lost. -/
theorem windowSettings_cut :
    readControl noCalls (.start newConn)
        [windowSettings.bytes.take 17, windowSettings.bytes.drop 17] =
      readControl noCalls (.start newConn) [windowSettings.bytes ++ []] :=
  (controlFrame_cut_iff noCalls newConn windowSettings [] _ (by decide) (by decide)).mpr
    (.inr (.inr (.inr (.inr (by decide)))))

/-- SETTINGS with the window before the frame size. -/
def settingsWindow : ControlFrame where
  type := .settings
  flags := 0
  reserved := false
  sid := 0
  payload := [0, 4, 0, 1, 0, 0, 0, 5, 0, 0, 64, 0]
  sid_lt := by decide
  fits := by decide

/-- The frame is cut between its parameters: the window is lost. -/
theorem settingsWindow_lost :
    readControl noCalls (.start newConn)
        [settingsWindow.bytes.take 15, settingsWindow.bytes.drop 15] ≠
      readControl noCalls (.start newConn) [settingsWindow.bytes] := by
  intro hsame
  have hinit := congrArg (fun e => e.conn.initWindow) hsame
  exact absurd hinit (by decide)

end MultiversionBalancer.Http2
