import MultiversionBalancer.Http2.Handlers

/-!
# Control frames of HTTP/2

The handlers of `ngx_http_v2.c` for the frames PRIORITY, RST_STREAM, SETTINGS, PING
and WINDOW_UPDATE, from `ngx_http_v2_state_head` on.  What the requests and the
dependency tree do is a parameter.
-/

namespace MultiversionBalancer.Http2

def maxWindow : ℕ := 2 ^ 31 - 1

def maxFrameSize : ℕ := 2 ^ 24 - 1

def defaultFrameSize : ℕ := 2 ^ 14

def ackFlag : UInt8 := 0x01

/-- The codes of `ngx_http_v2_connection_error`. -/
inductive Status where
  | protocolError
  | internalError
  | flowCtrlError
  | sizeError
  | enhanceYourCalm
  deriving DecidableEq

/-- The frames that are queued in reply. -/
inductive Reply where
  | settingsAck
  | pingAck (data : List UInt8)
  | rstStream (sid : ℕ)

/-- The part of `ngx_http_v2_connection_t` that control frames change.  A stream's
window is `none` where `node->stream` is `NULL`; the dependency tree, the requests
and the queues are in `rest`. -/
structure Conn (C : Type*) where
  initWindow : ℕ
  sendWindow : ℕ
  streamWindow : ℕ → Option ℤ
  frameSize : ℕ
  pushDisabled : Bool
  concurrentPushes : ℕ
  tableUpdate : Bool
  settingsAck : Bool
  priorityLimit : UInt64
  queued : List Reply
  rest : C

/-- What control frames are handed to: the event handlers of the requests,
`ngx_http_v2_terminate_stream`, and the nodes of the dependency tree.  Only
`ngx_http_v2_state_settings_params` changes `init_window`, and the nodes have no part
in `priority_limit`. -/
structure Calls (C : Type*) where
  concurrentPushes : ℕ
  streamIds : Conn C → List ℕ
  wake : Conn C → ℕ → Conn C
  wakeWaiting : Conn C → Conn C
  terminate : Conn C → ℕ → Conn C × Bool
  reset : Conn C → ℕ → ℕ → Conn C
  prioritise : Conn C → ℕ → ℕ → Bool → ℕ → Conn C × Bool
  wake_initWindow : ∀ conn sid, (wake conn sid).initWindow = conn.initWindow
  terminate_initWindow : ∀ conn sid, (terminate conn sid).1.initWindow = conn.initWindow
  prioritise_limit : ∀ conn sid depend excl weight,
    (prioritise conn sid depend excl weight).1.priorityLimit = conn.priorityLimit

/-- The functions that can be saved as `h2c->state.handler`. -/
inductive ControlHandler where
  | head
  | priority
  | rstStream
  | settingsParams
  | ping
  | windowUpdate
  | skip

structure ControlState (C : Type*) where
  conn : Conn C
  sid : ℕ
  length : ℕ
  flags : UInt8
  buffer : List UInt8
  handler : ControlHandler

/-- How a handler ends: the frame is complete, its bytes are saved, the connection
fails, or the frame is of another type. -/
inductive ControlAction (C : Type*) where
  | complete (conn : Conn C) (input : List UInt8)
  | save (s : ControlState C)
  | error (status : Status) (conn : Conn C)
  | other (s : ControlState C) (input : List UInt8)

section Handlers

variable {C : Type*}

def ControlState.save (s : ControlState C) (input : List UInt8)
    (handler : ControlHandler) : ControlAction C :=
  if stateBufferSize < input.length then .error .internalError s.conn
  else .save { s with buffer := input, handler := handler }

def stateSkip (s : ControlState C) (input : List UInt8) : ControlAction C :=
  if input.length < s.length then
    ControlState.save { s with length := s.length - input.length } [] .skip
  else .complete s.conn (input.drop s.length)

def Conn.decreaseLimit (conn : Conn C) : Conn C :=
  { conn with priorityLimit := conn.priorityLimit - 1 }

/-- The dependency of a PRIORITY frame. -/
def applyPriority (calls : Calls C) (s : ControlState C) (input : List UInt8) :
    ControlAction C :=
  let depend := parseUint32 input % 2 ^ 31
  if s.sid = 0 then .error .protocolError s.conn
  else if depend = s.sid then .error .protocolError s.conn
  else
    let r := calls.prioritise s.conn s.sid depend (2 ^ 31 ≤ parseUint32 input)
      ((input.getD 4 0).toNat + 1)
    if r.2 then .complete r.1 (input.drop 5) else .error .internalError r.1

def ngxHttpV2StatePriority (calls : Calls C) (s : ControlState C)
    (input : List UInt8) : ControlAction C :=
  if s.length ≠ 5 then .error .sizeError s.conn
  else
    let s := { s with conn := s.conn.decreaseLimit }
    if s.conn.priorityLimit = 0 then .error .enhanceYourCalm s.conn
    else if input.length < 5 then s.save input .priority
    else applyPriority calls s input

def ngxHttpV2StateRstStream (calls : Calls C) (s : ControlState C)
    (input : List UInt8) : ControlAction C :=
  if s.length ≠ 4 then .error .sizeError s.conn
  else if input.length < 4 then s.save input .rstStream
  else if s.sid = 0 then .error .protocolError s.conn
  else if s.conn.streamWindow s.sid = none then .complete s.conn (input.drop 4)
  else .complete (calls.reset s.conn s.sid (parseUint32 input)) (input.drop 4)

/-- A parameter of SETTINGS, but for what it does to the windows. -/
def applyParam (concurrentPushes : ℕ) (conn : Conn C) (id value : ℕ) :
    Except (Status × Conn C) (Conn C) :=
  if id = 0x4 then
    if maxWindow < value then .error (.flowCtrlError, conn) else .ok conn
  else if id = 0x5 then
    if maxFrameSize < value ∨ value < defaultFrameSize then .error (.protocolError, conn)
    else .ok { conn with frameSize := value }
  else if id = 0x2 then
    if 1 < value then .error (.protocolError, conn)
    else .ok { conn with pushDisabled := value = 0 }
  else if id = 0x3 then
    .ok { conn with concurrentPushes := min value concurrentPushes }
  else if id = 0x1 then .ok { conn with tableUpdate := true }
  else .ok conn

def paramDelta (initWindow : ℕ) (delta : ℤ) (id value : ℕ) : ℤ :=
  if id = 0x4 then value - initWindow else delta

def adjustLoop (calls : Calls C) (delta : ℤ) : List ℕ → Conn C → Conn C × Bool
  | [], conn => (conn, true)
  | sid :: sids, conn =>
      match conn.streamWindow sid with
      | none => adjustLoop calls delta sids conn
      | some window =>
          if 0 < delta ∧ maxWindow - delta < window then
            let r := calls.terminate conn sid
            if r.2 then adjustLoop calls delta sids r.1 else (r.1, false)
          else
            let conn :=
              { conn with
                streamWindow :=
                  Function.update conn.streamWindow sid (some (window + delta)) }
            let conn := if 0 < window + delta then calls.wake conn sid else conn
            adjustLoop calls delta sids conn

def ngxHttpV2AdjustWindows (calls : Calls C) (conn : Conn C) (delta : ℤ) :
    Conn C × Bool :=
  adjustLoop calls delta (calls.streamIds conn) conn

/-- What follows the last parameter of SETTINGS. -/
def settingsEnd (calls : Calls C) (conn : Conn C) (delta : ℤ) (input : List UInt8) :
    ControlAction C :=
  let conn := { conn with queued := conn.queued ++ [.settingsAck] }
  if delta = 0 then .complete conn input
  else
    let r := ngxHttpV2AdjustWindows calls
      { conn with initWindow := (conn.initWindow + delta).toNat } delta
    if r.2 then .complete r.1 input else .error .internalError r.1

/-- The loop of `ngx_http_v2_state_settings_params`. -/
def settingsLoop (calls : Calls C) :
    ControlState C → ℤ → List UInt8 → ControlAction C
  | s, delta, a :: b :: c :: d :: e :: f :: input =>
      if s.length = 0 then
        settingsEnd calls s.conn delta (a :: b :: c :: d :: e :: f :: input)
      else
        let id := a.toNat * 2 ^ 8 + b.toNat
        let value := parseUint32 [c, d, e, f]
        match applyParam calls.concurrentPushes s.conn id value with
        | .error r => .error r.1 r.2
        | .ok conn =>
            settingsLoop calls { s with conn := conn, length := s.length - 6 }
              (paramDelta s.conn.initWindow delta id value) input
  | s, delta, input =>
      if s.length = 0 then settingsEnd calls s.conn delta input
      else s.save input .settingsParams

def ngxHttpV2StateSettingsParams (calls : Calls C) (s : ControlState C)
    (input : List UInt8) : ControlAction C :=
  settingsLoop calls s 0 input

def ngxHttpV2StateSettings (calls : Calls C) (s : ControlState C)
    (input : List UInt8) : ControlAction C :=
  if s.sid ≠ 0 then .error .protocolError s.conn
  else if s.flags = ackFlag then
    if s.length ≠ 0 then .error .sizeError s.conn
    else .complete { s.conn with settingsAck := true } input
  else if s.length % 6 ≠ 0 then .error .sizeError s.conn
  else ngxHttpV2StateSettingsParams calls s input

def ngxHttpV2StatePing (s : ControlState C) (input : List UInt8) : ControlAction C :=
  if s.length ≠ 8 then .error .sizeError s.conn
  else if input.length < 8 then s.save input .ping
  else if s.sid ≠ 0 then .error .protocolError s.conn
  else if s.flags &&& ackFlag ≠ 0 then stateSkip s input
  else
    .complete { s.conn with queued := s.conn.queued ++ [.pingAck (input.take 8)] }
      (input.drop 8)

/-- The window of a stream is opened. -/
def updateStream (calls : Calls C) (conn : Conn C) (sid window : ℕ)
    (input : List UInt8) : ControlAction C :=
  match conn.streamWindow sid with
  | none => .complete conn input
  | some sendWindow =>
      if maxWindow - sendWindow < window then
        let r := calls.terminate conn sid
        if r.2 then .complete r.1 input else .error .internalError r.1
      else
        .complete (calls.wake
          { conn with
            streamWindow :=
              Function.update conn.streamWindow sid (some (sendWindow + window)) }
          sid) input

def ngxHttpV2StateWindowUpdate (calls : Calls C) (s : ControlState C)
    (input : List UInt8) : ControlAction C :=
  if s.length ≠ 4 then .error .sizeError s.conn
  else if input.length < 4 then s.save input .windowUpdate
  else
    let window := parseUint32 input % 2 ^ 31
    if window = 0 then .error .protocolError s.conn
    else if s.sid ≠ 0 then updateStream calls s.conn s.sid window (input.drop 4)
    else if maxWindow - s.conn.sendWindow < window then .error .flowCtrlError s.conn
    else
      .complete (calls.wakeWaiting
        { s.conn with sendWindow := s.conn.sendWindow + window }) (input.drop 4)

def frameStates (calls : Calls C) (type : ℕ) (s : ControlState C)
    (input : List UInt8) : ControlAction C :=
  if type = 0x2 then ngxHttpV2StatePriority calls s input
  else if type = 0x3 then ngxHttpV2StateRstStream calls s input
  else if type = 0x4 then ngxHttpV2StateSettings calls s input
  else if type = 0x6 then ngxHttpV2StatePing s input
  else if type = 0x8 then ngxHttpV2StateWindowUpdate calls s input
  else .other s input

def ngxHttpV2StateHead (calls : Calls C) (s : ControlState C) (input : List UInt8) :
    ControlAction C :=
  if input.length < frameHeaderSize then s.save input .head
  else
    let head := parseUint32 input
    frameStates calls (parseType head)
      { s with
        length := parseLength head
        flags := input.getD 4 0
        sid := parseSid (input.drop 5) }
      (input.drop frameHeaderSize)

/-- The call of the handler that has been saved. -/
def callControl (calls : Calls C) (s : ControlState C) (input : List UInt8) :
    ControlAction C :=
  match s.handler with
  | .head => ngxHttpV2StateHead calls s input
  | .priority => ngxHttpV2StatePriority calls s input
  | .rstStream => ngxHttpV2StateRstStream calls s input
  | .settingsParams => ngxHttpV2StateSettingsParams calls s input
  | .ping => ngxHttpV2StatePing s input
  | .windowUpdate => ngxHttpV2StateWindowUpdate calls s input
  | .skip => stateSkip s input

/-! ## Reads -/

/-- What the bytes of reads lead to. -/
inductive ControlEnd (C : Type*) where
  | complete (conn : Conn C) (rest : List UInt8)
  | error (status : Status) (conn : Conn C)
  | waiting (s : ControlState C)
  | other (s : ControlState C) (rest : List UInt8)

/-- The loop of `ngx_http_v2_read_handler` over successive reads, up to the end of the
frame; the bytes that were saved go before those of the next read. -/
def readControl (calls : Calls C) : ControlState C → List (List UInt8) → ControlEnd C
  | s, [] => .waiting s
  | s, read :: reads =>
      match callControl calls s (s.buffer ++ read) with
      | .complete conn rest => .complete conn (rest ++ reads.flatten)
      | .error status conn => .error status conn
      | .save s => readControl calls s reads
      | .other s rest => .other s (rest ++ reads.flatten)

/-- The state between two frames. -/
def ControlState.start (conn : Conn C) : ControlState C where
  conn := conn
  sid := 0
  length := 0
  flags := 0
  buffer := []
  handler := .head

end Handlers

end MultiversionBalancer.Http2
