import MultiversionBalancer.Log.RequestTime
import Mathlib.Algebra.Ring.Nat

/-!
# Log formats

A compiled `log_format` is a list of operations.  Each operation reserves a
number of bytes, fixed (`op->len`) or computed from the request (`getlen`), and
later writes its text; the two numbers are computed by different functions of
`ngx_http_log_module.c`.

A byte of a text is the character of the same code.
-/

namespace MultiversionBalancer

open CFloat

/-- The escaping of a format: `escape=default`, `escape=json` or
`escape=none`. -/
inductive LogEscape where
  | default
  | json
  | none
  deriving DecidableEq

/-- `ngx_http_log_op_t`, by its run function.  A literal of at most eight bytes
is packed into a word. -/
inductive LogOp where
  | copyShort (len : ℕ) (data : BitVec 64)
  | copyLong (data : List UInt8)
  | pipe
  | time
  | iso8601
  | msec
  | requestTime
  | status
  | bytesSent
  | bodyBytesSent
  | requestLength
  | var (escape : LogEscape) (index : ℕ)
  deriving DecidableEq

/-- `ngx_http_variable_value_t` of a variable that was found. -/
structure VariableValue where
  data : List UInt8
  escape : Bool

/-- The indexed variables of a request; `none` stands for an evaluation that
failed and for `not_found`. -/
abbrev LogVariables := ℕ → Option VariableValue

/-- The fields of the request and of its connection that the log operations
read, apart from those of the balancer. -/
structure LogFields where
  pipeline : Bool
  errStatus : BitVec 64
  headersOutStatus : BitVec 64
  /-- `r->http_version == NGX_HTTP_VERSION_9`. -/
  httpVersion9 : Bool
  sent : BitVec 64
  headerSize : BitVec 64
  requestLength : BitVec 64

/-- A request to be logged that has sent nothing. -/
def noFields : LogFields where
  pipeline := false
  errStatus := 0
  headersOutStatus := 200
  httpVersion9 := false
  sent := 0
  headerSize := 0
  requestLength := 0

/-- `NGX_TIME_T_LEN`, `NGX_INT_T_LEN`, `NGX_OFF_T_LEN` and `NGX_SIZE_T_LEN`:
the length of the smallest 64-bit integer. -/
def ngxInt64Len : ℕ :=
  "-9223372036854775808".length

def bytesText (bs : List UInt8) : Text :=
  bs.map Char.ofUInt8

/-! ## Escaping -/

/-- The bitmap `escape` of `ngx_http_log_escape`. -/
def logEscapeMap : List (BitVec 32) :=
  [0xffffffff, 0x00000004, 0x10000000, 0x80000000,
    0xffffffff, 0xffffffff, 0xffffffff, 0xffffffff]

def logEscaped (c : UInt8) : Bool :=
  (logEscapeMap.getD (c >>> 5).toNat 0).getLsbD (c &&& 0x1f).toNat

/-- The table `hex` of `ngx_http_log_escape`. -/
def logHex (n : ℕ) : Char :=
  "0123456789ABCDEF".toList.getD n '0'

/-- `ngx_http_log_escape` with `dst == NULL`: the number of characters to be
escaped. -/
def ngxHttpLogEscapeCount (src : List UInt8) : ℕ :=
  src.countP logEscaped

/-- What `ngx_http_log_escape` writes for one byte. -/
def logEscapeByte (c : UInt8) : Text :=
  if logEscaped c then
    ['\\', 'x', logHex (c >>> 4).toNat, logHex (c &&& 0xf).toNat]
  else [Char.ofUInt8 c]

def ngxHttpLogEscape (src : List UInt8) : Text :=
  src.flatMap logEscapeByte

/-- The letter of a control character with a short escape. -/
def jsonShort (c : UInt8) : Option Char :=
  if c = 0x0a then some 'n'
  else if c = 0x0d then some 'r'
  else if c = 0x09 then some 't'
  else if c = 0x08 then some 'b'
  else if c = 0x0c then some 'f'
  else none

/-- The bytes that `ngx_escape_json` counts for one byte when
`dst == NULL`. -/
def jsonExtra (c : UInt8) : ℕ :=
  if c = 0x5c ∨ c = 0x22 then 1
  else if c ≤ 0x1f then
    if (jsonShort c).isSome then 1 else 5
  else 0

def ngxEscapeJsonCount (src : List UInt8) : ℕ :=
  (src.map jsonExtra).sum

def jsonEscapeByte (c : UInt8) : Text :=
  if 0x1f < c then
    if c = 0x5c ∨ c = 0x22 then ['\\', Char.ofUInt8 c]
    else [Char.ofUInt8 c]
  else
    match jsonShort c with
    | some letter => ['\\', letter]
    | none =>
        ['\\', 'u', '0', '0', Char.ofUInt8 ((0x30 : UInt8) + (c >>> 4)),
          if (c &&& 0xf) < 10 then Char.ofUInt8 (0x30 + (c &&& 0xf))
          else Char.ofUInt8 (0x41 + (c &&& 0xf) - 10)]

def ngxEscapeJson (src : List UInt8) : Text :=
  src.flatMap jsonEscapeByte

/-! ## Reservations -/

/-- The three `getlen` functions on a variable that was found: the length, and
the value with its `escape` bit. -/
def VariableValue.getlen (value : VariableValue) :
    LogEscape → ℕ × VariableValue
  | .default =>
      let len := ngxHttpLogEscapeCount value.data
      (value.data.length + len * 3, { value with escape := len != 0 })
  | .json =>
      let len := ngxEscapeJsonCount value.data
      (value.data.length + len, { value with escape := len != 0 })
  | .none => (value.data.length, { value with escape := false })

/-- `ngx_http_log_variable_getlen`, `ngx_http_log_json_variable_getlen` and
`ngx_http_log_unescaped_variable_getlen`. -/
def ngxHttpLogVariableGetlen (vars : LogVariables) (escape : LogEscape)
    (index : ℕ) : ℕ × LogVariables :=
  match vars index with
  | none => (if escape = .default then 1 else 0, vars)
  | some value =>
      let (len, value) := value.getlen escape
      (len, Function.update vars index (some value))

/-- What the handler reserves for an operation, with the variables after a
call of `getlen`. -/
def LogOp.reserve (vars : LogVariables) : LogOp → ℕ × LogVariables
  | .copyShort len _ => (len, vars)
  | .copyLong data => (data.length, vars)
  | .pipe => (1, vars)
  | .time => ("28/Sep/1970:12:00:00 +0600".length, vars)
  | .iso8601 => ("1970-09-28T12:00:00+06:00".length, vars)
  | .msec => (ngxInt64Len + 4, vars)
  | .requestTime => (ngxInt64Len + 4, vars)
  | .status => (ngxInt64Len, vars)
  | .bytesSent => (ngxInt64Len, vars)
  | .bodyBytesSent => (ngxInt64Len, vars)
  | .requestLength => (ngxInt64Len, vars)
  | .var escape index => ngxHttpLogVariableGetlen vars escape index

/-- The handler's first pass over the operations of a format: the length of
the line. -/
def reserveAll : List LogOp → LogVariables → ℕ × LogVariables
  | [], vars => (0, vars)
  | op :: ops, vars =>
      let (len, vars) := op.reserve vars
      let (rest, vars) := reserveAll ops vars
      (len + rest, vars)

/-! ## Run functions -/

def ngxHttpLogCopyShort : ℕ → BitVec 64 → Text
  | 0, _ => []
  | len + 1, data =>
      Char.ofUInt8 (UInt8.ofBitVec (data.setWidth 8)) ::
        ngxHttpLogCopyShort len (data >>> 8)

def ngxHttpLogPipe (f : LogFields) : Text :=
  if f.pipeline then ['p'] else ['.']

def ngxHttpLogMsec (tp : NgxTime) : Text :=
  ngxSprintfInt tp.sec ++ ".".toList ++ ngxSprintfNum tp.msec '0' 3

/-- The status that `ngx_http_log_status` reports. -/
def LogFields.status (f : LogFields) : BitVec 64 :=
  if f.errStatus ≠ 0 then f.errStatus
  else if f.headersOutStatus ≠ 0 then f.headersOutStatus
  else if f.httpVersion9 then 9
  else 0

def ngxHttpLogStatus (f : LogFields) : Text :=
  ngxSprintfNum f.status.toNat '0' 3

def ngxHttpLogBytesSent (f : LogFields) : Text :=
  ngxSprintfInt f.sent.toInt

def ngxHttpLogBodyBytesSent (f : LogFields) : Text :=
  let length := (f.sent - f.headerSize).toInt
  if 0 < length then ngxSprintfInt length else ['0']

def ngxHttpLogRequestLength (f : LogFields) : Text :=
  ngxSprintfInt f.requestLength.toInt

/-- `ngx_http_log_variable`, `ngx_http_log_json_variable` and
`ngx_http_log_unescaped_variable`. -/
def ngxHttpLogVariable (vars : LogVariables) (escape : LogEscape)
    (index : ℕ) : Text :=
  match vars index, escape with
  | none, .default => ['-']
  | none, _ => []
  | some value, .default =>
      if value.escape then ngxHttpLogEscape value.data
      else bytesText value.data
  | some value, .json =>
      if value.escape then ngxEscapeJson value.data else bytesText value.data
  | some value, .none => bytesText value.data

variable {F : Type} [CFloat F]

/-- The run function of an operation.  `$request_time` alone touches the
balancer, and alone can fail. -/
def LogOp.run (tp : NgxTime) (f : LogFields) (r : Request F)
    (vars : LogVariables) (u : Upstream F) :
    LogOp → Except Fault (Upstream F × Text)
  | .copyShort len data => .ok (u, ngxHttpLogCopyShort len data)
  | .copyLong data => .ok (u, bytesText data)
  | .pipe => .ok (u, ngxHttpLogPipe f)
  | .time => .ok (u, tp.httpLogTime)
  | .iso8601 => .ok (u, tp.httpLogIso8601)
  | .msec => .ok (u, ngxHttpLogMsec tp)
  | .requestTime => ngxHttpLogRequestTime tp u r
  | .status => .ok (u, ngxHttpLogStatus f)
  | .bytesSent => .ok (u, ngxHttpLogBytesSent f)
  | .bodyBytesSent => .ok (u, ngxHttpLogBodyBytesSent f)
  | .requestLength => .ok (u, ngxHttpLogRequestLength f)
  | .var escape index => .ok (u, ngxHttpLogVariable vars escape index)

end MultiversionBalancer
