import MultiversionBalancer.Log.Format
import MultiversionBalancer.Upstream.System
import Mathlib.Data.Nat.Log
import Mathlib.Tactic.Linarith

/-!
# Reserved and written bytes

Every log operation but `$request_time` writes at most what the handler
reserved for it.  `$request_time` reserves a time with milliseconds and fits
only for a request that was sent to no version; for the others it writes the
balancer's report.

`custom_system_monitor_capacity` assembles its report in buffers of fixed
size.  `monitorWrites` lists what it writes into them, and `MonitorRoom` is the
bound on the addresses, ports and capacities of the peers under which it all
fits.
-/

namespace MultiversionBalancer

open Lib CFloat

/-! ## Widths of numbers -/

/-- Decimal digits of a number. -/
def decimalWidth (n : ℕ) : ℕ :=
  Nat.log 10 n + 1

/-- Decimal characters of a signed number. -/
def intWidth (i : ℤ) : ℕ :=
  (if i < 0 then 1 else 0) + decimalWidth i.natAbs

theorem decimalWidth_pos (n : ℕ) : 0 < decimalWidth n :=
  Nat.succ_pos _

theorem length_toDigits (n : ℕ) :
    (Nat.toDigits 10 n).length = decimalWidth n := by
  apply le_antisymm
  · rw [Nat.length_toDigits_le_iff (by decide) (decimalWidth_pos n)]
    exact Nat.lt_pow_succ_log_self (by decide) n
  · by_contra hlt
    have hpos : 0 < (Nat.toDigits 10 n).length := Nat.length_toDigits_pos
    unfold decimalWidth at hlt
    have hn : n < 10 ^ Nat.log 10 n := by
      rw [← Nat.length_toDigits_le_iff (by decide) (by omega)]
      omega
    have hzero : n ≠ 0 := by
      rintro rfl
      simp at hlt
    exact absurd (Nat.pow_log_le_self 10 hzero) (by omega)

theorem decimalWidth_le {n k : ℕ} (hk : 0 < k) (h : n < 10 ^ k) :
    decimalWidth n ≤ k := by
  rw [← length_toDigits]
  exact (Nat.length_toDigits_le_iff (by decide) hk).mpr h

theorem ngxSprintfNum_length (n : ℕ) (zero : Char) (width : ℕ) :
    (ngxSprintfNum n zero width).length = max width (decimalWidth n) := by
  simp only [ngxSprintfNum, List.length_append, List.length_replicate,
    length_toDigits]
  omega

theorem ngxSprintfNum_length_le {n width k : ℕ} {zero : Char}
    (hw : width ≤ k) (hk : 0 < k) (h : n < 10 ^ k) :
    (ngxSprintfNum n zero width).length ≤ k := by
  rw [ngxSprintfNum_length]
  exact max_le hw (decimalWidth_le hk h)

theorem ngxSprintfInt_length (i : ℤ) :
    (ngxSprintfInt i).length = intWidth i := by
  have hpos := decimalWidth_pos i.natAbs
  unfold ngxSprintfInt intWidth
  split
  · rw [List.length_cons, ngxSprintfNum_length]
    omega
  · rw [ngxSprintfNum_length]
    omega

theorem intWidth_le {i : ℤ} {k : ℕ} (hk : 0 < k) (h : i.natAbs < 10 ^ k) :
    intWidth i ≤ 1 + k := by
  have hwidth := decimalWidth_le hk h
  unfold intWidth
  split
  · omega
  · omega

/-- A 64-bit integer has at most 19 digits and a sign. -/
theorem intWidth_toInt_le (b : BitVec 64) :
    intWidth b.toInt ≤ ngxInt64Len := by
  have hlt := BitVec.toInt_lt (x := b)
  have hle := BitVec.le_toInt b
  have habs : b.toInt.natAbs < 10 ^ 19 := by
    simp only [Nat.reduceSub] at hlt hle
    omega
  calc intWidth b.toInt ≤ 1 + 19 := intWidth_le (by decide) habs
    _ = ngxInt64Len := rfl

/-! ## Variables -/

theorem ngxHttpLogEscape_length (src : List UInt8) :
    (ngxHttpLogEscape src).length =
      src.length + ngxHttpLogEscapeCount src * 3 := by
  unfold ngxHttpLogEscape ngxHttpLogEscapeCount
  induction src with
  | nil => rfl
  | cons c src ih =>
      simp only [List.flatMap_cons, List.length_append, List.length_cons, ih,
        List.countP_cons, logEscapeByte]
      by_cases hc : logEscaped c
      · simp only [hc, if_true, List.length_cons, List.length_nil]
        omega
      · simp only [hc, if_false, List.length_cons, List.length_nil,
          Bool.false_eq_true]
        omega

theorem jsonEscapeByte_length (c : UInt8) :
    (jsonEscapeByte c).length = 1 + jsonExtra c := by
  unfold jsonEscapeByte jsonExtra
  by_cases hctl : 0x1f < c
  · have hnot : ¬c ≤ 0x1f := UInt8.not_le.mpr hctl
    by_cases hq : c = 0x5c ∨ c = 0x22
    · simp [hctl, hq]
    · simp [hctl, hq, hnot]
  · have hle : c ≤ 0x1f := UInt8.not_lt.mp hctl
    have hq : ¬(c = 0x5c ∨ c = 0x22) := by
      rintro (rfl | rfl)
      · exact absurd hle (by decide)
      · exact absurd hle (by decide)
    rw [if_neg hctl, if_neg hq, if_pos hle]
    cases jsonShort c with
    | none => simp
    | some letter => simp

theorem ngxEscapeJson_length (src : List UInt8) :
    (ngxEscapeJson src).length = src.length + ngxEscapeJsonCount src := by
  unfold ngxEscapeJson ngxEscapeJsonCount
  induction src with
  | nil => rfl
  | cons c src ih =>
      simp only [List.flatMap_cons, List.length_append, List.length_cons, ih,
        List.map_cons, List.sum_cons, jsonEscapeByte_length]
      omega

theorem bytesText_length (bs : List UInt8) :
    (bytesText bs).length = bs.length := by
  simp [bytesText]

/-- The variables hold the same data, with any `escape` bits. -/
def SameData (vars vars' : LogVariables) : Prop :=
  ∀ i, (vars' i).map (·.data) = (vars i).map (·.data)

theorem VariableValue.getlen_data (value : VariableValue)
    (escape : LogEscape) : (value.getlen escape).2.data = value.data := by
  cases escape with
  | default => rfl
  | json => rfl
  | none => rfl

theorem sameData_reserve (vars : LogVariables) (op : LogOp) :
    SameData vars (op.reserve vars).2 := by
  intro i
  unfold LogOp.reserve
  split
  all_goals try rfl
  next escape index =>
    unfold ngxHttpLogVariableGetlen
    cases hvar : vars index with
    | none => rfl
    | some value =>
        by_cases hi : i = index
        · subst hi
          simp [hvar, value.getlen_data escape]
        · simp [Function.update_of_ne hi]

/-- The first pass over a format changes only `escape` bits. -/
theorem sameData_reserveAll (ops : List LogOp) (vars : LogVariables) :
    SameData vars (reserveAll ops vars).2 := by
  induction ops generalizing vars with
  | nil => exact fun _ => rfl
  | cons op ops ih =>
      intro i
      exact (ih (op.reserve vars).2 i).trans (sameData_reserve vars op i)

/-- Whatever the `escape` bit, a variable is not longer than its `getlen`. -/
theorem ngxHttpLogVariable_length_le {vars vars' : LogVariables}
    (hsame : SameData vars vars') (escape : LogEscape) (index : ℕ) :
    (ngxHttpLogVariable vars' escape index).length ≤
      (ngxHttpLogVariableGetlen vars escape index).1 := by
  have hdata := hsame index
  unfold ngxHttpLogVariable ngxHttpLogVariableGetlen
  cases hvar : vars index with
  | none =>
      have hvar' : vars' index = none := by simpa [hvar] using hdata
      rw [hvar']
      cases escape with
      | default => simp
      | json => simp
      | none => simp
  | some value =>
      obtain ⟨value', hvar', hvalue⟩ :
          ∃ value', vars' index = some value' ∧ value'.data = value.data := by
        simpa [hvar] using hdata
      rw [hvar']
      cases escape with
      | default =>
          simp only [VariableValue.getlen, hvalue]
          split
          · rw [ngxHttpLogEscape_length]
          · rw [bytesText_length]
            omega
      | json =>
          simp only [VariableValue.getlen, hvalue]
          split
          · rw [ngxEscapeJson_length]
          · rw [bytesText_length]
            omega
      | none =>
          simp only [VariableValue.getlen, hvalue]
          rw [bytesText_length]

/-! ## Operations -/

theorem ngxHttpLogCopyShort_length (len : ℕ) (data : BitVec 64) :
    (ngxHttpLogCopyShort len data).length = len := by
  induction len generalizing data with
  | zero => rfl
  | succ len ih => simp [ngxHttpLogCopyShort, ih]

theorem ngxHttpLogPipe_length (f : LogFields) :
    (ngxHttpLogPipe f).length = 1 := by
  unfold ngxHttpLogPipe
  split
  · rfl
  · rfl

theorem ngxHttpLogStatus_length_le (f : LogFields) :
    (ngxHttpLogStatus f).length ≤ ngxInt64Len := by
  apply ngxSprintfNum_length_le (by decide) (by decide)
  exact lt_trans f.status.isLt (by decide)

theorem ngxHttpLogMsec_length_le (tp : NgxTime) :
    (ngxHttpLogMsec tp).length ≤ ngxInt64Len + 4 := by
  have hsec : intWidth tp.sec ≤ 1 + 19 := by
    have hlt := tp.sec_lt
    apply intWidth_le (by decide)
    omega
  have hmsec : (ngxSprintfNum tp.msec '0' 3).length ≤ 3 :=
    ngxSprintfNum_length_le (le_refl 3) (by decide) tp.msec_lt
  have hlen : ngxInt64Len = 20 := rfl
  have hdot : ".".length = 1 := rfl
  simp only [ngxHttpLogMsec, List.length_append, ngxSprintfInt_length,
    String.length_toList]
  omega

theorem ngxHttpLogBodyBytesSent_length_le (f : LogFields) :
    (ngxHttpLogBodyBytesSent f).length ≤ ngxInt64Len := by
  unfold ngxHttpLogBodyBytesSent
  dsimp only
  split
  · rw [ngxSprintfInt_length]
    exact intWidth_toInt_le _
  · decide

variable {F : Type} [CFloat F]

theorem natAbs_cast_le [CFloatRange F] (x : F) :
    (cast x).natAbs ≤ 2 ^ 63 := by
  unfold CFloat.cast
  cases hx : toInt x with
  | none => simp
  | some n =>
      have hrange := CFloatRange.toInt_range x n hx
      simp only [Option.getD_some]
      omega

/-- Without a version, `$request_time` is a letter, a time and
milliseconds. -/
theorem plainLine_length_le [CFloatRange F] (tp : NgxTime) (r : Request F) :
    (plainLine tp r).length ≤ ngxInt64Len + 4 := by
  have hsec : intWidth ((cast (requestMs tp r)).tdiv 1000) ≤ 1 + 18 := by
    have habs := natAbs_cast_le (requestMs tp r)
    apply intWidth_le (by decide)
    rw [Int.natAbs_tdiv]
    exact lt_of_le_of_lt (Nat.div_le_div_right habs) (by decide)
  have hmsec : (ngxSprintfNum
      ((castInt (requestMs tp r)).tmod 1000).toNat '0' 3).length ≤ 3 := by
    apply ngxSprintfNum_length_le (le_refl 3) (by decide)
    have hlt := Int.tmod_lt_of_pos (castInt (requestMs tp r))
      (show (0 : ℤ) < 1000 by decide)
    omega
  have hlen : ngxInt64Len = 20 := rfl
  have hh : "h".length = 1 := rfl
  have hdot : ".".length = 1 := rfl
  simp only [plainLine, List.length_append, ngxSprintfInt_length,
    String.length_toList]
  omega

theorem customLine_length (tp : NgxTime) (r : Request F)
    (v : VersionedServer F) (multiple : Bool) (ps : Peers F) (report : Text) :
    24 < (customLine tp r v multiple ps report).length := by
  have hcustom : "custom: ".length = 8 := rfl
  have holdest : " oldest:".length = 8 := rfl
  have hpredict : " predict:".length = 9 := rfl
  unfold customLine
  simp only [List.length_append, String.length_toList]
  omega

theorem logRequestTime_length {tp : NgxTime} {u u' : Upstream F}
    {r : Request F} {t : Text} {a : ℕ} (hver : r.version = some a)
    (h : ngxHttpLogRequestTime tp u r = .ok (u', t)) :
    ngxInt64Len + 4 < t.length := by
  unfold ngxHttpLogRequestTime at h
  rw [hver] at h
  cases hps : u.tier r.data.peers with
  | none => simp [hps] at h
  | some ps =>
      simp only [hps] at h
      obtain ⟨⟨v, m⟩, -, h⟩ := Except.bind_eq_ok.mp h
      obtain ⟨⟨report, ps'⟩, -, h⟩ := Except.bind_eq_ok.mp h
      obtain ⟨-, rfl⟩ := Prod.mk.inj (Except.ok.inj h)
      exact customLine_length tp r v m ps' report

/-- The operation completes, and writes at most what the first pass over its
format reserved for it. -/
def FitsReservation (tp : NgxTime) (f : LogFields) (r : Request F)
    (vars : LogVariables) (u : Upstream F) (ops : List LogOp) (op : LogOp) :
    Prop :=
  ∃ u' t, op.run tp f r (reserveAll ops vars).2 u = .ok (u', t) ∧
    t.length ≤ (op.reserve vars).1

theorem fitsReservation_iff [CFloatRange F] (tp : NgxTime) (f : LogFields)
    (r : Request F) (vars : LogVariables) (u : Upstream F) (ops : List LogOp)
    (op : LogOp) :
    FitsReservation tp f r vars u ops op ↔
      (op = .requestTime → r.version = none) := by
  constructor
  · rintro ⟨u', t, hrun, hlen⟩ rfl
    by_contra hver
    obtain ⟨a, ha⟩ := Option.ne_none_iff_exists'.mp hver
    exact absurd (logRequestTime_length ha hrun) (not_lt.mpr hlen)
  · intro hver
    cases op with
    | copyShort len data =>
        exact ⟨u, _, rfl, (ngxHttpLogCopyShort_length len data).le⟩
    | copyLong data => exact ⟨u, _, rfl, (bytesText_length data).le⟩
    | pipe => exact ⟨u, _, rfl, (ngxHttpLogPipe_length f).le⟩
    | time => exact ⟨u, _, rfl, tp.httpLogTime_length.le⟩
    | iso8601 => exact ⟨u, _, rfl, tp.httpLogIso8601_length.le⟩
    | msec => exact ⟨u, _, rfl, ngxHttpLogMsec_length_le tp⟩
    | requestTime =>
        refine ⟨u, plainLine tp r, ?_, plainLine_length_le tp r⟩
        simp only [LogOp.run, ngxHttpLogRequestTime, hver rfl]
    | status => exact ⟨u, _, rfl, ngxHttpLogStatus_length_le f⟩
    | bytesSent =>
        refine ⟨u, _, rfl, ?_⟩
        rw [ngxHttpLogBytesSent, ngxSprintfInt_length]
        exact intWidth_toInt_le _
    | bodyBytesSent =>
        exact ⟨u, _, rfl, ngxHttpLogBodyBytesSent_length_le f⟩
    | requestLength =>
        refine ⟨u, _, rfl, ?_⟩
        rw [ngxHttpLogRequestLength, ngxSprintfInt_length]
        exact intWidth_toInt_le _
    | var escape index =>
        refine ⟨u, _, rfl, ?_⟩
        exact ngxHttpLogVariable_length_le (sameData_reserveAll ops vars)
          escape index

/-! ## The report -/

/-- Characters of `%.2f`. -/
def fixed2Width (f : F) : ℕ :=
  match toRat f with
  | none => (special f).length
  | some q =>
      (if q < 0 then 1 else 0) +
        decimalWidth ((roundHalfEven (|q| * 100)).toNat / 100) + 3

theorem sprintfFixed2_length (f : F) :
    (sprintfFixed2 f).length = fixed2Width f := by
  unfold sprintfFixed2 fixed2Width
  cases toRat f with
  | none => rfl
  | some q =>
      have hpos := decimalWidth_pos ((roundHalfEven (|q| * 100)).toNat / 100)
      have hcents : (ngxSprintfNum
          ((roundHalfEven (|q| * 100)).toNat % 100) '0' 2).length = 2 := by
        apply le_antisymm
        · apply ngxSprintfNum_length_le (le_refl 2) (by decide)
          omega
        · rw [ngxSprintfNum_length]
          exact le_max_left _ _
      simp only [List.length_append, List.length_cons, hcents,
        ngxSprintfNum_length, apply_ite List.length, List.length_nil,
        Nat.zero_add]
      omega

theorem roundHalfEven_le (q : ℚ) : roundHalfEven q ≤ q.floor + 1 := by
  unfold roundHalfEven
  dsimp only
  split
  · omega
  · split
    · omega
    · split
      · omega
      · omega

/-- A `float` has at most 39 digits before its point. -/
theorem fixed2Width_narrow_le [CFloatRange F] (x : F) :
    fixed2Width (narrow x) ≤ 43 := by
  unfold fixed2Width
  cases hq : toRat (narrow x) with
  | none => exact le_trans (CFloatRange.special_length _) (by decide)
  | some q =>
      have hrange := CFloatRange.toRat_narrow x q hq
      have hfloor : (|q| * 100).floor < 2 ^ 128 * 100 := by
        rw [Rat.floor_lt_iff]
        push_cast
        linarith
      have hround := roundHalfEven_le (|q| * 100)
      have hwidth : decimalWidth
          ((roundHalfEven (|q| * 100)).toNat / 100) ≤ 39 := by
        apply decimalWidth_le (by decide)
        omega
      dsimp only
      split
      · omega
      · omega

/-- Bytes written into a buffer, from its start and with the terminating
zero. -/
structure BufferWrite where
  capacity : ℕ
  extent : ℕ
  deriving DecidableEq

def BufferWrite.Fits (w : BufferWrite) : Prop :=
  w.extent ≤ w.capacity

instance (w : BufferWrite) : Decidable w.Fits :=
  inferInstanceAs (Decidable (w.extent ≤ w.capacity))

/-- The versions that a loop over the peers reads before a `NULL` stops
it. -/
def readVersions (vs : Versions F) : List Peer → List (VersionedServer F)
  | [] => []
  | p :: ps =>
      match p.version with
      | none => []
      | some a => vs a :: readVersions vs ps

/-- The writes of the loop over the peers when the line holds `length` bytes:
`sprintf` into a temporary of 100 bytes and `strcat` to the line. -/
def entryWrites (pt : ℤ) :
    ℕ → List (VersionedServer F) → List BufferWrite
  | _, [] => []
  | length, v :: vs =>
      let tmp := (monitorEntry pt v).length
      { capacity := 100, extent := tmp + 1 } ::
        { capacity := 1000, extent := length + tmp + 1 } ::
          entryWrites pt (length + tmp) vs

/-- The totals that the report on a list of versions ends with. -/
def reportTotals (tp : NgxTime) (ps : Peers F)
    (servers : List (VersionedServer F)) : Text :=
  monitorTotals (monitorCapacity (peersPt ps.peer) servers) ps.maxReq
    (monitorArrivalRate tp ps)

/-- What `custom_system_monitor_capacity` writes into its buffers, in
order. -/
def monitorWrites (tp : NgxTime) (ps : Peers F) (vs : Versions F) :
    List BufferWrite :=
  let pt : ℤ := peersPt ps.peer
  if pt = 0 then []
  else
    let servers := readVersions vs ps.peer
    let header := (monitorHeader tp).length
    let entries := ((servers.map (monitorEntry pt)).flatten).length
    let tmp := (reportTotals tp ps servers).length
    { capacity := 1000, extent := header + 1 } ::
      entryWrites pt header servers ++
        if ps.peer.all (·.version.isSome) then
          [{ capacity := 200, extent := tmp + 1 },
            { capacity := 1000, extent := header + entries + tmp + 1 }]
        else []

omit [CFloat F] in
theorem readVersions_of_derefAll {vs : Versions F} {ps : List Peer}
    {servers : List (VersionedServer F)}
    (h : derefAll vs ps = .ok servers) :
    readVersions vs ps = servers ∧ ps.all (·.version.isSome) = true := by
  unfold derefAll at h
  induction ps generalizing servers with
  | nil =>
      obtain rfl := Except.ok.inj h
      exact ⟨rfl, rfl⟩
  | cons p ps ih =>
      rw [List.mapM_cons] at h
      obtain ⟨v, hv, h⟩ := Except.bind_eq_ok.mp h
      obtain ⟨rest, hrest, h⟩ := Except.bind_eq_ok.mp h
      obtain rfl := Except.ok.inj h
      obtain ⟨hread, hall⟩ := ih hrest
      unfold Versions.deref at hv
      cases hver : p.version with
      | none => simp [hver] at hv
      | some a =>
          rw [hver] at hv
          obtain rfl := Except.ok.inj hv
          simp [readVersions, hver, hread, hall]

/-- The last write is the end of the line that the function returns. -/
theorem monitorWrites_line {tp : NgxTime} {ps ps' : Peers F}
    {vs : Versions F} {t : Text}
    (h : customSystemMonitorCapacity tp ps vs = .ok (.allocated t, ps')) :
    { capacity := 1000, extent := t.length + 1 } ∈ monitorWrites tp ps vs := by
  unfold customSystemMonitorCapacity at h
  dsimp only at h
  split at h
  · cases h
  · next hpt =>
      obtain ⟨servers, hservers, h⟩ := Except.bind_eq_ok.mp h
      obtain ⟨hline, -⟩ := Prod.mk.inj (Except.ok.inj h)
      obtain rfl := MonitorText.allocated.inj hline
      obtain ⟨hread, hall⟩ := readVersions_of_derefAll hservers
      unfold monitorWrites
      dsimp only
      rw [if_neg hpt, if_pos hall, hread]
      simp only [List.length_append, reportTotals]
      exact List.mem_append_right _
        (List.mem_cons_of_mem _ (List.mem_singleton.mpr rfl))

/-- Characters of the entry of a version: the address, the port and the
capacity, with 12 characters around them. -/
def entryWidth (pt : ℤ) (v : VersionedServer F) : ℕ :=
  if eq v.predictedAvgRt (ofInt 0) then 0
  else
    12 + (v.ip.getD "(null)".toList).length +
      intWidth (toInt32 (v.port.getD 0)) +
      fixed2Width (narrow (narrow (ofInt pt) / v.predictedAvgRt))

/-- Characters of the totals: three numbers, with 34 characters around
them. -/
def totalsWidth (tp : NgxTime) (ps : Peers F)
    (servers : List (VersionedServer F)) : ℕ :=
  34 + fixed2Width (monitorCapacity (peersPt ps.peer) servers) +
    intWidth (toInt32 ps.maxReq) + fixed2Width (monitorArrivalRate tp ps)

/-- Without a performance target there is no report.  With one, each entry has
to stay below 100 characters, and the line below 1000: the header of 42
characters, the entries and, when every peer has a version, the totals. -/
def MonitorRoom (tp : NgxTime) (ps : Peers F) (vs : Versions F) : Prop :=
  let pt : ℤ := peersPt ps.peer
  let servers := readVersions vs ps.peer
  pt = 0 ∨
    (∀ v ∈ servers, entryWidth pt v < 100) ∧
      42 + (servers.map (entryWidth pt)).sum +
        (if ps.peer.all (·.version.isSome) then totalsWidth tp ps servers
          else 0) < 1000

theorem monitorHeader_length (tp : NgxTime) :
    (monitorHeader tp).length = 42 := by
  have hopen : "[".length = 1 := rfl
  have hstate : "] System State:".length = 15 := rfl
  simp only [monitorHeader, List.length_append, String.length_toList,
    tp.httpLogTime_length]
  omega

theorem monitorEntry_length (pt : ℤ) (v : VersionedServer F) :
    (monitorEntry pt v).length = entryWidth pt v := by
  have hserver : "server:(".length = 8 := rfl
  have hcolon : ":".length = 1 := rfl
  have hdash : ")-".length = 2 := rfl
  have hcomma : ",".length = 1 := rfl
  unfold monitorEntry entryWidth
  split
  · rfl
  · simp only [List.length_append, String.length_toList, ngxSprintfInt_length,
      sprintfFixed2_length]
    omega

theorem reportTotals_length (tp : NgxTime) (ps : Peers F)
    (servers : List (VersionedServer F)) :
    (reportTotals tp ps servers).length = totalsWidth tp ps servers := by
  have htotal : "total:".length = 6 := rfl
  have hload : ",request_load:".length = 14 := rfl
  have hrate : ",arrival_rate:".length = 14 := rfl
  unfold reportTotals monitorTotals totalsWidth
  simp only [List.length_append, String.length_toList, ngxSprintfInt_length,
    sprintfFixed2_length]
  omega

theorem intWidth_toInt32_le (i : ℤ) : intWidth (toInt32 i) ≤ 11 := by
  have hlo : -(2 ^ 31) ≤ toInt32 i := by
    have h := Int.le_bmod (x := i) (m := 2 ^ 32) (by decide)
    unfold toInt32
    omega
  have hhi : toInt32 i < 2 ^ 31 := by
    have h := Int.bmod_lt (x := i) (m := 2 ^ 32) (by decide)
    unfold toInt32
    omega
  apply intWidth_le (k := 10) (by decide)
  omega

theorem monitorCapacity_narrow (pt : ℤ) (servers : List (VersionedServer F)) :
    ∃ x : F, monitorCapacity pt servers = narrow x := by
  unfold monitorCapacity
  generalize hc : (narrow (ofInt 0) : F) = c
  have hnarrow : ∃ x : F, c = narrow x := ⟨ofInt 0, hc.symm⟩
  clear hc
  induction servers generalizing c with
  | nil => exact hnarrow
  | cons v servers ih =>
      rw [List.foldl_cons]
      apply ih
      split
      · exact hnarrow
      · exact ⟨_, rfl⟩

theorem totalsWidth_lt [CFloatRange F] (tp : NgxTime) (ps : Peers F)
    (servers : List (VersionedServer F)) :
    totalsWidth tp ps servers < 200 := by
  obtain ⟨x, hx⟩ := monitorCapacity_narrow (peersPt ps.peer) servers
  have hcapacity := fixed2Width_narrow_le x
  have hload := intWidth_toInt32_le ps.maxReq
  have hrate : fixed2Width (monitorArrivalRate tp ps) ≤ 43 :=
    fixed2Width_narrow_le _
  unfold totalsWidth
  rw [hx]
  omega

theorem flatten_monitorEntry_length (pt : ℤ)
    (servers : List (VersionedServer F)) :
    ((servers.map (monitorEntry pt)).flatten).length =
      (servers.map (entryWidth pt)).sum := by
  rw [List.length_flatten, List.map_map]
  congr 1
  apply List.map_congr_left
  intro v hv
  exact monitorEntry_length pt v

/-- The loop over the peers stays in its buffers exactly if every entry fits
the temporary and all of them fit the line. -/
theorem entryWrites_fit_iff (pt : ℤ) (servers : List (VersionedServer F))
    {length : ℕ} (hlength : length < 1000) :
    (∀ w ∈ entryWrites pt length servers, w.Fits) ↔
      (∀ v ∈ servers, entryWidth pt v < 100) ∧
        length + (servers.map (entryWidth pt)).sum < 1000 := by
  induction servers generalizing length with
  | nil => simpa [entryWrites] using hlength
  | cons v servers ih =>
      simp only [entryWrites, List.forall_mem_cons, BufferWrite.Fits,
        monitorEntry_length, List.map_cons, List.sum_cons]
      constructor
      · rintro ⟨htmp, hline, hrest⟩
        obtain ⟨hall, hsum⟩ := (ih hline).mp hrest
        exact ⟨⟨htmp, hall⟩, by omega⟩
      · rintro ⟨⟨htmp, hall⟩, hsum⟩
        have hline : length + entryWidth pt v < 1000 := by omega
        exact ⟨htmp, hline, (ih hline).mpr ⟨hall, by omega⟩⟩

theorem monitorWrites_fit_iff [CFloatRange F] (tp : NgxTime) (ps : Peers F)
    (vs : Versions F) :
    (∀ w ∈ monitorWrites tp ps vs, w.Fits) ↔ MonitorRoom tp ps vs := by
  unfold monitorWrites MonitorRoom
  dsimp only
  by_cases hpt : peersPt ps.peer = 0
  · simp [hpt]
  · rw [if_neg hpt, List.cons_append, List.forall_mem_cons,
      List.forall_mem_append, monitorHeader_length,
      entryWrites_fit_iff _ _ (by decide), reportTotals_length,
      flatten_monitorEntry_length, or_iff_right hpt]
    have htotals := totalsWidth_lt tp ps (readVersions vs ps.peer)
    split
    · simp only [List.forall_mem_cons, BufferWrite.Fits]
      constructor
      · rintro ⟨-, ⟨hall, -⟩, -, hline, -⟩
        exact ⟨hall, hline⟩
      · rintro ⟨hall, hline⟩
        refine ⟨by decide, ⟨hall, by omega⟩, htotals, hline, ?_⟩
        simp
    · constructor
      · rintro ⟨-, hentries, -⟩
        exact hentries
      · intro hentries
        exact ⟨by decide, hentries, by simp⟩

/-- The writes of a log line fit exactly if no format evaluates
`$request_time` for a request that was sent to a version, and the report has
room for the peers; a report that is written ends within its last write. -/
theorem log_writes_fit_iff [CFloatRange F] (tp : NgxTime) (f : LogFields)
    (r : Request F) (vars : LogVariables) :
    (∀ (ops : List LogOp) (u : Upstream F),
      (∀ op ∈ ops, FitsReservation tp f r vars u ops op) ↔
        (.requestTime ∈ ops → r.version = none)) ∧
    (∀ (ps : Peers F) (vs : Versions F),
      (∀ w ∈ monitorWrites tp ps vs, w.Fits) ↔ MonitorRoom tp ps vs) ∧
    ∀ (ps ps' : Peers F) (vs : Versions F) (t : Text),
      customSystemMonitorCapacity tp ps vs = .ok (.allocated t, ps') →
        { capacity := 1000, extent := t.length + 1 } ∈ monitorWrites tp ps vs := by
  refine ⟨?_, fun ps vs => monitorWrites_fit_iff tp ps vs, ?_⟩
  · intro ops u
    constructor
    · intro hfit hmem
      exact (fitsReservation_iff tp f r vars u ops _).mp (hfit _ hmem) rfl
    · intro hver op hop
      apply (fitsReservation_iff tp f r vars u ops op).mpr
      rintro rfl
      exact hver hop
  · intro ps ps' vs t hreport
    exact monitorWrites_line hreport

instance (tp : NgxTime) (ps : Peers F) (vs : Versions F) :
    Decidable (MonitorRoom tp ps vs) :=
  inferInstanceAs (Decidable (_ ∨ _))

/-- A request that was sent to no version, and two peers. -/
theorem log_writes_fit_arrived :
    (∀ (ops : List LogOp) (u : Upstream RatFloat), ∀ op ∈ ops,
      FitsReservation (NgxTime.ofSec 1) noFields
        (ngxHttpUpstreamInitRequest 0 heavyLight.upstream (NgxTime.ofSec 1))
        (fun _ => none) u ops op) ∧
    ∀ w ∈ monitorWrites (NgxTime.ofSec 1) heavyLight.upstream.primary
      heavyLight.upstream.versions, w.Fits := by
  obtain ⟨hops, hmonitor, -⟩ := log_writes_fit_iff (NgxTime.ofSec 1) noFields
    (ngxHttpUpstreamInitRequest 0 heavyLight.upstream (NgxTime.ofSec 1))
    fun _ => none
  constructor
  · intro ops u
    exact (hops ops u).mpr fun _ => rfl
  · exact (hmonitor _ _).mpr (by decide +kernel)

/-- A format with `$request_time`, logged for a request on the heavy
server. -/
theorem log_writes_overflow_dispatched :
    ∃ (s : System RatFloat) (r : Request RatFloat),
      run errorConf heavyLight [.arrive (NgxTime.ofSec 1),
        .connect 0 (NgxTime.ofSec 1)] = .ok s ∧
      s.requests[0]? = some r ∧
      (∃ u' t, ngxHttpLogRequestTime (NgxTime.ofSec 2) s.upstream r =
        .ok (u', t) ∧ 24 < t.length) ∧
      ¬∀ op ∈ [LogOp.requestTime],
        FitsReservation (NgxTime.ofSec 2) noFields r (fun _ => none)
          s.upstream [.requestTime] op := by
  obtain ⟨s, r, u, -, t, -, hrun, hr, hver, -, hlog, -⟩ :=
    heavyLight_dispatched
  have hlong := logRequestTime_length hver hlog
  refine ⟨s, r, hrun, hr, ⟨u, t, hlog, hlong⟩, ?_⟩
  intro hfit
  obtain ⟨u', t', hrun', hlen⟩ := hfit _ (List.mem_singleton.mpr rfl)
  exact absurd (logRequestTime_length hver hrun') (not_lt.mpr hlen)

end MultiversionBalancer
