import MultiversionBalancer.Core.Times
import MultiversionBalancer.Monitor.Address
import Mathlib.Data.List.Forall2

/-!
# Reading the system states

`do_GET` of `monitoring_server.py` reads the lines that `custom_system_monitor_capacity` has
written to the access log: it splits them at `System State:`, at commas, colons and minus signs.
A text that it does not accept ends in an exception, here `none`.
-/

namespace MultiversionBalancer.Monitor

open CFloat
open Core.Python
open Core.Times (Tm ngxHttpLogTime)
open Autoscaler (ServerReport serverKey)

/-! ## The parser -/

/-- `resp_entry`, with the keys that are absent. -/
structure RespEntry where
  servers : Option (List (ServerReport Text))
  totalCapacity : Option PyFloat
  concRequests : Option PyFloat
  arrivalRate : Option PyFloat

/-- `dict()`. -/
def RespEntry.empty : RespEntry where
  servers := none
  totalCapacity := none
  concRequests := none
  arrivalRate := none

def RespEntry.addServer (resp : RespEntry) (server : ServerReport Text) : RespEntry :=
  { resp with servers := some (resp.servers.getD [] ++ [server]) }

/-- The entry of a server, from its values behind the name. -/
def readServer (values : List Text) : Option (ServerReport Text) :=
  match split (join [':'] values) ['-'] with
  | [socket, capacity] =>
      match split (innerSlice socket) [':'] with
      | [ip, port] =>
          (int port).bind fun port => (float capacity).map fun capacity =>
            { ip := ip, port := port, capacity := format2f capacity }
      | _ => none
  | _ => none

/-- The body of the loop over the entries of a line. -/
def readEntry (resp : RespEntry) (entry : Text) : Option RespEntry :=
  let values := split entry [':']
  if values.head? = some "server".toList then (readServer values.tail).map resp.addServer
  else if values.head? = some "total".toList then
    (values[1]?.bind float).map fun x => { resp with totalCapacity := some x }
  else if values.head? = some "request_load".toList then
    (values[1]?.bind float).map fun x => { resp with concRequests := some x }
  else if values.head? = some "arrival_rate".toList then
    (values[1]?.bind float).map fun x => { resp with arrivalRate := some x }
  else some resp

/-- The body of the loop over the lines; each ends with a newline. -/
def readLine (line : Text) : Option RespEntry :=
  match split line "System State:".toList with
  | [_, data] => (split data.dropLast [',']).foldlM readEntry .empty
  | _ => none

/-- The line of the log that ends with a report, in the format of `build_conf`. -/
def logLine (report : Text) : Text :=
  report ++ [' ', '\n']

/-! ## The entry of a server -/

def serverText (ip port capacity : Text) : Text :=
  "server".toList ++ ':' :: (('(' :: ip) ++ ':' :: (port ++ ')' :: '-' :: capacity))

/-- The parts of the text of a server are those that are printed, unless the port or the
capacity has a minus sign: then there are too many of them. -/
theorem readServer_parts {ip port capacity : Text} (hip : '-' ∉ ip) (hcolon : ':' ∉ ip)
    (hport : ':' ∉ port) :
    readServer [('(' :: ip), (port ++ ')' :: '-' :: capacity)] =
      if '-' ∈ port ∨ '-' ∈ capacity then none
      else (int port).bind fun p => (float capacity).map fun x => ⟨ip, p, format2f x⟩ := by
  have hjoin : join [':'] [('(' :: ip), (port ++ ')' :: '-' :: capacity)] =
      ('(' :: (ip ++ ':' :: (port ++ [')']))) ++ '-' :: capacity := by
    simp [join, List.intercalate]
  rw [readServer, hjoin]
  split_ifs with hminus
  · have hlength : 3 ≤
        (split (('(' :: (ip ++ ':' :: (port ++ [')']))) ++ '-' :: capacity) ['-']).length := by
      rw [length_split]
      simp only [List.count_cons, List.count_append]
      rcases hminus with hmem | hmem
      · have hpos := List.count_pos_iff.mpr hmem
        simp
        omega
      · have hpos := List.count_pos_iff.mpr hmem
        simp
        omega
    split
    · next hlist =>
        rw [hlist] at hlength
        exact absurd hlength (Nat.not_succ_le_self 2)
    · rfl
  · obtain ⟨hp, hc⟩ := not_or.mp hminus
    have hsocket : '-' ∉ '(' :: (ip ++ ':' :: (port ++ [')'])) := by
      simp [hip, hp]
    have hinner : innerSlice ('(' :: (ip ++ ':' :: (port ++ [')']))) = ip ++ ':' :: port := by
      rw [innerSlice, ← List.cons_append, ← List.cons_append, ← List.append_assoc,
        List.dropLast_concat]
      rfl
    rw [split_pair hsocket hc]
    dsimp only
    rw [hinner, split_pair hcolon hport]

theorem readEntry_server {ip port capacity : Text} (hip : '-' ∉ ip) (hcolon : ':' ∉ ip)
    (hport : ':' ∉ port) (hcapacity : ':' ∉ capacity) (resp : RespEntry) :
    readEntry resp (serverText ip port capacity) =
      if '-' ∈ port ∨ '-' ∈ capacity then none
      else (int port).bind fun p => (float capacity).map fun x =>
        resp.addServer ⟨ip, p, format2f x⟩ := by
  have hlast : ':' ∉ port ++ ')' :: '-' :: capacity := by
    simp [hport, hcapacity]
  have hmiddle : ':' ∉ '(' :: ip := by
    simp [hcolon]
  have hname : ':' ∉ "server".toList := by decide
  have hvalues : split (serverText ip port capacity) [':'] =
      ["server".toList, '(' :: ip, port ++ ')' :: '-' :: capacity] :=
    (split_append_cons hname _).trans (congrArg _ (split_pair hmiddle hlast))
  rw [readEntry, hvalues, List.head?_cons, if_pos rfl, List.tail_cons,
    readServer_parts hip hcolon hport]
  split_ifs
  · rfl
  · cases int port with
    | none => rfl
    | some p => cases float capacity <;> rfl

/-! ## The totals -/

theorem not_mem_number {s : Text} (hs : ∀ ch ∈ s, isNumberChar ch = true) {c : Char}
    (h : isNumberChar c = false) : c ∉ s := fun hmem => by
  rw [hs c hmem] at h
  cases h

theorem values_number (name : Text) {value : Text} {x : PyFloat} (hname : ':' ∉ name)
    (hvalue : ':' ∉ value) (hx : float value = some x) :
    (split (name ++ ':' :: value) [':']).head? = some name ∧
      (split (name ++ ':' :: value) [':'])[1]?.bind float = some x := by
  rw [split_pair hname hvalue]
  exact ⟨rfl, hx⟩

variable {resp : RespEntry} {value : Text} {x : PyFloat}

theorem readEntry_total (hvalue : ':' ∉ value) (hx : float value = some x) :
    readEntry resp ("total".toList ++ ':' :: value) =
      some { resp with totalCapacity := some x } := by
  obtain ⟨hhead, hnumber⟩ := values_number "total".toList (by decide) hvalue hx
  have hserver : some "total".toList ≠ some "server".toList := by decide
  rw [readEntry, hhead, if_neg hserver, if_pos rfl, hnumber, Option.map_some]

theorem readEntry_requestLoad (hvalue : ':' ∉ value) (hx : float value = some x) :
    readEntry resp ("request_load".toList ++ ':' :: value) =
      some { resp with concRequests := some x } := by
  obtain ⟨hhead, hnumber⟩ := values_number "request_load".toList (by decide) hvalue hx
  have hserver : some "request_load".toList ≠ some "server".toList := by decide
  have htotal : some "request_load".toList ≠ some "total".toList := by decide
  rw [readEntry, hhead, if_neg hserver, if_neg htotal, if_pos rfl, hnumber, Option.map_some]

theorem readEntry_arrivalRate (hvalue : ':' ∉ value) (hx : float value = some x) :
    readEntry resp ("arrival_rate".toList ++ ':' :: value) =
      some { resp with arrivalRate := some x } := by
  obtain ⟨hhead, hnumber⟩ := values_number "arrival_rate".toList (by decide) hvalue hx
  have hserver : some "arrival_rate".toList ≠ some "server".toList := by decide
  have htotal : some "arrival_rate".toList ≠ some "total".toList := by decide
  have hload : some "arrival_rate".toList ≠ some "request_load".toList := by decide
  rw [readEntry, hhead, if_neg hserver, if_neg htotal, if_neg hload, if_pos rfl, hnumber,
    Option.map_some]

section Report

variable {F : Type} [CFloat F]

theorem monitorTotals_eq (capacity : F) (maxReq : ℤ) (rate : F) :
    monitorTotals capacity maxReq rate =
      ("total".toList ++ ':' :: sprintfFixed2 capacity) ++
        ',' :: (("request_load".toList ++ ':' :: ngxSprintfInt (toInt32 maxReq)) ++
          ',' :: ("arrival_rate".toList ++ ':' :: sprintfFixed2 rate)) := by
  have htotal : "total:".toList = "total".toList ++ [':'] := by decide
  have hload : ",request_load:".toList = ',' :: ("request_load".toList ++ [':']) := by decide
  have hrate : ",arrival_rate:".toList = ',' :: ("arrival_rate".toList ++ [':']) := by decide
  unfold monitorTotals
  generalize "total:".toList = total, ",request_load:".toList = load,
    ",arrival_rate:".toList = arrival at *
  simp only [htotal, hload, hrate, List.append_assoc, List.cons_append, List.nil_append]

theorem monitorEntry_eq {pt : ℤ} {v : VersionedServer F} {ip : Text} (hip : v.ip = some ip)
    (hpredicted : eq v.predictedAvgRt (ofInt 0) = false) :
    monitorEntry pt v = serverText ip (ngxSprintfInt (toInt32 (v.port.getD 0)))
      (sprintfFixed2 (narrow (narrow (ofInt pt) / v.predictedAvgRt))) ++ [','] := by
  have hserver : "server:(".toList = "server".toList ++ [':', '('] := by decide
  have hport : ")-".toList = [')', '-'] := by decide
  have hcomma : ",".toList = [','] := by decide
  have hcolon : ":".toList = [':'] := by decide
  have hnot : ¬ eq v.predictedAvgRt (ofInt 0 : F) = true := by
    rw [hpredicted]
    exact Bool.false_ne_true
  unfold monitorEntry serverText
  generalize "server:(".toList = opening, ")-".toList = closing, ",".toList = comma,
    ":".toList = colon, "server".toList = name at *
  simp only [if_neg hnot, hip, Option.getD_some, hserver, hport, hcomma, hcolon,
    List.append_assoc, List.cons_append, List.nil_append]

/-- The capacity of a version, as it is printed. -/
def quotient (pt : ℤ) (v : VersionedServer F) : F :=
  narrow (narrow (ofInt pt) / v.predictedAvgRt)

/-- The version is reported. -/
def Predicted (v : VersionedServer F) : Bool :=
  !eq v.predictedAvgRt (ofInt 0)

def versionText (pt : ℤ) (v : VersionedServer F) : Text :=
  serverText (v.ip.getD []) (ngxSprintfInt (toInt32 (v.port.getD 0)))
    (sprintfFixed2 (quotient pt v))

def versionReport (pt : ℤ) (v : VersionedServer F) : ServerReport Text where
  ip := v.ip.getD []
  port := toInt32 (v.port.getD 0)
  capacity := sprintfFixed2 (quotient pt v)

/-- Neither the port nor the capacity has a minus sign. -/
def Readable (pt : ℤ) (v : VersionedServer F) : Prop :=
  0 ≤ toInt32 (v.port.getD 0) ∧ ¬ HasMinus (quotient pt v)

/-- The address of the version has no delimiter. -/
def Undelimited (v : VersionedServer F) : Prop :=
  ∃ ip, v.ip = some ip ∧ ∀ ch ∈ delimiters, ch ∉ ip

theorem minus_mem_ngxSprintfInt (i : ℤ) : '-' ∈ ngxSprintfInt i ↔ i < 0 := by
  rw [ngxSprintfInt_eq, List.append_nil, List.mem_append,
    or_iff_left (not_mem_toDigits (by decide) _)]
  by_cases hi : i < 0
  · simp [hi]
  · simp [hi]

variable [CFloatText F] {pt : ℤ} {v : VersionedServer F}

theorem readEntry_versionText (hip : Undelimited v) :
    readEntry resp (versionText pt v) =
      if '-' ∈ ngxSprintfInt (toInt32 (v.port.getD 0)) ∨ '-' ∈ sprintfFixed2 (quotient pt v) then
        none
      else some (resp.addServer ⟨v.ip.getD [], toInt32 (v.port.getD 0),
        format2f (printed (quotient pt v))⟩) := by
  obtain ⟨ip, hip, hdelim⟩ := hip
  have hport := not_mem_number (isNumberChar_ngxSprintfInt (toInt32 (v.port.getD 0)))
    (c := ':') (by decide)
  have hcapacity := not_mem_number (isNumberChar_sprintfFixed2 (quotient pt v))
    (c := ':') (by decide)
  have hfloat := float_sprintfFixed2 (List.forall_mem_nil _) (quotient pt v)
  rw [List.append_nil] at hfloat
  rw [versionText, hip, Option.getD_some, readEntry_server (hdelim '-' (by decide))
    (hdelim ':' (by decide)) hport hcapacity, int_ngxSprintfInt, hfloat, Option.bind_some,
    Option.map_some]

theorem readEntry_readable [CFloatRange F] (hip : Undelimited v) (hread : Readable pt v) :
    readEntry resp (versionText pt v) = some (resp.addServer (versionReport pt v)) := by
  have hnot : ¬ ('-' ∈ ngxSprintfInt (toInt32 (v.port.getD 0)) ∨
      '-' ∈ sprintfFixed2 (quotient pt v)) := by
    rw [minus_mem_ngxSprintfInt, minus_mem_sprintfFixed2]
    exact not_or.mpr ⟨Int.not_lt.mpr hread.1, hread.2⟩
  rw [readEntry_versionText hip, if_neg hnot, versionReport]
  exact congrArg (fun c => some (resp.addServer ⟨_, _, c⟩)) (format2f_printed hread.2)

theorem readEntry_not_readable (hip : Undelimited v) (hread : ¬ Readable pt v) :
    readEntry resp (versionText pt v) = none := by
  refine (readEntry_versionText hip).trans (if_pos ?_)
  rw [minus_mem_ngxSprintfInt, minus_mem_sprintfFixed2]
  by_contra hnot
  obtain ⟨hport, hcapacity⟩ := not_or.mp hnot
  exact hread ⟨Int.not_lt.mp hport, hcapacity⟩

/-! ## The whole report -/

/-- The text of a version has no comma, and not the letter of the marker. -/
theorem not_mem_versionText (hip : Undelimited v) {c : Char} (hc : c ∈ [',', 'm']) :
    c ∉ versionText pt v := by
  obtain ⟨ip, hip, hdelim⟩ := hip
  have hall : ∀ c ∈ [',', 'm'], isNumberChar c = false ∧ c ∉ "server".toList ∧
      c ∉ [':', '(', ')', '-'] ∧ c ∈ delimiters := forall_mem_of_all (by decide)
  obtain ⟨hnumber, hname, hmarks, hmem⟩ := hall c hc
  have hport := not_mem_number (isNumberChar_ngxSprintfInt (toInt32 (v.port.getD 0))) hnumber
  have hcapacity := not_mem_number (isNumberChar_sprintfFixed2 (quotient pt v)) hnumber
  have hcut := hdelim c hmem
  simp only [List.mem_cons, List.not_mem_nil, or_false, not_or] at hmarks
  unfold versionText serverText
  generalize "server".toList = name at *
  rw [hip, Option.getD_some]
  simp [hname, hcut, hport, hcapacity, hmarks]

omit [CFloatText F] in
theorem monitorEntry_versionText (hip : Undelimited v) :
    monitorEntry pt v = if Predicted v then versionText pt v ++ [','] else [] := by
  cases hpredicted : eq v.predictedAvgRt (ofInt 0 : F) with
  | true =>
      have hnone : ¬ Predicted v = true := by
        rw [Predicted, hpredicted]
        exact Bool.false_ne_true
      rw [if_neg hnone, monitorEntry, if_pos hpredicted]
  | false =>
      have hsome : Predicted v = true := by
        rw [Predicted, hpredicted]
        rfl
      obtain ⟨ip, hip, -⟩ := hip
      rw [if_pos hsome, monitorEntry_eq hip hpredicted, versionText, hip, Option.getD_some,
        quotient]

theorem split_report {servers : List (VersionedServer F)} (hip : ∀ v ∈ servers, Undelimited v)
    (rest : Text) :
    split ((servers.map (monitorEntry pt)).flatten ++ rest) [','] =
      (servers.filter Predicted).map (versionText pt) ++ split rest [','] := by
  induction servers with
  | nil => rfl
  | cons v servers ih =>
      obtain ⟨hv, hservers⟩ := List.forall_mem_cons.mp hip
      rw [List.map_cons, List.flatten_cons, List.append_assoc, List.filter_cons,
        monitorEntry_versionText hv]
      split_ifs with hpredicted
      · rw [List.append_assoc, List.singleton_append,
          split_append_cons (not_mem_versionText hv (by decide)), ih hservers, List.map_cons,
          List.cons_append]
      · rw [List.nil_append, ih hservers]

theorem foldlM_readable [CFloatRange F] {versions : List (VersionedServer F)}
    (hip : ∀ v ∈ versions, Undelimited v) (hread : ∀ v ∈ versions, Readable pt v) :
    (versions.map (versionText pt)).foldlM readEntry resp =
      some ((versions.map (versionReport pt)).foldl RespEntry.addServer resp) := by
  induction versions generalizing resp with
  | nil => rfl
  | cons v versions ih =>
      obtain ⟨hv, hversions⟩ := List.forall_mem_cons.mp hip
      obtain ⟨hgood, hall⟩ := List.forall_mem_cons.mp hread
      rw [List.map_cons, List.foldlM_cons, readEntry_readable hv hgood]
      exact ih hversions hall

/-- A version that cannot be read ends the reading. -/
theorem foldlM_not_readable [CFloatRange F] {versions : List (VersionedServer F)}
    (hip : ∀ v ∈ versions, Undelimited v) (hread : ∃ v ∈ versions, ¬ Readable pt v) :
    (versions.map (versionText pt)).foldlM readEntry resp = none := by
  induction versions generalizing resp with
  | nil =>
      obtain ⟨v, hv, -⟩ := hread
      cases hv
  | cons v versions ih =>
      obtain ⟨hv, hversions⟩ := List.forall_mem_cons.mp hip
      rw [List.map_cons, List.foldlM_cons]
      by_cases hgood : Readable pt v
      · rw [readEntry_readable hv hgood]
        refine ih hversions ?_
        obtain ⟨w, hw, hbad⟩ := hread
        rcases List.mem_cons.mp hw with rfl | hw
        · exact absurd hgood hbad
        · exact ⟨w, hw, hbad⟩
      · rw [readEntry_not_readable hv hgood]
        rfl

theorem servers_foldl (reports : List (ServerReport Text)) (resp : RespEntry) :
    (reports.foldl RespEntry.addServer resp).servers.getD [] =
      resp.servers.getD [] ++ reports := by
  induction reports generalizing resp with
  | nil => exact (List.append_nil _).symm
  | cons report reports ih =>
      rw [List.foldl_cons, ih, RespEntry.addServer, Option.getD_some, List.append_assoc,
        List.singleton_append]

/-- The number of requests that is read. -/
def printedInt (i : ℤ) : PyFloat :=
  ofMagnitude (decide (i < 0)) i.natAbs

theorem foldlM_totals (capacity rate : F) (maxReq : ℤ) :
    (split (monitorTotals capacity maxReq rate ++ [' ']) [',']).foldlM readEntry resp =
      some { resp with
        totalCapacity := some (printed capacity)
        concRequests := some (printedInt (toInt32 maxReq))
        arrivalRate := some (printed rate) } := by
  have hnil := List.forall_mem_nil fun ch => isSpace ch = true
  have hblank : ∀ ch ∈ [' '], isSpace ch = true := forall_mem_of_all (by decide)
  have hcapacity := float_sprintfFixed2 hnil capacity
  have hload := float_ngxSprintfInt hnil (toInt32 maxReq)
  have hrate := float_sprintfFixed2 hblank rate
  rw [List.append_nil] at hcapacity hload
  have hnum (c : Char) (hc : isNumberChar c = false) (f : F) : c ∉ sprintfFixed2 f :=
    not_mem_number (isNumberChar_sprintfFixed2 f) hc
  have hint (c : Char) (hc : isNumberChar c = false) : c ∉ ngxSprintfInt (toInt32 maxReq) :=
    not_mem_number (isNumberChar_ngxSprintfInt (toInt32 maxReq)) hc
  have hlast : ':' ∉ sprintfFixed2 rate ++ [' '] := by
    simp [hnum ':' (by decide) rate]
  have hparts : split (monitorTotals capacity maxReq rate ++ [' ']) [','] =
      ["total".toList ++ ':' :: sprintfFixed2 capacity,
        "request_load".toList ++ ':' :: ngxSprintfInt (toInt32 maxReq),
        "arrival_rate".toList ++ ':' :: (sprintfFixed2 rate ++ [' '])] := by
    have hpart {name value : Text} (hname : ',' ∉ name) (hvalue : ',' ∉ value) :
        ',' ∉ name ++ ':' :: value := by
      simp [hname, hvalue]
    have hend : ',' ∉ sprintfFixed2 rate ++ [' '] := by
      simp [hnum ',' (by decide) rate]
    have htotal : ',' ∉ "total".toList ++ ':' :: sprintfFixed2 capacity :=
      hpart (by decide) (hnum ',' (by decide) capacity)
    have hrequests : ',' ∉ "request_load".toList ++ ':' :: ngxSprintfInt (toInt32 maxReq) :=
      hpart (by decide) (hint ',' (by decide))
    have harrival : ',' ∉ "arrival_rate".toList ++ ':' :: (sprintfFixed2 rate ++ [' ']) :=
      hpart (by decide) hend
    rw [← split_pair hrequests harrival, ← split_append_cons htotal, monitorTotals_eq]
    generalize "total".toList = total, "request_load".toList = load,
      "arrival_rate".toList = arrival
    simp only [List.append_assoc, List.cons_append]
  rw [hparts, List.foldlM_cons, readEntry_total (hnum ':' (by decide) capacity) hcapacity]
  rw [Option.bind_eq_bind, Option.bind_some, List.foldlM_cons,
    readEntry_requestLoad (hint ':' (by decide)) hload, Option.bind_eq_bind, Option.bind_some,
    List.foldlM_cons, readEntry_arrivalRate hlast hrate]
  rfl

/-- The letter that only the marker has. -/
theorem m_not_mem_ngxHttpLogTime (tm : Tm) (gmtoff : ℤ) : 'm' ∉ ngxHttpLogTime tm gmtoff := by
  have hmonth (i : ℕ) : 'm' ∉ (Core.Times.months[i]?.getD "").toList := by
    have hall : ∀ name ∈ "" :: Core.Times.months, 'm' ∉ name.toList := by decide
    refine hall _ ?_
    cases hget : Core.Times.months[i]? with
    | none => exact List.mem_cons_self
    | some name => exact List.mem_cons_of_mem _ (List.mem_of_getElem? hget)
  have hdigit (n width : ℕ) : 'm' ∉ ngxSprintfNum n '0' width :=
    not_mem_number (fun ch hch => isNumberChar_digit (isDigit_ngxSprintfNum ch hch)) (by decide)
  have hyear (n : ℕ) : 'm' ∉ ngxSprintfNum n ' ' 0 := by
    rw [ngxSprintfNum_zero]
    exact not_mem_toDigits (by decide) n
  have hsign : 'm' ≠ (if gmtoff < 0 then '-' else '+') := by
    split_ifs <;> decide
  simp [ngxHttpLogTime, hmonth, hdigit, hyear, hsign]

theorem readLine_report {tm : Tm} {gmtoff : ℤ} {tp : NgxTime}
    (htime : tp.httpLogTime = ngxHttpLogTime tm gmtoff) {servers : List (VersionedServer F)}
    (hip : ∀ v ∈ servers, Undelimited v) (capacity rate : F) (maxReq : ℤ) :
    readLine (logLine (monitorHeader tp ++ (servers.map (monitorEntry pt)).flatten ++
        monitorTotals capacity maxReq rate)) =
      (((servers.filter Predicted).map (versionText pt)).foldlM readEntry .empty).map fun resp =>
        { resp with
          totalCapacity := some (printed capacity)
          concRequests := some (printedInt (toInt32 maxReq))
          arrivalRate := some (printed rate) } := by
  have hmarker : "System State:".toList = "Syste".toList ++ 'm' :: " State:".toList := by decide
  have hhead : 'm' ∉ '[' :: (tp.httpLogTime ++ [']', ' ']) := by
    simp [htime, m_not_mem_ngxHttpLogTime tm gmtoff]
  have hversions : 'm' ∉ (servers.map (monitorEntry pt)).flatten := by
    rw [List.mem_flatten]
    rintro ⟨text, htext, hmem⟩
    obtain ⟨v, hv, rfl⟩ := List.mem_map.mp htext
    rw [monitorEntry_versionText (hip v hv)] at hmem
    split_ifs at hmem
    · rcases List.mem_append.mp hmem with hmem | hmem
      · exact not_mem_versionText (hip v hv) (by decide) hmem
      · revert hmem
        decide
    · cases hmem
  have hnum (f : F) : 'm' ∉ sprintfFixed2 f :=
    not_mem_number (isNumberChar_sprintfFixed2 f) (by decide)
  have hint : 'm' ∉ ngxSprintfInt (toInt32 maxReq) :=
    not_mem_number (isNumberChar_ngxSprintfInt (toInt32 maxReq)) (by decide)
  have hdata : 'm' ∉ (servers.map (monitorEntry pt)).flatten ++
      monitorTotals capacity maxReq rate ++ [' ', '\n'] := by
    have htotal : 'm' ∉ "total".toList := by decide
    have hload : 'm' ∉ "request_load".toList := by decide
    have hrate : 'm' ∉ "arrival_rate".toList := by decide
    rw [monitorTotals_eq]
    generalize "total".toList = total, "request_load".toList = load,
      "arrival_rate".toList = arrival at *
    simp only [List.mem_append, List.mem_cons, not_or]
    simp [hversions, hnum, hint, htotal, hload, hrate]
  have hline : logLine (monitorHeader tp ++ (servers.map (monitorEntry pt)).flatten ++
      monitorTotals capacity maxReq rate) =
      '[' :: (tp.httpLogTime ++ [']', ' ']) ++ ("Syste".toList ++ 'm' :: " State:".toList) ++
        ((servers.map (monitorEntry pt)).flatten ++ monitorTotals capacity maxReq rate ++
          [' ', '\n']) := by
    have hopen : "[".toList = ['['] := by decide
    have hclose : "] System State:".toList =
        [']', ' '] ++ ("Syste".toList ++ 'm' :: " State:".toList) := by decide
    rw [logLine, monitorHeader, hopen, hclose]
    generalize "Syste".toList = before, " State:".toList = behind
    simp only [List.append_assoc, List.cons_append, List.nil_append]
  have hlast : ((servers.map (monitorEntry pt)).flatten ++ monitorTotals capacity maxReq rate ++
      [' ', '\n']).dropLast =
      (servers.map (monitorEntry pt)).flatten ++
        (monitorTotals capacity maxReq rate ++ [' ']) := by
    rw [List.dropLast_append_of_ne_nil (by decide), List.append_assoc]
    rfl
  rw [readLine, hmarker, hline, split_marker (by decide) hhead hdata]
  dsimp only
  rw [hlast, split_report hip, List.foldlM_append]
  cases ((servers.filter Predicted).map (versionText pt)).foldlM readEntry RespEntry.empty with
  | none => rfl
  | some resp => rw [Option.bind_eq_bind, Option.bind_some, foldlM_totals, Option.map_some]

/-! ## The round trip -/

/-- What was printed is read back: one server for each version with a prediction, in order,
under the address of its peer and with its capacity to two decimals, and the totals. -/
structure ReadsBack (pt : ℤ) (peers : List (VersionedServer F × Address)) (capacity rate : F)
    (maxReq : ℤ) (resp : RespEntry) : Prop where
  servers : List.Forall₂
    (fun p s => serverKey s.ip s.port = p.2.name ∧ s.capacity = sprintfFixed2 (quotient pt p.1))
    (peers.filter fun p => Predicted p.1) (resp.servers.getD [])
  total : resp.totalCapacity = some (printed capacity)
  requestLoad : resp.concRequests = some (printedInt (toInt32 maxReq))
  arrivalRate : resp.arrivalRate = some (printed rate)

omit [CFloatText F] in
theorem undelimited_of_hasAddress {a : Address} (h : HasAddress v a) : Undelimited v := by
  obtain ⟨ip, hip, hdelim, -⟩ := h.cut
  exact ⟨ip, hip, hdelim⟩

omit [CFloatText F] in
theorem readable_iff {a : Address} (h : HasAddress v a) :
    Readable pt v ∧ serverKey (versionReport pt v).ip (versionReport pt v).port = a.name ↔
      a.HasPort ∧ ¬ HasMinus (quotient pt v) := by
  obtain ⟨ip, hip, -, hiff⟩ := h.cut
  rw [versionReport, hip, Option.getD_some, Readable, ← hiff]
  exact and_right_comm

/-- A line is read back if and only if the addresses have ports and no capacity has a minus
sign. -/
theorem readsBack_iff [CFloatRange F] {tm : Tm} {gmtoff : ℤ} {tp : NgxTime}
    (htime : tp.httpLogTime = ngxHttpLogTime tm gmtoff)
    {peers : List (VersionedServer F × Address)} (haddr : ∀ p ∈ peers, HasAddress p.1 p.2)
    (capacity rate : F) (maxReq : ℤ) :
    (∃ resp, readLine (logLine (monitorHeader tp ++
          ((peers.map Prod.fst).map (monitorEntry pt)).flatten ++
          monitorTotals capacity maxReq rate)) = some resp ∧
        ReadsBack pt peers capacity rate maxReq resp) ↔
      ∀ p ∈ peers, Predicted p.1 = true → p.2.HasPort ∧ ¬ HasMinus (quotient pt p.1) := by
  have hip : ∀ v ∈ peers.map Prod.fst, Undelimited v := by
    intro v hv
    obtain ⟨p, hp, rfl⟩ := List.mem_map.mp hv
    exact undelimited_of_hasAddress (haddr p hp)
  have hfilter : (peers.map Prod.fst).filter Predicted =
      (peers.filter fun p => Predicted p.1).map Prod.fst := List.filter_map
  have hsome : ∀ v ∈ (peers.map Prod.fst).filter Predicted, Undelimited v := fun v hv =>
    hip v (List.mem_of_mem_filter hv)
  rw [readLine_report htime hip]
  constructor
  · rintro ⟨resp, hread, hback⟩ p hp hpredicted
    have hall : ∀ v ∈ (peers.map Prod.fst).filter Predicted, Readable pt v := by
      by_contra hnot
      push Not at hnot
      rw [foldlM_not_readable hsome hnot] at hread
      cases hread
    rw [foldlM_readable hsome hall, Option.map_some, Option.some.injEq] at hread
    have hservers := hback.servers
    rw [← hread, servers_foldl, hfilter, List.map_map] at hservers
    have hsame := List.forall₂_same.mp (List.forall₂_map_right_iff.mp hservers)
    have hmem : p ∈ peers.filter fun p => Predicted p.1 := List.mem_filter.mpr ⟨hp, hpredicted⟩
    have hgood : Readable pt p.1 :=
      hall p.1 (hfilter ▸ List.mem_map_of_mem hmem)
    exact (readable_iff (haddr p hp)).mp ⟨hgood, (hsame p hmem).1⟩
  · intro hall
    have hgood : ∀ p ∈ peers.filter fun p => Predicted p.1, Readable pt p.1 ∧
        serverKey (versionReport pt p.1).ip (versionReport pt p.1).port = p.2.name := by
      intro p hp
      obtain ⟨hp, hpredicted⟩ := List.mem_filter.mp hp
      exact (readable_iff (haddr p hp)).mpr (hall p hp hpredicted)
    have hread : ∀ v ∈ (peers.map Prod.fst).filter Predicted, Readable pt v := by
      rw [hfilter]
      exact List.forall_mem_map.mpr fun p hp => (hgood p hp).1
    rw [foldlM_readable hsome hread, Option.map_some]
    refine ⟨_, rfl, ?_, rfl, rfl, rfl⟩
    rw [servers_foldl, hfilter, List.map_map]
    exact List.forall₂_map_right_iff.mpr
      (List.forall₂_same.mpr fun p hp => ⟨(hgood p hp).2, rfl⟩)

theorem peersPt_ne_zero {ps : List Peer} (h : ∃ p ∈ ps, 0 < p.pt) : peersPt ps ≠ 0 := by
  have hkeep (ps : List Peer) (pt : ℤ) (hpt : 0 < pt) :
      0 < ps.foldl (fun pt p => if 0 < p.pt then (p.pt : ℤ) else pt) pt := by
    induction ps generalizing pt with
    | nil => exact hpt
    | cons p ps ih =>
        rw [List.foldl_cons]
        refine ih _ ?_
        split_ifs with hp
        · exact_mod_cast hp
        · exact hpt
  obtain ⟨p, hp, hpos⟩ := h
  obtain ⟨before, after, rfl⟩ := List.append_of_mem hp
  have hlast := hkeep after p.pt (by exact_mod_cast hpos)
  rw [peersPt, List.foldl_append, List.foldl_cons, if_pos hpos]
  exact hlast.ne'

omit [CFloatText F] in
/-- The report of a list whose peers have versions. -/
theorem customSystemMonitorCapacity_eq {tp : NgxTime} {ps : Peers F} {vs : Versions F}
    {servers : List (VersionedServer F)} (hpt : ∃ p ∈ ps.peer, 0 < p.pt)
    (hversions : derefAll vs ps.peer = .ok servers) :
    customSystemMonitorCapacity tp ps vs = .ok
      (.allocated (monitorHeader tp ++ (servers.map (monitorEntry (peersPt ps.peer))).flatten ++
        monitorTotals (monitorCapacity (peersPt ps.peer) servers) ps.maxReq
          (monitorArrivalRate tp ps)),
        { ps with logTimeSec := tp.sec, logTimeMsec := tp.msec, reqCount := 0, maxReq := 0 }) := by
  unfold customSystemMonitorCapacity
  dsimp only
  rw [if_neg (peersPt_ne_zero hpt), hversions]
  rfl

/-- The report of a peer list is read back from the log if and only if the address of each
reported peer is one address and one port between which the only colon of its name stands, and
no reported capacity has a minus sign. -/
theorem systemState_readsBack_iff [CFloatRange F] {tp : NgxTime} {tm : Tm} {gmtoff : ℤ}
    {ps : Peers F} {vs : Versions F} {peers : List (VersionedServer F × Address)}
    (hpt : ∃ p ∈ ps.peer, 0 < p.pt) (hversions : derefAll vs ps.peer = .ok (peers.map Prod.fst))
    (haddr : ∀ p ∈ peers, HasAddress p.1 p.2)
    (htime : tp.httpLogTime = ngxHttpLogTime tm gmtoff) :
    ∃ text ps', customSystemMonitorCapacity tp ps vs = .ok (.allocated text, ps') ∧
      ((∃ resp, readLine (logLine text) = some resp ∧
          ReadsBack (peersPt ps.peer) peers
            (monitorCapacity (peersPt ps.peer) (peers.map Prod.fst))
            (monitorArrivalRate tp ps) ps.maxReq resp) ↔
        ∀ p ∈ peers, Predicted p.1 = true →
          p.2.HasPort ∧ ¬ HasMinus (quotient (peersPt ps.peer) p.1)) :=
  ⟨_, _, customSystemMonitorCapacity_eq hpt hversions, readsBack_iff htime haddr _ _ _⟩

end Report

/-! ## Two peers -/

def reportTime : NgxTime :=
  { NgxTime.ofSec 100 with
    httpLogTime := "28/Sep/1970:12:00:00 +0600".toList
    httpLogTime_length := by decide }

/-- A version that has served requests in 20 milliseconds. -/
def servedVersion (a : Address) : VersionedServer MachineFloat :=
  { primaryVersion 1 a.name with predictedAvgRt := narrow (ofInt 20) }

/-- A list of one peer with a performance target of 100 milliseconds. -/
def servedPeers (a : Address) : Peers MachineFloat :=
  { zeroPeers a.name [{ zeroPeer a.name with version := some 0, light := some 0, pt := 100 }] with
    logTimeSec := 85
    reqCount := 30
    maxReq := 3 }

def inetAddress : Address := .inet 10 0 0 1 80

def inet6Address : Address :=
  .inet6 { s6Addr := [0, 0, 0, 0, 0, 0, 0, 0, 0, 0, 0, 0, 0, 0, 0, 1], size := rfl } 8080

theorem servedPeers_versions (a : Address) :
    derefAll (fun _ => servedVersion a) (servedPeers a).peer =
      .ok ([(servedVersion a, a)].map Prod.fst) := rfl

theorem servedPeers_pt (a : Address) : ∃ p ∈ (servedPeers a).peer, 0 < p.pt :=
  ⟨_, List.mem_cons_self, Nat.zero_lt_succ 99⟩

theorem hasAddress_servedVersion (a : Address) :
    ∀ p ∈ [(servedVersion a, a)], HasAddress p.1 p.2 := by
  intro p hp
  obtain rfl := List.mem_singleton.mp hp
  exact ⟨1, rfl, rfl⟩

theorem reportTime_text :
    reportTime.httpLogTime = ngxHttpLogTime
      { sec := 0, min := 0, hour := 12, mday := 28, mon := 9, year := 1970, wday := 1 } 360 := by
  decide

/-- The peer `10.0.0.1:80` is read back. -/
theorem systemState_readsBack_inet :
    ∃ text ps', customSystemMonitorCapacity reportTime (servedPeers inetAddress)
        (fun _ => servedVersion inetAddress) = .ok (.allocated text, ps') ∧
      ∃ resp, readLine (logLine text) = some resp ∧
        ReadsBack 100 [(servedVersion inetAddress, inetAddress)]
          (monitorCapacity 100 [servedVersion inetAddress])
          (monitorArrivalRate reportTime (servedPeers inetAddress)) 3 resp := by
  obtain ⟨text, ps', htext, hiff⟩ := systemState_readsBack_iff (servedPeers_pt inetAddress)
    (servedPeers_versions inetAddress) (hasAddress_servedVersion inetAddress) reportTime_text
  refine ⟨text, ps', htext, hiff.mpr fun p hp _ => ?_⟩
  obtain rfl := List.mem_singleton.mp hp
  refine ⟨trivial, fun hminus => ?_⟩
  have hvalue : toRat (quotient 100 (servedVersion inetAddress)) = some 5 := by decide +kernel
  have hfive : HasMinus (quotient 100 (servedVersion inetAddress)) := hminus
  rw [HasMinus, hvalue] at hfive
  exact absurd hfive (by norm_num)

/-- The peer `[::1]:8080` is read as another address. -/
theorem systemState_not_readsBack_inet6 :
    ∃ text ps', customSystemMonitorCapacity reportTime (servedPeers inet6Address)
        (fun _ => servedVersion inet6Address) = .ok (.allocated text, ps') ∧
      ¬ ∃ resp, readLine (logLine text) = some resp ∧
        ReadsBack 100 [(servedVersion inet6Address, inet6Address)]
          (monitorCapacity 100 [servedVersion inet6Address])
          (monitorArrivalRate reportTime (servedPeers inet6Address)) 3 resp := by
  refine ⟨_, _, customSystemMonitorCapacity_eq (servedPeers_pt inet6Address)
    (servedPeers_versions inet6Address), fun hread => ?_⟩
  have hpredicted : Predicted (servedVersion inet6Address) = true := by decide +kernel
  have haddr := hasAddress_servedVersion inet6Address
  have hall := (readsBack_iff reportTime_text haddr _ _ _).mp hread
  exact (hall _ List.mem_cons_self hpredicted).1

end MultiversionBalancer.Monitor
