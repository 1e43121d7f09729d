import MultiversionBalancer.Http2.TableQueue
import Mathlib.Data.List.Forall2

/-!
# Runs of the dynamic table

Calls of the table's functions on one connection, compared with the queue, and
the size in force after updates and insertions in any order.
-/

namespace MultiversionBalancer.Http2

open Lib

/-! ## Reading a header field -/

theorem copy_eq_ringRead {t : Table} {len data : ℕ} (hdata : data ≤ tableSize)
    (hlen : len ≤ tableSize) :
    t.copy len data = ringRead tableSize t.storage data len := by
  rw [Table.copy]
  by_cases hwrap : tableSize - data < len
  · rw [if_pos hwrap]
    exact readCells_wrap hdata (by omega) (by omega)
  · rw [if_neg hwrap]
    exact readCells_eq_ringRead (by omega)

/-- A record whose strings in the ring are those of a header field. -/
structure Reads (t : Table) (entry : Entry) (header : Header) : Prop where
  name : t.copy entry.nameLen entry.nameData = header.name
  value : t.copy entry.valueLen entry.valueData = header.value

theorem PlacedAt.reads {t : Table} {base : ℕ} {entry : Entry} {header : Header}
    (h : PlacedAt base entry header) (hsize : header.size ≤ tableSize)
    (hcontent : ringRead tableSize t.storage base
      (header.name.length + header.value.length) = header.name ++ header.value) :
    Reads t entry header := by
  rw [Header.size] at hsize
  rw [ringRead_add] at hcontent
  obtain ⟨hname, hvalue⟩ := List.append_inj hcontent ringRead_length
  constructor
  · rw [copy_eq_ringRead h.nameData_le (by rw [h.nameLen]; omega),
      ringRead_mod h.nameData, h.nameLen]
    exact hname
  · rw [copy_eq_ringRead h.valueData_le (by rw [h.valueLen]; omega),
      ringRead_mod h.valueData, h.valueLen]
    exact hvalue

theorem Placed.reads {t : Table} {base : ℕ} {entries : List Entry}
    {headers : List Header} (h : Placed base entries headers)
    (hsize : total headers ≤ tableSize)
    (hcontent : ringRead tableSize t.storage base (bytesOf headers).length =
      bytesOf headers) :
    List.Forall₂ (Reads t) entries headers := by
  induction headers generalizing base entries with
  | nil =>
      cases entries with
      | nil => exact .nil
      | cons => exact h.elim
  | cons header headers ih =>
      cases entries with
      | nil => exact h.elim
      | cons entry entries =>
          obtain ⟨hfirst, hrest⟩ := h
          have hbytes : bytesOf (header :: headers) =
              (header.name ++ header.value) ++ bytesOf headers := by
            simp [bytesOf]
          rw [total_cons] at hsize
          rw [hbytes, List.length_append, ringRead_add] at hcontent
          obtain ⟨hown, hothers⟩ := List.append_inj hcontent ringRead_length
          rw [List.length_append] at hown hothers
          exact .cons (hfirst.reads (by omega) hown)
            (ih hrest (by omega) hothers)

theorem Stores.reads {base : ℕ} {t : Table} {headers : List Header}
    (h : Stores base t headers 0 []) : List.Forall₂ (Reads t) t.live headers := by
  have haccount := h.account
  have hsize := h.size_le
  have hcontent := h.content
  rw [List.append_nil] at hcontent
  exact h.placed.reads (by omega) hcontent

theorem Stores.reads_newest {base index : ℕ} {t : Table} {headers : List Header}
    (h : Stores base t headers 0 []) (hindex : index < headers.length) :
    ∃ header, headers.reverse[index]? = some header ∧
      Reads t (t.entry (t.added - index - 1)) header := by
  have hcount := h.count
  have hreads := h.reads
  have hlen : t.live.length = headers.length := hreads.length_eq
  have hplace : headers.length - 1 - index < headers.length := by omega
  refine ⟨headers[headers.length - 1 - index], ?_, ?_⟩
  · rw [List.getElem?_reverse hindex, List.getElem?_eq_getElem hplace]
  · have hplace' : headers.length - 1 - index < t.live.length := by omega
    have hread := hreads.get hplace' hplace
    have hentry : t.live.get ⟨headers.length - 1 - index, hplace'⟩ =
        t.entry (t.added - index - 1) := by
      simp only [Table.live, List.get_eq_getElem, List.getElem_map,
        List.getElem_range]
      congr 1
      omega
    rw [← hentry]
    exact hread

theorem Stores.get {base : ℕ} {t : Table} {q : Queue}
    (h : Stores base t q.headers 0 []) (index : ℕ) (nameOnly : Bool)
    (header : Header) :
    ngxHttpV2GetIndexedHeader t index nameOnly header =
      q.get index nameOnly header := by
  have hcount := h.count
  have hlive : t.added - t.deleted = q.headers.length := by omega
  rw [ngxHttpV2GetIndexedHeader, Queue.get]
  split
  · rfl
  simp only
  split
  · rfl
  rw [hlive]
  split
  next hlt =>
    obtain ⟨found, hfound, hread⟩ := h.reads_newest hlt
    rw [hfound, hread.name, hread.value]
    cases nameOnly with
    | false => rfl
    | true => rfl
  next hge =>
    rw [List.getElem?_eq_none (by rw [List.length_reverse]; omega)]
    rfl

/-! ## One call -/

/-- A table to which no header field has been added. -/
structure Blank (t : Table) : Prop where
  created : t.created = false
  added : t.added = 0
  deleted : t.deleted = 0
  reused : t.reused = 0
  free : t.free = t.size

theorem blank_new : Blank Table.new := ⟨rfl, rfl, rfl, rfl, rfl⟩

theorem Blank.create {t : Table} (h : Blank t) :
    t.create.size = tableSize ∧ Stores 0 t.create [] 0 [] := by
  have hcreate : t.create =
      { t with
        created := true
        allocated := 64
        size := tableSize
        free := tableSize
        pos := 0 } := by
    rw [Table.create, h.created]
    exact if_neg nofun
  have hadded := h.added
  have hlive : t.create.live = [] := by
    rw [hcreate]
    simp [Table.live, h.added]
  refine ⟨by rw [hcreate], ?_⟩
  rw [hcreate] at hlive ⊢
  refine
    { created := rfl
      allocated := Nat.succ_pos _
      size_le := Nat.le_refl _
      account := rfl
      count := ?_
      reused := ?_
      fits := ?_
      known := ?_
      distinct := ?_
      placed := ?_
      content := rfl
      pos_le := Nat.zero_le _
      pos := rfl }
  · exact h.deleted.trans h.added.symm
  · exact Nat.le_of_eq (h.reused.trans h.deleted.symm)
  · change t.added ≤ t.reused + 64
    omega
  · intro k _ hlt
    change k < t.added at hlt
    omega
  · intro k l _ _ hlt
    change l < t.added at hlt
    omega
  · rw [hlive]
    exact trivial

theorem put_size (t : Table) (avail : ℕ) (s : List UInt8) :
    (t.put avail s).size = t.size := by
  obtain ⟨mem, pos, hput⟩ := put_eq t avail s
  rw [hput]

theorem store_size (t : Table) (record : ℕ) (header : Header) :
    (t.store record header).size = t.size := by
  change ((t.put (tableSize - t.pos) header.name).put (availBehind t header.name)
    header.value).size = t.size
  rw [put_size, put_size]

theorem takeRecord_size (t : Table) : t.takeRecord.1.size = t.size := by
  rw [Table.takeRecord]
  split
  · rfl
  · rfl

/-- A created table and the queue that it stands for. -/
def Tracks (t : Table) (q : Queue) : Prop :=
  t.size = q.size ∧ ∃ base, Stores base t q.headers 0 []

/-- A table and the queue that it stands for. -/
def Refines (t : Table) (q : Queue) : Prop :=
  (Blank t ∧ q = Queue.new) ∨ Tracks t q

theorem Refines.create {t : Table} {q : Queue} (h : Refines t q) :
    Tracks t.create q := by
  obtain ⟨hblank, rfl⟩ | ⟨hsize, base, hstores⟩ := h
  · exact ⟨hblank.create.1, 0, hblank.create.2⟩
  · have hcreate : t.create = t := by
      rw [Table.create, hstores.created]
      exact if_pos rfl
    rw [hcreate]
    exact ⟨hsize, base, hstores⟩

/-- An insertion. -/
theorem Refines.add {t : Table} {q : Queue} (h : Refines t q) (header : Header) :
    Tracks (ngxHttpV2AddHeader t header) (q.add header) := by
  obtain ⟨hsize, base, hstores⟩ := h.create
  rw [ngxHttpV2AddHeader]
  by_cases hlarge : q.size < header.size
  · rw [account_too_large hstores (hsize ▸ hlarge), Queue.add, if_pos hlarge]
    exact ⟨hsize, _, hstores.clear⟩
  · have hle : header.name.length + header.value.length + 32 ≤ t.create.size := by
      rw [hsize]
      exact Nat.le_of_not_lt hlarge
    obtain ⟨hroom, hkept, base', hstores'⟩ := account_fits hstores hle
    obtain ⟨hstores', hfresh⟩ := hstores'.takeRecord
    obtain ⟨hstores', hplaced, hfresh⟩ := hstores'.store hfresh
    obtain ⟨hstores', hfresh, hspace, hrecords, hsame⟩ := hstores'.grow hfresh
    rw [← hrecords] at hplaced
    rw [if_pos hroom, Queue.add, if_neg hlarge, ← hsize]
    refine ⟨?_, base', hstores'.append hplaced hfresh hspace⟩
    change Table.size (Table.grow _) = _
    rw [hsame, store_size, takeRecord_size, hkept]

/-- A change of the size. -/
theorem Tracks.resize {t : Table} {q : Queue} {size : ℕ} (h : Tracks t q)
    (hsize : size ≤ tableSize) :
    ∃ t', ngxHttpV2TableSize t size = some t' ∧ Tracks t' (q.resize size) := by
  obtain ⟨hsame, base, hstores⟩ := h
  have hcount := hstores.count
  obtain ⟨base', hstores', hkept⟩ :=
    @Stores.removeUntil base 0 t q.headers ((t.size : ℤ) - size)
      (t.added - t.deleted) hstores (by omega) (by omega)
  have hlimit : ((t.size : ℤ) - (0 : ℕ) - ((t.size : ℤ) - size)).toNat = size := by
    omega
  rw [hlimit] at hstores'
  have haccount := hstores'.account
  have hfits := total_evict_le size q.headers
  rw [ngxHttpV2TableSize, if_neg (Nat.not_lt.mpr hsize)]
  refine ⟨_, rfl, rfl, base', { hstores' with size_le := hsize, account := ?_ }⟩
  change ((Table.removeUntil ((t.size : ℤ) - size) (t.added - t.deleted) t).free -
    ((t.size : ℤ) - size)).toNat + 0 + total (evict size q.headers) = size
  omega

theorem Refines.get {t : Table} {q : Queue} (h : Refines t q) (index : ℕ)
    (nameOnly : Bool) (header : Header) :
    ngxHttpV2GetIndexedHeader t index nameOnly header =
      q.get index nameOnly header := by
  obtain ⟨hblank, rfl⟩ | ⟨-, base, hstores⟩ := h
  · rw [ngxHttpV2GetIndexedHeader, hblank.added, Queue.get]
    split
    · rfl
    simp only
    split
    · rfl
    · rw [Nat.zero_sub, if_neg (Nat.not_lt_zero _)]
      rfl
  · exact hstores.get index nameOnly header

theorem Refines.account {t : Table} {q : Queue} (h : Refines t q) :
    t.free + total q.headers = t.size := by
  obtain ⟨hblank, rfl⟩ | ⟨-, base, hstores⟩ := h
  · exact hblank.free
  · exact hstores.account

/-! ## Runs -/

inductive TableCall
  | add (header : Header)
  | size (size : ℕ)
  | get (index : ℕ) (nameOnly : Bool) (header : Header)

/-- The table after a call, and the header field that was read. -/
def Table.call (t : Table) : TableCall → Table × Option Header
  | .add header => (ngxHttpV2AddHeader t header, none)
  | .size size => ((ngxHttpV2TableSize t size).getD t, none)
  | .get index nameOnly header =>
      (t, ngxHttpV2GetIndexedHeader t index nameOnly header)

/-- The queue after a call; a size that is too large is an error. -/
def Queue.call (q : Queue) : TableCall → Queue × Option Header
  | .add header => (q.add header, none)
  | .size size => (if size ≤ tableSize then q.resize size else q, none)
  | .get index nameOnly header => (q, q.get index nameOnly header)

/-- The table after calls, and what was read. -/
def Table.run (t : Table) : List TableCall → Table × List (Option Header)
  | [] => (t, [])
  | call :: calls =>
      ((Table.run (t.call call).1 calls).1,
        (t.call call).2 :: (Table.run (t.call call).1 calls).2)

/-- The queue after calls, and what was read. -/
def Queue.run (q : Queue) : List TableCall → Queue × List (Option Header)
  | [] => (q, [])
  | call :: calls =>
      ((Queue.run (q.call call).1 calls).1,
        (q.call call).2 :: (Queue.run (q.call call).1 calls).2)

theorem tableSize_too_large {t : Table} {size : ℕ} (h : tableSize < size) :
    ngxHttpV2TableSize t size = none :=
  if_pos h

theorem Tracks.call {t : Table} {q : Queue} (h : Tracks t q) (call : TableCall) :
    Tracks (t.call call).1 (q.call call).1 ∧ (t.call call).2 = (q.call call).2 := by
  cases call with
  | add header => exact ⟨Refines.add (.inr h) header, rfl⟩
  | size size =>
      refine ⟨?_, rfl⟩
      by_cases hsize : size ≤ tableSize
      · obtain ⟨t', heq, htracks⟩ := h.resize hsize
        simp only [Table.call, Queue.call, heq, if_pos hsize]
        exact htracks
      · simp only [Table.call, Queue.call, if_neg hsize,
          tableSize_too_large (Nat.lt_of_not_le hsize)]
        exact h
  | get index nameOnly header =>
      exact ⟨h, Refines.get (.inr h) index nameOnly header⟩

theorem Tracks.run {t : Table} {q : Queue} (h : Tracks t q)
    (calls : List TableCall) :
    Tracks (t.run calls).1 (q.run calls).1 ∧ (t.run calls).2 = (q.run calls).2 := by
  induction calls generalizing t q with
  | nil => exact ⟨h, rfl⟩
  | cons call calls ih =>
      obtain ⟨hstep, hread⟩ := h.call call
      obtain ⟨hrun, hreads⟩ := ih hstep
      refine ⟨hrun, ?_⟩
      rw [Table.run, Queue.run, hread, hreads]

/-- No size is changed before the first insertion. -/
def SizesAfterAdd : List TableCall → Prop
  | [] => True
  | .add _ :: _ => True
  | .size _ :: _ => False
  | .get _ _ _ :: calls => SizesAfterAdd calls

theorem Refines.run {t : Table} {q : Queue} {calls : List TableCall}
    (h : Refines t q) (hcalls : SizesAfterAdd calls) :
    Refines (t.run calls).1 (q.run calls).1 ∧ (t.run calls).2 = (q.run calls).2 := by
  induction calls with
  | nil => exact ⟨h, rfl⟩
  | cons call calls ih =>
      cases call with
      | add header =>
          obtain ⟨hrun, hreads⟩ := Tracks.run (h.add header) calls
          exact ⟨.inr hrun, congrArg _ hreads⟩
      | size size => exact hcalls.elim
      | get index nameOnly header =>
          obtain ⟨hrun, hreads⟩ := ih hcalls
          refine ⟨hrun, ?_⟩
          rw [Table.run, Queue.run]
          exact congrArg₂ _ (h.get index nameOnly header) hreads

theorem Queue.get_dynamic (q : Queue) (i : ℕ) (header : Header) :
    q.get (61 + (i + 1)) false header = q.headers.reverse[i]? := by
  have hlength : staticTable.length = 61 := rfl
  have hindex : 61 + (i + 1) - 1 - staticTable.length = i := by omega
  rw [Queue.get, if_neg (by omega), dif_neg (by omega), hindex]
  exact Option.map_id'

/-- The table behaves as the queue: every read gives what the queue gives, the
`i`-th newest header field is found behind the static table, and the bytes that
are not free are those of the header fields in the queue. -/
theorem table_refines_queue (calls : List TableCall)
    (hcalls : SizesAfterAdd calls) :
    (Table.new.run calls).2 = (Queue.new.run calls).2 ∧
      (∀ i header, ngxHttpV2GetIndexedHeader (Table.new.run calls).1 (61 + (i + 1))
        false header = (Queue.new.run calls).1.headers.reverse[i]?) ∧
      (Table.new.run calls).1.free ≤ (Table.new.run calls).1.size ∧
      (Table.new.run calls).1.size - (Table.new.run calls).1.free =
        total (Queue.new.run calls).1.headers := by
  obtain ⟨hrun, hreads⟩ := Refines.run (.inl ⟨blank_new, rfl⟩) hcalls
  have haccount := hrun.account
  refine ⟨hreads, ?_, by omega, by omega⟩
  intro i header
  rw [hrun.get, Queue.get_dynamic]

/-- An insertion, a smaller size that leaves one header field no place, another
insertion and a read. -/
theorem table_refines_queue_sample :
    SizesAfterAdd [.add ⟨[97], [98]⟩, .size 40, .add ⟨[99], []⟩,
        .get 62 false ⟨[], []⟩] ∧
      (Table.new.run [.add ⟨[97], [98]⟩, .size 40, .add ⟨[99], []⟩,
        .get 62 false ⟨[], []⟩]).2 = [none, none, none, some ⟨[99], []⟩] := by
  have hcalls : SizesAfterAdd [.add ⟨[97], [98]⟩, .size 40, .add ⟨[99], []⟩,
      .get 62 false ⟨[], []⟩] := trivial
  refine ⟨hcalls, ?_⟩
  rw [(table_refines_queue _ hcalls).1]
  decide

/-! ## The size in force -/

/-- The size that an accepted update sets. -/
def TableCall.update : TableCall → Option ℕ
  | .size n => if n ≤ tableSize then some n else none
  | _ => none

/-- Whether a call is an insertion. -/
def TableCall.isAdd : TableCall → Bool
  | .add _ => true
  | _ => false

/-- The value of the last accepted update, or the initial size. -/
def lastUpdate (initial : ℕ) (calls : List TableCall) : ℕ :=
  (calls.filterMap TableCall.update).getLastD initial

/-- The calls from the first insertion on. -/
def fromFirstAdd (calls : List TableCall) : List TableCall :=
  calls.dropWhile fun call => !call.isAdd

/-- The limit that the next insertion has to keep. -/
def Table.sizeInForce (t : Table) : ℕ :=
  t.create.size

/-- The header fields that `ngx_http_v2_get_indexed_header` can return, the newest
one first. -/
def Table.headers (t : Table) : List Header :=
  (List.range (t.added - t.deleted)).filterMap fun i =>
    ngxHttpV2GetIndexedHeader t (61 + (i + 1)) false ⟨[], []⟩

theorem Queue.call_size (q : Queue) (call : TableCall) :
    (q.call call).1.size = call.update.getD q.size := by
  cases call with
  | add header =>
      rw [Queue.call, Queue.add]
      split
      · rfl
      · rfl
  | size size =>
      rw [Queue.call, TableCall.update]
      split
      · rfl
      · rfl
  | get index nameOnly header => rfl

theorem lastUpdate_cons (initial : ℕ) (call : TableCall) (calls : List TableCall) :
    lastUpdate initial (call :: calls) =
      lastUpdate (call.update.getD initial) calls := by
  rw [lastUpdate, lastUpdate, List.filterMap_cons]
  cases call.update with
  | none => rfl
  | some size => exact List.getLastD_cons ..

theorem Queue.run_size (q : Queue) (calls : List TableCall) :
    (q.run calls).1.size = lastUpdate q.size calls := by
  induction calls generalizing q with
  | nil => rfl
  | cons call calls ih =>
      rw [lastUpdate_cons, ← Queue.call_size]
      exact ih _

/-- Updates of a table that has not been created change its two counters only. -/
theorem Blank.call {t : Table} {call : TableCall} (h : Blank t)
    (hcall : call.isAdd = false) : Blank (t.call call).1 := by
  cases call with
  | add header => cases hcall
  | get index nameOnly header => exact h
  | size size =>
      have hfree := h.free
      by_cases hsize : size ≤ tableSize
      · have hcount : t.added - t.deleted = 0 := by rw [h.added, Nat.zero_sub]
        simp only [Table.call, ngxHttpV2TableSize, if_neg (Nat.not_lt.mpr hsize), hcount]
        refine ⟨h.created, h.added, h.deleted, h.reused, ?_⟩
        change ((t.free : ℤ) - (t.size - size)).toNat = size
        omega
      · simp only [Table.call, tableSize_too_large (Nat.lt_of_not_le hsize)]
        exact h

/-- After any calls the table is blank, or it stands for the queue after the calls
from the first insertion on. -/
theorem Blank.run {t : Table} (h : Blank t) (calls : List TableCall) :
    Refines (t.run calls).1 (Queue.new.run (fromFirstAdd calls)).1 := by
  induction calls generalizing t with
  | nil => exact .inl ⟨h, rfl⟩
  | cons call calls ih =>
      cases hadd : call.isAdd with
      | true =>
          have hfrom : fromFirstAdd (call :: calls) = call :: calls := by
            simp [fromFirstAdd, hadd]
          rw [hfrom]
          cases call with
          | add header =>
              exact .inr (Tracks.run (Refines.add (.inl ⟨h, rfl⟩) header) calls).1
          | size size => cases hadd
          | get index nameOnly header => cases hadd
      | false =>
          have hfrom : fromFirstAdd (call :: calls) = fromFirstAdd calls := by
            simp [fromFirstAdd, hadd]
          rw [hfrom]
          exact ih (h.call hadd)

theorem total_reverse (headers : List Header) :
    total headers.reverse = total headers := by
  rw [total, total, List.map_reverse, List.sum_reverse]

theorem filterMap_getElem?_range {α : Type} (xs : List α) :
    (List.range xs.length).filterMap (fun i => xs[i]?) = xs := by
  induction xs with
  | nil => rfl
  | cons x xs ih =>
      rw [List.length_cons, List.range_succ_eq_map, List.filterMap_cons,
        List.filterMap_map]
      exact congrArg (x :: ·) ih

theorem lastUpdate_fromFirstAdd {calls : List TableCall}
    (h : (fromFirstAdd calls).filterMap TableCall.update ≠ []) :
    lastUpdate tableSize (fromFirstAdd calls) = lastUpdate tableSize calls := by
  have hsplit : calls = calls.takeWhile (fun call => !call.isAdd) ++
      fromFirstAdd calls := (List.takeWhile_append_dropWhile ..).symm
  rw [lastUpdate, lastUpdate]
  nth_rewrite 2 [hsplit]
  rw [List.filterMap_append, List.getLastD_eq_getLast?, List.getLastD_eq_getLast?,
    List.getLast?_append_of_ne_nil _ h]

theorem Refines.headers_eq {t : Table} {q : Queue} (h : Refines t q) :
    t.headers = q.headers.reverse := by
  have hlive : t.added - t.deleted = q.headers.reverse.length := by
    rw [List.length_reverse]
    obtain ⟨hblank, rfl⟩ | ⟨-, base, hstores⟩ := h
    · rw [hblank.added, Nat.zero_sub]
      rfl
    · have hcount := hstores.count
      omega
  have hget : t.headers = (List.range q.headers.reverse.length).filterMap fun i =>
      q.headers.reverse[i]? := by
    rw [Table.headers, hlive]
    congr 1
    funext i
    rw [h.get, Queue.get_dynamic]
  rw [hget, filterMap_getElem?_range]

/-- The last update is in force, and the header fields keep it, exactly if one was
accepted after the first insertion or the last one sets the initial size. -/
theorem lastUpdate_inForce_iff (calls : List TableCall) :
    ((Table.new.run calls).1.sizeInForce = lastUpdate tableSize calls ∧
        total (Table.new.run calls).1.headers ≤ lastUpdate tableSize calls) ↔
      (fromFirstAdd calls).filterMap TableCall.update ≠ [] ∨
        lastUpdate tableSize calls = tableSize := by
  have hrun := blank_new.run calls
  have hforce : (Table.new.run calls).1.sizeInForce =
      lastUpdate tableSize (fromFirstAdd calls) := by
    rw [Table.sizeInForce, hrun.create.1, Queue.run_size]
    rfl
  have htotal : total (Table.new.run calls).1.headers ≤
      lastUpdate tableSize (fromFirstAdd calls) := by
    obtain ⟨hsize, base, hstores⟩ := hrun.create
    have haccount := hstores.account
    have hinForce := Queue.run_size Queue.new (fromFirstAdd calls)
    change _ = lastUpdate tableSize (fromFirstAdd calls) at hinForce
    rw [hrun.headers_eq, total_reverse]
    omega
  rw [hforce]
  obtain hnone | hsome :=
    Classical.em ((fromFirstAdd calls).filterMap TableCall.update = [])
  · have hinitial : lastUpdate tableSize (fromFirstAdd calls) = tableSize := by
      rw [lastUpdate, hnone]
      rfl
    rw [hinitial] at htotal ⊢
    constructor
    · exact fun h => .inr h.1.symm
    · rintro (h | h)
      · exact (h hnone).elim
      · rw [h]
        exact ⟨rfl, htotal⟩
  · have hsame := lastUpdate_fromFirstAdd hsome
    rw [hsame] at htotal ⊢
    exact ⟨fun _ => .inl hsome, fun _ => ⟨rfl, htotal⟩⟩

/-- An update to zero before the first insertion is lost: the header field that is
added afterwards can be read. -/
theorem lastUpdate_forgotten :
    ¬ ((Table.new.run [.size 0, .add ⟨[97], [98]⟩]).1.sizeInForce =
          lastUpdate tableSize [.size 0, .add ⟨[97], [98]⟩] ∧
        total (Table.new.run [.size 0, .add ⟨[97], [98]⟩]).1.headers ≤
          lastUpdate tableSize [.size 0, .add ⟨[97], [98]⟩]) := by
  decide

end MultiversionBalancer.Http2
