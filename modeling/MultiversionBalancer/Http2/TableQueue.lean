import MultiversionBalancer.Http2.Table
import Mathlib.Data.List.GetD

/-!
# The dynamic table is a queue

The queue of RFC 7541, with the oldest header field first, and the relation
between it and the ring, the records and the counters of the table.
-/

namespace MultiversionBalancer.Http2

open Lib

/-! ## The queue -/

def Header.size (header : Header) : ℕ :=
  header.name.length + header.value.length + 32

/-- The size of header fields. -/
def total (headers : List Header) : ℕ :=
  (headers.map Header.size).sum

@[simp] theorem total_nil : total [] = 0 := rfl

@[simp] theorem total_cons (header : Header) (headers : List Header) :
    total (header :: headers) = header.size + total headers := by
  simp [total]

theorem total_append (headers headers' : List Header) :
    total (headers ++ headers') = total headers + total headers' := by
  simp [total]

/-- Remove the oldest header fields one by one until the others fit. -/
def evict (limit : ℕ) : List Header → List Header
  | [] => []
  | header :: headers =>
      if total (header :: headers) ≤ limit then header :: headers
      else evict limit headers

theorem evict_eq_self {limit : ℕ} {headers : List Header}
    (h : total headers ≤ limit) : evict limit headers = headers := by
  cases headers with
  | nil => rfl
  | cons header headers => exact if_pos h

theorem total_evict_le (limit : ℕ) (headers : List Header) :
    total (evict limit headers) ≤ limit := by
  induction headers with
  | nil => exact Nat.zero_le _
  | cons header headers ih =>
      rw [evict]
      split
      · assumption
      · exact ih

structure Queue where
  size : ℕ
  headers : List Header

def Queue.new : Queue where
  size := tableSize
  headers := []

/-- Insert a header field; one that does not fit alone empties the queue. -/
def Queue.add (q : Queue) (header : Header) : Queue :=
  if q.size < header.size then { q with headers := [] }
  else { q with headers := evict (q.size - header.size) q.headers ++ [header] }

/-- Change the size. -/
def Queue.resize (q : Queue) (size : ℕ) : Queue where
  size := size
  headers := evict size q.headers

/-- The header field behind the static table, the newest one first. -/
def Queue.get (q : Queue) (index : ℕ) (nameOnly : Bool) (header : Header) :
    Option Header :=
  if index = 0 then none
  else if h : index - 1 < staticTable.length then
    some (staticTable.get ⟨index - 1, h⟩)
  else
    (q.headers.reverse[index - 1 - staticTable.length]?).map fun found =>
      if nameOnly then { header with name := found.name } else found

/-! ## The relation -/

/-- The bytes of header fields. -/
def bytesOf (headers : List Header) : List UInt8 :=
  headers.flatMap fun header => header.name ++ header.value

theorem length_bytesOf_le (headers : List Header) :
    (bytesOf headers).length ≤ total headers := by
  induction headers with
  | nil => exact Nat.le_refl _
  | cons header headers ih =>
      simp only [bytesOf, List.flatMap_cons, List.length_append] at ih ⊢
      rw [total_cons, Header.size]
      omega

/-- A record of a header field whose bytes begin at `base`. -/
structure PlacedAt (base : ℕ) (entry : Entry) (header : Header) : Prop where
  nameLen : entry.nameLen = header.name.length
  nameData_le : entry.nameData ≤ tableSize
  nameData : entry.nameData % tableSize = base % tableSize
  valueLen : entry.valueLen = header.value.length
  valueData_le : entry.valueData ≤ tableSize
  valueData : entry.valueData % tableSize = (base + header.name.length) % tableSize

/-- Records of header fields whose bytes stand one behind the other. -/
def Placed : ℕ → List Entry → List Header → Prop
  | _, [], [] => True
  | base, entry :: entries, header :: headers =>
      PlacedAt base entry header ∧
        Placed (base + (header.name.length + header.value.length)) entries headers
  | _, _, _ => False

theorem Placed.length_eq {base : ℕ} {entries : List Entry}
    {headers : List Header} (h : Placed base entries headers) :
    entries.length = headers.length := by
  induction headers generalizing base entries with
  | nil =>
      cases entries with
      | nil => rfl
      | cons => exact h.elim
  | cons header headers ih =>
      cases entries with
      | nil => exact h.elim
      | cons entry entries => exact congrArg Nat.succ (ih h.2)

theorem Placed.append {base : ℕ} {entries : List Entry} {headers : List Header}
    {entry : Entry} {header : Header} (h : Placed base entries headers)
    (hlast : PlacedAt (base + (bytesOf headers).length) entry header) :
    Placed base (entries ++ [entry]) (headers ++ [header]) := by
  induction headers generalizing base entries with
  | nil =>
      cases entries with
      | nil => exact ⟨hlast, trivial⟩
      | cons => exact h.elim
  | cons header' headers ih =>
      cases entries with
      | nil => exact h.elim
      | cons entry' entries =>
          refine ⟨h.1, ih h.2 ?_⟩
          rw [Nat.add_assoc, ← List.length_append, ← List.length_append]
          exact hlast

/-- The records of the header fields in the table, the oldest one first. -/
def Table.live (t : Table) : List Entry :=
  (List.range (t.added - t.deleted)).map fun i => t.entry (t.deleted + i)

/-- The table holds header fields, whose bytes begin at `base` in the ring, with
`reserved` bytes of its size kept for another one, of which `extra` has been
written. -/
structure Stores (base : ℕ) (t : Table) (headers : List Header) (reserved : ℕ)
    (extra : List UInt8) : Prop where
  created : t.created = true
  allocated : 0 < t.allocated
  size_le : t.size ≤ tableSize
  account : t.free + reserved + total headers = t.size
  count : t.deleted + headers.length = t.added
  reused : t.reused ≤ t.deleted
  fits : t.added ≤ t.reused + t.allocated
  known : ∀ k, t.reused ≤ k → k < t.added →
    t.entries (k % t.allocated) < t.nextRecord
  distinct : ∀ k l, t.reused ≤ k → k < l → l < t.added →
    t.entries (k % t.allocated) ≠ t.entries (l % t.allocated)
  placed : Placed base t.live headers
  content : ringRead tableSize t.storage base (bytesOf headers ++ extra).length =
    bytesOf headers ++ extra
  pos_le : t.pos ≤ tableSize
  pos : t.pos % tableSize = (base + (bytesOf headers ++ extra).length) % tableSize

/-- The table holds header fields. -/
def Holds (t : Table) (headers : List Header) : Prop :=
  ∃ base, Stores base t headers 0 []

section Remove

variable {base reserved : ℕ} {t : Table} {header : Header}
  {headers : List Header}

theorem Stores.live_cons
    (h : Stores base t (header :: headers) reserved []) :
    t.live = t.entry t.deleted :: t.removeOldest.live := by
  have hcount := h.count
  rw [List.length_cons] at hcount
  have hlen : t.added - t.deleted = headers.length + 1 := by omega
  have hlen' : t.removeOldest.added - t.removeOldest.deleted = headers.length := by
    change t.added - (t.deleted + 1) = headers.length
    omega
  rw [Table.live, Table.live, hlen, hlen', List.range_succ_eq_map, List.map_cons,
    List.map_map]
  congr 1
  rw [List.map_inj_left]
  intro i _
  change t.entry (t.deleted + (i + 1)) = t.entry (t.deleted + 1 + i)
  congr 1
  omega

theorem Stores.removeOldest
    (h : Stores base t (header :: headers) reserved []) :
    Stores (base + (header.name.length + header.value.length)) t.removeOldest
      headers reserved [] := by
  have hplaced := h.placed
  rw [h.live_cons] at hplaced
  obtain ⟨hfirst, hrest⟩ := hplaced
  have hbytes : bytesOf (header :: headers) =
      (header.name ++ header.value) ++ bytesOf headers := by
    simp [bytesOf]
  have hcontent := h.content
  have hpos := h.pos
  rw [List.append_nil, hbytes, List.length_append] at hcontent hpos
  have hcount := h.count
  rw [List.length_cons] at hcount
  have haccount := h.account
  rw [total_cons, Header.size] at haccount
  have hreused := h.reused
  refine
    { created := h.created
      allocated := h.allocated
      size_le := h.size_le
      account := ?_
      count := ?_
      reused := Nat.le_succ_of_le h.reused
      fits := h.fits
      known := h.known
      distinct := h.distinct
      placed := hrest
      content := ?_
      pos_le := h.pos_le
      pos := ?_ }
  · change t.free + (32 + (t.entry t.deleted).nameLen +
      (t.entry t.deleted).valueLen) + reserved + total headers = t.size
    rw [hfirst.nameLen, hfirst.valueLen]
    omega
  · change t.deleted + 1 + headers.length = t.added
    omega
  · rw [ringRead_add] at hcontent
    have hsplit := List.append_inj_right hcontent
      (by rw [ringRead_length])
    rw [List.append_nil, ← List.length_append]
    exact hsplit
  · rw [List.append_nil, ← List.length_append, Nat.add_assoc]
    exact hpos

/-- The loop that removes header fields until there is enough room. -/
theorem Stores.removeUntil {needed : ℤ} {fuel : ℕ}
    (h : Stores base t headers reserved []) (hfuel : headers.length ≤ fuel)
    (hneeded : needed + reserved ≤ t.size) :
    ∃ base', Stores base' (Table.removeUntil needed fuel t)
      (evict (t.size - reserved - needed).toNat headers) reserved [] ∧
      (Table.removeUntil needed fuel t).size = t.size := by
  induction headers generalizing base t fuel with
  | nil =>
      have haccount := h.account
      rw [total_nil] at haccount
      have hstop : Table.removeUntil needed fuel t = t := by
        cases fuel with
        | zero => rfl
        | succ fuel => exact if_neg (by omega)
      rw [hstop]
      exact ⟨base, h, rfl⟩
  | cons header headers ih =>
      obtain ⟨fuel, rfl⟩ : ∃ k, fuel = k + 1 := ⟨fuel - 1, by simp at hfuel; omega⟩
      rw [Table.removeUntil, evict]
      have haccount := h.account
      by_cases hmore : (t.free : ℤ) < needed
      · rw [if_pos hmore, if_neg (by omega)]
        exact ih h.removeOldest (Nat.le_of_succ_le_succ hfuel) hneeded
      · rw [if_neg hmore, if_pos (by omega)]
        exact ⟨base, h, rfl⟩

end Remove

/-! ## Insertion -/

section Account

variable {base : ℕ} {t : Table} {headers : List Header}

theorem Stores.reserve {n : ℕ} (h : Stores base t headers 0 []) (hn : n ≤ t.free) :
    Stores base { t with free := t.free - n } headers n [] := by
  have haccount := h.account
  refine { h with account := ?_ }
  change t.free - n + n + total headers = t.size
  omega

/-- A header field that does not fit alone. -/
theorem Stores.clear (h : Stores base t headers 0 []) :
    Stores t.pos { t with deleted := t.added, free := t.size } [] 0 [] := by
  have hcount := h.count
  have hreused := h.reused
  have hlive : Table.live { t with deleted := t.added, free := t.size } = [] := by
    simp [Table.live]
  refine
    { created := h.created
      allocated := h.allocated
      size_le := h.size_le
      account := rfl
      count := rfl
      reused := ?_
      fits := h.fits
      known := h.known
      distinct := h.distinct
      placed := ?_
      content := rfl
      pos_le := h.pos_le
      pos := rfl }
  · change t.reused ≤ t.added
    omega
  · rw [hlive]
    exact trivial

theorem account_too_large {size : ℕ} (h : Stores base t headers 0 [])
    (hsize : t.size < size + 32) :
    ngxHttpV2TableAccount t size =
      ({ t with deleted := t.added, free := t.size }, false) := by
  have haccount := h.account
  simp only [ngxHttpV2TableAccount]
  rw [if_neg (by omega), if_pos hsize]

/-- Room for a header field. -/
theorem account_fits {size : ℕ} (h : Stores base t headers 0 [])
    (hsize : size + 32 ≤ t.size) :
    (ngxHttpV2TableAccount t size).2 = true ∧
      (ngxHttpV2TableAccount t size).1.size = t.size ∧
      ∃ base', Stores base' (ngxHttpV2TableAccount t size).1
        (evict (t.size - (size + 32)) headers) (size + 32) [] := by
  have haccount := h.account
  simp only [ngxHttpV2TableAccount]
  by_cases hfree : size + 32 ≤ t.free
  · rw [if_pos hfree, evict_eq_self (by omega)]
    exact ⟨rfl, rfl, base, h.reserve hfree⟩
  rw [if_neg hfree, if_neg (by omega)]
  cases headers with
  | nil =>
      rw [total_nil] at haccount
      omega
  | cons header headers =>
      have hcount := h.count
      rw [List.length_cons] at hcount
      have hremoved := h.removeOldest
      have hsize' : t.removeOldest.size = t.size := rfl
      obtain ⟨base', hstores, hkept⟩ :=
        @Stores.removeUntil _ 0 t.removeOldest headers ((size + 32 : ℕ) : ℤ)
          (t.added - t.deleted - 1) hremoved (by omega) (by rw [hsize']; omega)
      have hlimit : ((t.removeOldest.size : ℤ) - (0 : ℕ) -
          ((size + 32 : ℕ) : ℤ)).toNat = t.size - (size + 32) := by
        rw [hsize']
        omega
      rw [hlimit] at hstores
      rw [evict, if_neg (by omega)]
      refine ⟨rfl, hkept, base', hstores.reserve ?_⟩
      have haccount' := hstores.account
      rw [hkept, hsize'] at haccount'
      have hevict := total_evict_le (t.size - (size + 32)) headers
      omega

end Account

/-- A record that is not in use. -/
structure Fresh (t : Table) (record : ℕ) : Prop where
  known : record < t.nextRecord
  unused : ∀ k, t.reused ≤ k → k < t.added → t.entries (k % t.allocated) ≠ record
  room : t.added < t.reused + t.allocated ∨ t.reused = t.deleted

section Insert

variable {base reserved : ℕ} {t : Table} {headers : List Header}
  {extra : List UInt8}

theorem Stores.takeRecord (h : Stores base t headers reserved []) :
    Stores base t.takeRecord.1 headers reserved [] ∧
      Fresh t.takeRecord.1 t.takeRecord.2 := by
  rw [Table.takeRecord]
  by_cases hnew : t.reused = t.deleted
  · rw [if_pos hnew]
    refine ⟨{ h with known := ?_ }, Nat.lt_succ_self _, ?_, .inr hnew⟩
    · exact fun k hk hlt => Nat.lt_succ_of_lt (h.known k hk hlt)
    · exact fun k hk hlt => Nat.ne_of_lt (h.known k hk hlt)
  · rw [if_neg hnew]
    have hreused := h.reused
    have hcount := h.count
    have hfits := h.fits
    refine ⟨{ h with reused := ?_, fits := ?_, known := ?_, distinct := ?_ }, ?_, ?_,
      .inl ?_⟩
    · change t.reused + 1 ≤ t.deleted
      omega
    · change t.added ≤ t.reused + 1 + t.allocated
      omega
    · exact fun k hk hlt => h.known k (Nat.le_of_succ_le hk) hlt
    · exact fun k l hk hkl hlt => h.distinct k l (Nat.le_of_succ_le hk) hkl hlt
    · exact h.known t.reused (Nat.le_refl _) (by omega)
    · exact fun k hk hlt => (h.distinct t.reused k (Nat.le_refl _) hk hlt).symm
    · change t.added < t.reused + 1 + t.allocated
      omega

/-- A string behind the bytes in use. -/
theorem Stores.put {avail : ℕ} {s : List UInt8}
    (h : Stores base t headers reserved extra)
    (hfit : (bytesOf headers ++ extra).length + s.length ≤ tableSize)
    (hdirect : s.length ≤ avail → t.pos + s.length ≤ tableSize)
    (hwrap : avail < s.length → avail = tableSize - t.pos) :
    Stores base (t.put avail s) headers reserved (extra ++ s) := by
  have hpos := h.pos
  have hpos_le := h.pos_le
  have hwrite (mem' : ℕ → UInt8)
      (hmem : RingWrite tableSize t.storage t.pos s mem') :
      ringRead tableSize mem' base (bytesOf headers ++ (extra ++ s)).length =
        bytesOf headers ++ (extra ++ s) := by
    rw [← List.append_assoc, List.length_append, ringRead_add,
      hmem.before (by decide) hpos hfit, h.content,
      ringRead_mod hpos.symm, hmem.new]
  have hend : (base + (bytesOf headers ++ (extra ++ s)).length) % tableSize =
      (t.pos + s.length) % tableSize := by
    rw [← List.append_assoc, List.length_append, ← Nat.add_assoc, Nat.add_mod,
      ← hpos, ← Nat.add_mod]
  rw [Table.put]
  by_cases hle : s.length ≤ avail
  · rw [if_pos hle]
    exact { h with
      content := hwrite _ (ringWrite_direct (hdirect hle))
      pos_le := hdirect hle
      pos := hend.symm }
  · rw [if_neg hle]
    have havail := hwrap (Nat.lt_of_not_le hle)
    subst havail
    refine { h with
      content := hwrite _ (ringWrite_wrap hpos_le (by omega) (by omega))
      pos_le := ?_
      pos := ?_ }
    · change s.length - (tableSize - t.pos) ≤ tableSize
      omega
    · rw [hend]
      change (s.length - (tableSize - t.pos)) % tableSize = _
      have hsplit : t.pos + s.length =
          (s.length - (tableSize - t.pos)) + tableSize := by omega
      rw [hsplit, Nat.add_mod_right]

/-- A string changes the ring only. -/
theorem put_eq (t : Table) (avail : ℕ) (s : List UInt8) :
    ∃ mem pos, t.put avail s = { t with storage := mem, pos := pos } := by
  rw [Table.put]
  split
  · exact ⟨_, _, rfl⟩
  · exact ⟨_, _, rfl⟩

theorem put_pos (t : Table) (avail : ℕ) (s : List UInt8) :
    (t.put avail s).pos =
      if s.length ≤ avail then t.pos + s.length else s.length - avail := by
  rw [Table.put]
  split
  · rfl
  · rfl

/-- The bytes before the end of the ring, behind a name. -/
def availBehind (t : Table) (name : List UInt8) : ℕ :=
  if name.length ≤ tableSize - t.pos then tableSize - t.pos - name.length
  else tableSize - name.length

/-- The name and the value behind the bytes in use. -/
theorem Stores.putBoth {header : Header}
    (h : Stores base t headers header.size []) :
    Stores base (t.put (tableSize - t.pos) header.name) headers header.size
        header.name ∧
      Stores base ((t.put (tableSize - t.pos) header.name).put
        (availBehind t header.name) header.value) headers header.size
        (header.name ++ header.value) := by
  have haccount := h.account
  have hsize := h.size_le
  have hbytes := length_bytesOf_le headers
  have hpos_le := h.pos_le
  rw [Header.size] at haccount
  have hname : Stores base (t.put (tableSize - t.pos) header.name) headers
      header.size ([] ++ header.name) := by
    apply h.put
    · rw [List.append_nil]
      omega
    · omega
    · exact fun _ => rfl
  refine ⟨hname, hname.put ?_ ?_ ?_⟩
  · rw [List.nil_append, List.length_append]
    omega
  · rw [put_pos, availBehind]
    split
    · omega
    · omega
  · rw [put_pos, availBehind]
    split
    · omega
    · omega

theorem Stores.setRecord {record : ℕ} {entry : Entry}
    (h : Stores base t headers reserved extra) (hfresh : Fresh t record) :
    Stores base { t with records := Function.update t.records record entry } headers
      reserved extra := by
  have hlive : Table.live
      { t with records := Function.update t.records record entry } = t.live := by
    rw [Table.live, Table.live, List.map_inj_left]
    intro i hi
    have hlt := List.mem_range.mp hi
    have hreused := h.reused
    change Function.update t.records record entry
      (t.entries ((t.deleted + i) % t.allocated)) = t.entry (t.deleted + i)
    rw [Function.update_of_ne]
    · rfl
    · apply hfresh.unused
      · omega
      · change i < t.added - t.deleted at hlt
        omega
  exact { h with placed := by rw [hlive]; exact h.placed }

theorem Stores.store {record : ℕ} {header : Header}
    (h : Stores base t headers header.size []) (hfresh : Fresh t record) :
    Stores base (t.store record header) headers header.size
        (header.name ++ header.value) ∧
      PlacedAt (base + (bytesOf headers).length)
        ((t.store record header).records record) header ∧
      Fresh (t.store record header) record := by
  obtain ⟨hname, hboth⟩ := h.putBoth
  have hpos := h.pos
  have hnamePos := hname.pos
  have hnamePos_le := hname.pos_le
  rw [List.append_nil] at hpos
  rw [List.length_append, ← Nat.add_assoc] at hnamePos
  have hstore : t.store record header =
      { (t.put (tableSize - t.pos) header.name).put (availBehind t header.name)
          header.value with
        records := Function.update
          ((t.put (tableSize - t.pos) header.name).put (availBehind t header.name)
            header.value).records record
          ⟨header.name.length, t.pos, header.value.length,
            (t.put (tableSize - t.pos) header.name).pos⟩ } := rfl
  have hrecord : (t.store record header).records record =
      ⟨header.name.length, t.pos, header.value.length,
        (t.put (tableSize - t.pos) header.name).pos⟩ := by
    rw [hstore]
    exact Function.update_self _ _ _
  have hfresh' : Fresh ((t.put (tableSize - t.pos) header.name).put
      (availBehind t header.name) header.value) record := by
    obtain ⟨mem, pos, hput⟩ := put_eq t (tableSize - t.pos) header.name
    rw [hput]
    obtain ⟨mem', pos', hput'⟩ := put_eq { t with storage := mem, pos := pos }
      (availBehind t header.name) header.value
    rw [hput']
    exact ⟨hfresh.known, hfresh.unused, hfresh.room⟩
  refine ⟨?_, ?_, ?_⟩
  · rw [hstore]
    exact hboth.setRecord hfresh'
  · rw [hrecord]
    exact ⟨rfl, h.pos_le, hpos, rfl, hnamePos_le, hnamePos⟩
  · rw [hstore]
    exact ⟨hfresh'.known, hfresh'.unused, hfresh'.room⟩

/-- A place in the array, counted from another one. -/
theorem add_mod_cases {n k i : ℕ} (hi : i < n) :
    (k + i) % n = if i < n - k % n then k % n + i else i - (n - k % n) := by
  have hmod : k % n < n := Nat.mod_lt _ (by omega)
  rw [Nat.add_mod, Nat.mod_eq_of_lt hi]
  generalize k % n = index at hmod ⊢
  split
  · exact Nat.mod_eq_of_lt (by omega)
  · rw [Nat.mod_eq_sub_mod (by omega), Nat.mod_eq_of_lt (by omega)]
    omega

/-- The pointers in a grown array, the oldest one first. -/
theorem grow_entries (hgrow : t.allocated = t.added - t.deleted) {i : ℕ}
    (hi : i < t.allocated) :
    t.grow.entries (i % t.grow.allocated) =
      t.entries ((t.deleted + i) % t.allocated) := by
  rw [Table.grow, if_pos hgrow]
  change (if i % (t.allocated + 64) < t.allocated - t.deleted % t.allocated then
    t.entries (t.deleted % t.allocated + i % (t.allocated + 64))
    else t.entries (i % (t.allocated + 64) -
      (t.allocated - t.deleted % t.allocated))) = _
  rw [Nat.mod_eq_of_lt (Nat.lt_add_right 64 hi), add_mod_cases hi, apply_ite t.entries]

/-- The array of pointers has room for one more. -/
theorem Stores.grow {record : ℕ} (h : Stores base t headers reserved extra)
    (hfresh : Fresh t record) :
    Stores base t.grow headers reserved extra ∧ Fresh t.grow record ∧
      t.grow.added < t.grow.reused + t.grow.allocated ∧
      t.grow.records = t.records ∧ t.grow.size = t.size := by
  have hcount := h.count
  have hfits := h.fits
  have hreused := h.reused
  by_cases hgrow : t.allocated = t.added - t.deleted
  · have hentries {i : ℕ} (hi : i < t.allocated) := grow_entries hgrow hi
    have hadded : t.grow.added = t.allocated := by rw [Table.grow, if_pos hgrow]
    have hdeleted : t.grow.deleted = 0 := by rw [Table.grow, if_pos hgrow]
    have hreused' : t.grow.reused = 0 := by rw [Table.grow, if_pos hgrow]
    have halloc : t.grow.allocated = t.allocated + 64 := by
      rw [Table.grow, if_pos hgrow]
    have hrecords : t.grow.records = t.records := by rw [Table.grow, if_pos hgrow]
    have hlive : t.grow.live = t.live := by
      rw [Table.live, Table.live, hadded, hdeleted, Nat.sub_zero, ← hgrow,
        List.map_inj_left]
      intro i hi
      rw [Table.entry, Table.entry, hrecords, Nat.zero_add,
        hentries (List.mem_range.mp hi)]
    have hknown : t.grow.nextRecord = t.nextRecord := by
      rw [Table.grow, if_pos hgrow]
    refine ⟨?_, ⟨?_, ?_, .inr ?_⟩, ?_, hrecords, ?_⟩
    · refine
        { created := ?_, allocated := ?_, size_le := ?_, account := ?_, count := ?_,
          reused := ?_, fits := ?_, known := ?_, distinct := ?_, placed := ?_,
          content := ?_, pos_le := ?_, pos := ?_ }
      · rw [Table.grow, if_pos hgrow]
        exact h.created
      · omega
      · rw [Table.grow, if_pos hgrow]
        exact h.size_le
      · rw [Table.grow, if_pos hgrow]
        exact h.account
      · omega
      · omega
      · omega
      · intro k _ hk
        rw [hentries (by omega), hknown]
        exact h.known _ (by omega) (by omega)
      · intro k l _ hkl hl
        rw [hentries (by omega), hentries (by omega)]
        exact h.distinct _ _ (by omega) (by omega) (by omega)
      · rw [hlive]
        exact h.placed
      · rw [Table.grow, if_pos hgrow]
        exact h.content
      · rw [Table.grow, if_pos hgrow]
        exact h.pos_le
      · rw [Table.grow, if_pos hgrow]
        exact h.pos
    · rw [hknown]
      exact hfresh.known
    · intro k _ hk
      rw [hentries (by omega)]
      exact hfresh.unused _ (by omega) (by omega)
    · omega
    · omega
    · rw [Table.grow, if_pos hgrow]
  · have hsame : t.grow = t := by rw [Table.grow, if_neg hgrow]
    rw [hsame]
    refine ⟨h, hfresh, ?_, rfl, rfl⟩
    obtain hroom | hroom := hfresh.room
    · exact hroom
    · omega

/-- Two places in the array that are less than a round apart. -/
theorem mod_ne_of_lt {n k l : ℕ} (hkl : k < l) (hl : l < k + n) :
    k % n ≠ l % n := by
  intro heq
  have hzero := Nat.sub_mod_eq_zero_of_mod_eq heq.symm
  rw [Nat.mod_eq_of_lt (by omega)] at hzero
  omega

theorem Stores.append {record : ℕ} {header : Header}
    (h : Stores base t headers header.size (header.name ++ header.value))
    (hplaced : PlacedAt (base + (bytesOf headers).length) (t.records record) header)
    (hfresh : Fresh t record) (hroom : t.added < t.reused + t.allocated) :
    Stores base (t.append record) (headers ++ [header]) 0 [] := by
  have hcount := h.count
  have hreused := h.reused
  have haccount := h.account
  have hold {k : ℕ} (hk : t.reused ≤ k) (hlt : k < t.added) :
      (t.append record).entries (k % t.allocated) = t.entries (k % t.allocated) :=
    Function.update_of_ne (mod_ne_of_lt hlt (by omega)) _ _
  have hnew : (t.append record).entries (t.added % t.allocated) = record :=
    Function.update_self _ _ _
  have hlive : (t.append record).live = t.live ++ [t.records record] := by
    have hlen : (t.append record).added - (t.append record).deleted =
        (t.added - t.deleted) + 1 := by
      change t.added + 1 - t.deleted = _
      omega
    rw [Table.live, Table.live, hlen, List.range_succ, List.map_append]
    congr 1
    · rw [List.map_inj_left]
      intro i hi
      have hlt := List.mem_range.mp hi
      change t.records ((t.append record).entries ((t.deleted + i) % t.allocated)) = _
      rw [hold (by omega) (by omega)]
      rfl
    · have hlast : t.deleted + (t.added - t.deleted) = t.added := by omega
      change [t.records ((t.append record).entries
        ((t.deleted + (t.added - t.deleted)) % t.allocated))] = _
      rw [hlast, hnew]
  have hbytes : bytesOf (headers ++ [header]) ++ [] =
      bytesOf headers ++ (header.name ++ header.value) := by
    simp [bytesOf]
  refine
    { created := h.created
      allocated := h.allocated
      size_le := h.size_le
      account := ?_
      count := ?_
      reused := h.reused
      fits := hroom
      known := ?_
      distinct := ?_
      placed := ?_
      content := ?_
      pos_le := h.pos_le
      pos := ?_ }
  · rw [total_append, total_cons, total_nil]
    change t.free + 0 + _ = t.size
    omega
  · rw [List.length_append, List.length_singleton]
    change t.deleted + (headers.length + 1) = t.added + 1
    omega
  · intro k hk hlt
    by_cases hlast : k = t.added
    · subst hlast
      change (t.append record).entries (t.added % t.allocated) < t.nextRecord
      rw [hnew]
      exact hfresh.known
    · have hlt' : k < t.added + 1 := hlt
      have hk' : k < t.added := by omega
      change (t.append record).entries (k % t.allocated) < t.nextRecord
      rw [hold hk hk']
      exact h.known k hk hk'
  · intro k l hk hkl hlt
    have hlt' : l < t.added + 1 := hlt
    have hk' : t.reused ≤ k := hk
    have hold_k := hold hk (show k < t.added by omega)
    by_cases hlast : l = t.added
    · subst hlast
      change (t.append record).entries (k % t.allocated) ≠
        (t.append record).entries (t.added % t.allocated)
      rw [hold_k, hnew]
      exact hfresh.unused k hk hkl
    · change (t.append record).entries (k % t.allocated) ≠
        (t.append record).entries (l % t.allocated)
      rw [hold_k, hold (show t.reused ≤ l by omega) (show l < t.added by omega)]
      exact h.distinct k l hk hkl (by omega)
  · rw [hlive]
    exact h.placed.append hplaced
  · rw [hbytes]
    exact h.content
  · rw [hbytes]
    exact h.pos

end Insert

end MultiversionBalancer.Http2
