import MultiversionBalancer.Http2.Handlers
import MultiversionBalancer.Lib.Ring
import Mathlib.Logic.Function.Basic

/-!
# The dynamic table

`ngx_http_v2_table.c`.  The bytes of the header fields stand in a ring of 4096
bytes, their records are reached through an array of pointers, and the records of
header fields that were removed are used again.  Allocations succeed.
-/

namespace MultiversionBalancer.Http2

open Lib Http

def tableSize : ℕ := 4096

def Header.text (name value : String) : Header :=
  ⟨bytes name, bytes value⟩

def staticTable : List Header :=
  [.text ":authority" "",
    .text ":method" "GET",
    .text ":method" "POST",
    .text ":path" "/",
    .text ":path" "/index.html",
    .text ":scheme" "http",
    .text ":scheme" "https",
    .text ":status" "200",
    .text ":status" "204",
    .text ":status" "206",
    .text ":status" "304",
    .text ":status" "400",
    .text ":status" "404",
    .text ":status" "500",
    .text "accept-charset" "",
    .text "accept-encoding" "gzip, deflate",
    .text "accept-language" "",
    .text "accept-ranges" "",
    .text "accept" "",
    .text "access-control-allow-origin" "",
    .text "age" "",
    .text "allow" "",
    .text "authorization" "",
    .text "cache-control" "",
    .text "content-disposition" "",
    .text "content-encoding" "",
    .text "content-language" "",
    .text "content-length" "",
    .text "content-location" "",
    .text "content-range" "",
    .text "content-type" "",
    .text "cookie" "",
    .text "date" "",
    .text "etag" "",
    .text "expect" "",
    .text "expires" "",
    .text "from" "",
    .text "host" "",
    .text "if-match" "",
    .text "if-modified-since" "",
    .text "if-none-match" "",
    .text "if-range" "",
    .text "if-unmodified-since" "",
    .text "last-modified" "",
    .text "link" "",
    .text "location" "",
    .text "max-forwards" "",
    .text "proxy-authenticate" "",
    .text "proxy-authorization" "",
    .text "range" "",
    .text "referer" "",
    .text "refresh" "",
    .text "retry-after" "",
    .text "server" "",
    .text "set-cookie" "",
    .text "strict-transport-security" "",
    .text "transfer-encoding" "",
    .text "user-agent" "",
    .text "vary" "",
    .text "via" "",
    .text "www-authenticate" ""]

/-- A record of the table: lengths, and positions in the ring. -/
structure Entry where
  nameLen : ℕ
  nameData : ℕ
  valueLen : ℕ
  valueData : ℕ

/-- `ngx_http_v2_hpack_t`.  The pointers in `entries` are numbers of `records`, of
which `nextRecord` have been allocated; `created` says that `entries` is not
`NULL`. -/
structure Table where
  created : Bool
  records : ℕ → Entry
  nextRecord : ℕ
  entries : ℕ → ℕ
  added : ℕ
  deleted : ℕ
  reused : ℕ
  allocated : ℕ
  size : ℕ
  free : ℕ
  storage : ℕ → UInt8
  pos : ℕ

def Table.new : Table where
  created := false
  records := fun _ => ⟨0, 0, 0, 0⟩
  nextRecord := 0
  entries := fun _ => 0
  added := 0
  deleted := 0
  reused := 0
  allocated := 0
  size := 0
  free := 0
  storage := fun _ => 0
  pos := 0

/-- `h2c->hpack.entries[k % h2c->hpack.allocated]`. -/
def Table.entry (t : Table) (k : ℕ) : Entry :=
  t.records (t.entries (k % t.allocated))

/-- The copy of a string from the ring. -/
def Table.copy (t : Table) (len data : ℕ) : List UInt8 :=
  if tableSize - data < len then
    readCells t.storage data (tableSize - data) ++
      readCells t.storage 0 (len - (tableSize - data))
  else readCells t.storage data len

/-- `ngx_http_v2_get_indexed_header`: the new `h2c->state.header`. -/
def ngxHttpV2GetIndexedHeader (t : Table) (index : ℕ) (nameOnly : Bool)
    (header : Header) : Option Header :=
  if index = 0 then none
  else
    let index := index - 1
    if h : index < staticTable.length then some (staticTable.get ⟨index, h⟩)
    else
      let index := index - staticTable.length
      if index < t.added - t.deleted then
        let entry := t.entry (t.added - index - 1)
        let name := t.copy entry.nameLen entry.nameData
        if nameOnly then some { header with name := name }
        else some ⟨name, t.copy entry.valueLen entry.valueData⟩
      else none

/-- Remove the oldest header field. -/
def Table.removeOldest (t : Table) : Table :=
  { t with
    deleted := t.deleted + 1
    free := t.free + (32 + (t.entry t.deleted).nameLen +
      (t.entry t.deleted).valueLen) }

/-- `while (needed > free)`; there are no more rounds than header fields. -/
def Table.removeUntil (needed : ℤ) : ℕ → Table → Table
  | 0, t => t
  | fuel + 1, t =>
      if (t.free : ℤ) < needed then Table.removeUntil needed fuel t.removeOldest
      else t

/-- `ngx_http_v2_table_account`: the table, and whether the header field has a
place in it. -/
def ngxHttpV2TableAccount (t : Table) (size : ℕ) : Table × Bool :=
  let size := size + 32
  if size ≤ t.free then ({ t with free := t.free - size }, true)
  else if t.size < size then ({ t with deleted := t.added, free := t.size }, false)
  else
    -- `do ... while (size > h2c->hpack.free)`
    let t := Table.removeUntil size (t.added - t.deleted - 1) t.removeOldest
    ({ t with free := t.free - size }, true)

/-- The table that the first header field creates. -/
def Table.create (t : Table) : Table :=
  if t.created then t
  else
    { t with
      created := true
      allocated := 64
      size := tableSize
      free := tableSize
      pos := 0 }

/-- A record for a new header field: a new one, or the oldest one that is not in
use. -/
def Table.takeRecord (t : Table) : Table × ℕ :=
  if t.reused = t.deleted then ({ t with nextRecord := t.nextRecord + 1 }, t.nextRecord)
  else ({ t with reused := t.reused + 1 }, t.entries (t.reused % t.allocated))

/-- A string is written at `pos`, where `avail` bytes are before the end of the
ring. -/
def Table.put (t : Table) (avail : ℕ) (s : List UInt8) : Table :=
  if s.length ≤ avail then
    { t with storage := writeCells t.storage t.pos s, pos := t.pos + s.length }
  else
    { t with
      storage :=
        writeCells (writeCells t.storage t.pos (s.take avail)) 0 (s.drop avail)
      pos := s.length - avail }

/-- The name and the value of a header field are written to the ring. -/
def Table.store (t : Table) (record : ℕ) (header : Header) : Table :=
  let avail := tableSize - t.pos
  let nameData := t.pos
  let t := t.put avail header.name
  let avail :=
    if header.name.length ≤ avail then avail - header.name.length
    else tableSize - header.name.length
  let valueData := t.pos
  let t := t.put avail header.value
  { t with
    records := Function.update t.records record
      ⟨header.name.length, nameData, header.value.length, valueData⟩ }

/-- The array of pointers grows, with the oldest pointer first. -/
def Table.grow (t : Table) : Table :=
  if t.allocated = t.added - t.deleted then
    let index := t.deleted % t.allocated
    { t with
      entries := fun i =>
        if i < t.allocated - index then t.entries (index + i)
        else t.entries (i - (t.allocated - index))
      added := t.allocated
      deleted := 0
      reused := 0
      allocated := t.allocated + 64 }
  else t

/-- `h2c->hpack.entries[h2c->hpack.added++ % h2c->hpack.allocated] = entry`. -/
def Table.append (t : Table) (record : ℕ) : Table :=
  { t with
    entries := Function.update t.entries (t.added % t.allocated) record
    added := t.added + 1 }

def ngxHttpV2AddHeader (t : Table) (header : Header) : Table :=
  let r := ngxHttpV2TableAccount t.create
    (header.name.length + header.value.length)
  if r.2 then
    let t := r.1.takeRecord
    ((t.1.store t.2 header).grow).append t.2
  else r.1

def ngxHttpV2TableSize (t : Table) (size : ℕ) : Option Table :=
  if tableSize < size then none
  else
    let needed : ℤ := t.size - size
    let t := Table.removeUntil needed (t.added - t.deleted) t
    some { t with size := size, free := (t.free - needed).toNat }

end MultiversionBalancer.Http2
