import MultiversionBalancer.Core.Inet6RoundTrip
import MultiversionBalancer.Core.Numbers
import MultiversionBalancer.Lib.Reads

/-!
# PROXY protocol headers

`ngx_proxy_protocol.c`: the writer of headers of version 1, the readers of both versions
and the lookup in the lists that a header of version 2 ends with.  Every byte is read at a
place of the buffer from `buf` to `last`, and a place outside of it is a failure.
Allocations succeed.
-/

namespace MultiversionBalancer.Core.ProxyProtocol

open Http (byte bytes cr lf isDigit hexDigit)
open Inet (sprintfBase sprintfInet)
open Inet6 (In6Addr ngxInet6Ntop)
open Lib

/-! ## The functions of the source -/

structure NgxProxyProtocol where
  srcAddr : List UInt8
  dstAddr : List UInt8
  srcPort : ℕ
  dstPort : ℕ
  tlvs : List UInt8
  deriving DecidableEq

/-- The socket addresses, by their family. -/
inductive Sockaddr where
  | inet (a b c d : UInt8) (port : UInt16)
  | inet6 (addr : In6Addr) (port : UInt16)
  | other

def Sockaddr.ngxInetGetPort : Sockaddr → UInt16
  | .inet _ _ _ _ port => port
  | .inet6 _ port => port
  | .other => 0

/-- `ngx_sock_ntop` without the port, into `len` bytes. -/
def Sockaddr.ngxSockNtop : Sockaddr → ℕ → List UInt8
  | .inet a b c d _, len => (sprintfInet a b c d).take len
  | .inet6 addr _, len => ngxInet6Ntop addr.s6Addr len
  | .other, _ => []

def v1MaxHeader : ℕ := 107

def sockaddrStrLen : ℕ := 113

/-- What `ngx_proxy_protocol_write` writes behind the name of the protocol. -/
def writeAddrs (buf : List UInt8) (last : ℕ) (src dst : Sockaddr) : List UInt8 :=
  let buf := buf ++ src.ngxSockNtop (last - buf.length)
  let buf := buf ++ [byte ' ']
  let buf := buf ++ dst.ngxSockNtop (last - buf.length)
  buf ++ (byte ' ' :: (sprintfBase 10 src.ngxInetGetPort.toNat ++
    byte ' ' :: (sprintfBase 10 dst.ngxInetGetPort.toNat ++ [cr, lf]))).take
      (last - buf.length)

/-- `ngx_proxy_protocol_write` for the addresses `c->sockaddr` and `c->local_sockaddr`, into
a buffer of `last` bytes; `none` is `NULL`. -/
def ngxProxyProtocolWrite (last : ℕ) (src dst : Sockaddr) : Option (List UInt8) :=
  if last < v1MaxHeader then none
  else
    match src with
    | .inet .. => some (writeAddrs (bytes "PROXY TCP4 ") last src dst)
    | .inet6 .. => some (writeAddrs (bytes "PROXY TCP6 ") last src dst)
    | .other => some (bytes "PROXY UNKNOWN\r\n")

/-- The characters that `ngx_proxy_protocol_read_addr` takes. -/
def isAddrChar (ch : UInt8) : Bool :=
  ch == byte ':' || ch == byte '.' || (byte 'a' ≤ ch && ch ≤ byte 'f') ||
    (byte 'A' ≤ ch && ch ≤ byte 'F') || isDigit ch

/-- The loop of `ngx_proxy_protocol_read_addr`: the place behind the blank, or `NULL`. -/
def seekBlank (buf : List UInt8) : ℕ → ℕ → Except ReadFailure (Option ℕ)
  | 0, _ => .error .turns
  | turns + 1, p =>
      if p = buf.length then .ok none
      else do
        let ch ← readAt buf p
        if ch = byte ' ' then .ok (some (p + 1))
        else if isAddrChar ch = false then .ok none
        else seekBlank buf turns (p + 1)

/-- `ngx_proxy_protocol_read_addr`: the address and the place behind the blank. -/
def ngxProxyProtocolReadAddr (buf : List UInt8) (pos : ℕ) :
    Except ReadFailure (Option (List UInt8 × ℕ)) := do
  match ← seekBlank buf (buf.length + 1) pos with
  | none => .ok none
  | some p =>
      let addr ← readRange buf pos (p - pos - 1)
      .ok (some (addr, p))

/-- The loop of `ngx_proxy_protocol_read_port`. -/
def seekSep (buf : List UInt8) (sep : UInt8) : ℕ → ℕ → Except ReadFailure (Option ℕ)
  | 0, _ => .error .turns
  | turns + 1, p =>
      if p = buf.length then .ok none
      else do
        let ch ← readAt buf p
        if ch = sep then .ok (some (p + 1)) else seekSep buf sep turns (p + 1)

/-- `ngx_proxy_protocol_read_port`: the port and the place behind the separator. -/
def ngxProxyProtocolReadPort (buf : List UInt8) (pos : ℕ) (sep : UInt8) :
    Except ReadFailure (Option (ℕ × ℕ)) := do
  match ← seekSep buf sep (buf.length + 1) pos with
  | none => .ok none
  | some p =>
      let text ← readRange buf pos (p - pos - 1)
      match ngxAtoi text with
      | .error _ => .ok none
      | .ok n => if 65535 < n then .ok none else .ok (some (n, p))

/-- What a reader returns: `NULL`, or a place, with `c->proxy_protocol` if it is set. -/
abbrev ReadResult := Option (ℕ × Option NgxProxyProtocol)

/-- The loop at `invalid`, which looks for the end of the line that is logged. -/
def scanLine (buf : List UInt8) : ℕ → ℕ → Except ReadFailure ℕ
  | 0, _ => .error .turns
  | turns + 1, p =>
      if p < buf.length then do
        let ch ← readAt buf p
        if ch = cr ∨ ch = lf then .ok p else scanLine buf turns (p + 1)
      else .ok p

def invalid (buf : List UInt8) : Except ReadFailure ReadResult := do
  let _ ← scanLine buf (buf.length + 1) 0
  .ok none

def skipLine (buf : List UInt8) : ℕ → ℕ → Except ReadFailure ReadResult
  | 0, _ => .error .turns
  | turns + 1, p =>
      if p < buf.length - 1 then do
        let first ← readAt buf p
        let second ← readAt buf (p + 1)
        if first = cr ∧ second = lf then .ok (some (p + 2, none))
        else skipLine buf turns (p + 1)
      else invalid buf

/-- `ngx_proxy_protocol_read` behind `TCP4` and `TCP6`. -/
def readTcp (buf : List UInt8) (p : ℕ) : Except ReadFailure ReadResult := do
  match ← ngxProxyProtocolReadAddr buf p with
  | none => invalid buf
  | some (srcAddr, p) =>
    match ← ngxProxyProtocolReadAddr buf p with
    | none => invalid buf
    | some (dstAddr, p) =>
      match ← ngxProxyProtocolReadPort buf p (byte ' ') with
      | none => invalid buf
      | some (srcPort, p) =>
        match ← ngxProxyProtocolReadPort buf p cr with
        | none => invalid buf
        | some (dstPort, p) =>
          if p = buf.length then invalid buf
          else do
            let ch ← readAt buf p
            if ch ≠ lf then invalid buf
            else .ok (some (p + 1, some ⟨srcAddr, dstAddr, srcPort, dstPort, []⟩))

def parseUint16 (s : List UInt8) (p : ℕ) : Except ReadFailure ℕ := do
  let high ← readAt s p
  let low ← readAt s (p + 1)
  .ok (high.toNat * 256 + low.toNat)

def parseUint32 (s : List UInt8) (p : ℕ) : Except ReadFailure ℕ := do
  let high ← parseUint16 s p
  let low ← parseUint16 s (p + 2)
  .ok (high * 65536 + low)

/-- The text that `ngx_sock_ntop` makes of the four bytes of an IPv4 address. -/
def inetText (addr : List UInt8) : List UInt8 :=
  (sprintfInet (addr.getD 0 0) (addr.getD 1 0) (addr.getD 2 0) (addr.getD 3 0)).take
    sockaddrStrLen

/-- `ngx_proxy_protocol_v2_read` behind the check of the family: addresses of `size` bytes
and ports at `p`, and the list from there to `last`. -/
def readAddrs (buf : List UInt8) (p last size : ℕ) (text : List UInt8 → List UInt8) :
    Except ReadFailure ReadResult :=
  if last - p < 2 * size + 4 then .ok none
  else do
    let srcAddr ← readRange buf p size
    let dstAddr ← readRange buf (p + size) size
    let srcPort ← parseUint16 buf (p + 2 * size)
    let dstPort ← parseUint16 buf (p + 2 * size + 2)
    let tlvs ← readRange buf (p + 2 * size + 4) (last - (p + 2 * size + 4))
    .ok (some (last, some ⟨text srcAddr, text dstAddr, srcPort, dstPort, tlvs⟩))

def ngxProxyProtocolV2Read (buf : List UInt8) : Except ReadFailure ReadResult := do
  let versionCommand ← readAt buf 12
  if versionCommand >>> 4 ≠ 2 then .ok none
  else do
    let len ← parseUint16 buf 14
    if buf.length - 16 < len then .ok none
    else if versionCommand &&& 0x0f ≠ 1 then .ok (some (16 + len, none))
    else do
      let familyTransport ← readAt buf 13
      if familyTransport &&& 0x0f ≠ 1 then .ok (some (16 + len, none))
      else if familyTransport >>> 4 = 1 then readAddrs buf 16 (16 + len) 4 inetText
      else if familyTransport >>> 4 = 2 then
        readAddrs buf 16 (16 + len) 16 (ngxInet6Ntop · sockaddrStrLen)
      else .ok (some (16 + len, none))

/-- The bytes of a comparison that is made only under a condition. -/
def readIf (c : Bool) (s : List UInt8) (i n : ℕ) : Except ReadFailure (List UInt8) :=
  if c = true then readRange s i n else .ok []

/-- The first bytes of a header of version 2. -/
def signature : List UInt8 := bytes "\r\n\r\n\x00\r\nQUIT\n"

def readV1 (buf : List UInt8) : Except ReadFailure ReadResult := do
  if buf.length < 8 then invalid buf
  else do
    let proxy ← readRange buf 0 6
    if proxy ≠ bytes "PROXY " then invalid buf
    else do
      let unknown ← readIf (7 ≤ buf.length - 6) buf 6 7
      if unknown = bytes "UNKNOWN" then skipLine buf (buf.length + 1) 13
      else if buf.length - 6 < 5 then invalid buf
      else do
        let tcp ← readRange buf 6 3
        let version ← readAt buf 9
        let blank ← readAt buf 10
        if tcp ≠ bytes "TCP" ∨ (version ≠ byte '4' ∧ version ≠ byte '6') ∨ blank ≠ byte ' ' then
          invalid buf
        else readTcp buf 11

def ngxProxyProtocolRead (buf : List UInt8) : Except ReadFailure ReadResult := do
  let start ← readIf (16 ≤ buf.length) buf 0 12
  if start = signature then ngxProxyProtocolV2Read buf else readV1 buf

/-- What a lookup returns: `NGX_DECLINED`, `NGX_ERROR`, or a value in the list, by its place
and length. -/
inductive TlvResult where
  | declined
  | error
  | ok (data len : ℕ)
  deriving DecidableEq

/-- `ngx_proxy_protocol_lookup_tlv` in the `n` bytes from `p` on. -/
def ngxProxyProtocolLookupTlv (tlvs : List UInt8) (type : ℕ) :
    ℕ → ℕ → ℕ → Except ReadFailure TlvResult
  | 0, _, _ => .error .turns
  | turns + 1, p, n =>
      if n = 0 then .ok .declined
      else if n < 3 then .ok .error
      else do
        let len ← parseUint16 tlvs (p + 1)
        if n - 3 < len then .ok .error
        else do
          let tlvType ← readAt tlvs p
          if tlvType.toNat = type then .ok (.ok (p + 3) len)
          else ngxProxyProtocolLookupTlv tlvs type turns (p + 3 + len) (n - 3 - len)

def tlvEntries : List (List UInt8 × ℕ) :=
  [(bytes "alpn", 0x01), (bytes "authority", 0x02), (bytes "unique_id", 0x05),
    (bytes "ssl", 0x20), (bytes "netns", 0x30)]

def tlvSslEntries : List (List UInt8 × ℕ) :=
  [(bytes "version", 0x21), (bytes "cn", 0x22), (bytes "cipher", 0x23),
    (bytes "sig_alg", 0x24), (bytes "key_alg", 0x25)]

/-- What `ngx_proxy_protocol_get_tlv` returns; the text is one it has written. -/
inductive TlvValue where
  | found (r : TlvResult)
  | text (s : List UInt8)
  deriving DecidableEq

/-- The end of `ngx_proxy_protocol_get_tlv`: the name is a number or one of the entries. -/
def lookupName (tlvs : List UInt8) (p n : ℕ) (entries : List (List UInt8 × ℕ))
    (name : List UInt8) : Except ReadFailure TlvValue :=
  if name.take 2 = bytes "0x" then
    match ngxHextoi (name.drop 2) with
    | .error _ => .ok (.found .error)
    | .ok type => .found <$> ngxProxyProtocolLookupTlv tlvs type (n + 1) p n
  else
    match entries.find? fun entry => entry.1 == name with
    | none => .ok (.found .declined)
    | some entry => .found <$> ngxProxyProtocolLookupTlv tlvs entry.2 (n + 1) p n

def ngxProxyProtocolGetTlv (proxyProtocol : Option NgxProxyProtocol) (name : List UInt8) :
    Except ReadFailure TlvValue :=
  match proxyProtocol with
  | none => .ok (.found .declined)
  | some pp =>
      if name.take 4 = bytes "ssl_" then do
        match ← ngxProxyProtocolLookupTlv pp.tlvs 0x20 (pp.tlvs.length + 1) 0
            pp.tlvs.length with
        | .ok data len =>
            if len < 5 then .ok (.found .error)
            else if name.drop 4 = bytes "verify" then do
              let verify ← parseUint32 pp.tlvs (data + 1)
              .ok (.text (sprintfBase 10 verify))
            else lookupName pp.tlvs (data + 5) (len - 5) tlvSslEntries (name.drop 4)
        | rc => .ok (.found rc)
      else lookupName pp.tlvs 0 pp.tlvs.length tlvEntries name

/-! ## Bounds -/

section Bounds

variable {buf : List UInt8} {turns p : ℕ}

theorem seekBlank_returns (hp : p ≤ buf.length) (hturns : buf.length < p + turns) :
    Except.Returns (fun r => ∀ q, r = some q → p < q ∧ q ≤ buf.length)
      (seekBlank buf turns p) := by
  induction turns generalizing p with
  | zero => omega
  | succ turns ih =>
      rw [seekBlank]
      refine .ite (fun _ => .pure fun q hq => by cases hq) fun hne => ?_
      have hlt : p < buf.length := by omega
      refine .bind (readAt_returns hlt) fun ch _ => ?_
      refine .ite (fun _ => .pure ?_) fun _ => .ite (fun _ => .pure fun q hq => by cases hq) ?_
      · rintro q hq
        cases hq
        omega
      · intro _
        refine .mono (ih hlt (by omega)) fun r hr q hq => ?_
        have hq' := hr q hq
        omega

theorem seekSep_returns (sep : UInt8) (hp : p ≤ buf.length) (hturns : buf.length < p + turns) :
    Except.Returns (fun r => ∀ q, r = some q → p < q ∧ q ≤ buf.length)
      (seekSep buf sep turns p) := by
  induction turns generalizing p with
  | zero => omega
  | succ turns ih =>
      rw [seekSep]
      refine .ite (fun _ => .pure fun q hq => by cases hq) fun hne => ?_
      have hlt : p < buf.length := by omega
      refine .bind (readAt_returns hlt) fun ch _ => ?_
      refine .ite (fun _ => .pure ?_) fun _ => ?_
      · rintro q hq
        cases hq
        omega
      · refine .mono (ih hlt (by omega)) fun r hr q hq => ?_
        have hq' := hr q hq
        omega

/-- A part of the header was read, or it is not there. -/
def Reads {α : Type} (buf : List UInt8) (p : ℕ) (r : Option (α × ℕ)) : Prop :=
  ∀ a q, r = some (a, q) → p < q ∧ q ≤ buf.length

theorem ngxProxyProtocolReadAddr_returns (hp : p ≤ buf.length) :
    Except.Returns (Reads buf p) (ngxProxyProtocolReadAddr buf p) := by
  refine .bind (seekBlank_returns hp (by omega)) fun r hr => ?_
  cases r with
  | none => exact .pure fun a q hq => by cases hq
  | some q =>
      obtain ⟨hpq, hq⟩ := hr q rfl
      have hrange : p + (q - p - 1) ≤ buf.length := by omega
      refine .bind (readRange_returns hrange) fun addr _ => .pure ?_
      rintro a q hq
      cases hq
      exact hr _ rfl

theorem ngxProxyProtocolReadPort_returns (sep : UInt8) (hp : p ≤ buf.length) :
    Except.Returns (Reads buf p) (ngxProxyProtocolReadPort buf p sep) := by
  refine .bind (seekSep_returns sep hp (by omega)) fun r hr => ?_
  cases r with
  | none => exact .pure fun a q hq => by cases hq
  | some q =>
      obtain ⟨hpq, hq⟩ := hr q rfl
      have hrange : p + (q - p - 1) ≤ buf.length := by omega
      refine .bind (readRange_returns hrange) fun text _ => ?_
      cases ngxAtoi text with
      | error _ => exact .pure fun a q hq => by cases hq
      | ok n =>
          refine .ite (fun _ => .pure fun a q hq => by cases hq) fun _ => .pure ?_
          rintro a q hq
          cases hq
          exact hr _ rfl

/-- What a reader may return: `NULL`, or a place behind the first byte and not behind the
last one. -/
def Inside (buf : List UInt8) (r : ReadResult) : Prop :=
  ∀ p pp, r = some (p, pp) → 0 < p ∧ p ≤ buf.length

theorem inside_some {q : ℕ} (hpos : 0 < q) (hle : q ≤ buf.length)
    (pp : Option NgxProxyProtocol) : Inside buf (some (q, pp)) := by
  rintro p pp hp
  cases hp
  exact ⟨hpos, hle⟩

theorem inside_none : Inside buf none := fun _ _ h => by cases h

theorem scanLine_returns (hturns : buf.length < p + turns) :
    Except.Returns (fun _ => True) (scanLine buf turns p) ∨ buf.length < p := by
  induction turns generalizing p with
  | zero => exact .inr hturns
  | succ turns ih =>
      rw [scanLine]
      by_cases hlt : p < buf.length
      · refine .inl (.ite (fun _ => .bind (readAt_returns hlt) fun ch _ => ?_) fun hge =>
          absurd hlt hge)
        refine .ite (fun _ => .pure trivial) fun _ => ?_
        exact (ih (by omega)).resolve_right (by omega)
      · rw [if_neg hlt]
        exact .inl (.pure trivial)

theorem invalid_returns (buf : List UInt8) : Except.Returns (Inside buf) (invalid buf) := by
  have hscan := (scanLine_returns (p := 0) (show buf.length < 0 + (buf.length + 1) by omega))
  exact .bind (hscan.resolve_right (Nat.not_lt_zero _)) fun _ _ => .pure inside_none

theorem skipLine_returns (hturns : buf.length < p + turns) (hp : p ≤ buf.length) :
    Except.Returns (Inside buf) (skipLine buf turns p) := by
  induction turns generalizing p with
  | zero => omega
  | succ turns ih =>
      rw [skipLine]
      refine .ite (fun hlt => ?_) fun _ => invalid_returns buf
      refine .bind (readAt_returns (by omega)) fun first _ => ?_
      refine .bind (readAt_returns (by omega)) fun second _ => ?_
      refine .ite (fun _ => .pure (inside_some (by omega) (by omega) none)) fun _ => ?_
      exact ih (by omega) (by omega)

theorem readTcp_returns (hp : p ≤ buf.length) :
    Except.Returns (Inside buf) (readTcp buf p) := by
  refine .bind (ngxProxyProtocolReadAddr_returns hp) fun r hr => ?_
  rcases r with _ | ⟨srcAddr, p₁⟩
  · exact invalid_returns buf
  obtain ⟨-, h₁⟩ := hr _ _ rfl
  refine .bind (ngxProxyProtocolReadAddr_returns h₁) fun r hr => ?_
  rcases r with _ | ⟨dstAddr, p₂⟩
  · exact invalid_returns buf
  obtain ⟨-, h₂⟩ := hr _ _ rfl
  refine .bind (ngxProxyProtocolReadPort_returns (byte ' ') h₂) fun r hr => ?_
  rcases r with _ | ⟨srcPort, p₃⟩
  · exact invalid_returns buf
  obtain ⟨-, h₃⟩ := hr _ _ rfl
  refine .bind (ngxProxyProtocolReadPort_returns cr h₃) fun r hr => ?_
  rcases r with _ | ⟨dstPort, p₄⟩
  · exact invalid_returns buf
  obtain ⟨-, h₄⟩ := hr _ _ rfl
  refine .ite (fun _ => invalid_returns buf) fun hne => ?_
  refine .bind (readAt_returns (by omega)) fun ch _ => ?_
  exact .ite (fun _ => invalid_returns buf) fun _ =>
    .pure (inside_some (by omega) (by omega) _)

/-- A text that is compared was read, unless it is empty. -/
theorem readIf_returns {c : Bool} {i n : ℕ} {text : List UInt8}
    (h : c = true → i + n ≤ buf.length) (hne : [] ≠ text) :
    Except.Returns (fun s => s = text → c = true) (readIf c buf i n) :=
  .ite (fun hc => .mono (readRange_returns (h hc)) fun _ _ _ => hc) fun _ =>
    .pure fun hempty => absurd hempty hne

theorem parseUint16_returns {s : List UInt8} (h : p + 1 < s.length) :
    Except.Returns (fun _ => True) (parseUint16 s p) :=
  .bind (readAt_returns (Nat.lt_of_succ_lt h)) fun _ _ => .bind (readAt_returns h) fun _ _ =>
    .pure trivial

theorem readAddrs_returns {last : ℕ} (size : ℕ) (text : List UInt8 → List UInt8)
    (hp : p ≤ last) (hpos : 0 < last) (hlast : last ≤ buf.length) :
    Except.Returns (Inside buf) (readAddrs buf p last size text) := by
  refine .ite (fun _ => .pure inside_none) fun hroom => ?_
  refine .bind (readRange_returns (by omega)) fun srcAddr _ => ?_
  refine .bind (readRange_returns (by omega)) fun dstAddr _ => ?_
  refine .bind (parseUint16_returns (by omega)) fun srcPort _ => ?_
  refine .bind (parseUint16_returns (by omega)) fun dstPort _ => ?_
  refine .bind (readRange_returns (by omega)) fun tlvs _ => ?_
  exact .pure (inside_some hpos hlast _)

theorem ngxProxyProtocolV2Read_returns (h : 16 ≤ buf.length) :
    Except.Returns (Inside buf) (ngxProxyProtocolV2Read buf) := by
  refine .bind (readAt_returns (by omega)) fun versionCommand _ => ?_
  refine .ite (fun _ => .pure inside_none) fun _ => ?_
  refine .bind (parseUint16_returns (by omega)) fun len _ => ?_
  refine .ite (fun _ => .pure inside_none) fun hlen => ?_
  have hpos : 0 < 16 + len := by omega
  have hend : 16 + len ≤ buf.length := by omega
  refine .ite (fun _ => .pure (inside_some hpos hend none)) fun _ => ?_
  refine .bind (readAt_returns (by omega)) fun familyTransport _ => ?_
  refine .ite (fun _ => .pure (inside_some hpos hend none)) fun _ => ?_
  refine .ite (fun _ => readAddrs_returns 4 _ (by omega) hpos hend) fun _ => ?_
  exact .ite (fun _ => readAddrs_returns 16 _ (by omega) hpos hend) fun _ =>
    .pure (inside_some hpos hend none)

theorem readV1_returns (buf : List UInt8) : Except.Returns (Inside buf) (readV1 buf) := by
  refine .ite (fun _ => invalid_returns buf) fun hlen => ?_
  refine .bind (readRange_returns (by omega)) fun proxy _ => ?_
  refine .ite (fun _ => invalid_returns buf) fun _ => ?_
  have hseven (h : decide (7 ≤ buf.length - 6) = true) : 6 + 7 ≤ buf.length := by
    have h' := of_decide_eq_true h
    omega
  have hne : [] ≠ bytes "UNKNOWN" := by decide
  refine .bind (readIf_returns hseven hne) fun unknown hunknown => ?_
  refine .ite (fun heq => ?_) fun _ => ?_
  · exact skipLine_returns (by omega) (hseven (hunknown heq))
  refine .ite (fun _ => invalid_returns buf) fun hfive => ?_
  refine .bind (readRange_returns (by omega)) fun tcp _ => ?_
  refine .bind (readAt_returns (by omega)) fun version _ => ?_
  refine .bind (readAt_returns (by omega)) fun blank _ => ?_
  exact .ite (fun _ => invalid_returns buf) fun _ => readTcp_returns (by omega)

/-- A header is read inside of the buffer, and ends inside of it. -/
theorem ngxProxyProtocolRead_returns (buf : List UInt8) :
    Except.Returns (Inside buf) (ngxProxyProtocolRead buf) := by
  have hsize (h : decide (16 ≤ buf.length) = true) : 0 + 12 ≤ buf.length := by
    have h' := of_decide_eq_true h
    omega
  have hne : [] ≠ signature := by decide
  refine .bind (readIf_returns hsize hne) fun start hstart => ?_
  refine .ite (fun heq => ?_) fun _ => readV1_returns buf
  exact ngxProxyProtocolV2Read_returns (of_decide_eq_true (hstart heq))

/-- The value that was found is one of the `n` bytes from `p` on. -/
def TlvResult.Within (p n : ℕ) (r : TlvResult) : Prop :=
  ∀ data len, r = .ok data len → p ≤ data ∧ data + len ≤ p + n

theorem ngxProxyProtocolLookupTlv_returns {tlvs : List UInt8} (type : ℕ) {n : ℕ}
    (h : p + n ≤ tlvs.length) (hturns : n < turns) :
    Except.Returns (TlvResult.Within p n) (ngxProxyProtocolLookupTlv tlvs type turns p n) := by
  induction turns generalizing p n with
  | zero => omega
  | succ turns ih =>
      rw [ngxProxyProtocolLookupTlv]
      refine .ite (fun _ => .pure fun _ _ hok => by cases hok) fun _ => ?_
      refine .ite (fun _ => .pure fun _ _ hok => by cases hok) fun hthree => ?_
      refine .bind (parseUint16_returns (by omega)) fun len _ => ?_
      refine .ite (fun _ => .pure fun _ _ hok => by cases hok) fun hlen => ?_
      refine .bind (readAt_returns (by omega)) fun tlvType _ => ?_
      refine .ite (fun _ => .pure ?_) fun _ => ?_
      · rintro data len hok
        cases hok
        omega
      · refine .mono (ih (by omega) (by omega)) fun r hr data l hok => ?_
        have hr' := hr data l hok
        omega

/-- A value that is not a text of its own is a part of the list. -/
def TlvValue.Inside (tlvs : List UInt8) (v : TlvValue) : Prop :=
  ∀ data len, v = .found (.ok data len) → data + len ≤ tlvs.length

theorem lookupTlv_found {tlvs : List UInt8} (type : ℕ) {n : ℕ} (h : p + n ≤ tlvs.length) :
    Except.Returns (TlvValue.Inside tlvs)
      (TlvValue.found <$> ngxProxyProtocolLookupTlv tlvs type (n + 1) p n) := by
  obtain ⟨r, hr, hwithin⟩ := ngxProxyProtocolLookupTlv_returns type h (Nat.lt_succ_self n)
  refine ⟨.found r, by rw [hr]; rfl, fun data len hok => ?_⟩
  have hwithin' := hwithin data len (TlvValue.found.inj hok)
  omega

theorem lookupName_returns {tlvs : List UInt8} {n : ℕ} (entries : List (List UInt8 × ℕ))
    (name : List UInt8) (h : p + n ≤ tlvs.length) :
    Except.Returns (TlvValue.Inside tlvs) (lookupName tlvs p n entries name) := by
  refine .ite (fun _ => ?_) fun _ => ?_
  · cases ngxHextoi (name.drop 2) with
    | error _ => exact .pure fun _ _ hok => by cases hok
    | ok type => exact lookupTlv_found type h
  · cases entries.find? fun entry => entry.1 == name with
    | none => exact .pure fun _ _ hok => by cases hok
    | some entry => exact lookupTlv_found entry.2 h

/-- A value is looked up inside of the list. -/
theorem ngxProxyProtocolGetTlv_returns (pp : NgxProxyProtocol) (name : List UInt8) :
    Except.Returns (TlvValue.Inside pp.tlvs) (ngxProxyProtocolGetTlv (some pp) name) := by
  have hall : 0 + pp.tlvs.length ≤ pp.tlvs.length := by omega
  refine .ite (fun _ => ?_) fun _ => lookupName_returns _ name hall
  refine .bind (ngxProxyProtocolLookupTlv_returns 0x20 hall (Nat.lt_succ_self _)) fun rc hrc => ?_
  cases rc with
  | declined => exact .pure fun _ _ hok => by cases hok
  | error => exact .pure fun _ _ hok => by cases hok
  | ok data len =>
      have hssl := hrc data len rfl
      refine .ite (fun _ => .pure fun _ _ hok => by cases hok) fun hfive => ?_
      refine .ite (fun _ => ?_) fun _ => lookupName_returns _ _ (by omega)
      have hverify : Except.Returns (fun _ => True) (parseUint32 pp.tlvs (data + 1)) :=
        .bind (parseUint16_returns (by omega)) fun _ _ =>
          .bind (parseUint16_returns (by omega)) fun _ _ => .pure trivial
      exact .bind hverify fun verify _ => .pure fun _ _ hok => by cases hok

end Bounds

/-! ## The texts of addresses -/

theorem isAddrChar_of_hexDigit {ch d : UInt8} (h : hexDigit ch = some d) :
    isAddrChar ch = true := by
  have htest := Http.byte_test (p := fun ch => !(hexDigit ch).isSome || isAddrChar ch)
    (by decide +kernel) ch
  simpa [h] using htest

theorem isAddrChar_sprintfBase {base n : ℕ} (hbase : 1 < base) (hle : base ≤ 16) :
    ∀ ch ∈ sprintfBase base n, isAddrChar ch = true := by
  intro ch hch
  obtain ⟨d, hd, -⟩ := Inet.mem_sprintfBase hbase hle hch
  exact isAddrChar_of_hexDigit hd

theorem isAddrChar_sprintfInet (a b c d : UInt8) :
    ∀ ch ∈ sprintfInet a b c d, isAddrChar ch = true := by
  have hnum (a : UInt8) : ∀ ch ∈ sprintfBase 10 a.toNat, isAddrChar ch = true :=
    isAddrChar_sprintfBase (by decide) (by decide)
  have hdot : isAddrChar (byte '.') = true := by decide
  simp only [sprintfInet, List.forall_mem_append, List.forall_mem_cons]
  exact ⟨hnum a, hdot, hnum b, hdot, hnum c, hdot, hnum d⟩

theorem isAddrChar_writeGroups (p : List UInt8) (r : Inet6.Runs) (n turns i : ℕ) :
    ∀ ch ∈ Inet6.writeGroups p r n turns i, isAddrChar ch = true := by
  have hcolon : isAddrChar (byte ':') = true := by decide
  induction turns generalizing i with
  | zero => exact fun ch hch => absurd hch List.not_mem_nil
  | succ turns ih =>
      rw [Inet6.writeGroups]
      split_ifs
      · exact List.forall_mem_cons.mpr ⟨hcolon, ih _⟩
      · simp only [List.forall_mem_append, List.forall_mem_singleton]
        exact ⟨⟨isAddrChar_sprintfBase (by decide) (by decide), hcolon⟩, ih _⟩
      · simp only [List.forall_mem_append, List.append_nil]
        exact ⟨isAddrChar_sprintfBase (by decide) (by decide), ih _⟩
      · exact fun ch hch => absurd hch List.not_mem_nil

theorem isAddrChar_ngxInet6Ntop (p : List UInt8) (len : ℕ) :
    ∀ ch ∈ ngxInet6Ntop p len, isAddrChar ch = true := by
  have hcolon : isAddrChar (byte ':') = true := by decide
  have hnil : ∀ ch ∈ ([] : List UInt8), isAddrChar ch = true :=
    fun ch hch => absurd hch List.not_mem_nil
  have hopt {c : Prop} [Decidable c] {l : List UInt8} (hl : ∀ ch ∈ l, isAddrChar ch = true) :
      ∀ ch ∈ if c then l else [], isAddrChar ch = true := by
    split_ifs
    · exact hl
    · exact hnil
  rw [ngxInet6Ntop]
  split_ifs
  · exact hnil
  · simp only [List.forall_mem_append]
    exact ⟨⟨hopt (List.forall_mem_singleton.mpr hcolon), isAddrChar_writeGroups p _ _ _ _⟩,
      hopt (isAddrChar_sprintfInet _ _ _ _)⟩

theorem length_ngxInet6Ntop_le (p : List UInt8) {len : ℕ} (hlen : Inet6.inet6AddrStrLen ≤ len) :
    (ngxInet6Ntop p len).length ≤ 39 := by
  by_cases hembedded : Inet6.Embedded p (Inet6.longestRun p)
  · obtain ⟨m, -, -, -, hgroups, hcase⟩ := Inet6.embedded_zeros hembedded
    have hwords := Inet6.length_hexGroups_wordsFrom_le p m (6 - m)
    have hinet := Inet6.length_sprintfInet_le (p.getD 12 0) (p.getD 13 0) (p.getD 14 0)
      (p.getD 15 0)
    rw [Inet6.ngxInet6Ntop_embedded hlen hembedded, hgroups]
    simp only [List.length_cons, List.length_append]
    omega
  · rcases (Inet6.longestRun_found p).best with hnone | ⟨j, hzero, htwo, hfits, -⟩
    · rw [Inet6.ngxInet6Ntop_plain hlen hnone]
      exact Inet6.length_lastGroups_le p 0
    · have hlast := Inet6.length_lastGroups_le p (j + (Inet6.longestRun p).max)
      have hbefore := Inet6.length_hexGroups_wordsFrom_le p 0 j
      rw [Inet6.ngxInet6Ntop_gap hlen hzero (by omega) hfits hembedded, List.length_append,
        List.length_cons]
      split_ifs
      · rw [List.length_singleton]
        omega
      · omega

def Sockaddr.text (sa : Sockaddr) : List UInt8 := sa.ngxSockNtop sockaddrStrLen

theorem Sockaddr.ngxSockNtop_eq (sa : Sockaddr) {len : ℕ} (hlen : Inet6.inet6AddrStrLen ≤ len) :
    sa.ngxSockNtop len = sa.text := by
  have h45 : Inet6.inet6AddrStrLen = 45 := rfl
  have h113 : sockaddrStrLen = 113 := rfl
  cases sa with
  | inet a b c d port =>
      have hinet := Inet6.length_sprintfInet_le a b c d
      rw [text, ngxSockNtop, ngxSockNtop, List.take_of_length_le (by omega),
        List.take_of_length_le (by omega)]
  | inet6 addr port =>
      rw [text, ngxSockNtop, ngxSockNtop, ngxInet6Ntop, ngxInet6Ntop, if_neg (by omega),
        if_neg (by omega)]
  | other => rfl

theorem Sockaddr.length_text_le (sa : Sockaddr) : sa.text.length ≤ 39 := by
  cases sa with
  | inet a b c d port =>
      have hinet := Inet6.length_sprintfInet_le a b c d
      rw [text, ngxSockNtop, List.length_take]
      omega
  | inet6 addr port =>
      have hroom : Inet6.inet6AddrStrLen ≤ sockaddrStrLen := by decide
      exact length_ngxInet6Ntop_le addr.s6Addr hroom
  | other => exact Nat.zero_le _

theorem Sockaddr.isAddrChar_text (sa : Sockaddr) : ∀ ch ∈ sa.text, isAddrChar ch = true := by
  cases sa with
  | inet a b c d port =>
      intro ch hch
      exact isAddrChar_sprintfInet a b c d ch (List.mem_of_mem_take hch)
  | inet6 addr port => exact isAddrChar_ngxInet6Ntop addr.s6Addr sockaddrStrLen
  | other => exact fun ch hch => absurd hch List.not_mem_nil

theorem isDigit_sprintfBase {n : ℕ} : ∀ ch ∈ sprintfBase 10 n, isDigit ch = true := by
  intro ch hch
  obtain ⟨d, hd, hlt⟩ : ∃ d, hexDigit ch = some d ∧ d.toNat < 10 :=
    Inet.mem_sprintfBase (by decide) (by decide) hch
  exact (Http.hexDigit_lt hd).2.mpr hlt

/-- A number that is written is read again. -/
theorem ngxAtoi_sprintfBase {n : ℕ} (hn : n ≤ maxInt) : ngxAtoi (sprintfBase 10 n) = .ok n := by
  refine (parseNumber_parses maxInt _).1 n ⟨?_, isDigit_sprintfBase, ?_, hn⟩
  · exact List.ne_nil_of_length_pos (Inet.length_sprintfBase_pos 10 n)
  · have hfold : (sprintfBase 10 n).foldl (Inet.readDigit 10) 0 = n :=
      Inet.foldl_sprintfBase (by decide) (by decide) n
    refine hfold.symm.trans ?_
    refine List.foldl_ext _ _ 0 fun v ch hch => ?_
    rw [Inet.readDigit, hexDigit, if_pos (isDigit_sprintfBase ch hch)]
    rfl

/-! ## The round trip -/

theorem seekBlank_found {text : List UInt8} (htext : ∀ ch ∈ text, isAddrChar ch = true)
    (pre rest : List UInt8) {turns : ℕ} (hturns : text.length < turns) :
    seekBlank (pre ++ (text ++ byte ' ' :: rest)) turns pre.length =
      .ok (some (pre.length + text.length + 1)) := by
  induction text generalizing pre turns with
  | nil =>
      obtain ⟨turns, rfl⟩ := Nat.exists_eq_succ_of_ne_zero (Nat.ne_zero_of_lt hturns)
      have hne : pre.length ≠ (pre ++ ([] ++ byte ' ' :: rest)).length := by
        simp
      rw [seekBlank, if_neg hne, List.nil_append, readAt_append]
      rfl
  | cons ch text ih =>
      obtain ⟨turns, rfl⟩ := Nat.exists_eq_succ_of_ne_zero (Nat.ne_zero_of_lt hturns)
      obtain ⟨hch, htext⟩ := List.forall_mem_cons.mp htext
      have hne : pre.length ≠ (pre ++ (ch :: text ++ byte ' ' :: rest)).length := by
        simp
      have hblank : ch ≠ byte ' ' := by
        rintro rfl
        cases hch
      have hmore : ¬isAddrChar ch = false := by rw [hch]; exact Bool.noConfusion
      have hnext := ih htext (pre ++ [ch]) (Nat.lt_of_succ_lt_succ hturns)
      rw [List.append_assoc, List.singleton_append, ← List.cons_append, List.length_append,
        List.length_singleton] at hnext
      rw [seekBlank, if_neg hne, List.cons_append, readAt_append]
      simp only [bind, Except.bind, if_neg hblank, if_neg hmore]
      rw [List.cons_append] at hnext
      rw [hnext, List.length_cons]
      congr 2
      omega

theorem ngxProxyProtocolReadAddr_found {text : List UInt8}
    (htext : ∀ ch ∈ text, isAddrChar ch = true) (pre rest : List UInt8) :
    ngxProxyProtocolReadAddr (pre ++ (text ++ byte ' ' :: rest)) pre.length =
      .ok (some (text, pre.length + text.length + 1)) := by
  have hturns : text.length < (pre ++ (text ++ byte ' ' :: rest)).length + 1 := by
    simp only [List.length_append, List.length_cons]
    omega
  have hlen : pre.length + text.length + 1 - pre.length - 1 = text.length := by omega
  rw [ngxProxyProtocolReadAddr, seekBlank_found htext pre rest hturns]
  simp only [bind, Except.bind, hlen, readRange_append]

theorem seekSep_found {sep : UInt8} {text : List UInt8} (htext : sep ∉ text)
    (pre rest : List UInt8) {turns : ℕ} (hturns : text.length < turns) :
    seekSep (pre ++ (text ++ sep :: rest)) sep turns pre.length =
      .ok (some (pre.length + text.length + 1)) := by
  induction text generalizing pre turns with
  | nil =>
      obtain ⟨turns, rfl⟩ := Nat.exists_eq_succ_of_ne_zero (Nat.ne_zero_of_lt hturns)
      have hne : pre.length ≠ (pre ++ ([] ++ sep :: rest)).length := by
        simp
      rw [seekSep, if_neg hne, List.nil_append, readAt_append]
      simp only [bind, Except.bind, if_true]
      rfl
  | cons ch text ih =>
      obtain ⟨turns, rfl⟩ := Nat.exists_eq_succ_of_ne_zero (Nat.ne_zero_of_lt hturns)
      rw [List.mem_cons, not_or] at htext
      have hne : pre.length ≠ (pre ++ (ch :: text ++ sep :: rest)).length := by
        simp
      have hnext := ih htext.2 (pre ++ [ch]) (Nat.lt_of_succ_lt_succ hturns)
      rw [List.append_assoc, List.singleton_append, List.length_append,
        List.length_singleton] at hnext
      rw [seekSep, if_neg hne, List.cons_append, readAt_append]
      simp only [bind, Except.bind, if_neg (Ne.symm htext.1)]
      rw [hnext, List.length_cons]
      congr 2
      omega

theorem ngxProxyProtocolReadPort_found {sep : UInt8} (hsep : isDigit sep = false) {n : ℕ}
    (hn : n ≤ 65535) (pre rest : List UInt8) :
    ngxProxyProtocolReadPort (pre ++ (sprintfBase 10 n ++ sep :: rest)) pre.length sep =
      .ok (some (n, pre.length + (sprintfBase 10 n).length + 1)) := by
  have htext : sep ∉ sprintfBase 10 n := fun hmem => by
    rw [isDigit_sprintfBase sep hmem] at hsep
    cases hsep
  have hmax : n ≤ maxInt := Nat.le_trans hn (by decide)
  have hturns : (sprintfBase 10 n).length <
      (pre ++ (sprintfBase 10 n ++ sep :: rest)).length + 1 := by
    simp only [List.length_append, List.length_cons]
    omega
  have hlen : pre.length + (sprintfBase 10 n).length + 1 - pre.length - 1 =
      (sprintfBase 10 n).length := by omega
  rw [ngxProxyProtocolReadPort, seekSep_found htext pre rest hturns]
  simp only [bind, Except.bind, hlen, readRange_append, ngxAtoi_sprintfBase hmax,
    if_neg (Nat.not_lt.mpr hn)]

/-- A comparison with a text that the buffer does not have at the place fails. -/
theorem readIf_ne {c : Bool} {buf text : List UInt8} {i n : ℕ} (hnil : [] ≠ text)
    (hbound : c = true → i + n ≤ buf.length) (hne : (buf.drop i).take n ≠ text) :
    ∃ s, readIf c buf i n = .ok s ∧ s ≠ text := by
  cases c with
  | false => exact ⟨[], rfl, hnil⟩
  | true => exact ⟨_, readRange_of_le (hbound rfl), hne⟩

theorem ngxProxyProtocolRead_tcp {version : UInt8}
    (hversion : version = byte '4' ∨ version = byte '6') (rest : List UInt8) :
    ngxProxyProtocolRead (bytes "PROXY TCP" ++ version :: byte ' ' :: rest) =
      readTcp (bytes "PROXY TCP" ++ version :: byte ' ' :: rest) 11 := by
  have hbytes : bytes "PROXY TCP" = [80, 82, 79, 88, 89, 32, 84, 67, 80] := by decide
  have hlen : (bytes "PROXY TCP" ++ version :: byte ' ' :: rest).length = rest.length + 11 := by
    rw [hbytes]
    rfl
  obtain ⟨buf, hbuf⟩ : ∃ buf, buf = bytes "PROXY TCP" ++ version :: byte ' ' :: rest := ⟨_, rfl⟩
  rw [← hbuf] at hlen ⊢
  rw [hbytes] at hbuf
  -- the first bytes are not those of version 2, and the protocol is not `UNKNOWN`
  obtain ⟨start, hstart, hsignature⟩ :
      ∃ s, readIf (16 ≤ buf.length) buf 0 12 = .ok s ∧ s ≠ signature := by
    refine readIf_ne (by decide) (fun h => ?_) fun h => ?_
    · have h' := of_decide_eq_true h
      omega
    · rw [hbuf] at h
      cases congrArg List.head? h
  obtain ⟨unknown, hunknown, hname⟩ :
      ∃ s, readIf (7 ≤ buf.length - 6) buf 6 7 = .ok s ∧ s ≠ bytes "UNKNOWN" := by
    refine readIf_ne (by decide) (fun h => ?_) fun h => ?_
    · have h' := of_decide_eq_true h
      omega
    · rw [hbuf] at h
      cases congrArg List.head? h
  have hproxy : readRange buf 0 6 = .ok (bytes "PROXY ") := by
    rw [readRange_of_le (by omega), hbuf]
    rfl
  have htcp : readRange buf 6 3 = .ok (bytes "TCP") := by
    rw [readRange_of_le (by omega), hbuf]
    rfl
  have hnine : readAt buf 9 = .ok version := by
    rw [hbuf]
    rfl
  have hten : readAt buf 10 = .ok (byte ' ') := by
    rw [hbuf]
    rfl
  have hgood : ¬((bytes "TCP" ≠ bytes "TCP") ∨ (version ≠ byte '4' ∧ version ≠ byte '6') ∨
      byte ' ' ≠ byte ' ') := by
    rintro (h | ⟨h₄, h₆⟩ | h)
    · exact h rfl
    · exact hversion.elim h₄ h₆
    · exact h rfl
  have hlong : ¬buf.length < 8 := by omega
  have hroom : ¬buf.length - 6 < 5 := by omega
  have hsame : ¬bytes "PROXY " ≠ bytes "PROXY " := fun h => h rfl
  rw [ngxProxyProtocolRead, hstart]
  simp only [bind, Except.bind, if_neg hsignature]
  rw [readV1, if_neg hlong, hproxy]
  simp only [bind, Except.bind, if_neg hsame, hunknown, if_neg hname, if_neg hroom, htcp, hnine,
    hten, if_neg hgood]

/-- The addresses and ports are those that were written. -/
theorem readTcp_found {a b : List UInt8} (ha : ∀ ch ∈ a, isAddrChar ch = true)
    (hb : ∀ ch ∈ b, isAddrChar ch = true) {m n : ℕ} (hm : m ≤ 65535) (hn : n ≤ 65535)
    (pre data : List UInt8) :
    ∃ header, header = pre ++ (a ++ byte ' ' :: (b ++ byte ' ' :: (sprintfBase 10 m ++
        byte ' ' :: (sprintfBase 10 n ++ [cr, lf])))) ∧
      readTcp (header ++ data) pre.length =
        .ok (some (header.length, some ⟨a, b, m, n, []⟩)) := by
  refine ⟨_, rfl, ?_⟩
  generalize hbuf : pre ++ (a ++ byte ' ' :: (b ++ byte ' ' :: (sprintfBase 10 m ++
    byte ' ' :: (sprintfBase 10 n ++ [cr, lf])))) ++ data = buf
  -- what is read before each of the parts
  have hbuf₁ : buf = pre ++ (a ++ byte ' ' :: (b ++ byte ' ' :: (sprintfBase 10 m ++
      byte ' ' :: (sprintfBase 10 n ++ cr :: lf :: data)))) := by
    rw [← hbuf]
    simp
  obtain ⟨pre₂, hpre₂⟩ : ∃ l, l = pre ++ (a ++ [byte ' ']) := ⟨_, rfl⟩
  have hbuf₂ : buf = pre₂ ++ (b ++ byte ' ' :: (sprintfBase 10 m ++
      byte ' ' :: (sprintfBase 10 n ++ cr :: lf :: data))) := by
    rw [hbuf₁, hpre₂]
    simp
  obtain ⟨pre₃, hpre₃⟩ : ∃ l, l = pre₂ ++ (b ++ [byte ' ']) := ⟨_, rfl⟩
  have hbuf₃ : buf = pre₃ ++ (sprintfBase 10 m ++
      byte ' ' :: (sprintfBase 10 n ++ cr :: lf :: data)) := by
    rw [hbuf₂, hpre₃]
    simp
  obtain ⟨pre₄, hpre₄⟩ : ∃ l, l = pre₃ ++ (sprintfBase 10 m ++ [byte ' ']) := ⟨_, rfl⟩
  have hbuf₄ : buf = pre₄ ++ (sprintfBase 10 n ++ cr :: lf :: data) := by
    rw [hbuf₃, hpre₄]
    simp
  obtain ⟨pre₅, hpre₅⟩ : ∃ l, l = pre₄ ++ (sprintfBase 10 n ++ [cr]) := ⟨_, rfl⟩
  have hbuf₅ : buf = pre₅ ++ lf :: data := by
    rw [hbuf₄, hpre₅]
    simp
  have hread₁ := ngxProxyProtocolReadAddr_found ha pre (b ++ byte ' ' :: (sprintfBase 10 m ++
    byte ' ' :: (sprintfBase 10 n ++ cr :: lf :: data)))
  have hread₂ := ngxProxyProtocolReadAddr_found hb pre₂ (sprintfBase 10 m ++
    byte ' ' :: (sprintfBase 10 n ++ cr :: lf :: data))
  have hblank : isDigit (byte ' ') = false := by decide
  have hcr : isDigit cr = false := by decide
  have hread₃ := ngxProxyProtocolReadPort_found hblank hm pre₃
    (sprintfBase 10 n ++ cr :: lf :: data)
  have hread₄ := ngxProxyProtocolReadPort_found hcr hn pre₄ (lf :: data)
  have hread₅ := readAt_append pre₅ data lf
  rw [← hbuf₁] at hread₁
  rw [← hbuf₂] at hread₂
  rw [← hbuf₃] at hread₃
  rw [← hbuf₄] at hread₄
  rw [← hbuf₅] at hread₅
  have hlen₂ : pre.length + a.length + 1 = pre₂.length := by simp [hpre₂]; omega
  have hlen₃ : pre₂.length + b.length + 1 = pre₃.length := by simp [hpre₃]; omega
  have hlen₄ : pre₃.length + (sprintfBase 10 m).length + 1 = pre₄.length := by
    simp [hpre₄]; omega
  have hlen₅ : pre₄.length + (sprintfBase 10 n).length + 1 = pre₅.length := by
    simp [hpre₅]; omega
  have hmore : pre₅.length ≠ buf.length := by simp [hbuf₅]
  rw [readTcp, hread₁, hlen₂]
  simp only [bind, Except.bind]
  rw [hread₂, hlen₃]
  simp only
  rw [hread₃, hlen₄]
  simp only
  rw [hread₄, hlen₅]
  simp only [if_neg hmore, hread₅]
  rw [if_neg (by decide)]
  congr 3
  simp [hpre₅, hpre₄, hpre₃, hpre₂]
  omega

theorem length_sprintfBase_port (port : UInt16) : (sprintfBase 10 port.toNat).length ≤ 5 :=
  Inet.length_sprintfBase_le (by decide) (by decide)
    (Nat.lt_trans port.toNat_lt (by decide))

/-- The longest texts of two addresses and two ports fit into the buffer. -/
theorem writeAddrs_eq {head : List UInt8} (hhead : head.length = 11) (src dst : Sockaddr) :
    writeAddrs head v1MaxHeader src dst = head ++ (src.text ++ byte ' ' :: (dst.text ++
      byte ' ' :: (sprintfBase 10 src.ngxInetGetPort.toNat ++
        byte ' ' :: (sprintfBase 10 dst.ngxInetGetPort.toNat ++ [cr, lf])))) := by
  have h45 : Inet6.inet6AddrStrLen = 45 := rfl
  have h107 : v1MaxHeader = 107 := rfl
  have hsrc := src.length_text_le
  have hdst := dst.length_text_le
  have hport := length_sprintfBase_port src.ngxInetGetPort
  have hlport := length_sprintfBase_port dst.ngxInetGetPort
  have hroom : Inet6.inet6AddrStrLen ≤ v1MaxHeader - head.length := by omega
  have hroom' : Inet6.inet6AddrStrLen ≤
      v1MaxHeader - (head ++ src.text ++ [byte ' ']).length := by
    simp only [List.length_append, List.length_singleton]
    omega
  rw [writeAddrs, Sockaddr.ngxSockNtop_eq src hroom, Sockaddr.ngxSockNtop_eq dst hroom',
    List.take_of_length_le]
  · simp
  · simp only [List.length_append, List.length_cons, List.length_nil]
    omega

/-- The header for two addresses is written, and is read with any data behind it. -/
def RoundTrips (src dst : Sockaddr) : Prop :=
  ∃ header, ngxProxyProtocolWrite v1MaxHeader src dst = some header ∧
    header.length ≤ v1MaxHeader ∧
    ∀ data, ngxProxyProtocolRead (header ++ data) =
      .ok (some (header.length, some ⟨src.text, dst.text, src.ngxInetGetPort.toNat,
        dst.ngxInetGetPort.toNat, []⟩))

theorem writeAddrs_roundTrips {version : UInt8}
    (hversion : version = byte '4' ∨ version = byte '6') {src dst : Sockaddr}
    (hwrite : ngxProxyProtocolWrite v1MaxHeader src dst =
      some (writeAddrs (bytes "PROXY TCP" ++ [version, byte ' ']) v1MaxHeader src dst)) :
    RoundTrips src dst := by
  have hhead : (bytes "PROXY TCP" ++ [version, byte ' ']).length = 11 := by
    have hname : (bytes "PROXY TCP").length = 9 := by decide
    rw [List.length_append, hname]
    rfl
  have h107 : v1MaxHeader = 107 := rfl
  have hsrc := src.length_text_le
  have hdst := dst.length_text_le
  have hport := length_sprintfBase_port src.ngxInetGetPort
  have hlport := length_sprintfBase_port dst.ngxInetGetPort
  have hm := Nat.le_of_lt_succ src.ngxInetGetPort.toNat_lt
  have hn := Nat.le_of_lt_succ dst.ngxInetGetPort.toNat_lt
  refine ⟨_, hwrite, ?_, fun data => ?_⟩
  · rw [writeAddrs_eq hhead]
    simp only [List.length_append, List.length_cons, List.length_nil] at hhead ⊢
    omega
  · obtain ⟨header, hheader, hread⟩ := readTcp_found src.isAddrChar_text dst.isAddrChar_text
      hm hn (bytes "PROXY TCP" ++ [version, byte ' ']) data
    rw [writeAddrs_eq hhead, ← hheader, ← hread, hhead, hheader]
    simp only [List.append_assoc, List.cons_append, List.nil_append]
    exact ngxProxyProtocolRead_tcp hversion _

/-- A header for two addresses of one family is read as it was written, and no bytes lead
the readers out of the buffer. -/
theorem ngxProxyProtocol_roundTrips :
    (∀ a b c d port a' b' c' d' port',
      RoundTrips (.inet a b c d port) (.inet a' b' c' d' port')) ∧
    (∀ addr port addr' port', RoundTrips (.inet6 addr port) (.inet6 addr' port')) ∧
    (∀ buf, Except.Returns (Inside buf) (ngxProxyProtocolRead buf)) ∧
    ∀ pp name, Except.Returns (TlvValue.Inside pp.tlvs) (ngxProxyProtocolGetTlv (some pp) name) :=
  ⟨fun _ _ _ _ _ _ _ _ _ _ => writeAddrs_roundTrips (.inl rfl) rfl,
    fun _ _ _ _ => writeAddrs_roundTrips (.inr rfl) rfl, ngxProxyProtocolRead_returns,
    ngxProxyProtocolGetTlv_returns⟩

end MultiversionBalancer.Core.ProxyProtocol
