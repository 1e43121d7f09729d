import MultiversionBalancer.Core.Inet6
import MultiversionBalancer.Core.Numbers
import MultiversionBalancer.Lib.BitString
import MultiversionBalancer.Lib.Parts

/-!
# Networks

`ngx_ptocidr` and `ngx_cidr_match` of `ngx_inet.c`.  A network is an address and a mask,
for IPv4 two numbers in network byte order and for IPv6 two times sixteen bytes.
-/

namespace MultiversionBalancer.Core.Cidr

open Http (byte isDigit ngxStrlchr ngxStrlchr_of_not_mem ngxStrlchr_append)
open Inet (InAddr ngxInetAddr inaddrNone htonl octets)
open Inet6 (In6Addr ngxInet6Addr)
open Lib (toBits notMem_or_split)

/-! ## The functions of the source -/

inductive NgxCidr where
  | inet (addr mask : InAddr)
  | inet6 (addr mask : List UInt8)
  | unix
  deriving DecidableEq

/-- The results of `ngx_ptocidr` and `ngx_cidr_match` other than `NGX_ERROR`. -/
inductive Rc where
  | ok
  | done
  | declined
  deriving DecidableEq

/-- The loop of `ngx_ptocidr` over the bytes of an IPv6 address: the address, the mask and
whether host bits were set. -/
def maskBytes : ℕ → List UInt8 → List UInt8 × List UInt8 × Bool
  | _, [] => ([], [], false)
  | shift, a :: addr =>
      let s := if 8 < shift then 8 else shift
      let m := UInt8.ofNat (0xff <<< (8 - s))
      let rest := maskBytes (shift - s) addr
      ((if a ≠ a &&& m then a &&& m else a) :: rest.1, m :: rest.2.1,
        decide (a ≠ a &&& m) || rest.2.2)

/-- The mask of an IPv4 network; a shift by 32 is not left to the processor. -/
def inetMask (shift : ℕ) : InAddr :=
  if shift ≠ 0 then htonl ((0xffffffff : BitVec 32) <<< (32 - shift)) else 0

/-- `ngx_ptocidr`; `memory` is what was in `cidr->u.in6.addr`, and `none` is
`NGX_ERROR`. -/
def ngxPtocidr (text memory : List UInt8) : Option (Rc × NgxCidr) :=
  let mask := ngxStrlchr text (byte '/')
  let addr := text.take (text.length - (mask.getD []).length)
  let inaddr := ngxInetAddr addr
  if inaddr ≠ inaddrNone then
    match mask with
    | none => some (.ok, .inet inaddr 0xffffffff)
    | some mask =>
        match ngxAtoi mask.tail with
        | .error _ => none
        | .ok shift =>
            if 32 < shift then none
            else
              let m := inetMask shift
              if inaddr = inaddr &&& m then some (.ok, .inet inaddr m)
              else some (.done, .inet (inaddr &&& m) m)
  else
    match ngxInet6Addr addr memory with
    | .error _ => none
    | .ok in6addr =>
        match mask with
        | none => some (.ok, .inet6 in6addr (List.replicate 16 0xff))
        | some mask =>
            match ngxAtoi mask.tail with
            | .error _ => none
            | .ok shift =>
                if 128 < shift then none
                else
                  let masked := maskBytes shift in6addr
                  some (if masked.2.2 then .done else .ok, .inet6 masked.1 masked.2.1)

/-- `struct sockaddr`, by its family. -/
inductive Sockaddr where
  | inet (sinAddr : InAddr)
  | inet6 (sin6Addr : In6Addr)
  | unix

def v4Mapped (a : In6Addr) : Bool :=
  a.s6Addr.take 12 == List.replicate 10 0 ++ List.replicate 2 0xff

/-- The address that `ngx_cidr_match` compares. -/
def matched : Sockaddr → Sockaddr
  | .inet6 a =>
      if v4Mapped a then
        .inet (htonl (BitVec.ofNat 32 (octets (a.s6Addr.getD 12 0) (a.s6Addr.getD 13 0)
          (a.s6Addr.getD 14 0) (a.s6Addr.getD 15 0))))
      else .inet6 a
  | sa => sa

/-- The loop over the bytes of two IPv6 addresses. -/
def sameBytes : List UInt8 → List UInt8 → List UInt8 → Bool
  | a :: inaddr6, m :: mask, b :: addr => a &&& m == b && sameBytes inaddr6 mask addr
  | _, _, _ => true

/-- A turn of the loop over the networks. -/
def matchesCidr : Sockaddr → NgxCidr → Bool
  | .inet inaddr, .inet addr mask => inaddr &&& mask == addr
  | .inet6 a, .inet6 addr mask => sameBytes a.s6Addr mask addr
  | .unix, .unix => true
  | _, _ => false

def ngxCidrMatch (sa : Sockaddr) : List NgxCidr → Rc
  | [] => .declined
  | cidr :: cidrs => if matchesCidr (matched sa) cidr then .ok else ngxCidrMatch sa cidrs

/-! ## Networks as they are written -/

/-- The families of IPv4 and IPv6. -/
inductive Family where
  | inet
  | inet6
  deriving DecidableEq

/-- The bits of an IPv4 address, the first byte first. -/
def inetBits (a : InAddr) : List Bool :=
  toBits 32 (htonl a).toNat

/-- The bits of an IPv6 address. -/
def inet6Bits (a : List UInt8) : List Bool :=
  a.flatMap fun b => toBits 8 b.toNat

/-- An address as it is written: IPv4, or else IPv6. -/
inductive WrittenAddress : List UInt8 → Family → List Bool → Prop where
  | inet {text : List UInt8} (h : ngxInetAddr text ≠ inaddrNone) :
      WrittenAddress text .inet (inetBits (ngxInetAddr text))
  | inet6 {text a : List UInt8} (hnot : ngxInetAddr text = inaddrNone)
      (h : ∀ memory, memory.length = 16 → ngxInet6Addr text memory = .ok a) :
      WrittenAddress text .inet6 (inet6Bits a)

/-- A network as it is written: its family, the bits of its address and the length of its
prefix. -/
inductive WrittenNetwork : List UInt8 → Family → List Bool → ℕ → Prop where
  | full {text : List UInt8} {family : Family} {bits : List Bool} (hslash : byte '/' ∉ text)
      (h : WrittenAddress text family bits) : WrittenNetwork text family bits bits.length
  | shifted {text digits : List UInt8} {family : Family} {bits : List Bool}
      (hslash : byte '/' ∉ text) (h : WrittenAddress text family bits)
      (hne : digits ≠ []) (hdigits : ∀ c ∈ digits, isDigit c = true) :
      WrittenNetwork (text ++ byte '/' :: digits) family bits (decimal digits)

/-- The family and the bits of a socket address; an IPv4-mapped address counts as
IPv4. -/
def addressOf : Sockaddr → Option (Family × List Bool)
  | .inet a => some (.inet, inetBits a)
  | .inet6 a =>
      if a.s6Addr.take 12 = List.replicate 10 0 ++ List.replicate 2 0xff then
        some (.inet, inet6Bits (a.s6Addr.drop 12))
      else some (.inet6, inet6Bits a.s6Addr)
  | .unix => none

/-! ## The parts of a text -/

theorem take_addr (addr rest : List UInt8) :
    (addr ++ rest).take ((addr ++ rest).length - rest.length) = addr := by
  rw [List.length_append, Nat.add_sub_cancel, List.take_left]

/-! ## Socket addresses -/

theorem inetBits_octets (a b c d : UInt8) :
    inetBits (htonl (BitVec.ofNat 32 (octets a b c d))) = inet6Bits [a, b, c, d] := by
  have hb : b.toNat < 2 ^ 8 := b.toNat_lt
  have hc : c.toNat < 2 ^ 8 := c.toNat_lt
  have hd : d.toNat < 2 ^ 8 := d.toNat_lt
  rw [inetBits, Inet.htonl_htonl, BitVec.toNat_ofNat, Nat.mod_eq_of_lt (Inet.octets_lt a b c d),
    octets]
  have h₁ : toBits 16 (a.toNat * 256 + b.toNat) = toBits 8 a.toNat ++ toBits 8 b.toNat :=
    Lib.toBits_mul_add hb
  have h₂ : toBits 24 ((a.toNat * 256 + b.toNat) * 256 + c.toNat)
      = toBits 16 (a.toNat * 256 + b.toNat) ++ toBits 8 c.toNat :=
    Lib.toBits_mul_add hc
  have h₃ : toBits 32 (((a.toNat * 256 + b.toNat) * 256 + c.toNat) * 256 + d.toNat)
      = toBits 24 ((a.toNat * 256 + b.toNat) * 256 + c.toNat) ++ toBits 8 d.toNat :=
    Lib.toBits_mul_add hd
  rw [h₃, h₂, h₁]
  simp only [inet6Bits, List.flatMap_cons, List.flatMap_nil, List.append_nil,
    List.append_assoc]

theorem drop_twelve {p : List UInt8} (hp : p.length = 16) :
    p.drop 12 = [p.getD 12 0, p.getD 13 0, p.getD 14 0, p.getD 15 0] := by
  have hget {i : ℕ} (hi : i < 16) : p.drop i = p.getD i 0 :: p.drop (i + 1) := by
    have hi : i < p.length := by omega
    rw [List.getD_eq_getElem p 0 hi, List.drop_eq_getElem_cons hi]
  rw [hget (by decide), hget (by decide), hget (by decide), hget (by decide),
    List.drop_of_length_le (Nat.le_of_eq hp)]

/-- The address that is compared is the one with the bits. -/
theorem matched_spec {sa : Sockaddr} {family : Family} {bits : List Bool}
    (h : addressOf sa = some (family, bits)) :
    family = .inet ∧ (∃ a, matched sa = .inet a ∧ inetBits a = bits) ∨
      family = .inet6 ∧ ∃ a, matched sa = .inet6 a ∧ inet6Bits a.s6Addr = bits := by
  cases sa with
  | inet a =>
      cases h
      exact .inl ⟨rfl, a, rfl, rfl⟩
  | inet6 a =>
      rw [addressOf] at h
      split at h
      · next hmapped =>
        cases h
        refine .inl ⟨rfl, _, if_pos (beq_iff_eq.mpr hmapped), ?_⟩
        rw [inetBits_octets, drop_twelve a.size]
      · next hmapped =>
        cases h
        exact .inr ⟨rfl, a, if_neg fun hbeq => hmapped (beq_iff_eq.mp hbeq), rfl⟩
  | unix => cases h

/-! ## Masks -/

theorem getLsbD_inetMask (shift : ℕ) {i : ℕ} (hi : i < 32) :
    (htonl (inetMask shift)).getLsbD i = decide (32 - shift ≤ i) := by
  rw [inetMask]
  by_cases hzero : shift = 0
  · rw [if_neg (not_not.mpr hzero), hzero]
    have hnone : htonl 0 = 0#32 := by decide
    rw [hnone, BitVec.getLsbD_zero, decide_eq_false (by omega)]
  · have hones : (0xffffffff : BitVec 32) = BitVec.allOnes 32 := by decide
    rw [if_pos hzero, Inet.htonl_htonl, hones, BitVec.getLsbD_shiftLeft, BitVec.getLsbD_allOnes,
      decide_eq_true hi, Bool.true_and]
    by_cases hle : 32 - shift ≤ i
    · rw [decide_eq_true hle, decide_eq_false (by omega), decide_eq_true (by omega)]
      rfl
    · rw [decide_eq_false hle, decide_eq_true (by omega)]
      rfl

/-- An IPv4 network compares the beginning of an address. -/
theorem inet_matches_iff (shift : ℕ) (x a : InAddr) :
    x &&& inetMask shift = a &&& inetMask shift ↔
      (inetBits x).take shift = (inetBits a).take shift := by
  rw [← Inet.htonl_inj, Inet.htonl_and, Inet.htonl_and]
  exact Lib.and_eq_and_iff_take fun i hi => getLsbD_inetMask shift hi

/-- A byte of the mask of an IPv6 network compares the beginning of a byte. -/
theorem byte_matches_iff {s : ℕ} (hs : s ≤ 8) (x b : UInt8) :
    x &&& UInt8.ofNat (0xff <<< (8 - s)) = b &&& UInt8.ofNat (0xff <<< (8 - s)) ↔
      (toBits 8 x.toNat).take s = (toBits 8 b.toNat).take s := by
  have hmask : ∀ s ≤ 8, ∀ i < 8,
      (UInt8.ofNat (0xff <<< (8 - s))).toBitVec.getLsbD i = decide (8 - s ≤ i) := by decide
  rw [← UInt8.toBitVec_inj, UInt8.toBitVec_and, UInt8.toBitVec_and]
  exact Lib.and_eq_and_iff_take (hmask s hs)

theorem take_flatMap_byte (shift : ℕ) (b : UInt8) (addr : List UInt8) :
    (inet6Bits (b :: addr)).take shift =
      (toBits 8 b.toNat).take (if 8 < shift then 8 else shift) ++
        (inet6Bits addr).take (shift - if 8 < shift then 8 else shift) := by
  rw [inet6Bits, List.flatMap_cons, List.take_append, Lib.toBits_length, ← inet6Bits]
  split
  · rw [List.take_of_length_le (by rw [Lib.toBits_length]; omega),
      List.take_of_length_le (Nat.le_of_eq (Lib.toBits_length 8 b.toNat))]
  · rw [Nat.sub_self, Nat.sub_eq_zero_of_le (by omega)]

/-- An IPv6 network compares the beginning of an address. -/
theorem sameBytes_maskBytes {shift : ℕ} {inaddr6 addr : List UInt8}
    (hlength : inaddr6.length = addr.length) :
    sameBytes inaddr6 (maskBytes shift addr).2.1 (maskBytes shift addr).1 = true ↔
      (inet6Bits inaddr6).take shift = (inet6Bits addr).take shift := by
  induction addr generalizing inaddr6 shift with
  | nil =>
      rw [List.length_eq_zero_iff.mp hlength]
      exact ⟨fun _ => rfl, fun _ => rfl⟩
  | cons b addr ih =>
      cases inaddr6 with
      | nil => cases hlength
      | cons x inaddr6 =>
          have hlength : inaddr6.length = addr.length := Nat.succ.inj hlength
          have hstored (m : UInt8) : (if b ≠ b &&& m then b &&& m else b) = b &&& m := by
            by_cases hb : b = b &&& m
            · rw [if_neg (not_not.mpr hb), ← hb]
            · rw [if_pos hb]
          have hs : (if 8 < shift then 8 else shift) ≤ 8 := by
            split <;> omega
          simp only [maskBytes, sameBytes, hstored]
          rw [Bool.and_eq_true, beq_iff_eq, byte_matches_iff hs, ih hlength,
            take_flatMap_byte, take_flatMap_byte]
          constructor
          · rintro ⟨hfirst, hrest⟩
            rw [hfirst, hrest]
          · intro h
            refine List.append_inj h ?_
            rw [List.length_take, List.length_take, Lib.toBits_length, Lib.toBits_length]

/-! ## Networks that are accepted -/

/-- A network is in an entry when the entry matches by the beginning of the address. -/
def Represents (cidr : NgxCidr) (family : Family) (bits : List Bool) (shift : ℕ) : Prop :=
  ∀ sa family' bits', addressOf sa = some (family', bits') →
    (matchesCidr (matched sa) cidr = true ↔
      family' = family ∧ bits'.take shift = bits.take shift)

theorem represents_inet (a : InAddr) (shift : ℕ) :
    Represents (.inet (a &&& inetMask shift) (inetMask shift)) .inet (inetBits a) shift := by
  intro sa family' bits' hsa
  rcases matched_spec hsa with ⟨rfl, x, hx, rfl⟩ | ⟨rfl, x, hx, rfl⟩
  · rw [hx, matchesCidr, beq_iff_eq, inet_matches_iff]
    exact ⟨fun h => ⟨rfl, h⟩, fun h => h.2⟩
  · rw [hx]
    change false = true ↔ _
    exact ⟨nofun, fun h => nomatch h.1⟩

theorem represents_inet6 {a : List UInt8} {shift : ℕ} (ha : a.length = 16) :
    Represents (.inet6 (maskBytes shift a).1 (maskBytes shift a).2.1) .inet6 (inet6Bits a)
      shift := by
  intro sa family' bits' hsa
  rcases matched_spec hsa with ⟨rfl, x, hx, rfl⟩ | ⟨rfl, x, hx, rfl⟩
  · rw [hx]
    change false = true ↔ _
    exact ⟨nofun, fun h => nomatch h.1⟩
  · rw [hx, matchesCidr, sameBytes_maskBytes (x.size.trans ha.symm)]
    exact ⟨fun h => ⟨rfl, h⟩, fun h => h.2⟩

theorem maskBytes_full (a : List UInt8) :
    maskBytes (8 * a.length) a = (a, List.replicate a.length 0xff, false) := by
  induction a with
  | nil => rfl
  | cons b a ih =>
      have hs : (if 8 < 8 * (b :: a).length then 8 else 8 * (b :: a).length) = 8 := by
        rw [List.length_cons]
        split <;> omega
      have hrest : 8 * (b :: a).length - 8 = 8 * a.length := by
        rw [List.length_cons]
        omega
      have hones : UInt8.ofNat (0xff <<< (8 - 8)) = 0xff := rfl
      have hand : b &&& 0xff = b := by
        rw [← UInt8.toBitVec_inj, UInt8.toBitVec_and]
        exact BitVec.and_allOnes
      simp only [maskBytes, hs, hrest, ih, hones, hand]
      simp only [ne_eq, not_true, if_false, decide_false, Bool.or_false, List.length_cons,
        List.replicate_succ]

/-- What `ngx_ptocidr` reads of a text without a slash. -/
theorem ngxPtocidr_full {text memory : List UInt8} (hslash : byte '/' ∉ text) :
    ngxPtocidr text memory =
      if ngxInetAddr text ≠ inaddrNone then some (.ok, .inet (ngxInetAddr text) 0xffffffff)
      else
        match ngxInet6Addr text memory with
        | .error _ => none
        | .ok a => some (.ok, .inet6 a (List.replicate 16 0xff)) := by
  have haddr : text.take (text.length - (Option.getD none ([] : List UInt8)).length) = text :=
    List.take_of_length_le (Nat.le_refl _)
  simp only [ngxPtocidr, ngxStrlchr_of_not_mem hslash, haddr]

theorem inet6Bits_length (a : List UInt8) : (inet6Bits a).length = 8 * a.length := by
  induction a with
  | nil => rfl
  | cons b a ih =>
      rw [inet6Bits] at ih ⊢
      rw [List.flatMap_cons, List.length_append, ih, Lib.toBits_length, List.length_cons]
      omega

/-- What `ngx_ptocidr` reads of a text with a slash. -/
theorem ngxPtocidr_shifted {addr digits memory : List UInt8} (hslash : byte '/' ∉ addr) :
    ngxPtocidr (addr ++ byte '/' :: digits) memory =
      if ngxInetAddr addr ≠ inaddrNone then
        match ngxAtoi digits with
        | .error _ => none
        | .ok shift =>
            if 32 < shift then none
            else if ngxInetAddr addr = ngxInetAddr addr &&& inetMask shift then
              some (.ok, .inet (ngxInetAddr addr) (inetMask shift))
            else
              some (.done, .inet (ngxInetAddr addr &&& inetMask shift) (inetMask shift))
      else
        match ngxInet6Addr addr memory with
        | .error _ => none
        | .ok a =>
            match ngxAtoi digits with
            | .error _ => none
            | .ok shift =>
                if 128 < shift then none
                else
                  some (if (maskBytes shift a).2.2 then .done else .ok,
                    .inet6 (maskBytes shift a).1 (maskBytes shift a).2.1) := by
  have haddr := take_addr addr (byte '/' :: digits)
  simp only [ngxPtocidr, ngxStrlchr_append hslash, Option.getD_some, haddr, List.tail_cons]

variable {text memory : List UInt8} {rc : Rc} {cidr : NgxCidr}

theorem length_of_read {a : List UInt8} (hmemory : memory.length = 16)
    (h : ngxInet6Addr text memory = .ok a) :
    a.length = 16 ∧ ∀ memory', memory'.length = 16 → ngxInet6Addr text memory' = .ok a := by
  rcases Inet6.ngxInet6Addr_steady text with herror | ⟨f, ⟨result, hlength, rfl⟩, hok⟩
  · exact nomatch h.symm.trans (herror memory hmemory)
  · obtain rfl : a = result := Except.ok.inj (h.symm.trans (hok memory hmemory))
    exact ⟨hlength, hok⟩

/-- An entry that is accepted stands for the network that is written. -/
theorem ngxPtocidr_represents {family : Family} {bits : List Bool} {shift : ℕ}
    (hmemory : memory.length = 16) (h : ngxPtocidr text memory = some (rc, cidr))
    (hwritten : WrittenNetwork text family bits shift) :
    Represents cidr family bits shift := by
  cases hwritten with
  | full hslash haddress =>
      rw [ngxPtocidr_full hslash] at h
      cases haddress with
      | inet hne =>
          rw [if_pos hne] at h
          cases h
          have hfull := represents_inet (ngxInetAddr text) 32
          have hmask : inetMask 32 = BitVec.allOnes 32 := by decide
          have hlength : (inetBits (ngxInetAddr text)).length = 32 := Lib.toBits_length 32 _
          rw [hmask, BitVec.and_allOnes] at hfull
          rw [hlength]
          exact hfull
      | @inet6 a hnot hread =>
          rw [if_neg (not_not.mpr hnot), hread memory hmemory] at h
          cases h
          have hsize := (length_of_read hmemory (hread memory hmemory)).1
          have hfull : Represents _ .inet6 (inet6Bits a) (8 * 16) := represents_inet6 hsize
          have hmask := maskBytes_full a
          rw [hsize] at hmask
          rw [hmask] at hfull
          rw [inet6Bits_length, hsize]
          exact hfull
  | @shifted addr digits _ _ hslash haddress hne hdigits =>
      rw [ngxPtocidr_shifted hslash] at h
      cases haddress with
      | inet hsome =>
          rw [if_pos hsome] at h
          split at h
          · cases h
          · next shift hshift =>
            rw [(ngxAtoi_written hshift).2.2.1] at h
            split at h
            · cases h
            · have hrep := represents_inet (ngxInetAddr addr) (decimal digits)
              split at h
              · next hsame =>
                cases h
                rw [← hsame] at hrep
                exact hrep
              · cases h
                exact hrep
      | inet6 hnot hread =>
          rw [if_neg (not_not.mpr hnot), hread memory hmemory] at h
          simp only at h
          split at h
          · cases h
          · next shift hshift =>
            rw [(ngxAtoi_written hshift).2.2.1] at h
            split at h
            · cases h
            · cases h
              exact represents_inet6 (length_of_read hmemory (hread memory hmemory)).1

/-- What is accepted is a network. -/
theorem ngxPtocidr_written (hmemory : memory.length = 16)
    (h : ngxPtocidr text memory = some (rc, cidr)) :
    ∃ family bits shift, WrittenNetwork text family bits shift := by
  have haddress {addr : List UInt8} {f : List UInt8 → Option (Rc × NgxCidr)}
      {r : Option (Rc × NgxCidr)}
      (h : (if ngxInetAddr addr ≠ inaddrNone then r
        else match ngxInet6Addr addr memory with
          | .error _ => none
          | .ok a => f a) = some (rc, cidr)) :
      ∃ family bits, WrittenAddress addr family bits := by
    by_cases hinet : ngxInetAddr addr = inaddrNone
    · rw [if_neg (not_not.mpr hinet)] at h
      split at h
      · cases h
      · next a hread =>
        exact ⟨_, _, .inet6 hinet (length_of_read hmemory hread).2⟩
    · exact ⟨_, _, .inet hinet⟩
  rcases notMem_or_split (byte '/') text with hslash | ⟨addr, digits, hslash, rfl⟩
  · rw [ngxPtocidr_full hslash] at h
    obtain ⟨family, bits, hwritten⟩ := haddress h
    exact ⟨family, bits, _, .full hslash hwritten⟩
  · rw [ngxPtocidr_shifted hslash] at h
    obtain ⟨family, bits, hwritten⟩ := haddress h
    have hnumber : ∃ shift, ngxAtoi digits = .ok shift := by
      cases hatoi : ngxAtoi digits with
      | ok shift => exact ⟨shift, rfl⟩
      | error e =>
          rw [hatoi] at h
          split at h
          · cases h
          · split at h <;> cases h
    obtain ⟨shift, hshift⟩ := hnumber
    obtain ⟨hne, hdigits, -⟩ := ngxAtoi_written hshift
    exact ⟨family, bits, _, .shifted hslash hwritten hne hdigits⟩

/-! ## Matching -/

theorem ngxCidrMatch_eq_ok_iff {sa : Sockaddr} {cidrs : List NgxCidr} :
    ngxCidrMatch sa cidrs = .ok ↔ ∃ cidr ∈ cidrs, matchesCidr (matched sa) cidr = true := by
  induction cidrs with
  | nil => exact ⟨nofun, fun ⟨_, h, _⟩ => absurd h List.not_mem_nil⟩
  | cons cidr cidrs ih =>
      rw [ngxCidrMatch, List.exists_mem_cons_iff, ← ih]
      by_cases hcidr : matchesCidr (matched sa) cidr = true
      · rw [if_pos hcidr]
        exact ⟨fun _ => .inl hcidr, fun _ => rfl⟩
      · rw [if_neg hcidr]
        exact ⟨.inr, fun h => h.resolve_left hcidr⟩

/-- The networks of a list, as the configuration reads them. -/
def Accepted (texts : List (List UInt8)) (cidrs : List NgxCidr) : Prop :=
  List.Forall₂ (fun text cidr => ∃ rc memory, memory.length = 16 ∧
    ngxPtocidr text memory = some (rc, cidr)) texts cidrs

/-- An address is in a list when it begins like a network of its family. -/
theorem ngxCidrMatch_iff {texts : List (List UInt8)} {cidrs : List NgxCidr} {sa : Sockaddr}
    {family : Family} {bits : List Bool} (haccepted : Accepted texts cidrs)
    (hsa : addressOf sa = some (family, bits)) :
    ngxCidrMatch sa cidrs = .ok ↔
      ∃ text ∈ texts, ∃ network shift, WrittenNetwork text family network shift ∧
        bits.take shift = network.take shift := by
  rw [ngxCidrMatch_eq_ok_iff]
  induction haccepted with
  | nil =>
      exact ⟨fun ⟨_, h, _⟩ => absurd h List.not_mem_nil,
        fun ⟨_, h, _⟩ => absurd h List.not_mem_nil⟩
  | cons hread _ ih =>
      obtain ⟨rc, memory, hmemory, hread⟩ := hread
      rw [List.exists_mem_cons_iff, List.exists_mem_cons_iff, ih]
      refine or_congr ?_ Iff.rfl
      constructor
      · intro hmatch
        obtain ⟨family', network, shift, hwritten⟩ := ngxPtocidr_written hmemory hread
        obtain ⟨rfl, hbits⟩ :=
          (ngxPtocidr_represents hmemory hread hwritten sa family bits hsa).mp hmatch
        exact ⟨network, shift, hwritten, hbits⟩
      · rintro ⟨network, shift, hwritten, hbits⟩
        exact (ngxPtocidr_represents hmemory hread hwritten sa family bits hsa).mpr
          ⟨rfl, hbits⟩

/-- A network with host bits set, and one of IPv6. -/
theorem ngxCidrMatch_host_bits :
    let texts := [Http.bytes "10.1.2.3/8", Http.bytes "2001:db8::/32"]
    let cidrs := [.inet (htonl 0x0a000000) (htonl 0xff000000),
      .inet6 (0x20 :: 0x01 :: 0x0d :: 0xb8 :: List.replicate 12 0)
        (List.replicate 4 0xff ++ List.replicate 12 0)]
    let sa := Sockaddr.inet (htonl 0x0a090807)
    Accepted texts cidrs ∧ addressOf sa = some (.inet, toBits 32 0x0a090807) ∧
      (ngxCidrMatch sa cidrs = .ok ↔
        ∃ text ∈ texts, ∃ network shift, WrittenNetwork text .inet network shift ∧
          (toBits 32 0x0a090807).take shift = network.take shift) :=
  have haccepted : Accepted [Http.bytes "10.1.2.3/8", Http.bytes "2001:db8::/32"]
      [.inet (htonl 0x0a000000) (htonl 0xff000000),
        .inet6 (0x20 :: 0x01 :: 0x0d :: 0xb8 :: List.replicate 12 0)
          (List.replicate 4 0xff ++ List.replicate 12 0)] :=
    .cons ⟨.done, List.replicate 16 0, rfl, by decide +kernel⟩
      (.cons ⟨.ok, List.replicate 16 0, rfl, by decide +kernel⟩ .nil)
  have hsa : addressOf (.inet (htonl 0x0a090807)) = some (.inet, toBits 32 0x0a090807) := by
    decide
  ⟨haccepted, hsa, ngxCidrMatch_iff haccepted hsa⟩

end MultiversionBalancer.Core.Cidr
