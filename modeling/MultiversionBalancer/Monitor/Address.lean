import MultiversionBalancer.Core.ProxyProtocol
import MultiversionBalancer.Core.Python
import MultiversionBalancer.Autoscaler.Model
import MultiversionBalancer.Log.Format
import MultiversionBalancer.Upstream.Construct

/-!
# Addresses of peers

`ngx_http_upstream_init_round_robin` cuts the name of a peer at its first colon, and the
autoscaler knows a server by its address and its port with a colon between them.
-/

namespace MultiversionBalancer.Monitor

open Core.Inet (sprintfBase sprintfInet)
open Core.Inet6 (In6Addr ngxInet6Ntop)
open Core.ProxyProtocol (isAddrChar sockaddrStrLen)
open Core.Python (int_ngxSprintfInt isDigit_toDigits)
open Http (byte bytes isDigit)
open Autoscaler (serverKey)

inductive Address where
  | inet (a b c d : UInt8) (port : UInt16)
  | inet6 (addr : In6Addr) (port : UInt16)
  | unix (path : List UInt8)

/-- The name of a peer: `ngx_sock_ntop` writes the addresses with their ports, and
`ngx_parse_unix_domain_url` keeps the text of the configuration. -/
def Address.name : Address → Text
  | .inet a b c d port =>
      bytesText (sprintfInet a b c d ++ byte ':' :: sprintfBase 10 port.toNat)
  | .inet6 addr port =>
      bytesText (byte '[' :: (ngxInet6Ntop addr.s6Addr sockaddrStrLen ++
        byte ']' :: byte ':' :: sprintfBase 10 port.toNat))
  | .unix path => bytesText (bytes "unix:" ++ path)

/-- An address without a colon, behind it a colon and a port in decimal. -/
def Address.HasPort : Address → Prop
  | .inet .. => True
  | .inet6 .. => False
  | .unix path => ∃ port : ℕ, port < 2 ^ 31 ∧ bytesText path = Nat.toDigits 10 port

/-- The version has the address that the constructor cuts out of the name. -/
def HasAddress {F : Type} [CFloat F] (v : VersionedServer F) (a : Address) : Prop :=
  ∃ weight, v.ip = (primaryVersion (F := F) weight a.name).ip ∧
    v.port = (primaryVersion (F := F) weight a.name).port

/-! ## Texts of bytes -/

theorem bytesText_append (s t : List UInt8) :
    bytesText (s ++ t) = bytesText s ++ bytesText t :=
  List.map_append

theorem bytesText_cons (ch : UInt8) (s : List UInt8) :
    bytesText (ch :: s) = Char.ofUInt8 ch :: bytesText s :=
  List.map_cons

theorem ofUInt8_byte {ch : Char} (h : ch.isDigit = true) : Char.ofUInt8 (byte ch) = ch := by
  simp only [Char.isDigit, Bool.and_eq_true, decide_eq_true_eq, ge_iff_le,
    UInt32.le_iff_toNat_le] at h
  have hval : ch.val.toNat < 256 := Nat.lt_of_le_of_lt h.2 (by decide)
  have hmod : ch.toUInt8.toNat = ch.val.toNat := by
    rw [Char.toUInt8, UInt32.toNat_toUInt8, Nat.mod_eq_of_lt hval]
  apply Char.ext
  apply UInt32.toNat.inj
  exact (UInt8.toNat_toUInt32 _).trans hmod

theorem bytesText_sprintfBase (n : ℕ) : bytesText (sprintfBase 10 n) = Nat.toDigits 10 n := by
  rw [sprintfBase, bytesText, List.map_map]
  refine (List.map_congr_left fun ch hch => ?_).trans (List.map_id _)
  exact ofUInt8_byte (isDigit_toDigits ch hch)

theorem ofUInt8_addrChar {b : UInt8} (h : isAddrChar b = true) :
    ∀ ch ∈ [',', '-', 'm', '[', ']'], Char.ofUInt8 b ≠ ch := by
  have htest := Http.byte_test (p := fun b => !isAddrChar b ||
    [',', '-', 'm', '[', ']'].all fun ch => decide (Char.ofUInt8 b ≠ ch)) (by decide +kernel) b
  rw [h, Bool.not_true, Bool.false_or] at htest
  exact fun ch hch => of_decide_eq_true (List.all_eq_true.mp htest ch hch)

theorem not_mem_bytesText {s : List UInt8} {ch : Char} (h : ∀ b ∈ s, Char.ofUInt8 b ≠ ch) :
    ch ∉ bytesText s := fun hmem => by
  obtain ⟨b, hb, heq⟩ := List.mem_map.mp hmem
  exact h b hb heq

theorem not_mem_toDigits {ch : Char} (h : ch.isDigit = false) (n : ℕ) : ch ∉ Nat.toDigits 10 n :=
  fun hmem => by
    rw [isDigit_toDigits ch hmem] at h
    cases h

/-- The characters between which the parts of the report are found. -/
def delimiters : List Char := [':', ',', '-', 'm']

theorem not_mem_sprintfInet (a b c d : UInt8) :
    ∀ ch ∈ delimiters, ch ∉ bytesText (sprintfInet a b c d) := by
  intro ch hch
  have hall : ∀ ch ∈ delimiters, ch.isDigit = false ∧ Char.ofUInt8 (byte '.') ≠ ch :=
    Core.Python.forall_mem_of_all (by decide)
  have hnot := hall ch hch
  simp only [sprintfInet, bytesText_append, bytesText_cons, bytesText_sprintfBase,
    List.mem_append, List.mem_cons, not_or]
  have hnum (n : ℕ) := not_mem_toDigits hnot.1 n
  exact ⟨hnum _, Ne.symm hnot.2, hnum _, Ne.symm hnot.2, hnum _, Ne.symm hnot.2, hnum _⟩

theorem colon_mem_ngxInet6Ntop (p : List UInt8) {len : ℕ}
    (hlen : Core.Inet6.inet6AddrStrLen ≤ len) :
    byte ':' ∈ ngxInet6Ntop p len := by
  by_cases hembedded : Core.Inet6.Embedded p (Core.Inet6.longestRun p)
  · rw [Core.Inet6.ngxInet6Ntop_embedded hlen hembedded]
    exact List.mem_cons_self
  · rcases (Core.Inet6.longestRun_found p).best with hnone | ⟨j, hzero, htwo, hfits, -⟩
    · rw [Core.Inet6.ngxInet6Ntop_plain hlen hnone, Core.Inet6.lastGroups, if_pos (by decide)]
      refine List.mem_append_left _ (List.mem_flatMap.mpr
        ⟨Core.Inet6.wordAt p 0, List.mem_cons_self, ?_⟩)
      exact List.mem_append_right _ (List.mem_singleton.mpr rfl)
    · rw [Core.Inet6.ngxInet6Ntop_gap hlen hzero (by omega) hfits hembedded]
      exact List.mem_append_right _ List.mem_cons_self

/-! ## The parts of a name -/

theorem strtokColon_append {s : Text} (hs : s ≠ []) (hcolon : ':' ∉ s) (t : Text) :
    strtokColon (s ++ ':' :: t) = some (s, t) := by
  have htest : ∀ ch ∈ s, (ch != ':') = true := by
    intro ch hch
    refine bne_iff_ne.mpr fun heq => hcolon ?_
    rwa [← heq]
  obtain ⟨ch, r, rfl⟩ := List.exists_cons_of_ne_nil hs
  have hdrop : ((ch :: r) ++ ':' :: t).dropWhile (· == ':') = (ch :: r) ++ ':' :: t := by
    have hch : ¬ (ch == ':') = true := by
      rw [beq_iff_eq]
      exact bne_iff_ne.mp (htest ch List.mem_cons_self)
    exact List.dropWhile_cons_of_neg (p := (· == ':')) hch
  have htake : ((ch :: r) ++ ':' :: t).takeWhile (· != ':') = ch :: r := by
    rw [List.takeWhile_append_of_pos htest]
    exact List.append_nil _
  have hrest : ((ch :: r) ++ ':' :: t).dropWhile (· != ':') = ':' :: t :=
    List.dropWhile_append_of_pos htest
  unfold strtokColon
  rw [hdrop]
  exact congrArg some (Prod.ext htake (by rw [hrest]; rfl))

theorem atoi_toDigits (n : ℕ) : atoi (Nat.toDigits 10 n) = n := by
  obtain ⟨ch, s, hs, hch⟩ := Core.Python.exists_digit n []
  rw [List.append_nil] at hs
  have hvalue := Nat.ofDigitChars_ten_toDigits (n := n)
  have hall := isDigit_toDigits (n := n)
  rw [hs] at hvalue hall ⊢
  have hspace : ¬ ch.isWhitespace = true := by
    simp only [Char.isWhitespace, Bool.or_eq_true, decide_eq_true_eq]
    rintro (((rfl | rfl) | rfl) | rfl) <;> cases hch
  unfold atoi
  rw [List.dropWhile_cons_of_neg hspace]
  split
  · next heq =>
      cases heq
      cases hch
  · next heq =>
      cases heq
      cases hch
  · dsimp only
    rw [List.takeWhile_eq_self_iff.mpr hall]
    exact congrArg Nat.cast hvalue

theorem toInt32_of_lt {n : ℕ} (h : n < 2 ^ 31) : toInt32 n = n := by
  rw [toInt32, Int.bmod_eq_of_le] <;> omega

theorem ngxSprintfInt_natCast (n : ℕ) : ngxSprintfInt n = Nat.toDigits 10 n := by
  rw [ngxSprintfInt, if_neg (Int.not_lt.mpr (Int.natCast_nonneg n)), Int.natAbs_natCast,
    Core.Python.ngxSprintfNum_zero]

theorem toInt32_lt (i : ℤ) : toInt32 i < 2 ^ 31 := by
  have h := Int.bmod_lt (x := i) (m := 2 ^ 32) (by decide)
  rw [toInt32]
  omega

theorem not_mem_ngxSprintfInt {ch : Char} (h : ch.isDigit = false) (hminus : ch ≠ '-') (i : ℤ) :
    ch ∉ ngxSprintfInt i := by
  rw [ngxSprintfInt, Core.Python.ngxSprintfNum_zero]
  split_ifs
  · exact mt List.mem_cons.mp (not_or.mpr ⟨hminus, not_mem_toDigits h _⟩)
  · exact not_mem_toDigits h _

section Cut

variable {F : Type} [CFloat F]

theorem primaryVersion_cut {name ip rest : Text} (h : strtokColon name = some (ip, rest))
    (weight : ℕ) :
    (primaryVersion (F := F) weight name).ip = some ip ∧
      (primaryVersion (F := F) weight name).port.getD 0 = atoi rest := by
  unfold primaryVersion
  rw [h]
  refine ⟨rfl, ?_⟩
  dsimp only
  split_ifs with hrest
  · rw [hrest]
    rfl
  · rfl

/-- The constructor gives each peer a version with the address in the name of the peer. -/
theorem hasAddress_primaryVersions {host : Text} {servers : List UpstreamServer} {p : Peer}
    {a : Address} (hp : p ∈ (primaryPeers (F := F) host servers).peer) (ha : p.name = a.name) :
    ∃ v, (primaryVersions (F := F) servers).deref p.version = .ok v ∧ HasAddress v a := by
  obtain ⟨i, hi, rfl⟩ := List.mem_mapIdx.mp hp
  refine ⟨_, rfl, (serverAddrs servers false)[i].1.weight, ?_⟩
  have hname : (serverAddrs servers false)[i].2 = a.name := ha
  have hget : (serverAddrs servers false)[i]? = some (serverAddrs servers false)[i] :=
    List.getElem?_eq_getElem hi
  rw [primaryVersions, hget, ← hname]
  exact ⟨rfl, rfl⟩

/-- The address that is cut out of a name is the one of the name, if there is one colon in it
and a port behind it. -/
theorem HasAddress.cut {v : VersionedServer F} {a : Address} (h : HasAddress v a) :
    ∃ ip, v.ip = some ip ∧ (∀ ch ∈ delimiters, ch ∉ ip) ∧
      (0 ≤ toInt32 (v.port.getD 0) ∧ serverKey ip (toInt32 (v.port.getD 0)) = a.name ↔
        a.HasPort) := by
  obtain ⟨weight, hip, hport⟩ := h
  suffices hcut : ∃ ip rest, strtokColon a.name = some (ip, rest) ∧
      (∀ ch ∈ delimiters, ch ∉ ip) ∧
      (0 ≤ toInt32 (atoi rest) ∧ serverKey ip (toInt32 (atoi rest)) = a.name ↔ a.HasPort) by
    obtain ⟨ip, rest, htok, hdelim, hiff⟩ := hcut
    have hversion := primaryVersion_cut (F := F) htok weight
    rw [hport, hip, hversion.1, hversion.2]
    exact ⟨ip, rfl, hdelim, hiff⟩
  cases a with
  | inet a b c d port =>
      have hname : (Address.inet a b c d port).name =
          bytesText (sprintfInet a b c d) ++ ':' :: Nat.toDigits 10 port.toNat := by
        rw [Address.name, bytesText_append, bytesText_cons, bytesText_sprintfBase]
        rfl
      have hdelim := not_mem_sprintfInet a b c d
      have hne : bytesText (sprintfInet a b c d) ≠ [] := by
        rw [sprintfInet, bytesText_append]
        exact List.append_ne_nil_of_right_ne_nil _ (List.cons_ne_nil _ _)
      have hlt : port.toNat < 2 ^ 31 := Nat.lt_trans port.toNat_lt (by decide)
      have hcut := strtokColon_append hne (hdelim ':' (by decide))
        (Nat.toDigits 10 port.toNat)
      rw [← hname] at hcut
      refine ⟨_, _, hcut, hdelim, iff_of_true ?_ trivial⟩
      rw [atoi_toDigits, toInt32_of_lt hlt, hname, serverKey, ngxSprintfInt_natCast]
      exact ⟨Int.natCast_nonneg _, rfl⟩
  | inet6 addr port =>
      -- the name is cut at the first colon of the address
      have hroom : Core.Inet6.inet6AddrStrLen ≤ sockaddrStrLen := by decide
      obtain ⟨pre, post, hntop, hpre⟩ := List.eq_append_cons_of_mem
        (List.mem_map_of_mem (f := Char.ofUInt8) (colon_mem_ngxInet6Ntop addr.s6Addr hroom))
      have hsplit : bytesText (ngxInet6Ntop addr.s6Addr sockaddrStrLen) = pre ++ ':' :: post :=
        hntop
      have hname : (Address.inet6 addr port).name =
          ('[' :: pre) ++ ':' :: (post ++ ']' :: ':' :: Nat.toDigits 10 port.toNat) := by
        rw [Address.name, bytesText_cons, bytesText_append, hsplit, bytesText_cons,
          bytesText_cons, bytesText_sprintfBase, List.append_assoc, List.cons_append,
          List.cons_append]
        rfl
      have hchars : ∀ ch ∈ delimiters, ch ∉ '[' :: pre := by
        intro ch hch hmem
        rcases List.mem_cons.mp hmem with rfl | hmem
        · revert hch
          decide
        · rcases List.mem_cons.mp hch with rfl | hch
          · exact hpre hmem
          · have hin : ch ∈ bytesText (ngxInet6Ntop addr.s6Addr sockaddrStrLen) := by
              rw [hsplit]
              exact List.mem_append_left _ hmem
            refine not_mem_bytesText (fun b hb => ?_) hin
            exact ofUInt8_addrChar (Core.ProxyProtocol.isAddrChar_ngxInet6Ntop _ _ b hb) ch
              (List.mem_append_left ['[', ']'] hch)
      have hcut := strtokColon_append (List.cons_ne_nil _ _) (hchars ':' (by decide))
        (post ++ ']' :: ':' :: Nat.toDigits 10 port.toNat)
      rw [← hname] at hcut
      refine ⟨_, _, hcut, hchars, iff_of_false ?_ id⟩
      rintro ⟨-, hprint⟩
      rw [hname, serverKey, List.append_cancel_left_eq, List.cons.injEq] at hprint
      have hbracket : ']' ∈ post ++ ']' :: ':' :: Nat.toDigits 10 port.toNat :=
        List.mem_append_right _ List.mem_cons_self
      rw [← hprint.2] at hbracket
      exact not_mem_ngxSprintfInt (by decide) (by decide) _ hbracket
  | unix path =>
      have hname : (Address.unix path).name = "unix".toList ++ ':' :: bytesText path := by
        rw [Address.name, bytesText_append]
        rfl
      have hcut : strtokColon (Address.unix path).name =
          some ("unix".toList, bytesText path) := by
        rw [hname]
        exact strtokColon_append (by decide) (by decide) _
      refine ⟨_, _, hcut, Core.Python.forall_mem_of_all (by decide), ?_⟩
      rw [hname, serverKey, List.append_cancel_left_eq, List.cons.injEq, and_iff_right rfl]
      constructor
      · rintro ⟨hnonneg, hprint⟩
        have hlt := toInt32_lt (atoi (bytesText path))
        obtain ⟨n, hn⟩ := Int.eq_ofNat_of_zero_le hnonneg
        rw [hn] at hprint hlt
        exact ⟨n, by omega, by rw [← hprint, ngxSprintfInt_natCast]⟩
      · rintro ⟨n, hlt, hpath⟩
        rw [hpath, atoi_toDigits, toInt32_of_lt hlt, ngxSprintfInt_natCast]
        exact ⟨Int.natCast_nonneg n, rfl⟩

end Cut

end MultiversionBalancer.Monitor
