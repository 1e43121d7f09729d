import MultiversionBalancer.Http.Bytes
import Mathlib.Tactic.IntervalCases

/-!
# IPv4 addresses as text

`ngx_inet_addr` of `ngx_inet.c` and the conversions of `ngx_sprintf` with which
addresses are written.  The machine has its lowest byte first.
-/

namespace MultiversionBalancer.Core.Inet

open Http (byte isDigit hexDigit)

abbrev InAddr := BitVec 32

def inaddrNone : InAddr := 0xffffffff

def htonl (x : BitVec 32) : BitVec 32 :=
  x.extractLsb' 0 8 ++ x.extractLsb' 8 8 ++ x.extractLsb' 16 8 ++ x.extractLsb' 24 8

/-- The loop of `ngx_inet_addr`. -/
def scanInet : List UInt8 → BitVec 32 → ℕ → ℕ → InAddr
  | [], addr, octet, n =>
      if n = 3 then htonl (addr <<< 8 + BitVec.ofNat 32 octet) else inaddrNone
  | c :: text, addr, octet, n =>
      if isDigit c then
        let octet := octet * 10 + (c - byte '0').toNat
        if 255 < octet then inaddrNone else scanInet text addr octet n
      else if c = byte '.' then
        scanInet text (addr <<< 8 + BitVec.ofNat 32 octet) 0 (n + 1)
      else inaddrNone

def ngxInetAddr (text : List UInt8) : InAddr :=
  scanInet text 0 0 0

/-- `%ud` and `%xd`: a number in base 10 or 16. -/
def sprintfBase (base n : ℕ) : List UInt8 :=
  (Nat.toDigits base n).map byte

/-- `%ud.%ud.%ud.%ud`. -/
def sprintfInet (a b c d : UInt8) : List UInt8 :=
  sprintfBase 10 a.toNat ++ byte '.' :: (sprintfBase 10 b.toNat ++
    byte '.' :: (sprintfBase 10 c.toNat ++ byte '.' :: sprintfBase 10 d.toNat))

/-- The number of an address, from its four bytes. -/
def octets (a b c d : UInt8) : ℕ :=
  ((a.toNat * 256 + b.toNat) * 256 + c.toNat) * 256 + d.toNat

/-! ## The byte order -/

theorem getLsbD_htonl (x : BitVec 32) {i : ℕ} (hi : i < 32) :
    (htonl x).getLsbD i = x.getLsbD (24 - i / 8 * 8 + i % 8) := by
  simp only [htonl, BitVec.getLsbD_append, BitVec.getLsbD_extractLsb']
  split
  · next h =>
    rw [decide_eq_true h, Bool.true_and]
    congr 1
    omega
  · split
    · next h =>
      rw [decide_eq_true h, Bool.true_and]
      congr 1
      omega
    · split
      · next h =>
        rw [decide_eq_true h, Bool.true_and]
        congr 1
        omega
      · next h =>
        rw [decide_eq_true (by omega), Bool.true_and]
        congr 1
        omega

@[simp] theorem htonl_htonl (x : BitVec 32) : htonl (htonl x) = x := by
  apply BitVec.eq_of_getLsbD_eq
  intro i hi
  rw [getLsbD_htonl _ hi, getLsbD_htonl _ (by omega)]
  congr 1
  omega

theorem htonl_and (x y : BitVec 32) : htonl (x &&& y) = htonl x &&& htonl y := by
  apply BitVec.eq_of_getLsbD_eq
  intro i hi
  rw [getLsbD_htonl _ hi, BitVec.getLsbD_and, BitVec.getLsbD_and, getLsbD_htonl _ hi,
    getLsbD_htonl _ hi]

theorem htonl_inj {x y : BitVec 32} : htonl x = htonl y ↔ x = y := by
  constructor
  · intro h
    rw [← htonl_htonl x, h, htonl_htonl]
  · rintro rfl
    rfl

theorem htonl_inaddrNone : htonl inaddrNone = inaddrNone := by
  decide

/-! ## Numbers -/

def readDigit (base v : ℕ) (c : UInt8) : ℕ :=
  v * base + ((hexDigit c).getD 0).toNat

theorem hexDigit_digitChar {d : ℕ} (hd : d < 16) :
    hexDigit (byte d.digitChar) = some (UInt8.ofNat d) := by
  interval_cases d <;> rfl

theorem mem_sprintfBase {base n : ℕ} (hbase : 1 < base) (hle : base ≤ 16) {c : UInt8}
    (hc : c ∈ sprintfBase base n) : ∃ d, hexDigit c = some d ∧ d.toNat < base := by
  induction n using Nat.strong_induction_on with
  | _ n ih =>
      rw [sprintfBase, Nat.toDigits_eq_if hbase] at hc
      have hlast {d : ℕ} (hd : d < base) (h : c ∈ [d.digitChar].map byte) :
          ∃ d, hexDigit c = some d ∧ d.toNat < base := by
        rw [List.map_singleton, List.mem_singleton] at h
        refine ⟨UInt8.ofNat d, ?_, ?_⟩
        · rw [h, hexDigit_digitChar (Nat.lt_of_lt_of_le hd hle)]
        · rwa [UInt8.toNat_ofNat_of_lt' (show d < 256 by omega)]
      split at hc
      · next h => exact hlast h hc
      · next h =>
        rw [List.map_append, List.mem_append] at hc
        rcases hc with hc | hc
        · exact ih (n / base) (Nat.div_lt_self (by omega) hbase) hc
        · exact hlast (Nat.mod_lt n (by omega)) hc

/-- A number that is written is read again. -/
theorem foldl_sprintfBase {base : ℕ} (hbase : 1 < base) (hle : base ≤ 16) (n : ℕ) :
    (sprintfBase base n).foldl (readDigit base) 0 = n := by
  have hlast {d v : ℕ} (hd : d < base) :
      ([d.digitChar].map byte).foldl (readDigit base) v = v * base + d := by
    rw [List.map_singleton, List.foldl_cons, List.foldl_nil, readDigit,
      hexDigit_digitChar (Nat.lt_of_lt_of_le hd hle), Option.getD_some,
      UInt8.toNat_ofNat_of_lt' (show d < 256 by omega)]
  induction n using Nat.strong_induction_on with
  | _ n ih =>
      rw [sprintfBase, Nat.toDigits_eq_if hbase]
      split
      · next h => rw [hlast h, Nat.zero_mul, Nat.zero_add]
      · next h =>
        have hprev := ih (n / base) (Nat.div_lt_self (by omega) hbase)
        rw [sprintfBase] at hprev
        rw [List.map_append, List.foldl_append, hprev, hlast (Nat.mod_lt n (by omega)),
          Nat.mul_comm, Nat.div_add_mod]

theorem length_sprintfBase_pos (base n : ℕ) : 0 < (sprintfBase base n).length := by
  rw [sprintfBase, List.length_map]
  exact Nat.length_toDigits_pos

theorem length_sprintfBase_le {base n k : ℕ} (hbase : 1 < base) (hk : 0 < k)
    (hn : n < base ^ k) : (sprintfBase base n).length ≤ k := by
  rw [sprintfBase, List.length_map]
  exact (Nat.length_toDigits_le_iff hbase hk).mpr hn

/-! ## Four numbers -/

theorem le_foldl_readDigit (ds : List UInt8) (v : ℕ) : v ≤ ds.foldl (readDigit 10) v := by
  induction ds generalizing v with
  | nil => exact Nat.le_refl v
  | cons c ds ih =>
      have hstep : v ≤ readDigit 10 v c := by
        rw [readDigit]
        omega
      exact Nat.le_trans hstep (ih _)

theorem scanInet_digits {ds : List UInt8} (rest : List UInt8) {addr : BitVec 32}
    {octet n : ℕ} (hds : ∀ c ∈ ds, ∃ d, hexDigit c = some d ∧ d.toNat < 10)
    (hle : ds.foldl (readDigit 10) octet ≤ 255) :
    scanInet (ds ++ rest) addr octet n =
      scanInet rest addr (ds.foldl (readDigit 10) octet) n := by
  induction ds generalizing octet with
  | nil => rfl
  | cons c ds ih =>
      obtain ⟨d, hd, hlt⟩ := hds c List.mem_cons_self
      have hdigit := (Http.hexDigit_lt hd).2.mpr hlt
      have hvalue : octet * 10 + (c - byte '0').toNat = readDigit 10 octet c := by
        rw [hexDigit, if_pos hdigit] at hd
        rw [readDigit, hexDigit, if_pos hdigit]
        rfl
      rw [List.foldl_cons] at hle ⊢
      have hsmall : ¬255 < readDigit 10 octet c :=
        Nat.not_lt.mpr (Nat.le_trans (le_foldl_readDigit ds _) hle)
      rw [List.cons_append, scanInet, if_pos hdigit, hvalue]
      simp only [if_neg hsmall]
      exact ih (fun c hc => hds c (List.mem_cons_of_mem _ hc)) hle

/-- A number below 256 is read from the beginning of an octet. -/
theorem scanInet_octet (a : UInt8) (rest : List UInt8) (addr : BitVec 32) (n : ℕ) :
    scanInet (sprintfBase 10 a.toNat ++ rest) addr 0 n = scanInet rest addr a.toNat n := by
  have hvalue := foldl_sprintfBase (by decide : 1 < 10) (by decide) a.toNat
  have hlt := a.toNat_lt
  rw [scanInet_digits rest (fun c hc => mem_sprintfBase (by decide) (by decide) hc)
    (by rw [hvalue]; omega), hvalue]

theorem toNat_shift_add {addr : BitVec 32} {v : ℕ} (haddr : addr.toNat = v) (hv : v < 2 ^ 24)
    (octet : UInt8) :
    (addr <<< 8 + BitVec.ofNat 32 octet.toNat).toNat = v * 256 + octet.toNat := by
  have hoctet := octet.toNat_lt
  rw [BitVec.toNat_add, BitVec.toNat_shiftLeft, BitVec.toNat_ofNat, Nat.shiftLeft_eq, haddr]
  omega

theorem octets_lt (a b c d : UInt8) : octets a b c d < 2 ^ 32 := by
  have ha := a.toNat_lt
  have hb := b.toNat_lt
  have hc := c.toNat_lt
  have hd := d.toNat_lt
  rw [octets]
  omega

theorem ngxInetAddr_sprintfInet (a b c d : UInt8) :
    ngxInetAddr (sprintfInet a b c d) = htonl (BitVec.ofNat 32 (octets a b c d)) := by
  have hdot (rest : List UInt8) (addr : BitVec 32) (octet n : ℕ) :
      scanInet (byte '.' :: rest) addr octet n =
        scanInet rest (addr <<< 8 + BitVec.ofNat 32 octet) 0 (n + 1) := rfl
  have hend (addr : BitVec 32) (d : UInt8) :
      scanInet (sprintfBase 10 d.toNat) addr 0 3 =
        htonl (addr <<< 8 + BitVec.ofNat 32 d.toNat) := by
    have h := scanInet_octet d [] addr 3
    rw [List.append_nil] at h
    rw [h]
    rfl
  have ha := a.toNat_lt
  have hb := b.toNat_lt
  have hc := c.toNat_lt
  have hd := d.toNat_lt
  rw [ngxInetAddr, sprintfInet, scanInet_octet, hdot, scanInet_octet, hdot, scanInet_octet,
    hdot, hend]
  congr 1
  apply BitVec.eq_of_toNat_eq
  have hzero : (0 : BitVec 32).toNat = 0 := rfl
  have h₁ := toNat_shift_add hzero (by decide) a
  have h₂ := toNat_shift_add h₁ (by omega) b
  have h₃ := toNat_shift_add h₂ (by omega) c
  rw [toNat_shift_add h₃ (by omega) d, BitVec.toNat_ofNat,
    Nat.mod_eq_of_lt (octets_lt a b c d), octets, Nat.zero_mul, Nat.zero_add]

theorem ngxInetAddr_sprintfInet_eq_none {a b c d : UInt8} :
    ngxInetAddr (sprintfInet a b c d) = inaddrNone ↔
      a = 255 ∧ b = 255 ∧ c = 255 ∧ d = 255 := by
  have ha := a.toNat_lt
  have hb := b.toNat_lt
  have hc := c.toNat_lt
  have hd := d.toNat_lt
  have hnone : inaddrNone.toNat = 4294967295 := rfl
  rw [ngxInetAddr_sprintfInet, ← htonl_inaddrNone, htonl_inj, ← BitVec.toNat_inj,
    BitVec.toNat_ofNat, Nat.mod_eq_of_lt (octets_lt a b c d), hnone, octets]
  simp only [← UInt8.toNat_inj, UInt8.reduceToNat]
  omega

end MultiversionBalancer.Core.Inet
