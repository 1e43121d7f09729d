import MultiversionBalancer.Http2.Huffman
import MultiversionBalancer.Lib.BitString
import Mathlib.Data.Finset.Card
import Mathlib.Data.Finset.Range
import Mathlib.Data.List.GetD
import Mathlib.Data.List.Pairwise

/-!
# The Huffman code

The two tables describe the same prefix code: a state of the decoder is the beginning
of a code that has been read, and the encoder packs the codes of the symbols.
-/

namespace MultiversionBalancer.Http2

open Lib

set_option maxRecDepth 10000

/-! ## The codes -/

/-- The code of a symbol in the table of the encoder. -/
def huffCode (sym : UInt8) : List Bool :=
  let code := huffEncodeTable.getD sym.toNat (0, 0)
  toBits code.2 code.1

/-- The symbols in the order of their codes. -/
def huffOrder : List ℕ :=
  [
    0x30, 0x31, 0x32, 0x61, 0x63, 0x65, 0x69, 0x6f, 0x73, 0x74,
    0x20, 0x25, 0x2d, 0x2e, 0x2f, 0x33, 0x34, 0x35, 0x36, 0x37,
    0x38, 0x39, 0x3d, 0x41, 0x5f, 0x62, 0x64, 0x66, 0x67, 0x68,
    0x6c, 0x6d, 0x6e, 0x70, 0x72, 0x75, 0x3a, 0x42, 0x43, 0x44,
    0x45, 0x46, 0x47, 0x48, 0x49, 0x4a, 0x4b, 0x4c, 0x4d, 0x4e,
    0x4f, 0x50, 0x51, 0x52, 0x53, 0x54, 0x55, 0x56, 0x57, 0x59,
    0x6a, 0x6b, 0x71, 0x76, 0x77, 0x78, 0x79, 0x7a, 0x26, 0x2a,
    0x2c, 0x3b, 0x58, 0x5a, 0x21, 0x22, 0x28, 0x29, 0x3f, 0x27,
    0x2b, 0x7c, 0x23, 0x3e, 0x00, 0x24, 0x40, 0x5b, 0x5d, 0x7e,
    0x5e, 0x7d, 0x3c, 0x60, 0x7b, 0x5c, 0xc3, 0xd0, 0x80, 0x82,
    0x83, 0xa2, 0xb8, 0xc2, 0xe0, 0xe2, 0x99, 0xa1, 0xa7, 0xac,
    0xb0, 0xb1, 0xb3, 0xd1, 0xd8, 0xd9, 0xe3, 0xe5, 0xe6, 0x81,
    0x84, 0x85, 0x86, 0x88, 0x92, 0x9a, 0x9c, 0xa0, 0xa3, 0xa4,
    0xa9, 0xaa, 0xad, 0xb2, 0xb5, 0xb9, 0xba, 0xbb, 0xbd, 0xbe,
    0xc4, 0xc6, 0xe4, 0xe8, 0xe9, 0x01, 0x87, 0x89, 0x8a, 0x8b,
    0x8c, 0x8d, 0x8f, 0x93, 0x95, 0x96, 0x97, 0x98, 0x9b, 0x9d,
    0x9e, 0xa5, 0xa6, 0xa8, 0xae, 0xaf, 0xb4, 0xb6, 0xb7, 0xbc,
    0xbf, 0xc5, 0xe7, 0xef, 0x09, 0x8e, 0x90, 0x91, 0x94, 0x9f,
    0xab, 0xce, 0xd7, 0xe1, 0xec, 0xed, 0xc7, 0xcf, 0xea, 0xeb,
    0xc0, 0xc1, 0xc8, 0xc9, 0xca, 0xcd, 0xd2, 0xd5, 0xda, 0xdb,
    0xee, 0xf0, 0xf2, 0xf3, 0xff, 0xcb, 0xcc, 0xd3, 0xd4, 0xd6,
    0xdd, 0xde, 0xdf, 0xf1, 0xf4, 0xf5, 0xf6, 0xf7, 0xf8, 0xfa,
    0xfb, 0xfc, 0xfd, 0xfe, 0x02, 0x03, 0x04, 0x05, 0x06, 0x07,
    0x08, 0x0b, 0x0c, 0x0e, 0x0f, 0x10, 0x11, 0x12, 0x13, 0x14,
    0x15, 0x17, 0x18, 0x19, 0x1a, 0x1b, 0x1c, 0x1d, 0x1e, 0x1f,
    0x7f, 0xdc, 0xf9, 0x0a, 0x0d, 0x16]

/-- The states of the decoder: the length and the bits of what has been read of a code,
and a symbol with a code that goes on in this way. -/
def huffPaths : List (ℕ × ℕ × ℕ) :=
  [
    (0, 0x0, 0x00), (1, 0x0, 0x20), (2, 0x0, 0x30), (3, 0x0, 0x30),
    (4, 0x0, 0x30), (4, 0x1, 0x32), (3, 0x1, 0x63), (4, 0x2, 0x63),
    (4, 0x3, 0x69), (2, 0x1, 0x20), (3, 0x2, 0x20), (4, 0x4, 0x73),
    (4, 0x5, 0x20), (5, 0xa, 0x20), (5, 0xb, 0x2d), (3, 0x3, 0x2f),
    (4, 0x6, 0x2f), (5, 0xc, 0x2f), (5, 0xd, 0x34), (4, 0x7, 0x36),
    (5, 0xe, 0x36), (5, 0xf, 0x38), (1, 0x1, 0x00), (2, 0x2, 0x3a),
    (3, 0x4, 0x3d), (4, 0x8, 0x3d), (5, 0x10, 0x3d), (5, 0x11, 0x5f),
    (4, 0x9, 0x64), (5, 0x12, 0x64), (5, 0x13, 0x67), (3, 0x5, 0x3a),
    (4, 0xa, 0x6c), (5, 0x14, 0x6c), (5, 0x15, 0x6e), (4, 0xb, 0x3a),
    (5, 0x16, 0x72), (5, 0x17, 0x3a), (6, 0x2e, 0x3a), (6, 0x2f, 0x43),
    (2, 0x3, 0x00), (3, 0x6, 0x45), (4, 0xc, 0x45), (5, 0x18, 0x45),
    (6, 0x30, 0x45), (6, 0x31, 0x47), (5, 0x19, 0x49), (6, 0x32, 0x49),
    (6, 0x33, 0x4b), (4, 0xd, 0x4d), (5, 0x1a, 0x4d), (6, 0x34, 0x4d),
    (6, 0x35, 0x4f), (5, 0x1b, 0x51), (6, 0x36, 0x51), (6, 0x37, 0x53),
    (3, 0x7, 0x00), (4, 0xe, 0x55), (5, 0x1c, 0x55), (6, 0x38, 0x55),
    (6, 0x39, 0x57), (5, 0x1d, 0x6a), (6, 0x3a, 0x6a), (6, 0x3b, 0x71),
    (4, 0xf, 0x00), (5, 0x1e, 0x77), (6, 0x3c, 0x77), (6, 0x3d, 0x79),
    (5, 0x1f, 0x00), (6, 0x3e, 0x26), (7, 0x7c, 0x26), (7, 0x7d, 0x2c),
    (6, 0x3f, 0x00), (7, 0x7e, 0x58), (7, 0x7f, 0x00), (8, 0xfe, 0x21),
    (9, 0x1fc, 0x21), (9, 0x1fd, 0x28), (8, 0xff, 0x00), (9, 0x1fe, 0x27),
    (10, 0x3fd, 0x27), (9, 0x1ff, 0x00), (10, 0x3fe, 0x23), (11, 0x7fd, 0x23),
    (10, 0x3ff, 0x00), (11, 0x7fe, 0x00), (12, 0xffc, 0x00), (12, 0xffd, 0x40),
    (11, 0x7ff, 0x01), (12, 0xffe, 0x5d), (12, 0xfff, 0x01), (13, 0x1ffe, 0x5e),
    (13, 0x1fff, 0x01), (14, 0x3ffe, 0x3c), (14, 0x3fff, 0x01), (15, 0x7fff, 0x01),
    (16, 0xfffe, 0x5c), (17, 0x1fffc, 0x5c), (18, 0x3fff8, 0x5c), (18, 0x3fff9, 0x80),
    (19, 0x7fff3, 0x80), (17, 0x1fffd, 0x83), (18, 0x3fffa, 0x83), (19, 0x7fff4, 0x83),
    (19, 0x7fff5, 0xb8), (18, 0x3fffb, 0x99), (19, 0x7fff6, 0xe0), (19, 0x7fff7, 0x99),
    (20, 0xfffee, 0x99), (20, 0xfffef, 0xa7), (16, 0xffff, 0x01), (17, 0x1fffe, 0x81),
    (18, 0x3fffc, 0xb0), (19, 0x7fff8, 0xb0), (20, 0xffff0, 0xb0), (20, 0xffff1, 0xb3),
    (19, 0x7fff9, 0xd8), (20, 0xffff2, 0xd8), (20, 0xffff3, 0xe3), (18, 0x3fffd, 0x81),
    (19, 0x7fffa, 0x81), (20, 0xffff4, 0x81), (21, 0x1fffe9, 0x81), (20, 0xffff5, 0x85),
    (21, 0x1fffea, 0x85), (21, 0x1fffeb, 0x88), (19, 0x7fffb, 0x9a), (20, 0xffff6, 0x9a),
    (21, 0x1fffec, 0x9a), (21, 0x1fffed, 0xa0), (20, 0xffff7, 0xa4), (21, 0x1fffee, 0xa4),
    (21, 0x1fffef, 0xaa), (17, 0x1ffff, 0x01), (18, 0x3fffe, 0x01), (19, 0x7fffc, 0xb2),
    (20, 0xffff8, 0xb2), (21, 0x1ffff0, 0xb2), (21, 0x1ffff1, 0xb9), (20, 0xffff9, 0xbb),
    (21, 0x1ffff2, 0xbb), (21, 0x1ffff3, 0xbe), (19, 0x7fffd, 0x01), (20, 0xffffa, 0xc6),
    (21, 0x1ffff4, 0xc6), (21, 0x1ffff5, 0xe8), (20, 0xffffb, 0x01), (21, 0x1ffff6, 0x01),
    (22, 0x3fffec, 0x01), (22, 0x3fffed, 0x89), (21, 0x1ffff7, 0x8b), (22, 0x3fffee, 0x8b),
    (22, 0x3fffef, 0x8d), (18, 0x3ffff, 0x02), (19, 0x7fffe, 0x93), (20, 0xffffc, 0x93),
    (21, 0x1ffff8, 0x93), (22, 0x3ffff0, 0x93), (22, 0x3ffff1, 0x96), (21, 0x1ffff9, 0x98),
    (22, 0x3ffff2, 0x98), (22, 0x3ffff3, 0x9d), (20, 0xffffd, 0xa5), (21, 0x1ffffa, 0xa5),
    (22, 0x3ffff4, 0xa5), (22, 0x3ffff5, 0xa8), (21, 0x1ffffb, 0xaf), (22, 0x3ffff6, 0xaf),
    (22, 0x3ffff7, 0xb6), (19, 0x7ffff, 0x02), (20, 0xffffe, 0x09), (21, 0x1ffffc, 0xbc),
    (22, 0x3ffff8, 0xbc), (22, 0x3ffff9, 0xc5), (21, 0x1ffffd, 0x09), (22, 0x3ffffa, 0x09),
    (23, 0x7ffff5, 0x09), (22, 0x3ffffb, 0x90), (23, 0x7ffff6, 0x90), (23, 0x7ffff7, 0x94),
    (20, 0xfffff, 0x02), (21, 0x1ffffe, 0xab), (22, 0x3ffffc, 0xab), (23, 0x7ffff8, 0xab),
    (23, 0x7ffff9, 0xd7), (22, 0x3ffffd, 0xc7), (23, 0x7ffffa, 0xec), (23, 0x7ffffb, 0xc7),
    (24, 0xfffff6, 0xc7), (24, 0xfffff7, 0xea), (21, 0x1fffff, 0x02), (22, 0x3ffffe, 0xc0),
    (23, 0x7ffffc, 0xc0), (24, 0xfffff8, 0xc0), (25, 0x1fffff0, 0xc0), (25, 0x1fffff1, 0xc8),
    (24, 0xfffff9, 0xca), (25, 0x1fffff2, 0xca), (25, 0x1fffff3, 0xd2), (23, 0x7ffffd, 0xcb),
    (24, 0xfffffa, 0xda), (25, 0x1fffff4, 0xda), (25, 0x1fffff5, 0xee), (24, 0xfffffb, 0xcb),
    (25, 0x1fffff6, 0xf2), (25, 0x1fffff7, 0xcb), (26, 0x3ffffef, 0xcb), (22, 0x3fffff, 0x02),
    (23, 0x7ffffe, 0xd3), (24, 0xfffffc, 0xd3), (25, 0x1fffff8, 0xd3), (26, 0x3fffff0, 0xd3),
    (26, 0x3fffff1, 0xd6), (25, 0x1fffff9, 0xde), (26, 0x3fffff2, 0xde), (26, 0x3fffff3, 0xf1),
    (24, 0xfffffd, 0xf5), (25, 0x1fffffa, 0xf5), (26, 0x3fffff4, 0xf5), (26, 0x3fffff5, 0xf7),
    (25, 0x1fffffb, 0xfa), (26, 0x3fffff6, 0xfa), (26, 0x3fffff7, 0xfc), (23, 0x7fffff, 0x02),
    (24, 0xfffffe, 0x02), (25, 0x1fffffc, 0x02), (26, 0x3fffff8, 0x02), (27, 0x7fffff1, 0x02),
    (26, 0x3fffff9, 0x04), (27, 0x7fffff2, 0x04), (27, 0x7fffff3, 0x06), (25, 0x1fffffd, 0x08),
    (26, 0x3fffffa, 0x08), (27, 0x7fffff4, 0x08), (27, 0x7fffff5, 0x0c), (26, 0x3fffffb, 0x0f),
    (27, 0x7fffff6, 0x0f), (27, 0x7fffff7, 0x11), (24, 0xffffff, 0x0a), (25, 0x1fffffe, 0x13),
    (26, 0x3fffffc, 0x13), (27, 0x7fffff8, 0x13), (27, 0x7fffff9, 0x15), (26, 0x3fffffd, 0x18),
    (27, 0x7fffffa, 0x18), (27, 0x7fffffb, 0x1a), (25, 0x1ffffff, 0x0a), (26, 0x3fffffe, 0x1c),
    (27, 0x7fffffc, 0x1c), (27, 0x7fffffd, 0x1e), (26, 0x3ffffff, 0x0a), (27, 0x7fffffe, 0x7f),
    (27, 0x7ffffff, 0x0a), (28, 0xfffffff, 0x0a), (29, 0x1ffffffe, 0x0a), (29, 0x1fffffff, 0x16)]

/-- What has been read of a code in a state of the decoder. -/
def huffPath (state : UInt8) : List Bool :=
  let path := huffPaths.getD state.toNat (0, 0, 0)
  toBits path.1 path.2.1

theorem huffEncodeTable_wf (code : ℕ × ℕ) (h : code ∈ huffEncodeTable) :
    5 ≤ code.2 ∧ code.2 ≤ 30 ∧ code.1 < 2 ^ code.2 - 1 := by
  revert code
  decide

theorem huffEncodeTable_length : huffEncodeTable.length = 256 := rfl

theorem huffEncodeTable_mem (sym : UInt8) :
    huffEncodeTable.getD sym.toNat (0, 0) ∈ huffEncodeTable := by
  have hsym : sym.toNat < huffEncodeTable.length := by
    rw [huffEncodeTable_length]
    exact sym.toNat_lt
  rw [List.getD_eq_getElem _ _ hsym]
  exact List.getElem_mem hsym

def packedCodes : ℕ :=
  pack 40 (huffEncodeTable.map fun code => code.1 + 2 ^ 32 * code.2)

theorem unpack_packedCodes (sym : ℕ) :
    unpack 40 packedCodes sym =
      (huffEncodeTable.getD sym (0, 0)).1 + 2 ^ 32 * (huffEncodeTable.getD sym (0, 0)).2 := by
  have hsmall : ∀ x ∈ huffEncodeTable.map fun code => code.1 + 2 ^ 32 * code.2, x < 2 ^ 40 := by
    intro x hx
    obtain ⟨code, hcode, rfl⟩ := List.mem_map.mp hx
    obtain ⟨-, hlen, hbits⟩ := huffEncodeTable_wf code hcode
    have hpow : 2 ^ code.2 ≤ 2 ^ 30 := Nat.pow_le_pow_right (by decide) hlen
    omega
  rw [packedCodes, unpack_pack hsmall]
  exact List.getD_map _ (0, 0) fun code : ℕ × ℕ => code.1 + 2 ^ 32 * code.2

theorem table_small (sym : ℕ) : (huffEncodeTable.getD sym (0, 0)).1 < 2 ^ 32 := by
  by_cases h : sym < huffEncodeTable.length
  · rw [List.getD_eq_getElem _ _ h]
    obtain ⟨-, hlen, hbits⟩ := huffEncodeTable_wf _ (List.getElem_mem h)
    have hpow := Nat.pow_le_pow_right (n := 2) (by decide) hlen
    omega
  · rw [List.getD_eq_default _ _ (by omega)]
    decide

theorem packed_bits (sym : ℕ) :
    unpack 40 packedCodes sym % 2 ^ 32 = (huffEncodeTable.getD sym (0, 0)).1 := by
  rw [unpack_packedCodes, Nat.add_mul_mod_self_left, Nat.mod_eq_of_lt (table_small sym)]

theorem packed_len (sym : ℕ) :
    unpack 40 packedCodes sym / 2 ^ 32 = (huffEncodeTable.getD sym (0, 0)).2 := by
  rw [unpack_packedCodes, Nat.add_mul_div_left _ _ (by decide),
    Nat.div_eq_of_lt (table_small sym), Nat.zero_add]

/-- The first one of the numbers of 30 bits that begin with a code, and the one behind
the last. -/
def codeStart (sym : ℕ) : ℕ :=
  unpack 40 packedCodes sym % 2 ^ 32 * 2 ^ (30 - unpack 40 packedCodes sym / 2 ^ 32)

@[inherit_doc codeStart]
def codeEnd (sym : ℕ) : ℕ :=
  (unpack 40 packedCodes sym % 2 ^ 32 + 1) * 2 ^ (30 - unpack 40 packedCodes sym / 2 ^ 32)

theorem codeStart_lt (sym : ℕ) : codeStart sym < codeEnd sym :=
  Nat.mul_lt_mul_of_pos_right (Nat.lt_succ_self _) (Nat.two_pow_pos _)

/-- The codes of the symbols of a list follow each other. -/
def Consecutive : ℕ → List ℕ → Bool
  | _, [] => true
  | next, sym :: order => sym < 256 && codeStart sym == next && Consecutive (codeEnd sym) order

def PathsBegin (paths : List (ℕ × ℕ × ℕ)) : Bool :=
  paths.all fun path =>
    let code := unpack 40 packedCodes path.2.2
    path.2.2 < 256 && path.1 < code / 2 ^ 32 &&
      path.2.1 == code % 2 ^ 32 / 2 ^ (code / 2 ^ 32 - path.1)

/-- The tests of the two tables. -/
structure HuffTablesOk : Prop where
  order_consecutive : Consecutive 0 huffOrder
  paths_begin : PathsBegin huffPaths

theorem huffTables_ok : HuffTablesOk where
  order_consecutive := by decide +kernel
  paths_begin := by decide +kernel

theorem consecutive_bounds {next : ℕ} {order : List ℕ} (h : Consecutive next order) :
    ∀ sym ∈ order, sym < 256 ∧ next ≤ codeStart sym := by
  induction order generalizing next with
  | nil => exact fun sym hsym => absurd hsym List.not_mem_nil
  | cons first order ih =>
      simp only [Consecutive, Bool.and_eq_true, decide_eq_true_eq, beq_iff_eq] at h
      obtain ⟨⟨hsmall, hstart⟩, hrest⟩ := h
      intro sym hsym
      rcases List.mem_cons.mp hsym with rfl | hsym
      · exact ⟨hsmall, hstart.ge⟩
      · obtain ⟨hsym, hnext⟩ := ih hrest sym hsym
        have hfirst := codeStart_lt first
        exact ⟨hsym, by omega⟩

theorem consecutive_pairwise {next : ℕ} {order : List ℕ} (h : Consecutive next order) :
    order.Pairwise fun a b => codeEnd a ≤ codeStart b := by
  induction order generalizing next with
  | nil => exact List.Pairwise.nil
  | cons first order ih =>
      simp only [Consecutive, Bool.and_eq_true] at h
      exact List.pairwise_cons.mpr
        ⟨fun sym hsym => (consecutive_bounds h.2 sym hsym).2, ih h.2⟩

theorem huffOrder_mem {sym : ℕ} (h : sym < 256) : sym ∈ huffOrder := by
  have hnodup : huffOrder.Nodup := by
    refine (consecutive_pairwise huffTables_ok.order_consecutive).imp ?_
    rintro a b hab rfl
    have ha := codeStart_lt a
    omega
  have hsubset : huffOrder.toFinset ⊆ Finset.range 256 := by
    intro a ha
    exact Finset.mem_range.mpr
      (consecutive_bounds huffTables_ok.order_consecutive a (List.mem_toFinset.mp ha)).1
  have hcard : (Finset.range 256).card ≤ huffOrder.toFinset.card := by
    rw [List.toFinset_card_of_nodup hnodup, Finset.card_range]
    decide
  rw [← List.mem_toFinset, Finset.eq_of_subset_of_card_le hsubset hcard]
  exact Finset.mem_range.mpr h

theorem huffCode_prefixFree : PrefixFree huffCode := by
  intro a b h
  by_contra hne
  obtain ⟨-, hlenA, hbitsA⟩ := huffEncodeTable_wf _ (huffEncodeTable_mem a)
  obtain ⟨-, hlenB, hbitsB⟩ := huffEncodeTable_wf _ (huffEncodeTable_mem b)
  have hinterval := interval_of_prefix hlenB (by omega) (by omega) h
  rw [← packed_bits, ← packed_bits, ← packed_len, ← packed_len] at hinterval
  have hdisjoint : codeEnd a.toNat ≤ codeStart b.toNat ∨ codeEnd b.toNat ≤ codeStart a.toNat := by
    have hpair := (consecutive_pairwise huffTables_ok.order_consecutive).imp
      (S := fun x y => codeEnd x ≤ codeStart y ∨ codeEnd y ≤ codeStart x) fun hle => Or.inl hle
    have hsymm : Std.Symm fun x y => codeEnd x ≤ codeStart y ∨ codeEnd y ≤ codeStart x :=
      ⟨fun _ _ => Or.symm⟩
    exact hpair.forall (huffOrder_mem a.toNat_lt) (huffOrder_mem b.toNat_lt)
      fun heq => hne (UInt8.toNat_inj.mp heq)
  have hb := codeStart_lt b.toNat
  simp only [codeStart, codeEnd] at hdisjoint hb
  omega

/-! ## The states of the decoder -/

theorem huffPaths_length : huffPaths.length = 256 := rfl

theorem huffPaths_mem (state : UInt8) : huffPaths.getD state.toNat (0, 0, 0) ∈ huffPaths := by
  have hstate : state.toNat < huffPaths.length := by
    rw [huffPaths_length]
    exact state.toNat_lt
  rw [List.getD_eq_getElem _ _ hstate]
  exact List.getElem_mem hstate

theorem huffPath_proper (state : UInt8) :
    ∃ sym, huffPath state <+: huffCode sym ∧
      (huffPath state).length < (huffCode sym).length := by
  have hbegin := List.all_eq_true.mp huffTables_ok.paths_begin _ (huffPaths_mem state)
  simp only [Bool.and_eq_true, decide_eq_true_eq, beq_iff_eq, packed_bits, packed_len] at hbegin
  obtain ⟨⟨hsym, hshort⟩, hbits⟩ := hbegin
  generalize hpath : huffPaths.getD state.toNat (0, 0, 0) = path at hsym hshort hbits
  have hnat : (UInt8.ofNat path.2.2).toNat = path.2.2 := by
    rw [UInt8.toNat_ofNat', Nat.mod_eq_of_lt hsym]
  refine ⟨UInt8.ofNat path.2.2, ?_⟩
  rw [huffPath, huffCode, hpath, hnat]
  generalize huffEncodeTable.getD path.2.2 (0, 0) = code at hshort hbits
  have hsplit := toBits_append path.1 (code.2 - path.1) code.1
  rw [Nat.add_sub_of_le hshort.le, ← hbits] at hsplit
  constructor
  · rw [hsplit]
    exact List.prefix_append _ _
  · rwa [toBits_length, toBits_length]

theorem huffCode_not_prefix_path (sym state : UInt8) : ¬huffCode sym <+: huffPath state := by
  intro h
  obtain ⟨sym', hprefix, hshort⟩ := huffPath_proper state
  have heq := huffCode_prefixFree sym sym' (h.trans hprefix)
  have hlong := h.length_le
  rw [heq] at hlong
  omega

theorem huffCode_length (sym : UInt8) :
    5 ≤ (huffCode sym).length ∧ (huffCode sym).length ≤ 30 := by
  obtain ⟨hlow, hhigh, -⟩ := huffEncodeTable_wf _ (huffEncodeTable_mem sym)
  rw [huffCode, toBits_length]
  exact ⟨hlow, hhigh⟩

theorem huffCode_not_prefix_ones (sym : UInt8) (n : ℕ) :
    ¬huffCode sym <+: List.replicate n true := by
  intro h
  obtain ⟨-, -, hbits⟩ := huffEncodeTable_wf _ (huffEncodeTable_mem sym)
  have hones := List.prefix_replicate_iff.mp h
  rw [huffCode, toBits_length, ← toBits_ones] at hones
  have heq := toBits_inj (by omega) (Nat.sub_lt (Nat.two_pow_pos _) Nat.one_pos) hones.2
  omega

/-! ## The steps of the decoder -/

/-- The states in one number. -/
def packedPaths : ℕ :=
  pack 40 (huffPaths.map fun path => path.2.1 + 2 ^ 32 * path.1)

/-- The four bits that are read in a state lead to what the code of the table names. -/
def entryOk (state len path : ℕ) (row : ℕ × ℕ) (bits : ℕ) : Bool :=
  let entry := huffRowEntry row bits
  let next := entry / 2 ^ 24
  if next == state then
    30 ≤ len + 4 && (path * 16 + bits) / 2 ^ (len + 4 - 30) == 2 ^ 30 - 1
  else
    let path' := unpack 40 packedPaths next
    let code := unpack 40 packedCodes (entry / 2 ^ 8 % 2 ^ 8)
    (if entry / 2 ^ 16 % 2 ^ 8 == 0 then
      len + 4 == path' / 2 ^ 32 && path * 16 + bits == path' % 2 ^ 32
    else
      len + 4 == code / 2 ^ 32 + path' / 2 ^ 32 &&
        path * 16 + bits == code % 2 ^ 32 * 2 ^ (path' / 2 ^ 32) + path' % 2 ^ 32) &&
    ((entry % 2 ^ 8 == 0) == (path' % 2 ^ 32 != 2 ^ (path' / 2 ^ 32) - 1))

/-- `entryOk` for the first `n` values of four bits. -/
def rowOk (state len path : ℕ) (row : ℕ × ℕ) : ℕ → Bool
  | 0 => true
  | n + 1 => entryOk state len path row n && rowOk state len path row n

/-- `rowOk` for the states from `state` on. -/
def rowsOk : ℕ → List (ℕ × ℕ × ℕ) → List (ℕ × ℕ) → Bool
  | _, [], [] => true
  | state, path :: paths, row :: rows =>
      rowOk state path.1 path.2.1 row 16 && rowsOk (state + 1) paths rows
  | _, _, _ => false

/-! `decide` evaluates all entries of the table.  The tests that it runs are those above,
written with the functions on numbers that need no unfolding. -/

def unpackTest (n i : ℕ) : ℕ :=
  Nat.mod (Nat.div n (Nat.pow 2 (Nat.mul 40 i))) 0x10000000000

def rowEntryTest (row : ℕ × ℕ) (bits : ℕ) : ℕ :=
  bif Nat.blt bits 8 then
    Nat.mod (Nat.div row.1 (Nat.pow 2 (Nat.mul 32 (Nat.sub 7 bits)))) 0x100000000
  else Nat.mod (Nat.div row.2 (Nat.pow 2 (Nat.mul 32 (Nat.sub 15 bits)))) 0x100000000

def entryTest (state len path : ℕ) (row : ℕ × ℕ) (bits : ℕ) : Bool :=
  let entry := rowEntryTest row bits
  let next := Nat.div entry 0x1000000
  let read := Nat.add (Nat.mul path 16) bits
  bif Nat.beq next state then
    Nat.ble 30 (Nat.add len 4) &&
      Nat.beq (Nat.div read (Nat.pow 2 (Nat.sub (Nat.add len 4) 30))) 0x3fffffff
  else
    let path' := unpackTest packedPaths next
    let code := unpackTest packedCodes (Nat.mod (Nat.div entry 0x100) 0x100)
    let len' := Nat.div path' 0x100000000
    let bits' := Nat.mod path' 0x100000000
    (bif Nat.beq (Nat.mod (Nat.div entry 0x10000) 0x100) 0 then
      Nat.beq (Nat.add len 4) len' && Nat.beq read bits'
    else
      Nat.beq (Nat.add len 4) (Nat.add (Nat.div code 0x100000000) len') &&
        Nat.beq read
          (Nat.add (Nat.mul (Nat.mod code 0x100000000) (Nat.pow 2 len')) bits')) &&
    (bif Nat.beq (Nat.mod entry 0x100) 0 then
      !Nat.beq bits' (Nat.sub (Nat.pow 2 len') 1)
    else Nat.beq bits' (Nat.sub (Nat.pow 2 len') 1))

def rowTest (state len path : ℕ) (row : ℕ × ℕ) : ℕ → Bool
  | 0 => true
  | n + 1 => entryTest state len path row n && rowTest state len path row n

def rowsTest : ℕ → List (ℕ × ℕ × ℕ) → List (ℕ × ℕ) → Bool
  | _, [], [] => true
  | state, path :: paths, row :: rows =>
      rowTest state path.1 path.2.1 row 16 && rowsTest (Nat.succ state) paths rows
  | _, _, _ => false

theorem rowEntryTest_eq (row : ℕ × ℕ) (bits : ℕ) :
    rowEntryTest row bits = huffRowEntry row bits := by
  unfold rowEntryTest huffRowEntry
  by_cases hbits : bits < 8
  · rw [if_pos hbits, show Nat.blt bits 8 = true from Nat.blt_eq.mpr hbits]
    rfl
  · rw [if_neg hbits, Bool.eq_false_iff.mpr fun h => hbits (Nat.blt_eq.mp h)]
    rfl

theorem entryTest_eq (state len path : ℕ) (row : ℕ × ℕ) (bits : ℕ) :
    entryTest state len path row bits = entryOk state len path row bits := by
  have hbeq : ∀ a b : ℕ, Nat.beq a b = (a == b) := fun a b => by
    rw [Bool.eq_iff_iff, Nat.beq_eq, beq_iff_eq]
  have hble : ∀ a b : ℕ, Nat.ble a b = decide (a ≤ b) := fun a b => by
    rw [Bool.eq_iff_iff, Nat.ble_eq, decide_eq_true_eq]
  have hunpack : ∀ n i : ℕ, unpackTest n i = unpack 40 n i := fun _ _ => rfl
  unfold entryTest entryOk
  simp only [rowEntryTest_eq, hunpack, hbeq, hble, Bool.cond_eq_ite]
  generalize huffRowEntry row bits = entry
  have hdiv : ∀ a b : ℕ, Nat.div a b = a / b := fun _ _ => rfl
  have hmod : ∀ a b : ℕ, Nat.mod a b = a % b := fun _ _ => rfl
  have hpow : ∀ a b : ℕ, Nat.pow a b = a ^ b := fun _ _ => rfl
  have hlast : ∀ a b : Bool, (if a = true then !b else b) = (a == !b) := by decide
  simp only [Nat.add_eq, Nat.mul_eq, Nat.sub_eq, hdiv, hmod, hpow, hlast, bne, Nat.reducePow,
    Nat.reduceSub]

theorem rowTest_eq (state len path : ℕ) (row : ℕ × ℕ) (n : ℕ) :
    rowTest state len path row n = rowOk state len path row n := by
  induction n with
  | zero => rfl
  | succ n ih => rw [rowTest, rowOk, entryTest_eq, ih]

theorem rowsTest_eq (state : ℕ) (paths : List (ℕ × ℕ × ℕ)) (rows : List (ℕ × ℕ)) :
    rowsTest state paths rows = rowsOk state paths rows := by
  induction paths generalizing state rows with
  | nil => cases rows <;> rfl
  | cons path paths ih =>
      cases rows with
      | nil => rfl
      | cons row rows => rw [rowsTest, rowsOk, rowTest_eq, ih]

theorem huffDecodeRows_ok : rowsOk 0 huffPaths huffDecodeRows := by
  rw [← rowsTest_eq]
  decide +kernel

theorem rowsOk_row {state : ℕ} {paths : List (ℕ × ℕ × ℕ)} {rows : List (ℕ × ℕ)}
    (h : rowsOk state paths rows) {i : ℕ} (hi : i < paths.length) :
    rowOk (state + i) (paths.getD i (0, 0, 0)).1 (paths.getD i (0, 0, 0)).2.1
      (rows.getD i (0, 0)) 16 := by
  induction paths generalizing state rows i with
  | nil => exact absurd hi (Nat.not_lt_zero i)
  | cons path paths ih =>
      cases rows with
      | nil => exact absurd h Bool.false_ne_true
      | cons row rows =>
          rw [rowsOk, Bool.and_eq_true] at h
          cases i with
          | zero => exact h.1
          | succ i =>
              have hrow := ih h.2 (Nat.lt_of_succ_lt_succ hi)
              rw [Nat.succ_add_eq_add_succ] at hrow
              exact hrow

theorem rowOk_entry {state len path n : ℕ} {row : ℕ × ℕ} (h : rowOk state len path row n)
    {bits : ℕ} (hbits : bits < n) : entryOk state len path row bits := by
  induction n with
  | zero => exact absurd hbits (Nat.not_lt_zero bits)
  | succ n ih =>
      rw [rowOk, Bool.and_eq_true] at h
      by_cases hlast : bits = n
      · rw [hlast]
        exact h.1
      · exact ih h.2 (by omega)

theorem huffPaths_small (path : ℕ × ℕ × ℕ) (h : path ∈ huffPaths) :
    path.1 < 30 ∧ path.2.1 < 2 ^ path.1 := by
  have hbegin := List.all_eq_true.mp huffTables_ok.paths_begin path h
  simp only [Bool.and_eq_true, decide_eq_true_eq, beq_iff_eq, packed_bits, packed_len] at hbegin
  obtain ⟨⟨hsym, hshort⟩, hbits⟩ := hbegin
  have hmem := huffEncodeTable_mem (UInt8.ofNat path.2.2)
  rw [UInt8.toNat_ofNat', Nat.mod_eq_of_lt hsym] at hmem
  obtain ⟨-, hlen, hcode⟩ := huffEncodeTable_wf _ hmem
  generalize huffEncodeTable.getD path.2.2 (0, 0) = code at hshort hbits hlen hcode
  refine ⟨by omega, ?_⟩
  rw [hbits, Nat.div_lt_iff_lt_mul (Nat.two_pow_pos _), ← Nat.pow_add,
    Nat.add_sub_of_le hshort.le]
  omega

theorem huffPaths_lt (state : ℕ) : (huffPaths.getD state (0, 0, 0)).2.1 < 2 ^ 32 ∧
    (huffPaths.getD state (0, 0, 0)).2.1 < 2 ^ (huffPaths.getD state (0, 0, 0)).1 := by
  by_cases h : state < huffPaths.length
  · rw [List.getD_eq_getElem _ _ h]
    obtain ⟨hlen, hbits⟩ := huffPaths_small _ (List.getElem_mem h)
    have hpow := Nat.pow_le_pow_right (n := 2) (by decide) hlen.le
    exact ⟨by omega, hbits⟩
  · rw [List.getD_eq_default _ _ (by omega)]
    decide

theorem unpack_packedPaths (state : ℕ) :
    unpack 40 packedPaths state =
      (huffPaths.getD state (0, 0, 0)).2.1 + 2 ^ 32 * (huffPaths.getD state (0, 0, 0)).1 := by
  have hsmall : ∀ x ∈ huffPaths.map fun path => path.2.1 + 2 ^ 32 * path.1, x < 2 ^ 40 := by
    intro x hx
    obtain ⟨path, hpath, rfl⟩ := List.mem_map.mp hx
    obtain ⟨hlen, hbits⟩ := huffPaths_small path hpath
    have hpow : 2 ^ path.1 ≤ 2 ^ 30 := Nat.pow_le_pow_right (by decide) hlen.le
    omega
  rw [packedPaths, unpack_pack hsmall]
  exact List.getD_map _ (0, 0, 0) fun path : ℕ × ℕ × ℕ => path.2.1 + 2 ^ 32 * path.1

theorem packed_path (state : ℕ) :
    unpack 40 packedPaths state % 2 ^ 32 = (huffPaths.getD state (0, 0, 0)).2.1 := by
  rw [unpack_packedPaths, Nat.add_mul_mod_self_left, Nat.mod_eq_of_lt (huffPaths_lt state).1]

theorem packed_pathLen (state : ℕ) :
    unpack 40 packedPaths state / 2 ^ 32 = (huffPaths.getD state (0, 0, 0)).1 := by
  rw [unpack_packedPaths, Nat.add_mul_div_left _ _ (by decide),
    Nat.div_eq_of_lt (huffPaths_lt state).1, Nat.zero_add]

theorem huffRowEntry_lt (row : ℕ × ℕ) (bits : ℕ) : huffRowEntry row bits < 2 ^ 32 := by
  rw [huffRowEntry]
  split
  · exact Nat.mod_lt _ (by decide)
  · exact Nat.mod_lt _ (by decide)

/-- What four bits do in a state: with what has been read of a code they are a code and
what has been read of the next one, or no code is complete. -/
theorem huffDecodeCodes_spec (state bits : UInt8) (hbits : bits.toNat < 16) :
    ((huffDecodeCodes state bits).next = state →
      List.replicate 30 true <+: huffPath state ++ toBits 4 bits.toNat) ∧
    ((huffDecodeCodes state bits).next ≠ state →
      huffPath state ++ toBits 4 bits.toNat =
        (if (huffDecodeCodes state bits).emit then huffCode (huffDecodeCodes state bits).sym
          else []) ++ huffPath (huffDecodeCodes state bits).next ∧
      ∀ n, huffPath (huffDecodeCodes state bits).next = List.replicate n true →
        (huffDecodeCodes state bits).ending) := by
  have hstate : state.toNat < huffPaths.length := by
    rw [huffPaths_length]
    exact state.toNat_lt
  have hok := rowOk_entry (rowsOk_row huffDecodeRows_ok hstate) hbits
  have hentry := huffRowEntry_lt (huffDecodeRows.getD state.toNat (0, 0)) bits.toNat
  have hread : toBits ((huffPaths.getD state.toNat (0, 0, 0)).1 + 4)
      ((huffPaths.getD state.toNat (0, 0, 0)).2.1 * 2 ^ 4 + bits.toNat) =
        huffPath state ++ toBits 4 bits.toNat := toBits_mul_add hbits
  rw [huffDecodeCodes]
  rw [Nat.zero_add, entryOk] at hok
  simp only [packed_path, packed_pathLen, packed_bits, packed_len] at hok
  generalize huffRowEntry (huffDecodeRows.getD state.toNat (0, 0)) bits.toNat = entry
    at hok hentry ⊢
  have hnext : (UInt8.ofNat (entry / 2 ^ 24)).toNat = entry / 2 ^ 24 := by
    rw [UInt8.toNat_ofNat', Nat.mod_eq_of_lt (by omega)]
  have hsym : (UInt8.ofNat (entry / 2 ^ 8)).toNat = entry / 2 ^ 8 % 2 ^ 8 := UInt8.toNat_ofNat'
  have hsame : (huffCodeOf entry).next = state ↔ entry / 2 ^ 24 = state.toNat := by
    rw [← UInt8.toNat_inj, huffCodeOf, hnext]
  constructor
  · intro heq
    rw [if_pos (beq_iff_eq.mpr (hsame.mp heq)), Bool.and_eq_true, decide_eq_true_eq,
      beq_iff_eq] at hok
    obtain ⟨hlen, hones⟩ := hok
    rw [← hread, ← toBits_ones, ← hones]
    have hsplit := toBits_append 30 ((huffPaths.getD state.toNat (0, 0, 0)).1 + 4 - 30)
      ((huffPaths.getD state.toNat (0, 0, 0)).2.1 * 2 ^ 4 + bits.toNat)
    rw [Nat.add_sub_of_le hlen] at hsplit
    rw [hsplit]
    exact List.prefix_append _ _
  · intro hne
    rw [if_neg (fun heq => hne (hsame.mpr (beq_iff_eq.mp heq))), Bool.and_eq_true] at hok
    obtain ⟨hcode, hending⟩ := hok
    have hpath := (huffPaths_lt (entry / 2 ^ 24)).2
    constructor
    · rw [← hread]
      by_cases hemit : entry / 2 ^ 16 % 2 ^ 8 = 0
      · rw [if_pos (beq_iff_eq.mpr hemit), Bool.and_eq_true, beq_iff_eq, beq_iff_eq] at hcode
        rw [if_neg (by simpa [huffCodeOf] using hemit), List.nil_append, huffPath, huffCodeOf,
          hnext, hcode.1]
        exact congrArg _ hcode.2
      · rw [if_neg (fun heq => hemit (beq_iff_eq.mp heq)), Bool.and_eq_true, beq_iff_eq,
          beq_iff_eq] at hcode
        rw [if_pos (by simpa [huffCodeOf] using hemit), huffCode, huffPath, huffCodeOf, hnext, hsym,
          ← toBits_mul_add hpath, hcode.1]
        exact congrArg _ hcode.2
    · intro n hones
      have hlen : (huffPaths.getD (entry / 2 ^ 24) (0, 0, 0)).1 = n := by
        have hlength := congrArg List.length hones
        rwa [huffPath, huffCodeOf, hnext, toBits_length, List.length_replicate] at hlength
      rw [huffPath, huffCodeOf, hnext, ← hlen, ← toBits_ones] at hones
      have hbits := toBits_inj hpath (Nat.sub_lt (Nat.two_pow_pos _) Nat.one_pos) hones
      rw [hbits, bne_self_eq_false, beq_false, Bool.not_eq_true'] at hending
      simpa [huffCodeOf] using hending

end MultiversionBalancer.Http2
