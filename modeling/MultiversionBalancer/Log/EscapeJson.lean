import MultiversionBalancer.Log.Reserve
import MultiversionBalancer.Http.Bytes

/-!
# Escaped JSON strings

What `ngx_escape_json` writes is the inside of a JSON string for the bytes it was
given.  `JsonText` reads such a text piece by piece: a plain character stands for
itself, an escape for the byte it denotes.  A text is read in at most one way.
-/

namespace MultiversionBalancer

/-! ## JSON strings -/

def jsonLetter (e : Char) : Option UInt8 :=
  if e = '"' then some 0x22
  else if e = '\\' then some 0x5c
  else if e = '/' then some 0x2f
  else if e = 'b' then some 0x08
  else if e = 'f' then some 0x0c
  else if e = 'n' then some 0x0a
  else if e = 'r' then some 0x0d
  else if e = 't' then some 0x09
  else none

/-- The value of a hexadecimal digit. -/
def jsonHex (c : Char) : Option ℕ :=
  if '0' ≤ c ∧ c ≤ '9' then some (c.toNat - 48)
  else if 'a' ≤ c ∧ c ≤ 'f' then some (c.toNat - 87)
  else if 'A' ≤ c ∧ c ≤ 'F' then some (c.toNat - 55)
  else none

/-- A JSON escape and the byte it denotes. -/
inductive JsonEscape : Text → UInt8 → Prop where
  | letter {e : Char} {b : UInt8} (h : jsonLetter e = some b) : JsonEscape ['\\', e] b
  | code {c₃ c₂ c₁ c₀ : Char} {d₃ d₂ d₁ d₀ : ℕ} {b : UInt8} (h₃ : jsonHex c₃ = some d₃)
      (h₂ : jsonHex c₂ = some d₂) (h₁ : jsonHex c₁ = some d₁) (h₀ : jsonHex c₀ = some d₀)
      (hb : b.toNat = ((d₃ * 16 + d₂) * 16 + d₁) * 16 + d₀) (hascii : b < 0x80) :
      JsonEscape ['\\', 'u', c₃, c₂, c₁, c₀] b

/-- A text without quotes, control characters and lone backslashes, and the bytes it
stands for. -/
inductive JsonText : Text → List UInt8 → Prop where
  | nil : JsonText [] []
  | plain {b : UInt8} {text : Text} {src : List UInt8} (hcontrol : 0x20 ≤ b)
      (hquote : b ≠ 0x22) (hbackslash : b ≠ 0x5c) (h : JsonText text src) :
      JsonText (Char.ofUInt8 b :: text) (b :: src)
  | escape {e text : Text} {b : UInt8} {src : List UInt8} (he : JsonEscape e b)
      (h : JsonText text src) : JsonText (e ++ text) (b :: src)

theorem ofUInt8_inj {a b : UInt8} (h : Char.ofUInt8 a = Char.ofUInt8 b) : a = b := by
  have hval := congrArg Char.toNat h
  exact UInt8.toNat_inj.mp hval

theorem JsonEscape.backslash {e : Text} {b : UInt8} (h : JsonEscape e b) :
    ∃ rest, e = '\\' :: rest := by
  cases h with
  | letter => exact ⟨_, rfl⟩
  | code => exact ⟨_, rfl⟩

/-- An escape ends where it ends, whatever follows. -/
theorem JsonEscape.unique {e e' text text' : Text} {b b' : UInt8} (h : JsonEscape e b)
    (h' : JsonEscape e' b') (heq : e ++ text = e' ++ text') : b = b' ∧ text = text' := by
  have hu : jsonLetter 'u' = none := rfl
  cases h with
  | letter hb =>
      cases h' with
      | letter hb' =>
          obtain ⟨rfl, rfl⟩ : _ = _ ∧ text = text' := by simpa using heq
          exact ⟨Option.some.inj (hb.symm.trans hb'), rfl⟩
      | code =>
          obtain ⟨rfl, -⟩ : _ = 'u' ∧ _ := by simpa using heq
          cases hu.symm.trans hb
  | code h₃ h₂ h₁ h₀ hb _ =>
      cases h' with
      | letter hb' =>
          obtain ⟨rfl, -⟩ : 'u' = _ ∧ _ := by simpa using heq
          cases hu.symm.trans hb'
      | code h₃' h₂' h₁' h₀' hb' _ =>
          obtain ⟨rfl, rfl, rfl, rfl, rfl⟩ : _ = _ ∧ _ = _ ∧ _ = _ ∧ _ = _ ∧ text = text' := by
            simpa using heq
          obtain rfl := Option.some.inj (h₃.symm.trans h₃')
          obtain rfl := Option.some.inj (h₂.symm.trans h₂')
          obtain rfl := Option.some.inj (h₁.symm.trans h₁')
          obtain rfl := Option.some.inj (h₀.symm.trans h₀')
          exact ⟨UInt8.toNat_inj.mp (hb.trans hb'.symm), rfl⟩

theorem JsonText.unique {text : Text} {src src' : List UInt8} (h : JsonText text src)
    (h' : JsonText text src') : src' = src := by
  have hplain {b : UInt8} {e t t' : Text} {b' : UInt8} (hb : b ≠ 0x5c) (he : JsonEscape e b')
      (heq : Char.ofUInt8 b :: t = e ++ t') : False := by
    obtain ⟨rest, rfl⟩ := he.backslash
    exact hb (ofUInt8_inj (List.cons.inj heq).1)
  induction h generalizing src' with
  | nil =>
      generalize ht : ([] : Text) = t at h'
      cases h' with
      | nil => rfl
      | plain => cases ht
      | escape he _ =>
          obtain ⟨rest, rfl⟩ := he.backslash
          cases ht
  | @plain b text src hcontrol hquote hbackslash h ih =>
      generalize ht : Char.ofUInt8 b :: text = t at h'
      cases h' with
      | nil => cases ht
      | plain _ _ _ hrest =>
          obtain ⟨hb, rfl⟩ := List.cons.inj ht
          rw [ofUInt8_inj hb, ih hrest]
      | escape he _ => exact (hplain hbackslash he ht).elim
  | @escape e text b src he h ih =>
      generalize ht : e ++ text = t at h'
      cases h' with
      | nil =>
          obtain ⟨rest, rfl⟩ := he.backslash
          cases ht
      | plain _ _ hb _ => exact (hplain hb he ht.symm).elim
      | escape he' hrest =>
          obtain ⟨rfl, rfl⟩ := he.unique he' ht
          rw [ih hrest]

theorem space_le_of_jsonHex {c : Char} {d : ℕ} (h : jsonHex c = some d) : ' ' ≤ c := by
  unfold jsonHex at h
  split_ifs at h with hdigit hlower hupper
  · exact Char.le_trans (by decide) hdigit.1
  · exact Char.le_trans (by decide) hlower.1
  · exact Char.le_trans (by decide) hupper.1

theorem space_le_of_jsonLetter {e : Char} {b : UInt8} (h : jsonLetter e = some b) :
    ' ' ≤ e := by
  unfold jsonLetter at h
  split_ifs at h with he he he he he he he he
  all_goals
    rw [he]
    decide

theorem JsonEscape.printable {e : Text} {b : UInt8} (h : JsonEscape e b) :
    ∀ c ∈ e, ' ' ≤ c := by
  have hmark : ' ' ≤ '\\' := by decide
  have hu : ' ' ≤ 'u' := by decide
  cases h with
  | letter hb => simp [hmark, space_le_of_jsonLetter hb]
  | code h₃ h₂ h₁ h₀ _ _ =>
      simp [hmark, hu, space_le_of_jsonHex h₃, space_le_of_jsonHex h₂,
        space_le_of_jsonHex h₁, space_le_of_jsonHex h₀]

theorem JsonText.printable {text : Text} {src : List UInt8} (h : JsonText text src) :
    ∀ c ∈ text, ' ' ≤ c := by
  induction h with
  | nil => exact fun c hc => absurd hc List.not_mem_nil
  | plain hcontrol _ _ _ ih => exact List.forall_mem_cons.mpr ⟨hcontrol, ih⟩
  | escape he _ ih => exact List.forall_mem_append.mpr ⟨he.printable, ih⟩

/-! ## The writer -/

theorem jsonShort_letter {c : UInt8} {letter : Char} (h : jsonShort c = some letter) :
    jsonLetter letter = some c := by
  unfold jsonShort at h
  split_ifs at h with hc hc hc hc hc
  all_goals
    obtain rfl := Option.some.inj h
    rw [hc]
    rfl

/-- The last two digits of a control character's escape. -/
theorem json_digits {c : UInt8} (hc : c ≤ 0x1f) :
    jsonHex (Char.ofUInt8 ((0x30 : UInt8) + (c >>> 4))) = some (c >>> 4).toNat ∧
      jsonHex (if (c &&& 0xf) < 10 then Char.ofUInt8 (0x30 + (c &&& 0xf))
        else Char.ofUInt8 (0x41 + (c &&& 0xf) - 10)) = some (c &&& 0xf).toNat ∧
        c.toNat = (c >>> 4).toNat * 16 + (c &&& 0xf).toNat := by
  have htest := Http.byte_test (p := fun c => !decide (c ≤ 0x1f) ||
    (jsonHex (Char.ofUInt8 ((0x30 : UInt8) + (c >>> 4))) == some (c >>> 4).toNat &&
      (jsonHex (if (c &&& 0xf) < 10 then Char.ofUInt8 (0x30 + (c &&& 0xf))
        else Char.ofUInt8 (0x41 + (c &&& 0xf) - 10)) == some (c &&& 0xf).toNat &&
        c.toNat == (c >>> 4).toNat * 16 + (c &&& 0xf).toNat))) (by decide +kernel) c
  simpa [hc] using htest

theorem jsonEscapeByte_reads (c : UInt8) {text : Text} {src : List UInt8}
    (h : JsonText text src) : JsonText (jsonEscapeByte c ++ text) (c :: src) := by
  rw [jsonEscapeByte]
  by_cases hctl : 0x1f < c
  · rw [if_pos hctl]
    by_cases hmark : c = 0x5c ∨ c = 0x22
    · rw [if_pos hmark]
      refine .escape (.letter ?_) h
      obtain rfl | rfl := hmark
      · rfl
      · rfl
    · rw [if_neg hmark]
      rw [not_or] at hmark
      exact .plain hctl hmark.2 hmark.1 h
  · rw [if_neg hctl]
    have hle : c ≤ 0x1f := UInt8.not_lt.mp hctl
    cases hshort : jsonShort c with
    | some letter => exact .escape (.letter (jsonShort_letter hshort)) h
    | none =>
        obtain ⟨hhigh, hlow, hvalue⟩ := json_digits hle
        have hzero : jsonHex '0' = some 0 := rfl
        refine .escape (.code hzero hzero hhigh hlow ?_ ?_) h
        · omega
        · exact UInt8.lt_of_le_of_lt hle (by decide)

/-- The escaped text has the length that was counted, and is read as a JSON string, and as
no other bytes than those it was made from. -/
theorem ngxEscapeJson_reads (src : List UInt8) :
    (ngxEscapeJson src).length = src.length + ngxEscapeJsonCount src ∧
      (∀ c ∈ ngxEscapeJson src, ' ' ≤ c) ∧ JsonText (ngxEscapeJson src) src ∧
        ∀ src', JsonText (ngxEscapeJson src) src' → src' = src := by
  have hreads : JsonText (ngxEscapeJson src) src := by
    rw [ngxEscapeJson]
    induction src with
    | nil => exact .nil
    | cons c src ih => exact jsonEscapeByte_reads c ih
  exact ⟨ngxEscapeJson_length src, hreads.printable, hreads, fun _ => hreads.unique⟩

end MultiversionBalancer
