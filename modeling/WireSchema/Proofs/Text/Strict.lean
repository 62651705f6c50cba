import WireSchema.Proofs.Text.Utf8

/-!
# Strict UTF-8

What it means that bytes are the UTF-8 form of characters, told by the table of the standard and not
by how they are written or read. Each of the four forms marks its first byte and the bytes behind it
and shares the bits of a number among them. A form is strict if no shorter one holds its number, and
no form holds a surrogate or a number beyond the last character. Characters have exactly one such
form, which is the one they are written in.
-/

namespace WireSchema.Text

/-- A byte that is marked in its upper bits and carries a part of a number in the others. -/
def Carries (b : UInt8) (mark bound part : Nat) : Prop := b.toNat = mark + part ∧ part < bound

/-- The bytes of a number, by the table of forms. -/
inductive Form (n : Nat) : List UInt8 → Prop
  | one {b : UInt8} : Carries b 0 0x80 n → Form n [b]
  | two {b b₁ : UInt8} {x y : Nat} : Carries b 0xc0 0x20 x → Carries b₁ 0x80 0x40 y →
      n = 64 * x + y → 0x80 ≤ n → Form n [b, b₁]
  | three {b b₁ b₂ : UInt8} {x y z : Nat} : Carries b 0xe0 0x10 x → Carries b₁ 0x80 0x40 y →
      Carries b₂ 0x80 0x40 z → n = 64 * (64 * x + y) + z → 0x800 ≤ n →
      ¬ (0xd800 ≤ n ∧ n ≤ 0xdfff) → Form n [b, b₁, b₂]
  | four {b b₁ b₂ b₃ : UInt8} {w x y z : Nat} : Carries b 0xf0 0x08 w → Carries b₁ 0x80 0x40 x →
      Carries b₂ 0x80 0x40 y → Carries b₃ 0x80 0x40 z → n = 64 * (64 * (64 * w + x) + y) + z →
      0x10000 ≤ n → n ≤ 0x10ffff → Form n [b, b₁, b₂, b₃]

/-- The bytes of characters, one after another. -/
inductive Strict : List Char → List UInt8 → Prop
  | nil : Strict [] []
  | cons {c : Char} {cs : List Char} {front rest : List UInt8} :
      Form c.toNat front → Strict cs rest → Strict (c :: cs) (front ++ rest)

/-! ## One character -/

theorem Carries.ofNat {mark bound part : Nat} (hpart : part < bound) (h : mark + part < 256) :
    Carries (UInt8.ofNat (part + mark)) mark bound part := by
  refine ⟨?_, hpart⟩
  rw [toNat_ofNat_of_lt (by omega), Nat.add_comm]

theorem eq_ofNat_of_toNat_eq {c : Char} {n : Nat} (h : c.toNat = n) : c = Char.ofNat n := by
  rw [← h, Char.ofNat_toNat]

/-- The ranges of first and second bytes follow from the number that they stand for. -/
theorem Form.eq_utf8EncodeChar {c : Char} {bs : List UInt8} (h : Form c.toNat bs) :
    bs = String.utf8EncodeChar c := by
  generalize hn : c.toNat = n at h
  cases h with
  | @one b hb =>
    obtain ⟨hb, hlt⟩ := hb
    have hc : c = Char.ofNat b.toNat := eq_ofNat_of_toNat_eq (by omega)
    rw [hc, utf8EncodeChar_one (by omega)]
  | @two b b₁ x y hb h₁ hvalue hlow =>
    obtain ⟨hb, hx⟩ := hb
    obtain ⟨h₁, hy⟩ := h₁
    have hc : c = Char.ofNat ((b.toNat - 0xc0) * 64 + (b₁.toNat - 0x80)) :=
      eq_ofNat_of_toNat_eq (by omega)
    rw [hc, utf8EncodeChar_two (by omega) (by omega)]
  | @three b b₁ b₂ x y z hb h₁ h₂ hvalue hlow hgap =>
    obtain ⟨hb, hx⟩ := hb
    obtain ⟨h₁, hy⟩ := h₁
    obtain ⟨h₂, hz⟩ := h₂
    have hc : c = Char.ofNat (((b.toNat - 0xe0) * 64 + (b₁.toNat - 0x80)) * 64 +
        (b₂.toNat - 0x80)) := eq_ofNat_of_toNat_eq (by omega)
    rw [hc, utf8EncodeChar_three (by omega) (by constructor <;> split <;> omega) (by omega)]
  | @four b b₁ b₂ b₃ w x y z hb h₁ h₂ h₃ hvalue hlow hhigh =>
    obtain ⟨hb, hw⟩ := hb
    obtain ⟨h₁, hx⟩ := h₁
    obtain ⟨h₂, hy⟩ := h₂
    obtain ⟨h₃, hz⟩ := h₃
    have hc : c = Char.ofNat ((((b.toNat - 0xf0) * 64 + (b₁.toNat - 0x80)) * 64 +
        (b₂.toNat - 0x80)) * 64 + (b₃.toNat - 0x80)) := eq_ofNat_of_toNat_eq (by omega)
    rw [hc, utf8EncodeChar_four (by omega) (by constructor <;> split <;> omega) (by omega)
      (by omega)]

theorem form_utf8EncodeChar (c : Char) : Form c.toNat (String.utf8EncodeChar c) := by
  have hv := toNat_bounds c
  have hc : c.val.toNat = c.toNat := rfl
  simp only [String.utf8EncodeChar, hc]
  generalize c.toNat = n at hv
  split
  · refine .one ⟨?_, by omega⟩
    rw [toNat_ofNat_of_lt (by omega), Nat.zero_add]
  split
  · exact .two (.ofNat (by omega) (by omega)) (.ofNat (by omega) (by omega)) (by omega) (by omega)
  split
  · exact .three (.ofNat (by omega) (by omega)) (.ofNat (by omega) (by omega))
      (.ofNat (by omega) (by omega)) (by omega) (by omega) (by omega)
  · exact .four (.ofNat (by omega) (by omega)) (.ofNat (by omega) (by omega))
      (.ofNat (by omega) (by omega)) (.ofNat (by omega) (by omega)) (by omega) (by omega) (by omega)

/-! ## Texts -/

theorem strict_utf8 (cs : List Char) : Strict cs (utf8 cs) := by
  induction cs with
  | nil => exact .nil
  | cons c cs ih => exact .cons (form_utf8EncodeChar c) ih

/-- Characters are written in their only strict form. -/
theorem strict_iff {cs : List Char} {bs : List UInt8} : Strict cs bs ↔ bs = utf8 cs := by
  constructor
  · intro h
    induction h with
    | nil => rfl
    | cons hc _ ih => rw [hc.eq_utf8EncodeChar, ih, utf8, utf8, List.flatMap_cons]
  · rintro rfl
    exact strict_utf8 cs

end WireSchema.Text
