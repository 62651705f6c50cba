import WireSchema.Text.Utf8

/-!
# UTF-8 back and forth

Reading the bytes of characters gives these characters, and bytes that can be read are the bytes of
what is read. Both go character by character: a character is read exactly from its own bytes, so the
rest of the input does not matter.
-/

namespace WireSchema.Text

/-! ## One byte -/

theorem toNat_ofNat_of_lt {n : Nat} (h : n < 256) : (UInt8.ofNat n).toNat = n := by
  simp [Nat.mod_eq_of_lt h]

theorem decodeUtf8From_single {cs : List Char} {b : UInt8} {bs : List UInt8} {c : Char}
    (h : firstByte? b.toNat = some (.inl c)) :
    decodeUtf8From cs none (b :: bs) = decodeUtf8From (c :: cs) none bs := by
  simp [decodeUtf8From, h]

theorem decodeUtf8From_open {cs : List Char} {b : UInt8} {bs : List UInt8} {p : Pending}
    (h : firstByte? b.toNat = some (.inr p)) :
    decodeUtf8From cs none (b :: bs) = decodeUtf8From cs (some p) bs := by
  simp [decodeUtf8From, h]

theorem decodeUtf8From_continue {cs : List Char} {b : UInt8} {bs : List UInt8}
    {value missing low high : Nat} (h : low ≤ b.toNat ∧ b.toNat ≤ high) :
    decodeUtf8From cs (some ⟨value, missing + 2, low, high⟩) (b :: bs) =
      decodeUtf8From cs (some ⟨value * 64 + (b.toNat - 0x80), missing + 1, 0x80, 0xbf⟩) bs := by
  simp [decodeUtf8From, h]

theorem decodeUtf8From_close {cs : List Char} {b : UInt8} {bs : List UInt8}
    {value low high : Nat} (h : low ≤ b.toNat ∧ b.toNat ≤ high) :
    decodeUtf8From cs (some ⟨value, 1, low, high⟩) (b :: bs) =
      decodeUtf8From (Char.ofNat (value * 64 + (b.toNat - 0x80)) :: cs) none bs := by
  simp [decodeUtf8From, h]

/-! ## First bytes

What is missing behind a first byte, by the length of the form it opens. -/

theorem firstByte?_one {b : Nat} (h : b ≤ 0x7f) : firstByte? b = some (.inl (Char.ofNat b)) := by
  rw [firstByte?, if_pos h]

theorem firstByte?_two {b : Nat} (h : 0xc2 ≤ b ∧ b ≤ 0xdf) :
    firstByte? b = some (.inr ⟨b - 0xc0, 1, 0x80, 0xbf⟩) := by
  rw [firstByte?, if_neg (by omega), if_neg (by omega), if_pos (by omega)]

theorem firstByte?_three {b : Nat} (h : 0xe0 ≤ b ∧ b ≤ 0xef) :
    firstByte? b = some (.inr ⟨b - 0xe0, 2, if b = 0xe0 then 0xa0 else 0x80,
      if b = 0xed then 0x9f else 0xbf⟩) := by
  rw [firstByte?, if_neg (by omega), if_neg (by omega), if_neg (by omega)]
  by_cases h0 : b = 0xe0
  · simp [h0]
  by_cases h1 : b = 0xed
  · simp [h1]
  rw [if_neg h0, if_neg h1, if_pos (by omega), if_neg h0, if_neg h1]

theorem firstByte?_four {b : Nat} (h : 0xf0 ≤ b ∧ b ≤ 0xf4) :
    firstByte? b = some (.inr ⟨b - 0xf0, 3, if b = 0xf0 then 0x90 else 0x80,
      if b = 0xf4 then 0x8f else 0xbf⟩) := by
  rw [firstByte?, if_neg (by omega), if_neg (by omega), if_neg (by omega), if_neg (by omega),
    if_neg (by omega), if_neg (by omega)]
  by_cases h0 : b = 0xf0
  · simp [h0]
  by_cases h1 : b = 0xf4
  · simp [h1]
  rw [if_neg h0, if_pos (by omega), if_neg h0, if_neg h1]

/-- No form opens with any other byte. -/
theorem firstByte?_eq_none {b : Nat} (h : 0x7f < b ∧ b ≤ 0xc1 ∨ 0xf4 < b) :
    firstByte? b = none := by
  unfold firstByte?
  repeat' split
  all_goals first | rfl | omega

/-! ## One character -/

/-- The numbers that are characters leave out the surrogates. -/
theorem toNat_bounds (c : Char) : c.toNat < 0xd800 ∨ 0xdfff < c.toNat ∧ c.toNat < 0x110000 :=
  c.valid

theorem toNat_ofNat_of_valid {n : Nat} (h : n.isValidChar) : (Char.ofNat n).toNat = n := by
  rw [Char.ofNat, dif_pos h]
  rfl

theorem decodeUtf8From_encodeChar (c : Char) (cs : List Char) (bs : List UInt8) :
    decodeUtf8From cs none (String.utf8EncodeChar c ++ bs) =
      decodeUtf8From (c :: cs) none bs := by
  have hv := toNat_bounds c
  have hc : c.val.toNat = c.toNat := rfl
  generalize hn : c.toNat = n at hv hc
  have hcn : Char.ofNat n = c := by rw [← hn, Char.ofNat_toNat]
  simp only [String.utf8EncodeChar, hc]
  split
  · have hb : (UInt8.ofNat n).toNat = n := toNat_ofNat_of_lt (by omega)
    rw [List.singleton_append, decodeUtf8From_single (firstByte?_one (by omega)), hb, hcn]
  split
  · have hb₀ : (UInt8.ofNat (n / 64 % 0x20 + 0xc0)).toNat = n / 64 + 0xc0 := by
      rw [toNat_ofNat_of_lt (by omega)]
      omega
    have hb₁ : (UInt8.ofNat (n % 0x40 + 0x80)).toNat = n % 0x40 + 0x80 :=
      toNat_ofNat_of_lt (by omega)
    have hvalue : (n / 64 + 0xc0 - 0xc0) * 64 + (n % 0x40 + 0x80 - 0x80) = n := by omega
    simp only [List.cons_append, List.nil_append]
    rw [decodeUtf8From_open (firstByte?_two (by omega)), decodeUtf8From_close (by omega), hb₀,
      hb₁, hvalue, hcn]
  split
  · have hb₀ : (UInt8.ofNat (n / 4096 % 0x10 + 0xe0)).toNat = n / 4096 + 0xe0 := by
      rw [toNat_ofNat_of_lt (by omega)]
      omega
    have hb₁ : (UInt8.ofNat (n / 64 % 0x40 + 0x80)).toNat = n / 64 % 0x40 + 0x80 :=
      toNat_ofNat_of_lt (by omega)
    have hb₂ : (UInt8.ofNat (n % 0x40 + 0x80)).toNat = n % 0x40 + 0x80 :=
      toNat_ofNat_of_lt (by omega)
    have hvalue : ((n / 4096 + 0xe0 - 0xe0) * 64 + (n / 64 % 0x40 + 0x80 - 0x80)) * 64 +
        (n % 0x40 + 0x80 - 0x80) = n := by omega
    simp only [List.cons_append, List.nil_append]
    rw [decodeUtf8From_open (firstByte?_three (by omega)),
      decodeUtf8From_continue (by split <;> split <;> omega), decodeUtf8From_close (by omega),
      hb₀, hb₁, hb₂, hvalue, hcn]
  · have hb₀ : (UInt8.ofNat (n / 262144 % 0x08 + 0xf0)).toNat = n / 262144 + 0xf0 := by
      rw [toNat_ofNat_of_lt (by omega)]
      omega
    have hb₁ : (UInt8.ofNat (n / 4096 % 0x40 + 0x80)).toNat = n / 4096 % 0x40 + 0x80 :=
      toNat_ofNat_of_lt (by omega)
    have hb₂ : (UInt8.ofNat (n / 64 % 0x40 + 0x80)).toNat = n / 64 % 0x40 + 0x80 :=
      toNat_ofNat_of_lt (by omega)
    have hb₃ : (UInt8.ofNat (n % 0x40 + 0x80)).toNat = n % 0x40 + 0x80 :=
      toNat_ofNat_of_lt (by omega)
    have hvalue : (((n / 262144 + 0xf0 - 0xf0) * 64 + (n / 4096 % 0x40 + 0x80 - 0x80)) * 64 +
        (n / 64 % 0x40 + 0x80 - 0x80)) * 64 + (n % 0x40 + 0x80 - 0x80) = n := by omega
    simp only [List.cons_append, List.nil_append]
    rw [decodeUtf8From_open (firstByte?_four (by omega)),
      decodeUtf8From_continue (by split <;> split <;> omega),
      decodeUtf8From_continue (by omega), decodeUtf8From_close (by omega),
      hb₀, hb₁, hb₂, hb₃, hvalue, hcn]

/-- Inside a character the next byte has to be there and to lie in its range. -/
theorem exists_of_decodeUtf8From_some {cs r : List Char} {p : Pending} {bs : List UInt8}
    (h : decodeUtf8From cs (some p) bs = .ok r) :
    ∃ b rest, bs = b :: rest ∧ p.low ≤ b.toNat ∧ b.toNat ≤ p.high := by
  cases bs with
  | nil => cases h
  | cons b rest =>
    by_cases hr : p.low ≤ b.toNat ∧ b.toNat ≤ p.high
    · exact ⟨b, rest, rfl, hr⟩
    · simp [decodeUtf8From, hr] at h

theorem ofNat_eq_of_eq_toNat {n : Nat} {b : UInt8} (h : n = b.toNat) : UInt8.ofNat n = b := by
  rw [h, UInt8.ofNat_toNat]

/-! The bytes of the forms are those of the characters they stand for. -/

theorem utf8EncodeChar_one {b : UInt8} (h : b.toNat ≤ 0x7f) :
    String.utf8EncodeChar (Char.ofNat b.toNat) = [b] := by
  have hc : (Char.ofNat b.toNat).val.toNat = b.toNat := toNat_ofNat_of_valid (by left; omega)
  simp only [String.utf8EncodeChar, hc]
  rw [if_pos h, ofNat_eq_of_eq_toNat rfl]

theorem utf8EncodeChar_two {b b₁ : UInt8} (h : 0xc2 ≤ b.toNat ∧ b.toNat ≤ 0xdf)
    (h₁ : 0x80 ≤ b₁.toNat ∧ b₁.toNat ≤ 0xbf) :
    String.utf8EncodeChar (Char.ofNat ((b.toNat - 0xc0) * 64 + (b₁.toNat - 0x80))) = [b, b₁] := by
  have hc : (Char.ofNat ((b.toNat - 0xc0) * 64 + (b₁.toNat - 0x80))).val.toNat =
      (b.toNat - 0xc0) * 64 + (b₁.toNat - 0x80) := toNat_ofNat_of_valid (by left; omega)
  simp only [String.utf8EncodeChar, hc]
  rw [if_neg (by omega), if_pos (by omega), ofNat_eq_of_eq_toNat (b := b) (by omega),
    ofNat_eq_of_eq_toNat (b := b₁) (by omega)]

/-- The narrower ranges keep the surrogates and the shorter forms out. -/
theorem utf8EncodeChar_three {b b₁ b₂ : UInt8} (h : 0xe0 ≤ b.toNat ∧ b.toNat ≤ 0xef)
    (h₁ : (if b.toNat = 0xe0 then 0xa0 else 0x80) ≤ b₁.toNat ∧
      b₁.toNat ≤ if b.toNat = 0xed then 0x9f else 0xbf)
    (h₂ : 0x80 ≤ b₂.toNat ∧ b₂.toNat ≤ 0xbf) :
    String.utf8EncodeChar (Char.ofNat (((b.toNat - 0xe0) * 64 + (b₁.toNat - 0x80)) * 64 +
      (b₂.toNat - 0x80))) = [b, b₁, b₂] := by
  have hlow : b.toNat = 0xe0 → 0xa0 ≤ b₁.toNat := by
    intro he
    simpa [he] using h₁.1
  have hhigh : b.toNat = 0xed → b₁.toNat ≤ 0x9f := by
    intro he
    simpa [he] using h₁.2
  have hr : 0x80 ≤ b₁.toNat ∧ b₁.toNat ≤ 0xbf := by
    constructor <;> split at h₁ <;> split at h₁ <;> omega
  have hc : (Char.ofNat (((b.toNat - 0xe0) * 64 + (b₁.toNat - 0x80)) * 64 +
      (b₂.toNat - 0x80))).val.toNat =
      ((b.toNat - 0xe0) * 64 + (b₁.toNat - 0x80)) * 64 + (b₂.toNat - 0x80) := by
    apply toNat_ofNat_of_valid
    by_cases hs : b.toNat < 0xee
    · left
      omega
    · right
      omega
  simp only [String.utf8EncodeChar, hc]
  rw [if_neg (by omega), if_neg (by omega), if_pos (by omega),
    ofNat_eq_of_eq_toNat (b := b) (by omega), ofNat_eq_of_eq_toNat (b := b₁) (by omega),
    ofNat_eq_of_eq_toNat (b := b₂) (by omega)]

/-- The narrower ranges keep the shorter forms and the numbers beyond the last character out. -/
theorem utf8EncodeChar_four {b b₁ b₂ b₃ : UInt8} (h : 0xf0 ≤ b.toNat ∧ b.toNat ≤ 0xf4)
    (h₁ : (if b.toNat = 0xf0 then 0x90 else 0x80) ≤ b₁.toNat ∧
      b₁.toNat ≤ if b.toNat = 0xf4 then 0x8f else 0xbf)
    (h₂ : 0x80 ≤ b₂.toNat ∧ b₂.toNat ≤ 0xbf) (h₃ : 0x80 ≤ b₃.toNat ∧ b₃.toNat ≤ 0xbf) :
    String.utf8EncodeChar (Char.ofNat ((((b.toNat - 0xf0) * 64 + (b₁.toNat - 0x80)) * 64 +
      (b₂.toNat - 0x80)) * 64 + (b₃.toNat - 0x80))) = [b, b₁, b₂, b₃] := by
  have hlow : b.toNat = 0xf0 → 0x90 ≤ b₁.toNat := by
    intro he
    simpa [he] using h₁.1
  have hhigh : b.toNat = 0xf4 → b₁.toNat ≤ 0x8f := by
    intro he
    simpa [he] using h₁.2
  have hr : 0x80 ≤ b₁.toNat ∧ b₁.toNat ≤ 0xbf := by
    constructor <;> split at h₁ <;> split at h₁ <;> omega
  have hc : (Char.ofNat ((((b.toNat - 0xf0) * 64 + (b₁.toNat - 0x80)) * 64 +
      (b₂.toNat - 0x80)) * 64 + (b₃.toNat - 0x80))).val.toNat =
      (((b.toNat - 0xf0) * 64 + (b₁.toNat - 0x80)) * 64 + (b₂.toNat - 0x80)) * 64 +
        (b₃.toNat - 0x80) := by
    apply toNat_ofNat_of_valid
    right
    omega
  simp only [String.utf8EncodeChar, hc]
  rw [if_neg (by omega), if_neg (by omega), if_neg (by omega),
    ofNat_eq_of_eq_toNat (b := b) (by omega), ofNat_eq_of_eq_toNat (b := b₁) (by omega),
    ofNat_eq_of_eq_toNat (b := b₂) (by omega), ofNat_eq_of_eq_toNat (b := b₃) (by omega)]

/-- Input that can be read starts with the bytes of a character. -/
theorem exists_char_of_decodeUtf8From {cs r : List Char} {b : UInt8} {bs : List UInt8}
    (h : decodeUtf8From cs none (b :: bs) = .ok r) :
    ∃ c rest, b :: bs = String.utf8EncodeChar c ++ rest ∧
      decodeUtf8From (c :: cs) none rest = .ok r := by
  by_cases h1 : b.toNat ≤ 0x7f
  · rw [decodeUtf8From_single (firstByte?_one h1)] at h
    exact ⟨_, bs, by rw [utf8EncodeChar_one h1, List.singleton_append], h⟩
  by_cases h2 : 0xc2 ≤ b.toNat ∧ b.toNat ≤ 0xdf
  · rw [decodeUtf8From_open (firstByte?_two h2)] at h
    obtain ⟨b₁, rest, rfl, hr₁⟩ := exists_of_decodeUtf8From_some h
    rw [decodeUtf8From_close hr₁] at h
    exact ⟨_, rest, by rw [utf8EncodeChar_two h2 hr₁]; rfl, h⟩
  by_cases h3 : 0xe0 ≤ b.toNat ∧ b.toNat ≤ 0xef
  · rw [decodeUtf8From_open (firstByte?_three h3)] at h
    obtain ⟨b₁, rest, rfl, hr₁⟩ := exists_of_decodeUtf8From_some h
    rw [decodeUtf8From_continue hr₁] at h
    obtain ⟨b₂, rest, rfl, hr₂⟩ := exists_of_decodeUtf8From_some h
    rw [decodeUtf8From_close hr₂] at h
    exact ⟨_, rest, by rw [utf8EncodeChar_three h3 hr₁ hr₂]; rfl, h⟩
  by_cases h4 : 0xf0 ≤ b.toNat ∧ b.toNat ≤ 0xf4
  · rw [decodeUtf8From_open (firstByte?_four h4)] at h
    obtain ⟨b₁, rest, rfl, hr₁⟩ := exists_of_decodeUtf8From_some h
    rw [decodeUtf8From_continue hr₁] at h
    obtain ⟨b₂, rest, rfl, hr₂⟩ := exists_of_decodeUtf8From_some h
    rw [decodeUtf8From_continue hr₂] at h
    obtain ⟨b₃, rest, rfl, hr₃⟩ := exists_of_decodeUtf8From_some h
    rw [decodeUtf8From_close hr₃] at h
    exact ⟨_, rest, by rw [utf8EncodeChar_four h4 hr₁ hr₂ hr₃]; rfl, h⟩
  · simp [decodeUtf8From, firstByte?_eq_none (b := b.toNat) (by omega)] at h

/-! ## Texts -/

theorem decodeUtf8From_utf8 (cs ds : List Char) :
    decodeUtf8From ds none (utf8 cs) = .ok (ds.reverse ++ cs) := by
  induction cs generalizing ds with
  | nil => simp [utf8, decodeUtf8From]
  | cons c cs ih =>
    rw [utf8, List.flatMap_cons, decodeUtf8From_encodeChar]
    have hrest := ih (c :: ds)
    rw [utf8] at hrest
    rw [hrest, List.reverse_cons, List.append_assoc, List.singleton_append]

/-- Characters are read from their bytes. -/
theorem decodeUtf8_utf8 (cs : List Char) : decodeUtf8 (utf8 cs) = .ok cs := by
  rw [decodeUtf8, decodeUtf8From_utf8, List.reverse_nil, List.nil_append]

theorem exists_of_decodeUtf8From (cs : List Char) (bs : List UInt8) {r : List Char}
    (h : decodeUtf8From cs none bs = .ok r) : ∃ ds, r = cs.reverse ++ ds ∧ bs = utf8 ds := by
  induction hn : bs.length using Nat.strongRecOn generalizing cs bs with
  | _ n ih =>
    cases bs with
    | nil =>
      cases h
      exact ⟨[], by simp, rfl⟩
    | cons b bs =>
      obtain ⟨c, rest, hb, hrest⟩ := exists_char_of_decodeUtf8From h
      have hne : 0 < (String.utf8EncodeChar c).length :=
        List.length_pos_iff.2 String.utf8EncodeChar_ne_nil
      have hlen : rest.length < n := by
        rw [← hn, hb, List.length_append]
        omega
      obtain ⟨ds, hr, hds⟩ := ih _ hlen (c :: cs) rest hrest rfl
      refine ⟨c :: ds, ?_, ?_⟩
      · rw [hr, List.reverse_cons, List.append_assoc, List.singleton_append]
      · rw [hb, hds, utf8, utf8, List.flatMap_cons]

/-- Bytes that can be read are those of the characters read. -/
theorem eq_utf8_of_decodeUtf8 {bs : List UInt8} {cs : List Char} (h : decodeUtf8 bs = .ok cs) :
    bs = utf8 cs := by
  obtain ⟨ds, hr, hds⟩ := exists_of_decodeUtf8From [] bs h
  rw [hds, hr, List.reverse_nil, List.nil_append]

/-- A text takes up as many bytes as it says. -/
theorem length_utf8_toList (s : String) : (utf8 s.toList).length = s.utf8ByteSize := by
  rw [← String.size_toByteArray, ← String.utf8Encode_toList, List.utf8Encode,
    List.size_toByteArray, utf8]

end WireSchema.Text
