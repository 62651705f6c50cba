import WireSchema.Wire.Integer

/-!
# Integers and their bytes

A number of the range of its width is what its bytes stand for, and every string of bytes stands for
a number of the range, whose bytes it is. The residue that is written is the number itself, or, for
a negative one, lies in the upper half, where reading takes the modulus off again.
-/

namespace WireSchema

theorem pow_256_eq (n : Nat) : Nat.pow 256 n = Nat.pow 2 (8 * n) := by
  rw [Nat.pow_eq, Nat.pow_eq, Nat.pow_mul]

theorem pow_two_pos (n : Nat) : 0 < Nat.pow 2 n := Nat.pow_pos (by decide)

/-- The modulus of a width is twice its half. -/
theorem pow_width {size : Nat} (h : 0 < size) :
    Nat.pow 2 (8 * size) = 2 * Nat.pow 2 (8 * size - 1) := by
  have hs : 8 * size = (8 * size - 1) + 1 := by omega
  rw [Nat.pow_eq, Nat.pow_eq, hs, Nat.pow_succ, Nat.mul_comm, Nat.add_sub_cancel]

theorem encodeInt?_eq_some_iff {size : Nat} {signed : Bool} {n : Int} {bs : List UInt8} :
    encodeInt? size signed n = some bs ↔
      minInt size signed ≤ n ∧ n ≤ maxInt size signed ∧
        toBytes size (n % (Nat.pow 2 (8 * size) : Nat)).toNat = bs := by
  unfold encodeInt?
  split
  next h => simp [h]
  next h =>
    constructor
    · intro hn
      cases hn
    · intro hn
      exact absurd ⟨hn.1, hn.2.1⟩ h

/-- The bytes of a residue stand for it. -/
theorem ofBytes_residue (size : Nat) (n : Int) :
    (ofBytes (toBytes size (n % (Nat.pow 2 (8 * size) : Nat)).toNat) : Int) =
      n % (Nat.pow 2 (8 * size) : Nat) := by
  have hpos := pow_two_pos (8 * size)
  have h0 : 0 ≤ n % (Nat.pow 2 (8 * size) : Nat) := Int.emod_nonneg _ (by omega)
  have h1 : n % (Nat.pow 2 (8 * size) : Nat) < (Nat.pow 2 (8 * size) : Nat) :=
    Int.emod_lt_of_pos _ (by omega)
  rw [ofBytes_toBytes, pow_256_eq, Nat.mod_eq_of_lt (by omega)]
  omega

theorem decodeInt_toBytes {size : Nat} {signed : Bool} {n : Int} (hs : 0 < size)
    (hmin : minInt size signed ≤ n) (hmax : n ≤ maxInt size signed) :
    decodeInt signed (toBytes size (n % (Nat.pow 2 (8 * size) : Nat)).toNat) = n := by
  have hpos := pow_two_pos (8 * size)
  have hhalf := pow_width hs
  simp only [decodeInt, length_toBytes, ofBytes_residue]
  cases signed with
  | false =>
    simp only [minInt, maxInt, Bool.false_eq_true, if_false, false_and] at hmin hmax ⊢
    rw [Int.emod_eq_of_lt hmin (by omega)]
  | true =>
    simp only [minInt, maxInt, if_true, true_and] at hmin hmax ⊢
    by_cases h : 0 ≤ n
    · rw [Int.emod_eq_of_lt h (by omega), if_neg (by omega)]
    · have hr : n % (Nat.pow 2 (8 * size) : Nat) = n + (Nat.pow 2 (8 * size) : Nat) := by
        rw [← Int.add_emod_right, Int.emod_eq_of_lt (by omega) (by omega)]
      rw [hr, if_pos (by omega)]
      omega

/-- A number is what its bytes stand for. -/
theorem decodeInt_of_encodeInt? {size : Nat} {signed : Bool} {n : Int} {bs : List UInt8}
    (hs : 0 < size) (h : encodeInt? size signed n = some bs) : decodeInt signed bs = n := by
  obtain ⟨hmin, hmax, rfl⟩ := encodeInt?_eq_some_iff.1 h
  exact decodeInt_toBytes hs hmin hmax

/-- What bytes stand for lies in the range of their width. -/
theorem decodeInt_mem_range (signed : Bool) {bs : List UInt8} (hs : 0 < bs.length) :
    minInt bs.length signed ≤ decodeInt signed bs ∧
      decodeInt signed bs ≤ maxInt bs.length signed := by
  have hlt := ofBytes_lt bs
  rw [pow_256_eq] at hlt
  have hhalf := pow_width hs
  cases signed with
  | false =>
    simp only [decodeInt, minInt, maxInt, Bool.false_eq_true, if_false, false_and]
    omega
  | true =>
    simp only [decodeInt, minInt, maxInt, if_true, true_and]
    split <;> omega

/-- Bytes are those of the number that they stand for. -/
theorem encodeInt?_decodeInt (signed : Bool) {bs : List UInt8} (hs : 0 < bs.length) :
    encodeInt? bs.length signed (decodeInt signed bs) = some bs := by
  obtain ⟨hmin, hmax⟩ := decodeInt_mem_range signed hs
  have hlt := ofBytes_lt bs
  rw [pow_256_eq] at hlt
  have hr : (decodeInt signed bs) % (Nat.pow 2 (8 * bs.length) : Nat) = (ofBytes bs : Int) := by
    simp only [decodeInt]
    split
    · rw [Int.sub_emod_right, Int.emod_eq_of_lt (by omega) (by omega)]
    · rw [Int.emod_eq_of_lt (by omega) (by omega)]
  rw [encodeInt?_eq_some_iff, hr, Int.toNat_natCast, toBytes_ofBytes]
  exact ⟨hmin, hmax, rfl⟩

namespace IntCodec

variable {c : IntCodec} {n : Int} {bs : List UInt8}

theorem exists_encode? (hmin : c.minValue ≤ n) (hmax : n ≤ c.maxValue) :
    ∃ bs, c.encode? n = some bs :=
  ⟨_, encodeInt?_eq_some_iff.2 ⟨hmin, hmax, rfl⟩⟩

/-- A codec refuses the numbers out of its range. -/
theorem encode?_eq_none_iff : c.encode? n = none ↔ ¬(c.minValue ≤ n ∧ n ≤ c.maxValue) := by
  rw [encode?, encodeInt?]
  split
  next h => exact ⟨fun hnone => (Option.some_ne_none _ hnone).elim, fun hout => absurd h hout⟩
  next h => exact ⟨fun _ => h, fun _ => rfl⟩

theorem decode_of_encode? (hsize : 0 < c.size) (h : c.encode? n = some bs) : c.decode bs = n :=
  decodeInt_of_encodeInt? hsize h

theorem decode_mem_range (hsize : 0 < c.size) (h : bs.length = c.size) :
    c.minValue ≤ c.decode bs ∧ c.decode bs ≤ c.maxValue := by
  have hrange := decodeInt_mem_range c.signed (h ▸ hsize)
  rwa [h] at hrange

/-- The bytes that a number was read from are those that it is written as. -/
theorem encode?_decode (hsize : 0 < c.size) (h : bs.length = c.size) :
    c.encode? (c.decode bs) = some bs := by
  have hencode := encodeInt?_decodeInt c.signed (h ▸ hsize)
  rwa [h] at hencode

end IntCodec

namespace IntKind

theorem size_pos (k : IntKind) : 0 < k.size := by
  cases k <;> decide

theorem exists_encode? {k : IntKind} {n : Int} (hmin : k.minValue ≤ n) (hmax : n ≤ k.maxValue) :
    ∃ bs, k.encode? n = some bs :=
  IntCodec.exists_encode? hmin hmax

theorem length_of_encode? {k : IntKind} {n : Int} {bs : List UInt8} (h : k.encode? n = some bs) :
    bs.length = k.size :=
  length_of_encodeInt? h

theorem decode_of_encode? {k : IntKind} {n : Int} {bs : List UInt8} (h : k.encode? n = some bs) :
    k.decode bs = n :=
  IntCodec.decode_of_encode? k.size_pos h

theorem decode_mem_range {k : IntKind} {bs : List UInt8} (h : bs.length = k.size) :
    k.minValue ≤ k.decode bs ∧ k.decode bs ≤ k.maxValue :=
  IntCodec.decode_mem_range k.size_pos h

theorem encode?_decode {k : IntKind} {bs : List UInt8} (h : bs.length = k.size) :
    k.encode? (k.decode bs) = some bs :=
  IntCodec.encode?_decode k.size_pos h

theorem minValue_of_unsigned {k : IntKind} (h : k.signed = false) : k.minValue = 0 := by
  simp [minValue, IntCodec.minValue, intCodec, minInt, h]

end IntKind

end WireSchema
