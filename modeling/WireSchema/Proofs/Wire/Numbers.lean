import Mathlib.Data.Nat.Digits.Defs
import WireSchema.Proofs.Wire.Takes
import WireSchema.Wire.Declared

/-!
# Numbers and bytes

A codec of integers writes the numbers of its range, and each of them as one string of bytes of its
width: the digits, the lowest first, of what remains of the number modulo the number of all such
strings. There are as many strings as there are numbers, so each of the strings is read, and as the
only number that is written so.
-/

namespace WireSchema

open BytesReader

/-- Bytes are the digits of the number that they tell, the lowest first. -/
theorem ofBytes_eq_ofDigits (bs : List UInt8) :
    ofBytes bs = Nat.ofDigits 256 (bs.map UInt8.toNat) := by
  induction bs with
  | nil => rfl
  | cons b bs ih =>
    rw [ofBytes, List.map_cons, Nat.ofDigits_cons, ih]

/-- A truth value is shown by a word, and the number it stands for is short. -/
theorem Value.isShowable_of_integer? {v : Value} {n : Int} (hv : v.integer? = some n) :
    v.isShowable = Text.isShowable n := by
  cases v with
  | bool b =>
    cases hv
    cases b <;> decide +kernel
  | int => cases hv; rfl
  | _ => cases hv

namespace IntCodec

variable {c : IntCodec} {n : Int} {bs : List UInt8}

theorem minValue_eq (c : IntCodec) :
    c.minValue = if c.signed then -(2 ^ (8 * c.size - 1)) else 0 := by
  simp [minValue, minInt]

theorem maxValue_eq (c : IntCodec) :
    c.maxValue = if c.signed then 2 ^ (8 * c.size - 1) - 1 else 2 ^ (8 * c.size) - 1 := by
  simp [maxValue, maxInt]

/-- How a number of the range stands on the wire: what remains of it is told by the digits. For a
negative number this is the number and the modulus together. -/
structure OnWire (c : IntCodec) (n : Int) (bs : List UInt8) : Prop where
  minValue_le : c.minValue ≤ n
  le_maxValue : n ≤ c.maxValue
  length_eq : bs.length = c.size
  digits : ((Nat.ofDigits 256 (bs.map UInt8.toNat) : Nat) : Int) = n % 2 ^ (8 * c.size)

namespace OnWire

/-- What stands on the wire is what is written. -/
theorem iff_encode? : c.OnWire n bs ↔ c.encode? n = some bs := by
  rw [encode?, encodeInt?_eq_some_iff]
  have hresidue := ofBytes_residue c.size n
  constructor
  · rintro ⟨hmin, hmax, hlen, hdigits⟩
    refine ⟨hmin, hmax, ?_⟩
    rw [← ofBytes_eq_ofDigits] at hdigits
    -- a string of bytes is told by its length and the number that its digits stand for
    have hbytes : (n % (Nat.pow 2 (8 * c.size) : Nat)).toNat = ofBytes bs := by
      simp [← hdigits]
    rw [hbytes, ← hlen, toBytes_ofBytes]
  · rintro ⟨hmin, hmax, rfl⟩
    refine ⟨hmin, hmax, length_toBytes _ _, ?_⟩
    rw [← ofBytes_eq_ofDigits, hresidue]
    simp

theorem takes (h : c.OnWire n bs) (hsize : 0 < c.size) : Takes c.read bs n := by
  have htakes := takes_read h.length_eq
  rwa [decode_of_encode? hsize (iff_encode?.1 h)] at htakes

theorem appends (h : c.OnWire n bs) {v : Value} (hv : v.integer? = some n) (isAsked : Bool) :
    (c.write v isAsked).Appends bs := by
  intro s
  simp only [write, hv, Option.bind_some, iff_encode?.1 h]
  rfl

theorem exists_of_mem_range (hmin : c.minValue ≤ n) (hmax : n ≤ c.maxValue) :
    ∃ bs, c.OnWire n bs := by
  obtain ⟨bs, hbs⟩ := exists_encode? hmin hmax
  exact ⟨bs, iff_encode?.2 hbs⟩

/-- Each string of bytes of the width is how a number stands on the wire. -/
theorem of_length (hsize : 0 < c.size) (h : bs.length = c.size) : c.OnWire (c.decode bs) bs :=
  iff_encode?.2 (encode?_decode hsize h)

end OnWire

/-- Of a number out of the range, nothing is written, and it is said to be none of the type if it
can be shown. -/
theorem write_of_not_mem_range {v : Value} (hv : v.integer? = some n)
    (hn : ¬(c.minValue ≤ n ∧ n ≤ c.maxValue)) (sink : Sink) :
    c.write v false sink =
      .error (if Text.isShowable n then .notRepresentable v c.name else .unfit, sink) := by
  simp only [write, hv, Option.bind_some, encode?_eq_none_iff.2 hn]
  refine congrArg (fun f => Except.error (f, sink)) ?_
  rw [if_neg Bool.false_ne_true, Fault.showing_singleton, Value.isShowable_of_integer? hv]

end IntCodec

/-- Numbers are not asked for their bytes. -/
theorem Layout.knows_of_integer? (S : Layout) {v : Value} {n : Int} (hv : v.integer? = some n)
    (name : String) : S.knows v name = false := by
  cases v with
  | bool | int => rfl
  | _ => cases hv

/-- The numbers of a range and the strings of bytes of its width correspond to each other, whatever
is declared beside them. A number out of the range is refused as such if it can be shown. -/
theorem integer_corresponds (S : Layout) {c : IntCodec} (hsize : 0 < c.size) :
    (c.minValue = if c.signed then -(2 ^ (8 * c.size - 1)) else 0) ∧
    (c.maxValue = if c.signed then 2 ^ (8 * c.size - 1) - 1 else 2 ^ (8 * c.size) - 1) ∧
    (∀ v n, v.integer? = some n →
      if c.minValue ≤ n ∧ n ≤ c.maxValue then
        ∃ bs, c.OnWire n bs ∧
          (∀ sink, c.write v (S.knows v numberRequest) sink = .ok (sink.append bs)) ∧
          ∀ tail, c.read (bs ++ tail) = .ok (n, tail)
      else ∀ sink, c.write v (S.knows v numberRequest) sink =
        .error (if Text.isShowable n then .notRepresentable v c.name else .unfit, sink)) ∧
    ∀ bs, bs.length = c.size → ∃ n, c.OnWire n bs ∧
      (∀ tail, c.read (bs ++ tail) = .ok (n, tail)) ∧
      ∀ v, v.integer? = some n →
        ∀ sink, c.write v (S.knows v numberRequest) sink = .ok (sink.append bs) := by
  refine ⟨c.minValue_eq, c.maxValue_eq, fun v n hv => ?_, fun bs hbs => ?_⟩
  · split
    next hn =>
      obtain ⟨bs, hwire⟩ := IntCodec.OnWire.exists_of_mem_range hn.1 hn.2
      exact ⟨bs, hwire, hwire.appends hv _, hwire.takes hsize⟩
    next hn =>
      rw [S.knows_of_integer? hv]
      exact IntCodec.write_of_not_mem_range hv hn
  · have hwire := IntCodec.OnWire.of_length hsize hbs
    exact ⟨_, hwire, hwire.takes hsize, fun v hv => hwire.appends hv _⟩

/-- A width that no kind has: the least number of three bytes, and the one above the largest. -/
theorem integer_corresponds_three_bytes :
    let S : Layout := ⟨[], []⟩
    let c : IntCodec := ⟨"i24", 3, true⟩
    0 < c.size ∧ c.read [0, 0, 0x80, 7] = .ok (-8388608, [7]) ∧
      (∀ sink, c.write (.int (-8388608)) (S.knows (.int (-8388608)) numberRequest) sink =
        .ok (sink.append [0, 0, 0x80])) ∧
      ∀ sink, c.write (.int 8388608) (S.knows (.int 8388608) numberRequest) sink =
        .error (.notRepresentable (.int 8388608) "i24", sink) := by
  intro S c
  obtain ⟨-, -, hnumbers, hstrings⟩ := integer_corresponds S (c := c) (by decide)
  have hread : c.read [0, 0, 0x80, 7] = .ok (-8388608, [7]) := by rfl
  obtain ⟨n, -, htakes, hwrites⟩ := hstrings [0, 0, 0x80] rfl
  have hn : n = -8388608 := by
    have htail := (htakes [7]).symm.trans hread
    cases htail
    rfl
  have hlarge := hnumbers (.int 8388608) 8388608 rfl
  rw [if_neg (by decide), if_pos (by decide +kernel)] at hlarge
  exact ⟨by decide, hread, hwrites _ (congrArg some hn.symm), hlarge⟩

/-- A number of one digit more than can be shown is refused in another way than as out of the
range. -/
theorem not_refused_as_value_of_unshowable :
    let n : Int := Nat.pow 10 4300
    let c := IntKind.u8.intCodec
    ¬(c.minValue ≤ n ∧ n ≤ c.maxValue) ∧
      Write.faultKind? (c.write (.int n) false {}) = some .unfit := by
  decide +kernel

end WireSchema
