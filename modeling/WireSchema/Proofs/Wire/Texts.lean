import WireSchema.Proofs.Text.Strict
import WireSchema.Proofs.Wire.Numbers
import WireSchema.Proofs.Wire.RoundTrip

/-!
# Texts and bytes

A text stands on the wire behind its length: eight bytes that tell, the lowest first, how many bytes
the text takes up, and then its strict UTF-8 form. Reading accepts exactly such bytes, whatever
follows, and a text is written as the only bytes that it is read from.
-/

namespace WireSchema

open BytesReader

/-! ## Lengths -/

theorem takes_readCount_of_length {count : List UInt8} (h : count.length = 8) :
    Takes readCount count (Nat.ofDigits 256 (count.map UInt8.toNat)) := by
  intro rest
  rw [readCount, takes_readInt (k := .u64) h rest, ← ofBytes_eq_ofDigits]
  rfl

/-- Bytes that a length is read from are those that it is written as. -/
theorem eq_countBytes_of_takes {count : List UInt8} {n : Nat} (h : Takes readCount count n) :
    n ≤ maxLength ∧ count = countBytes n := by
  have hcount := eq_append_of_readCount (h [])
  rw [List.append_nil, List.append_nil] at hcount
  exact ⟨le_maxLength_of_readCount (h []), hcount⟩

theorem takes_readCount_iff {count : List UInt8} {n : Nat} :
    Takes readCount count n ↔
      count.length = 8 ∧ n = Nat.ofDigits 256 (count.map UInt8.toNat) := by
  constructor
  · intro h
    obtain ⟨hn, hcount⟩ := eq_countBytes_of_takes h
    have hlen : count.length = 8 := by rw [hcount, length_countBytes hn]
    have hread := h []
    rw [takes_readCount_of_length hlen []] at hread
    cases hread
    exact ⟨hlen, rfl⟩
  · rintro ⟨hlen, rfl⟩
    exact takes_readCount_of_length hlen

/-- Lengths beyond eight bytes cannot be told. -/
theorem writeCount_of_lt {n : Nat} (h : maxLength < n) (s : Sink) :
    writeCount n s = .error (.notRepresentable (.int n) IntKind.u64.name, s) := by
  have hnone : IntKind.u64.encode? n = none := by
    rw [IntKind.encode?, IntCodec.encode?_eq_none_iff]
    rintro ⟨-, hmax⟩
    have hmaxValue := maxValue_u64
    rw [IntKind.maxValue] at hmaxValue
    omega
  rw [writeCount, hnone]
  rfl

/-! ## Texts -/

/-- How a text stands on the wire. -/
structure Text.OnWire (t : String) (count raw : List UInt8) : Prop where
  count_length : count.length = 8
  raw_length : raw.length = Nat.ofDigits 256 (count.map UInt8.toNat)
  strict : Text.Strict t.toList raw

namespace Text.OnWire

variable {t : String} {count raw : List UInt8}

theorem iff_takes : Text.OnWire t count raw ↔
    Takes readCount count t.utf8ByteSize ∧ raw = Text.utf8 t.toList := by
  constructor
  · rintro ⟨hcount, hraw, hstrict⟩
    obtain rfl := Text.strict_iff.1 hstrict
    rw [Text.length_utf8_toList] at hraw
    exact ⟨takes_readCount_iff.2 ⟨hcount, hraw⟩, rfl⟩
  · rintro ⟨hcount, rfl⟩
    obtain ⟨hlen, hsize⟩ := takes_readCount_iff.1 hcount
    exact ⟨hlen, (Text.length_utf8_toList t).trans hsize, Text.strict_utf8 _⟩

theorem takes (h : Text.OnWire t count raw) (D : String → Read Value) :
    (Codec.string.decode D).Takes (count ++ raw) (.text t) := by
  obtain ⟨hcount, rfl⟩ := iff_takes.1 h
  exact Read.takes_lift ((takes_readString_of_count hcount).map Value.text)

theorem appends (h : Text.OnWire t count raw) (O : Objects) :
    Write.Appends (Codec.string.encode O (.text t)) (count ++ raw) := by
  obtain ⟨hcount, rfl⟩ := iff_takes.1 h
  obtain ⟨hsize, rfl⟩ := eq_countBytes_of_takes hcount
  exact Layout.appends_string O hsize

theorem exists_of_length_lt (hstrict : Text.Strict t.toList raw) (h : raw.length < 2 ^ 64) :
    ∃ count, Text.OnWire t count raw := by
  obtain rfl := Text.strict_iff.1 hstrict
  rw [Text.length_utf8_toList] at h
  have hsize : t.utf8ByteSize ≤ maxLength := Nat.le_sub_one_of_lt h
  exact ⟨countBytes t.utf8ByteSize, iff_takes.2 ⟨takes_readCount hsize, rfl⟩⟩

end Text.OnWire

theorem encode_string_of_le (O : Objects) {t : String} {raw : List UInt8}
    (hstrict : Text.Strict t.toList raw) (h : ¬ raw.length < 2 ^ 64) (s : Sink) :
    Codec.string.encode O (.text t) s =
      .error (.notRepresentable (.int raw.length) "u64", s) := by
  obtain rfl := Text.strict_iff.1 hstrict
  have hlong : maxLength < (Text.utf8 t.toList).length :=
    Nat.lt_of_lt_of_le (by decide) (Nat.le_of_not_lt h)
  simp only [Codec.encode, writeString, writeCount_of_lt hlong s]
  rfl

theorem exists_of_decode_string {D : String → Read Value} {s s' : Source} {v : Value}
    (h : Codec.string.decode D s = .ok (v, s')) :
    ∃ t rest, readString s.bytes = .ok (t, rest) ∧ v = .text t ∧
      s' = { s with bytes := rest } := by
  simp only [Codec.decode, Read.lift] at h
  cases hr : readString s.bytes with
  | error f =>
    simp only [hr] at h
    cases h
  | ok r =>
    simp only [hr] at h
    cases h
    exact ⟨r.1, r.2, rfl, rfl, rfl⟩

/-- Reading a text succeeds on what a text stands on the wire as, and leaves what follows. -/
theorem decode_string_eq_ok_iff {D : String → Read Value} {s s' : Source} {v : Value} :
    Codec.string.decode D s = .ok (v, s') ↔ ∃ t count raw rest, Text.OnWire t count raw ∧
      s.bytes = count ++ raw ++ rest ∧ v = .text t ∧ s' = { s with bytes := rest } := by
  constructor
  · intro h
    obtain ⟨t, rest, hread, rfl, rfl⟩ := exists_of_decode_string h
    obtain ⟨-, count, hcount, hbytes⟩ := exists_of_readString hread
    exact ⟨t, count, _, rest, Text.OnWire.iff_takes.2 ⟨hcount, rfl⟩, hbytes, rfl, rfl⟩
  · rintro ⟨t, count, raw, rest, hwire, hbytes, rfl, rfl⟩
    exact hwire.takes D s rest hbytes

theorem ofInput_of_decode_string {D : String → Read Value} {s : Source} {h : Halt}
    (hd : Codec.string.decode D s = .error h) : h.fault.ofInput = true := by
  simp only [Codec.decode, Read.lift] at hd
  cases hr : readString s.bytes with
  | error f =>
    simp only [hr] at hd
    cases hd
    simpa [Fault.ofInput] using failsByInput_readString _ _ hr
  | ok r =>
    simp only [hr] at hd
    cases hd

/-- Texts and the bytes that they are read from correspond to each other. -/
theorem string_corresponds (O : Objects) (D : String → Read Value) :
    (∀ s v s', Codec.string.decode D s = .ok (v, s') ↔ ∃ t count raw rest,
      Text.OnWire t count raw ∧ s.bytes = count ++ raw ++ rest ∧ v = .text t ∧
        s' = { s with bytes := rest }) ∧
    (∀ s h, Codec.string.decode D s = .error h → h.fault.ofInput = true) ∧
    (∀ s v s', Codec.string.decode D s = .ok (v, s') → ∃ bs, s.bytes = bs ++ s'.bytes ∧
      ∀ sink, Codec.string.encode O v sink = .ok (sink.append bs)) ∧
    ∀ t : String, ∃ raw, Text.Strict t.toList raw ∧
      if raw.length < 2 ^ 64 then
        ∃ count, Text.OnWire t count raw ∧
          (∀ sink, Codec.string.encode O (.text t) sink = .ok (sink.append (count ++ raw))) ∧
          ∀ (s : Source) (rest : List UInt8), s.bytes = count ++ raw ++ rest →
            Codec.string.decode D s = .ok (.text t, { s with bytes := rest })
      else ∀ sink, Codec.string.encode O (.text t) sink =
        .error (.notRepresentable (.int raw.length) "u64", sink) := by
  refine ⟨fun s v s' => decode_string_eq_ok_iff, fun s h => ofInput_of_decode_string,
    fun s v s' hd => ?_, fun t => ⟨Text.utf8 t.toList, Text.strict_utf8 _, ?_⟩⟩
  · obtain ⟨t, count, raw, rest, hwire, hbytes, rfl, rfl⟩ := decode_string_eq_ok_iff.1 hd
    exact ⟨count ++ raw, hbytes, hwire.appends O⟩
  · split
    next h =>
      obtain ⟨count, hwire⟩ := Text.OnWire.exists_of_length_lt (Text.strict_utf8 _) h
      exact ⟨count, hwire, hwire.appends O, hwire.takes D⟩
    next h => exact encode_string_of_le O (Text.strict_utf8 _) h

/-- A text of one character that takes up two bytes, with one more byte behind it. -/
theorem string_corresponds_two_bytes :
    let s : Source := { bytes := [2, 0, 0, 0, 0, 0, 0, 0, 0xc3, 0xa9, 0xff] }
    let s' : Source := { bytes := [0xff] }
    let D : String → Read Value := fun _ => Read.fail .noSuchMember
    Codec.string.decode D s = .ok (.text "é", s') ∧ ∃ bs, s.bytes = bs ++ s'.bytes ∧
      ∀ sink, Codec.string.encode Objects.none (.text "é") sink = .ok (sink.append bs) := by
  intro s s' D
  have hdecode : Codec.string.decode D s = .ok (.text "é", s') := by rfl
  exact ⟨hdecode, (string_corresponds Objects.none D).2.2.1 s _ s' hdecode⟩

end WireSchema
