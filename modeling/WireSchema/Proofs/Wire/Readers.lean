import WireSchema.Proofs.Text.Utf8
import WireSchema.Proofs.Wire.Integer
import WireSchema.Wire.Codec

/-!
# Readers of bytes

The types that refer to nothing are read from bytes by readers that take some bytes from the front
and find the same value in them whatever follows. For each of them there are three statements: which
bytes it takes for a value, that whatever it has read it took in this way, and that if it fails, its
input is at fault.
-/

namespace WireSchema

/-- A reader that takes bytes from the front, or finds a fault. -/
abbrev BytesReader (α : Type) := List UInt8 → Except Fault (α × List UInt8)

namespace BytesReader

variable {α β : Type}

/-- Whatever follows, the reader takes `front` and finds `a`. -/
def Takes (read : BytesReader α) (front : List UInt8) (a : α) : Prop :=
  ∀ rest, read (front ++ rest) = .ok (a, rest)

/-- What was read does not depend on what follows. -/
def Exact (read : BytesReader α) : Prop :=
  ∀ bs a rest, read bs = .ok (a, rest) → ∃ front, bs = front ++ rest ∧ read.Takes front a

theorem Takes.map {read : BytesReader α} {front : List UInt8} {a : α} (h : read.Takes front a)
    (f : α → β) : Takes (fun bs => do let (a, r) ← read bs; return (f a, r)) front (f a) := by
  intro rest
  simp only [h rest]
  rfl

theorem Exact.map {read : BytesReader α} (h : read.Exact) (f : α → β) :
    Exact fun bs => do let (a, r) ← read bs; return (f a, r) := by
  intro bs b rest hb
  cases hread : read bs with
  | error e =>
    simp only [hread] at hb
    cases hb
  | ok r =>
    simp only [hread] at hb
    cases hb
    obtain ⟨front, hbs, htakes⟩ := h bs r.1 r.2 hread
    exact ⟨front, hbs, htakes.map f⟩

/-- Failing is a matter of the input only. -/
def FailsByInput (read : BytesReader α) : Prop := ∀ bs f, read bs = .error f → f.kind = .input

theorem FailsByInput.bind {read : BytesReader α} {next : α × List UInt8 → Except Fault β}
    (h : read.FailsByInput) (hnext : ∀ p f, next p = .error f → f.kind = .input)
    {bs : List UInt8} {f : Fault} (hf : (read bs >>= next) = .error f) : f.kind = .input := by
  cases hr : read bs with
  | error f' =>
    rw [hr] at hf
    cases hf
    exact h bs _ hr
  | ok p =>
    rw [hr] at hf
    exact hnext p f hf

theorem FailsByInput.map {read : BytesReader α} (h : read.FailsByInput) (f : α → β) :
    FailsByInput fun bs => read bs >>= fun p => .ok (f p.1, p.2) := by
  refine fun _ _ => h.bind fun _ _ hf => ?_
  cases hf

end BytesReader

open BytesReader

theorem takeBytes_append {size : Nat} {front : List UInt8} (h : front.length = size)
    (what : String) (rest : List UInt8) :
    takeBytes size what (front ++ rest) = .ok (front, rest) := by
  rw [takeBytes_eq, if_neg (by simp [h]), ← h, List.take_left, List.drop_left]

theorem eq_append_of_takeBytes {size : Nat} {what : String} {bs front rest : List UInt8}
    (h : takeBytes size what bs = .ok (front, rest)) :
    front.length = size ∧ bs = front ++ rest := by
  rw [takeBytes_eq] at h
  split at h
  next => cases h
  next hlen =>
    cases h
    exact ⟨by rw [List.length_take]; omega, (List.take_append_drop size bs).symm⟩

theorem exact_takeBytes (size : Nat) (what : String) : Exact (takeBytes size what) := by
  intro bs front rest h
  obtain ⟨hlen, hbs⟩ := eq_append_of_takeBytes h
  exact ⟨front, hbs, takeBytes_append hlen what⟩

theorem failsByInput_takeBytes (size : Nat) (what : String) :
    FailsByInput (takeBytes size what) := by
  intro bs f hf
  rw [takeBytes_eq] at hf
  split at hf
  · cases hf
    rfl
  · cases hf

theorem Format.exact_unpack (f : Format) : Exact (f.unpack f.size) := by
  intro bs vs rest h
  cases ht : takeBytes f.size f.text bs with
  | error e =>
    simp only [Format.unpack, ht] at h
    cases h
  | ok r =>
    obtain ⟨front, hbs, htakes⟩ := exact_takeBytes _ _ _ _ _ ht
    simp only [Format.unpack, ht, bind, Except.bind] at h
    refine ⟨front, ?_, ?_⟩
    · cases h
      exact hbs
    · intro rest'
      simp only [Format.unpack, htakes rest', bind, Except.bind]
      cases h
      rfl

theorem Format.failsByInput_unpack (f : Format) : FailsByInput (f.unpack f.size) := by
  refine fun _ _ => (failsByInput_takeBytes f.size f.text).bind fun p f hf => ?_
  dsimp only at hf
  rw [if_pos rfl] at hf
  cases hf

/-! ## Integers and counts -/

theorem IntCodec.takes_read {c : IntCodec} {front : List UInt8} (h : front.length = c.size) :
    Takes c.read front (c.decode front) := by
  intro rest
  rw [read, takeBytes_append h]
  rfl

theorem takes_readInt {k : IntKind} {front : List UInt8} (h : front.length = k.size) :
    Takes (readInt k) front (k.decode front) :=
  IntCodec.takes_read h

theorem takes_readInt_of_encode? {k : IntKind} {n : Int} {bs : List UInt8}
    (h : k.encode? n = some bs) : Takes (readInt k) bs n := by
  have ht := takes_readInt (IntKind.length_of_encode? h)
  rwa [IntKind.decode_of_encode? h] at ht

theorem exists_of_readInt {k : IntKind} {bs rest : List UInt8} {n : Int}
    (h : readInt k bs = .ok (n, rest)) :
    ∃ front, front.length = k.size ∧ n = k.decode front ∧ bs = front ++ rest := by
  cases ht : takeBytes k.size k.name bs with
  | error e =>
    simp only [readInt_eq, ht] at h
    cases h
  | ok r =>
    simp only [readInt_eq, ht] at h
    cases h
    obtain ⟨hlen, hbs⟩ := eq_append_of_takeBytes ht
    exact ⟨r.1, hlen, rfl, hbs⟩

theorem exact_readInt (k : IntKind) : Exact (readInt k) := by
  intro bs n rest h
  obtain ⟨front, hlen, rfl, hbs⟩ := exists_of_readInt h
  exact ⟨front, hbs, takes_readInt hlen⟩

theorem failsByInput_readInt (k : IntKind) : FailsByInput (readInt k) :=
  (failsByInput_takeBytes _ _).map k.decode

theorem mem_range_of_readInt {k : IntKind} {bs rest : List UInt8} {n : Int}
    (h : readInt k bs = .ok (n, rest)) : k.minValue ≤ n ∧ n ≤ k.maxValue := by
  obtain ⟨front, hlen, rfl, -⟩ := exists_of_readInt h
  exact IntKind.decode_mem_range hlen

theorem maxValue_u64 : IntKind.u64.maxValue = (maxLength : Int) := by
  decide +kernel

/-- The bytes of a length or a count. -/
def countBytes (n : Nat) : List UInt8 := (IntKind.u64.encode? n).getD []

theorem encode?_count {n : Nat} (h : n ≤ maxLength) :
    IntKind.u64.encode? n = some (countBytes n) := by
  have hmax : (n : Int) ≤ IntKind.u64.maxValue := by
    rw [maxValue_u64]
    omega
  have hmin : IntKind.u64.minValue ≤ n := by
    rw [IntKind.minValue_of_unsigned rfl]
    omega
  obtain ⟨bs, hbs⟩ := IntKind.exists_encode? hmin hmax
  rw [countBytes, hbs, Option.getD_some]

theorem length_countBytes {n : Nat} (h : n ≤ maxLength) : (countBytes n).length = 8 :=
  IntKind.length_of_encode? (encode?_count h)

theorem countBytes_append_ne_nil {n : Nat} (h : n ≤ maxLength) (bs : List UInt8) :
    countBytes n ++ bs ≠ [] := by
  intro hnil
  have hlen := congrArg List.length hnil
  rw [List.length_append, length_countBytes h] at hlen
  simp at hlen

theorem takes_readCount {n : Nat} (h : n ≤ maxLength) : Takes readCount (countBytes n) n := by
  intro rest
  rw [readCount, takes_readInt_of_encode? (encode?_count h) rest]
  rfl

theorem exact_readCount : Exact readCount :=
  (exact_readInt .u64).map Int.toNat

theorem failsByInput_readCount : FailsByInput readCount :=
  (failsByInput_readInt .u64).map Int.toNat

theorem le_maxLength_of_readCount {bs rest : List UInt8} {n : Nat}
    (h : readCount bs = .ok (n, rest)) : n ≤ maxLength := by
  cases hr : readInt .u64 bs with
  | error e =>
    simp only [readCount, hr] at h
    cases h
  | ok r =>
    simp only [readCount, hr] at h
    cases h
    have hmax := (mem_range_of_readInt hr).2
    rw [maxValue_u64] at hmax
    omega

/-- Counts have one spelling each. -/
theorem eq_append_of_readCount {bs rest : List UInt8} {n : Nat}
    (h : readCount bs = .ok (n, rest)) : bs = countBytes n ++ rest := by
  cases hr : readInt .u64 bs with
  | error e =>
    simp only [readCount, hr] at h
    cases h
  | ok r =>
    simp only [readCount, hr] at h
    cases h
    obtain ⟨front, hlen, hn, hbs⟩ := exists_of_readInt hr
    have hmin := (mem_range_of_readInt hr).1
    rw [IntKind.minValue_of_unsigned rfl] at hmin
    rw [hbs, countBytes, Int.toNat_of_nonneg hmin, hn, IntKind.encode?_decode hlen]
    rfl

/-! ## Truth values -/

theorem takes_readBool (front : List UInt8) (h : front.length = 1) :
    Takes readBool front (front.any (· ≠ 0)) := by
  intro rest
  rw [readBool, takeBytes_append h]
  rfl

theorem exact_readBool : Exact readBool := by
  intro bs b rest h
  cases ht : takeBytes 1 Codec.bool.name bs with
  | error e =>
    simp only [readBool, ht] at h
    cases h
  | ok r =>
    simp only [readBool, ht] at h
    cases h
    obtain ⟨hlen, hbs⟩ := eq_append_of_takeBytes ht
    exact ⟨r.1, hbs, takes_readBool _ hlen⟩

theorem exists_of_readBool {bs rest : List UInt8} {b : Bool} (h : readBool bs = .ok (b, rest)) :
    ∃ byte : UInt8, bs = byte :: rest ∧ b = decide (byte ≠ 0) := by
  cases ht : takeBytes 1 Codec.bool.name bs with
  | error e =>
    simp only [readBool, ht] at h
    cases h
  | ok r =>
    simp only [readBool, ht] at h
    cases h
    obtain ⟨hlen, hbs⟩ := eq_append_of_takeBytes ht
    obtain ⟨byte, hbyte⟩ := List.length_eq_one_iff.1 hlen
    exact ⟨byte, by rw [hbs, hbyte]; rfl, by simp [hbyte]⟩

theorem failsByInput_readBool : FailsByInput readBool :=
  (failsByInput_takeBytes _ _).map fun front => front.any (· ≠ 0)

/-- The value of a byte that holds eight truth values. -/
def packedBoolsOf (front : List UInt8) : Value :=
  .list (front.flatMap fun b => (unpackBits b).map Value.bool)

theorem takes_readPackedBools {front : List UInt8} (h : front.length = 1) :
    Takes readPackedBools front (packedBoolsOf front) := by
  intro rest
  rw [readPackedBools, takeBytes_append h]
  rfl

theorem exists_of_readPackedBools {bs rest : List UInt8} {v : Value}
    (h : readPackedBools bs = .ok (v, rest)) :
    ∃ front, front.length = 1 ∧ v = packedBoolsOf front ∧ bs = front ++ rest := by
  cases ht : takeBytes 1 Codec.packedBools.name bs with
  | error e =>
    simp only [readPackedBools, ht] at h
    cases h
  | ok r =>
    simp only [readPackedBools, ht] at h
    cases h
    obtain ⟨hlen, hbs⟩ := eq_append_of_takeBytes ht
    exact ⟨r.1, hlen, rfl, hbs⟩

theorem exact_readPackedBools : Exact readPackedBools := by
  intro bs v rest h
  obtain ⟨front, hlen, rfl, hbs⟩ := exists_of_readPackedBools h
  exact ⟨front, hbs, takes_readPackedBools hlen⟩

theorem failsByInput_readPackedBools : FailsByInput readPackedBools :=
  (failsByInput_takeBytes _ _).map packedBoolsOf

/-- The bits of a byte are those that it was packed from. -/
theorem unpackBits_packBits {bits : List Bool} (h : bits.length = 8) :
    unpackBits (UInt8.ofNat (packBits bits)) = bits := by
  match bits, h with
  | [a, b, c, d, e, f, g, i], _ =>
    cases a <;> cases b <;> cases c <;> cases d <;> cases e <;> cases f <;> cases g <;> cases i <;>
      decide

theorem length_unpackBits (b : UInt8) : (unpackBits b).length = 8 := by
  simp [unpackBits]

/-! ## Texts -/

/-- A text is found behind any bytes that its length is read from. -/
theorem takes_readString_of_count {t : String} {count : List UInt8}
    (h : Takes readCount count t.utf8ByteSize) :
    Takes readString (count ++ Text.utf8 t.toList) t := by
  intro rest
  have htake := takeBytes_append (Text.length_utf8_toList t) Codec.string.name rest
  simp only [readString, List.append_assoc, h _, bind, Except.bind, htake, Text.decodeUtf8_utf8]
  simp [pure, Except.pure]

theorem takes_readString {t : String} (h : t.utf8ByteSize ≤ maxLength) :
    Takes readString (countBytes t.utf8ByteSize ++ Text.utf8 t.toList) t :=
  takes_readString_of_count (takes_readCount h)

theorem exists_of_readString {bs rest : List UInt8} {t : String}
    (h : readString bs = .ok (t, rest)) :
    t.utf8ByteSize ≤ maxLength ∧ ∃ count, Takes readCount count t.utf8ByteSize ∧
      bs = count ++ Text.utf8 t.toList ++ rest := by
  simp only [readString, bind, Except.bind] at h
  cases hcount : readCount bs with
  | error e =>
    simp only [hcount] at h
    cases h
  | ok c =>
    obtain ⟨front, hfront, htakes⟩ := exact_readCount _ _ _ hcount
    simp only [hcount] at h
    cases hraw : takeBytes c.1 Codec.string.name c.2 with
    | error e =>
      simp only [hraw] at h
      cases h
    | ok r =>
      obtain ⟨hlen, hr⟩ := eq_append_of_takeBytes hraw
      simp only [hraw] at h
      cases hcs : Text.decodeUtf8 r.1 with
      | error why =>
        simp only [hcs] at h
        cases h
      | ok cs =>
        simp only [hcs] at h
        cases h
        have hutf8 : r.1 = Text.utf8 (String.ofList cs).toList := by
          rw [String.toList_ofList]
          exact Text.eq_utf8_of_decodeUtf8 hcs
        have hsize : (String.ofList cs).utf8ByteSize = c.1 := by
          rw [← Text.length_utf8_toList, ← hutf8, hlen]
        refine ⟨?_, front, ?_, ?_⟩
        · rw [hsize]
          exact le_maxLength_of_readCount hcount
        · rwa [hsize]
        · rw [hfront, hr, ← hutf8, List.append_assoc]

theorem exact_readString : Exact readString := by
  intro bs t rest h
  obtain ⟨-, count, htakes, hbs⟩ := exists_of_readString h
  exact ⟨count ++ Text.utf8 t.toList, hbs, takes_readString_of_count htakes⟩

theorem failsByInput_readString : FailsByInput readString := by
  refine fun _ _ => failsByInput_readCount.bind fun p f => ?_
  refine (failsByInput_takeBytes p.1 Codec.string.name).bind fun q f hf => ?_
  dsimp only at hf
  split at hf
  · cases hf
  · cases hf
    rfl

end WireSchema
