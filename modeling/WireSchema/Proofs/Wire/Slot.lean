import WireSchema.Wire.Codec

/-!
# Slots and formats

A codec of fixed width writes and reads what its slot in a format does: the same values are refused,
and the same bytes stand for the same values. What a format packs takes up as many bytes as the
format says, and what it unpacks is unpacked slot by slot.
-/

namespace WireSchema

/-! ## Slots and codecs -/

namespace Slot

/-- A slot of a number is filled as the codec of its kind writes. -/
theorem eq_of_slot?_int {k : IntKind} {slot : Slot} (h : (Codec.int k).slot? = some slot) :
    (∀ v, pack? v slot = v.integer?.bind k.encode?) ∧ slot.size = k.size ∧
      (∀ bs, slot.unpack bs = .int (k.decode bs)) ∧ slot ≠ flag := by
  cases k <;> cases h <;> refine ⟨fun _ => rfl, rfl, fun _ => rfl, by decide⟩

end Slot

namespace Codec

variable {c : Codec} {slot : Slot}

/-- A codec with a slot is that of truth values or of a kind of numbers. -/
theorem eq_of_slot? (h : c.slot? = some slot) :
    c = .bool ∧ slot = .flag ∨ ∃ k, c = .int k := by
  cases c with
  | int k => exact .inr ⟨k, rfl⟩
  | bool =>
    cases h
    exact .inl ⟨rfl, rfl⟩
  | _ => cases h

/-- What a codec with a slot writes is what the slot is filled with. -/
theorem encode_of_pack? (h : c.slot? = some slot) {v : Value} {bs : List UInt8}
    (hv : slot.pack? v = some bs) (O : Objects) (s : Sink) :
    c.encode O v s = .ok (s.append bs) := by
  obtain ⟨rfl, rfl⟩ | ⟨k, rfl⟩ := eq_of_slot? h
  · cases hv
    rfl
  · rw [(Slot.eq_of_slot?_int h).1] at hv
    simp only [encode, writeInt_eq, hv]
    rfl

/-- A codec with a slot refuses what the slot cannot be filled with. -/
theorem encode_of_pack?_eq_none (h : c.slot? = some slot) {v : Value}
    (hv : slot.pack? v = none) (O : Objects) (s : Sink) :
    slot ≠ .flag ∧ c.encode O v s =
      .error (if O.knows v numberRequest then .wrongKind
        else .showing [v] (.notRepresentable v c.name), s) := by
  obtain ⟨rfl, rfl⟩ | ⟨k, rfl⟩ := eq_of_slot? h
  · cases hv
  · obtain ⟨hpack, -, -, hne⟩ := Slot.eq_of_slot?_int h
    rw [hpack] at hv
    refine ⟨hne, ?_⟩
    simp only [encode, writeInt_eq, hv]
    rfl

/-- What a codec with a slot reads is what stands in the slot. -/
theorem decode_of_slot? (h : c.slot? = some slot) (declared : String → Read Value) (s : Source) :
    c.decode declared s =
      if s.bytes.length < slot.size then
        .error ⟨.shortInput c.name slot.size s.bytes.length, s.log⟩
      else
        .ok (slot.unpack (s.bytes.take slot.size), { s with bytes := s.bytes.drop slot.size }) := by
  obtain ⟨rfl, rfl⟩ | ⟨k, rfl⟩ := eq_of_slot? h
  · have hsize : Slot.flag.size = 1 := rfl
    rw [hsize]
    by_cases hs : s.bytes.length < 1
    · simp only [decode, Read.lift, readBool, takeBytes_eq, if_pos hs]
      rfl
    · simp only [decode, Read.lift, readBool, takeBytes_eq, if_neg hs]
      rfl
  · obtain ⟨-, hsize, hunpack, -⟩ := Slot.eq_of_slot?_int h
    rw [hsize]
    by_cases hs : s.bytes.length < k.size
    · simp only [decode, Read.lift, readInt_eq, takeBytes_eq, if_pos hs]
      rfl
    · simp only [decode, Read.lift, readInt_eq, takeBytes_eq, if_neg hs, hunpack]
      rfl

end Codec

/-! ## Formats -/

namespace Slot

theorem length_of_pack? {slot : Slot} {v : Value} {bs : List UInt8}
    (h : slot.pack? v = some bs) : bs.length = slot.size := by
  cases slot with
  | flag =>
    cases h
    rfl
  | _ =>
    obtain ⟨n, -, hn⟩ := Option.bind_eq_some_iff.1 h
    exact length_of_encodeInt? hn

end Slot

namespace Format

@[simp] theorem size_nil : size [] = 0 := rfl

@[simp] theorem size_cons (slot : Slot) (f : Format) : size (slot :: f) = slot.size + f.size := rfl

theorem packAll?_cons_some {slot : Slot} {f : Format} {v : Value} {vs : List Value}
    {bs : List UInt8} (h : slot.pack? v = some bs) :
    packAll? (slot :: f) (v :: vs) = (f.packAll? vs).map (bs ++ ·) := by
  rw [packAll?, h]
  cases packAll? f vs <;> rfl

theorem packAll?_cons_none {slot : Slot} {f : Format} {v : Value} {vs : List Value}
    (h : slot.pack? v = none) : packAll? (slot :: f) (v :: vs) = none := by
  rw [packAll?, h]

/-- What is packed takes up as many bytes as the format says. -/
theorem length_of_packAll? {f : Format} {vs : List Value} {bs : List UInt8}
    (h : f.packAll? vs = some bs) : bs.length = f.size := by
  induction f generalizing vs bs with
  | nil =>
    cases vs with
    | nil =>
      cases h
      rfl
    | cons v vs => cases h
  | cons slot f ih =>
    cases vs with
    | nil => cases h
    | cons v vs =>
      cases hv : slot.pack? v with
      | none =>
        rw [packAll?_cons_none hv] at h
        cases h
      | some front =>
        rw [packAll?_cons_some hv] at h
        obtain ⟨rest, hrest, rfl⟩ := Option.map_eq_some_iff.1 h
        rw [List.length_append, Slot.length_of_pack? hv, ih hrest, size_cons]

theorem length_of_pack {f : Format} {vs : List Value} {bs : List UInt8}
    (h : f.pack vs = .ok bs) : bs.length = f.size := by
  unfold pack at h
  split at h
  next hbs =>
    cases h
    exact length_of_packAll? hbs
  next => cases h

/-- The values of the slots behind the first are read from the bytes behind its own. -/
theorem unpackAll_cons_take (slot : Slot) (f : Format) (bs : List UInt8) :
    unpackAll (slot :: f) (bs.take (size (slot :: f))) =
      slot.unpack (bs.take slot.size) :: f.unpackAll ((bs.drop slot.size).take f.size) := by
  rw [unpackAll, List.take_take, List.drop_take, size_cons, Nat.min_eq_left (by omega),
    Nat.add_sub_cancel_left]

theorem unpack_size (f : Format) (bs : List UInt8) :
    f.unpack f.size bs =
      if bs.length < f.size then .error (.shortInput f.text f.size bs.length)
      else .ok (f.unpackAll (bs.take f.size), bs.drop f.size) := by
  rw [unpack, takeBytes_eq]
  by_cases h : bs.length < f.size
  · rw [if_pos h, if_pos h]
    rfl
  · rw [if_neg h, if_neg h]
    change (if f.size = f.size then _ else _) = _
    rw [if_pos rfl]
    rfl

end Format

end WireSchema
