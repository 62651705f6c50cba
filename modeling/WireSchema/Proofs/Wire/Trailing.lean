import WireSchema.Proofs.Wire.Meaning

/-!
# What follows a value

Bytes behind a value stay where they are, and do not change what is read. The limits on counts look
at how many bytes remain, and more bytes only make them wider. So input that goes on where other
input ends is read in the same way, unless the shorter one is found to be at fault.

This also tells what a part from the front of an encoding is read as. If there were a value in it,
the bytes behind it would remain in the whole; if references went on without end, they would do so
in the whole. So the input is at fault.
-/

namespace WireSchema

namespace Layout

variable {S : Layout}

section

variable (hS : S.WellFormed) (hH : S.HookFree) {H : Hooks} {name : String} (hname : name ∈ S.names)
include hS hH hname

/-- Input that goes on behind its end is read as it was, unless it was found to be at fault. -/
theorem decodeFrom_agree (front tail : List UInt8) :
    Read.Agree (Source.ProlongedBy (.ofOrigin { bytes := front ++ tail }) tail)
      (fun h => h.fault.kind = .input) (S.decodeFrom H name front)
      (S.decodeFrom H name (front ++ tail)) :=
  decode_follows hS hH (B := S.builtins) H (steady_prolongedBy _ tail) name hname _ _ rfl

theorem decodeFrom_append {bytes : List UInt8} {v : Value} {rest : Source}
    (h : S.decodeFrom H name bytes = .ok (v, rest)) (tail : List UInt8) :
    ∃ rest', S.decodeFrom H name (bytes ++ tail) = .ok (v, rest') ∧
      rest'.bytes = rest.bytes ++ tail := by
  obtain ⟨rest', hrest', rfl⟩ := (decodeFrom_agree hS hH hname bytes tail).eq_of_ok h
  exact ⟨_, hrest', rfl⟩

/-- Less than what was taken for a value is at fault. -/
theorem decodeFrom_of_cut {bytes front : List UInt8} {v : Value} {rest : Source}
    (h : S.decodeFrom H name bytes = .ok (v, rest)) (hrest : rest.bytes = [])
    (hfront : front <+: bytes) (hne : front ≠ bytes) :
    ∃ h, S.decodeFrom H name front = .error h ∧ h.fault.ofInput = true := by
  obtain ⟨tail, rfl⟩ := hfront
  have hagree := decodeFrom_agree hS hH hname (H := H) front tail
  rw [h] at hagree
  generalize S.decodeFrom H name front = x at hagree
  cases hagree with
  | @found w s _ ht =>
    -- the bytes that were cut off would still remain
    rw [ht] at hrest
    obtain ⟨-, rfl⟩ := List.append_eq_nil_iff.1 hrest
    exact absurd (List.append_nil front).symm hne
  | excused _ hinput => exact ⟨_, rfl, by simpa [Fault.ofInput] using hinput⟩

end

/-- Bytes behind a value do not change what is read, and remain. Of what a value is written as, no
part from the front but the whole is read: the input is at fault, if no type takes a name of the
language. -/
theorem decodeFrom_exact [Text.CharacterNames] {text : String} (hS : ofText text = .ok S)
    (hH : S.HookFree) (H : Hooks) {name : String} (hname : name ∈ S.names) :
    (∀ bytes v rest, S.decodeFrom H name bytes = .ok (v, rest) → ∀ tail,
      ∃ rest', S.decodeFrom H name (bytes ++ tail) = .ok (v, rest') ∧
        rest'.bytes = rest.bytes ++ tail) ∧
    (S.KeepsBuiltins →
      ∀ v, S.HasType maxEmptyItems (.declared name) v → ∃ s, S.encoded H v = .ok s ∧
        ∀ front, front <+: s.bytes.toList → front ≠ s.bytes.toList →
          ∃ h, S.decodeFrom H name front = .error h ∧ h.fault.ofInput = true) := by
  have hwf := wellFormed_of_ofText hS
  refine ⟨fun bytes v rest h => decodeFrom_append hwf hH hname h, fun hB v hv => ?_⟩
  have hround := roundTrips_of_keepsBuiltins (H := H) hwf hH hB hv (.declared hname)
  obtain ⟨s, t, hs, -, ht, hrest, -⟩ := hround.exists_encoded []
  rw [List.append_nil] at ht
  exact ⟨s, hs, fun front => decodeFrom_of_cut hwf hH hname ht hrest⟩

/-- A list of two numbers, behind its count. -/
theorem decodeFrom_exact_of_list :
    let text := "struct R \x7b items: list<u8> \x7d"
    let v := Value.object (.record "R") [("items", .list [.int 5, .int 6])]
    ∃ S, ofText text = .ok S ∧ S.HookFree ∧ S.KeepsBuiltins ∧
      S.HasType maxEmptyItems (.declared "R") v ∧
      (∀ bytes w rest, S.decodeFrom Hooks.empty "R" bytes = .ok (w, rest) → ∀ tail,
        ∃ rest', S.decodeFrom Hooks.empty "R" (bytes ++ tail) = .ok (w, rest') ∧
          rest'.bytes = rest.bytes ++ tail) ∧
      ∃ s, S.encoded Hooks.empty v = .ok s ∧
        ∀ front, front <+: s.bytes.toList → front ≠ s.bytes.toList →
          ∃ h, S.decodeFrom Hooks.empty "R" front = .error h ∧ h.fault.ofInput = true := by
  intro text v
  obtain ⟨S, hS, h⟩ := exists_of_any_ofText text
    (fun S => S.HookFree && S.KeepsBuiltins && (S.record? "R").any fun r =>
      r.fields.map (fun l => l.field.ident) = ["items"] ∧
      ∀ f ∈ r.wireFields, f.codec = .list (.int .u8))
    (by decide +kernel)
  simp only [Bool.and_eq_true, Option.any_eq_true, decide_eq_true_eq] at h
  obtain ⟨⟨hhooks, hkeeps⟩, r, hr, hidents, hcodec⟩ := h
  have hv : S.HasType maxEmptyItems (.declared "R") v := by
    refine .record_of_single hr hidents hcodec ?_
    refine .list (by decide) (fun _ => by decide) fun w hw => ?_
    simp only [List.mem_cons, List.not_mem_nil, or_false] at hw
    rcases hw with rfl | rfl <;> exact .int (by decide) (by decide)
  obtain ⟨happend, hcut⟩ := decodeFrom_exact hS hhooks Hooks.empty hv.mem_names
  exact ⟨S, hS, hhooks, hkeeps, hv, happend, hcut hkeeps v hv⟩

end Layout

end WireSchema
