import Mathlib
import WireSchema.Proofs.Layout.Relating
import WireSchema.Proofs.Wire.Corresponding
import WireSchema.Proofs.Wire.Makeable

/-!
# Names and the wire

Names of types, variants and fields decide nothing about what is written or read, but for those that
the language has given away. They decide whether the classes can be made.
-/

namespace WireSchema

namespace Layout

variable {S S' : Layout}

/-- By a schema with other names, values with other names are written as they were. What is read is
what was read with other names, with the same rest, or fails as before, unless a name of the language
is given to a type or taken from one. -/
theorem codes_of_renamed [Text.CharacterNames] {text text' : String} {s s' : Schema}
    (hs : Schema.parse text = .ok s) (hs' : Schema.parse text' = .ok s') (hS : ofText text = .ok S)
    (hS' : ofText text' = .ok S') (hH : S.HookFree) {ρ : Renaming}
    (hρ : s'.unplaced = (ρ.schema s).unplaced)
    (hrecords : ∀ r ∈ s.records, ρ.KeepsPositions r.name r.fields)
    (hunions : ∀ u ∈ s.unions, ∀ v ∈ u.variants,
      ρ.KeepsPositions (u.name ++ "." ++ v.name) v.fields) (H H' : Hooks) :
    (∀ (c : Codec) v, S.Made v → ∀ t,
        ((ρ.codec c).encode (S'.objects (S'.encode H')) (ρ.value v) t).toOption =
          (c.encode (S.objects (S.encode H)) v t).toOption) ∧
      (ρ.KeepsBuiltins S.names → ∀ c, S.Admits c → ∀ t,
        (∃ v u, c.decode (S.decode H) t = .ok (v, u) ∧
          (ρ.codec c).decode (S'.decode H') t = .ok (ρ.value v, u)) ∨
        ∃ e e', c.decode (S.decode H) t = .error e ∧
          (ρ.codec c).decode (S'.decode H') t = .error e' ∧ e'.fault.kind = e.fault.kind) ∧
      (S'.isMakeable = true ↔ (ρ.schema s).Makeable) := by
  have hwf := wellFormed_of_ofText hS
  have hwf' := wellFormed_of_ofText hS'
  have hrewritten : s.RewrittenAs ρ false false s' := by
    have hgrown := hρ
    rw [← Schema.grow_nil (ρ.schema s)] at hgrown
    exact Schema.rewrittenAs_of_unplaced hgrown (fun _ => rfl) hrecords hunions
  have M := mirroredBy_of_ofText hs hs' hrewritten hS hS'
  refine ⟨fun c v hv t => ?_, fun hkeeps c hc t => ?_,
    isMakeable_iff_of_unplaced_eq hs' hS' (M.hookFree hH) hρ⟩
  · exact M.toOption_codec hwf hwf' hH H H' c hv (Renaming.alike_value ρ false v) t
  · have hcorresponds := M.corresponds_of_keepsBuiltins hwf hwf' hH H H' hkeeps hc t
    rcases hcorresponds.exists_of_not nofun with ⟨v, v', u, hv, hv', halike⟩ | hfailed
    · exact .inl ⟨v, u, hv, halike.eq_value ▸ hv'⟩
    · exact .inr hfailed

/-- A union, its variant and its field with other names. -/
theorem codes_of_renamed_of_variant :
    let text := "@codec(inferred_values) union U \x7b A \x7b x: u8 \x7d \x7d"
    let text' := "@codec(inferred_values) union W \x7b B \x7b y: u8 \x7d \x7d"
    let ρ : Renaming := ⟨fun _ => "W", fun _ _ => "B", fun _ _ => "y"⟩
    let v := Value.object (.variant "U" "A") [("x", .int 7)]
    let w := Value.object (.variant "W" "B") [("y", .int 7)]
    ∃ S S', ofText text = .ok S ∧ S.HookFree ∧ ofText text' = .ok S' ∧ S'.isMakeable = true ∧
      ρ.value v = w ∧ ∃ t u, S.encoded Hooks.empty v = .ok t ∧ S'.encoded Hooks.empty w = .ok t ∧
        S.decodeFrom Hooks.empty "U" t.bytes.toList = .ok (v, u) ∧
        S'.decodeFrom Hooks.empty "W" t.bytes.toList = .ok (w, u) := by
  intro text text' ρ v w
  obtain ⟨S, hS, h⟩ := exists_of_any_ofText text
    (fun S => S.HookFree && S.KeepsBuiltins && S.names = ["U"] && (S.variant? "U" "A").any fun x =>
      x.2.variant.fields.map (fun f => (f.ident, f.codec)) = [("x", .int .u8)])
    (by decide +kernel)
  obtain ⟨S', hS', -⟩ := exists_of_any_ofText text' (fun _ => true) (by decide +kernel)
  simp only [Bool.and_eq_true, Option.any_eq_true, decide_eq_true_eq] at h
  obtain ⟨⟨⟨hhooks, hkeeps⟩, hnames⟩, x, hx, hfields⟩ := h
  have hwf := wellFormed_of_ofText hS
  have htyped : S.HasType maxEmptyItems (.declared "U") v :=
    .variant_of_single hx hfields (.int (by decide) (by decide))
  obtain ⟨s, s', hread, hread', hunescape, hunescape', hρ, hrecords, hnamed, hmakes⟩ :
      ∃ s s', Schema.read text = .ok s ∧ Schema.read text' = .ok s' ∧ s.unescape? = some s ∧
        s'.unescape? = some s' ∧ s'.unplaced = (ρ.schema s).unplaced ∧ s.records = [] ∧
        (∀ u ∈ s.unions, ∀ v ∈ u.variants, ∀ f ∈ v.fields, f.name ≠ none) ∧
        (ρ.schema s).Makeable := by
    exact ⟨_, _, by cbv, by cbv, by rfl, by rfl, by rfl, by rfl, by decide +kernel, by decide +kernel⟩
  obtain ⟨hencode, hdecode, hmakeable⟩ :=
    codes_of_renamed (parse_of_ofText hS hread hunescape) (parse_of_ofText hS' hread' hunescape') hS
      hS' hhooks hρ (by simp [hrecords])
      (fun u hu v hv f hf hnone => absurd hnone (hnamed u hu v hv f hf)) Hooks.empty Hooks.empty
  have hadmits : S.Admits (.declared "U") := .declared htyped.mem_names
  have hkept : ρ.KeepsBuiltins S.names := by
    intro type htype
    rw [hnames, List.mem_singleton] at htype
    rw [htype]
    decide
  have hreset : S.reset v = v := by
    simp [v, reset, resetFields, ignoredDefault?]
  have hvalue : ρ.value v = w := by
    simp [v, w, ρ, Renaming.value, Renaming.members, Renaming.ownerOf]
  obtain ⟨t, u, ht, -, hdecoded, -⟩ :=
    (roundTrips_of_keepsBuiltins (H := Hooks.empty) hwf hhooks hkeeps htyped hadmits).exists_encoded []
  rw [List.append_nil, hreset] at hdecoded
  have ht' := hencode (.declared "U") v htyped.made {}
  change (S'.encoded Hooks.empty (ρ.value v)).toOption = (S.encoded Hooks.empty v).toOption at ht'
  rw [ht, hvalue] at ht'
  refine ⟨S, S', hS, hhooks, hS', hmakeable.2 hmakes, hvalue, t, u, ht,
    toOption_eq_some_iff.1 ht', hdecoded, ?_⟩
  rcases hdecode hkept _ hadmits (.ofOrigin { bytes := t.bytes.toList }) with
    ⟨v', u', hread, hread'⟩ | ⟨e, e', hfailed, -⟩
  · obtain ⟨rfl, rfl⟩ := Prod.mk.inj (Except.ok.inj (hread.symm.trans hdecoded))
    rw [hvalue] at hread'
    exact hread'
  · cases hdecoded.symm.trans hfailed

/-- Under another name the class of a record is not made: a field goes by the name of the request and
is in front of another. -/
theorem not_isMakeable_of_renamed :
    let text := "struct A \x7b m: u8 y: u8 \x7d"
    let text' := "struct A \x7b mro: u8 y: u8 \x7d"
    let ρ : Renaming := ⟨fun name => name, fun _ name => name,
      fun _ name => if name = "m" then "mro" else name⟩
    ∃ S S' s s', ofText text = .ok S ∧ S.HookFree ∧ S.isMakeable = true ∧ ofText text' = .ok S' ∧
      S'.HookFree ∧ Schema.parse text = .ok s ∧ Schema.parse text' = .ok s' ∧
      s'.unplaced = (ρ.schema s).unplaced ∧ S'.isMakeable = false := by
  intro text text' ρ
  obtain ⟨S, hS, h⟩ := exists_of_any_ofText text (fun S => S.HookFree && S.isMakeable)
    (by decide +kernel)
  obtain ⟨S', hS', h'⟩ := exists_of_any_ofText text' (fun S => S.HookFree && !S.isMakeable)
    (by decide +kernel)
  rw [Bool.and_eq_true, decide_eq_true_eq] at h
  rw [Bool.and_eq_true, decide_eq_true_eq, Bool.not_eq_true'] at h'
  obtain ⟨s, s', hread, hread', hunescape, hunescape', hρ⟩ :
      ∃ s s', Schema.read text = .ok s ∧ Schema.read text' = .ok s' ∧ s.unescape? = some s ∧
        s'.unescape? = some s' ∧ s'.unplaced = (ρ.schema s).unplaced := by
    exact ⟨_, _, by cbv, by cbv, by rfl, by rfl, by rfl⟩
  exact ⟨S, S', s, s', hS, h.1, h.2, hS', h'.1, parse_of_ofText hS hread hunescape,
    parse_of_ofText hS' hread' hunescape', hρ, h'.2⟩

end Layout

end WireSchema
