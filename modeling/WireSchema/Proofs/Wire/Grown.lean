import Mathlib
import WireSchema.Proofs.Layout.Relating
import WireSchema.Proofs.Wire.Corresponding
import WireSchema.Proofs.Wire.Makeable

/-!
# Unions with more variants

More variants behind those that a union has leave everything as it was: the tags of the variants, what
is written for values, and what is read from inputs that can be read without them.
-/

namespace WireSchema

namespace Layout

variable {S S' : Layout}

/-- Corresponding variants have the same tag. -/
theorem MirroredBy.tag_value {ρ : Renaming} {free grown : Bool} (M : S.MirroredBy ρ free grown S')
    (hS' : S'.WellFormed) {v : Value} {n : Nat} (h : S.tag v = .ok n) :
    S'.tag (ρ.value v) = .ok n := by
  cases v with
  | object owner fields =>
    cases owner with
    | record name => cases h
    | variant union name =>
      rw [tag] at h
      split at h
      next u x hx =>
        cases h
        obtain ⟨hu, rfl, hmem, rfl⟩ := mem_of_variant? hx
        obtain ⟨u', hu', huu'⟩ := exists_right_of_forall₂ M.unions hu
        obtain ⟨x', hx', hxx'⟩ := huu'.variants x hmem
        have hfound := hS'.variant?_eq_some hu' hx'
        rw [huu'.name, hxx'.name] at hfound
        simp only [Renaming.value, Renaming.ownerOf, tag, hfound, hxx'.tag]
      next => cases h
  | _ => cases h

/-- In a schema whose unions have more variants behind those they had, the old variants have the tags
they had, values that could be made before are written as before, and what could be read before is
read as before. Its classes can be made if the new variants put no field named `mro` in front of
another, and none stands behind a union with the name `classmethod`. -/
theorem codes_of_grown [Text.CharacterNames] {text text' : String} {s s' : Schema}
    (hs : Schema.parse text = .ok s) (hs' : Schema.parse text' = .ok s') (hS : ofText text = .ok S)
    (hS' : ofText text' = .ok S') (hH : S.HookFree) {more : String → List Variant}
    (hmore : s'.unplaced = (s.grow more).unplaced) (H H' : Hooks) :
    (∀ v n, S.tag v = .ok n → S'.tag v = .ok n) ∧
      (∀ (c : Codec) v, S.Made v → ∀ t,
        (c.encode (S'.objects (S'.encode H')) v t).toOption =
          (c.encode (S.objects (S.encode H)) v t).toOption) ∧
      (∀ c, S.Admits c → ∀ t v u, c.decode (S.decode H) t = .ok (v, u) →
        c.decode (S'.decode H') t = .ok (v, u)) ∧
      (S.isMakeable = true → (S'.isMakeable = true ↔
        ∀ u ∈ s.unions, (∀ v ∈ more u.name, MroLast v.fields) ∧
          (u.name = "classmethod" → more u.name = []))) := by
  have hwf := wellFormed_of_ofText hS
  have hwf' := wellFormed_of_ofText hS'
  have hrewritten : s.RewrittenAs .keep false true s' := by
    have hgrown := hmore
    rw [← Renaming.schema_keep s] at hgrown
    exact Schema.rewrittenAs_of_unplaced hgrown nofun
      (fun _ _ => Renaming.keepsPositions_keep _ _)
      fun _ _ _ _ => Renaming.keepsPositions_keep _ _
  have M := mirroredBy_of_ofText hs hs' hrewritten hS hS'
  refine ⟨fun v n hn => ?_, fun c v hv t => ?_, fun c hc t v u hread => ?_, fun hmakeable => ?_⟩
  · rw [← Renaming.value_keep v]
    exact M.tag_value hwf' hn
  · have halike := Renaming.alike_value .keep false v
    rw [Renaming.value_keep] at halike
    have heq := M.toOption_codec hwf hwf' hH H H' c hv halike t
    rwa [Renaming.codec_keep] at heq
  · have hcorresponds :=
      M.corresponds_of_keepsBuiltins hwf hwf' hH H H' (Renaming.keepsBuiltins_keep _) hc t
    rw [Renaming.codec_keep, hread] at hcorresponds
    generalize c.decode (S'.decode H') t = y at hcorresponds
    cases hcorresponds with
    | found s halike => rw [halike.eq_value, Renaming.value_keep]
  · rw [isMakeable_iff_of_unplaced_eq hs hS hH rfl] at hmakeable
    rw [isMakeable_iff_of_unplaced_eq hs' hS' (M.hookFree hH) hmore]
    exact Schema.makeable_grow hmakeable

/-- A third variant behind two, all with inferred tags. -/
theorem codes_of_grown_of_third_variant :
    let text := "@codec(inferred_values) union U \x7b A \x7b x: u8 \x7d B \x7d"
    let text' := "@codec(inferred_values) union U \x7b A \x7b x: u8 \x7d B C \x7b y: u8 \x7d \x7d"
    let v := Value.object (.variant "U" "A") [("x", .int 7)]
    ∃ S S', ofText text = .ok S ∧ S.HookFree ∧ ofText text' = .ok S' ∧ S'.isMakeable = true ∧
      S'.tag v = .ok 0 ∧ ∃ t u, S.encoded Hooks.empty v = .ok t ∧ S'.encoded Hooks.empty v = .ok t ∧
        S.decodeFrom Hooks.empty "U" t.bytes.toList = .ok (v, u) ∧
        S'.decodeFrom Hooks.empty "U" t.bytes.toList = .ok (v, u) := by
  intro text text' v
  obtain ⟨S, hS, h⟩ := exists_of_any_ofText text
    (fun S => S.HookFree && S.KeepsBuiltins && S.isMakeable &&
      (S.variant? "U" "A").any fun x => x.2.tag = 0 ∧
      x.2.variant.fields.map (fun f => (f.ident, f.codec)) = [("x", .int .u8)])
    (by decide +kernel)
  obtain ⟨S', hS', -⟩ := exists_of_any_ofText text' (fun _ => true) (by decide +kernel)
  simp only [Bool.and_eq_true, Option.any_eq_true, decide_eq_true_eq] at h
  obtain ⟨⟨⟨hhooks, hkeeps⟩, hmakeable⟩, x, hx, htag, hfields⟩ := h
  have hwf := wellFormed_of_ofText hS
  have htyped : S.HasType maxEmptyItems (.declared "U") v :=
    .variant_of_single hx hfields (.int (by decide) (by decide))
  obtain ⟨s, s', c, hread, hread', hunescape, hunescape', hmore, hlast, hnames⟩ :
      ∃ s s' c, Schema.read text = .ok s ∧ Schema.read text' = .ok s' ∧
        s.unescape? = some s ∧ s'.unescape? = some s' ∧
        s'.unplaced = (s.grow fun _ => [c]).unplaced ∧ MroLast c.fields ∧
        ∀ u ∈ s.unions, u.name = "U" := by
    exact ⟨_, _, ⟨"C", .named, [⟨some "y", 0, .named "u8", [], .start⟩], none, [], .start⟩, by cbv,
      by cbv, by rfl, by rfl, by rfl, by decide +kernel, by decide +kernel⟩
  obtain ⟨htags, hencode, hdecode, hmakeable'⟩ :=
    codes_of_grown (parse_of_ofText hS hread hunescape) (parse_of_ofText hS' hread' hunescape') hS
      hS' hhooks hmore Hooks.empty Hooks.empty
  have hadmits : S.Admits (.declared "U") := .declared htyped.mem_names
  have hreset : S.reset v = v := by
    simp [v, reset, resetFields, ignoredDefault?]
  obtain ⟨t, u, ht, -, hdecoded, -⟩ :=
    (roundTrips_of_keepsBuiltins (H := Hooks.empty) hwf hhooks hkeeps htyped hadmits).exists_encoded []
  rw [List.append_nil, hreset] at hdecoded
  have ht' := hencode (.declared "U") v htyped.made {}
  change (S'.encoded Hooks.empty v).toOption = (S.encoded Hooks.empty v).toOption at ht'
  rw [ht] at ht'
  refine ⟨S, S', hS, hhooks, hS', (hmakeable' hmakeable).2 fun u hu => ⟨fun v hv => ?_, fun hu' => ?_⟩,
    htags v 0 ?_, t, u, ht, toOption_eq_some_iff.1 ht', hdecoded, hdecode _ hadmits _ v u hdecoded⟩
  · rw [List.mem_singleton.1 hv]
    exact hlast
  · rw [hnames u hu] at hu'
    exact absurd hu' (by decide)
  · simp only [tag, v, hx]
    exact congrArg Except.ok htag

/-- With one more variant the classes are not made: a field that goes by the name of the request is in
front of another. -/
theorem not_isMakeable_of_grown :
    let text := "@codec(inferred_values) union U \x7b A \x7d"
    let text' := "@codec(inferred_values) union U \x7b A B \x7b mro: u8 y: u8 \x7d \x7d"
    ∃ S S' s s' c, ofText text = .ok S ∧ S.HookFree ∧ S.isMakeable = true ∧
      ofText text' = .ok S' ∧ S'.HookFree ∧ Schema.parse text = .ok s ∧
      Schema.parse text' = .ok s' ∧ s'.unplaced = (s.grow fun _ => [c]).unplaced ∧
      S'.isMakeable = false := by
  intro text text'
  obtain ⟨S, hS, h⟩ := exists_of_any_ofText text (fun S => S.HookFree && S.isMakeable)
    (by decide +kernel)
  obtain ⟨S', hS', h'⟩ := exists_of_any_ofText text' (fun S => S.HookFree && !S.isMakeable)
    (by decide +kernel)
  rw [Bool.and_eq_true, decide_eq_true_eq] at h
  rw [Bool.and_eq_true, decide_eq_true_eq, Bool.not_eq_true'] at h'
  obtain ⟨s, s', c, hread, hread', hunescape, hunescape', hmore⟩ :
      ∃ s s' c, Schema.read text = .ok s ∧ Schema.read text' = .ok s' ∧
        s.unescape? = some s ∧ s'.unescape? = some s' ∧
        s'.unplaced = (s.grow fun _ => [c]).unplaced := by
    exact ⟨_, _, ⟨"B", .named, [⟨some "mro", 0, .named "u8", [], .start⟩,
      ⟨some "y", 1, .named "u8", [], .start⟩], none, [], .start⟩, by cbv, by cbv, by rfl, by rfl,
      by rfl⟩
  exact ⟨S, S', s, s', c, hS, h.1, h.2, hS', h'.1, parse_of_ofText hS hread hunescape,
    parse_of_ofText hS' hread' hunescape', hmore, h'.2⟩

end Layout

end WireSchema
