import WireSchema.Proofs.Layout.Parsed
import WireSchema.Proofs.Layout.Relating
import WireSchema.Proofs.Wire.Callable
import WireSchema.Schema.Unplaced
import WireSchema.Wire.Makeable

/-!
# When classes can be made

Without hooks it is up to the names in the schema whether the classes of its layout can be made, and
not to the places of the declarations. What changes with the order of fields is only whether one named
`mro` is the last, and with more variants whether there is a class behind a union.
-/

namespace WireSchema

theorem map_ident_unplaced (fields : List Field) :
    (fields.map Field.unplaced).map Field.ident = fields.map Field.ident :=
  List.map_map

theorem mroLast_unplaced {fields : List Field} :
    MroLast (fields.map Field.unplaced) ↔ MroLast fields := by
  rw [MroLast, MroLast, map_ident_unplaced]

/-- How many values are taken by position is not a matter of the order of the names. -/
theorem takesOne_of_perm {names names' : List String} (h : names'.Perm names) :
    takesOne names' = takesOne names := by
  have hempty : names'.isEmpty = names.isEmpty := by
    rw [Bool.eq_iff_iff, List.isEmpty_iff_length_eq_zero, List.isEmpty_iff_length_eq_zero,
      h.length_eq]
  rw [takesOne, takesOne, hempty, (h.filter (· ≠ mroName)).length_eq]

namespace Schema

theorem names_unplaced (s : Schema) : s.unplaced.names = s.names := by
  rw [names_eq_append, names_eq_append, unplaced, List.map_map, List.map_map]
  rfl

/-- Where the declarations stand does not matter. -/
theorem makeable_unplaced {s : Schema} : s.unplaced.Makeable ↔ s.Makeable := by
  rw [makeable_iff, makeable_iff, names_unplaced]
  simp only [unplaced, List.forall_mem_map, Record.unplaced, Union.unplaced, Variant.unplaced,
    mroLast_unplaced, map_ident_unplaced, List.length_map]

theorem makeable_iff_of_unplaced_eq {s s' : Schema} (h : s'.unplaced = s.unplaced) :
    s'.Makeable ↔ s.Makeable := by
  rw [← makeable_unplaced, h, makeable_unplaced]

/-- With the fields of one record in another order, the classes can be made as before unless one named
`mro` is in front now. -/
theorem makeable_replace {s : Schema} {before after : List Record} {r r₁ : Record}
    (hs : s.records = before ++ r :: after) (hname : r₁.name = r.name)
    (hperm : (r₁.fields.map Field.ident).Perm (r.fields.map Field.ident)) (h : s.Makeable) :
    { s with records := before ++ r₁ :: after }.Makeable ↔ MroLast r₁.fields := by
  have hnames : Schema.names { s with records := before ++ r₁ :: after } = s.names := by
    rw [names_eq_append, names_eq_append, hs]
    simp only [List.map_append, List.map_cons, hname]
  obtain ⟨hrecords, hunions⟩ := makeable_iff.1 h
  rw [hs, List.forall_mem_append, List.forall_mem_cons] at hrecords
  obtain ⟨hbefore, ⟨-, hr⟩, hafter⟩ := hrecords
  rw [makeable_iff, hnames, List.forall_mem_append, List.forall_mem_cons, takesOne_of_perm hperm,
    hname]
  exact ⟨fun h => h.1.2.1.1, fun h => ⟨⟨hbefore, ⟨h, hr⟩, hafter⟩, hunions⟩⟩

theorem names_grow (s : Schema) (more : String → List Variant) : (s.grow more).names = s.names := by
  rw [names_eq_append, names_eq_append, grow, List.map_map]
  rfl

/-- With more variants, the classes can be made as before if those of the new variants can, and none of
them stands behind a union with the name `classmethod`. -/
theorem makeable_grow {s : Schema} {more : String → List Variant} (h : s.Makeable) :
    (s.grow more).Makeable ↔
      ∀ u ∈ s.unions, (∀ v ∈ more u.name, MroLast v.fields) ∧
        (u.name = "classmethod" → more u.name = []) := by
  obtain ⟨hrecords, hunions⟩ := makeable_iff.1 h
  rw [makeable_iff, names_grow]
  simp only [grow, List.forall_mem_map, Union.grow, List.forall_mem_append, List.length_append]
  constructor
  · rintro ⟨-, hgrown⟩ u hu
    obtain ⟨⟨-, hmore⟩, hstandsIn⟩ := hgrown u hu
    refine ⟨hmore, fun hname => List.eq_nil_of_length_eq_zero ?_⟩
    exact (Nat.add_eq_zero_iff.1 (hstandsIn hname).1).2
  · intro hmore
    refine ⟨hrecords, fun u hu => ⟨⟨(hunions u hu).1, (hmore u hu).1⟩, fun hname => ?_⟩⟩
    obtain ⟨hnone, hlast⟩ := (hunions u hu).2 hname
    rw [hnone, (hmore u hu).2 hname]
    exact ⟨rfl, hlast⟩

end Schema

/-- Fields with names of their own are known by these, in whatever order. -/
theorem Record.Rearranged.perm_idents {r r₁ : Record} (h : r.Rearranged r₁)
    (hnamed : ∀ f ∈ r.fields, f.IsNumbered) :
    (r₁.fields.map Field.ident).Perm (r.fields.map Field.ident) := by
  have hidents : ∀ fields : List Field, (∀ f ∈ fields, f.name.isSome = true) →
      fields.map Field.ident = (fields.map Field.signature).filterMap Prod.fst := by
    intro fields hfields
    rw [List.filterMap_map, ← List.filterMap_eq_map]
    refine List.filterMap_congr fun f hf => ?_
    obtain ⟨name, hname⟩ := Option.isSome_iff_exists.1 (hfields f hf)
    simp only [Function.comp, Field.ident, Field.signature, hname]
  have hsame := h.perm.2
  have hnamed' : ∀ f ∈ r₁.fields, f.name.isSome = true := by
    intro f hf
    obtain ⟨f', hf', heq⟩ :=
      List.mem_map.1 (hsame.mem_iff.1 (List.mem_map_of_mem (f := Field.signature) hf))
    rw [← show f'.name = f.name from (Prod.mk.inj heq).1]
    exact (hnamed f' hf').1
  rw [hidents _ hnamed', hidents _ fun f hf => (hnamed f hf).1]
  exact hsame.filterMap _

namespace Layout

variable {S : Layout}

/-- Without hooks the classes can be made if those of the schema can, wherever its declarations
stand. -/
theorem isMakeable_iff_of_unplaced_eq [Text.CharacterNames] {text : String} {s s' : Schema}
    (hs : Schema.parse text = .ok s) (hS : ofText text = .ok S) (hH : S.HookFree)
    (h : s.unplaced = s'.unplaced) : S.isMakeable = true ↔ s'.Makeable := by
  have hresolves := resolves_of_ofSchema (ofSchema_of_ofText hs hS)
  have hschema : S.schema = s := by
    rw [schema, hresolves.records, hresolves.unions]
  have hkeeps : S.keepsDecorators = true := by
    rw [keepsDecorators, hH.hookNames_eq_nil]
    rfl
  rw [isMakeable, hkeeps, Bool.and_true, decide_eq_true_iff, hschema,
    Schema.makeable_iff_of_unplaced_eq h]

end Layout

end WireSchema
