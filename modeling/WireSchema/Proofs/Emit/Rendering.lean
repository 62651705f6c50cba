import WireSchema.Emit.Render
import WireSchema.Proofs.Wire.RoundTrip

/-!
# Rendering succeeds

Well-formed types are applied to as many types as they are asked for, at every depth, and the tags of
a union fit its width. So a layout that comes from a text can be rendered.
-/

namespace WireSchema

theorem FreeTypeName.notMem_generic {name : String} (h : FreeTypeName name) :
    name ∉ ["optional", "list", "array", "map"] := by
  have hall : ∀ name ∈ ["optional", "list", "array", "map"],
      name ∈ moduleNames ∨ name ∈ ["optional", "list", "map"] := by decide
  exact fun hname => (hall name hname).elim h.2.1 h.2.2.2

namespace TypeExpr

theorem hintOf?_eq_some {name : String} (h : name ∉ ["optional", "list", "array", "map"])
    (hints : List (Option String)) :
    hintOf? name hints = some ((Primitive.ofName? name).elim name Primitive.hint) := by
  simp only [List.mem_cons, List.not_mem_nil, or_false, not_or] at h
  obtain ⟨hoptional, hlist, harray, hmap⟩ := h
  rw [hintOf?, if_neg hoptional, if_neg (not_or.2 ⟨hlist, harray⟩), if_neg hmap]

theorem hint?_primitive (p : Primitive) : (named p.name).hint? = some p.hint := by
  have hname : p.name ∉ ["optional", "list", "array", "map"] := by
    cases p with
    | bool | string => decide
    | int k => cases k <;> decide
  rw [hint?, hintOf?_eq_some hname, Primitive.ofName?_name]
  rfl

/-- The hint for a well-formed type is always found. -/
theorem WellFormed.hint?_eq_some {declared : List String}
    (hfree : ∀ name ∈ declared, FreeTypeName name) {t : TypeExpr} (h : t.WellFormed declared) :
    t.hint? = some t.hint := by
  induction h with
  | primitive p =>
    rw [hint?_primitive, hint, Primitive.ofName?_name]
  | @declared name hname =>
    have hnone := (hfree name hname).ofName?_eq_none
    rw [hint?, hintOf?_eq_some (hfree name hname).notMem_generic, hint, hnone]
    rfl
  | optional _ ih | list _ ih =>
    simp only [hint?, hints?, ih, hint, hints]
    rfl
  | map key _ ih =>
    rw [hint?, hints?, hints?, hints?, hint?_primitive, ih]
    simp only [hint, hints, Primitive.ofName?_name]
    rfl
  | array size _ ih =>
    rw [hint?, ih, hint]
    rfl

end TypeExpr

theorem hintsOf?_eq_some {declared : List String} (hfree : ∀ name ∈ declared, FreeTypeName name)
    {fields : List Field} (h : ∀ f ∈ fields, f.type.WellFormed declared) :
    hintsOf? fields = some (hintsOf fields) := by
  refine mapM_eq_some_map fun f hf => ?_
  rw [(h f hf).hint?_eq_some hfree]
  rfl

namespace Layout

variable {S : Layout}

/-- Nothing is missing in the layout of a well-formed schema. -/
theorem Resolves.emitted?_eq_some {s : Schema} (h : S.Resolves s) (hs : s.WellFormed)
    (hS : S.WellFormed) (runtime : String) : S.emitted? runtime = some (S.emitted runtime) := by
  have hrecords : S.records.mapM (RecordLayout.emitted? (CodecTable.ofLayout S)) =
      some (S.emitted runtime).records := by
    refine mapM_eq_some_map fun r hr => ?_
    have hmem : r.record ∈ s.records := h.records ▸ List.mem_map_of_mem hr
    rw [RecordLayout.emitted?, hintsOf?_eq_some hs.free (hs.records _ hmem).types]
    rfl
  have hunions : S.unions.mapM (UnionLayout.emitted? (CodecTable.ofLayout S)) =
      some (S.emitted runtime).unions := by
    refine mapM_eq_some_map fun u hu => ?_
    have hmem : u.union ∈ s.unions := h.unions ▸ List.mem_map_of_mem hu
    have hvariants : (u.variants.zipIdx.mapM fun p =>
        p.1.emitted? (CodecTable.ofLayout S) u p.2) =
          some (u.emitted (CodecTable.ofLayout S)).variants := by
      rw [UnionLayout.emitted, List.mapIdx_eq_zipIdx_map]
      refine mapM_eq_some_map fun p hp => ?_
      have hv : p.1 ∈ u.variants := List.fst_mem_of_mem_zipIdx hp
      have hv' : p.1.variant ∈ u.union.variants :=
        (h.unionsResolve u hu).variants ▸ List.mem_map_of_mem hv
      rw [VariantLayout.emitted?, encode?_tag hS hu hv,
        hintsOf?_eq_some hs.free ((hs.unions _ hmem).fields _ hv').types]
      rfl
    rw [UnionLayout.emitted?, hvariants]
    rfl
  rw [emitted?, hrecords, hunions]
  rfl

end Layout

end WireSchema
