import Mathlib.Data.List.Forall2
import WireSchema.Proofs.Emit.Demand
import WireSchema.Proofs.Wire.Packing

/-!
# Codecs are shared by bodies that mirror each other

Both bodies for an owner are made from the same segments, and a statement covers what its segment
does, whichever of the two it is. So they cover the same, in the same order, and by the same codecs,
which are those of the owner's fields.
-/

namespace WireSchema

/-- Bodies that mirror each other share one table of codecs. -/
structure Module.SharesCodecs (m : Module) (S : Layout) : Prop where
  mirrors : List.Forall₂ m.Mirrors S.owners m.bodies
  /-- A codec that is referred to is bound once, as a codec. -/
  defined : ∀ index, CodecTable.entryName index ∈ m.ownReferences →
    (m.codecs.map Prod.fst).count (CodecTable.entryName index) = 1 ∧
      m.bindings.count (CodecTable.entryName index) = 1
  /-- Whatever else is referred to is looked up for a hook. -/
  hooks : ∀ name ∈ m.references, name ∈ m.ownReferences ∨
    ∃ f ∈ m.methods, ∃ e ∈ f.hooks, name = firstPart e
  numbered : m.codecs.map Prod.fst = (List.range m.codecs.length).map CodecTable.entryName
  /-- The codecs stand in the order of their first uses, and each of them is used. -/
  ordered : m.codecUses.eraseDups = m.codecs.map Prod.fst
  /-- No two fields share a codec of their own. -/
  apart : ∀ b ∈ m.bodies, ∀ b' ∈ m.bodies, ∀ name field field', name ∉ runtimeNames →
    .codec name field ∈ Statement.coverages b.encode →
      .codec name field' ∈ Statement.coverages b'.encode → b.owner = b'.owner ∧ field = field'

/-! ## Segments -/

namespace Segment

/-- A field that is packed is one of the fields, in its slot. -/
theorem exists_field_of_packed {fields : List Field} {run : List (String × Slot)}
    (h : packed run ∈ ofFields fields) {x : String × Slot} (hx : x ∈ run) :
    ∃ f ∈ fields, f.ident = x.1 ∧ f.codec.slot? = some x.2 := by
  have hmem : (x.1, .inl x.2) ∈ fields.map Field.member := by
    rw [← flatMap_members_ofFields]
    exact List.mem_flatMap.2 ⟨_, h, List.mem_map.2 ⟨x, hx, rfl⟩⟩
  obtain ⟨f, hf, hmember⟩ := List.mem_map.1 hmem
  obtain ⟨hident, hslot⟩ := Prod.mk.inj hmember
  split at hslot
  next slot hsome => exact ⟨f, hf, hident, Sum.inl.inj hslot ▸ hsome⟩
  next => cases hslot

variable (table : CodecTable) (owner : String)

/-- What the statements of a segment cover. -/
def coverage : Segment → Statement.Coverage
  | packed fields => .packed fields
  | single field (.declared type) => .declared type field
  | single field c => .codec (table.nameOf owner field c) field

theorem coverage?_decodeStatement (g : Segment) :
    (g.decodeStatement table owner).coverage? = some (g.coverage table owner) := by
  cases g with
  | packed fields => rfl
  | single field c => cases c <;> rfl

theorem idents_coverage (g : Segment) : (g.coverage table owner).idents = g.idents := by
  cases g with
  | packed fields => rfl
  | single field c => cases c <;> rfl

theorem coverages_decodeStatements (segments : List Segment) :
    Statement.coverages (segments.map (decodeStatement table owner)) =
      segments.map (coverage table owner) := by
  rw [Statement.coverages, List.filterMap_map, ← List.filterMap_eq_map]
  exact congrArg (List.filterMap · segments) (funext fun g => g.coverage?_decodeStatement table owner)

theorem coverages_encodeStatements (object : String) (segments : List Segment) :
    Statement.coverages (segments.map (encodeStatement table owner object)) =
      segments.map (coverage table owner) := by
  rw [← coverages_decodeStatements, Statement.coverages, Statement.coverages, List.filterMap_map,
    List.filterMap_map]
  exact congrArg (List.filterMap · segments)
    (funext fun g => g.coverage?_encodeStatement table owner object)

end Segment

/-! ## Bodies -/

theorem Statement.coverages_append (body body' : List Statement) :
    coverages (body ++ body') = coverages body ++ coverages body' :=
  List.filterMap_append

/-- Calling a hook covers no field. -/
theorem Statement.coverages_hook {hook? : Option String} {f : String → Statement}
    (h : ∀ e, (f e).coverage? = none) : coverages (hook?.toList.map f) = [] :=
  filterMap_map_eq_nil h _

/-- The bodies for an owner cover the segments of its fields. -/
structure OwnerBodies.Covers (table : CodecTable) (o : String × List Field) (b : OwnerBodies) :
    Prop where
  owner : b.owner = o.1
  encode : Statement.coverages b.encode = (Segment.ofFields o.2).map (Segment.coverage table o.1)
  decode : Statement.coverages b.decode = (Segment.ofFields o.2).map (Segment.coverage table o.1)

section

variable (table : CodecTable)

theorem RecordLayout.covers (r : RecordLayout) :
    OwnerBodies.Covers table (r.name, r.wireFields)
      ⟨r.name, r.encodeBody table, r.decodeBody table⟩ where
  owner := rfl
  encode := by
    rw [encodeBody, Statement.coverages_append, Statement.coverages_append,
      Statement.coverages_hook fun _ => rfl, Statement.coverages_hook fun _ => rfl,
      Segment.coverages_encodeStatements, List.nil_append, List.append_nil]
    rfl
  decode := by
    rw [decodeBody, Statement.coverages_append, Statement.coverages_append,
      Statement.coverages_hook fun _ => rfl, Segment.coverages_decodeStatements, List.nil_append]
    exact List.append_nil _

theorem VariantLayout.covers (u : UnionLayout) (v : VariantLayout) :
    OwnerBodies.Covers table (v.ownerName u, v.variant.fields)
      ⟨u.name ++ "." ++ v.name, v.encodeBody table u, v.decodeBody table u⟩ where
  owner := rfl
  encode := Segment.coverages_encodeStatements table _ "self" _
  decode := by
    rw [decodeBody, Statement.coverages_append, Segment.coverages_decodeStatements]
    exact List.append_nil _

end

/-! ## Modules -/

/-- A module refers to hooks besides its own names. -/
theorem Module.of_mem_references {m : Module} {name : String} (h : name ∈ m.references) :
    name ∈ m.ownReferences ∨ ∃ f ∈ m.methods, ∃ e ∈ f.hooks, name = firstPart e := by
  rcases List.mem_append.1 h with h | h
  · exact .inl (List.mem_append_left _ h)
  · obtain ⟨f, hf, h⟩ := List.mem_flatMap.1 h
    obtain ⟨s, hs, h⟩ := List.mem_flatMap.1 h
    rcases Statement.mem_references_iff.1 h with h | ⟨e, he, rfl⟩
    · exact .inl (List.mem_append_right _
        (List.mem_flatMap.2 ⟨f, hf, List.mem_flatMap.2 ⟨s, hs, h⟩⟩))
    · exact .inr ⟨f, hf, e, List.mem_filterMap.2 ⟨s, hs, he⟩, rfl⟩

namespace Layout

variable {S : Layout} (runtime : String)

theorem covers_bodies (S : Layout) : List.Forall₂ (OwnerBodies.Covers (CodecTable.ofLayout S))
    S.owners (S.emitted runtime).bodies := by
  have hrecords : List.Forall₂ (OwnerBodies.Covers (CodecTable.ofLayout S))
      (S.records.map fun r => (r.name, r.wireFields))
      ((S.emitted runtime).records.map fun c => ⟨c.name, c.encode, c.decode⟩) := by
    rw [emitted, List.map_map, List.forall₂_map_left_iff, List.forall₂_map_right_iff,
      List.forall₂_same]
    exact fun r _ => r.covers _
  have hunions : List.Forall₂ (fun (u : UnionLayout) (c : UnionClass) =>
      c = u.emitted (CodecTable.ofLayout S)) S.unions (S.emitted runtime).unions := by
    rw [emitted, List.forall₂_map_right_iff, List.forall₂_same]
    exact fun _ _ => rfl
  refine List.rel_append hrecords (List.rel_flatMap hunions ?_)
  rintro u _ rfl
  have hvariants := u.map_variants_emitted (CodecTable.ofLayout S)
    (f := fun c =>
      OwnerBodies.mk ((u.emitted (CodecTable.ofLayout S)).name ++ "." ++ c.name) c.encode c.decode)
    (g := fun v => ⟨v.ownerName u, v.encodeBody _ u, v.decodeBody _ u⟩) fun _ _ => rfl
  beta_reduce
  rw [hvariants, List.forall₂_map_left_iff, List.forall₂_map_right_iff, List.forall₂_same]
  exact fun v _ => v.covers _ u

theorem exists_covers_of_mem_bodies {b : OwnerBodies} (hb : b ∈ (S.emitted runtime).bodies) :
    ∃ o ∈ S.owners, OwnerBodies.Covers (CodecTable.ofLayout S) o b := by
  have hcovers := covers_bodies runtime S
  obtain ⟨i, hi, rfl⟩ := List.getElem_of_mem hb
  have hi' : i < S.owners.length := hcovers.length_eq ▸ hi
  exact ⟨S.owners[i], List.getElem_mem hi', hcovers.get hi' hi⟩

/-- What a segment of an owner's fields covers fits these fields. -/
theorem fits_coverage {o : String × List Field} (hcodecs : ∀ f ∈ o.2, f.codec.needsEntry = true →
      ((CodecTable.ofLayout S).nameOf o.1 f.ident f.codec, f.codec) ∈ (S.emitted runtime).codecs)
    {g : Segment} (hg : g ∈ Segment.ofFields o.2) :
    (g.coverage (CodecTable.ofLayout S) o.1).Fits (S.emitted runtime) o.2 := by
  cases g with
  | packed run => exact fun x hx => Segment.exists_field_of_packed hg hx
  | single field c =>
    obtain ⟨f, hf, rfl, rfl⟩ := Segment.exists_field_of_single hg
    have hprimitive (p : Primitive) (hp : f.codec.primitive? = some p) :
        (CodecTable.ofLayout S).nameOf o.1 f.ident f.codec = p.codecName := by
      rw [CodecTable.nameOf, hp]
    have hcodecs := hcodecs f hf
    cases hc : f.codec with
    | declared type => exact ⟨f, hf, rfl, hc⟩
    | int | bool | string =>
      rw [hc] at hprimitive
      exact ⟨f, hf, rfl, .inl ⟨_, congrArg Codec.primitive? hc, hprimitive _ rfl⟩⟩
    | _ =>
      have hneeds : f.codec.needsEntry = true := by rw [hc]; rfl
      refine ⟨f, hf, rfl, .inr ⟨hneeds, ?_⟩⟩
      rw [← hc]
      exact hcodecs hneeds

/-- Apart from hooks, a module refers to what it binds. -/
theorem ownReferences_subset_bindings (hS : S.WellFormed)
    (hfields : ∀ r ∈ S.records, r.fields.map FieldLayout.field = r.record.fields) :
    (S.emitted runtime).ownReferences ⊆ (S.emitted runtime).bindings := by
  refine List.append_subset.2 ⟨outerReferences_subset_bindings hS runtime, fun name hname => ?_⟩
  obtain ⟨f, hf, hname⟩ := List.mem_flatMap.1 hname
  obtain ⟨s, hs, hname⟩ := List.mem_flatMap.1 hname
  have hcloses := closesButHooks_of_mem_methods hS hfields runtime f hf
  exact (hcloses s hs name hname).mem_bindings runtime

/-- What is bound by the name of a codec is that codec. -/
theorem mem_codecs_of_mem_bindings (hfree : ∀ name ∈ S.names, FreeTypeName name) {index : Nat}
    (h : CodecTable.entryName index ∈ (S.emitted runtime).bindings) :
    CodecTable.entryName index ∈ (S.emitted runtime).codecs.map Prod.fst := by
  rw [← map_text_topNames] at h
  obtain ⟨a, ha, htext⟩ := List.mem_map.1 h
  obtain rfl : a = .codec index :=
    TopName.eq_of_text_eq (proper_of_mem_topNames hfree ha) trivial htext
  rcases List.mem_append.1 ha with ha | ha
  · rcases List.mem_append.1 ha with ha | ha
    · obtain ⟨_, -, heq⟩ := List.mem_map.1 ha
      cases heq
    · obtain ⟨_, -, heq | ⟨_, heq⟩⟩ := of_mem_classTopNames ha <;> cases heq
  · obtain ⟨_, hindex, heq⟩ := List.mem_map.1 ha
    cases heq
    rw [map_fst_codecs]
    exact List.mem_map_of_mem hindex

theorem mirrors_of_covers (hS : S.WellFormed) (hdot : ∀ name ∈ S.names, '.' ∉ name.toList)
    {o : String × List Field} {b : OwnerBodies} (ho : o ∈ S.owners)
    (hb : OwnerBodies.Covers (CodecTable.ofLayout S) o b) : (S.emitted runtime).Mirrors o b where
  owner := hb.owner
  same := hb.encode.trans hb.decode.symm
  all := by
    rw [hb.encode, List.flatMap_map, ← Segment.flatMap_idents_ofFields]
    exact List.flatMap_congr fun g _ => g.idents_coverage _ o.1
  fits := by
    rw [hb.encode]
    exact List.forall_mem_map.2 fun g hg => fits_coverage runtime
      (fun f hf hneeds => mem_codecs_of_mem_owners hS hdot ho hf hneeds runtime) hg

/-- A field that is covered by a codec of the module has an entry in the table. -/
theorem mem_ofLayout_of_covers {o : String × List Field} {b : OwnerBodies} (ho : o ∈ S.owners)
    (hb : OwnerBodies.Covers (CodecTable.ofLayout S) o b) {name field : String}
    (hname : name ∉ runtimeNames) (hmem : .codec name field ∈ Statement.coverages b.encode) :
    ∃ e ∈ CodecTable.ofLayout S, e.owner = b.owner ∧ e.field = field ∧
      name = (CodecTable.ofLayout S).nameOf e.owner e.field e.codec := by
  rw [hb.encode] at hmem
  obtain ⟨g, hg, hcoverage⟩ := List.mem_map.1 hmem
  have hentry (c : Codec) (hc : c.needsEntry = true) (hg : .single field c ∈ Segment.ofFields o.2) :
      ⟨o.1, field, c⟩ ∈ CodecTable.ofLayout S := by
    obtain ⟨f, hf, rfl, rfl⟩ := Segment.exists_field_of_single hg
    exact mem_ofLayout_of_mem_owners ho hf hc
  cases g with
  | packed run => cases hcoverage
  | single field' c =>
    cases c with
    | declared type => cases hcoverage
    | int | bool | string =>
      cases hcoverage
      exact absurd (Primitive.codecName_mem_runtimeNames _) hname
    | _ =>
      cases hcoverage
      exact ⟨_, hentry _ rfl hg, hb.owner.symm, rfl, rfl⟩

/-- In the module for a layout, both bodies for an owner cover its fields in order, each by what its
type asks for. Apart from its hooks, whatever codec it refers to is defined once, as that of a field.
The codecs are numbered in the order of their first uses, and no two fields share one. To put each
into the table when it is asked for makes the same module. -/
theorem emitted_sharesCodecs [Text.CharacterNames] {text : String} (h : ofText text = .ok S)
    (runtime : String) :
    (S.emitted runtime).SharesCodecs S ∧ S.emittedOnDemand runtime = S.emitted runtime := by
  obtain ⟨s, hs, huniform, hresolves⟩ := exists_schema_of_ofText h
  have hS := hresolves.wellFormed hs huniform
  have hnames : ∀ name ∈ S.names, FreeTypeName name := hresolves.names_eq ▸ hs.free
  have hfields : ∀ r ∈ S.records, r.fields.map FieldLayout.field = r.record.fields :=
    fun r hr => (hresolves.recordsResolve r hr).fields
  have hdot := dot_notMem_of_mem_names h
  refine ⟨⟨?_, fun index hindex => ?_, fun _ => Module.of_mem_references, ?_,
    eraseDups_codecUses hS hdot runtime, fun b hb b' hb' name field field' hname hmem hmem' => ?_⟩,
    emittedOnDemand_eq hS hdot runtime⟩
  · exact ((List.forall₂_and_left _ _).2 ⟨fun _ ho => ho, covers_bodies runtime S⟩).imp
      fun o b hb => mirrors_of_covers runtime hS hdot hb.1 hb.2
  · have hbindings := nodup_bindings hS.distinct hnames runtime
    have hbound := ownReferences_subset_bindings runtime hS hfields hindex
    have hcodecs := mem_codecs_of_mem_bindings runtime hnames hbound
    have hnodup : ((S.emitted runtime).codecs.map Prod.fst).Nodup :=
      (List.nodup_append.1 hbindings).2.1
    exact ⟨List.count_eq_one_of_mem hnodup hcodecs, List.count_eq_one_of_mem hbindings hbound⟩
  · rw [map_fst_codecs, emitted, List.length_mapIdx]
  · obtain ⟨o, ho, hcovered⟩ := exists_covers_of_mem_bodies runtime hb
    obtain ⟨o', ho', hcovered'⟩ := exists_covers_of_mem_bodies runtime hb'
    obtain ⟨e, he, howner, rfl, hcodec⟩ := mem_ofLayout_of_covers ho hcovered hname hmem
    obtain ⟨e', he', howner', rfl, hcodec'⟩ := mem_ofLayout_of_covers ho' hcovered' hname hmem'
    rw [← howner, ← howner']
    exact CodecTable.key_eq_of_nameOf_eq he (needsEntry_of_mem_ofLayout e he)
      (needsEntry_of_mem_ofLayout e' he') (hcodec.symm.trans hcodec')

/-- Fields of the same name have different codecs if they are those of different variants. -/
theorem emitted_sharesCodecs_of_like_fields :
    let text := "@codec(pre_enc_func = \"hooks:open\") struct R \x7b items: list<U> \x7d " ++
      "@codec(inferred_values) union U \x7b A \x7b a: u8, b: bool, items: bool[8], c: string, r: R " ++
        "\x7d B \x7b items: map<u8, R>, d: u16, e: optional<U> \x7d \x7d"
    ∃ S, ofText text = .ok S ∧
      (S.emitted "runtime").codecs = [("_codec0", .list (.declared "U")), ("_codec1", .packedBools),
        ("_codec2", .map (.int .u8) (.declared "R")), ("_codec3", .optional (.declared "U"))] ∧
      (S.emitted "runtime").SharesCodecs S ∧
      S.emittedOnDemand "runtime" = S.emitted "runtime" := by
  intro text
  obtain ⟨S, hS, h⟩ := exists_of_any_ofText text (fun S => (S.emitted "runtime").codecs =
    [("_codec0", .list (.declared "U")), ("_codec1", .packedBools),
      ("_codec2", .map (.int .u8) (.declared "R")), ("_codec3", .optional (.declared "U"))])
    (by decide +kernel)
  exact ⟨S, hS, of_decide_eq_true h, emitted_sharesCodecs hS "runtime"⟩

/-- A hook without a module is called as it is given, whatever names there are in the module. -/
theorem mem_references_of_hook_like_codec :
    ∃ S, ofText "@codec(post_enc_func = \"_codec7\") struct A \x7b x: u8 \x7d" = .ok S ∧
      CodecTable.entryName 7 ∈ (S.emitted "bytecoding_runtime").references ∧
      (S.emitted "bytecoding_runtime").codecs = [] ∧
      CodecTable.entryName 7 ∉ (S.emitted "bytecoding_runtime").bindings ∧
      "        _codec7(_buf)" ∈ (S.emitted "bytecoding_runtime").textLines := by
  obtain ⟨S, hS, h⟩ := exists_of_any_ofText
    "@codec(post_enc_func = \"_codec7\") struct A \x7b x: u8 \x7d"
    (fun S => (S.emitted "bytecoding_runtime").references.contains (CodecTable.entryName 7) &&
      (S.emitted "bytecoding_runtime").codecs.isEmpty &&
      !(S.emitted "bytecoding_runtime").bindings.contains (CodecTable.entryName 7) &&
      (S.emitted "bytecoding_runtime").textLines.contains "        _codec7(_buf)")
    (by decide +kernel)
  simp only [Bool.and_eq_true, List.contains_iff_mem, List.isEmpty_iff, Bool.not_eq_true',
    ← Bool.not_eq_true] at h
  obtain ⟨⟨⟨hreferred, hcodecs⟩, hbound⟩, hline⟩ := h
  exact ⟨S, hS, hreferred, hcodecs, hbound, hline⟩

end Layout

end WireSchema
