import WireSchema.Proofs.Emit.Hooking
import WireSchema.Proofs.Emit.Names
import WireSchema.Proofs.Emit.Rendering
import WireSchema.Proofs.Wire.Follows

/-!
# Emitted modules are closed and hygienic

The methods of a module refer to what it imports from the runtime, to declared types and to its
codecs, all of which it binds. What a method binds itself is the object or the class, which no type
and nothing in the runtime is called, or it starts with a low line, and goes on with another letter
than the name of a codec does. The class of a variant can have the name of a local, but it is only
tables that refer to it.
-/

namespace WireSchema

/-! ## What methods refer to -/

/-- The names at the top of a module that its methods and codecs refer to. -/
inductive Layout.Refers (S : Layout) : String → Prop
  | runtime {name : String} : name ∈ runtimeNames → Refers S name
  | declared {name : String} : name ∈ S.names → Refers S name
  | codec {index : Nat} :
    index < (CodecTable.ofLayout S).length → Refers S (CodecTable.entryName index)

theorem Primitive.codecName_mem_runtimeNames (p : Primitive) : p.codecName ∈ runtimeNames := by
  cases p with
  | bool | string => decide +kernel
  | int k => cases k <;> decide +kernel

variable {S : Layout}

namespace Layout

theorem Refers.mem_bindings {name : String} (h : S.Refers name) (runtime : String) :
    name ∈ (S.emitted runtime).bindings := by
  rw [← map_text_topNames]
  cases h with
  | runtime h =>
    exact List.mem_map.2 ⟨.imported name, List.mem_append_left _ (List.mem_append_left _
      (List.mem_map_of_mem (List.mem_append_right _ h))), rfl⟩
  | declared h =>
    exact List.mem_map.2 ⟨.declared name, List.mem_append_left _ (List.mem_append_right _
      (mem_classTopNames_of_mem_names h)), rfl⟩
  | @codec index h =>
    exact List.mem_map.2 ⟨.codec index, List.mem_append_right _
      (List.mem_map_of_mem (List.mem_range.2 h)), rfl⟩

theorem refers_codecName (p : Primitive) : S.Refers p.codecName :=
  .runtime p.codecName_mem_runtimeNames

/-- The expression for a codec refers to codecs of the runtime and to declared types. -/
theorem Admits.refers_of_mem_expressionNames {c : Codec} (h : S.Admits c) :
    ∀ name ∈ c.expressionNames, S.Refers name := by
  induction c with
  | int k => exact List.forall_mem_singleton.2 (refers_codecName (.int k))
  | bool => exact List.forall_mem_singleton.2 (refers_codecName .bool)
  | string => exact List.forall_mem_singleton.2 (refers_codecName .string)
  | packedBools => exact List.forall_mem_singleton.2 (.runtime (by decide))
  | optional c ih =>
    cases h with
    | optional h => exact List.forall_mem_cons.2 ⟨.runtime (by decide), ih h⟩
  | list c ih =>
    cases h with
    | list h => exact List.forall_mem_cons.2 ⟨.runtime (by decide), ih h⟩
  | array c n ih =>
    cases h with
    | array _ h => exact List.forall_mem_cons.2 ⟨.runtime (by decide), ih h⟩
  | map k c ihk ih =>
    cases h with
    | map hk h =>
      exact List.forall_mem_append.2
        ⟨List.forall_mem_cons.2 ⟨.runtime (by decide), ihk (.of_isKey hk)⟩, ih h⟩
  | declared name =>
    cases h with
    | declared h =>
      exact List.forall_mem_cons.2
        ⟨.runtime (by decide), List.forall_mem_singleton.2 (.declared h)⟩

theorem Admits.refers_of_mem_defaultNames {c : Codec} (h : S.Admits c) :
    ∀ name ∈ c.defaultNames, S.Refers name := by
  induction c with
  | array c n ih =>
    cases h with
    | array _ h => exact ih h
  | declared name =>
    cases h with
    | declared h => exact List.forall_mem_singleton.2 (.declared h)
  | _ => exact nofun

end Layout

/-! ## Segments -/

/-- The fields of an owner have the codecs they need among those of a module. -/
def Layout.Lists (S : Layout) (owner : String) (fields : List Field) : Prop :=
  CodecTable.ofFields owner fields ⊆ CodecTable.ofLayout S

namespace Layout

theorem lists_record {r : RecordLayout} (hr : r ∈ S.records) : S.Lists r.name r.wireFields :=
  fun _ he => List.mem_append_left _ (List.mem_flatMap.2 ⟨r, hr, he⟩)

theorem lists_variant {u : UnionLayout} {v : VariantLayout} (hu : u ∈ S.unions)
    (hv : v ∈ u.variants) : S.Lists (u.name ++ "." ++ v.name) v.variant.fields :=
  fun _ he => List.mem_append_right _
    (List.mem_flatMap.2 ⟨u, hu, List.mem_flatMap.2 ⟨v, hv, he⟩⟩)

/-- A field that is written on its own is written by a codec of the runtime or by one of its own. -/
theorem Lists.refers_nameOf {owner : String} {fields : List Field} (h : S.Lists owner fields)
    {field : String} {c : Codec} (hg : .single field c ∈ Segment.ofFields fields)
    (hdeclared : ∀ name, c ≠ .declared name) :
    S.Refers ((CodecTable.ofLayout S).nameOf owner field c) := by
  obtain ⟨f, hf, rfl, rfl⟩ := Segment.exists_field_of_single hg
  rw [CodecTable.nameOf]
  cases hp : f.codec.primitive? with
  | some p => exact refers_codecName p
  | none =>
    have hneeds : f.codec.needsEntry = true := by
      unfold Codec.needsEntry
      split
      next name hname => exact absurd hname (hdeclared name)
      next =>
        rw [hp]
        rfl
    have hentry : ⟨owner, f.ident, f.codec⟩ ∈ CodecTable.ofLayout S :=
      h (List.mem_map_of_mem (List.mem_filter.2 ⟨hf, hneeds⟩))
    exact .codec (List.findIdx_lt_length_of_exists ⟨_, hentry, by simp⟩)

/-- The statements of a body refer to nothing else. -/
def Closes (S : Layout) (body : List Statement) : Prop :=
  ∀ s ∈ body, ∀ name ∈ s.references, S.Refers name

theorem Closes.refers {f : Method} (h : S.Closes f.body) : ∀ name ∈ f.references, S.Refers name := by
  intro name hname
  obtain ⟨s, hs, hname⟩ := List.mem_flatMap.1 hname
  exact h s hs name hname

/-- The statements of a body refer to nothing else but the hooks that they call. -/
def ClosesButHooks (S : Layout) (body : List Statement) : Prop :=
  ∀ s ∈ body, ∀ name ∈ s.ownReferences, S.Refers name

theorem ClosesButHooks.append {body body' : List Statement} (h : S.ClosesButHooks body)
    (h' : S.ClosesButHooks body') : S.ClosesButHooks (body ++ body') :=
  List.forall_mem_append.2 ⟨h, h'⟩

theorem ClosesButHooks.closes {f : Method} (h : S.ClosesButHooks f.body) (hnone : f.hooks = []) :
    S.Closes f.body := by
  intro s hs name hname
  rcases Statement.mem_references_iff.1 hname with hname | ⟨e, he, -⟩
  · exact h s hs name hname
  · exact absurd (List.mem_filterMap.2 ⟨s, hs, he⟩) (List.eq_nil_iff_forall_not_mem.1 hnone e)

theorem closes_encodeStatements {owner : String} {fields : List Field}
    (hlists : S.Lists owner fields) (object : String) :
    S.ClosesButHooks ((Segment.ofFields fields).map
      (Segment.encodeStatement (CodecTable.ofLayout S) owner object)) := by
  refine List.forall_mem_map.2 fun g hg => ?_
  cases g with
  | packed fields => exact List.forall_mem_singleton.2 (.runtime (by decide))
  | single field c =>
    cases c with
    | declared type => exact nofun
    | _ => exact List.forall_mem_singleton.2 (hlists.refers_nameOf hg nofun)

theorem closes_decodeStatements {owner : String} {fields : List Field}
    (hlists : S.Lists owner fields) (hfields : S.FieldsWellFormed fields) :
    S.ClosesButHooks ((Segment.ofFields fields).map
      (Segment.decodeStatement (CodecTable.ofLayout S) owner)) := by
  refine List.forall_mem_map.2 fun g hg => ?_
  cases g with
  | packed fields => exact List.forall_mem_singleton.2 (.runtime (by decide))
  | single field c =>
    cases c with
    | declared type =>
      cases hfields.admits_of_single hg with
      | declared htype => exact List.forall_mem_singleton.2 (.declared htype)
    | _ => exact List.forall_mem_singleton.2 (hlists.refers_nameOf hg nofun)

/-- What is returned goes through the runtime if there is a hook for it. -/
theorem refers_returned (hook? : Option String) :
    ∀ name ∈ Statement.ownReferences.returned hook?, S.Refers name := by
  cases hook? with
  | none => exact nofun
  | some hook => exact List.forall_mem_singleton.2 (.runtime (by decide))

theorem closes_returnObject {fields : List (String × FieldValue)} {hook? : Option String}
    (h : ∀ f ∈ fields, ∀ name ∈ f.2.references, S.Refers name) :
    S.ClosesButHooks [.returnObject fields hook?] :=
  List.forall_mem_singleton.2 (List.forall_mem_append.2
    ⟨List.forall_mem_flatMap.2 h, refers_returned hook?⟩)

theorem closes_openInput (hook? : Option String) :
    S.ClosesButHooks (hook?.toList.map fun h => .openInput (hookExpression h)) :=
  List.forall_mem_map.2 fun _ _ => List.forall_mem_singleton.2 (.runtime (by decide))

/-- What stands around the fields when they are written refers to hooks only. -/
theorem closes_map_hook {hook? : Option String} {f : String → Statement}
    (h : ∀ e, (f e).ownReferences = []) : S.ClosesButHooks (hook?.toList.map f) :=
  List.forall_mem_map.2 fun e _ => (h e).symm ▸ List.forall_mem_nil _

/-! ## Methods -/

variable (hS : S.WellFormed)
include hS

theorem closes_of_mem_variantMethods {u : UnionLayout} (hu : u ∈ S.unions) {v : VariantLayout}
    (hv : v ∈ u.variants) (index : Nat) :
    ∀ f ∈ (v.emitted (CodecTable.ofLayout S) u index).methods, S.ClosesButHooks f.body := by
  have hencode : S.ClosesButHooks (v.encodeBody (CodecTable.ofLayout S) u) :=
    closes_encodeStatements (lists_variant hu hv) _
  have hdecode : S.ClosesButHooks (v.decodeBody (CodecTable.ofLayout S) u) :=
    (closes_decodeStatements (lists_variant hu hv) ((hS.unions u hu).fields v hv)).append
      (closes_returnObject (List.forall_mem_map.2 fun f _ => nofun))
  exact List.forall_mem_cons.2 ⟨hencode, List.forall_mem_singleton.2 hdecode⟩

theorem closes_of_mem_recordMethods {r : RecordLayout} (hr : r ∈ S.records)
    (hfields : r.fields.map FieldLayout.field = r.record.fields) :
    ∀ f ∈ (r.emitted (CodecTable.ofLayout S)).methods, S.ClosesButHooks f.body := by
  have hwf := hS.records r hr
  have hencode : S.ClosesButHooks (r.encodeBody (CodecTable.ofLayout S)) :=
    ((closes_map_hook fun _ => rfl).append (closes_encodeStatements (lists_record hr) _)).append
      (closes_map_hook fun _ => rfl)
  have hdecode : S.ClosesButHooks (r.decodeBody (CodecTable.ofLayout S)) := by
    refine ((closes_openInput _).append (closes_decodeStatements (lists_record hr)
      hwf.wireFields)).append (closes_returnObject (List.forall_mem_map.2 fun f hf => ?_))
    dsimp only [RecordLayout.fieldValue]
    split
    · exact (hwf.fields.admits f.field (List.mem_map_of_mem hf)).refers_of_mem_defaultNames
    · exact nofun
  refine List.forall_mem_append.2 ⟨List.forall_mem_cons.2 ⟨hencode,
    List.forall_mem_singleton.2 hdecode⟩, List.forall_mem_map.2 fun fields hdefault => ?_⟩
  -- A record without a default has no third method.
  rw [Option.mem_toList, RecordLayout.emitted] at hdefault
  dsimp only at hdefault
  split at hdefault
  · cases hdefault
    refine closes_returnObject (List.forall_mem_map.2 fun f hf => ?_)
    exact (hwf.fields.admits f (hfields ▸ hf)).refers_of_mem_defaultNames
  · cases hdefault

theorem closes_of_mem_unionMethods {u : UnionLayout} (hu : u ∈ S.unions) :
    ∀ f ∈ (u.emitted (CodecTable.ofLayout S)).methods, S.ClosesButHooks f.body := by
  have hencode : S.ClosesButHooks u.encodeBody :=
    ((closes_map_hook fun _ => rfl).append
      (List.forall_mem_cons.2 ⟨List.forall_mem_nil _,
        List.forall_mem_singleton.2 (List.forall_mem_nil _)⟩)).append (closes_map_hook fun _ => rfl)
  have hdecode : S.ClosesButHooks u.decodeBody := by
    refine (closes_openInput _).append ?_
    refine List.forall_mem_cons.2 ⟨List.forall_mem_singleton.2 (refers_codecName _), ?_⟩
    refine List.forall_mem_cons.2 ⟨nofun, List.forall_mem_cons.2 ⟨?_, ?_⟩⟩
    · exact List.forall_mem_singleton.2 (.runtime (by decide))
    · exact List.forall_mem_cons.2 ⟨nofun, List.forall_mem_singleton.2 (refers_returned _)⟩
  refine List.forall_mem_append.2 ⟨List.forall_mem_cons.2 ⟨hencode,
    List.forall_mem_singleton.2 hdecode⟩, fun f hf => ?_⟩
  obtain ⟨v, hv, hf⟩ := List.mem_flatMap.1 hf
  obtain ⟨index, hindex, rfl⟩ := List.mem_mapIdx.1 hv
  exact closes_of_mem_variantMethods hS hu (List.getElem_mem hindex) index f hf

/-- Apart from hooks, the methods of a module refer to what the module binds. -/
theorem closesButHooks_of_mem_methods
    (hfields : ∀ r ∈ S.records, r.fields.map FieldLayout.field = r.record.fields)
    (runtime : String) : ∀ f ∈ (S.emitted runtime).methods, S.ClosesButHooks f.body := by
  refine List.forall_mem_append.2 ⟨fun f hf => ?_, fun f hf => ?_⟩
  · obtain ⟨r, hr, hf⟩ := List.mem_flatMap.1 hf
    obtain ⟨r, hmem, rfl⟩ := List.mem_map.1 hr
    exact closes_of_mem_recordMethods hS hmem (hfields r hmem) f hf
  · obtain ⟨u, hu, hf⟩ := List.mem_flatMap.1 hf
    obtain ⟨u, hmem, rfl⟩ := List.mem_map.1 hu
    exact closes_of_mem_unionMethods hS hmem f hf

theorem closes_of_mem_methods (hfree : S.HookFree)
    (hfields : ∀ r ∈ S.records, r.fields.map FieldLayout.field = r.record.fields)
    (runtime : String) : ∀ f ∈ (S.emitted runtime).methods, S.Closes f.body := fun f hf =>
  (closesButHooks_of_mem_methods hS hfields runtime f hf).closes
    (hfree.hooks_eq_nil_of_mem_methods runtime hf)

end Layout

/-! ## What methods bind -/

/-- The object, the class, or a name with a low line in front, but none like that of a codec. -/
def IsOwnName (name : String) : Prop :=
  name ∈ ["self", "cls"] ∨ name.toList[0]? = some '_' ∧ name.toList[1]? ≠ some 'c'

instance (name : String) : Decidable (IsOwnName name) :=
  inferInstanceAs (Decidable (_ ∨ _))

theorem isOwnName_localName (field : String) : IsOwnName (localName field) :=
  .inr (by simp [localName, String.toList_append])

theorem Codec.isOwnName_of_mem_defaultLocals {c : Codec} :
    ∀ name ∈ c.defaultLocals, IsOwnName name := by
  induction c with
  | packedBools => exact List.forall_mem_singleton.2 (by decide)
  | array c n ih => exact List.forall_mem_cons.2 ⟨by decide, ih⟩
  | _ => exact nofun

theorem Statement.isOwnName_of_mem_locals {s : Statement} : ∀ name ∈ s.locals, IsOwnName name := by
  cases s with
  | unpack fields =>
    exact List.forall_mem_append.2 ⟨List.forall_mem_map.2 fun f _ => isOwnName_localName f.1,
      List.forall_mem_singleton.2 (by decide)⟩
  | decodeDeclared _ field | decodeBy _ field =>
    exact List.forall_mem_cons.2 ⟨isOwnName_localName field,
      List.forall_mem_singleton.2 (by decide)⟩
  | returnObject fields hook =>
    intro name hname
    obtain ⟨f, -, hname⟩ := List.mem_flatMap.1 hname
    cases hf : f.2 with
    | read =>
      rw [hf] at hname
      cases hname
    | default c =>
      rw [hf] at hname
      exact Codec.isOwnName_of_mem_defaultLocals name hname
  | readTag | readFields =>
    exact List.forall_mem_cons.2 ⟨by decide, List.forall_mem_singleton.2 (by decide)⟩
  | replaceSelf | openInput | findVariant => exact List.forall_mem_singleton.2 (by decide)
  | _ => exact nofun

theorem Method.isOwnName_of_mem_ownNames {f : Method}
    (h : ∀ name ∈ f.parameters, IsOwnName name) : ∀ name ∈ f.ownNames, IsOwnName name :=
  List.forall_mem_append.2 ⟨h, List.forall_mem_flatMap.2 fun _ _ => Statement.isOwnName_of_mem_locals⟩

/-- In any module, methods bind such names only. -/
theorem Module.isOwnName_of_mem_ownNames {m : Module} :
    ∀ f ∈ m.methods, ∀ name ∈ f.ownNames, IsOwnName name := by
  have hencode : ∀ name ∈ ["self", "_buf"], IsOwnName name := by decide
  have hdecode : ∀ name ∈ ["cls", "_data"], IsOwnName name := by decide
  have hboth : ∀ encode decode, ∀ f ∈ [Method.ofEncode encode, .ofDecode decode],
      ∀ name ∈ f.ownNames, IsOwnName name := fun encode decode =>
    List.forall_mem_cons.2 ⟨Method.isOwnName_of_mem_ownNames hencode,
      List.forall_mem_singleton.2 (Method.isOwnName_of_mem_ownNames hdecode)⟩
  refine List.forall_mem_append.2 ⟨List.forall_mem_flatMap.2 fun r _ => ?_,
    List.forall_mem_flatMap.2 fun u _ => ?_⟩
  · refine List.forall_mem_append.2 ⟨hboth r.encode r.decode, List.forall_mem_map.2 fun _ _ => ?_⟩
    exact Method.isOwnName_of_mem_ownNames (List.forall_mem_singleton.2 (by decide))
  · exact List.forall_mem_append.2 ⟨hboth u.encode u.decode,
      List.forall_mem_flatMap.2 fun v _ => hboth v.encode v.decode⟩

/-- What a method binds itself is not called like anything that it refers to. -/
theorem Layout.Refers.not_isOwnName {name : String} (h : S.Refers name)
    (hfree : ∀ name ∈ S.names, FreeTypeName name) : ¬ IsOwnName name := by
  -- Classes of variants are left out here: a field can have a local of the same name as one.
  cases h with
  | runtime h =>
    have hall : ∀ name ∈ runtimeNames, ¬ IsOwnName name := by decide
    exact hall name h
  | declared h =>
    obtain ⟨-, hhead, hmember⟩ := (hfree name h).1
    rintro (hmem | ⟨hlow, -⟩)
    · have hall : ∀ name ∈ ["self", "cls"], name ∈ memberNames := by decide
      exact hmember (hall name hmem)
    · rw [List.head?_eq_getElem?] at hhead
      exact hhead hlow
  | codec h =>
    rintro (hmem | ⟨-, hne⟩)
    · have hall : ∀ name ∈ ["self", "cls"], name.toList[0]? ≠ some '_' := by decide
      refine hall _ hmem ?_
      rw [TopName.toList_entryName]
      rfl
    · rw [TopName.toList_entryName] at hne
      exact hne rfl

/-! ## Modules -/

namespace Layout

theorem admits_of_mem_ofFields {owner : String} {fields : List Field}
    (hfields : S.FieldsWellFormed fields) {e : CodecEntry}
    (he : e ∈ CodecTable.ofFields owner fields) : S.Admits e.codec := by
  obtain ⟨f, hf, rfl⟩ := List.mem_map.1 he
  exact hfields.admits f (List.mem_of_mem_filter hf)

theorem eq_of_localName_eq {field field' : String} (h : localName field = localName field') :
    field = field' :=
  (String.append_right_inj _).1 h

theorem FieldsWellFormed.nodup_localNames {fields : List Field} (h : S.FieldsWellFormed fields) :
    ((hintsOf fields).map fun f => localName f.1).Nodup := by
  have hlocals := h.distinct.map fun _ _ => eq_of_localName_eq
  rw [List.map_map] at hlocals
  rwa [hintsOf, List.map_map]

section

variable (hS : S.WellFormed) (runtime : String)
include hS

theorem admits_of_mem_codecTable {e : CodecEntry} (he : e ∈ CodecTable.ofLayout S) :
    S.Admits e.codec := by
  rcases List.mem_append.1 he with he | he
  · obtain ⟨r, hr, he⟩ := List.mem_flatMap.1 he
    exact admits_of_mem_ofFields (hS.records r hr).wireFields he
  · obtain ⟨u, hu, he⟩ := List.mem_flatMap.1 he
    obtain ⟨v, hv, he⟩ := List.mem_flatMap.1 he
    exact admits_of_mem_ofFields ((hS.unions u hu).fields v hv) he

theorem outerReferences_subset_bindings :
    (S.emitted runtime).outerReferences ⊆ (S.emitted runtime).bindings := by
  have hcodecs : ∀ name ∈ (S.emitted runtime).codecs.flatMap fun c => c.2.expressionNames,
      name ∈ (S.emitted runtime).bindings := by
    refine List.forall_mem_flatMap.2 fun c hc name hname => ?_
    obtain ⟨index, hindex, rfl⟩ := List.mem_mapIdx.1 hc
    have hadmits := admits_of_mem_codecTable hS (List.getElem_mem hindex)
    exact (hadmits.refers_of_mem_expressionNames name hname).mem_bindings runtime
  have himported : ∀ name ∈ ["dataclass", "Record", "Union"], name = "dataclass" ∨
      name ∈ runtimeNames := by decide
  intro name hname
  simp only [Module.outerReferences, List.mem_append] at hname
  rcases hname with ((hname | hname) | hname) | hname
  · rcases himported name hname with rfl | hname
    · simp [Module.bindings]
    · simp [Module.bindings, hname]
  · simp [Module.bindings, hname]
  · simp [Module.bindings, hname]
  · exact hcodecs name hname

theorem references_subset_bindings (hfree : S.HookFree)
    (hfields : ∀ r ∈ S.records, r.fields.map FieldLayout.field = r.record.fields) :
    (S.emitted runtime).references ⊆ (S.emitted runtime).bindings := by
  refine List.append_subset.2 ⟨outerReferences_subset_bindings hS runtime, fun name hname => ?_⟩
  obtain ⟨f, hf, hname⟩ := List.mem_flatMap.1 hname
  have hcloses := closes_of_mem_methods hS hfree hfields runtime f hf
  exact (hcloses.refers name hname).mem_bindings runtime

theorem nodup_localNames
    (hfields : ∀ r ∈ S.records, r.fields.map FieldLayout.field = r.record.fields) :
    ∀ fields ∈ (S.emitted runtime).fieldLists, (fields.map fun f => localName f.1).Nodup := by
  refine List.forall_mem_append.2 ⟨fun fields h => ?_,
    List.forall_mem_flatMap.2 fun c hc fields h => ?_⟩
  · obtain ⟨c, hc, rfl⟩ := List.mem_map.1 h
    obtain ⟨r, hr, rfl⟩ := List.mem_map.1 hc
    have hwf := (hS.records r hr).fields
    rw [hfields r hr] at hwf
    exact hwf.nodup_localNames
  · obtain ⟨u, hu, rfl⟩ := List.mem_map.1 hc
    obtain ⟨c, hc, rfl⟩ := List.mem_map.1 h
    obtain ⟨index, hindex, rfl⟩ := List.mem_mapIdx.1 hc
    exact ((hS.unions u hu).fields _ (List.getElem_mem hindex)).nodup_localNames

end

/-- A module of a layout without hooks is closed and hygienic. It can be rendered, the names at its
top are distinct, and whatever its tables, its codecs and its methods refer to is one of them, but
for what is known everywhere. A method neither binds a name that it refers to nor reads two fields
into the same local. -/
theorem emitted_hygienic [Text.CharacterNames] {text : String} (h : ofText text = .ok S)
    (hfree : S.HookFree)
    (runtime : String) :
    S.render? runtime = some (S.moduleText runtime) ∧ (S.emitted runtime).bindings.Nodup ∧
      (∀ name ∈ (S.emitted runtime).references, name ∈ (S.emitted runtime).bindings) ∧
        (∀ fields ∈ (S.emitted runtime).fieldLists, (fields.map fun f => localName f.1).Nodup) ∧
          ∀ f ∈ (S.emitted runtime).methods, ∀ name ∈ f.ownNames, name ∉ f.references := by
  obtain ⟨s, hs, huniform, hresolves⟩ := exists_schema_of_ofText h
  have hS := hresolves.wellFormed hs huniform
  have hnames : ∀ name ∈ S.names, FreeTypeName name := hresolves.names_eq ▸ hs.free
  have hfields : ∀ r ∈ S.records, r.fields.map FieldLayout.field = r.record.fields :=
    fun r hr => (hresolves.recordsResolve r hr).fields
  refine ⟨?_, nodup_bindings hS.distinct hnames runtime, fun name hname =>
    references_subset_bindings hS runtime hfree hfields hname, nodup_localNames hS runtime hfields,
    fun f hf name hname hmem => ?_⟩
  · rw [render?, hresolves.emitted?_eq_some hs hS]
    rfl
  · have hrefers := (closes_of_mem_methods hS hfree hfields runtime f hf).refers name hmem
    exact hrefers.not_isOwnName hnames (Module.isOwnName_of_mem_ownNames f hf name hname)

/-- The class of a variant is called like the local of a field, and a codec nearly like another. -/
theorem emitted_hygienic_of_like_names :
    let text := "struct R \x7b a_0: f_a \x7d @codec(inferred_values) union f_a \x7b " ++
      "A \x7b a_0: R, codec0: u8[2][3], m: map<string, list<optional<f_a>>> \x7d B \x7d"
    ∃ S, ofText text = .ok S ∧ S.HookFree ∧ "_f_a_0" ∈ (S.emitted "runtime").bindings ∧
      (∃ f ∈ (S.emitted "runtime").methods, "_f_a_0" ∈ f.ownNames ∧ "_f_codec0" ∈ f.ownNames ∧
        "_codec0" ∈ f.references ∧ "R" ∈ f.references) ∧
      S.render? "runtime" = some (S.moduleText "runtime") ∧
      (S.emitted "runtime").bindings.Nodup ∧
      (∀ name ∈ (S.emitted "runtime").references, name ∈ (S.emitted "runtime").bindings) ∧
      (∀ fields ∈ (S.emitted "runtime").fieldLists,
        (fields.map fun f => localName f.1).Nodup) ∧
      ∀ f ∈ (S.emitted "runtime").methods, ∀ name ∈ f.ownNames, name ∉ f.references := by
  intro text
  obtain ⟨S, hS, h⟩ := exists_of_any_ofText text
    (fun S => S.HookFree && (S.emitted "runtime").bindings.contains "_f_a_0" &&
      (S.emitted "runtime").methods.any fun f => f.ownNames.contains "_f_a_0" &&
        f.ownNames.contains "_f_codec0" && f.references.contains "_codec0" &&
        f.references.contains "R")
    (by decide +kernel)
  simp only [Bool.and_eq_true, List.any_eq_true, decide_eq_true_eq, List.contains_iff_mem] at h
  obtain ⟨⟨hfree, hclass⟩, f, hf, ⟨⟨hlocal, hfield⟩, hcodec⟩, htype⟩ := h
  exact ⟨S, hS, hfree, hclass, ⟨f, hf, hlocal, hfield, hcodec, htype⟩,
    emitted_hygienic hS hfree "runtime"⟩

end Layout

end WireSchema
