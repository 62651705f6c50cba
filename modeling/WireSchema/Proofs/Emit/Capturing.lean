import WireSchema.Proofs.Emit.Hooking
import WireSchema.Proofs.Emit.Names

/-!
# Which names take the place of a hook's module

The expression that calls a hook starts with the name that the import of its module has bound. What is
bound behind this import, in the method or for the class takes the place of the module. Apart from the
object and the class, no name of a method can do so, and no name with a number in it, unless the name
of the module starts with a low line.
-/

namespace WireSchema

namespace HookKind

/-- The parameters of the method in which a hook is called. -/
def parameters : HookKind → List String
  | preEncode | postEncode => ["self", "_buf"]
  | preDecode | postDecode => ["cls", "_data"]

/-- What else the method assigns in which a hook is called. -/
def assigned (d : Declaration) : HookKind → List String
  | preEncode | postEncode => if d.attributes.preEncode.isSome then ["_self"] else []
  | preDecode | postDecode =>
    match d with
    | .record r => r.wireFields.map fun f => localName f.ident
    | .union _ => ["_tag", "_variant", "_value"]

end HookKind

/-- The names that do not mean a module where a hook is called: those that are bound behind it, those
of the method, and those that belong to the class. -/
inductive Layout.Captures (S : Layout) (runtime : String) (d : Declaration) (hook : HookKind) :
    String → Prop
  | runtime {name : String} : name ∈ runtimeNames → Captures S runtime d hook name
  | helper {name : String} : Module.isLocal runtime = true →
    name ∈ ["_runtime_path", "_added_to_path"] → Captures S runtime d hook name
  | declared {name : String} : name ∈ S.names → Captures S runtime d hook name
  | variant {u : UnionLayout} {index : Nat} : u ∈ S.unions → index < u.variants.length →
    Captures S runtime d hook (VariantLayout.className u.name index)
  | codec {index : Nat} : index < (CodecTable.ofLayout S).length →
    Captures S runtime d hook (CodecTable.entryName index)
  | parameter {name : String} : name ∈ hook.parameters → Captures S runtime d hook name
  | assigned {name : String} : name ∈ hook.assigned d → Captures S runtime d hook name
  | ownClass : Captures S runtime d hook "__class__"
  | ofClass {name : String} : privateName d.name name ≠ name → Captures S runtime d hook name

/-! ## What a name means -/

namespace Module

theorem lookup_reverse_map (names : List String) (meaning : String → Meaning) (name : String) :
    (names.map fun n => (n, meaning n)).reverse.lookup name =
      if name ∈ names then some (meaning name) else none := by
  rw [← List.map_reverse]
  split
  next h => exact List.lookup_graph meaning (List.mem_reverse.2 h)
  next h =>
    rw [List.lookup_eq_none_iff, List.forall_mem_map]
    exact fun n hn => bne_iff_ne.2 (ne_of_mem_of_not_mem (List.mem_reverse.1 hn) h).symm

variable {m : Module}

/-- What is bound last counts. -/
theorem lookup_topNames (name : String) : m.topNames.reverse.lookup name =
    if name ∈ m.laterNames then some .top
    else if name ∈ m.hookModules.map firstPart then some (.hookModule name)
    else if name ∈ m.earlierNames then some .top
    else none := by
  simp only [topNames, List.reverse_append, List.lookup_append,
    lookup_reverse_map _ (fun _ => Meaning.top), lookup_reverse_map _ Meaning.hookModule]
  by_cases hlater : name ∈ m.laterNames
  · simp only [if_pos hlater, Option.some_or]
  · by_cases hhook : name ∈ m.hookModules.map firstPart
    · simp only [if_neg hlater, if_pos hhook, Option.none_or, Option.some_or]
    · simp only [if_neg hlater, if_neg hhook, Option.none_or]

/-- A name means the module of a hook just if nothing of the method, the class or the rest of the
module has it. -/
theorem meaning_eq_hookModule_iff {home name : String} {f : Method} :
    m.meaning home f name = .hookModule name ↔ privateName home name = name ∧ name ∉ f.scope ∧
      name ≠ "__class__" ∧ name ∉ m.laterNames ∧ name ∈ m.hookModules.map firstPart := by
  simp only [meaning, lookup_topNames]
  constructor
  · intro h
    split at h
    next => cases h
    next hscope =>
      split at h
      next => cases h
      next hclass =>
        split at h
        next => cases h
        next hlater =>
          split at h
          next hhook =>
            obtain heq := Meaning.hookModule.inj h
            rw [heq] at hscope hclass hlater hhook
            exact ⟨heq, hscope, hclass, hlater, hhook⟩
          next => split at h <;> cases h
  · rintro ⟨heq, hscope, hclass, hlater, hhook⟩
    rw [heq, if_neg hscope, if_neg hclass, if_neg hlater, if_pos hhook]
    rfl

end Module

/-! ## The names of a method -/

theorem Segment.assigned_encodeStatement (table : CodecTable) (owner object : String)
    (g : Segment) : (g.encodeStatement table owner object).assigned = [] := by
  cases g with
  | packed fields => rfl
  | single field c => cases c <;> rfl

theorem Segment.assigned_decodeStatement (table : CodecTable) (owner : String) (g : Segment) :
    (g.decodeStatement table owner).assigned = g.idents.map localName ++ ["_data"] := by
  cases g with
  | packed fields =>
    rw [idents, List.map_map]
    rfl
  | single field c => cases c <;> rfl

/-- Decoding assigns a local for each field, and what is left of the input. -/
theorem mem_assigned_decodeStatements_iff {table : CodecTable} {owner : String}
    {fields : List Field} {name : String} (hname : name ≠ "_data") :
    name ∈ ((Segment.ofFields fields).map (Segment.decodeStatement table owner)).flatMap
        Statement.assigned ↔ name ∈ fields.map fun f => localName f.ident := by
  have hlocals : (fields.map fun f => localName f.ident) =
      (Segment.ofFields fields).flatMap fun g => g.idents.map localName := by
    rw [← List.map_flatMap, Segment.flatMap_idents_ofFields, List.map_map]
    rfl
  rw [hlocals, List.flatMap_map, List.mem_flatMap, List.mem_flatMap]
  simp only [Segment.assigned_decodeStatement, List.mem_append, List.mem_singleton, hname, or_false]

namespace Declaration

variable (table : CodecTable) (d : Declaration)

theorem assigned_replaceSelf (hook? : Option String) :
    (hook?.toList.map fun h => .replaceSelf (hookExpression h)).flatMap Statement.assigned =
      if hook?.isSome then ["_self"] else [] := by
  cases hook? <;> rfl

theorem assigned_finishBuffer (hook? : Option String) :
    (hook?.toList.map fun h => .finishBuffer (hookExpression h)).flatMap Statement.assigned = [] := by
  cases hook? <;> rfl

theorem mem_assigned_openInput {hook? : Option String} {name : String} (hname : name ≠ "_data") :
    name ∉ (hook?.toList.map fun h => .openInput (hookExpression h)).flatMap Statement.assigned := by
  cases hook? with
  | none => exact List.not_mem_nil
  | some h => exact fun hmem => hname (List.mem_singleton.1 hmem)

theorem scope_encodeMethod : (d.encodeMethod table).scope =
    ["self", "_buf"] ++ if d.attributes.preEncode.isSome then ["_self"] else [] := by
  have hparameters : (d.encodeMethod table).parameters = ["self", "_buf"] := by cases d <;> rfl
  rw [Method.scope, hparameters]
  congr 1
  cases d with
  | record r =>
    have hfields : (r.segments.map (Segment.encodeStatement table r.name
        (RecordLayout.sourceObject r.attributes))).flatMap Statement.assigned = [] := by
      rw [List.flatMap_eq_nil_iff, List.forall_mem_map]
      exact fun g _ => g.assigned_encodeStatement table r.name _
    simp only [encodeMethod, Method.ofEncode, RecordLayout.encodeBody, List.flatMap_append,
      assigned_replaceSelf, hfields, assigned_finishBuffer, List.append_nil]
    rfl
  | union u =>
    simp only [encodeMethod, Method.ofEncode, UnionLayout.encodeBody, List.flatMap_append,
      assigned_replaceSelf, assigned_finishBuffer, List.append_nil]
    exact List.append_nil _

theorem mem_scope_decodeMethod_iff {name : String} : name ∈ (d.decodeMethod table).scope ↔
    name ∈ HookKind.preDecode.parameters ∨ name ∈ HookKind.preDecode.assigned d := by
  rw [Method.scope, List.mem_append]
  by_cases hname : name = "_data"
  · -- The input is a parameter, whether or not it is assigned.
    have hparameter : name ∈ HookKind.preDecode.parameters := hname ▸ .tail _ (.head _)
    refine iff_of_true (.inl ?_) (.inl hparameter)
    cases d <;> exact hparameter
  · cases d with
    | record r =>
      refine or_congr Iff.rfl ?_
      simp only [decodeMethod, Method.ofDecode, RecordLayout.decodeBody, RecordLayout.segments,
        List.flatMap_append, List.mem_append, mem_assigned_openInput hname, false_or,
        mem_assigned_decodeStatements_iff hname]
      exact or_iff_left List.not_mem_nil
    | union u =>
      refine or_congr Iff.rfl ?_
      simp only [decodeMethod, Method.ofDecode, UnionLayout.decodeBody, List.flatMap_append,
        List.mem_append, mem_assigned_openInput hname, false_or]
      simp only [List.flatMap_cons, List.flatMap_nil, Statement.assigned, Statement.locals,
        HookKind.assigned, List.mem_append, List.mem_cons, List.not_mem_nil, hname, or_false,
        false_or]

theorem mem_scope_hookMethod_iff {hook : HookKind} {name : String} :
    name ∈ (d.hookMethod table hook).scope ↔ name ∈ hook.parameters ∨ name ∈ hook.assigned d := by
  cases hook with
  | preEncode | postEncode =>
    rw [hookMethod, scope_encodeMethod]
    exact List.mem_append
  | preDecode | postDecode => exact d.mem_scope_decodeMethod_iff table

end Declaration

/-! ## The names of a module -/

namespace Layout

variable {S : Layout} {runtime : String}

theorem mem_classNames_iff {name : String} : name ∈ (S.emitted runtime).classNames ↔
    name ∈ S.names ∨ ∃ u ∈ S.unions, ∃ index < u.variants.length,
      VariantLayout.className u.name index = name := by
  rw [← map_text_classTopNames, List.mem_map]
  constructor
  · rintro ⟨a, ha, rfl⟩
    rcases List.mem_append.1 ha with ha | ha
    · obtain ⟨r, hr, rfl⟩ := List.mem_map.1 ha
      exact .inl (List.mem_append_left _ (List.mem_map_of_mem hr))
    · obtain ⟨u, hu, ha⟩ := List.mem_flatMap.1 ha
      rcases List.mem_cons.1 ha with rfl | ha
      · exact .inl (List.mem_append_right _ (List.mem_map_of_mem hu))
      · obtain ⟨index, hindex, rfl⟩ := List.mem_map.1 ha
        exact .inr ⟨u, hu, index, List.mem_range.1 hindex, rfl⟩
  · rintro (h | ⟨u, hu, index, hindex, rfl⟩)
    · exact ⟨.declared name, mem_classTopNames_of_mem_names h, rfl⟩
    · exact ⟨.variant u.name index, List.mem_append_right _ (List.mem_flatMap.2 ⟨u, hu,
        .tail _ (List.mem_map_of_mem (List.mem_range.2 hindex))⟩), rfl⟩

theorem mem_laterNames_iff {name : String} : name ∈ (S.emitted runtime).laterNames ↔
    (Module.isLocal runtime = true ∧ name ∈ ["_runtime_path", "_added_to_path"]) ∨
      name ∈ runtimeNames ∨ name ∈ (S.emitted runtime).classNames ∨
        ∃ index < (CodecTable.ofLayout S).length, CodecTable.entryName index = name := by
  have hhelper : name ∈ (if Module.isLocal runtime then ["_runtime_path", "_added_to_path"] else []) ↔
      Module.isLocal runtime = true ∧ name ∈ ["_runtime_path", "_added_to_path"] := by
    cases Module.isLocal runtime <;> simp
  simp only [Module.laterNames, map_fst_codecs, List.mem_append, List.mem_map, List.mem_range,
    or_assoc]
  exact or_congr hhelper Iff.rfl

/-- What takes the place of a module, by where it is bound. -/
theorem captures_iff {d : Declaration} {hook : HookKind} {name : String} :
    S.Captures runtime d hook name ↔ privateName d.name name ≠ name ∨
      name ∈ (d.hookMethod (CodecTable.ofLayout S) hook).scope ∨ name = "__class__" ∨
        name ∈ (S.emitted runtime).laterNames := by
  rw [Declaration.mem_scope_hookMethod_iff, mem_laterNames_iff, mem_classNames_iff]
  constructor
  · intro h
    cases h with
    | runtime h => exact .inr (.inr (.inr (.inr (.inl h))))
    | helper hlocal h => exact .inr (.inr (.inr (.inl ⟨hlocal, h⟩)))
    | declared h => exact .inr (.inr (.inr (.inr (.inr (.inl (.inl h))))))
    | variant hu hindex =>
      exact .inr (.inr (.inr (.inr (.inr (.inl (.inr ⟨_, hu, _, hindex, rfl⟩))))))
    | codec hindex => exact .inr (.inr (.inr (.inr (.inr (.inr ⟨_, hindex, rfl⟩)))))
    | parameter h => exact .inr (.inl (.inl h))
    | assigned h => exact .inr (.inl (.inr h))
    | ownClass => exact .inr (.inr (.inl rfl))
    | ofClass h => exact .inl h
  · rintro (h | (h | h) | rfl | ⟨hlocal, h⟩ | h | (h | ⟨u, hu, index, hindex, rfl⟩) |
      ⟨index, hindex, rfl⟩)
    · exact .ofClass h
    · exact .parameter h
    · exact .assigned h
    · exact .ownClass
    · exact .helper hlocal h
    · exact .runtime h
    · exact .declared h
    · exact .variant hu hindex
    · exact .codec hindex

theorem privateName_of_head? {home name : String} (h : name.toList.head? ≠ some '_') :
    privateName home name = name := by
  have hstart : name.startsWith "__" = false := by
    rw [← Bool.not_eq_true, String.startsWith_string_iff]
    rintro ⟨cs, hcs⟩
    rw [← hcs] at h
    exact h rfl
  simp [privateName, hstart]

theorem head?_of_mem_assigned {d : Declaration} {hook : HookKind} {name : String}
    (h : name ∈ hook.assigned d) : name.toList.head? = some '_' := by
  cases hook with
  | preEncode | postEncode =>
    rw [HookKind.assigned] at h
    split at h
    next =>
      obtain rfl := List.mem_singleton.1 h
      rfl
    next => cases h
  | preDecode | postDecode =>
    cases d with
    | record r =>
      obtain ⟨f, -, rfl⟩ := List.mem_map.1 h
      simp [localName, String.toList_append]
    | union u =>
      have hall : ∀ name ∈ ["_tag", "_variant", "_value"], name.toList.head? = some '_' := by decide
      exact hall name h

/-- A module with a name that starts with a letter is not reached just if its name is that of
something in the runtime, of a declared type, or of the object or the class. -/
theorem captures_iff_of_head? {d : Declaration} {hook : HookKind} {name : String}
    (hname : name.toList.head? ≠ some '_') : S.Captures runtime d hook name ↔
      name ∈ runtimeNames ∨ name ∈ S.names ∨ name ∈ hook.parameters := by
  constructor
  · intro h
    cases h with
    | runtime h => exact .inl h
    | declared h => exact .inr (.inl h)
    | parameter h => exact .inr (.inr h)
    | helper _ h =>
      have hall : ∀ name ∈ ["_runtime_path", "_added_to_path"], name.toList.head? = some '_' := by
        decide
      exact absurd (hall name h) hname
    | @variant u index =>
      rw [TopName.toList_className] at hname
      exact absurd rfl hname
    | @codec index =>
      rw [TopName.toList_entryName] at hname
      exact absurd rfl hname
    | assigned h => exact absurd (head?_of_mem_assigned h) hname
    | ownClass => exact absurd rfl hname
    | ofClass h => exact absurd (privateName_of_head? hname) h
  · rintro (h | h | h)
    · exact .runtime h
    · exact .declared h
    · exact .parameter h

end Layout

/-! ## Hooks -/

/-- A dotted name starts with the first part of it. -/
theorem head?_dottedParts {name : String} (h : Dotted name.toList) :
    (dottedParts name).head? = some (firstPart name) := by
  have hend : withoutFinalNewline name.toList = name.toList := by
    rw [withoutFinalNewline, if_neg]
    exact fun hlast => h.notMem (by decide) (by decide) (List.mem_of_getLast? hlast)
  rw [dottedParts, hend, List.head?_map, Text.head?_segments]
  rfl

/-- The expression for a hook in a module starts as the name of the module does. -/
theorem firstPart_hookExpression {path home member : String}
    (h : splitHookPath path = (some home, member)) :
    firstPart (hookExpression path) = firstPart home := by
  rw [hookExpression, h]
  exact firstPart_append_dot home member

namespace Layout

variable {S : Layout}

theorem Declares.mem_hookModules {d : Declaration} (hd : S.Declares d) {hook : HookKind}
    {path home member : String} (hpath : hook.path? d.attributes = some path)
    (hsplit : splitHookPath path = (some home, member)) : home ∈ S.hookModules := by
  rw [hookModules, List.mem_eraseDups, List.mem_filterMap]
  refine ⟨path, List.mem_flatMap.2 ⟨_, hd.attributes_mem, ?_⟩, by rw [hsplit]⟩
  exact TypeAttributes.mem_hooks_iff.2 ⟨hook, hpath⟩

/-! ## Runs -/

theorem constant?_eq_none {name : String} (h : name ∉ keywords) : constant? name = none := by
  unfold constant?
  split
  next => exact absurd (by decide) h
  next => exact absurd (by decide) h
  next => exact absurd (by decide) h
  next => rfl

/-- What is imported is from the runtime, but for two names. -/
theorem importedEntity?_eq_none {name : String} (h : name ∉ runtimeNames)
    (hheader : name ∉ ["annotations", "dataclass"]) : importedEntity? name = none := by
  have hcodecs : ∀ p ∈ Primitive.all, p.codecName ∈ runtimeNames := by decide +kernel
  have hfamilies : ∀ f ∈ CodecFamily.imported, f.className ∈ runtimeNames := by decide
  have hnone : Primitive.all.find? (·.codecName = name) = none :=
    List.find?_eq_none.2 fun p hp heq => h (of_decide_eq_true heq ▸ hcodecs p hp)
  have hnone' : CodecFamily.imported.find? (·.className = name) = none :=
    List.find?_eq_none.2 fun f hf heq => h (of_decide_eq_true heq ▸ hfamilies f hf)
  unfold importedEntity?
  rw [hnone, hnone']
  dsimp only
  split
  next => exact absurd (by decide) h
  next => exact absurd (by decide) h
  next => exact absurd (by decide) h
  next => exact absurd (by decide) h
  next => exact absurd (by decide) hheader
  next =>
    rw [if_neg]
    simp only [List.mem_cons, List.not_mem_nil, or_false, not_or] at hheader
    simp [h, hheader.2]

variable {d : Declaration} {hook : HookKind} {name : String} {runtime : String}

theorem entity?_eq_none (h : ¬ S.Captures runtime d hook name) (hkeyword : name ∉ keywords)
    (hheader : name ∉ ["annotations", "dataclass"]) : S.entity? name = none := by
  have hcodec : S.entryCodec? name = none := by
    rw [entryCodec?, Option.map_eq_none_iff, List.find?_eq_none]
    intro e he heq
    obtain rfl := of_decide_eq_true heq
    exact h (.codec (List.snd_lt_of_mem_zipIdx he))
  have hnames : name ∉ S.names := fun hname => h (.declared hname)
  rw [names, List.mem_append, not_or] at hnames
  have hrecord : S.record? name = none :=
    List.find?_eq_none.2 fun r hr heq =>
      hnames.1 (of_decide_eq_true heq ▸ List.mem_map_of_mem hr)
  have hunion : S.union? name = none :=
    List.find?_eq_none.2 fun u hu heq =>
      hnames.2 (of_decide_eq_true heq ▸ List.mem_map_of_mem hu)
  have hvariant : S.variantClass? name = none := by
    rw [variantClass?, List.findSome?_eq_none_iff]
    intro u hu
    rw [Option.map_eq_none_iff, List.find?_eq_none]
    intro v hv heq
    obtain rfl := of_decide_eq_true heq
    exact h (.variant hu (List.snd_lt_of_mem_zipIdx hv))
  rw [entity?, constant?_eq_none hkeyword, hcodec, hrecord, hunion, hvariant]
  exact importedEntity?_eq_none (fun hruntime => h (.runtime hruntime)) hheader

theorem localsOf_eq_assigned {type : String} (h : S.declaration? type = some d) :
    Scene.localsOf S type = HookKind.preDecode.assigned d := by
  rw [Scene.localsOf, h]
  cases d <;> rfl

theorem mem_assigned_of_decodes {read : List (String × Value)} {v : Value} (h : d.Decodes read v)
    {f : String × Entity} (hf : f ∈ Scene.assigned S read v) :
    f.1 ∈ HookKind.postDecode.assigned d := by
  cases d with
  | record r =>
    obtain ⟨⟨fields, rfl⟩, hread⟩ := h
    obtain ⟨g, hg, rfl⟩ := List.mem_map.1 hf
    have hmem : g.1 ∈ r.wireFields.map Field.ident := hread ▸ List.mem_map_of_mem hg
    obtain ⟨field, hfield, hname⟩ := List.mem_map.1 hmem
    exact List.mem_map.2 ⟨field, hfield, congrArg localName hname⟩
  | union u =>
    obtain ⟨name, fields, rfl⟩ := h
    rcases List.mem_append.1 hf with hf | hf
    · rcases List.mem_cons.1 hf with rfl | hf
      · exact .tail _ (.head _)
      · obtain rfl := List.mem_singleton.1 hf
        exact .tail _ (.tail _ (.head _))
    · obtain ⟨e, -, rfl⟩ := Option.map_eq_some_iff.1 (Option.mem_toList.1 hf)
      exact .head _

/-- The names that a method knows while it runs are its own. -/
theorem captures_of_mem_names {scene : Scene} (hscene : scene.Stages S d hook) {data : Entity}
    {p : String × Option Entity} (hp : p ∈ scene.names S data) : S.Captures runtime d hook p.1 := by
  rcases List.mem_cons.1 hp with rfl | hp
  · exact .ownClass
  cases hscene with
  | opening hpre =>
    have hstandin : "_self" ∈ HookKind.preEncode.assigned d := by
      rw [HookKind.assigned, if_pos hpre]
      exact .head _
    simp only [Scene.locals, List.mem_cons, List.not_mem_nil, or_false] at hp
    rcases hp with rfl | rfl | rfl
    · exact .parameter (.head _)
    · exact .parameter (.tail _ (.head _))
    · exact .assigned hstandin
  | @closing v standin? hpre =>
    rcases List.mem_append.1 hp with hp | hp
    · simp only [List.mem_cons, List.not_mem_nil, or_false] at hp
      rcases hp with rfl | rfl
      · exact .parameter (.head _)
      · exact .parameter (.tail _ (.head _))
    · obtain ⟨w, hw, rfl⟩ := Option.map_eq_some_iff.1 (Option.mem_toList.1 hp)
      refine .assigned ?_
      rw [HookKind.assigned, if_pos (hpre (Option.isSome_iff_exists.2 ⟨w, hw⟩))]
      exact .head _
  | @entering type htype =>
    rcases List.mem_cons.1 hp with rfl | hp
    · exact .parameter (.tail _ (.head _))
    rcases List.mem_cons.1 hp with rfl | hp
    · exact .parameter (.head _)
    · obtain ⟨name, hname, rfl⟩ := List.mem_map.1 hp
      exact .assigned (localsOf_eq_assigned htype ▸ hname)
  | @leaving type read v htype hdecodes =>
    rcases List.mem_cons.1 hp with rfl | hp
    · exact .parameter (.tail _ (.head _))
    rcases List.mem_cons.1 hp with rfl | hp
    · exact .parameter (.head _)
    · obtain ⟨f, hf, rfl⟩ := List.mem_map.1 hp
      exact .assigned (mem_assigned_of_decodes hdecodes hf)

/-- A name that is not captured stands for a module of the caller's when a hook runs. -/
theorem front_of_not_captures (E : Surroundings) {scene : Scene}
    (hscene : scene.Stages S d hook) (data : Entity) (h : ¬ S.Captures runtime d hook name)
    (hkeyword : name ∉ keywords) (hheader : name ∉ ["annotations", "dataclass"])
    (himported : ∃ home ∈ S.hookModules, (dottedParts home).head? = some name) :
    E.front S scene data (privateName d.name name) =
      match E.modules.find? (·.1 = name) with
      | some (_, e) => .ok e
      | none => .error .unboundName := by
  have hprivate : privateName d.name name = name := Decidable.not_not.1 fun hne => h (.ofClass hne)
  have hlocal : (scene.names S data).find? (·.1 = name) = none :=
    List.find?_eq_none.2 fun p hp heq =>
      h (of_decide_eq_true heq ▸ captures_of_mem_names hscene hp)
  have hany : (S.hookModules.any fun m => (dottedParts m).head? = some name) = true := by
    simpa only [List.any_eq_true, decide_eq_true_eq] using himported
  have hroot : E.root? S name = (E.modules.find? (·.1 = name)).map Prod.snd := by
    rw [Surroundings.root?, entity?_eq_none h hkeyword hheader, hany]
    rfl
  rw [Surroundings.front, hprivate, hlocal, hroot]
  cases E.modules.find? (·.1 = name) <;> rfl

/-- The modules of hooks in an emitted module. All hooks that its methods call were given for some
declaration. Each that names a module has it imported, and is called by an expression that starts as
the name of the module does. There this first part means the module, unless it is captured. A name
that starts with a letter is captured only if it is that of something in the runtime, of a declared
type, or of a parameter: fields and variants cannot capture it. A hook whose module is not captured
is looked up in that module when it runs, keywords and the names that are imported from elsewhere
aside. -/
theorem means_hookModule_iff [Text.CharacterNames] {text : String} {S : Layout}
    (h : ofText text = .ok S)
    (runtime : String) :
    (∀ f ∈ (S.emitted runtime).methods, ∀ e ∈ f.hooks, ∃ d, S.Declares d ∧ ∃ hook path,
      f = d.hookMethod (CodecTable.ofLayout S) hook ∧ hook.path? d.attributes = some path ∧
        e = hookExpression path) ∧
    ∀ d, S.Declares d → ∀ hook path home member, hook.path? d.attributes = some path →
      splitHookPath path = (some home, member) →
        let f := d.hookMethod (CodecTable.ofLayout S) hook
        let first := firstPart home
        home ∈ (S.emitted runtime).hookModules ∧ f ∈ (S.emitted runtime).methods ∧
          hookExpression path ∈ f.hooks ∧ firstPart (hookExpression path) = first ∧
          ((S.emitted runtime).meaning d.name f first = .hookModule first ↔
            ¬ S.Captures runtime d hook first) ∧
          (first.toList.head? ≠ some '_' → (S.Captures runtime d hook first ↔
            first ∈ runtimeNames ∨ first ∈ S.names ∨ first ∈ hook.parameters)) ∧
          (¬ S.Captures runtime d hook first → first ∉ keywords →
            first ∉ ["annotations", "dataclass"] → ∀ (E : Surroundings) (scene : Scene),
              scene.Stages S d hook → ∀ data,
                E.front S scene data (privateName d.name first) =
                  match E.modules.find? (·.1 = first) with
                  | some (_, e) => .ok e
                  | none => .error .unboundName) := by
  refine ⟨fun f hf e he => exists_path_of_mem_hooks runtime hf he,
    fun d hd hook path home member hpath hsplit => ?_⟩
  have hhome := hd.mem_hookModules hpath hsplit
  have hdotted : Dotted home.toList := (isHookText_of_ofText h hd.attributes_mem
    (TypeAttributes.mem_hooks_iff.2 ⟨hook, hpath⟩)).dotted_home hsplit
  refine ⟨hhome, hd.hookMethod_mem runtime hook, d.hookExpression_mem_hooks _ hpath,
    firstPart_hookExpression hsplit, ?_, captures_iff_of_head?,
    fun hfree hkeyword hheader E scene hscene data => front_of_not_captures E hscene data hfree
      hkeyword hheader ⟨home, hhome, head?_dottedParts hdotted⟩⟩
  have hfirst : firstPart home ∈ (S.emitted runtime).hookModules.map firstPart :=
    List.mem_map_of_mem hhome
  rw [Module.meaning_eq_hookModule_iff, captures_iff]
  simp only [not_or, ne_eq, Decidable.not_not, hfirst, and_true]

/-- A field that is called like the module of a hook. -/
theorem means_hookModule_iff_of_like_field :
    ∃ S r, ofText "@codec(pre_enc_func = \"lib.hooks:f\") struct P \x7b lib: u8 \x7d" = .ok S ∧
      S.Declares (.record r) ∧ r.attributes.preEncode = some "lib.hooks:f" ∧
      r.wireFields.map Field.ident = ["lib"] ∧
      "lib.hooks" ∈ (S.emitted "runtime").hookModules ∧
      ¬ S.Captures "runtime" (.record r) .preEncode "lib" ∧
      (S.emitted "runtime").meaning r.name
        (Declaration.hookMethod (CodecTable.ofLayout S) (.record r) .preEncode) "lib" =
          .hookModule "lib" ∧
      ∀ (E : Surroundings) v data, E.front S (.opening r.name v) data (privateName r.name "lib") =
        match E.modules.find? (·.1 = "lib") with
        | some (_, e) => .ok e
        | none => .error .unboundName := by
  obtain ⟨S, hS, h⟩ := exists_of_any_ofText
    "@codec(pre_enc_func = \"lib.hooks:f\") struct P \x7b lib: u8 \x7d"
    (fun S => !S.names.contains "lib" && S.records.any fun r =>
      r.attributes.preEncode = some "lib.hooks:f" && r.wireFields.map Field.ident = ["lib"])
    (by decide +kernel)
  simp only [Bool.and_eq_true, Bool.not_eq_true', List.any_eq_true, decide_eq_true_eq] at h
  obtain ⟨hname, r, hr, hpath, hfields⟩ := h
  have hname : "lib" ∉ S.names := fun hmem => by
    rw [← List.contains_iff_mem, hname] at hmem
    cases hmem
  obtain ⟨hhome, -, -, -, hmeaning, hcaptures, hrun⟩ := (means_hookModule_iff hS "runtime").2
    (.record r) hr .preEncode "lib.hooks:f" "lib.hooks" "f" hpath (by decide)
  have hfree : ¬ S.Captures "runtime" (.record r) .preEncode "lib" := fun h =>
    ((hcaptures (by decide)).1 h).elim (by decide) fun h => h.elim hname (by decide)
  exact ⟨S, r, hS, hr, hpath, hfields, hhome, hfree, hmeaning.2 hfree, fun E v data =>
    hrun hfree (by decide) (by decide) E _ (.opening (Option.isSome_iff_exists.2 ⟨_, hpath⟩)) data⟩

/-- The class of a declared type takes the place of a module of its name. -/
theorem not_means_hookModule_of_like_type :
    ∃ S r, ofText "@codec(pre_enc_func = \"copy:copy\") struct copy \x7b x: u8 \x7d" = .ok S ∧
      S.Declares (.record r) ∧ r.attributes.preEncode = some "copy:copy" ∧
      "copy" ∈ (S.emitted "runtime").hookModules ∧ "copy" ∈ (S.emitted "runtime").classNames ∧
      (S.emitted "runtime").meaning r.name
        (Declaration.hookMethod (CodecTable.ofLayout S) (.record r) .preEncode) "copy" = .top := by
  obtain ⟨S, hS, h⟩ := exists_of_any_ofText
    "@codec(pre_enc_func = \"copy:copy\") struct copy \x7b x: u8 \x7d"
    (fun S => (S.emitted "runtime").hookModules.contains "copy" &&
      (S.emitted "runtime").classNames.contains "copy" && S.records.any fun r =>
        r.attributes.preEncode = some "copy:copy" && (S.emitted "runtime").meaning r.name
          (Declaration.hookMethod (CodecTable.ofLayout S) (.record r) .preEncode) "copy" = .top)
    (by decide +kernel)
  simp only [Bool.and_eq_true, List.any_eq_true, decide_eq_true_eq, List.contains_iff_mem] at h
  obtain ⟨⟨hmodule, hclass⟩, r, hr, hpath, hmeaning⟩ := h
  exact ⟨S, r, hS, hr, hpath, hmodule, hclass, hmeaning⟩

end Layout

end WireSchema
