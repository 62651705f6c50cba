import WireSchema.Emit.Hook
import WireSchema.Proofs.Layout.Accepting
import WireSchema.Proofs.Layout.WellFormed

/-!
# The hooks that emitted modules call

The methods of a declared type call its hooks and no others do. The call of a hook is one line, so it
stays one if the path of the hook is.
-/

namespace WireSchema

/-! ## First parts -/

theorem firstPart_append_dot (s t : String) : firstPart (s ++ "." ++ t) = firstPart s := by
  have hdot : (s ++ "." ++ t).toList = s.toList ++ '.' :: t.toList := by
    simp [String.toList_append]
  have hfirst : (Text.segments '.' (s.toList ++ '.' :: t.toList)).head? =
      (Text.segments '.' s.toList).head? := by
    rcases Text.segments_cases '.' s.toList with ⟨hs, hsegments⟩ | ⟨xs, ys, hxs, hs, hsegments⟩
    · rw [Text.segments_append_cons hs, hsegments, List.head?_cons, List.head?_cons]
    · rw [hsegments, hs, List.append_assoc, List.cons_append, Text.segments_append_cons hxs,
        List.head?_cons, List.head?_cons]
  rw [Text.head?_segments, Text.head?_segments] at hfirst
  rw [firstPart, firstPart, hdot, Option.some.inj hfirst]

theorem firstPart_of_notMem {s : String} (h : '.' ∉ s.toList) : firstPart s = s := by
  have hself := Text.takeWhile_ne_append h []
  rw [List.append_nil, List.takeWhile_nil, List.append_nil] at hself
  rw [firstPart, hself, String.ofList_toList]

/-! ## Lines -/

theorem Statement.returned_eq (e value : String) :
    ["return apply_post_decode(" ++ e ++ ", " ++ value ++ ", _data)"] =
      ["return apply_post_decode(" ++ e ++ (", " ++ value ++ ", _data)")] := by
  simp only [String.append_assoc]

/-- A statement that calls a hook is a line with the hook in it. -/
theorem Statement.exists_lines_of_hook? {s : Statement} {e : String} (h : s.hook? = some e) :
    ∃ front back : String, s.lines = [front ++ e ++ back] ∧ '\n' ∉ front.toList := by
  cases s with
  | replaceSelf hook =>
    cases h
    exact ⟨"_self = ", "(self)", rfl, by decide⟩
  | finishBuffer hook =>
    cases h
    exact ⟨"", "(_buf)", by rw [String.empty_append]; rfl, by decide⟩
  | openInput hook =>
    cases h
    exact ⟨"_data = apply_pre_decode(", ", _data)", rfl, by decide⟩
  | returnObject fields hook =>
    cases h
    exact ⟨_, _, returned_eq e (construction fields), by decide⟩
  | returnValue hook =>
    cases h
    exact ⟨_, _, returned_eq e "_value", by decide⟩
  | _ => cases h

/-! ## Hooks of methods -/

theorem Segment.hook?_encodeStatement (table : CodecTable) (owner object : String) (g : Segment) :
    (g.encodeStatement table owner object).hook? = none := by
  cases g with
  | packed fields => rfl
  | single field c => cases c <;> rfl

theorem Segment.hook?_decodeStatement (table : CodecTable) (owner : String) (g : Segment) :
    (g.decodeStatement table owner).hook? = none := by
  cases g with
  | packed fields => rfl
  | single field c => cases c <;> rfl

/-- Nothing is left of a list if nothing is left of what each element is made into. -/
theorem filterMap_map_eq_nil {α β γ : Type} {f : α → β} {g : β → Option γ}
    (h : ∀ a, g (f a) = none) (as : List α) : (as.map f).filterMap g = [] := by
  rw [List.filterMap_eq_nil_iff, List.forall_mem_map]
  exact fun a _ => h a

namespace Declaration

variable (table : CodecTable) (d : Declaration)

theorem hooks_encodeMethod : (d.encodeMethod table).hooks =
    (d.attributes.preEncode.toList ++ d.attributes.postEncode.toList).map hookExpression := by
  cases d with
  | record r =>
    have hfields := filterMap_map_eq_nil
      (Segment.hook?_encodeStatement table r.name (RecordLayout.sourceObject r.attributes))
      (Segment.ofFields r.wireFields)
    simp only [encodeMethod, attributes, Method.hooks, Method.ofEncode, RecordLayout.encodeBody,
      RecordLayout.segments, List.filterMap_append, hfields]
    cases r.attributes.preEncode <;> cases r.attributes.postEncode <;> rfl
  | union u =>
    simp only [encodeMethod, attributes, Method.hooks, Method.ofEncode, UnionLayout.encodeBody]
    cases u.attributes.preEncode <;> cases u.attributes.postEncode <;> rfl

theorem hooks_decodeMethod : (d.decodeMethod table).hooks =
    (d.attributes.preDecode.toList ++ d.attributes.postDecode.toList).map hookExpression := by
  cases d with
  | record r =>
    have hfields := filterMap_map_eq_nil (Segment.hook?_decodeStatement table r.name)
      (Segment.ofFields r.wireFields)
    simp only [decodeMethod, attributes, Method.hooks, Method.ofDecode, RecordLayout.decodeBody,
      RecordLayout.segments, List.filterMap_append, hfields]
    cases r.attributes.preDecode <;> cases r.attributes.postDecode <;> rfl
  | union u =>
    simp only [decodeMethod, attributes, Method.hooks, Method.ofDecode, UnionLayout.decodeBody]
    cases u.attributes.preDecode <;> cases u.attributes.postDecode <;> rfl

theorem hookExpression_mem_hooks {hook : HookKind} {path : String}
    (h : hook.path? d.attributes = some path) :
    hookExpression path ∈ (d.hookMethod table hook).hooks := by
  have hmem (p q : Option String) (hpq : some path = p ∨ some path = q) :
      hookExpression path ∈ (p.toList ++ q.toList).map hookExpression := by
    refine List.mem_map_of_mem (List.mem_append.2 ?_)
    simpa only [Option.mem_toList, Option.mem_def, eq_comm] using hpq
  cases hook with
  | preEncode =>
    rw [hookMethod, hooks_encodeMethod]
    exact hmem _ _ (.inl h.symm)
  | postEncode =>
    rw [hookMethod, hooks_encodeMethod]
    exact hmem _ _ (.inr h.symm)
  | preDecode =>
    rw [hookMethod, hooks_decodeMethod]
    exact hmem _ _ (.inl h.symm)
  | postDecode =>
    rw [hookMethod, hooks_decodeMethod]
    exact hmem _ _ (.inr h.symm)

/-- A method calls no hooks but those that are called in it. -/
theorem exists_path_of_mem_hooks {f : Method}
    (hf : f = d.encodeMethod table ∨ f = d.decodeMethod table) {e : String} (he : e ∈ f.hooks) :
    ∃ hook path, f = d.hookMethod table hook ∧ hook.path? d.attributes = some path ∧
      e = hookExpression path := by
  rcases hf with rfl | rfl
  · rw [hooks_encodeMethod] at he
    obtain ⟨path, hpath, rfl⟩ := List.mem_map.1 he
    rcases List.mem_append.1 hpath with hpath | hpath
    · exact ⟨.preEncode, path, rfl, Option.mem_toList.1 hpath, rfl⟩
    · exact ⟨.postEncode, path, rfl, Option.mem_toList.1 hpath, rfl⟩
  · rw [hooks_decodeMethod] at he
    obtain ⟨path, hpath, rfl⟩ := List.mem_map.1 he
    rcases List.mem_append.1 hpath with hpath | hpath
    · exact ⟨.preDecode, path, rfl, Option.mem_toList.1 hpath, rfl⟩
    · exact ⟨.postDecode, path, rfl, Option.mem_toList.1 hpath, rfl⟩

end Declaration

/-! ## Modules -/

namespace Layout

variable {S : Layout} (runtime : String)

theorem Declares.hookMethod_mem {d : Declaration} (hd : S.Declares d) (hook : HookKind) :
    d.hookMethod (CodecTable.ofLayout S) hook ∈ (S.emitted runtime).methods := by
  cases d with
  | record r =>
    refine List.mem_append_left _ (List.mem_flatMap.2 ⟨_, List.mem_map_of_mem hd,
      List.mem_append_left _ ?_⟩)
    cases hook with
    | preEncode | postEncode => exact .head _
    | preDecode | postDecode => exact .tail _ (.head _)
  | union u =>
    refine List.mem_append_right _ (List.mem_flatMap.2 ⟨_, List.mem_map_of_mem hd,
      List.mem_append_left _ ?_⟩)
    cases hook with
    | preEncode | postEncode => exact .head _
    | preDecode | postDecode => exact .tail _ (.head _)

theorem hooks_of_mem_variantMethods {table : CodecTable} {u : UnionLayout} {v : VariantLayout}
    {index : Nat} : ∀ f ∈ (v.emitted table u index).methods, f.hooks = [] := by
  have hencode := filterMap_map_eq_nil
    (Segment.hook?_encodeStatement table (VariantLayout.ownerName u v) "self")
    (Segment.ofFields v.variant.fields)
  have hdecode := filterMap_map_eq_nil
    (Segment.hook?_decodeStatement table (VariantLayout.ownerName u v))
    (Segment.ofFields v.variant.fields)
  refine List.forall_mem_cons.2 ⟨hencode, List.forall_mem_singleton.2 ?_⟩
  rw [Method.hooks, Method.ofDecode, VariantLayout.emitted, VariantLayout.decodeBody,
    VariantLayout.segments, List.filterMap_append, hdecode]
  rfl

/-- The methods of variants and those that make defaults call no hooks. -/
theorem hooks_of_mem_methods {f : Method} (hf : f ∈ (S.emitted runtime).methods) :
    (∃ d, S.Declares d ∧ (f = d.encodeMethod (CodecTable.ofLayout S) ∨
      f = d.decodeMethod (CodecTable.ofLayout S))) ∨ f.hooks = [] := by
  rcases List.mem_append.1 hf with hf | hf
  · obtain ⟨c, hc, hf⟩ := List.mem_flatMap.1 hf
    obtain ⟨r, hr, rfl⟩ := List.mem_map.1 hc
    rcases List.mem_append.1 hf with hf | hf
    · exact .inl ⟨.record r, hr, (List.mem_cons.1 hf).imp_right List.mem_singleton.1⟩
    · obtain ⟨fields, -, rfl⟩ := List.mem_map.1 hf
      exact .inr rfl
  · obtain ⟨c, hc, hf⟩ := List.mem_flatMap.1 hf
    obtain ⟨u, hu, rfl⟩ := List.mem_map.1 hc
    rcases List.mem_append.1 hf with hf | hf
    · exact .inl ⟨.union u, hu, (List.mem_cons.1 hf).imp_right List.mem_singleton.1⟩
    · obtain ⟨c, hc, hf⟩ := List.mem_flatMap.1 hf
      obtain ⟨index, hindex, rfl⟩ := List.mem_mapIdx.1 hc
      exact .inr (hooks_of_mem_variantMethods f hf)

/-- Whatever hook a method of a module calls was given for it. -/
theorem exists_path_of_mem_hooks {f : Method} (hf : f ∈ (S.emitted runtime).methods) {e : String}
    (he : e ∈ f.hooks) : ∃ d, S.Declares d ∧ ∃ hook path,
      f = d.hookMethod (CodecTable.ofLayout S) hook ∧ hook.path? d.attributes = some path ∧
        e = hookExpression path := by
  rcases hooks_of_mem_methods runtime hf with ⟨d, hd, hf⟩ | hnone
  · exact ⟨d, hd, d.exists_path_of_mem_hooks _ hf he⟩
  · rw [hnone] at he
    cases he

/-- Without hooks there are none to call. -/
theorem HookFree.hooks_eq_nil_of_mem_methods (h : S.HookFree) {f : Method}
    (hf : f ∈ (S.emitted runtime).methods) : f.hooks = [] := by
  rw [List.eq_nil_iff_forall_not_mem]
  intro e he
  obtain ⟨d, hd, hook, path, -, hpath, -⟩ := exists_path_of_mem_hooks runtime hf he
  have hmem := TypeAttributes.mem_hooks_iff.2 ⟨hook, hpath⟩
  rw [h _ hd.attributes_mem] at hmem
  cases hmem

end Layout

/-! ## Texts for hooks -/

/-- A text can be given for a hook if it is a path, or a path with a line feed behind it: any
annotation that is accepted without it is then accepted with it, and the hook is that text. Any other
text is refused where it stands. In an emitted module a hook is called on one line, and its
expression stays on this line but for such a line feed. -/
theorem accepted_iff_isHookText [Text.CharacterNames] (hook : HookKind) (s : String)
    (at₁ at₂ : Location) :
    let x : Argument := .keyed hook.key (.string s) at₁ at₂
    (∀ (before after : List AnnotationBlock) (xs ys : List Argument) (l : Location),
      (∃ a, TypeAttributes.resolve (before ++ ⟨blockName, xs ++ x :: ys, l⟩ :: after) = .ok a) ↔
        IsHookText s ∧
          ∃ a, TypeAttributes.resolve (before ++ ⟨blockName, xs ++ ys, l⟩ :: after) = .ok a) ∧
    (∀ l, (IsHookText s → TypeAttributes.resolve [⟨blockName, [x], l⟩] = .ok (hook.attributes s)) ∧
      (¬ IsHookText s →
        TypeAttributes.resolve [⟨blockName, [x], l⟩] = unresolved (.invalidHookPath s) at₂)) ∧
    (HookPath s.toList ↔ IsHookText s ∧ s.toList.getLast? ≠ some '\n') ∧
    ∀ (text : String) (S : Layout) (runtime : String), Layout.ofText text = .ok S →
      ∀ f ∈ (S.emitted runtime).methods, ∀ st ∈ f.body, ∀ e, st.hook? = some e →
        ∃ path : String, HookPath path.toList ∧ '\n' ∉ (hookExpression path).toList ∧
          (e = hookExpression path ∨ e = hookExpression path ++ "\n") ∧
            ∃ front back : String, st.lines = [front ++ e ++ back] ∧ '\n' ∉ front.toList := by
  intro x
  refine ⟨fun before after xs ys l => ?_, fun l => ?_, hookPath_iff_isHookText,
    fun text S runtime hS f hf st hst e he => ?_⟩
  · rw [← TypeAttributes.argument_hook_ok_iff (l := l)]
    exact TypeAttributes.vocabulary.resolve_insert_ok_iff
  · rw [TypeAttributes.resolve, TypeAttributes.vocabulary.resolve_argument]
    rw [← isHookPath_iff]
    exact ⟨fun h => (TypeAttributes.argument_hook l hook s at₁ at₂).trans (if_pos h),
      fun h => (TypeAttributes.argument_hook l hook s at₁ at₂).trans (if_neg h)⟩
  · obtain ⟨d, hd, hook, path, -, hpath, rfl⟩ :=
      Layout.exists_path_of_mem_hooks runtime hf (List.mem_filterMap.2 ⟨st, hst, he⟩)
    have hmem : path ∈ d.attributes.hooks := TypeAttributes.mem_hooks_iff.2 ⟨hook, hpath⟩
    obtain ⟨p, hp, rfl | rfl⟩ := Layout.isHookText_of_ofText hS hd.attributes_mem hmem
    · exact ⟨path, hp, hp.newline_notMem_hookExpression, .inl rfl,
        Statement.exists_lines_of_hook? he⟩
    · exact ⟨p, hp, hp.newline_notMem_hookExpression, .inr (hookExpression_append_newline p),
        Statement.exists_lines_of_hook? he⟩

/-- A hook in a module is called by the dotted name of both, on one line. -/
theorem accepted_iff_isHookText_of_module :
    let x : Argument := .keyed "pre_enc_func" (.string "m.n:f") ⟨1, 8⟩ ⟨1, 23⟩
    TypeAttributes.resolve [⟨blockName, [x], ⟨1, 1⟩⟩] =
        .ok (HookKind.preEncode.attributes "m.n:f") ∧
      HookPath "m.n:f".toList ∧
      ∃ S, Layout.ofText "@codec(pre_enc_func = \"m.n:f\") struct A" = .ok S ∧
        ∃ f ∈ (S.emitted "runtime").methods, ∃ st ∈ f.body, st.hook? = some "m.n.f" ∧
          ∃ path : String, HookPath path.toList ∧ '\n' ∉ (hookExpression path).toList ∧
            ("m.n.f" = hookExpression path ∨ "m.n.f" = hookExpression path ++ "\n") ∧
              ∃ front back : String, st.lines = [front ++ "m.n.f" ++ back] ∧
                '\n' ∉ front.toList := by
  intro x
  obtain ⟨-, hone, hpath, hmodule⟩ :=
    accepted_iff_isHookText .preEncode "m.n:f" ⟨1, 8⟩ ⟨1, 23⟩
  have htext : IsHookText "m.n:f" := isHookPath_iff.1 (by decide)
  obtain ⟨S, hS, h⟩ := Layout.exists_of_any_ofText "@codec(pre_enc_func = \"m.n:f\") struct A"
    (fun S => (S.emitted "runtime").methods.any fun f => f.body.any fun st =>
      st.hook? = some "m.n.f") (by decide +kernel)
  simp only [List.any_eq_true, decide_eq_true_eq] at h
  obtain ⟨f, hf, st, hst, he⟩ := h
  exact ⟨(hone ⟨1, 1⟩).1 htext, hpath.2 ⟨htext, by decide⟩, S, hS, f, hf, st, hst, he,
    hmodule _ S "runtime" hS f hf st hst "m.n.f" he⟩

/-- A path with a line feed behind it is accepted, and its call is torn apart. -/
theorem accepted_of_final_newline :
    ¬ HookPath "mark\n".toList ∧
      ∃ S, Layout.ofText "@codec(post_enc_func = \"mark\\n\") struct A" = .ok S ∧
        (∃ r ∈ S.records, r.attributes.postEncode = some "mark\n") ∧
          ∃ f ∈ (S.emitted "runtime").methods,
            Module.bodyLines f.body = ["        mark", "        (_buf)"] := by
  refine ⟨fun h => h.newline_notMem (by decide), ?_⟩
  obtain ⟨S, hS, h⟩ := Layout.exists_of_any_ofText "@codec(post_enc_func = \"mark\\n\") struct A"
    (fun S => (S.records.any fun r => r.attributes.postEncode = some "mark\n") &&
      (S.emitted "runtime").methods.any fun f =>
        Module.bodyLines f.body = ["        mark", "        (_buf)"]) (by decide +kernel)
  simp only [Bool.and_eq_true, List.any_eq_true, decide_eq_true_eq] at h
  exact ⟨S, hS, h⟩

end WireSchema
