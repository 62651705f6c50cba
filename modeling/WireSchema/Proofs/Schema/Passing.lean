import WireSchema.Proofs.Layout.Defaults

/-!
# What passes the checks

A well-formed schema passes all checks, as what passes is well formed. So what the checks come to is
known without going through them.
-/

namespace WireSchema

theorem checkName_of_freeName {name : String} (h : FreeName name) (what : String) (l : Location) :
    checkName name what l = .ok () := by
  obtain ⟨hkeyword, hhead, hmember⟩ := h
  rw [checkName, isReservedName, if_neg]
  · rfl
  · simp only [Bool.or_eq_true, List.contains_iff_mem, decide_eq_true_eq]
    rintro ((h | h) | h)
    · exact hkeyword h
    · exact hhead h
    · exact hmember h

theorem FreeTypeName.isReservedTypeName {name : String} (h : FreeTypeName name) :
    ¬ isReservedTypeName name = true := by
  simp only [WireSchema.isReservedTypeName, isPrimitiveName, h.ofName?_eq_none,
    h.genericArity?_eq_none, Option.isSome_none, Bool.or_false, List.contains_iff_mem]
  exact h.2.1

theorem bind_eq_ok {ε α β : Type} {x : Except ε α} {f : α → Except ε β} {a : α} {b : β}
    (h : x = .ok a) (hf : f a = .ok b) : (x >>= f) = .ok b := by
  rw [h]
  exact hf

theorem eq_ok_of_not {α : Type} {c : Prop} [Decidable c] {fault : SchemaFault} {l : Location}
    {next : Unit → Checked α} {a : α} (hc : ¬ c) (h : next () = .ok a) :
    (if c then (refuse fault l : Checked Unit) >>= next else next ()) = .ok a := by
  rw [if_neg hc]
  exact h

/-! ## Types -/

theorem checkType_primitive (declared : List String) (l : Location) (p : Primitive) :
    checkType declared l (.named p.name) = .ok () := by
  have harity : genericArity? p.name = none := by
    cases p with
    | int k => cases k <;> decide
    | _ => decide
  simp only [checkType, harity, isPrimitiveName, Primitive.ofName?_name, Option.isSome_some,
    Bool.true_or, if_true]
  rfl

section

variable {declared : List String} (hfree : ∀ name ∈ declared, FreeTypeName name)
include hfree

theorem checkType_of_wellFormed {t : TypeExpr} (ht : t.WellFormed declared) (l : Location) :
    checkType declared l t = .ok () := by
  induction ht with
  | primitive p => exact checkType_primitive declared l p
  | @declared name hname =>
    have hmem := List.contains_iff_mem.2 hname
    simp only [checkType, (hfree name hname).genericArity?_eq_none, hmem, Bool.or_true, if_true]
    rfl
  | optional _ ih | list _ ih =>
    simp only [checkType, checkTypes, ih]
    rfl
  | @map key t _ ih =>
    have hkey : (TypeExpr.named key.name).primitive?.isSome := by
      simp [TypeExpr.primitive?, Primitive.ofName?_name]
    have htypes : checkTypes declared l [.named key.name, t] = .ok () :=
      bind_eq_ok (checkType_primitive declared l key) (bind_eq_ok ih rfl)
    simp only [checkType, hkey, if_true, htypes]
    rfl
  | array size _ ih =>
    rw [checkType]
    exact ih

/-! ## Fields -/

theorem checkFields_of_wellFormedFields {owner : String} {fields : List Field} {seen : List String}
    (h : WellFormedFields declared fields)
    (hseen : ∀ name ∈ fields.filterMap Field.name, name ∉ seen) :
    checkFields declared owner seen fields = .ok () := by
  induction fields generalizing seen with
  | nil => rfl
  | cons f fs ih =>
    have htype := checkType_of_wellFormed hfree (h.types f (.head _)) f.location
    have hfs : WellFormedFields declared fs :=
      ⟨h.distinct.sublist ((List.sublist_cons_self f fs).filterMap _),
        fun g hg => h.free g (.tail _ hg),
        fun g hg => h.types g (.tail _ hg)⟩
    rw [checkFields]
    cases hname : f.name with
    | none =>
      rw [List.filterMap_cons_none hname] at hseen
      dsimp only
      rw [htype]
      exact ih hfs hseen
    | some name =>
      have hdistinct := h.distinct
      rw [List.filterMap_cons_some hname] at hseen hdistinct
      obtain ⟨hnew, hseen⟩ := List.forall_mem_cons.1 hseen
      obtain ⟨hfreeName, hdeclared, hmodule⟩ := h.free f (.head _) name hname
      have hshadow : ¬ (declared.contains name || moduleNames.contains name) = true := by
        simpa using ⟨hdeclared, hmodule⟩
      have hdouble : ¬ seen.contains name = true := by
        simpa using hnew
      dsimp only
      refine bind_eq_ok (checkName_of_freeName hfreeName _ _) ?_
      refine eq_ok_of_not hshadow (eq_ok_of_not hdouble (bind_eq_ok htype ?_))
      refine ih hfs fun name' hname' hmem => ?_
      rcases List.mem_cons.1 hmem with rfl | hmem
      · exact (List.nodup_cons.1 hdistinct).1 hname'
      · exact hseen name' hname' hmem

/-! ## Declarations -/

theorem checkRecords_of_wellFormedFields {records : List Record}
    (h : ∀ r ∈ records, WellFormedFields declared r.fields) :
    checkRecords declared records = .ok () := by
  induction records with
  | nil => rfl
  | cons r rs ih =>
    obtain ⟨hr, hrs⟩ := List.forall_mem_cons.1 h
    rw [checkRecords, checkFields_of_wellFormedFields hfree hr fun _ _ => List.not_mem_nil]
    exact ih hrs

theorem checkVariants_of_wellFormedFields {union : String} {variants : List Variant}
    {seen : List String} (hdistinct : (variants.map Variant.name).Nodup)
    (hnames : ∀ v ∈ variants, FreeName v.name)
    (hfields : ∀ v ∈ variants, WellFormedFields declared v.fields)
    (hseen : ∀ v ∈ variants, v.name ∉ seen) :
    checkVariants declared union seen variants = .ok () := by
  induction variants generalizing seen with
  | nil => rfl
  | cons v vs ih =>
    rw [List.map_cons, List.nodup_cons] at hdistinct
    obtain ⟨hname, hnames⟩ := List.forall_mem_cons.1 hnames
    obtain ⟨hv, hfields⟩ := List.forall_mem_cons.1 hfields
    obtain ⟨hnew, hseen⟩ := List.forall_mem_cons.1 hseen
    have hdouble : ¬ seen.contains v.name = true := by
      simpa using hnew
    have hchecked : checkFields declared (union ++ "." ++ v.name) [] v.fields = .ok () :=
      checkFields_of_wellFormedFields hfree hv fun _ _ => List.not_mem_nil
    rw [checkVariants]
    refine bind_eq_ok (checkName_of_freeName hname _ _) ?_
    refine eq_ok_of_not hdouble (bind_eq_ok hchecked ?_)
    refine ih hdistinct.2 hnames hfields fun v' hv' hmem => ?_
    rcases List.mem_cons.1 hmem with heq | hmem
    · exact hdistinct.1 (heq ▸ List.mem_map_of_mem hv')
    · exact hseen v' hv' hmem

theorem checkUnions_of_wellFormed {unions : List Union} (h : ∀ u ∈ unions, u.WellFormed declared) :
    checkUnions declared unions = .ok () := by
  induction unions with
  | nil => rfl
  | cons u us ih =>
    obtain ⟨hu, hus⟩ := List.forall_mem_cons.1 h
    rw [checkUnions, checkVariants_of_wellFormedFields hfree hu.distinct hu.free hu.fields
      fun _ _ => List.not_mem_nil]
    exact ih hus

end

theorem checkDeclared_of_nodup {names : List (String × Location)} {declared : List String}
    (hdistinct : (names.map Prod.fst).Nodup) (hfree : ∀ name ∈ names.map Prod.fst, FreeTypeName name)
    (hnew : ∀ name ∈ names.map Prod.fst, name ∉ declared) :
    checkDeclared declared names = .ok ((names.map Prod.fst).reverse ++ declared) := by
  induction names generalizing declared with
  | nil => rfl
  | cons n names ih =>
    rw [List.map_cons] at hdistinct hfree hnew
    obtain ⟨hdistinct, hrest⟩ := List.nodup_cons.1 hdistinct
    obtain ⟨hname, hfree⟩ := List.forall_mem_cons.1 hfree
    obtain ⟨hn, hnew⟩ := List.forall_mem_cons.1 hnew
    have hdouble : ¬ declared.contains n.1 = true := by
      simpa using hn
    rw [checkDeclared]
    refine bind_eq_ok (checkName_of_freeName hname.1 _ _) ?_
    refine eq_ok_of_not hname.isReservedTypeName (eq_ok_of_not hdouble ?_)
    rw [ih hrest hfree fun name hmem hname => ?_]
    · rw [List.map_cons, List.reverse_cons, List.append_assoc]
      rfl
    · rcases List.mem_cons.1 hname with rfl | hname
      · exact hdistinct hmem
      · exact hnew name hmem hname

/-- A schema passes the checks just if it is well formed. -/
theorem Schema.check_eq_ok_iff {s : Schema} : s.check = .ok () ↔ s.WellFormed := by
  refine ⟨wellFormed_of_check, fun h => ?_⟩
  have hnames : ∀ name, name ∈ s.names ↔ name ∈ s.names.reverse ++ [] := by
    simp
  have hfree : ∀ name ∈ s.names.reverse ++ [], FreeTypeName name := fun name hname =>
    h.free name ((hnames name).2 hname)
  have hdeclared : checkDeclared [] s.declaredNames = .ok (s.names.reverse ++ []) :=
    checkDeclared_of_nodup h.distinct h.free fun _ _ => List.not_mem_nil
  rw [check, hdeclared]
  change (checkRecords _ _ >>= fun _ => checkUnions _ _) = _
  rw [checkRecords_of_wellFormedFields hfree fun r hr => (h.records r hr).congr hnames]
  refine checkUnions_of_wellFormed hfree fun u hu => ?_
  have hwf := h.unions u hu
  exact ⟨hwf.distinct, hwf.free, fun v hv => (hwf.fields v hv).congr hnames⟩

/-! ## The conditions on a schema, one by one -/

theorem Schema.names_eq_append (s : Schema) :
    s.names = s.records.map Record.name ++ s.unions.map Union.name := by
  rw [names, declaredNames, List.map_append, List.map_map, List.map_map]
  rfl

/-- A name is free for a type just if it is free and neither a module's nor that of another type. -/
theorem freeTypeName_iff {name : String} :
    FreeTypeName name ↔ FreeName name ∧ name ∉ moduleNames ∧ isPrimitiveName name = false ∧
      genericArity? name = none := by
  constructor
  · intro h
    have hprimitive : isPrimitiveName name = false := by
      rw [isPrimitiveName, h.ofName?_eq_none]
      rfl
    exact ⟨h.1, h.2.1, hprimitive, h.genericArity?_eq_none⟩
  · rintro ⟨hfree, hmodule, hprimitive, harity⟩
    refine ⟨hfree, hmodule, fun p hp => ?_, fun hgeneric => ?_⟩
    · rw [hp, isPrimitiveName, p.ofName?_name] at hprimitive
      cases hprimitive
    · simp only [List.mem_cons, List.not_mem_nil, or_false] at hgeneric
      rcases hgeneric with rfl | rfl | rfl <;> exact absurd harity (by decide)

/-- A schema passes the checks just if no two declarations, records and unions alike, share a name;
each of their names is free and is neither that of a module, of a primitive nor of a generic type;
the variants of each union have distinct free names; the named fields of each owner have distinct
free names, which are neither those of declarations nor of a module; and every field has a type that
is built from primitive and declared types. -/
theorem Schema.check_accepts_iff (s : Schema) :
    s.check = .ok () ↔
      (s.records.map Record.name ++ s.unions.map Union.name).Nodup ∧
        (∀ name ∈ s.names, name ∉ keywords ∧ name.toList.head? ≠ some '_' ∧ name ∉ memberNames ∧
          name ∉ moduleNames ∧ isPrimitiveName name = false ∧ genericArity? name = none) ∧
        (∀ u ∈ s.unions, (u.variants.map Variant.name).Nodup ∧ ∀ v ∈ u.variants, FreeName v.name) ∧
        s.AllFields (fun fields => (fields.filterMap Field.name).Nodup ∧
          ∀ f ∈ fields, ∀ name, f.name = some name →
            FreeName name ∧ name ∉ s.names ∧ name ∉ moduleNames) ∧
        s.AllFields fun fields => ∀ f ∈ fields, f.type.WellFormed s.names := by
  rw [check_eq_ok_iff, ← names_eq_append]
  constructor
  · intro h
    refine ⟨h.distinct, fun name hname => ?_, fun u hu => ⟨(h.unions u hu).distinct,
      (h.unions u hu).free⟩, ⟨fun r hr => ?_, fun u hu v hv => ?_⟩,
      ⟨fun r hr => (h.records r hr).types, fun u hu v hv => ((h.unions u hu).fields v hv).types⟩⟩
    · obtain ⟨⟨hkeyword, hhead, hmember⟩, hother⟩ := freeTypeName_iff.1 (h.free name hname)
      exact ⟨hkeyword, hhead, hmember, hother⟩
    · exact ⟨(h.records r hr).distinct, (h.records r hr).free⟩
    · have hfields := (h.unions u hu).fields v hv
      exact ⟨hfields.distinct, hfields.free⟩
  · rintro ⟨hdistinct, hfree, hvariants, hnamed, htypes⟩
    refine ⟨hdistinct, fun name hname => ?_, fun r hr => ?_, fun u hu => ?_⟩
    · obtain ⟨hkeyword, hhead, hmember, hother⟩ := hfree name hname
      exact freeTypeName_iff.2 ⟨⟨hkeyword, hhead, hmember⟩, hother⟩
    · obtain ⟨hfields, hfreeFields⟩ := hnamed.records r hr
      exact ⟨hfields, hfreeFields, htypes.records r hr⟩
    · refine ⟨(hvariants u hu).1, (hvariants u hu).2, fun v hv => ?_⟩
      obtain ⟨hfields, hfreeFields⟩ := hnamed.unions u hu v hv
      exact ⟨hfields, hfreeFields, htypes.unions u hu v hv⟩

/-! ## Parsing -/

/-- A text defines a schema if it is read, its escapes are well formed, and so is the outcome. -/
theorem Schema.parse_eq_ok_iff [Text.CharacterNames] {text : String} {s : Schema} :
    parse text = .ok s ↔ ∃ s₀, read text = .ok s₀ ∧ s₀.unescape? = some s ∧ s.WellFormed := by
  unfold parse
  cases read text with
  | error l => exact ⟨nofun, fun ⟨_, h, _⟩ => nomatch h⟩
  | ok s₀ =>
    simp only [Except.ok.injEq, exists_eq_left', ← check_eq_ok_iff]
    cases s₀.unescape? with
    | none => exact ⟨nofun, fun h => nomatch h.1⟩
    | some s₁ =>
      simp only [Option.some.injEq]
      constructor
      · intro h
        obtain ⟨_, hcheck, h⟩ := exists_of_bind_eq_ok h
        cases h
        exact ⟨rfl, hcheck⟩
      · rintro ⟨rfl, hcheck⟩
        exact bind_eq_ok hcheck rfl

end WireSchema
