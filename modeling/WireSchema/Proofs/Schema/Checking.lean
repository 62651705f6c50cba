import WireSchema.Proofs.Schema.Uniform
import WireSchema.Schema.WellFormed

/-!
# What checking ensures

A schema that passes all checks is well formed. Each check is read back on its own: what one step of
it has refused otherwise, and, by induction on the list it goes through, what holds of all members.
-/

namespace WireSchema

/-! ## Steps of a check -/

theorem exists_of_bind_eq_ok {ε α β : Type} {x : Except ε α} {f : α → Except ε β} {b : β}
    (h : (x >>= f) = .ok b) : ∃ a, x = .ok a ∧ f a = .ok b := by
  cases x with
  | error e => cases h
  | ok a => exact ⟨a, rfl, h⟩

theorem bind_eq_error_iff {ε α β : Type} {x : Except ε α} {k : α → Except ε β} {why : ε} :
    (x >>= k) = .error why ↔ x = .error why ∨ ∃ a, x = .ok a ∧ k a = .error why := by
  cases x with
  | error why' =>
    change Except.error why' = _ ↔ _
    simp
  | ok a =>
    change k a = _ ↔ _
    simp

theorem toOption_eq_some_iff {ε α : Type} {x : Except ε α} {a : α} :
    x.toOption = some a ↔ x = .ok a := by
  cases x <;> simp [Except.toOption]

theorem ok_of_not_refused {α : Type} {c : Prop} [Decidable c] {fault : SchemaFault} {l : Location}
    {next : Unit → Checked α} {a : α}
    (h : (if c then (refuse fault l : Checked Unit) >>= next else next ()) = .ok a) :
    ¬ c ∧ next () = .ok a := by
  split at h
  next => cases h
  next hc => exact ⟨hc, h⟩

theorem freeName_of_checkName {name what : String} {l : Location}
    (h : checkName name what l = .ok ()) : FreeName name := by
  unfold checkName at h
  split at h
  next => cases h
  next hn =>
    simp only [isReservedName, Bool.or_eq_true, List.contains_iff_mem, decide_eq_true_eq,
      not_or] at hn
    exact ⟨hn.1.1, hn.1.2, hn.2⟩

theorem freeTypeName {name : String} (h : FreeName name) (hn : ¬ isReservedTypeName name = true) :
    FreeTypeName name := by
  simp only [isReservedTypeName, Bool.or_eq_true, List.contains_iff_mem, not_or] at hn
  obtain ⟨⟨hmodule, hprimitive⟩, hgeneric⟩ := hn
  refine ⟨h, hmodule, ?_, ?_⟩
  · rintro p rfl
    exact hprimitive (by rw [isPrimitiveName, Primitive.ofName?_name]; rfl)
  · intro hmem
    simp only [List.mem_cons, List.not_mem_nil, or_false] at hmem
    rcases hmem with rfl | rfl | rfl <;> exact hgeneric rfl

/-! ## Types -/

theorem exists_name_of_isPrimitiveName {name : String} (h : isPrimitiveName name = true) :
    ∃ p : Primitive, name = p.name := by
  obtain ⟨p, hp⟩ := Option.isSome_iff_exists.1 h
  exact ⟨p, (Primitive.name_of_ofName? hp).symm⟩

theorem exists_name_of_primitive? {t : TypeExpr} (h : t.primitive?.isSome) :
    ∃ p : Primitive, t = .named p.name := by
  cases t with
  | named name =>
    obtain ⟨p, hp⟩ := exists_name_of_isPrimitiveName h
    exact ⟨p, congrArg TypeExpr.named hp⟩
  | applied | array => cases h

theorem genericArity?_eq_some {name : String} {arity : Nat} (h : genericArity? name = some arity) :
    (name = "optional" ∨ name = "list") ∧ arity = 1 ∨ name = "map" ∧ arity = 2 := by
  unfold genericArity? at h
  split at h
  next hname =>
    cases h
    exact .inl ⟨hname, rfl⟩
  next =>
    split at h
    next hname =>
      cases h
      exact .inr ⟨hname, rfl⟩
    next => cases h

theorem wellFormed_applied {declared : List String} {name : String} {args : List TypeExpr}
    {arity : Nat} (hname : genericArity? name = some arity) (hlen : args.length = arity)
    (hkey : name = "map" → ∀ key rest, args = key :: rest → key.primitive?.isSome)
    (hargs : ∀ t ∈ args, t.WellFormed declared) :
    (TypeExpr.applied name args).WellFormed declared := by
  have hcases := genericArity?_eq_some hname
  clear hname
  rcases hcases with ⟨hname, rfl⟩ | ⟨rfl, rfl⟩
  · obtain ⟨t, rfl⟩ := List.length_eq_one_iff.1 hlen
    have ht := hargs t (.head _)
    rcases hname with rfl | rfl
    · exact .optional ht
    · exact .list ht
  · match args, hlen with
    | [k, t], _ =>
      obtain ⟨p, rfl⟩ := exists_name_of_primitive? (hkey rfl k [t] rfl)
      exact .map p (hargs t (.tail _ (.head _)))

/-- What the check of an applied type asks for, apart from its arguments. -/
theorem of_checkType_applied {declared : List String} {l : Location} {name : String}
    {args : List TypeExpr} (h : checkType declared l (.applied name args) = .ok ()) :
    genericArity? name = some args.length ∧
      (name = "map" → ∀ key rest, args = key :: rest → key.primitive?.isSome) ∧
      checkTypes declared l args = .ok () := by
  rw [checkType.eq_def] at h
  dsimp only at h
  split at h
  next arity harity =>
    by_cases hlen : args.length = arity
    · rw [if_neg (not_not_intro hlen)] at h
      refine ⟨hlen ▸ harity, ?_, ?_⟩
      · rintro rfl key rest rfl
        rw [if_pos rfl] at h
        dsimp only at h
        split at h
        next hkey => exact hkey
        next => split at h <;> cases h
      · split at h
        next =>
          split at h
          next => exact h
          next key rest =>
            split at h
            next => exact h
            next => split at h <;> cases h
        next => exact h
    · rw [if_pos hlen] at h
      cases h
  next => cases h

mutual
theorem wellFormed_of_checkType {declared : List String} {l : Location} :
    ∀ t : TypeExpr, checkType declared l t = .ok () → t.WellFormed declared
  | .named name, h => by
    rw [checkType] at h
    split at h
    next => cases h
    next =>
      split at h
      next hname =>
        rw [Bool.or_eq_true, List.contains_iff_mem] at hname
        rcases hname with hname | hname
        · obtain ⟨p, rfl⟩ := exists_name_of_isPrimitiveName hname
          exact .primitive p
        · exact .declared hname
      next => cases h
  | .applied name args, h => by
    obtain ⟨harity, hkey, hargs⟩ := of_checkType_applied h
    exact wellFormed_applied harity rfl hkey (wellFormed_of_checkTypes args hargs)
  | .array element size, h => by
    rw [checkType] at h
    exact .array size (wellFormed_of_checkType element h)

theorem wellFormed_of_checkTypes {declared : List String} {l : Location} :
    ∀ ts : List TypeExpr, checkTypes declared l ts = .ok () → ∀ t ∈ ts, t.WellFormed declared
  | [], _ => nofun
  | t :: ts, h => by
    rw [checkTypes] at h
    obtain ⟨_, ht, hts⟩ := exists_of_bind_eq_ok h
    have hfirst := wellFormed_of_checkType t ht
    have hrest := wellFormed_of_checkTypes ts hts
    intro t' ht'
    rcases List.mem_cons.1 ht' with rfl | ht'
    · exact hfirst
    · exact hrest t' ht'
end

/-! ## Fields -/

theorem WellFormedFields.cons {declared : List String} {f : Field} {fs : List Field}
    (hfs : WellFormedFields declared fs) (htype : f.type.WellFormed declared)
    (hname : ∀ name, f.name = some name → FreeName name ∧ name ∉ declared ∧ name ∉ moduleNames ∧
      name ∉ fs.filterMap Field.name) : WellFormedFields declared (f :: fs) := by
  refine ⟨?_, fun g hg name hgname => ?_, fun g hg => ?_⟩
  · cases hf : f.name with
    | none =>
      rw [List.filterMap_cons_none hf]
      exact hfs.distinct
    | some name =>
      rw [List.filterMap_cons_some hf, List.nodup_cons]
      exact ⟨(hname name hf).2.2.2, hfs.distinct⟩
  · rcases List.mem_cons.1 hg with rfl | hg
    · obtain ⟨hfree, hdeclared, hmodule, -⟩ := hname name hgname
      exact ⟨hfree, hdeclared, hmodule⟩
    · exact hfs.free g hg name hgname
  · rcases List.mem_cons.1 hg with rfl | hg
    · exact htype
    · exact hfs.types g hg

/-- What the check of an owner's fields ensures, given the names before them. -/
theorem wellFormedFields_of_checkFields {declared seen : List String} {owner : String}
    {fields : List Field} (h : checkFields declared owner seen fields = .ok ()) :
    WellFormedFields declared fields ∧ ∀ name ∈ fields.filterMap Field.name, name ∉ seen := by
  induction fields generalizing seen with
  | nil => exact ⟨⟨List.nodup_nil, nofun, nofun⟩, nofun⟩
  | cons f fs ih =>
    rw [checkFields] at h
    split at h
    next hname =>
      obtain ⟨_, htype, h⟩ := exists_of_bind_eq_ok h
      obtain ⟨hfs, hseen⟩ := ih h
      rw [List.filterMap_cons_none hname]
      refine ⟨hfs.cons (wellFormed_of_checkType _ htype) fun name hfname => ?_, hseen⟩
      rw [hname] at hfname
      cases hfname
    next name hname =>
      obtain ⟨_, hfree, h⟩ := exists_of_bind_eq_ok h
      dsimp only at h
      obtain ⟨hshadow, h⟩ := ok_of_not_refused h
      obtain ⟨hnew, h⟩ := ok_of_not_refused h
      obtain ⟨_, htype, h⟩ := exists_of_bind_eq_ok h
      obtain ⟨hfs, hseen⟩ := ih h
      simp only [Bool.or_eq_true, List.contains_iff_mem, not_or] at hshadow
      rw [List.contains_iff_mem] at hnew
      refine ⟨hfs.cons (wellFormed_of_checkType _ htype) fun name' hfname => ?_, ?_⟩
      · rw [hname] at hfname
        cases hfname
        exact ⟨freeName_of_checkName hfree, hshadow.1, hshadow.2,
          fun hmem => hseen name hmem (.head _)⟩
      · rw [List.filterMap_cons_some hname]
        intro name' hname'
        rcases List.mem_cons.1 hname' with rfl | hname'
        · exact hnew
        · exact fun hmem => hseen name' hname' (.tail _ hmem)

/-! ## Declarations -/

/-- The names declared come out last first, and are distinct and free. -/
theorem of_checkDeclared {declared out : List String} {names : List (String × Location)}
    (h : checkDeclared declared names = .ok out) :
    out = (names.map Prod.fst).reverse ++ declared ∧ (names.map Prod.fst).Nodup ∧
      (∀ name ∈ names.map Prod.fst, FreeTypeName name ∧ name ∉ declared) := by
  induction names generalizing declared with
  | nil =>
    cases h
    exact ⟨rfl, List.nodup_nil, nofun⟩
  | cons n names ih =>
    rw [checkDeclared] at h
    obtain ⟨_, hfree, h⟩ := exists_of_bind_eq_ok h
    dsimp only at h
    obtain ⟨hreserved, h⟩ := ok_of_not_refused h
    obtain ⟨hnew, h⟩ := ok_of_not_refused h
    obtain ⟨hout, hdistinct, hnames⟩ := ih h
    rw [List.contains_iff_mem] at hnew
    refine ⟨?_, ?_, ?_⟩
    · rw [hout, List.map_cons, List.reverse_cons, List.append_assoc]
      rfl
    · rw [List.map_cons, List.nodup_cons]
      exact ⟨fun hmem => (hnames _ hmem).2 (.head _), hdistinct⟩
    · intro name hname
      rw [List.map_cons] at hname
      rcases List.mem_cons.1 hname with rfl | hname
      · exact ⟨freeTypeName (freeName_of_checkName hfree) hreserved, hnew⟩
      · exact ⟨(hnames name hname).1, fun hmem => (hnames name hname).2 (.tail _ hmem)⟩

theorem of_checkRecords {declared : List String} {records : List Record}
    (h : checkRecords declared records = .ok ()) :
    ∀ r ∈ records, WellFormedFields declared r.fields := by
  induction records with
  | nil => exact nofun
  | cons r rs ih =>
    rw [checkRecords] at h
    obtain ⟨_, hr, hrs⟩ := exists_of_bind_eq_ok h
    intro r' hr'
    rcases List.mem_cons.1 hr' with rfl | hr'
    · exact (wellFormedFields_of_checkFields hr).1
    · exact ih hrs r' hr'

theorem of_checkVariants {declared seen : List String} {union : String} {variants : List Variant}
    (h : checkVariants declared union seen variants = .ok ()) :
    (variants.map Variant.name).Nodup ∧ (∀ v ∈ variants, v.name ∉ seen) ∧
      (∀ v ∈ variants, FreeName v.name) ∧ ∀ v ∈ variants, WellFormedFields declared v.fields := by
  induction variants generalizing seen with
  | nil => exact ⟨List.nodup_nil, nofun, nofun, nofun⟩
  | cons v vs ih =>
    rw [checkVariants] at h
    obtain ⟨_, hfree, h⟩ := exists_of_bind_eq_ok h
    dsimp only at h
    obtain ⟨hnew, h⟩ := ok_of_not_refused h
    obtain ⟨_, hfields, h⟩ := exists_of_bind_eq_ok h
    obtain ⟨hdistinct, hseen, hnames, hall⟩ := ih h
    rw [List.contains_iff_mem] at hnew
    refine ⟨?_, ?_, ?_, ?_⟩
    · rw [List.map_cons, List.nodup_cons]
      refine ⟨fun hmem => ?_, hdistinct⟩
      obtain ⟨v', hv', hname⟩ := List.mem_map.1 hmem
      exact hseen v' hv' (hname ▸ .head _)
    · intro v' hv'
      rcases List.mem_cons.1 hv' with rfl | hv'
      · exact hnew
      · exact fun hmem => hseen v' hv' (.tail _ hmem)
    · intro v' hv'
      rcases List.mem_cons.1 hv' with rfl | hv'
      · exact freeName_of_checkName hfree
      · exact hnames v' hv'
    · intro v' hv'
      rcases List.mem_cons.1 hv' with rfl | hv'
      · exact (wellFormedFields_of_checkFields hfields).1
      · exact hall v' hv'

theorem of_checkUnions {declared : List String} {unions : List Union}
    (h : checkUnions declared unions = .ok ()) : ∀ u ∈ unions, u.WellFormed declared := by
  induction unions with
  | nil => exact nofun
  | cons u us ih =>
    rw [checkUnions] at h
    obtain ⟨_, hu, hus⟩ := exists_of_bind_eq_ok h
    intro u' hu'
    rcases List.mem_cons.1 hu' with rfl | hu'
    · obtain ⟨hdistinct, -, hfree, hfields⟩ := of_checkVariants hu
      exact ⟨hdistinct, hfree, hfields⟩
    · exact ih hus u' hu'

/-! ## Schemas -/

/-- Which names are declared matters, and not in which order. -/
theorem TypeExpr.WellFormed.mono {declared declared' : List String}
    (h : ∀ name, name ∈ declared → name ∈ declared') {t : TypeExpr} (ht : t.WellFormed declared) :
    t.WellFormed declared' := by
  induction ht with
  | primitive p => exact .primitive p
  | declared hname => exact .declared (h _ hname)
  | optional _ ih => exact .optional ih
  | list _ ih => exact .list ih
  | map key _ ih => exact .map key ih
  | array size _ ih => exact .array size ih

theorem WellFormedFields.congr {declared declared' : List String}
    (h : ∀ name, name ∈ declared ↔ name ∈ declared') {fields : List Field}
    (hf : WellFormedFields declared fields) : WellFormedFields declared' fields where
  distinct := hf.distinct
  free f hmem name hname := by
    rw [← h name]
    exact hf.free f hmem name hname
  types f hmem := (hf.types f hmem).mono fun name => (h name).1

namespace Schema

theorem wellFormed_of_check {s : Schema} (h : s.check = .ok ()) : s.WellFormed := by
  obtain ⟨declared, hdeclared, h⟩ := exists_of_bind_eq_ok h
  obtain ⟨_, hrecords, hunions⟩ := exists_of_bind_eq_ok h
  obtain ⟨rfl, hdistinct, hfree⟩ := of_checkDeclared hdeclared
  have hnames : ∀ name, name ∈ (s.declaredNames.map Prod.fst).reverse ++ [] ↔ name ∈ s.names := by
    simp [names]
  refine ⟨hdistinct, fun name hname => (hfree name hname).1, fun r hr => ?_, fun u hu => ?_⟩
  · exact (of_checkRecords hrecords r hr).congr hnames
  · have hwf := of_checkUnions hunions u hu
    exact ⟨hwf.distinct, hwf.free, fun v hv => (hwf.fields v hv).congr hnames⟩

/-- What is parsed is well formed, and its fields are uniform. -/
theorem of_parse [Text.CharacterNames] {text : String} {s : Schema} (h : parse text = .ok s) :
    s.WellFormed ∧ s.Uniform := by
  unfold parse at h
  split at h
  next => cases h
  next s₀ hread =>
    split at h
    next => cases h
    next s₁ hunescape =>
      obtain ⟨_, hcheck, h⟩ := exists_of_bind_eq_ok h
      cases h
      exact ⟨wellFormed_of_check hcheck, (uniform_of_read hread).of_unescape? hunescape⟩

end Schema

end WireSchema
