import WireSchema.Schema.Check

/-!
# Fields that are read

The fields of an owner either all have a name of their own, or none of them has one and they are
known by their position. Reading a schema gives such fields, for the two kinds of bodies are read by
readers of their own, and replacing escapes does not touch names and positions.
-/

namespace WireSchema

/-- All fields have a name, or none has one and all know their position. -/
def UniformFields (fields : List Field) : Prop :=
  (∀ f ∈ fields, f.name.isSome) ∨
    (∀ f ∈ fields, f.name = none) ∧ fields.map Field.index = List.range fields.length

/-- The fields of all declarations are uniform. -/
structure Schema.Uniform (s : Schema) : Prop where
  records : ∀ r ∈ s.records, UniformFields r.fields
  unions : ∀ u ∈ s.unions, ∀ v ∈ u.variants, UniformFields v.fields

/-! ## Readers -/

namespace Reader

variable {α β : Type} {p : α → Prop} {q : β → Prop}

/-- What is read satisfies `p`. -/
def Yields (p : α → Prop) (r : Reader α) : Prop := ∀ s a t, r s = .ok (a, t) → p a

theorem yields_true (r : Reader α) : Yields (fun _ => True) r := fun _ _ _ _ => trivial

theorem yields_pure {a : α} (h : p a) : Yields p (pure a : Reader α) := by
  intro s b t hb
  cases hb
  exact h

theorem Yields.bind {r : Reader α} {f : α → Reader β} (hr : Yields p r)
    (hf : ∀ a, p a → Yields q (f a)) : Yields q (r >>= f) := by
  intro s b t hb
  change (r s >>= fun x => f x.1 x.2) = _ at hb
  cases hread : r s with
  | error e =>
    rw [hread] at hb
    cases hb
  | ok x =>
    rw [hread] at hb
    exact hf x.1 (hr s x.1 x.2 hread) x.2 b t hb

theorem Yields.manyUpTo {more : Cursor → Bool} {item : Reader α} (h : Yields p item) (n : Nat) :
    Yields (fun as => ∀ a ∈ as, p a) (manyUpTo more item n) := by
  induction n with
  | zero => exact yields_pure nofun
  | succ n ih =>
    intro s as t has
    obtain ⟨a, u, rest, ha, hrest, rfl⟩ | ⟨-, rfl, -⟩ := of_manyUpTo_succ has
    · exact List.forall_mem_cons.2 ⟨h s a u ha, ih u rest t hrest⟩
    · exact nofun

theorem Yields.many {more : Cursor → Bool} {item : Reader α} (h : Yields p item) :
    Yields (fun as => ∀ a ∈ as, p a) (many more item) :=
  fun s => h.manyUpTo s.rest.length s

theorem Yields.commaSeparated {close : String} {item : Reader α} (h : Yields p item) :
    Yields (fun as => ∀ a ∈ as, p a) (commaSeparated close item) := by
  have hupTo : ∀ n, Yields (fun as => ∀ a ∈ as, p a) (commaSeparatedUpTo close item n) := by
    intro n
    induction n with
    | zero => exact (yields_true _).bind fun _ _ => yields_pure nofun
    | succ n ih =>
      refine (yields_true _).bind fun b _ => ?_
      cases b with
      | true => exact (yields_true _).bind fun _ _ => yields_pure nofun
      | false =>
        refine h.bind fun a ha => (yields_true _).bind fun b _ => ?_
        cases b with
        | true =>
          refine (yields_true _).bind fun _ _ => ih.bind fun as has => yields_pure ?_
          intro a' ha'
          rcases List.mem_cons.1 ha' with rfl | ha'
          · exact ha
          · exact has a' ha'
        | false =>
          refine (yields_true _).bind fun _ _ => yields_pure ?_
          intro a' ha'
          rcases List.mem_singleton.1 ha' with rfl
          exact ha
  exact fun s => hupTo s.rest.length s

/-! ## Bodies and declarations -/

theorem yields_namedField : Yields (fun f => f.name.isSome) namedField := by
  refine (yields_true _).bind fun _ _ => (yields_true _).bind fun _ _ => (yields_true _).bind
    fun _ _ => (yields_true _).bind fun _ _ => (yields_true _).bind fun b _ => ?_
  cases b with
  | true => exact (yields_true _).bind fun _ _ => yields_pure rfl
  | false => exact yields_pure rfl

theorem yields_tupleField : Yields (fun f => f.name = none) tupleField :=
  (yields_true _).bind fun _ _ => (yields_true _).bind fun _ _ => (yields_true _).bind
    fun _ _ => yields_pure rfl

theorem map_index_numbered (fields : List Field) :
    (numbered fields).map Field.index = List.range fields.length := by
  apply List.ext_getElem <;> simp [numbered]

theorem exists_of_mem_numbered {fields : List Field} {f : Field} (h : f ∈ numbered fields) :
    ∃ g ∈ fields, f.name = g.name := by
  obtain ⟨i, hi, rfl⟩ := List.mem_mapIdx.1 h
  exact ⟨fields[i], List.getElem_mem hi, rfl⟩

theorem uniformFields_of_named {fields : List Field} (h : ∀ f ∈ fields, f.name.isSome) :
    UniformFields (numbered fields) := by
  refine .inl fun f hf => ?_
  obtain ⟨g, hg, hname⟩ := exists_of_mem_numbered hf
  rw [hname]
  exact h g hg

theorem uniformFields_of_unnamed {fields : List Field} (h : ∀ f ∈ fields, f.name = none) :
    UniformFields (numbered fields) := by
  refine .inr ⟨fun f hf => ?_, ?_⟩
  · obtain ⟨g, hg, hname⟩ := exists_of_mem_numbered hf
    rw [hname]
    exact h g hg
  · rw [map_index_numbered, numbered, List.length_mapIdx]

theorem yields_body : Yields (fun b => UniformFields b.2) body := by
  refine (yields_true _).bind fun b _ => ?_
  cases b with
  | true =>
    exact (yields_true _).bind fun _ _ => yields_namedField.many.bind fun _ hfields =>
      (yields_true _).bind fun _ _ => yields_pure (uniformFields_of_named hfields)
  | false =>
    refine (yields_true _).bind fun b _ => ?_
    cases b with
    | true =>
      exact (yields_true _).bind fun _ _ => yields_tupleField.commaSeparated.bind
        fun _ hfields => yields_pure (uniformFields_of_unnamed hfields)
    | false => exact yields_pure (.inl nofun)

section

variable {P : List Field → Prop} (hbody : Yields (fun b => P b.2) body)
include hbody

theorem yields_variant : Yields (fun v => P v.fields) variant := by
  refine (yields_true _).bind fun _ _ => (yields_true _).bind fun _ _ => hbody.bind
    fun _ hfields => (yields_true _).bind fun b _ => ?_
  cases b with
  | true =>
      exact (yields_true _).bind fun _ _ => (yields_true _).bind fun _ _ => yields_pure hfields
  | false => exact yields_pure hfields

theorem yields_record (annotations : List AnnotationBlock) :
    Yields (fun r => P r.fields) (record annotations) :=
  (yields_true _).bind fun _ _ => (yields_true _).bind fun _ _ => hbody.bind
    fun _ hfields => yields_pure hfields

theorem yields_union (annotations : List AnnotationBlock) :
    Yields (fun u => ∀ v ∈ u.variants, P v.fields) (union annotations) :=
  (yields_true _).bind fun _ _ => (yields_true _).bind fun _ _ => (yields_true _).bind
    fun _ _ => (yields_variant hbody).many.bind fun _ hvariants => (yields_true _).bind
      fun _ _ => yields_pure hvariants

theorem yields_declaration :
    Yields (Sum.elim (fun r => P r.fields) fun u => ∀ v ∈ u.variants, P v.fields)
      declaration := by
  refine (yields_true _).bind fun _ _ => (yields_true _).bind fun b _ => ?_
  cases b with
  | true => exact (yields_record hbody _).bind fun _ h => yields_pure h
  | false => exact (yields_union hbody _).bind fun _ h => yields_pure h

end

end Reader

namespace Schema

/-- The fields of each record and of each variant satisfy `P`. -/
structure AllFields (P : List Field → Prop) (s : Schema) : Prop where
  records : ∀ r ∈ s.records, P r.fields
  unions : ∀ u ∈ s.unions, ∀ v ∈ u.variants, P v.fields

/-- What holds of the fields of every body that is read holds throughout the schema that is read. -/
theorem allFields_of_read {P : List Field → Prop}
    (hbody : Reader.Yields (fun b => P b.2) Reader.body) {text : String} {s : Schema}
    (h : read text = .ok s) : s.AllFields P := by
  unfold read at h
  split at h
  next ds t hds =>
    cases h
    have hall := (Reader.yields_declaration hbody).many _ _ _ hds
    refine ⟨fun r hr => ?_, fun u hu => ?_⟩
    · obtain ⟨d, hd, hr⟩ := List.mem_filterMap.1 hr
      cases d with
      | inl r' =>
        cases hr
        exact hall _ hd
      | inr u => cases hr
    · obtain ⟨d, hd, hu⟩ := List.mem_filterMap.1 hu
      cases d with
      | inl r => cases hu
      | inr u' =>
        cases hu
        exact hall _ hd
  next => cases h

theorem uniform_of_read {text : String} {s : Schema} (h : read text = .ok s) : s.Uniform :=
  have hall := allFields_of_read Reader.yields_body h
  ⟨hall.records, hall.unions⟩

end Schema

/-! ## Escapes -/

/-- What holds of the outcomes of all members holds of a list mapped member by member. -/
theorem forall_of_mapM {α β : Type} {f : α → Option β} {P : α → Prop} {Q : β → Prop}
    (h : ∀ a b, f a = some b → P a → Q b) {as : List α} {bs : List β} (hbs : as.mapM f = some bs)
    (has : ∀ a ∈ as, P a) : ∀ b ∈ bs, Q b := by
  induction as generalizing bs with
  | nil =>
    cases hbs
    exact nofun
  | cons a as ih =>
    rw [List.mapM_cons] at hbs
    obtain ⟨b, hb, hbs⟩ := Option.bind_eq_some_iff.1 hbs
    obtain ⟨bs', hbs', hbs⟩ := Option.bind_eq_some_iff.1 hbs
    cases hbs
    intro b' hb'
    rcases List.mem_cons.1 hb' with rfl | hb'
    · exact h a b' hb (has a (.head _))
    · exact ih hbs' (fun a ha => has a (.tail _ ha)) b' hb'

/-- A list is mapped member by member if each member is. -/
theorem isSome_mapM_iff {α β : Type} {f : α → Option β} {as : List α} :
    (as.mapM f).isSome ↔ ∀ a ∈ as, (f a).isSome := by
  induction as with
  | nil => simp
  | cons a as ih =>
    rw [List.mapM_cons, List.forall_mem_cons, ← ih]
    cases f a <;> cases as.mapM f <;> simp

/-- A list is mapped to what each member is. -/
theorem mapM_eq_some_map {α β : Type} {f : α → Option β} {g : α → β} {as : List α}
    (h : ∀ a ∈ as, f a = some (g a)) : as.mapM f = some (as.map g) := by
  induction as with
  | nil => rfl
  | cons a as ih =>
    rw [List.mapM_cons, h a (.head _), ih fun b hb => h b (.tail _ hb)]
    rfl

/-- What each member keeps is kept by a list mapped member by member. -/
theorem map_eq_of_mapM {α β γ : Type} {f : α → Option β} {g : α → γ} {g' : β → γ}
    (h : ∀ a b, f a = some b → g' b = g a) {as : List α} {bs : List β}
    (hbs : as.mapM f = some bs) : bs.map g' = as.map g := by
  induction as generalizing bs with
  | nil =>
    cases hbs
    rfl
  | cons a as ih =>
    rw [List.mapM_cons] at hbs
    obtain ⟨b, hb, hbs⟩ := Option.bind_eq_some_iff.1 hbs
    obtain ⟨bs', hbs', hbs⟩ := Option.bind_eq_some_iff.1 hbs
    cases hbs
    rw [List.map_cons, List.map_cons, h a b hb, ih hbs']

theorem uniformFields_of_map_eq {fields fields' : List Field}
    (h : fields'.map (fun f => (f.name, f.index)) = fields.map fun f => (f.name, f.index))
    (hfields : UniformFields fields) : UniformFields fields' := by
  have hnames : fields'.map Field.name = fields.map Field.name := by
    have hfst := congrArg (List.map Prod.fst) h
    rwa [List.map_map, List.map_map] at hfst
  have hindexes : fields'.map Field.index = fields.map Field.index := by
    have hsnd := congrArg (List.map Prod.snd) h
    rwa [List.map_map, List.map_map] at hsnd
  have hname : ∀ f' ∈ fields', ∃ f ∈ fields, f.name = f'.name := by
    intro f' hf'
    have hmem := List.mem_map_of_mem (f := Field.name) hf'
    rw [hnames] at hmem
    exact List.mem_map.1 hmem
  rcases hfields with hnamed | ⟨hunnamed, hindex⟩
  · refine .inl fun f' hf' => ?_
    obtain ⟨f, hf, heq⟩ := hname f' hf'
    rw [← heq]
    exact hnamed f hf
  · refine .inr ⟨fun f' hf' => ?_, ?_⟩
    · obtain ⟨f, hf, heq⟩ := hname f' hf'
      rw [← heq]
      exact hunnamed f hf
    · have hlen : fields'.length = fields.length := by
        simpa using congrArg List.length h
      rw [hindexes, hindex, hlen]

theorem uniformFields_of_unescapeFields? [Text.CharacterNames] {fields fields' : List Field}
    (h : unescapeFields? fields = some fields') (hfields : UniformFields fields) :
    UniformFields fields' := by
  refine uniformFields_of_map_eq (map_eq_of_mapM (fun f f' hf' => ?_) h) hfields
  obtain ⟨annotations, -, hf'⟩ := Option.bind_eq_some_iff.1 hf'
  cases hf'
  rfl

namespace Schema

/-- What is kept when the escapes in one list of fields are replaced is kept throughout. -/
theorem AllFields.of_unescape? [Text.CharacterNames] {P : List Field → Prop}
    (hP : ∀ {fields fields'}, unescapeFields? fields = some fields' → P fields → P fields')
    {s s' : Schema} (hs : s.AllFields P) (h : s.unescape? = some s') : s'.AllFields P := by
  obtain ⟨records, hrecords, h⟩ := Option.bind_eq_some_iff.1 h
  obtain ⟨unions, hunions, h⟩ := Option.bind_eq_some_iff.1 h
  cases h
  refine ⟨forall_of_mapM (fun r r' hr hfields => ?_) hrecords hs.records,
    forall_of_mapM (fun u u' hu hvariants => ?_) hunions hs.unions⟩
  · obtain ⟨_, -, hr⟩ := Option.bind_eq_some_iff.1 hr
    obtain ⟨fields, hf, hr⟩ := Option.bind_eq_some_iff.1 hr
    cases hr
    exact hP hf hfields
  · obtain ⟨_, -, hu⟩ := Option.bind_eq_some_iff.1 hu
    obtain ⟨variants, hv, hu⟩ := Option.bind_eq_some_iff.1 hu
    cases hu
    refine forall_of_mapM (fun v v' hv hfields => ?_) hv hvariants
    obtain ⟨_, -, hv⟩ := Option.bind_eq_some_iff.1 hv
    obtain ⟨fields, hf, hv⟩ := Option.bind_eq_some_iff.1 hv
    cases hv
    exact hP hf hfields

theorem Uniform.of_unescape? [Text.CharacterNames] {s s' : Schema} (hs : s.Uniform)
    (h : s.unescape? = some s') :
    s'.Uniform :=
  have hall := AllFields.of_unescape? uniformFields_of_unescapeFields? ⟨hs.records, hs.unions⟩ h
  ⟨hall.records, hall.unions⟩

end Schema

end WireSchema
