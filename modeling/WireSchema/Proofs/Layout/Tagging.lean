import WireSchema.Proofs.Layout.Mirroring

/-!
# Unions that are written otherwise

The tag of a variant is decided by the variant itself and those before it, and of these by their
values and discriminants only. So variants that are written otherwise have the same tags, and more
variants behind them change none.
-/

namespace WireSchema

/-! ## Tags -/

theorem readDiscriminant_succeeds (text : String) (l l' : Location) :
    Succeeds Eq (readDiscriminant text l) (readDiscriminant text l') :=
  .ite Iff.rfl
    (fun _ => .ite Iff.rfl (fun _ => .error _ _) fun _ =>
      .ite Iff.rfl (fun _ => .ok rfl) fun _ => .error _ _)
    fun _ => .ite Iff.rfl (fun _ => .error _ _) fun _ => .error _ _

theorem ownTag_succeeds (options : UnionOptions) (last : Option Int) {v v' : Variant}
    (h : v'.discriminant = v.discriminant) (a : VariantAttributes) :
    Succeeds Eq (ownTag options last v a) (ownTag options last v' a) := by
  rw [ownTag, ownTag, h]
  split
  · exact .ok rfl
  · exact (readDiscriminant_succeeds _ _ _).bind fun n n' hn => .ok (by rw [hn])
  · exact .ite Iff.rfl (fun _ => .ok rfl) fun _ => .error _ _

/-- Variants by what decides their tags. -/
def TaggedAlike (x x' : Variant × VariantAttributes) : Prop :=
  x'.1.discriminant = x.1.discriminant ∧ x.2 = x'.2

theorem assignFrom_succeeds {options : UnionOptions} {xs xs' : List (Variant × VariantAttributes)}
    (h : List.Forall₂ TaggedAlike xs xs') (used : List Int) :
    Succeeds Eq (assignFrom options used xs) (assignFrom options used xs') := by
  induction h generalizing used with
  | nil => exact .ok rfl
  | @cons x x' xs xs' hx _ ih =>
    obtain ⟨v, a⟩ := x
    obtain ⟨v', a'⟩ := x'
    obtain ⟨hdiscriminant, rfl : a = a'⟩ := hx
    rw [assignFrom, assignFrom]
    refine (ownTag_succeeds options used.head? hdiscriminant a).bind fun tag tag' htag => ?_
    subst htag
    refine .ite Iff.rfl (fun _ => .error _ _) fun _ => .ite Iff.rfl (fun _ => .error _ _) fun _ => ?_
    exact (ih (tag :: used)).bind fun rest rest' hrest => .ok (by rw [hrest])

/-- Tags do not depend on what is behind. -/
theorem exists_of_assignFrom_append {options : UnionOptions}
    {xs more : List (Variant × VariantAttributes)} {used tags tags' : List Int}
    (h : assignFrom options used xs = .ok tags)
    (h' : assignFrom options used (xs ++ more) = .ok tags') : ∃ rest, tags' = tags ++ rest := by
  induction xs generalizing used tags tags' with
  | nil =>
    cases h
    exact ⟨tags', rfl⟩
  | cons x xs ih =>
    obtain ⟨tag, rest, htag, -, -, hrest, rfl⟩ := of_assignFrom_cons h
    obtain ⟨tag', rest', htag', -, -, hrest', rfl⟩ := of_assignFrom_cons h'
    obtain rfl := Except.ok.inj (htag.symm.trans htag')
    obtain ⟨rest'', rfl⟩ := ih hrest hrest'
    exact ⟨rest'', rfl⟩

/-! ## Unions -/

namespace UnionLayout

theorem checkFieldBlocks_eq_ok_iff {fields : List Field} :
    checkFieldBlocks fields = .ok () ↔ ∀ f ∈ fields, f.annotations = [] := by
  induction fields with
  | nil => exact iff_of_true rfl nofun
  | cons f fs ih =>
    rw [checkFieldBlocks, List.forall_mem_cons]
    cases hf : f.annotations with
    | nil => simpa using ih
    | cons b bs => exact iff_of_false nofun fun h => nomatch h.1

/-- Variants side by side, with the same values and tags, mirror each other. -/
theorem forall₂_variantLayout {V : Variant → Variant → Prop} {W : VariantLayout → VariantLayout → Prop}
    (hVW : ∀ v v' a tag, V v v' → W (variantLayout (v, a, tag)) (variantLayout (v', a, tag)))
    {variants variants' : List Variant} (h : List.Forall₂ V variants variants')
    (rest : List (VariantAttributes × Int)) :
    List.Forall₂ W ((variants.zip rest).map variantLayout)
      ((variants'.zip rest).map variantLayout) := by
  induction h generalizing rest with
  | nil => exact .nil
  | cons hvv' _ ih =>
    cases rest with
    | nil => exact .nil
    | cons x rest => exact .cons (hVW _ _ x.1 x.2 hvv') (ih rest)

section

variable {ρ : Renaming} {free grown : Bool} {s s' : Schema} (hs : s.WellFormed)
  (hs' : s'.WellFormed) (h : s.RewrittenAs ρ free grown s')

theorem forall₂_zip_taggedAlike {union : String} {variants variants' : List Variant}
    (h : List.Forall₂ (Variant.RewrittenAs ρ union) variants variants')
    (values : List VariantAttributes) :
    List.Forall₂ TaggedAlike (variants.zip values) (variants'.zip values) := by
  induction h generalizing values with
  | nil => exact .nil
  | cons hvv' _ ih =>
    cases values with
    | nil => exact .nil
    | cons a values => exact .cons ⟨hvv'.discriminant, rfl⟩ (ih values)

theorem mapM_resolve_succeeds {union : String} {variants variants' : List Variant}
    (h : List.Forall₂ (Variant.RewrittenAs ρ union) variants variants') :
    Succeeds Eq (variants.mapM fun v => VariantAttributes.resolve v.annotations)
      (variants'.mapM fun v => VariantAttributes.resolve v.annotations) := by
  intro values hvalues
  obtain ⟨values', hvalues', heq⟩ := Succeeds.mapM h
    (fun v v' hvv' => VariantAttributes.resolve_succeeds hvv'.annotations) values hvalues
  exact ⟨values', hvalues', List.forall₂_eq_eq_eq ▸ heq⟩

/-- The values and tags of variants begin those of variants that are written otherwise, with more behind
them. -/
theorem exists_append_of_assignTags {union : String} {variants variants' more : List Variant}
    (h : List.Forall₂ (Variant.RewrittenAs ρ union) variants variants') {options : UnionOptions}
    {values values' : List VariantAttributes} {tags tags' : List Int}
    (hvalues : variants.mapM (fun v => VariantAttributes.resolve v.annotations) = .ok values)
    (htags : assignTags options (variants.zip values) = .ok tags)
    (hvalues' :
      (variants' ++ more).mapM (fun v => VariantAttributes.resolve v.annotations) = .ok values')
    (htags' : assignTags options ((variants' ++ more).zip values') = .ok tags') :
    ∃ moreValues moreTags, values' = values ++ moreValues ∧ tags' = tags ++ moreTags := by
  rw [List.mapM_append] at hvalues'
  obtain ⟨front, hfront, hvalues'⟩ := exists_of_bind_eq_ok hvalues'
  obtain ⟨moreValues, -, hvalues'⟩ := exists_of_bind_eq_ok hvalues'
  cases hvalues'
  obtain ⟨values', hvalues', rfl⟩ := mapM_resolve_succeeds h values hvalues
  obtain rfl := Except.ok.inj (hvalues'.symm.trans hfront)
  have hlen : variants'.length = values.length :=
    h.length_eq.symm.trans (length_of_mapM_ok hvalues).symm
  rw [List.zip_append hlen] at htags'
  obtain ⟨tags₁, htags₁, rfl⟩ := assignFrom_succeeds (forall₂_zip_taggedAlike h values) [] tags htags
  obtain ⟨moreTags, rfl⟩ := exists_of_assignFrom_append htags₁ htags'
  exact ⟨moreValues, moreTags, rfl, rfl⟩

include hs hs' h

theorem mirroredBy_variantLayout {u : Union} (hu : u ∈ s.unions) {v v' : Variant}
    (hv : v ∈ u.variants) (hvv' : v.RewrittenAs ρ u.name v') (x : VariantAttributes × Int) :
    (variantLayout (v, x)).MirroredBy ρ u.name (variantLayout (v', x)) := by
  refine ⟨hvv'.name, rfl, ?_⟩
  have htypes := ((hs.unions u hu).fields v hv).types
  refine ((List.forall₂_and_left _ _).2 ⟨htypes, hvv'.fields⟩).imp fun f f' hff' => ?_
  exact hff'.2.mirroredBy hs hs' h hff'.1

/-- Unions that are written otherwise mirror each other. -/
theorem mirroredBy_of_ofUnion {u u' : Union} (hu : u ∈ s.unions) (huu' : u.RewrittenAs ρ grown u')
    {l l' : UnionLayout} (hl : ofUnion u = .ok l) (hl' : ofUnion u' = .ok l') :
    l.MirroredBy ρ grown l' := by
  obtain ⟨a, values, tags, ha, hvalues, htags, hvlen, htlen, rfl⟩ := exists_of_ofUnion hl
  obtain ⟨a', values', tags', ha', hvalues', htags', -, -, rfl⟩ := exists_of_ofUnion hl'
  obtain ⟨variants, more, hvariants, hforall, hmore⟩ := huu'.variants
  obtain ⟨a'', ha'', hattributes⟩ := TypeAttributes.resolve_succeeds huu'.annotations a ha
  obtain rfl := Except.ok.inj (ha'.symm.trans ha'')
  have hoptions : a'.unionOptions = a.unionOptions := by
    simpa using congrArg TypeAttributes.unionOptions hattributes
  have hhooks : a'.hooks = a.hooks := by
    simpa using congrArg TypeAttributes.hooks hattributes
  rw [hvariants] at hvalues' htags'
  rw [hoptions] at htags'
  obtain ⟨moreValues, moreTags, rfl, rfl⟩ :=
    exists_append_of_assignTags hforall hvalues htags hvalues' htags'
  have hlayouts : (u'.variants.zip ((values ++ moreValues).zip (tags ++ moreTags))).map variantLayout =
      (variants.zip (values.zip tags)).map variantLayout ++
        (more.zip (moreValues.zip moreTags)).map variantLayout := by
    rw [hvariants, List.zip_append (hvlen.trans htlen.symm), List.zip_append, List.map_append]
    rw [List.length_zip, hvlen, htlen, Nat.min_self, hforall.length_eq]
  have hmirrored : List.Forall₂ (VariantLayout.MirroredBy ρ u.name)
      ((u.variants.zip (values.zip tags)).map variantLayout)
      ((variants.zip (values.zip tags)).map variantLayout) :=
    forall₂_variantLayout (fun v v' a tag hvv' =>
      mirroredBy_variantLayout hs hs' h hu hvv'.1 hvv'.2 (a, tag))
      ((List.forall₂_and_left _ _).2 ⟨fun _ hv => hv, hforall⟩) _
  refine ⟨huu'.name, hhooks, by rw [hoptions], fun v hv => ?_, fun hgrown v' hv' => ?_⟩
  · obtain ⟨v', hv', hvv'⟩ := exists_right_of_forall₂ hmirrored hv
    exact ⟨v', hlayouts ▸ List.mem_append.2 (.inl hv'), hvv'⟩
  · dsimp only at hv'
    rw [hlayouts, hmore hgrown, List.zip_nil_left, List.map_nil, List.append_nil] at hv'
    obtain ⟨v, hv, hvv'⟩ := exists_left_of_forall₂ hmirrored hv'
    exact ⟨v, hv, hvv'.tag⟩

omit hs hs' h in
/-- Where there are no more variants, a union that is written otherwise is resolved, too. -/
theorem ofUnion_succeeds {u u' : Union} (huu' : u.RewrittenAs ρ false u') :
    Succeeds (fun _ _ => True) (ofUnion u) (ofUnion u') := by
  obtain ⟨variants, more, hvariants, hforall, hmore⟩ := huu'.variants
  rw [hmore rfl, List.append_nil] at hvariants
  subst hvariants
  refine (TypeAttributes.resolve_succeeds huu'.annotations).bind fun a a' ha => ?_
  have hoptions : a'.unionOptions = a.unionOptions := by
    simpa using congrArg TypeAttributes.unionOptions ha
  have hblocks : Succeeds (fun _ _ => True) (checkFieldBlocks (u.variants.flatMap Variant.fields))
      (checkFieldBlocks (u'.variants.flatMap Variant.fields)) := by
    intro _ hok
    refine ⟨(), checkFieldBlocks_eq_ok_iff.2 fun f' hf' => ?_, trivial⟩
    obtain ⟨v', hv', hf'⟩ := List.mem_flatMap.1 hf'
    obtain ⟨v, hv, hvv'⟩ := exists_left_of_forall₂ hforall hv'
    obtain ⟨f, hf, hff'⟩ := exists_left_of_forall₂ hvv'.fields hf'
    have hnone := checkFieldBlocks_eq_ok_iff.1 hok f (List.mem_flatMap.2 ⟨v, hv, hf⟩)
    have hblocks := hff'.annotations
    rw [BlocksRewritten, hnone] at hblocks
    exact List.map_eq_nil_iff.1 hblocks
  refine hblocks.bind fun _ _ _ => ?_
  refine (mapM_resolve_succeeds hforall).bind fun values values' hvalues => ?_
  subst hvalues
  dsimp only
  rw [hoptions]
  exact (assignFrom_succeeds (forall₂_zip_taggedAlike hforall values) []).bind
    fun _ _ _ => .ok trivial

end

end UnionLayout

/-! ## Schemas -/

theorem forall₂_of_mapM_ok {ε α β α' β' : Type} {f : α → Except ε α'} {g : β → Except ε β'}
    {R : α → β → Prop} {Q : α' → β' → Prop} {as : List α} {bs : List β} {as' : List α'}
    {bs' : List β'} (h : List.Forall₂ R as bs)
    (hR : ∀ a b a' b', R a b → f a = .ok a' → g b = .ok b' → Q a' b') (has : as.mapM f = .ok as')
    (hbs : bs.mapM g = .ok bs') : List.Forall₂ Q as' bs' := by
  induction h generalizing as' bs' with
  | nil =>
    cases has
    cases hbs
    exact .nil
  | cons hab _ ih =>
    obtain ⟨a', as', ha, has', rfl⟩ := mapM_cons_eq_ok has
    obtain ⟨b', bs', hb, hbs', rfl⟩ := mapM_cons_eq_ok hbs
    exact .cons (hR _ _ _ _ hab ha hb) (ih has' hbs')

namespace Layout

variable {ρ : Renaming} {free grown : Bool} {s s' : Schema} (hs : s.WellFormed)
  (hs' : s'.WellFormed)
include hs hs'

theorem mapM_ofRecord_succeeds (h : s.RewrittenAs ρ free grown s') :
    Succeeds (List.Forall₂ (RecordLayout.MirroredBy ρ free))
      (s.records.mapM (RecordLayout.ofRecord (defaultable s.records)))
      (s'.records.mapM (RecordLayout.ofRecord (defaultable s'.records))) :=
  .mapM ((List.forall₂_and_left _ _).2 ⟨fun _ hr => hr, h.records⟩) fun _ _ hr =>
    RecordLayout.ofRecord_succeeds hs hs' h hr.1 hr.2

/-- Layouts of schemas one of which is the other written otherwise mirror each other. -/
theorem mirroredBy_of_ofSchema (h : s.RewrittenAs ρ free grown s') {S S' : Layout}
    (hS : ofSchema s = .ok S) (hS' : ofSchema s' = .ok S') : S.MirroredBy ρ free grown S' := by
  obtain ⟨records, hrecords, hS⟩ := exists_of_bind_eq_ok hS
  obtain ⟨unions, hunions, hS⟩ := exists_of_bind_eq_ok hS
  obtain ⟨records', hrecords', hS'⟩ := exists_of_bind_eq_ok hS'
  obtain ⟨unions', hunions', hS'⟩ := exists_of_bind_eq_ok hS'
  cases hS
  cases hS'
  obtain ⟨records'', hrecords'', hmirrored⟩ := mapM_ofRecord_succeeds hs hs' h records hrecords
  obtain rfl := Except.ok.inj (hrecords''.symm.trans hrecords')
  refine ⟨hmirrored, forall₂_of_mapM_ok ((List.forall₂_and_left _ _).2 ⟨fun _ hu => hu, h.unions⟩)
    (fun u u' l l' hu hl hl' => ?_) hunions hunions'⟩
  exact UnionLayout.mirroredBy_of_ofUnion hs hs' h hu.1 hu.2 hl hl'

omit hs hs' in
/-- So do layouts of texts that define such schemas. -/
theorem mirroredBy_of_ofText [Text.CharacterNames] {text text' : String}
    (hs : Schema.parse text = .ok s)
    (hs' : Schema.parse text' = .ok s') (h : s.RewrittenAs ρ free grown s') {S S' : Layout}
    (hS : ofText text = .ok S) (hS' : ofText text' = .ok S') : S.MirroredBy ρ free grown S' :=
  mirroredBy_of_ofSchema (Schema.of_parse hs).1 (Schema.of_parse hs').1 h
    (ofSchema_of_ofText hs hS) (ofSchema_of_ofText hs' hS')

/-- Where no union has more variants, a schema that is written otherwise has a layout, too. -/
theorem ofSchema_succeeds (h : s.RewrittenAs ρ free false s') :
    Succeeds (Layout.MirroredBy ρ free false) (ofSchema s) (ofSchema s') := by
  intro S hS
  have hsome : Succeeds (fun _ _ => True) (ofSchema s) (ofSchema s') :=
    (mapM_ofRecord_succeeds hs hs' h).bind fun _ _ _ =>
      (Succeeds.mapM h.unions fun _ _ => UnionLayout.ofUnion_succeeds).bind fun _ _ _ => .ok trivial
  obtain ⟨S', hS', -⟩ := hsome S hS
  exact ⟨S', hS', mirroredBy_of_ofSchema hs hs' h hS hS'⟩

end Layout

end WireSchema
