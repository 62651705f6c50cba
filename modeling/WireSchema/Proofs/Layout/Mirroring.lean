import WireSchema.Proofs.Layout.Ordering
import WireSchema.Proofs.Layout.Renaming

/-!
# Schemas that are written otherwise

A schema is written otherwise if its declarations have other names, if fields are numbered otherwise
or declared in another order where that does not matter, or if unions have more variants behind the
others. The layouts of the two schemas then mirror each other.
-/

namespace WireSchema

/-! ## Schemas side by side -/

structure Field.RewrittenAs (ρ : Renaming) (g : Nat → Nat) (owner : String) (f f' : Field) :
    Prop where
  ident : f'.ident = ρ.field owner f.ident
  type : f'.type = ρ.typeExpr f.type
  annotations : BlocksRewritten g f.annotations f'.annotations

/-- The order numbers that fields can have. -/
def usedNumbers (fields : List Field) : List Nat := fields.flatMap Field.orderNumbers

/-- The fields stand in the same places, or all of them have a number. -/
structure FieldsRewrittenAs (ρ : Renaming) (free : Bool) (owner : String) (fields fields' : List Field)
    (g : Nat → Nat) (ps : List (Field × Field)) : Prop where
  increasing : ∀ m ∈ usedNumbers fields, ∀ n ∈ usedNumbers fields, m < n → g m < g n
  bounded : ∀ n ∈ usedNumbers fields, n ≤ maxOrderNo → g n ≤ maxOrderNo
  pairs : ∀ p ∈ ps, p.1.RewrittenAs ρ g owner p.2
  left : ps.map Prod.fst = fields
  right : Listed free fields' (ps.map Prod.snd)
  places : fields' = ps.map Prod.snd ∧ (∀ p ∈ ps, p.2.index = p.1.index) ∨
    ∀ f ∈ fields, f.orderNumbers ≠ []

structure Record.RewrittenAs (ρ : Renaming) (free : Bool) (r r' : Record) : Prop where
  name : r'.name = ρ.type r.name
  annotations : SameBlocks r.annotations r'.annotations
  fields : ∃ g ps, FieldsRewrittenAs ρ free r.name r.fields r'.fields g ps

structure Variant.RewrittenAs (ρ : Renaming) (union : String) (v v' : Variant) : Prop where
  name : v'.name = ρ.variant union v.name
  discriminant : v'.discriminant = v.discriminant
  annotations : SameBlocks v.annotations v'.annotations
  fields : List.Forall₂ (Field.RewrittenAs ρ id (Owner.variant union v.name).text) v.fields v'.fields

structure Union.RewrittenAs (ρ : Renaming) (grown : Bool) (u u' : Union) : Prop where
  name : u'.name = ρ.type u.name
  annotations : SameBlocks u.annotations u'.annotations
  variants : ∃ variants more, u'.variants = variants ++ more ∧
    List.Forall₂ (Variant.RewrittenAs ρ u.name) u.variants variants ∧ (grown = false → more = [])

structure Schema.RewrittenAs (ρ : Renaming) (free grown : Bool) (s s' : Schema) : Prop where
  records : List.Forall₂ (Record.RewrittenAs ρ free) s.records s'.records
  unions : List.Forall₂ (Union.RewrittenAs ρ grown) s.unions s'.unions

/-! ## Names -/

theorem Schema.mem_names_of_record (s : Schema) {r : Record} (hr : r ∈ s.records) :
    r.name ∈ s.names := by
  rw [names, declaredNames, List.map_append, List.map_map]
  exact List.mem_append.2 (.inl (List.mem_map_of_mem (f := Record.name) hr))

section

variable {ρ : Renaming} {free grown : Bool} {s s' : Schema} (h : s.RewrittenAs ρ free grown s')
include h

theorem Schema.RewrittenAs.names : s'.names = s.names.map ρ.type := by
  simp only [Schema.names, Schema.declaredNames, List.map_append, List.map_map]
  exact congrArg₂ (· ++ ·) (map_eq_of_forall₂ h.records fun r r' hr => hr.name)
    (map_eq_of_forall₂ h.unions fun u u' hu => hu.name)

variable (hs' : s'.WellFormed)
include hs'

theorem Schema.RewrittenAs.injective {name name' : String} (hname : name ∈ s.names)
    (hname' : name' ∈ s.names) (heq : ρ.type name = ρ.type name') : name = name' :=
  List.inj_on_of_nodup_map (h.names ▸ hs'.distinct) hname hname' heq

theorem Schema.RewrittenAs.freeTypeName : ∀ name ∈ s.names, FreeTypeName (ρ.type name) :=
  fun _ hname => hs'.free _ (h.names ▸ List.mem_map_of_mem hname)

/-- A new name is among new names if the name is among the names. -/
theorem Schema.RewrittenAs.contains_map {known : List String} (hknown : known ⊆ s.names)
    {name : String} (hname : name ∈ s.names) :
    (known.map ρ.type).contains (ρ.type name) = known.contains name := by
  rw [Bool.eq_iff_iff, List.contains_iff_mem, List.contains_iff_mem]
  refine ⟨fun hmem => ?_, List.mem_map_of_mem⟩
  obtain ⟨name', hname', heq⟩ := List.mem_map.1 hmem
  exact h.injective hs' (hknown hname') hname heq ▸ hname'

end

/-! ## Defaults -/

section

variable {ρ : Renaming} {free grown : Bool} {s s' : Schema} (hs : s.WellFormed)
  (hs' : s'.WellFormed) (h : s.RewrittenAs ρ free grown s')
include hs hs' h

theorem Schema.RewrittenAs.hasDefault {known : List String} (hknown : known ⊆ s.names)
    {t : TypeExpr} (ht : t.WellFormed s.names) :
    (ρ.typeExpr t).hasDefault (known.map ρ.type) = t.hasDefault known :=
  Renaming.hasDefault_typeExpr hs.free ht (h.freeTypeName hs') fun _ =>
    h.contains_map hs' hknown

theorem Field.RewrittenAs.mirroredBy {g : Nat → Nat} {owner : String} {f f' : Field}
    (hff' : f.RewrittenAs ρ g owner f') (hf : f.type.WellFormed s.names) :
    f.MirroredBy ρ owner f' := by
  refine ⟨hff'.ident, ?_⟩
  rw [Field.codec, Field.codec, hff'.type]
  exact Renaming.codec_typeExpr hs.free hf (h.freeTypeName hs')

theorem Schema.RewrittenAs.all_hasDefault {known : List String} (hknown : known ⊆ s.names)
    {r r' : Record} (hr : r ∈ s.records) (hrr' : r.RewrittenAs ρ free r') :
    (r'.fields.all fun f => f.type.hasDefault (known.map ρ.type)) =
      r.fields.all fun f => f.type.hasDefault known := by
  obtain ⟨g, ps, hps⟩ := hrr'.fields
  rw [hps.right.perm.all_eq, ← hps.left, List.all_map, List.all_map, Bool.eq_iff_iff,
    List.all_eq_true, List.all_eq_true]
  refine forall₂_congr fun p hp => ?_
  have hmem : p.1 ∈ r.fields := hps.left ▸ List.mem_map_of_mem hp
  rw [Function.comp, Function.comp, (hps.pairs p hp).type,
    h.hasDefault hs hs' hknown ((hs.records r hr).types p.1 hmem)]

theorem Schema.RewrittenAs.addDefaultable {records records' : List Record}
    (hrecords : List.Forall₂ (Record.RewrittenAs ρ free) records records')
    (hsub : records ⊆ s.records) {known : List String} (hknown : known ⊆ s.names) :
    WireSchema.addDefaultable records' (known.map ρ.type) =
      (WireSchema.addDefaultable records known).map ρ.type ∧
        WireSchema.addDefaultable records known ⊆ s.names := by
  induction hrecords generalizing known with
  | nil => exact ⟨rfl, hknown⟩
  | @cons r r' records records' hrr' _ ih =>
    obtain ⟨hr, hsub⟩ := List.cons_subset.1 hsub
    have hname : r.name ∈ s.names := s.mem_names_of_record hr
    have hmore : r.name :: known ⊆ s.names := List.cons_subset.2 ⟨hname, hknown⟩
    rw [WireSchema.addDefaultable, WireSchema.addDefaultable, List.foldl_cons, List.foldl_cons,
      hrr'.name, h.contains_map hs' hknown hname, h.all_hasDefault hs hs' hknown hr hrr']
    split
    · exact ih hsub hknown
    · split
      · exact ih hsub hmore
      · exact ih hsub hknown

theorem Schema.RewrittenAs.defaultable :
    WireSchema.defaultable s'.records = (WireSchema.defaultable s.records).map ρ.type ∧
      WireSchema.defaultable s.records ⊆ s.names := by
  have hgrow : ∀ n known, known ⊆ s.names →
      growDefaultable s'.records n (known.map ρ.type) =
        (growDefaultable s.records n known).map ρ.type ∧
          growDefaultable s.records n known ⊆ s.names := by
    intro n
    induction n with
    | zero => exact fun known hknown => ⟨rfl, hknown⟩
    | succ n ih =>
      intro known hknown
      obtain ⟨hadd, hmore⟩ := h.addDefaultable hs hs' h.records (List.Subset.refl _) hknown
      rw [growDefaultable, growDefaultable, hadd]
      simp only [List.length_map]
      split
      · exact ⟨rfl, hknown⟩
      · exact ih _ hmore
  rw [WireSchema.defaultable, WireSchema.defaultable, h.records.length_eq]
  exact hgrow _ [] (List.nil_subset _)

end

/-! ## Fields -/

/-- What is set by one of several settings, or before them, and kept by merging is set in the end. -/
theorem Vocabulary.holds_of_foldlM {α β : Type} {V : Vocabulary α} {P : α → Prop}
    (hmerge : ∀ a b, P a ∨ P b → P (V.merge a b)) {f : β → Resolved α} {bs : List β} {a c : α}
    (h : bs.foldlM (fun acc b => return V.merge acc (← f b)) a = .ok c)
    (hP : P a ∨ ∃ b ∈ bs, ∀ a, f b = .ok a → P a) : P c := by
  induction bs generalizing a with
  | nil =>
    cases h
    exact hP.resolve_right fun ⟨_, hb, _⟩ => nomatch hb
  | cons b' bs ih =>
    rw [List.foldlM_cons] at h
    obtain ⟨a', ha', h⟩ := exists_of_bind_eq_ok h
    obtain ⟨a'', ha'', ha'⟩ := exists_of_bind_eq_ok ha'
    cases ha'
    refine ih h ?_
    rcases hP with ha | ⟨b, hb, hbP⟩
    · exact .inl (hmerge _ _ (.inl ha))
    · rcases List.mem_cons.1 hb with rfl | hb
      · exact .inl (hmerge _ _ (.inr (hbP a'' ha'')))
      · exact .inr ⟨b, hb, hbP⟩

namespace FieldAttributes

theorem isSome_orderNo_of_argument (l : Location) {x : Argument} {n : Nat}
    (hx : x.orderNo? = some n) {a : FieldAttributes} (ha : argument l x = .ok a) :
    a.orderNo.isSome := by
  cases x with
  | flag | bare => cases hx
  | keyed key v l₁ l₂ =>
    cases v with
    | string | codePoints | name => cases hx
    | integer m =>
      rw [Argument.orderNo?] at hx
      split at hx
      next hkey =>
        subst hkey
        obtain ⟨p, hp, ha⟩ := exists_of_bind_eq_ok ha
        cases hp
        obtain ⟨k, -, ha⟩ := exists_of_bind_eq_ok ha
        cases ha
        rfl
      next => cases hx

/-- A field that is given a number has one. -/
theorem isSome_orderNo_of_resolve {f : Field} (h : f.orderNumbers ≠ []) {a : FieldAttributes}
    (ha : resolve f.annotations = .ok a) : a.orderNo.isSome := by
  obtain ⟨n, hn⟩ := List.exists_mem_of_ne_nil _ h
  obtain ⟨b, hb, hn⟩ := List.mem_flatMap.1 hn
  obtain ⟨x, hx, hn⟩ := List.mem_filterMap.1 hn
  have hmerge : ∀ a b : FieldAttributes, a.orderNo.isSome ∨ b.orderNo.isSome →
      (vocabulary.merge a b).orderNo.isSome := by
    intro a b hab
    change (later a.orderNo b.orderNo).isSome
    cases hb : b.orderNo with
    | none => simpa [hb] using hab
    | some n => simp
  obtain ⟨_, -, ha⟩ := exists_of_bind_eq_ok ha
  refine Vocabulary.holds_of_foldlM hmerge ha (.inr ⟨b, hb, fun c hc => ?_⟩)
  exact Vocabulary.holds_of_foldlM hmerge hc (.inr ⟨x, hx, fun d hd =>
    isSome_orderNo_of_argument b.location hn hd⟩)

end FieldAttributes

theorem exists_mapM_of_perm {ε α β : Type} {f : α → Except ε β} {as as' : List α}
    (h : as.Perm as') {bs : List β} (has : as.mapM f = .ok bs) :
    ∃ bs', as'.mapM f = .ok bs' ∧ bs.Perm bs' := by
  induction h generalizing bs with
  | nil => exact ⟨bs, has, .refl _⟩
  | cons a _ ih =>
    obtain ⟨b, bs', hb, hbs, rfl⟩ := mapM_cons_eq_ok has
    obtain ⟨bs'', hbs', hperm⟩ := ih hbs
    refine ⟨b :: bs'', ?_, hperm.cons b⟩
    rw [List.mapM_cons, hb, hbs']
    rfl
  | swap a a' as =>
    obtain ⟨b', bs', hb', hbs, rfl⟩ := mapM_cons_eq_ok has
    obtain ⟨b, bs'', hb, hbs', rfl⟩ := mapM_cons_eq_ok hbs
    refine ⟨b :: b' :: bs'', ?_, .swap b b' bs''⟩
    rw [List.mapM_cons, List.mapM_cons, hb, hb', hbs']
    rfl
  | trans _ _ ih ih' =>
    obtain ⟨bs', hbs', hperm⟩ := ih has
    obtain ⟨bs'', hbs'', hperm'⟩ := ih' hbs'
    exact ⟨bs'', hbs'', hperm.trans hperm'⟩

theorem exists_mapM_of_listed {ε α β : Type} {f : α → Except ε β} {free : Bool} {as as' : List α}
    (h : Listed free as' as) {bs : List β} (has : as.mapM f = .ok bs) :
    ∃ bs', as'.mapM f = .ok bs' ∧ Listed free bs' bs := by
  cases free with
  | false =>
    obtain rfl : as' = as := h
    exact ⟨bs, has, .refl _ _⟩
  | true =>
    obtain ⟨bs', hbs', hperm⟩ := exists_mapM_of_perm h.perm.symm has
    exact ⟨bs', hbs', hperm.symm⟩

/-- What is resolved for fields that stand side by side. -/
structure FieldLayout.Beside (ps : List (Field × Field)) (used : List Nat) (g : Nat → Nat)
    (l l' : FieldLayout) : Prop where
  mem : (l.field, l'.field) ∈ ps
  attributes : l.attributes.Rewritten used g l'.attributes
  numbered : l.field.orderNumbers ≠ [] → l.attributes.orderNo.isSome

namespace RecordLayout

theorem resolveFields_succeeds {ρ : Renaming} {free : Bool} {owner : String}
    {fields fields' : List Field} {g : Nat → Nat} {ps : List (Field × Field)}
    (h : FieldsRewrittenAs ρ free owner fields fields' g ps) :
    Succeeds (fun ls ls' => ∃ qs : List (FieldLayout × FieldLayout),
      (∀ q ∈ qs, q.1.Beside ps (usedNumbers fields) g q.2) ∧ qs.map Prod.fst = ls ∧
        Listed free ls' (qs.map Prod.snd) ∧
        (ls' = qs.map Prod.snd ∧ (∀ q ∈ qs, q.2.field.index = q.1.field.index) ∨
          ∀ q ∈ qs, q.1.attributes.orderNo.isSome))
      (resolveFields fields) (resolveFields fields') := by
  have hpairs : List.Forall₂ (fun f f' => (f, f') ∈ ps) (ps.map Prod.fst) (ps.map Prod.snd) := by
    rw [List.forall₂_map_left_iff, List.forall₂_map_right_iff, List.forall₂_same]
    exact fun p hp => hp
  have hall : Succeeds (List.Forall₂ (FieldLayout.Beside ps (usedNumbers fields) g))
      (resolveFields (ps.map Prod.fst)) (resolveFields (ps.map Prod.snd)) := by
    refine .mapM hpairs fun f f' hp => ?_
    have hmem : f ∈ fields := h.left ▸ List.mem_map_of_mem (f := Prod.fst) hp
    have hused : f.orderNumbers ⊆ usedNumbers fields := fun n hn =>
      List.mem_flatMap.2 ⟨f, hmem, hn⟩
    intro l hl
    obtain ⟨a, ha, hl⟩ := exists_of_bind_eq_ok hl
    cases hl
    obtain ⟨a', ha', haa'⟩ :=
      FieldAttributes.resolve_succeeds (h.pairs _ hp).annotations hused h.bounded a ha
    refine ⟨⟨f', a'⟩, ?_, hp, haa', fun hnumbers => ?_⟩
    · rw [ha']
      rfl
    · exact FieldAttributes.isSome_orderNo_of_resolve hnumbers ha
  intro ls hls
  rw [← h.left] at hls
  obtain ⟨ls₁, hls₁, hbeside⟩ := hall ls hls
  obtain ⟨ls', hls', hlisted⟩ := exists_mapM_of_listed h.right hls₁
  obtain ⟨qs, hqs, rfl, rfl⟩ := exists_pairs_of_forall₂ hbeside
  refine ⟨ls', hls', qs, hqs, rfl, hlisted, ?_⟩
  rcases h.places with ⟨hfields', hindex⟩ | hnumbered
  · rw [hfields'] at hls'
    exact .inl ⟨Except.ok.inj (hls'.symm.trans hls₁), fun q hq => hindex _ (hqs q hq).mem⟩
  · refine .inr fun q hq => (hqs q hq).numbered (hnumbered _ ?_)
    exact h.left ▸ List.mem_map_of_mem (f := Prod.fst) (hqs q hq).mem

theorem checkIgnored_eq_ok_iff {known : List String} {fields : List FieldLayout} :
    checkIgnored known fields = .ok () ↔
      ∀ f ∈ fields, f.attributes.ignore = true → f.field.type.hasDefault known = true := by
  refine ⟨of_checkIgnored, fun h => ?_⟩
  induction fields with
  | nil => rfl
  | cons f fs ih =>
    rw [checkIgnored, if_neg]
    · exact ih fun g hg => h g (.tail _ hg)
    · have hf := h f (.head _)
      cases hi : f.attributes.ignore <;> simp_all

section

variable {ρ : Renaming} {free grown : Bool} {s s' : Schema} (hs : s.WellFormed)
  (hs' : s'.WellFormed) (h : s.RewrittenAs ρ free grown s')
include hs hs' h

omit hs hs' h in
/-- Fields side by side are on the wire side by side. -/
theorem forall₂_wireFields {owner : String} {os : List (FieldLayout × FieldLayout)}
    (hos : ∀ q ∈ os, q.1.MirroredBy ρ owner q.2) :
    List.Forall₂ (Field.MirroredBy ρ owner)
      (((os.map Prod.fst).filter fun l => !l.attributes.ignore).map FieldLayout.field)
      (((os.map Prod.snd).filter fun l => !l.attributes.ignore).map FieldLayout.field) := by
  have hignore : os.filter ((fun l => !l.attributes.ignore) ∘ Prod.snd) =
      os.filter ((fun l : FieldLayout => !l.attributes.ignore) ∘ Prod.fst) :=
    List.filter_congr fun q hq => by rw [Function.comp, Function.comp, (hos q hq).ignore]
  rw [List.filter_map, List.filter_map, hignore, List.map_map, List.map_map,
    List.forall₂_map_left_iff, List.forall₂_map_right_iff, List.forall₂_same]
  exact fun q hq => (hos q (List.mem_filter.1 hq).1).field

theorem ofRecord_succeeds {r r' : Record} (hr : r ∈ s.records) (hrr' : r.RewrittenAs ρ free r') :
    Succeeds (RecordLayout.MirroredBy ρ free) (ofRecord (defaultable s.records) r)
      (ofRecord (defaultable s'.records) r') := by
  obtain ⟨g, ps, hps⟩ := hrr'.fields
  obtain ⟨hknown, hsub⟩ := h.defaultable hs hs'
  have htype : ∀ p ∈ ps, p.1.type.WellFormed s.names := fun p hp =>
    (hs.records r hr).types p.1 (hps.left ▸ List.mem_map_of_mem hp)
  refine (TypeAttributes.resolve_succeeds hrr'.annotations).bind fun a a' ha => ?_
  have hoptions : a'.unionOptions = a.unionOptions := by
    simpa using congrArg TypeAttributes.unionOptions ha
  have hhooks : a'.hooks = a.hooks := by
    simpa using congrArg TypeAttributes.hooks ha
  dsimp only
  rw [hoptions]
  cases a.unionOptions with
  | some options => cases a.unionLocation <;> exact .error _ _
  | none =>
    refine (resolveFields_succeeds hps).bind fun ls ls' hls => ?_
    obtain ⟨qs, hqs, rfl, hlisted, hplaces⟩ := hls
    have hignored : Succeeds (fun _ _ => True) (checkIgnored (defaultable s.records) (qs.map Prod.fst))
        (checkIgnored (defaultable s'.records) ls') := by
      intro _ hok
      refine ⟨(), checkIgnored_eq_ok_iff.2 fun l' hl' hi => ?_, trivial⟩
      obtain ⟨q, hq, rfl⟩ := List.mem_map.1 (hlisted.perm.mem_iff.1 hl')
      have hpair := hps.pairs _ (hqs q hq).mem
      rw [hpair.type, hknown, h.hasDefault hs hs' hsub (htype _ (hqs q hq).mem)]
      refine checkIgnored_eq_ok_iff.1 hok q.1 (List.mem_map_of_mem hq) ?_
      rw [← (hqs q hq).attributes.ignore, hi]
    have hmirrored : ∀ q ∈ qs, q.1.MirroredBy ρ r.name q.2 := by
      intro q hq
      have hmem := (hqs q hq).mem
      exact ⟨(hps.pairs _ hmem).mirroredBy hs hs' h (htype _ hmem), (hqs q hq).attributes.ignore⟩
    refine hignored.bind fun _ _ _ => ?_
    refine (orderFields_succeeds hps.increasing hlisted (fun q hq => (hqs q hq).attributes.orderNo)
      hplaces).bind fun order order' horder => .ok ⟨hrr'.name, hhooks, ?_, ?_, ?_⟩
    · rw [hknown, hrr'.name]
      exact h.contains_map hs' hsub (s.mem_names_of_record hr)
    · refine ⟨qs.map Prod.snd, ?_, hlisted⟩
      rw [List.forall₂_map_left_iff, List.forall₂_map_right_iff, List.forall₂_same]
      exact hmirrored
    · obtain ⟨os, hperm, rfl, rfl⟩ := horder
      exact forall₂_wireFields fun q hq => hmirrored q (hperm.mem_iff.1 hq)

end

end RecordLayout

end WireSchema
