import WireSchema.Layout.Basic
import WireSchema.Proofs.Layout.Assigning
import WireSchema.Proofs.Layout.Joining
import WireSchema.Proofs.Layout.Resolving

/-!
# Where faults are reported

A fault is reported at the place of a declaration, a variant, a field or an argument, or at that of
a block. It is shown check by check, and kept where checks are put together: what fails is one of
them. A discriminant that is too long to be read is the only one that has no wording.
-/

namespace WireSchema

/-! ## Computations that fail -/

section

variable {ε α β : Type} {P Q : ε → Prop}

/-- If there is no outcome, it is for a reason that fulfils `P`. -/
def Fails (P : ε → Prop) (x : Except ε α) : Prop := ∀ why, x = .error why → P why

namespace Fails

theorem mono {x : Except ε α} (h : Fails P x) (hPQ : ∀ why, P why → Q why) : Fails Q x :=
  fun why hwhy => hPQ why (h why hwhy)

theorem ok (a : α) : Fails P (.ok a) := nofun

theorem error {why : ε} (h : P why) : Fails P (.error why : Except ε α) := by
  rintro _ ⟨⟩
  exact h

theorem bind {x : Except ε α} {k : α → Except ε β} (hx : Fails P x)
    (hk : ∀ a, x = .ok a → Fails P (k a)) : Fails P (x >>= k) := by
  cases x with
  | error why => exact .error (hx why rfl)
  | ok a => exact hk a rfl

theorem mapM {f : α → Except ε β} {as : List α} (h : ∀ a ∈ as, Fails P (f a)) :
    Fails P (as.mapM f) := by
  induction as with
  | nil => exact ok []
  | cons a as ih =>
    obtain ⟨ha, has⟩ := List.forall_mem_cons.1 h
    rw [List.mapM_cons]
    exact ha.bind fun _ _ => (ih has).bind fun _ _ => ok _

theorem foldlM {f : β → α → Except ε β} {as : List α} (h : ∀ b, ∀ a ∈ as, Fails P (f b a))
    (b : β) : Fails P (as.foldlM f b) := by
  induction as generalizing b with
  | nil => exact ok b
  | cons a as ih =>
    rw [List.foldlM_cons]
    exact (h b a (.head _)).bind fun c _ => ih (fun b a ha => h b a (.tail _ ha)) c

end Fails

end

/-! ## Checking a schema -/

/-- The places of declarations, variants and fields. -/
def Schema.places (s : Schema) : List Location :=
  (s.records.flatMap fun r => r.location :: r.fields.map Field.location) ++
    s.unions.flatMap fun u => u.location :: u.variants.flatMap fun v =>
      v.location :: v.fields.map Field.location

/-- A fault of names and types is found at one of some places, unless there is no text to report it
by. -/
def SchemaRejection.At (places : List Location) : SchemaRejection → Prop
  | invalid fault l => fault ≠ .unexpectedInput ∧ l ∈ places
  | malformedString => False
  | keyWithoutText => True

section

variable {places : List Location} {l : Location}

theorem fails_refuse {α : Type} {fault : SchemaFault} (hfault : fault ≠ .unexpectedInput)
    (hl : l ∈ places) : Fails (SchemaRejection.At places) (refuse fault l : Checked α) :=
  .error ⟨hfault, hl⟩

theorem fails_checkName (name what : String) (hl : l ∈ places) :
    Fails (SchemaRejection.At places) (checkName name what l) := by
  unfold checkName
  split
  · exact fails_refuse nofun hl
  · exact .ok ()

mutual
theorem fails_checkType (declared : List String) (hl : l ∈ places) :
    ∀ t : TypeExpr, Fails (SchemaRejection.At places) (checkType declared l t)
  | .named name => by
    rw [checkType]
    split
    · exact fails_refuse nofun hl
    · split
      · exact .ok ()
      · exact fails_refuse nofun hl
  | .applied name args => by
    have hargs := fails_checkTypes declared hl args
    rw [checkType.eq_def]
    dsimp only
    split
    · split
      · exact fails_refuse nofun hl
      · split
        · split
          · exact hargs
          · split
            · exact hargs
            · split
              · exact fails_refuse nofun hl
              · exact .error trivial
        · exact hargs
    · exact fails_refuse nofun hl
  | .array element _ => by
    rw [checkType]
    exact fails_checkType declared hl element

theorem fails_checkTypes (declared : List String) (hl : l ∈ places) :
    ∀ ts : List TypeExpr, Fails (SchemaRejection.At places) (checkTypes declared l ts)
  | [] => .ok ()
  | t :: ts => (fails_checkType declared hl t).bind fun _ _ => fails_checkTypes declared hl ts
end

/-- A name that is checked to be new is refused where it stands. -/
theorem fails_unless {α : Type} {c : Prop} [Decidable c] {fault : SchemaFault}
    (hfault : fault ≠ .unexpectedInput) (hl : l ∈ places) {k : Unit → Checked α}
    (hk : Fails (SchemaRejection.At places) (k ())) :
    Fails (SchemaRejection.At places) (if c then refuse fault l >>= k else k ()) := by
  split
  · exact (fails_refuse hfault hl).bind fun _ h => nomatch h
  · exact hk

theorem fails_checkFields (declared : List String) (owner : String) {fields : List Field}
    (hfields : ∀ f ∈ fields, f.location ∈ places) (seen : List String) :
    Fails (SchemaRejection.At places) (checkFields declared owner seen fields) := by
  induction fields generalizing seen with
  | nil => exact .ok ()
  | cons f fs ih =>
    obtain ⟨hl, hfs⟩ := List.forall_mem_cons.1 hfields
    rw [checkFields]
    split
    · exact (fails_checkType declared hl f.type).bind fun _ _ => ih hfs seen
    next name _ =>
      refine (fails_checkName name "field" hl).bind fun _ _ => ?_
      exact fails_unless (by simp) hl (fails_unless (by simp) hl
        ((fails_checkType declared hl f.type).bind fun _ _ => ih hfs _))

theorem fails_checkDeclared {names : List (String × Location)}
    (hnames : ∀ x ∈ names, x.2 ∈ places) (declared : List String) :
    Fails (SchemaRejection.At places) (checkDeclared declared names) := by
  induction names generalizing declared with
  | nil => exact .ok _
  | cons x rest ih =>
    obtain ⟨hl, hrest⟩ := List.forall_mem_cons.1 hnames
    exact (fails_checkName _ "type" hl).bind fun _ _ => fails_unless (by simp) hl
      (fails_unless (by simp) hl (ih hrest _))

theorem fails_checkVariants (declared : List String) (union : String) {variants : List Variant}
    (hvariants : ∀ v ∈ variants, v.location ∈ places ∧ ∀ f ∈ v.fields, f.location ∈ places)
    (seen : List String) :
    Fails (SchemaRejection.At places) (checkVariants declared union seen variants) := by
  induction variants generalizing seen with
  | nil => exact .ok ()
  | cons v vs ih =>
    obtain ⟨⟨hl, hfields⟩, hvs⟩ := List.forall_mem_cons.1 hvariants
    exact (fails_checkName v.name "variant" hl).bind fun _ _ =>
      fails_unless (by simp) hl ((fails_checkFields declared _ hfields []).bind fun _ _ => ih hvs _)

theorem fails_checkRecords (declared : List String) {records : List Record}
    (h : ∀ r ∈ records, ∀ f ∈ r.fields, f.location ∈ places) :
    Fails (SchemaRejection.At places) (checkRecords declared records) := by
  induction records with
  | nil => exact .ok ()
  | cons r rs ih =>
    obtain ⟨hr, hrs⟩ := List.forall_mem_cons.1 h
    exact (fails_checkFields declared _ hr []).bind fun _ _ => ih hrs

theorem fails_checkUnions (declared : List String) {unions : List Union}
    (h : ∀ u ∈ unions, ∀ v ∈ u.variants, v.location ∈ places ∧ ∀ f ∈ v.fields, f.location ∈ places) :
    Fails (SchemaRejection.At places) (checkUnions declared unions) := by
  induction unions with
  | nil => exact .ok ()
  | cons u us ih =>
    obtain ⟨hu, hus⟩ := List.forall_mem_cons.1 h
    exact (fails_checkVariants declared _ hu []).bind fun _ _ => ih hus

theorem Schema.mem_places_of_record {s : Schema} {r : Record} (hr : r ∈ s.records) :
    r.location ∈ s.places ∧ ∀ f ∈ r.fields, f.location ∈ s.places := by
  have hmem : ∀ l ∈ r.location :: r.fields.map Field.location, l ∈ s.places := fun l hl =>
    List.mem_append_left _ (List.mem_flatMap.2 ⟨r, hr, hl⟩)
  exact ⟨hmem _ (.head _), fun f hf => hmem _ (.tail _ (List.mem_map_of_mem hf))⟩

theorem Schema.mem_places_of_union {s : Schema} {u : Union} (hu : u ∈ s.unions) :
    u.location ∈ s.places ∧ ∀ v ∈ u.variants,
      v.location ∈ s.places ∧ ∀ f ∈ v.fields, f.location ∈ s.places := by
  have hmem : ∀ l ∈ u.location :: u.variants.flatMap (fun v =>
      v.location :: v.fields.map Field.location), l ∈ s.places := fun l hl =>
    List.mem_append_right _ (List.mem_flatMap.2 ⟨u, hu, hl⟩)
  refine ⟨hmem _ (.head _), fun v hv => ?_⟩
  have hmem' : ∀ l ∈ v.location :: v.fields.map Field.location, l ∈ s.places := fun l hl =>
    hmem _ (.tail _ (List.mem_flatMap.2 ⟨v, hv, hl⟩))
  exact ⟨hmem' _ (.head _), fun f hf => hmem' _ (.tail _ (List.mem_map_of_mem hf))⟩

theorem Schema.fails_check (s : Schema) : Fails (SchemaRejection.At s.places) s.check := by
  refine (fails_checkDeclared (fun x hx => ?_) []).bind fun declared _ =>
    (fails_checkRecords declared fun r hr => (mem_places_of_record hr).2).bind fun _ _ =>
      fails_checkUnions declared fun u hu => (mem_places_of_union hu).2
  rcases List.mem_append.1 hx with hx | hx
  · obtain ⟨r, hr, rfl⟩ := List.mem_map.1 hx
    exact (mem_places_of_record hr).1
  · obtain ⟨u, hu, rfl⟩ := List.mem_map.1 hx
    exact (mem_places_of_union hu).1

end

/-! ## Resolving a schema -/

/-- Faults of a block as a whole, which are reported at the block. -/
def LayoutFault.OfBlock : LayoutFault → Prop
  | unknownBlock _ | unionOptionOnRecord | annotatedVariantField => True
  | _ => False

/-- The blocks of annotations, wherever they stand. -/
def Schema.blocks (s : Schema) : List AnnotationBlock :=
  (s.records.flatMap fun r => r.annotations ++ r.fields.flatMap Field.annotations) ++
    s.unions.flatMap fun u => u.annotations ++ u.variants.flatMap fun v =>
      v.annotations ++ v.fields.flatMap Field.annotations

/-- The texts of discriminants. -/
def Schema.discriminants (s : Schema) : List String :=
  s.unions.flatMap fun u => u.variants.filterMap Variant.discriminant

/-- A fault of a block is found at the block, any other at an argument of a block or elsewhere. One
without wording is that of a discriminant. -/
structure LayoutError.At (blocks : List AnnotationBlock) (places : List Location)
    (discriminants : List String) (e : LayoutError) : Prop where
  block : e.fault.OfBlock → ∃ b ∈ blocks, e.location = b.location
  other : ¬ e.fault.OfBlock → e.location ∈ places ∨
    ∃ b ∈ blocks, ∃ a ∈ b.arguments, e.location = a.location ∨ e.location = a.valueLocation
  unworded : e.fault.isWorded = false → ∃ text ∈ discriminants, isTooLong text = true

namespace LayoutError

variable {blocks blocks' : List AnnotationBlock} {places places' : List Location}
  {texts texts' : List String}

theorem At.mono {e : LayoutError} (h : e.At blocks places texts) (hblocks : blocks ⊆ blocks')
    (hplaces : places ⊆ places') (htexts : texts ⊆ texts') : e.At blocks' places' texts' where
  block he := by
    obtain ⟨b, hb, hl⟩ := h.block he
    exact ⟨b, hblocks hb, hl⟩
  other he := by
    rcases h.other he with hl | ⟨b, hb, ha⟩
    · exact .inl (hplaces hl)
    · exact .inr ⟨b, hblocks hb, ha⟩
  unworded he := by
    obtain ⟨text, htext, hlong⟩ := h.unworded he
    exact ⟨text, htexts htext, hlong⟩

theorem at_block {fault : LayoutFault} {b : AnnotationBlock} (hfault : fault.OfBlock)
    (hworded : fault.isWorded = true) (hb : b ∈ blocks) :
    LayoutError.At blocks places texts ⟨fault, b.location⟩ :=
  ⟨fun _ => ⟨b, hb, rfl⟩, fun h => absurd hfault h, fun h => nomatch h.symm.trans hworded⟩

theorem at_place {fault : LayoutFault} {l : Location} (hfault : ¬ fault.OfBlock)
    (hworded : fault.isWorded = true) (hl : l ∈ places) :
    LayoutError.At blocks places texts ⟨fault, l⟩ :=
  ⟨fun h => absurd h hfault, fun _ => .inl hl, fun h => nomatch h.symm.trans hworded⟩

/-- A fault of an argument is found at its key or at its value. -/
structure AtArgument (a : Argument) (e : LayoutError) : Prop where
  other : ¬ e.fault.OfBlock
  worded : e.fault.isWorded = true
  place : e.location = a.location ∨ e.location = a.valueLocation

end LayoutError

open LayoutError (AtArgument)

section

variable {a : Argument}

theorem fails_key {α : Type} {fault : LayoutFault} (hfault : ¬ fault.OfBlock)
    (hworded : fault.isWorded = true) :
    Fails (AtArgument a) (unresolved fault a.location : Resolved α) :=
  .error ⟨hfault, hworded, .inl rfl⟩

theorem fails_value {α : Type} {fault : LayoutFault} (hfault : ¬ fault.OfBlock)
    (hworded : fault.isWorded = true) :
    Fails (AtArgument a) (unresolved fault a.valueLocation : Resolved α) :=
  .error ⟨hfault, hworded, .inr rfl⟩

theorem fails_checkForm (keys flags : List String) (a : Argument) :
    Fails (AtArgument a) (checkForm keys flags a) := by
  cases a with
  | bare value l => exact fails_key (a := .bare value l) id rfl
  | flag key l =>
    rw [checkForm]
    split
    · exact .ok _
    · split
      · exact fails_key (a := .flag key l) id rfl
      · exact fails_key (a := .flag key l) id rfl
  | keyed key value l vl =>
    rw [checkForm]
    split
    · exact fails_key (a := .keyed key value l vl) id rfl
    · split
      · exact .ok _
      · exact fails_key (a := .keyed key value l vl) id rfl

theorem fails_expectString {fault : String → LayoutFault} (hfault : ∀ t, ¬ (fault t).OfBlock)
    (hworded : ∀ t, (fault t).isWorded = true) (a : Argument) :
    Fails (AtArgument a) (expectString fault a) := by
  unfold expectString
  split
  · exact .ok _
  · exact fails_value (hfault _) (hworded _)
  · exact fails_value id rfl

theorem fails_expectNumber (max : Nat) (a : Argument) :
    Fails (AtArgument a) (expectNumber max a) := by
  unfold expectNumber
  split
  · split
    · exact .ok _
    · exact fails_value id rfl
  · exact fails_value id rfl

namespace Vocabulary

variable {α : Type} (V : Vocabulary α)

/-- Of the arguments, what is at fault is reported at the one that is. -/
theorem fails_resolve (hV : ∀ l a, Fails (AtArgument a) (V.argument l a))
    (blocks : List AnnotationBlock) : Fails (LayoutError.At blocks [] []) (V.resolve blocks) := by
  have hnames : ∀ bs ⊆ blocks, Fails (LayoutError.At blocks [] []) (checkNames bs) := by
    intro bs hbs
    induction bs with
    | nil => exact .ok ()
    | cons b bs ih =>
      obtain ⟨hb, hbs⟩ := List.cons_subset.1 hbs
      rw [checkNames]
      split
      · exact ih hbs
      · exact .error (LayoutError.at_block trivial rfl hb)
  refine (hnames blocks (List.Subset.refl _)).bind fun _ _ => .foldlM (fun acc b hb => ?_) _
  refine .bind (.foldlM (fun acc a ha => ?_) _) fun _ _ => .ok _
  refine .bind ((hV b.location a).mono fun e he => ?_) fun _ _ => .ok _
  exact ⟨fun h => absurd h he.other, fun _ => .inr ⟨b, hb, a, ha, he.place⟩,
    fun h => absurd (h.symm.trans he.worded) Bool.false_ne_true⟩

end Vocabulary

theorem FieldAttributes.fails_argument (l : Location) (a : Argument) :
    Fails (AtArgument a) (argument l a) := by
  refine (fails_checkForm _ _ a).bind fun x _ => ?_
  dsimp only
  split
  · exact (fails_expectNumber _ a).bind fun _ _ => .ok _
  · exact .ok _

theorem VariantAttributes.fails_argument (l : Location) (a : Argument) :
    Fails (AtArgument a) (argument l a) :=
  (fails_checkForm _ _ a).bind fun _ _ => (fails_expectNumber _ a).bind fun _ _ => .ok _

theorem TypeAttributes.fails_argument (l : Location) (a : Argument) :
    Fails (AtArgument a) (argument l a) := by
  refine (fails_checkForm _ _ a).bind fun x _ => ?_
  dsimp only
  split
  · refine (fails_expectString (fun _ => id) (fun _ => rfl) a).bind fun path _ => ?_
    split
    · exact .ok _
    · exact fails_value id rfl
  · split
    · refine (fails_expectString (fun _ => id) (fun _ => rfl) a).bind fun name _ => ?_
      split
      · exact .ok _
      · exact fails_value id rfl
    · exact .ok _

end

/-! ## Declarations -/

/-- A record with union options has a block that gives them. -/
theorem TypeAttributes.exists_of_unionOptions {blocks : List AnnotationBlock} {a : TypeAttributes}
    (h : resolve blocks = .ok a) {o : UnionOptions} (ho : a.unionOptions = some o) :
    ∃ b ∈ blocks, a.unionLocation = some b.location := by
  have hoptions := (tells_of_resolve h).options
  rw [ho, Option.isSome_some, eq_comm, List.any_flatMap, List.any_eq_true] at hoptions
  obtain ⟨b, hfind⟩ := Option.isSome_iff_exists.1 (List.find?_isSome.2 hoptions)
  exact ⟨b, List.mem_of_find?_eq_some hfind, by
    rw [unionLocation_of_resolve h, optionLocation?, hfind, Option.map_some]⟩

namespace RecordLayout

variable {blocks : List AnnotationBlock} {places : List Location}

theorem fails_resolveFields (fields : List Field) :
    Fails (LayoutError.At (fields.flatMap Field.annotations) [] []) (resolveFields fields) := by
  refine .mapM fun f hf => .bind ?_ fun _ _ => .ok _
  refine (FieldAttributes.vocabulary.fails_resolve FieldAttributes.fails_argument _).mono
    fun e he => he.mono (fun b hb => ?_) (List.Subset.refl _) (List.Subset.refl _)
  exact List.mem_flatMap.2 ⟨f, hf, hb⟩

theorem fields_of_resolveFields {fields : List Field} {fs : List FieldLayout}
    (h : resolveFields fields = .ok fs) : fs.map FieldLayout.field = fields := by
  have hmap := map_eq_of_mapM_ok FieldLayout.field id (fun f l hl => ?_) h
  · rwa [List.map_id] at hmap
  · obtain ⟨_, -, hl⟩ := exists_of_bind_eq_ok hl
    cases hl
    rfl

theorem fails_checkIgnored (known : List String) {fields : List FieldLayout}
    (h : ∀ f ∈ fields, f.field.location ∈ places) :
    Fails (LayoutError.At blocks places []) (checkIgnored known fields) := by
  induction fields with
  | nil => exact .ok ()
  | cons f fs ih =>
    obtain ⟨hf, hfs⟩ := List.forall_mem_cons.1 h
    rw [checkIgnored]
    split
    · exact .error (LayoutError.at_place id rfl hf)
    · exact ih hfs

theorem fails_orderFields {fields : List FieldLayout}
    (h : ∀ f ∈ fields, f.field.location ∈ places) :
    Fails (LayoutError.At blocks places []) (orderFields fields) := by
  have hnumbers : ∀ claimed,
      Fails (LayoutError.At blocks places []) (checkNumbers claimed fields) := by
    induction fields with
    | nil => exact fun _ => .ok ()
    | cons f fs ih =>
      obtain ⟨hf, hfs⟩ := List.forall_mem_cons.1 h
      intro claimed
      rw [checkNumbers]
      split
      · exact ih hfs claimed
      · split
        · exact .error (LayoutError.at_place id rfl hf)
        · exact ih hfs _
  exact (hnumbers []).bind fun _ _ => .ok _

theorem fails_ofRecord (known : List String) (r : Record) :
    Fails (LayoutError.At (r.annotations ++ r.fields.flatMap Field.annotations)
      (r.fields.map Field.location) []) (ofRecord known r) := by
  have hattributes := TypeAttributes.vocabulary.fails_resolve TypeAttributes.fails_argument
    r.annotations
  refine (hattributes.mono fun e he => he.mono (List.subset_append_left _ _)
    (List.nil_subset _) (List.Subset.refl _)).bind fun attributes hresolve => ?_
  extract_lets rest
  have hrest : Fails (LayoutError.At (r.annotations ++ r.fields.flatMap Field.annotations)
      (r.fields.map Field.location) []) (rest ()) := by
    refine ((fails_resolveFields r.fields).mono fun e he => he.mono
      (List.subset_append_right _ _) (List.nil_subset _)
      (List.Subset.refl _)).bind fun fields hfields => ?_
    have hplaces : ∀ f ∈ fields, f.field.location ∈ r.fields.map Field.location := fun f hf => by
      rw [← fields_of_resolveFields hfields]
      exact List.mem_map_of_mem (List.mem_map_of_mem hf)
    exact (fails_checkIgnored known hplaces).bind fun _ _ =>
      (fails_orderFields hplaces).bind fun _ _ => .ok _
  split
  next o l hoptions hlocation =>
    obtain ⟨b, hb, hl⟩ := TypeAttributes.exists_of_unionOptions hresolve hoptions
    obtain rfl := Option.some.inj (hlocation.symm.trans hl)
    exact .error (LayoutError.at_block trivial rfl (List.mem_append_left _ hb))
  next o hoptions hlocation =>
    obtain ⟨b, -, hl⟩ := TypeAttributes.exists_of_unionOptions hresolve hoptions
    rw [hlocation] at hl
    cases hl
  next => exact hrest

end RecordLayout

namespace UnionLayout

theorem fails_checkFieldBlocks (fields : List Field) :
    Fails (LayoutError.At (fields.flatMap Field.annotations) [] []) (checkFieldBlocks fields) := by
  induction fields with
  | nil => exact .ok ()
  | cons f fs ih =>
    rw [checkFieldBlocks]
    split
    · exact ih.mono fun e he => he.mono (List.subset_append_right _ _) (List.Subset.refl _)
        (List.Subset.refl _)
    next b _ hannotations =>
      refine .error (LayoutError.at_block trivial rfl ?_)
      exact List.mem_append_left _ (hannotations ▸ .head _)

theorem readDiscriminant_at {text : String} {l : Location} {e : LayoutError}
    (h : readDiscriminant text l = .error e) :
    ¬ e.fault.OfBlock ∧ e.location = l ∧ (e.fault.isWorded = false → isTooLong text = true) := by
  rw [readDiscriminant] at h
  split at h
  next hdecimal =>
    split at h
    next hlong =>
      cases h
      exact ⟨id, rfl, fun _ => Bool.and_eq_true_iff.2 ⟨hdecimal, decide_eq_true hlong⟩⟩
    next =>
      split at h
      · cases h
      · cases h
        exact ⟨id, rfl, fun h => absurd h.symm Bool.false_ne_true⟩
  next =>
    split at h
    · cases h
      exact ⟨id, rfl, fun h => absurd h.symm Bool.false_ne_true⟩
    · cases h
      exact ⟨id, rfl, fun h => absurd h.symm Bool.false_ne_true⟩

theorem fails_assignTags (options : UnionOptions) {variants : List Variant}
    (values : List VariantAttributes) :
    Fails (LayoutError.At [] (variants.map Variant.location)
        (variants.filterMap Variant.discriminant))
      (assignTags options (variants.zip values)) := by
  intro e he
  obtain ⟨i, -, hfault⟩ := exists_fault_of_assignTags he
  have hmem : ∀ {v a}, (variants.zip values)[i]? = some (v, a) → v ∈ variants := fun h =>
    (List.of_mem_zip (List.mem_of_getElem? h)).1
  have hplace : ∀ {v a}, (variants.zip values)[i]? = some (v, a) →
      v.location ∈ variants.map Variant.location := fun h => List.mem_map_of_mem (hmem h)
  cases hfault with
  | missing hv => exact LayoutError.at_place id rfl (hplace hv)
  | shared hv => exact LayoutError.at_place id rfl (hplace hv)
  | tooLarge hv => exact LayoutError.at_place id rfl (hplace hv)
  | written hv _ htext hread =>
    obtain ⟨hfault, hl, hlong⟩ := readDiscriminant_at hread
    exact ⟨fun h => absurd h hfault, fun _ => .inl (hl ▸ hplace hv), fun h =>
      ⟨_, List.mem_filterMap.2 ⟨_, hmem hv, htext⟩, hlong h⟩⟩

theorem fails_ofUnion (u : Union) :
    Fails (LayoutError.At (u.annotations ++ u.variants.flatMap fun v =>
      v.annotations ++ v.fields.flatMap Field.annotations) (u.variants.map Variant.location)
      (u.variants.filterMap Variant.discriminant)) (ofUnion u) := by
  have hvariants : ∀ v ∈ u.variants, ∀ b ∈ v.annotations ++ v.fields.flatMap Field.annotations,
      b ∈ u.annotations ++ u.variants.flatMap fun v =>
        v.annotations ++ v.fields.flatMap Field.annotations :=
    fun v hv b hb => List.mem_append_right _ (List.mem_flatMap.2 ⟨v, hv, hb⟩)
  have hattributes := TypeAttributes.vocabulary.fails_resolve TypeAttributes.fails_argument
    u.annotations
  refine (hattributes.mono fun e he => he.mono (List.subset_append_left _ _)
    (List.nil_subset _) (List.nil_subset _)).bind fun attributes _ => ?_
  refine ((fails_checkFieldBlocks _).mono fun e he => he.mono (fun b hb => ?_)
    (List.nil_subset _) (List.nil_subset _)).bind fun _ _ => ?_
  · obtain ⟨f, hf, hb⟩ := List.mem_flatMap.1 hb
    obtain ⟨v, hv, hf⟩ := List.mem_flatMap.1 hf
    exact hvariants v hv b (List.mem_append_right _ (List.mem_flatMap.2 ⟨f, hf, hb⟩))
  refine (Fails.mapM fun v hv => ?_).bind fun values _ => ?_
  · exact (VariantAttributes.vocabulary.fails_resolve VariantAttributes.fails_argument _).mono
      fun e he => he.mono (fun b hb => hvariants v hv b (List.mem_append_left _ hb))
        (List.nil_subset _) (List.nil_subset _)
  · exact ((fails_assignTags _ values).mono fun e he => he.mono (List.nil_subset _)
      (List.Subset.refl _) (List.Subset.refl _)).bind fun _ _ => .ok _

end UnionLayout

/-- Where resolving fails, the fault is that of a block, or is found at an argument or a place of
the schema. -/
theorem Layout.fails_ofSchema (s : Schema) :
    Fails (LayoutError.At s.blocks s.places s.discriminants) (ofSchema s) := by
  refine (Fails.mapM fun r hr => ?_).bind fun _ _ => (Fails.mapM fun u hu => ?_).bind fun _ _ =>
    .ok _
  · refine (RecordLayout.fails_ofRecord _ r).mono fun e he => he.mono (fun b hb => ?_)
      (fun l hl => ?_) (List.nil_subset _)
    · exact List.mem_append_left _ (List.mem_flatMap.2 ⟨r, hr, hb⟩)
    · exact List.mem_append_left _ (List.mem_flatMap.2 ⟨r, hr, .tail _ hl⟩)
  · refine (UnionLayout.fails_ofUnion u).mono fun e he => he.mono (fun b hb => ?_)
      (fun l hl => ?_) fun text htext => List.mem_flatMap.2 ⟨u, hu, htext⟩
    · exact List.mem_append_right _ (List.mem_flatMap.2 ⟨u, hu, hb⟩)
    · obtain ⟨v, hv, rfl⟩ := List.mem_map.1 hl
      exact List.mem_append_right _ (List.mem_flatMap.2 ⟨u, hu, .tail _
        (List.mem_flatMap.2 ⟨v, hv, .head _⟩)⟩)

/-- A text has no layout as it is no schema, or as its schema cannot be resolved. -/
theorem Layout.ofText_eq_error_iff [Text.CharacterNames] {text : String} {why : Rejection} :
    ofText text = .error why ↔
      (∃ why', Schema.parse text = .error why' ∧ why = .reading why') ∨
        ∃ s e, Schema.parse text = .ok s ∧ ofSchema s = .error e ∧ why = .resolving e := by
  unfold ofText
  cases Schema.parse text with
  | error why' => simp [eq_comm]
  | ok s => cases hs : ofSchema s <;> simp [hs, eq_comm]

/-- Why a text has no layout can be compared, though layouts cannot. -/
theorem Layout.ofText_eq_error_of_decide [Text.CharacterNames] {text : String} {why : Rejection}
    (h : (match ofText text with
      | .error why' => decide (why' = why)
      | .ok _ => false) = true) : ofText text = .error why := by
  split at h
  next _ heq => rw [heq, of_decide_eq_true h]
  next => cases h

end WireSchema
