import WireSchema.Proofs.Wire.Alike
import WireSchema.Proofs.Wire.Depth
import WireSchema.Proofs.Wire.Unhooked

/-!
# Writing by layouts that mirror each other

One layout mirrors another if its declarations stand for those of the other: they have the same fields
on the wire, in the same order and of corresponding types, and the same tags, by whatever names. What
is not on the wire need not stand in the same place, and there may be more variants.

Values that are alike are then written in the same way or not at all. Codecs write the same if the
objects in a value are written the same, and by induction on the depth of these, so they are.
-/

namespace WireSchema

/-! ## Codecs under other names -/

/-- The codec of the same type under new names. -/
def Renaming.codec (ρ : Renaming) : Codec → Codec
  | .optional c => .optional (ρ.codec c)
  | .list c => .list (ρ.codec c)
  | .array c n => .array (ρ.codec c) n
  | .map k c => .map (ρ.codec k) (ρ.codec c)
  | .declared name => .declared (ρ.type name)
  | .int k => .int k
  | .bool => .bool
  | .string => .string
  | .packedBools => .packedBools

/-! ## Objects made by a layout -/

namespace Layout

variable (S : Layout)

/-- Values whose objects are made by the classes of the layout, as far as they are written: each has
just the fields that are declared. What a field holds need not be of its type. -/
inductive Made : Value → Prop
  | none : Made .none
  | bool (b : Bool) : Made (.bool b)
  | int (n : Int) : Made (.int n)
  | double (d : Double) : Made (.double d)
  | text (s : String) : Made (.text s)
  | foreign (t : Foreign) : Made (.foreign t)
  | list {vs : List Value} : (∀ v ∈ vs, Made v) → Made (.list vs)
  | tuple {vs : List Value} : (∀ v ∈ vs, Made v) → Made (.tuple vs)
  | map {es : List (Value × Value)} :
    (∀ e ∈ es, Made e.1) → (∀ e ∈ es, Made e.2) → Made (.map es)
  | object {owner : Owner} {d : Declaration} {front : List UInt8} {names : List String}
    {wire : List Field} {fields : List (String × Value)} :
    S.Body owner d front names wire → fields.map Prod.fst = names →
      (∀ f ∈ wire, ∀ e ∈ fields, e.1 = f.ident → Made e.2) → Made (.object owner fields)

variable {S}

theorem Made.items {v : Value} (h : S.Made v) {items : List Value} (hv : v.items? = some items) :
    ∀ i ∈ items, S.Made i := by
  cases h with
  | none | bool | int | double | foreign | object => cases hv
  | text s =>
    cases hv
    exact List.forall_mem_map.2 fun c _ => .text _
  | list hvs | tuple hvs =>
    cases hv
    exact hvs
  | map hkeys _ =>
    cases hv
    exact List.forall_mem_map.2 hkeys

/-- What is of a type is made by the layout. -/
theorem HasType.made {most : Nat} {c : Codec} {v : Value} (h : S.HasType most c v) : S.Made v := by
  induction h with
  | int => exact .int _
  | bool => exact .bool _
  | text => exact .text _
  | packedBools => exact .list (List.forall_mem_map.2 fun b _ => .bool b)
  | absent => exact .none
  | present _ ih => exact ih
  | list _ _ _ ih | array _ ih => exact .list ih
  | map _ _ _ _ ihk ihv => exact .map ihk ihv
  | record hr hfields _ ih => exact .object (.record (mem_of_record? hr).1) hfields ih
  | variant hv hfields _ ih =>
    obtain ⟨hu, -, hv, -⟩ := mem_of_variant? hv
    exact .object (.variant hu hv) hfields ih

end Layout

/-! ## Writing values that are alike -/

section

variable {α β : Type}

theorem toOption_bind {x x' : Except (Fault × Sink) Sink}
    {f f' : Sink → Except (Fault × Sink) Sink} (hx : x'.toOption = x.toOption)
    (hf : ∀ s, (f' s).toOption = (f s).toOption) :
    (x' >>= f').toOption = (x >>= f).toOption := by
  cases x with
  | error e =>
    cases x' with
    | error e' => rfl
    | ok s' => cases hx
  | ok s =>
    cases x' with
    | error e' => cases hx
    | ok s' =>
      cases hx
      exact hf s

theorem toOption_foldlM {ps : List (α × β)} {f : Sink → α → Except (Fault × Sink) Sink}
    {f' : Sink → β → Except (Fault × Sink) Sink}
    (h : ∀ p ∈ ps, ∀ s, (f' s p.2).toOption = (f s p.1).toOption) (s : Sink) :
    ((ps.map Prod.snd).foldlM f' s).toOption = ((ps.map Prod.fst).foldlM f s).toOption := by
  induction ps generalizing s with
  | nil => rfl
  | cons p ps ih =>
    simp only [List.map_cons, List.foldlM_cons]
    exact toOption_bind (h p (.head _) s) fun s => ih (fun q hq => h q (.tail _ hq)) s

theorem toOption_all {write write' : Value → Write} {items : List (Value × Value)}
    (h : ∀ i ∈ items, ∀ s, (write' i.2 s).toOption = (write i.1 s).toOption) (s : Sink) :
    (Write.all write' (items.map Prod.snd) s).toOption =
      (Write.all write (items.map Prod.fst) s).toOption := by
  unfold Write.all
  exact toOption_foldlM h s

end

section

variable {ρ : Renaming} {free : Bool} {S : Layout} {O O' : Objects}

theorem toOption_writeInt (k : IntKind) {v v' : Value} (h : v'.integer? = v.integer?)
    (isAsked isAsked' : Bool) (s : Sink) :
    (writeInt k v' isAsked' s).toOption = (writeInt k v isAsked s).toOption := by
  rw [writeInt_eq, writeInt_eq, h]
  cases v.integer?.bind k.encode? <;> rfl

theorem toOption_encode_map (k c : Codec) {v : Value} (hv : ∀ es, v ≠ .map es) (s : Sink) :
    ((Codec.map k c).encode O v s).toOption = none := by
  rw [Codec.encode]
  · cases v.items? with
    | none => rfl
    | some items =>
      cases h : writeCount items.length s <;> simp only [h] <;> rfl
  · exact hv

/-- A codec writes the same for values that are alike, if that is so for objects. -/
theorem Codec.toOption_encode
    (hwrite : ∀ v v', S.Made v → ρ.Alike free v v' → ∀ s,
      (O'.write v' s).toOption = (O.write v s).toOption) (c : Codec) :
    ∀ v v', S.Made v → ρ.Alike free v v' → ∀ s,
      ((ρ.codec c).encode O' v' s).toOption = (c.encode O v s).toOption := by
  induction c with
  | int k => exact fun v v' _ h s => toOption_writeInt k h.integer?_eq _ _ s
  | bool =>
    intro v v' _ h s
    simp only [Renaming.codec, Codec.encode, h.truthy_eq]
  | string =>
    intro v v' _ h s
    cases h <;> rfl
  | packedBools =>
    intro v v' _ h s
    obtain ⟨hv, hv'⟩ | ⟨items, hitems, hv, hv'⟩ := h.items?
    · simp only [Renaming.codec, Codec.encode, hv, hv', Except.toOption]
    · have htruthy : (items.map Prod.snd).map Value.truthy = (items.map Prod.fst).map Value.truthy := by
        rw [List.map_map, List.map_map]
        exact List.map_congr_left fun i hi => (hitems i hi).truthy_eq
      simp only [Renaming.codec, Codec.encode, hv, hv', htruthy, List.length_map]
  | optional c ih =>
    intro v v' hmade h s
    simp only [Renaming.codec, Codec.encode, h.isNone_eq]
    split
    · rfl
    · exact ih v v' hmade h _
  | list c ih =>
    intro v v' hmade h s
    obtain ⟨hv, hv'⟩ | ⟨items, hitems, hv, hv'⟩ := h.items?
    · simp only [Renaming.codec, Codec.encode, hv, hv', Except.toOption]
    · have hall := toOption_all fun i hi =>
        ih i.1 i.2 (hmade.items hv _ (List.mem_map_of_mem hi)) (hitems i hi)
      simp only [Renaming.codec, Codec.encode, hv, hv', List.length_map]
      refine toOption_bind rfl fun s₁ => toOption_bind (hall s₁) fun s₂ => ?_
      split <;> rfl
  | array c n ih =>
    intro v v' hmade h s
    obtain ⟨hv, hv'⟩ | ⟨items, hitems, hv, hv'⟩ := h.items?
    · simp only [Renaming.codec, Codec.encode, hv, hv', Except.toOption]
    · have hall := toOption_all fun i hi =>
        ih i.1 i.2 (hmade.items hv _ (List.mem_map_of_mem hi)) (hitems i hi)
      simp only [Renaming.codec, Codec.encode, hv, hv', List.length_map]
      split
      · exact hall s
      · rfl
  | map k c ihk ihc =>
    intro v v' hmade h s
    obtain ⟨hv, hv'⟩ | ⟨entries, hentries, rfl, rfl⟩ := h.entries
    · rw [toOption_encode_map k c hv]
      exact toOption_encode_map _ _ hv' s
    · cases hmade with | map hmade hmade' =>
      simp only [Renaming.codec, Codec.encode, List.length_map]
      refine toOption_bind rfl fun s => toOption_foldlM (fun e he s => ?_) s
      have hmem := List.mem_map_of_mem (f := Prod.fst) he
      exact toOption_bind (ihk _ _ (hmade _ hmem) (hentries e he).1 s)
        fun s => ihc _ _ (hmade' _ hmem) (hentries e he).2 s
  | declared name => exact hwrite

end

/-! ## Layouts -/

/-- The second field stands for the first. -/
structure Field.MirroredBy (ρ : Renaming) (owner : String) (f f' : Field) : Prop where
  ident : f'.ident = ρ.field owner f.ident
  codec : f'.codec = ρ.codec f.codec

structure FieldLayout.MirroredBy (ρ : Renaming) (owner : String) (l l' : FieldLayout) : Prop where
  field : l.field.MirroredBy ρ owner l'.field
  ignore : l'.attributes.ignore = l.attributes.ignore

/-- The second record has the fields of the first on the wire. All fields are declared in the same
order, or in any order if that is free. -/
structure RecordLayout.MirroredBy (ρ : Renaming) (free : Bool) (r r' : RecordLayout) : Prop where
  name : r'.name = ρ.type r.name
  hooks : r'.attributes.hooks = r.attributes.hooks
  hasDefault : r'.hasDefault = r.hasDefault
  fields : ∃ fields, List.Forall₂ (FieldLayout.MirroredBy ρ r.name) r.fields fields ∧
    Listed free r'.fields fields
  wire : List.Forall₂ (Field.MirroredBy ρ r.name) r.wireFields r'.wireFields

structure VariantLayout.MirroredBy (ρ : Renaming) (union : String) (v v' : VariantLayout) :
    Prop where
  name : v'.name = ρ.variant union v.name
  tag : v'.tag = v.tag
  fields : List.Forall₂ (Field.MirroredBy ρ (Owner.variant union v.name).text) v.variant.fields
    v'.variant.fields

/-- The second union has the variants of the first, and no others unless it has grown. -/
structure UnionLayout.MirroredBy (ρ : Renaming) (grown : Bool) (u u' : UnionLayout) : Prop where
  name : u'.name = ρ.type u.name
  hooks : u'.attributes.hooks = u.attributes.hooks
  width : u'.width = u.width
  variants : ∀ v ∈ u.variants, ∃ v' ∈ u'.variants, v.MirroredBy ρ u.name v'
  tags : grown = false → ∀ v' ∈ u'.variants, ∃ v ∈ u.variants, v'.tag = v.tag

/-- The declarations of the second layout stand for those of the first. -/
structure Layout.MirroredBy (ρ : Renaming) (free grown : Bool) (S S' : Layout) : Prop where
  records : List.Forall₂ (RecordLayout.MirroredBy ρ free) S.records S'.records
  unions : List.Forall₂ (UnionLayout.MirroredBy ρ grown) S.unions S'.unions

theorem exists_right_of_forall₂ {α β : Type} {R : α → β → Prop} {as : List α} {bs : List β}
    (h : List.Forall₂ R as bs) {a : α} (ha : a ∈ as) : ∃ b ∈ bs, R a b := by
  obtain ⟨ps, hps, rfl, rfl⟩ := exists_pairs_of_forall₂ h
  obtain ⟨p, hp, rfl⟩ := List.mem_map.1 ha
  exact ⟨p.2, List.mem_map_of_mem hp, hps p hp⟩

theorem exists_left_of_forall₂ {α β : Type} {R : α → β → Prop} {as : List α} {bs : List β}
    (h : List.Forall₂ R as bs) {b : β} (hb : b ∈ bs) : ∃ a ∈ as, R a b := by
  obtain ⟨ps, hps, rfl, rfl⟩ := exists_pairs_of_forall₂ h
  obtain ⟨p, hp, rfl⟩ := List.mem_map.1 hb
  exact ⟨p.1, List.mem_map_of_mem hp, hps p hp⟩

theorem map_eq_of_forall₂ {α β γ : Type} {R : α → β → Prop} {as : List α} {bs : List β}
    {f : α → γ} {g : β → γ} (h : List.Forall₂ R as bs) (hR : ∀ a b, R a b → g b = f a) :
    bs.map g = as.map f := by
  induction h with
  | nil => rfl
  | cons hab _ ih => rw [List.map_cons, List.map_cons, hR _ _ hab, ih]

namespace Layout

variable {ρ : Renaming} {free grown : Bool} {S S' : Layout}

/-- The declarations have the same hooks. -/
theorem MirroredBy.hookFree (M : S.MirroredBy ρ free grown S') (hH : S.HookFree) : S'.HookFree := by
  have hrecords : S'.records.map (·.attributes.hooks) = S.records.map (·.attributes.hooks) :=
    map_eq_of_forall₂ M.records fun r r' h => h.hooks
  have hunions : S'.unions.map (·.attributes.hooks) = S.unions.map (·.attributes.hooks) :=
    map_eq_of_forall₂ M.unions fun u u' h => h.hooks
  have hhooks : S'.typeAttributes.map TypeAttributes.hooks =
      S.typeAttributes.map TypeAttributes.hooks := by
    simp only [typeAttributes, List.map_append, List.map_map]
    exact congrArg₂ (· ++ ·) hrecords hunions
  intro a ha
  have hmem := List.mem_map_of_mem (f := TypeAttributes.hooks) ha
  rw [hhooks] at hmem
  obtain ⟨b, hb, hab⟩ := List.mem_map.1 hmem
  rw [← hab, hH b hb]

theorem MirroredBy.exists_body (M : S.MirroredBy ρ free grown S') {owner : Owner}
    {d : Declaration} {front : List UInt8} {names : List String} {wire : List Field}
    (h : S.Body owner d front names wire) :
    ∃ d' names' wire', S'.Body (ρ.ownerOf owner) d' front names' wire' ∧
      Listed free names' (names.map (ρ.field owner.text)) ∧
      List.Forall₂ (Field.MirroredBy ρ owner.text) wire wire' := by
  cases h with
  | @record r hr =>
    obtain ⟨r', hr', hname, -, -, ⟨fields, hfields, hlisted⟩, hwire⟩ :=
      exists_right_of_forall₂ M.records hr
    have hbody := Body.record hr'
    rw [hname] at hbody
    refine ⟨_, _, _, hbody, ?_, hwire⟩
    have hidents : fields.map (·.field.ident) = r.fields.map fun l => ρ.field r.name l.field.ident :=
      map_eq_of_forall₂ hfields fun l l' h => h.field.ident
    rw [List.map_map]
    change Listed free _ (r.fields.map fun l => ρ.field r.name l.field.ident)
    rw [← hidents]
    exact hlisted.map _
  | @variant u v hu hv =>
    obtain ⟨u', hu', hname, -, hwidth, hvariants, -⟩ := exists_right_of_forall₂ M.unions hu
    obtain ⟨v', hv', hvname, htag, hfields⟩ := hvariants v hv
    have hbody := Body.variant hu' hv'
    have htagBytes : u'.tagBytes v' = u.tagBytes v := by
      rw [UnionLayout.tagBytes, UnionLayout.tagBytes, hwidth, htag]
    rw [hname, hvname, htagBytes] at hbody
    refine ⟨_, _, _, hbody, .of_eq ?_, hfields⟩
    rw [List.map_map]
    exact map_eq_of_forall₂ hfields fun f f' h => h.ident

end Layout

theorem toOption_eq_of_iff {x x' : Except (Fault × Sink) Sink}
    (h : ∀ s, x' = .ok s ↔ x = .ok s) : x'.toOption = x.toOption := by
  cases x with
  | error e =>
    cases x' with
    | error e' => rfl
    | ok s' => exact absurd ((h s').1 rfl) nofun
  | ok s => rw [(h s).2 rfl]

/-- Fields are written in the same way, if what they hold is alike. -/
theorem Field.toOption_encodeEach {ρ : Renaming} {free : Bool} {S : Layout} {O O' : Objects}
    (hwrite : ∀ v v', S.Made v → ρ.Alike free v v' → ∀ s,
      (O'.write v' s).toOption = (O.write v s).toOption) {owner : String}
    {field? field?' : String → Option Value} {wire wire' : List Field}
    (hwire : List.Forall₂ (Field.MirroredBy ρ owner) wire wire')
    (hheld : ∀ f ∈ wire, ∃ w w', field? f.ident = some w ∧
      field?' (ρ.field owner f.ident) = some w' ∧ S.Made w ∧ ρ.Alike free w w') (s : Sink) :
    (encodeEach O' field?' wire' s).toOption = (encodeEach O field? wire s).toOption := by
  induction hwire generalizing s with
  | nil => rfl
  | @cons f f' wire wire' hf _ ih =>
    obtain ⟨w, w', hw, hw', hmade, halike⟩ := hheld f (.head _)
    rw [encodeEach_cons, encodeEach_cons]
    refine toOption_bind ?_ fun s => ih (fun g hg => hheld g (.tail _ hg)) s
    simp only [encode, hf.ident, hf.codec, hw, hw']
    exact Codec.toOption_encode hwrite f.codec w w' hmade halike s

theorem Segment.toOption_encodeAll (O : Objects) {field? : String → Option Value}
    {fields : List Field} (h : ∀ f ∈ fields, (field? f.ident).isSome) (s : Sink) :
    (encodeAll O field? (ofFields fields) s).toOption =
      (Field.encodeEach O field? fields s).toOption :=
  toOption_eq_of_iff fun _ => Field.encodeAll_eq_ok_iff h

namespace Layout

variable {ρ : Renaming} {free grown : Bool} {S S' : Layout}

/-- What an object holds by the names of its fields on the wire, an object that is alike holds by
theirs. -/
theorem exists_held {owner owner' : Owner} {members : List (String × Value × Value)}
    {fields' : List (String × Value)} {names' : List String}
    (hfields : Listed free fields' (members.map fun m => (ρ.field owner.text m.1, m.2.2)))
    (hnames' : names'.Nodup)
    (hnames : names'.Perm (members.map fun m => ρ.field owner.text m.1)) {name : String}
    (hmem : name ∈ members.map Prod.fst) (hnodup : (members.map Prod.fst).Nodup)
    (hfree : name ≠ "__class__") (hfree' : ρ.field owner.text name ≠ "__class__") :
    ∃ m ∈ members, m.1 = name ∧
      Entity.field? S (.value (.object owner (members.map fun m => (m.1, m.2.1)))) name =
        some m.2.1 ∧
      Entity.field? S' (.value (.object owner' fields')) (ρ.field owner.text name) = some m.2.2 := by
  have hmembers : (members.map fun m => (m.1, m.2.1)).map Prod.fst = members.map Prod.fst := by
    rw [List.map_map]
    rfl
  have hkeys : (fields'.map Prod.fst).Perm (members.map fun m => ρ.field owner.text m.1) := by
    have hperm := hfields.perm.map Prod.fst
    rwa [List.map_map] at hperm
  have hdistinct : (members.map fun m => ρ.field owner.text m.1).Nodup := hnames.nodup_iff.1 hnames'
  obtain ⟨w, hw, hfield⟩ := Entity.exists_field? S owner hmembers hnodup hmem hfree
  obtain ⟨m, hm, hmw⟩ := List.mem_map.1 hw
  obtain ⟨rfl, rfl⟩ := Prod.mk.inj hmw
  have hmem' : ρ.field owner.text m.1 ∈ fields'.map Prod.fst :=
    hkeys.mem_iff.2 (List.mem_map_of_mem (f := fun m => ρ.field owner.text m.1) hm)
  obtain ⟨w', hw', hfield'⟩ := Entity.exists_field? S' owner' rfl (hkeys.nodup_iff.2 hdistinct)
    hmem' hfree'
  obtain ⟨m', hm', hmw'⟩ := List.mem_map.1 (hfields.perm.mem_iff.1 hw')
  obtain ⟨hkey, rfl⟩ := Prod.mk.inj hmw'
  obtain rfl := List.inj_on_of_nodup_map hdistinct hm' hm hkey
  exact ⟨m', hm', rfl, hfield, hfield'⟩

/-- What is no object is not written by the code of a declaration. -/
theorem exists_codeOf_eq_error {v : Value} (hv : ∀ owner fields, v ≠ .object owner fields) :
    ∃ f, S.codeOf v = .error f := by
  cases hd : S.codeOf v with
  | error f => exact ⟨f, rfl⟩
  | ok d =>
    obtain ⟨owner, fields, rfl, -⟩ := exists_of_codeOf hd
    exact absurd rfl (hv owner fields)

namespace MirroredBy

variable (hS : S.WellFormed) (hS' : S'.WellFormed) (hH : S.HookFree)
  (M : S.MirroredBy ρ free grown S') (H H' : Hooks)
include hS hS' M

/-- An object that is alike is written by fields that hold what is alike. -/
theorem exists_encodeAll {owner : Owner} {d : Declaration} {front : List UInt8}
    {names : List String} {wire : List Field} (h : S.Body owner d front names wire)
    {members : List (String × Value × Value)}
    (hnames : (members.map fun m => (m.1, m.2.1)).map Prod.fst = names)
    (hmade : ∀ f ∈ wire, ∀ e ∈ members.map fun m => (m.1, m.2.1), e.1 = f.ident → S.Made e.2)
    (halike : ∀ m ∈ members, ρ.Alike free m.2.1 m.2.2) {fields' : List (String × Value)}
    (hfields : Listed free fields' (members.map fun m => (ρ.field owner.text m.1, m.2.2)))
    {nested nested' : Value → Write}
    (ih : ∀ v v', S.Made v → ρ.Alike free v v' → ∀ s,
      (nested' v' s).toOption = (nested v s).toOption) :
    ∃ d' names' wire', S'.Body (ρ.ownerOf owner) d' front names' wire' ∧ ∀ s,
      (Segment.encodeAll (S'.objects nested')
        (Entity.field? S' (.value (.object (ρ.ownerOf owner) fields'))) (Segment.ofFields wire')
        s).toOption =
      (Segment.encodeAll (S.objects nested)
        (Entity.field? S (.value (.object owner (members.map fun m => (m.1, m.2.1)))))
        (Segment.ofFields wire) s).toOption := by
  obtain ⟨d', names', wire', h', hnames', hwire⟩ := M.exists_body h
  rw [List.map_map] at hnames
  have hidents : wire'.map Field.ident = wire.map fun f => ρ.field owner.text f.ident :=
    map_eq_of_forall₂ hwire fun f f' hf => hf.ident
  have hheld : ∀ f ∈ wire, ∃ m ∈ members, m.1 = f.ident ∧
      Entity.field? S (.value (.object owner (members.map fun m => (m.1, m.2.1)))) f.ident =
        some m.2.1 ∧
      Entity.field? S' (.value (.object (ρ.ownerOf owner) fields')) (ρ.field owner.text f.ident) =
        some m.2.2 := by
    intro f hf
    obtain ⟨f', hf', hff'⟩ := exists_right_of_forall₂ hwire hf
    have hperm := hnames'.perm
    rw [← hnames, List.map_map] at hperm
    refine exists_held hfields (h'.distinct hS') hperm ?_ ?_ ((h.wellFormed hS).free f hf) ?_
    · exact hnames ▸ h.mem_names hS hf
    · exact hnames ▸ h.distinct hS
    · exact hff'.ident ▸ (h'.wellFormed hS').free f' hf'
  refine ⟨d', names', wire', h', fun s => ?_⟩
  have hsome : ∀ f ∈ wire, (Entity.field? S (.value (.object owner
      (members.map fun m => (m.1, m.2.1)))) f.ident).isSome := by
    intro f hf
    obtain ⟨m, -, -, hm, -⟩ := hheld f hf
    exact Option.isSome_of_eq_some hm
  have hsome' : ∀ f ∈ wire', (Entity.field? S' (.value (.object (ρ.ownerOf owner) fields'))
      f.ident).isSome := by
    intro f' hf'
    have hmem := List.mem_map_of_mem (f := Field.ident) hf'
    rw [hidents] at hmem
    obtain ⟨f, hf, hident⟩ := List.mem_map.1 hmem
    obtain ⟨m, -, -, -, hm⟩ := hheld f hf
    exact hident ▸ Option.isSome_of_eq_some hm
  rw [Segment.toOption_encodeAll _ hsome, Segment.toOption_encodeAll _ hsome']
  refine Field.toOption_encodeEach ih hwire (fun f hf => ?_) s
  obtain ⟨m, hm, hname, hw, hw'⟩ := hheld f hf
  exact ⟨_, _, hw, hw', hmade f hf (m.1, m.2.1) (List.mem_map_of_mem hm) hname, halike m hm⟩

include hH

/-- Values that are alike are written in the same way, or neither is written. -/
theorem toOption_encodeAt (n : Nat) : ∀ v v', S.Made v → ρ.Alike free v v' → ∀ s,
    (S'.encodeAt H' n v' s).toOption = (S.encodeAt H n v s).toOption := by
  induction n with
  | zero => exact fun _ _ _ _ _ => rfl
  | succ n ih =>
    intro v v' hmade h s
    obtain ⟨hv, hv'⟩ | ⟨owner, members, fields', halike, hfields, rfl, rfl⟩ := h.members
    · obtain ⟨f, hf⟩ := exists_codeOf_eq_error (S := S) hv
      obtain ⟨f', hf'⟩ := exists_codeOf_eq_error (S := S') hv'
      simp only [encodeAt, hf, hf', Except.toOption]
    · cases hmade with | object hbody hnames hmade =>
      obtain ⟨d', names', wire', hbody', heq⟩ :=
        M.exists_encodeAll hS hS' hbody hnames hmade halike hfields ih
      rw [hbody'.encodeAt_succ hS' (M.hookFree hH) H', hbody.encodeAt_succ hS hH H]
      exact heq _

/-- So they are on their own. -/
theorem toOption_encode {v v' : Value} (hmade : S.Made v) (h : ρ.Alike free v v') (s : Sink) :
    (S'.encode H' v' s).toOption = (S.encode H v s).toOption := by
  have hdepth := h.depth_eq
  obtain ⟨hv, hv'⟩ | ⟨owner, members, fields', halike, hfields, rfl, rfl⟩ := h.members
  · obtain ⟨f, hf⟩ := exists_codeOf_eq_error (S := S) hv
    obtain ⟨f', hf'⟩ := exists_codeOf_eq_error (S := S') hv'
    simp only [encode, hf, hf', Except.toOption]
  · cases hmade with | object hbody hnames hmade =>
    obtain ⟨d', names', wire', hbody', heq⟩ :=
      M.exists_encodeAll hS hS' hbody hnames hmade halike hfields
        (M.toOption_encodeAt hS hS' hH H H' _)
    rw [hbody'.encode hS' (M.hookFree hH) H', hbody.encode hS hH H, hdepth]
    exact heq _

/-- And so they are by the codec of any type. -/
theorem toOption_codec (c : Codec) {v v' : Value} (hmade : S.Made v) (h : ρ.Alike free v v')
    (s : Sink) :
    ((ρ.codec c).encode (S'.objects (S'.encode H')) v' s).toOption =
      (c.encode (S.objects (S.encode H)) v s).toOption :=
  Codec.toOption_encode (fun _ _ => M.toOption_encode hS hS' hH H H') c v v' hmade h s

end MirroredBy

end Layout

end WireSchema
