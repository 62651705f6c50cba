import Mathlib.Logic.Relation
import WireSchema.Proofs.Wire.Depth

/-!
# Coding that meets no hooks

A layout can have hooks and yet none of them run. A value is written without hooks if no part of it
is written by the code of a declaration that has any, and a type is read without hooks if it leads
to no such declaration. What declarations elsewhere have does not matter then: reading comes to the
same as in the layout that is left when all hooks are taken away. So whatever holds of the reading
of layouts without hooks holds of all types that are read without them.
-/

namespace WireSchema

open Read

/-! ## Taking hooks away -/

def TypeAttributes.withoutHooks (a : TypeAttributes) : TypeAttributes :=
  { a with preEncode := none, postEncode := none, preDecode := none, postDecode := none }

def RecordLayout.withoutHooks (r : RecordLayout) : RecordLayout :=
  { r with attributes := r.attributes.withoutHooks }

def UnionLayout.withoutHooks (u : UnionLayout) : UnionLayout :=
  { u with attributes := u.attributes.withoutHooks }

namespace Declaration

def withoutHooks : Declaration → Declaration
  | record r => record r.withoutHooks
  | union u => union u.withoutHooks

theorem name_withoutHooks (d : Declaration) : d.withoutHooks.name = d.name := by
  cases d <;> rfl

theorem preDecode_withoutHooks (d : Declaration) :
    d.withoutHooks.attributes.preDecode = none := by
  cases d <;> rfl

theorem postDecode_withoutHooks (d : Declaration) :
    d.withoutHooks.attributes.postDecode = none := by
  cases d <;> rfl

/-- The fields that are on the wire, those of all variants. -/
def wireFields : Declaration → List Field
  | record r => r.wireFields
  | union u => u.variants.flatMap fun v => v.variant.fields

end Declaration

namespace Layout

def withoutHooks (S : Layout) : Layout :=
  ⟨S.records.map RecordLayout.withoutHooks, S.unions.map UnionLayout.withoutHooks⟩

variable (S : Layout)

/-- One value is written in the course of another. -/
inductive Part : Value → Value → Prop
  | item {v w : Value} {items : List Value} : v.items? = some items → w ∈ items → Part v w
  | entry {e : Value × Value} {entries : List (Value × Value)} :
    e ∈ entries → Part (.map entries) e.2
  | field {owner : Owner} {fields : List (String × Value)} {name : String} {w : Value} :
    Entity.field? S (.value (.object owner fields)) name = some w →
      Part (.object owner fields) w

/-- No part of a value is written by the code of a declaration that has hooks. -/
def WritesUnhooked (v : Value) : Prop :=
  ∀ w, Relation.ReflTransGen S.Part v w → ∀ d, S.codeOf w = .ok d → d.attributes.hooks = []

/-- To read a type, a declaration can be needed. -/
inductive Leads : Codec → Declaration → Prop
  | named {c : Codec} {name : String} {d : Declaration} :
    name ∈ c.declaredNames → S.declaration? name = some d → Leads c d
  | field {c : Codec} {d d' : Declaration} {f : Field} :
    Leads c d → f ∈ d.wireFields → Leads f.codec d' → Leads c d'

/-- No declaration that a type leads to has hooks. -/
def ReadsUnhooked (c : Codec) : Prop := ∀ d, S.Leads c d → d.attributes.hooks = []

variable {S}

theorem WritesUnhooked.part {v w : Value} (h : S.WritesUnhooked v) (hw : S.Part v w) :
    S.WritesUnhooked w :=
  fun u hu => h u (.head hw hu)

theorem WritesUnhooked.hooks_eq_nil {v : Value} (h : S.WritesUnhooked v) {d : Declaration}
    (hd : S.codeOf v = .ok d) :
    d.attributes.preEncode = none ∧ d.attributes.postEncode = none ∧
      d.attributes.preDecode = none ∧ d.attributes.postDecode = none :=
  TypeAttributes.hooks_eq_nil_iff.1 (h v .refl d hd)

/-- A type leads to what types with fewer names in them lead to. -/
theorem Leads.of_subset {c c' : Codec} {d : Declaration} (h : S.Leads c d)
    (hsub : c.declaredNames ⊆ c'.declaredNames) : S.Leads c' d := by
  induction h with
  | named hmem hd => exact .named (hsub hmem) hd
  | field _ hf hd' ih => exact .field (ih hsub) hf hd'

theorem Leads.declaredNames_ne_nil {c : Codec} {d : Declaration} (h : S.Leads c d) :
    c.declaredNames ≠ [] := by
  induction h with
  | named hmem _ => exact List.ne_nil_of_mem hmem
  | field _ _ _ ih => exact ih

theorem ReadsUnhooked.of_subset {c c' : Codec} (h : S.ReadsUnhooked c)
    (hsub : c'.declaredNames ⊆ c.declaredNames) : S.ReadsUnhooked c' :=
  fun d hd => h d (hd.of_subset hsub)

theorem ReadsUnhooked.of_mem {c : Codec} (h : S.ReadsUnhooked c) {name : String}
    (hname : name ∈ c.declaredNames) : S.ReadsUnhooked (.declared name) :=
  h.of_subset fun _ hmem => List.mem_singleton.1 hmem ▸ hname

theorem ReadsUnhooked.field {name : String} (h : S.ReadsUnhooked (.declared name)) {d : Declaration}
    (hd : S.declaration? name = some d) {f : Field} (hf : f ∈ d.wireFields) :
    S.ReadsUnhooked f.codec :=
  fun d' hd' => h d' (.field (.named (.head _) hd) hf hd')

theorem ReadsUnhooked.hooks_eq_nil {name : String} (h : S.ReadsUnhooked (.declared name))
    {d : Declaration} (hd : S.declaration? name = some d) :
    d.attributes.preEncode = none ∧ d.attributes.postEncode = none ∧
      d.attributes.preDecode = none ∧ d.attributes.postDecode = none :=
  TypeAttributes.hooks_eq_nil_iff.1 (h d (.named (.head _) hd))

theorem exists_of_codeOf {v : Value} {d : Declaration} (h : S.codeOf v = .ok d) :
    ∃ owner fields, v = .object owner fields ∧ S.declarationOf? owner = some d := by
  unfold codeOf at h
  split at h
  next owner fields =>
    cases howner : S.declarationOf? owner with
    | none =>
      rw [howner] at h
      cases h
    | some d' =>
      rw [howner] at h
      cases h
      exact ⟨owner, fields, rfl, howner⟩
  next => cases h

theorem declares_of_declarationOf? {owner : Owner} {d : Declaration}
    (h : S.declarationOf? owner = some d) : S.Declares d := by
  cases owner with
  | record name =>
    obtain ⟨r, hr, rfl⟩ := Option.map_eq_some_iff.1 h
    exact (mem_of_record? hr).1
  | variant union name =>
    obtain ⟨u, hu, rfl⟩ := Option.map_eq_some_iff.1 h
    exact (mem_of_union? hu).1

/-- Where there are no hooks, none are met. -/
theorem HookFree.writesUnhooked (hH : S.HookFree) (v : Value) : S.WritesUnhooked v := by
  intro w _ d hd
  obtain ⟨owner, fields, -, howner⟩ := exists_of_codeOf hd
  exact hH _ (declares_of_declarationOf? howner).attributes_mem

theorem HookFree.readsUnhooked (hH : S.HookFree) (c : Codec) : S.ReadsUnhooked c := by
  intro d hd
  induction hd with
  | named _ hd => exact hH _ (declares_of_declaration? hd).attributes_mem
  | field _ _ _ _ ih => exact ih

/-! ## Looking up what is left -/

theorem record?_withoutHooks (S : Layout) (name : String) :
    S.withoutHooks.record? name = (S.record? name).map RecordLayout.withoutHooks :=
  List.find?_map

theorem union?_withoutHooks (S : Layout) (name : String) :
    S.withoutHooks.union? name = (S.union? name).map UnionLayout.withoutHooks :=
  List.find?_map

theorem variant?_withoutHooks (S : Layout) (union name : String) :
    S.withoutHooks.variant? union name =
      (S.variant? union name).map fun p => (p.1.withoutHooks, p.2) := by
  rw [variant?, variant?, union?_withoutHooks]
  cases S.union? union with
  | none => rfl
  | some u =>
    change (u.variants.find? _).bind _ = ((u.variants.find? _).bind _).map _
    cases u.variants.find? (·.name = name) <;> rfl

theorem declaration?_withoutHooks (S : Layout) (name : String) :
    S.withoutHooks.declaration? name = (S.declaration? name).map Declaration.withoutHooks := by
  rw [declaration?, declaration?, record?_withoutHooks, union?_withoutHooks]
  cases S.record? name with
  | some r => rfl
  | none =>
    cases S.union? name with
    | some u => rfl
    | none =>
      simp only [Option.map_none]
      split
      · rw [variant?_withoutHooks, Option.map_map, Option.map_map]
        rfl
      · rfl

theorem names_withoutHooks (S : Layout) : S.withoutHooks.names = S.names := by
  simp only [names, withoutHooks, List.map_map]
  rfl

theorem hookFree_withoutHooks (S : Layout) : S.withoutHooks.HookFree := by
  intro a ha
  simp only [typeAttributes, withoutHooks, List.map_map, List.mem_append, List.mem_map] at ha
  obtain ⟨r, -, rfl⟩ | ⟨u, -, rfl⟩ := ha <;> rfl

/-! ## Defaults -/

theorem defaultAt_withoutHooks (S : Layout) (depth : Nat) :
    S.withoutHooks.defaultAt depth = S.defaultAt depth := by
  induction depth with
  | zero => rfl
  | succ depth ih =>
    funext name
    rw [defaultAt, defaultAt, record?_withoutHooks, ih]
    cases S.record? name <;> rfl

theorem fieldDefault?_withoutHooks (S : Layout) :
    S.withoutHooks.fieldDefault? = S.fieldDefault? := by
  have hdefault : S.withoutHooks.default? = S.default? := by
    funext name
    rw [default?, default?, defaultAt_withoutHooks, withoutHooks, List.length_map]
  funext f
  rw [fieldDefault?, fieldDefault?, hdefault]

theorem filling_withoutHooks (S : Layout) (B : Builtins) :
    S.withoutHooks.filling B = S.filling B := by
  have hfills : ∀ depth, S.withoutHooks.fillsAt B depth = S.fillsAt B depth := by
    intro depth
    induction depth with
    | zero => rfl
    | succ depth ih =>
      funext name
      rw [fillsAt, fillsAt, record?_withoutHooks, ih, Option.all_map]
      rfl
  funext f
  rw [filling, filling, fills, fills, fieldDefault?_withoutHooks, hfills, withoutHooks,
    List.length_map]

theorem completeFields_withoutHooks (S : Layout) (B : Builtins) (read : List (String × Value))
    (fields : List FieldLayout) :
    S.withoutHooks.completeFields B read fields = S.completeFields B read fields := by
  induction fields with
  | nil => rfl
  | cons f fields ih => rw [completeFields, completeFields, filling_withoutHooks, ih]

/-! ## Well-formedness -/

theorem Admits.withoutHooks {c : Codec} (h : S.Admits c) : S.withoutHooks.Admits c := by
  induction h with
  | int k => exact .int k
  | bool => exact .bool
  | string => exact .string
  | packedBools => exact .packedBools
  | optional _ ih => exact .optional ih
  | list _ ih => exact .list ih
  | array n _ ih => exact .array n ih
  | map hk _ ih => exact .map hk ih
  | declared hname => exact .declared (S.names_withoutHooks ▸ hname)

theorem FieldsWellFormed.withoutHooks {fields : List Field} (h : S.FieldsWellFormed fields) :
    S.withoutHooks.FieldsWellFormed fields :=
  ⟨h.distinct, h.free, fun f hf => (h.admits f hf).withoutHooks⟩

theorem WellFormed.withoutHooks (hS : S.WellFormed) : S.withoutHooks.WellFormed where
  distinct := S.names_withoutHooks ▸ hS.distinct
  records := by
    simp only [Layout.withoutHooks, List.forall_mem_map]
    intro r hr
    have hwf := hS.records r hr
    refine ⟨hwf.order, hwf.fields.withoutHooks, fun f hf hi => ?_⟩
    exact (congrFun S.fieldDefault?_withoutHooks f.field) ▸ hwf.default f hf hi
  unions := by
    simp only [Layout.withoutHooks, List.forall_mem_map]
    intro u hu
    have hwf := hS.unions u hu
    exact ⟨hwf.distinct, hwf.tags, hwf.bounded, fun v hv => (hwf.fields v hv).withoutHooks⟩

end Layout

/-! ## Reading what is left -/

section

variable {D D' : String → Read Value}

/-- What a codec reads is a matter of the declared types in it. -/
theorem Codec.decode_congr {c : Codec} (h : ∀ name ∈ c.declaredNames, D name = D' name) :
    c.decode D = c.decode D' := by
  induction c with
  | int | bool | string | packedBools => rfl
  | optional c ih | list c ih | array c n ih =>
    funext s
    simp only [decode, ih h]
  | map k c ihk ihc =>
    have hk := ihk fun name hname => h name (List.mem_append.2 (.inl hname))
    have hc := ihc fun name hname => h name (List.mem_append.2 (.inr hname))
    funext s
    simp only [decode, hk, hc]
  | declared name => exact h name (.head _)

theorem Segment.decodeAll_congr {fields : List Field}
    (h : ∀ f ∈ fields, ∀ name ∈ f.codec.declaredNames, D name = D' name) :
    decodeAll D (ofFields fields) = decodeAll D' (ofFields fields) := by
  have hgs : ∀ g ∈ ofFields fields, g.decode D = g.decode D' := by
    intro g hg
    cases g with
    | packed fields => rfl
    | single field c =>
      obtain ⟨f, hf, -, rfl⟩ := exists_field_of_single hg
      funext s
      simp only [decode, Codec.decode_congr (h f hf)]
  generalize ofFields fields = gs at hgs
  induction gs with
  | nil => rfl
  | cons g gs ih =>
    funext s
    rw [decodeAll, decodeAll, hgs g (.head _), ih fun g hg => hgs g (.tail _ hg)]

end

namespace Layout

/-- Reads the value of a declaration, with the fields that are read for it. The hook behind it is still
to run. -/
def readBody (S : Layout) (B : Builtins) (nested : String → Read Value) (d : Declaration) :
    Read (List (String × Value) × Value) := fun s =>
  match d with
  | .record r => do
    let (read, s) ← Segment.decodeAll nested r.segments s
    match S.completeFields B read r.fields with
    | .ok fields => return ((read, .object (.record r.name) fields), s)
    | .error f => .error ⟨f, s.log⟩
  | .union u => do
    let (tag, s) ← Read.lift (readInt u.width.kind) s
    match u.variantOfTag? tag with
    | none => .error ⟨.unknownTag tag u.name, s.log⟩
    | some v =>
      let (fields, s) ← Segment.decodeAll nested v.segments s
      return ((fields, .object (.variant u.name v.name) fields), s)

variable {S : Layout} {B : Builtins} (H : Hooks)

theorem readAs_eq_readBody (nested : String → Read Value) (type : String) (d : Declaration)
    (s : Source) :
    S.readAs B H nested type d s =
      S.readBody B nested d s >>= fun p => H.postDecoded d.attributes type p.1.1 p.1.2 p.2 := by
  cases d with
  | record r =>
    simp only [readAs, readBody, bind_assoc]
    refine congrArg (Segment.decodeAll nested r.segments s >>= ·) (funext fun p => ?_)
    cases S.completeFields B p.1 r.fields <;> rfl
  | union u =>
    simp only [readAs, readBody, bind_assoc]
    refine congrArg (Read.lift (readInt u.width.kind) s >>= ·) (funext fun p => ?_)
    cases u.variantOfTag? p.1 with
    | none => rfl
    | some v =>
      dsimp only
      rw [bind_assoc]
      rfl

/-- A declaration is read in the same way, if the declared types in it are. -/
theorem readBody_withoutHooks {d : Declaration} {D D' : String → Read Value}
    (hD : ∀ f ∈ d.wireFields, ∀ name ∈ f.codec.declaredNames, D' name = D name) :
    S.withoutHooks.readBody B D' d.withoutHooks = S.readBody B D d := by
  funext s
  cases d with
  | record r =>
    have hfields : Segment.decodeAll D' r.withoutHooks.segments = Segment.decodeAll D r.segments :=
      Segment.decodeAll_congr hD
    simp only [Declaration.withoutHooks, readBody, hfields, completeFields_withoutHooks]
    rfl
  | union u =>
    have hvariant : ∀ tag, u.withoutHooks.variantOfTag? tag = u.variantOfTag? tag := fun _ => rfl
    have hfields : ∀ v ∈ u.variants,
        Segment.decodeAll D' v.segments = Segment.decodeAll D v.segments := fun v hv =>
      Segment.decodeAll_congr fun f hf => hD f (List.mem_flatMap.2 ⟨v, hv, hf⟩)
    simp only [Declaration.withoutHooks, readBody, hvariant]
    refine congrArg (Read.lift (readInt u.width.kind) s >>= ·) (funext fun p => ?_)
    cases hv : u.variantOfTag? p.1 with
    | none => rfl
    | some v =>
      simp only [hfields v (List.mem_of_find?_eq_some hv)]
      rfl

theorem readAs_withoutHooks {type : String} {d : Declaration} (hd : d.attributes.postDecode = none)
    {D D' : String → Read Value}
    (hD : ∀ f ∈ d.wireFields, ∀ name ∈ f.codec.declaredNames, D' name = D name) :
    S.withoutHooks.readAs B H D' type d.withoutHooks = S.readAs B H D type d := by
  funext s
  simp only [readAs_eq_readBody, readBody_withoutHooks hD, H.postDecoded_of_none hd,
    H.postDecoded_of_none d.postDecode_withoutHooks]

theorem decodeAt_withoutHooks (n : Nat) {name : String} (h : S.ReadsUnhooked (.declared name)) :
    S.withoutHooks.decodeAt B H n name = S.decodeAt B H n name := by
  induction n generalizing name with
  | zero => rfl
  | succ n ih =>
    funext s
    rw [decodeAt, decodeAt, declaration?_withoutHooks]
    cases hd : S.declaration? name with
    | none => rfl
    | some d =>
      obtain ⟨-, -, hpre, hpost⟩ := h.hooks_eq_nil hd
      simp only [Option.map_some, d.name_withoutHooks, H.preDecoded_of_none hpre,
        H.preDecoded_of_none d.preDecode_withoutHooks,
        readAs_withoutHooks H hpost fun f hf name hname => ih ((h.field hd hf).of_mem hname)]

/-- What is read without hooks is read as from the layout without hooks. -/
theorem decode_withoutHooks {c : Codec} (h : S.ReadsUnhooked c) :
    c.decode (S.withoutHooks.decodeIn B H) = c.decode (S.decodeIn B H) := by
  refine Codec.decode_congr fun name hname => funext fun s => ?_
  have hname := h.of_mem hname
  have hbound : S.withoutHooks.depthBound s.bytes = S.depthBound s.bytes := by
    simp only [depthBound, withoutHooks, List.length_map]
  rw [decodeIn, decodeIn, declaration?_withoutHooks]
  cases hd : S.declaration? name with
  | none => rfl
  | some d =>
    obtain ⟨-, -, hpre, hpost⟩ := hname.hooks_eq_nil hd
    simp only [Option.map_some, d.name_withoutHooks, H.preDecoded_of_none hpre,
      H.preDecoded_of_none d.preDecode_withoutHooks,
      readAs_withoutHooks H hpost fun f hf name' hname' =>
        decodeAt_withoutHooks H _ ((hname.field hd hf).of_mem hname')]
    simp only [Builtins.calling, Bind.bind, Except.bind, hbound]

end Layout

end WireSchema
