import WireSchema.Proofs.Schema.Uniform
import WireSchema.Proofs.Text.Escape
import WireSchema.Schema.Check
import WireSchema.Schema.Unplaced

/-!
# What places do not decide

Places end up in diagnostics only. A check decides by names and types, which are the same without
places and with the escapes replaced, so its outcome is the same but for the place of a diagnostic.
Whether the escapes can be replaced is a matter of the string literals alone.
-/

namespace WireSchema

variable {α β γ δ : Type}

/-- A rejection without its place. -/
def SchemaRejection.unplaced : SchemaRejection → SchemaRejection
  | invalid fault _ => invalid fault .start
  | malformedString => malformedString
  | keyWithoutText => keyWithoutText

/-- An outcome without the place of a diagnostic. -/
def Checked.unplaced (x : Checked α) : Checked α := x.mapError SchemaRejection.unplaced

theorem Checked.unplaced_eq_ok {x : Checked α} {a : α} : x.unplaced = .ok a ↔ x = .ok a := by
  cases x with
  | error e => exact ⟨nofun, nofun⟩
  | ok b => exact .rfl

theorem Checked.unplaced_bind (x : Checked α) (k : α → Checked β) :
    (x >>= k).unplaced = x.unplaced >>= fun a => (k a).unplaced := by
  cases x <;> rfl

theorem Checked.unplaced_refused {c : Prop} [Decidable c] (fault : SchemaFault) (l : Location)
    (next : Unit → Checked α) :
    (if c then (refuse fault l : Checked Unit) >>= next else next ()).unplaced =
      if c then refuse fault .start else (next ()).unplaced := by
  split <;> rfl

open Checked (unplaced_bind unplaced_refused)

/-! ## Checks -/

theorem unplaced_checkName (name what : String) (l : Location) :
    (checkName name what l).unplaced = checkName name what .start := by
  unfold checkName
  split <;> rfl

mutual
theorem unplaced_checkType (declared : List String) (l : Location) :
    ∀ t : TypeExpr, (checkType declared l t).unplaced = checkType declared .start t
  | .named name => by
    rw [checkType, checkType]
    split
    next => rfl
    next => split <;> rfl
  | .applied name args => by
    have hargs := unplaced_checkTypes declared l args
    rw [checkType.eq_def, checkType.eq_def declared .start]
    dsimp only
    split
    next =>
      split
      next => rfl
      next =>
        split
        next =>
          split
          next => exact hargs
          next =>
            split
            next => exact hargs
            next => split <;> rfl
        next => exact hargs
    next => rfl
  | .array element _ => by
    rw [checkType, checkType]
    exact unplaced_checkType declared l element

theorem unplaced_checkTypes (declared : List String) (l : Location) :
    ∀ ts : List TypeExpr, (checkTypes declared l ts).unplaced = checkTypes declared .start ts
  | [] => rfl
  | t :: ts => by
    rw [checkTypes, checkTypes, unplaced_bind, unplaced_checkType declared l t,
      unplaced_checkTypes declared l ts]
end

/-- What the checks look at in a field. -/
def Field.signature (f : Field) : Option String × TypeExpr := (f.name, f.type)

def Record.signature (r : Record) : String × List (Option String × TypeExpr) :=
  (r.name, r.fields.map Field.signature)

def Variant.signature (v : Variant) : String × List (Option String × TypeExpr) :=
  (v.name, v.fields.map Field.signature)

def Union.signature (u : Union) : String × List (String × List (Option String × TypeExpr)) :=
  (u.name, u.variants.map Variant.signature)

section

variable {declared : List String}

theorem unplaced_checkFields {owner : String} {seen : List String} {fields fields' : List Field}
    (h : fields'.map Field.signature = fields.map Field.signature) :
    (checkFields declared owner seen fields').unplaced =
      (checkFields declared owner seen fields).unplaced := by
  induction fields generalizing seen fields' with
  | nil => rw [List.map_eq_nil_iff.1 h]
  | cons f fs ih =>
    obtain ⟨f', fs', rfl, hf, hfs⟩ := List.map_eq_cons_iff.1 h
    obtain ⟨hname, htype⟩ := Prod.mk.inj hf
    rw [checkFields, checkFields, hname, htype]
    cases f.name with
    | none => simp only [unplaced_bind, unplaced_checkType, ih hfs]
    | some name =>
      simp only [unplaced_bind, unplaced_refused, unplaced_checkName, unplaced_checkType, ih hfs]

theorem unplaced_checkDeclared {seen : List String} {names names' : List (String × Location)}
    (h : names'.map Prod.fst = names.map Prod.fst) :
    (checkDeclared seen names').unplaced = (checkDeclared seen names).unplaced := by
  induction names generalizing seen names' with
  | nil => rw [List.map_eq_nil_iff.1 h]
  | cons x xs ih =>
    obtain ⟨⟨name', l'⟩, xs', rfl, hname, hxs⟩ := List.map_eq_cons_iff.1 h
    obtain ⟨name, l⟩ := x
    obtain rfl : name' = name := hname
    rw [checkDeclared, checkDeclared]
    simp only [unplaced_bind, unplaced_refused, unplaced_checkName, ih hxs]

theorem unplaced_checkRecords {records records' : List Record}
    (h : records'.map Record.signature = records.map Record.signature) :
    (checkRecords declared records').unplaced = (checkRecords declared records).unplaced := by
  induction records generalizing records' with
  | nil => rw [List.map_eq_nil_iff.1 h]
  | cons r rs ih =>
    obtain ⟨r', rs', rfl, hr, hrs⟩ := List.map_eq_cons_iff.1 h
    obtain ⟨hname, hfields⟩ := Prod.mk.inj hr
    rw [checkRecords, checkRecords, unplaced_bind, unplaced_bind, hname,
      unplaced_checkFields hfields, ih hrs]

theorem unplaced_checkVariants {union : String} {seen : List String}
    {variants variants' : List Variant}
    (h : variants'.map Variant.signature = variants.map Variant.signature) :
    (checkVariants declared union seen variants').unplaced =
      (checkVariants declared union seen variants).unplaced := by
  induction variants generalizing seen variants' with
  | nil => rw [List.map_eq_nil_iff.1 h]
  | cons v vs ih =>
    obtain ⟨v', vs', rfl, hv, hvs⟩ := List.map_eq_cons_iff.1 h
    obtain ⟨hname, hfields⟩ := Prod.mk.inj hv
    rw [checkVariants, checkVariants, hname]
    simp only [unplaced_bind, unplaced_refused, unplaced_checkName, unplaced_checkFields hfields,
      ih hvs]

theorem unplaced_checkUnions {unions unions' : List Union}
    (h : unions'.map Union.signature = unions.map Union.signature) :
    (checkUnions declared unions').unplaced = (checkUnions declared unions).unplaced := by
  induction unions generalizing unions' with
  | nil => rw [List.map_eq_nil_iff.1 h]
  | cons u us ih =>
    obtain ⟨u', us', rfl, hu, hus⟩ := List.map_eq_cons_iff.1 h
    obtain ⟨hname, hvariants⟩ := Prod.mk.inj hu
    rw [checkUnions, checkUnions, unplaced_bind, unplaced_bind, hname,
      unplaced_checkVariants hvariants, ih hus]

end

namespace Schema

/-- The checks look at the same in two schemas. -/
structure SameSignature (s s' : Schema) : Prop where
  records : s'.records.map Record.signature = s.records.map Record.signature
  unions : s'.unions.map Union.signature = s.unions.map Union.signature

theorem SameSignature.names {s s' : Schema} (h : s.SameSignature s') :
    s'.declaredNames.map Prod.fst = s.declaredNames.map Prod.fst := by
  have hrecords := congrArg (List.map Prod.fst) h.records
  have hunions := congrArg (List.map Prod.fst) h.unions
  simp only [List.map_map] at hrecords hunions
  simp only [declaredNames, List.map_append, List.map_map]
  exact congr (congrArg (· ++ ·) hrecords) hunions

theorem unplaced_check {s s' : Schema} (h : s.SameSignature s') :
    s'.check.unplaced = s.check.unplaced := by
  unfold check
  simp only [unplaced_bind, unplaced_checkDeclared h.names, unplaced_checkRecords h.records,
    unplaced_checkUnions h.unions]

theorem sameSignature_unplaced (s : Schema) : s.SameSignature s.unplaced := by
  constructor <;>
    simp [unplaced, Record.signature, Record.unplaced, Union.signature, Union.unplaced,
      Variant.signature, Variant.unplaced, Field.signature, Field.unplaced, Function.comp_def]

end Schema

/-! ## Escapes -/

/-- What commutes with each member commutes with a list mapped member by member. -/
theorem mapM_map_comm {f : α → Option β} {f' : γ → Option δ} {g : α → γ} {h : β → δ}
    (hf : ∀ a, f' (g a) = (f a).map h) (as : List α) :
    (as.map g).mapM f' = (as.mapM f).map (List.map h) := by
  induction as with
  | nil => rfl
  | cons a as ih =>
    rw [List.map_cons, List.mapM_cons, List.mapM_cons, hf, ih]
    cases f a with
    | none => rfl
    | some b => cases as.mapM f <;> rfl

section

variable [Text.CharacterNames]

theorem signature_of_unescapeFields? {fields fields' : List Field}
    (h : unescapeFields? fields = some fields') :
    fields'.map Field.signature = fields.map Field.signature := by
  refine map_eq_of_mapM (fun f f' hf' => ?_) h
  obtain ⟨annotations, -, hf'⟩ := Option.bind_eq_some_iff.1 hf'
  cases hf'
  rfl

theorem Record.signature_of_unescape? {r r' : Record} (h : r.unescape? = some r') :
    r'.signature = r.signature := by
  obtain ⟨_, -, h⟩ := Option.bind_eq_some_iff.1 h
  obtain ⟨fields, hfields, h⟩ := Option.bind_eq_some_iff.1 h
  cases h
  exact Prod.ext rfl (signature_of_unescapeFields? hfields)

theorem Variant.signature_of_unescape? {v v' : Variant} (h : v.unescape? = some v') :
    v'.signature = v.signature := by
  obtain ⟨_, -, h⟩ := Option.bind_eq_some_iff.1 h
  obtain ⟨fields, hfields, h⟩ := Option.bind_eq_some_iff.1 h
  cases h
  exact Prod.ext rfl (signature_of_unescapeFields? hfields)

theorem Union.signature_of_unescape? {u u' : Union} (h : u.unescape? = some u') :
    u'.signature = u.signature := by
  obtain ⟨_, -, h⟩ := Option.bind_eq_some_iff.1 h
  obtain ⟨variants, hvariants, h⟩ := Option.bind_eq_some_iff.1 h
  cases h
  exact Prod.ext rfl (map_eq_of_mapM (fun _ _ => Variant.signature_of_unescape?) hvariants)

theorem Schema.sameSignature_of_unescape? {s s' : Schema} (h : s.unescape? = some s') :
    s.SameSignature s' := by
  obtain ⟨records, hrecords, h⟩ := Option.bind_eq_some_iff.1 h
  obtain ⟨unions, hunions, h⟩ := Option.bind_eq_some_iff.1 h
  cases h
  exact ⟨map_eq_of_mapM (fun _ _ => Record.signature_of_unescape?) hrecords,
    map_eq_of_mapM (fun _ _ => Union.signature_of_unescape?) hunions⟩

theorem Argument.unescape?_unplaced (a : Argument) :
    a.unplaced.unescape? = a.unescape?.map Argument.unplaced := by
  cases a with
  | keyed key v l vl => simp [unplaced, unescape?, Function.comp_def]
  | flag key l => rfl
  | bare v l => simp [unplaced, unescape?, Function.comp_def]

theorem unescapeBlocks?_unplaced (blocks : List AnnotationBlock) :
    unescapeBlocks? (blocks.map AnnotationBlock.unplaced) =
      (unescapeBlocks? blocks).map (List.map AnnotationBlock.unplaced) := by
  refine mapM_map_comm (fun b => ?_) blocks
  have harguments := mapM_map_comm Argument.unescape?_unplaced b.arguments
  simp only [AnnotationBlock.unplaced, harguments]
  cases b.arguments.mapM Argument.unescape? <;> rfl

theorem unescapeFields?_unplaced (fields : List Field) :
    unescapeFields? (fields.map Field.unplaced) =
      (unescapeFields? fields).map (List.map Field.unplaced) := by
  refine mapM_map_comm (fun f => ?_) fields
  simp only [Field.unplaced, unescapeBlocks?_unplaced]
  cases unescapeBlocks? f.annotations <;> rfl

theorem Record.unescape?_unplaced (r : Record) :
    r.unplaced.unescape? = r.unescape?.map Record.unplaced := by
  simp only [unplaced, unescape?, unescapeBlocks?_unplaced, unescapeFields?_unplaced]
  cases unescapeBlocks? r.annotations with
  | none => rfl
  | some => cases unescapeFields? r.fields <;> rfl

theorem Variant.unescape?_unplaced (v : Variant) :
    v.unplaced.unescape? = v.unescape?.map Variant.unplaced := by
  simp only [unplaced, unescape?, unescapeBlocks?_unplaced, unescapeFields?_unplaced]
  cases unescapeBlocks? v.annotations with
  | none => rfl
  | some => cases unescapeFields? v.fields <;> rfl

theorem Union.unescape?_unplaced (u : Union) :
    u.unplaced.unescape? = u.unescape?.map Union.unplaced := by
  have hvariants := mapM_map_comm Variant.unescape?_unplaced u.variants
  simp only [unplaced, unescape?, unescapeBlocks?_unplaced, hvariants]
  cases unescapeBlocks? u.annotations with
  | none => rfl
  | some => cases u.variants.mapM Variant.unescape? <;> rfl

/-- Places do not matter to the escapes, nor the escapes to the places. -/
theorem Schema.unescape?_unplaced (s : Schema) :
    s.unplaced.unescape? = s.unescape?.map Schema.unplaced := by
  have hrecords := mapM_map_comm Record.unescape?_unplaced s.records
  have hunions := mapM_map_comm Union.unescape?_unplaced s.unions
  simp only [unplaced, unescape?, hrecords, hunions]
  cases s.records.mapM Record.unescape? with
  | none => rfl
  | some => cases s.unions.mapM Union.unescape? <;> rfl

/-! ## Literals -/

/-- The inside of a string literal. -/
def Literal.bodies : Literal → List String
  | string body => [body]
  | codePoints _ => []
  | integer _ => []
  | name _ => []

def Argument.literals : Argument → List String
  | keyed _ v _ _ => v.bodies
  | flag _ _ => []
  | bare v _ => v.bodies

/-- The insides of the string literals of annotations. -/
def literalsOf (blocks : List AnnotationBlock) : List String :=
  blocks.flatMap fun b => b.arguments.flatMap Argument.literals

def fieldLiterals (fields : List Field) : List String :=
  fields.flatMap fun f => literalsOf f.annotations

def Record.literals (r : Record) : List String :=
  literalsOf r.annotations ++ fieldLiterals r.fields

def Variant.literals (v : Variant) : List String :=
  literalsOf v.annotations ++ fieldLiterals v.fields

def Union.literals (u : Union) : List String :=
  literalsOf u.annotations ++ u.variants.flatMap Variant.literals

/-- The insides of all string literals of a schema. -/
def Schema.literals (s : Schema) : List String :=
  s.records.flatMap Record.literals ++ s.unions.flatMap Union.literals

/-- All of these literals stand for a text. -/
def Readable (bodies : List String) : Prop :=
  ∀ body ∈ bodies, Text.Escaped Text.Bare body.toList

theorem readable_nil : Readable [] := nofun

theorem readable_append {bodies bodies' : List String} :
    Readable (bodies ++ bodies') ↔ Readable bodies ∧ Readable bodies' :=
  List.forall_mem_append

theorem readable_flatMap {f : α → List String} {as : List α} :
    Readable (as.flatMap f) ↔ ∀ a ∈ as, Readable (f a) := by
  simp only [Readable, List.mem_flatMap]
  grind

/-- A list is mapped member by member if the literals of each member are readable. -/
theorem isSome_mapM_iff_readable {f : α → Option β} {g : α → List String}
    (h : ∀ a, (f a).isSome ↔ Readable (g a)) (as : List α) :
    (as.mapM f).isSome ↔ Readable (as.flatMap g) := by
  rw [isSome_mapM_iff, readable_flatMap]
  exact forall₂_congr fun a _ => h a

theorem Literal.isSome_unescape?_iff (v : Literal) : v.unescape?.isSome ↔ Readable v.bodies := by
  cases v with
  | string body =>
    rw [unescape?, Option.isSome_map, Text.isSome_unescape?_iff]
    simp [Readable, bodies]
  | codePoints | integer | name => exact iff_of_true rfl readable_nil

theorem Argument.isSome_unescape?_iff (a : Argument) :
    a.unescape?.isSome ↔ Readable a.literals := by
  cases a with
  | keyed key v l vl =>
    rw [unescape?, Option.isSome_map]
    exact v.isSome_unescape?_iff
  | flag key l => exact iff_of_true rfl readable_nil
  | bare v l =>
    rw [unescape?, Option.isSome_map]
    exact v.isSome_unescape?_iff

theorem isSome_unescapeBlocks?_iff (blocks : List AnnotationBlock) :
    (unescapeBlocks? blocks).isSome ↔ Readable (literalsOf blocks) := by
  refine isSome_mapM_iff_readable (fun b => ?_) blocks
  rw [← isSome_mapM_iff_readable Argument.isSome_unescape?_iff]
  cases b.arguments.mapM Argument.unescape? <;> rfl

theorem isSome_unescapeFields?_iff (fields : List Field) :
    (unescapeFields? fields).isSome ↔ Readable (fieldLiterals fields) := by
  refine isSome_mapM_iff_readable (fun f => ?_) fields
  rw [← isSome_unescapeBlocks?_iff]
  cases unescapeBlocks? f.annotations <;> rfl

theorem Record.isSome_unescape?_iff (r : Record) : r.unescape?.isSome ↔ Readable r.literals := by
  rw [unescape?, literals, readable_append, ← isSome_unescapeBlocks?_iff,
    ← isSome_unescapeFields?_iff]
  cases unescapeBlocks? r.annotations <;> cases unescapeFields? r.fields <;> simp

theorem Variant.isSome_unescape?_iff (v : Variant) : v.unescape?.isSome ↔ Readable v.literals := by
  rw [unescape?, literals, readable_append, ← isSome_unescapeBlocks?_iff,
    ← isSome_unescapeFields?_iff]
  cases unescapeBlocks? v.annotations <;> cases unescapeFields? v.fields <;> simp

theorem Union.isSome_unescape?_iff (u : Union) : u.unescape?.isSome ↔ Readable u.literals := by
  rw [unescape?, literals, readable_append, ← isSome_unescapeBlocks?_iff,
    ← isSome_mapM_iff_readable Variant.isSome_unescape?_iff]
  cases unescapeBlocks? u.annotations <;> cases u.variants.mapM Variant.unescape? <;> simp

/-- The escapes of a schema can be replaced if all its literals are readable. -/
theorem Schema.isSome_unescape?_iff (s : Schema) : s.unescape?.isSome ↔ Readable s.literals := by
  rw [unescape?, literals, readable_append, ← isSome_mapM_iff_readable Record.isSome_unescape?_iff,
    ← isSome_mapM_iff_readable Union.isSome_unescape?_iff]
  cases s.records.mapM Record.unescape? <;> cases s.unions.mapM Union.unescape? <;> simp

end

end WireSchema
