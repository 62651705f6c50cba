import WireSchema.Emit.Evaluation
import WireSchema.Proofs.Wire.RoundTrip

/-!
# Emitted defaults have values

A module writes out defaults in two places, the method of a record with a default and the reading of
an ignored field. What is written out in either place is known to have a default, and what is known
to have one evaluates: by the number of nested defaults that it needs, and for each such number by
the type.

An evaluation can go only one way. So its value is the default that a caller is given, it is of the
type, and its ignored fields hold what reading fills them with.
-/

namespace WireSchema

namespace Module

variable {m : Module}

theorem Evaluates.unique {c : Codec} {v w : Value} (h : m.Evaluates c v) (h' : m.Evaluates c w) :
    v = w := by
  induction h generalizing w with
  | int | bool | string | packedBools | optional | list | map =>
    cases h'
    rfl
  | array _ hlen _ ih =>
    cases h' with | array _ hlen' hws =>
    refine congrArg Value.list (List.ext_getElem (hlen.trans hlen'.symm) fun i hi hi' => ?_)
    exact ih _ (List.getElem_mem hi) (hws _ (List.getElem_mem hi'))
  | declared _ hr hfields _ ih =>
    cases h' with | declared _ hr' hfields' hall =>
    cases hr.symm.trans hr'
    have hsame := Option.some.inj (hfields.symm.trans hfields')
    rw [List.map_inj_right (by simp +contextual [Prod.ext_iff])] at hsame
    subst hsame
    refine congrArg _ (List.map_congr_left fun f hf => ?_)
    rw [ih f hf (hall f hf)]

/-- A type evaluates if the declared types in it do. -/
theorem evaluates_of_default? (hm : m.builtins = .all) {D : String → Option Value}
    (hD : ∀ name v, D name = some v → m.Evaluates (.declared name) v) {c : Codec} {v : Value}
    (h : c.default? D = some v) : m.Evaluates c v := by
  induction c generalizing v with
  | int | bool | string | optional | list | map =>
    cases h
    constructor
  | packedBools =>
    cases h
    exact .packedBools (hm ▸ rfl)
  | array c n ih =>
    rw [Codec.default?, Option.map_eq_some_iff] at h
    obtain ⟨w, hw, rfl⟩ := h
    refine .array (hm ▸ rfl) List.length_replicate fun v hv => ?_
    rw [List.eq_of_mem_replicate hv]
    exact ih hw
  | declared name => exact hD name v h

/-- The default of an array evaluates only where its elements can be counted. -/
theorem Evaluates.ranges_of_array {c : Codec} {n : Nat} {v : Value}
    (h : m.Evaluates (.array c n) v) : m.builtins.ranges = true := by
  cases h with | array hranges => exact hranges

end Module

/-! ## What is written out -/

section

variable (table : CodecTable)

theorem Segment.flatMap_defaults_encodeStatement (owner object : String) (gs : List Segment) :
    (gs.map (encodeStatement table owner object)).flatMap Statement.defaults = [] := by
  rw [List.flatMap_map, List.flatMap_eq_nil_iff]
  intro g _
  cases g with
  | packed fields => rfl
  | single field codec => cases codec <;> rfl

theorem Segment.flatMap_defaults_decodeStatement (owner : String) (gs : List Segment) :
    (gs.map (decodeStatement table owner)).flatMap Statement.defaults = [] := by
  rw [List.flatMap_map, List.flatMap_eq_nil_iff]
  intro g _
  cases g with
  | packed fields => rfl
  | single field codec => cases codec <;> rfl

/-- Statements that call a hook write out no defaults. -/
theorem flatMap_defaults_hook (hook : Option String) {call : String → Statement}
    (h : ∀ name, (call name).defaults = []) :
    (hook.toList.map call).flatMap Statement.defaults = [] := by
  cases hook with
  | none => rfl
  | some name => simp [h]

/-- The types of a record's fields whose defaults its class writes out. -/
def RecordLayout.defaults (r : RecordLayout) : List Codec :=
  ((r.fields.filter fun l => l.attributes.ignore).map fun l => l.field.codec) ++
    if r.hasDefault then r.record.fields.map Field.codec else []

theorem RecordLayout.filterMap_fieldValue (fields : List FieldLayout) :
    (fields.map fun l => (l.field.ident, fieldValue l)).filterMap (fun f => f.2.default?) =
      (fields.filter fun l => l.attributes.ignore).map fun l => l.field.codec := by
  induction fields with
  | nil => rfl
  | cons l fields ih =>
    cases hi : l.attributes.ignore <;> simp [fieldValue, FieldValue.default?, hi, ← ih]

theorem filterMap_default (fields : List Field) :
    (fields.map fun f => (f.ident, FieldValue.default f.codec)).filterMap (fun f => f.2.default?) =
      fields.map Field.codec := by
  rw [List.filterMap_map]
  exact congrFun List.filterMap_eq_map fields

theorem RecordLayout.defaults_encodeBody (r : RecordLayout) :
    (r.encodeBody table).flatMap Statement.defaults = [] := by
  rw [encodeBody, List.flatMap_append, List.flatMap_append,
    flatMap_defaults_hook _ fun _ => rfl, flatMap_defaults_hook _ fun _ => rfl,
    Segment.flatMap_defaults_encodeStatement]
  rfl

theorem RecordLayout.defaults_decodeBody (r : RecordLayout) :
    (r.decodeBody table).flatMap Statement.defaults =
      (r.fields.filter fun l => l.attributes.ignore).map fun l => l.field.codec := by
  rw [decodeBody, List.flatMap_append, List.flatMap_append, flatMap_defaults_hook _ fun _ => rfl,
    Segment.flatMap_defaults_decodeStatement, List.flatMap_singleton, ← filterMap_fieldValue]
  rfl

theorem RecordLayout.defaults_methods (r : RecordLayout) :
    ((r.emitted table).methods.flatMap fun f => f.body.flatMap Statement.defaults) =
      r.defaults := by
  have hbodies : ((r.emitted table).methods.flatMap fun f => f.body.flatMap Statement.defaults) =
      (r.encodeBody table).flatMap Statement.defaults ++
        ((r.decodeBody table).flatMap Statement.defaults ++
          ((r.emitted table).default?.toList.map Method.ofDefault).flatMap fun f =>
            f.body.flatMap Statement.defaults) := rfl
  rw [hbodies, defaults_encodeBody, defaults_decodeBody, List.nil_append, defaults]
  refine congrArg _ ?_
  cases hd : r.hasDefault with
  | false => simp [emitted, hd]
  | true =>
    simp only [emitted, hd, if_true, Option.toList_some, List.map_singleton,
      List.flatMap_singleton, Method.ofDefault, Statement.defaults]
    exact filterMap_default _

theorem VariantLayout.defaults_methods (u : UnionLayout) (v : VariantLayout) (i : Nat) :
    ((VariantLayout.emitted table u v i).methods.flatMap fun f =>
      f.body.flatMap Statement.defaults) = [] := by
  have hread : (v.variant.fields.map fun f => (f.ident, FieldValue.read)).filterMap
      (fun f => f.2.default?) = [] := by
    rw [List.filterMap_map]
    exact List.filterMap_eq_nil_iff.2 fun _ _ => rfl
  have hencode : (encodeBody table u v).flatMap Statement.defaults = [] :=
    Segment.flatMap_defaults_encodeStatement table _ _ _
  have hdecode : (decodeBody table u v).flatMap Statement.defaults = [] := by
    rw [decodeBody, List.flatMap_append, Segment.flatMap_defaults_decodeStatement,
      List.flatMap_singleton]
    exact hread
  simp [VariantClass.methods, emitted, Method.ofEncode, Method.ofDecode, hencode, hdecode]

theorem UnionLayout.defaults_methods (u : UnionLayout) :
    ((u.emitted table).methods.flatMap fun f => f.body.flatMap Statement.defaults) = [] := by
  have hencode : u.encodeBody.flatMap Statement.defaults = [] := by
    rw [encodeBody, List.flatMap_append, List.flatMap_append,
      flatMap_defaults_hook _ fun _ => rfl, flatMap_defaults_hook _ fun _ => rfl]
    rfl
  have hdecode : u.decodeBody.flatMap Statement.defaults = [] := by
    rw [decodeBody, List.flatMap_append, flatMap_defaults_hook _ fun _ => rfl]
    rfl
  have hvariants : (((u.emitted table).variants.flatMap VariantClass.methods).flatMap fun f =>
      f.body.flatMap Statement.defaults) = [] := by
    rw [List.flatMap_assoc, List.flatMap_eq_nil_iff]
    intro v hv
    obtain ⟨i, hi, rfl⟩ := List.mem_mapIdx.1 hv
    exact VariantLayout.defaults_methods table u _ i
  rw [UnionClass.methods, List.flatMap_append, hvariants, List.append_nil]
  simp [emitted, Method.ofEncode, Method.ofDecode, hencode, hdecode]

end

/-- Defaults are written out by the classes of records only. -/
theorem Layout.defaults_emitted (S : Layout) (runtime : String) :
    (S.emitted runtime).defaults = S.records.flatMap RecordLayout.defaults := by
  simp [Module.defaults, Module.methods, Layout.emitted, List.flatMap_map, List.flatMap_assoc,
    RecordLayout.defaults_methods, UnionLayout.defaults_methods]

/-! ## What is known to have a default -/

/-- The declared types that a type needs the default of have one. -/
theorem Codec.isSome_of_mem_defaultNames {D : String → Option Value} {c : Codec}
    (hc : (c.default? D).isSome) : ∀ name ∈ c.defaultNames, (D name).isSome := by
  induction c with
  | int | bool | string | packedBools | optional | list | map => exact nofun
  | array c n ih =>
    rw [default?, Option.isSome_map] at hc
    exact ih hc
  | declared name =>
    intro name' hname
    rw [List.mem_singleton.1 hname]
    exact hc

namespace Layout

variable {S : Layout}

/-- A module leaves of the names of the language what its layout leaves. -/
theorem builtins_emitted (S : Layout) (runtime : String) :
    (S.emitted runtime).builtins = S.builtins := by
  simp only [Module.builtins, emitted, builtins, names, hookNames, List.map_map]
  rfl

theorem record?_emitted (S : Layout) (runtime name : String) :
    (S.emitted runtime).record? name =
      (S.record? name).map (RecordLayout.emitted (CodecTable.ofLayout S)) :=
  List.find?_map

/-- A record with a default is emitted with one. -/
theorem exists_class_of_isSome_default? {name : String} (h : (S.default? name).isSome)
    (runtime : String) :
    ∃ r ∈ (S.emitted runtime).records, r.name = name ∧ r.default?.isSome := by
  have hmore := isSome_defaultAt_mono (Nat.le_succ S.records.length) h
  obtain ⟨r, hr, hdefault, -⟩ := isSome_defaultAt_succ_iff.1 hmore
  obtain ⟨hmem, rfl⟩ := mem_of_record? hr
  refine ⟨_, List.mem_map_of_mem hmem, rfl, ?_⟩
  simp [RecordLayout.emitted, hdefault]

/-- The fields of a record with a default have one. -/
theorem isSome_fieldDefault?_of_default? {r : RecordLayout} (hr : S.record? r.name = some r)
    (h : (S.default? r.name).isSome) : ∀ l ∈ r.fields, (S.fieldDefault? l.field).isSome := by
  have hmore := isSome_defaultAt_mono (Nat.le_succ S.records.length) h
  obtain ⟨r', hr', -, hfields⟩ := isSome_defaultAt_succ_iff.1 hmore
  cases hr.symm.trans hr'
  exact hfields

section

variable {s : Schema} (h : S.Resolves s) (hs : s.WellFormed)
include h hs

/-- The records said to have a default have one. -/
theorem Resolves.isSome_default? {r : RecordLayout} (hr : r ∈ S.records)
    (hdefault : r.hasDefault = true) : (S.default? r.name).isSome := by
  have hgrown := Grown.of_defaultable s.records
  rw [(h.recordsResolve r hr).hasDefault, List.contains_iff_mem] at hdefault
  refine isSome_defaultAt_mono ?_ (h.isSome_defaultAt hs hgrown (List.Subset.refl _) _ hdefault)
  exact h.length_records ▸ hgrown.length_le

/-- The types whose defaults are written out have one. -/
theorem Resolves.isSome_of_mem_defaults (hS : S.WellFormed) {r : RecordLayout} (hr : r ∈ S.records)
    {c : Codec} (hc : c ∈ r.defaults) : (c.default? S.default?).isSome := by
  rcases List.mem_append.1 hc with hc | hc
  · obtain ⟨l, hl, rfl⟩ := List.mem_map.1 hc
    obtain ⟨hl, hi⟩ := List.mem_filter.1 hl
    exact (hS.records r hr).default l hl hi
  · split at hc
    next hdefault =>
      obtain ⟨f, hf, rfl⟩ := List.mem_map.1 hc
      rw [← (h.recordsResolve r hr).fields] at hf
      obtain ⟨l, hl, rfl⟩ := List.mem_map.1 hf
      exact isSome_fieldDefault?_of_default? (hS.record?_eq_some hr)
        (h.isSome_default? hs hr hdefault) l hl
    next => cases hc

end

/-! ## Evaluation -/

/-- The fields of a record with their types. -/
def typedFields (r : RecordLayout) : List (String × Codec) :=
  r.record.fields.map fun f => (f.ident, f.codec)

theorem default?_emitted (table : CodecTable) {r : RecordLayout} (h : r.hasDefault = true) :
    (r.emitted table).default? = some ((typedFields r).map fun f => (f.1, .default f.2)) := by
  rw [RecordLayout.emitted, if_pos h, typedFields, List.map_map]
  rfl

/-- What the class of a record says of its default. -/
theorem exists_of_default?_emitted {runtime name : String} {r : RecordClass}
    {fields : List (String × Codec)} (hr : (S.emitted runtime).record? name = some r)
    (hfields : r.default? = some (fields.map fun f => (f.1, .default f.2))) :
    ∃ l, S.record? name = some l ∧ r.name = l.name ∧ fields = typedFields l := by
  rw [record?_emitted, Option.map_eq_some_iff] at hr
  obtain ⟨l, hl, rfl⟩ := hr
  have hdefault : l.hasDefault = true := by
    by_contra hnot
    rw [RecordLayout.emitted, if_neg hnot] at hfields
    cases hfields
  rw [default?_emitted _ hdefault, Option.some.injEq, List.map_inj_right fun _ _ => by
    simp +contextual [Prod.ext_iff]] at hfields
  exact ⟨l, hl, rfl, hfields.symm⟩

section

variable {s : Schema} (h : S.Resolves s)
include h

theorem Resolves.typedFields_eq {r : RecordLayout} (hr : r ∈ S.records) :
    typedFields r = r.fields.map fun l => (l.field.ident, l.field.codec) := by
  rw [typedFields, ← (h.recordsResolve r hr).fields, List.map_map]
  rfl

/-- The default of a record evaluates, however many nested defaults it needs. -/
theorem Resolves.evaluates_of_defaultAt (hB : S.KeepsBuiltins) (runtime : String) {depth : Nat}
    {name : String} {v : Value} (hv : S.defaultAt depth name = some v) :
    (S.emitted runtime).Evaluates (.declared name) v := by
  induction depth generalizing name v with
  | zero => cases hv
  | succ depth ih =>
    obtain ⟨r, g, hr, hdefault, hg, rfl⟩ := exists_of_defaultAt_succ hv
    obtain ⟨hmem, rfl⟩ := mem_of_record? hr
    have htyped := h.typedFields_eq hmem
    have hbuiltins : (S.emitted runtime).builtins = .all := by
      rw [builtins_emitted, hB.builtins_eq]
    have hclass := record?_emitted S runtime r.name
    rw [hr, Option.map_some] at hclass
    -- a field's value is a matter of its type
    let value (c : Codec) : Value := (c.default? (S.defaultAt depth)).getD .none
    have hvalue : ∀ l ∈ r.fields, g l = value l.field.codec := by
      intro l hl
      simp only [value, hg l hl, Option.getD_some]
    have hall : ∀ f ∈ typedFields r, (S.emitted runtime).Evaluates f.2 (value f.2) := by
      rw [htyped, List.forall_mem_map]
      intro l hl
      rw [← hvalue l hl]
      exact Module.evaluates_of_default? hbuiltins (fun _ _ => ih) (hg l hl)
    have hobject : (r.fields.map fun l => (l.field.ident, g l)) =
        (typedFields r).map fun f => (f.1, value f.2) := by
      rw [htyped, List.map_map]
      exact List.map_congr_left fun l hl => congrArg _ (hvalue l hl)
    rw [hobject]
    exact .declared (g := fun f => value f.2) (hbuiltins ▸ rfl) hclass (default?_emitted _ hdefault)
      hall

/-- What has a default evaluates to it. -/
theorem Resolves.evaluates (hB : S.KeepsBuiltins) (runtime : String) {c : Codec} {v : Value}
    (hv : c.default? S.default? = some v) : (S.emitted runtime).Evaluates c v :=
  Module.evaluates_of_default? (by rw [builtins_emitted, hB.builtins_eq])
    (fun _ _ => h.evaluates_of_defaultAt hB runtime) hv

/-- Defaults are of their types, and their ignored fields hold what reading fills them with. -/
theorem Resolves.hasType_of_evaluates (hS : S.WellFormed) (hB : S.KeepsBuiltins) {runtime : String}
    {most : Nat} {c : Codec} {v : Value} (hv : (S.emitted runtime).Evaluates c v) :
    S.HasType most c v ∧ S.reset v = v := by
  induction hv with
  | int k =>
    refine ⟨.int ?_ ?_, S.reset_int 0⟩
    all_goals cases k <;> decide +kernel
  | bool => exact ⟨.bool false, S.reset_bool false⟩
  | string => exact ⟨.text (by decide), S.reset_text ""⟩
  | packedBools =>
    have hbools : List.replicate 8 (Value.bool false) = (List.replicate 8 false).map .bool := rfl
    rw [hbools]
    exact ⟨.packedBools rfl, reset_bools _⟩
  | optional c => exact ⟨.absent c, S.reset_none⟩
  | list c =>
    exact ⟨.list (Nat.zero_le _) (fun _ => Nat.zero_le _) (List.forall_mem_nil _),
      S.reset_list_eq_self (List.forall_mem_nil _)⟩
  | array _ hlen _ ih =>
    obtain rfl := hlen
    exact ⟨.array fun v hv => (ih v hv).1, S.reset_list_eq_self fun v hv => (ih v hv).2⟩
  | map k c =>
    exact ⟨.map (Nat.zero_le _) List.nodup_nil (List.forall_mem_nil _) (List.forall_mem_nil _),
      by simp [reset, resetEntries]⟩
  | @declared name r fields g _ hr hfields hall ih =>
    obtain ⟨l, hl, hname, rfl⟩ := exists_of_default?_emitted hr hfields
    obtain ⟨hmem, rfl⟩ := mem_of_record? hl
    let value (k : FieldLayout) : Value := g (k.field.ident, k.field.codec)
    have hobject : (typedFields l).map (fun f => (f.1, g f)) =
        l.fields.map fun k => (k.field.ident, value k) := by
      rw [h.typedFields_eq hmem, List.map_map]
      rfl
    have hfield : ∀ k ∈ l.fields, (k.field.ident, k.field.codec) ∈ typedFields l := by
      intro k hk
      rw [h.typedFields_eq hmem]
      exact List.mem_map_of_mem (f := fun k => (k.field.ident, k.field.codec)) hk
    have hignored : ∀ k ∈ l.fields, k.attributes.ignore = true →
        S.fieldDefault? k.field = some (value k) := by
      intro k hk hi
      obtain ⟨w, hw⟩ := Option.isSome_iff_exists.1 ((hS.records l hmem).default k hk hi)
      rw [hw, (h.evaluates hB runtime hw).unique (hall _ (hfield k hk))]
    rw [hname, hobject]
    exact ⟨hasType_record hS hmem fun k hk _ => (ih _ (hfield k hk)).1,
      reset_record hS hmem hignored fun k hk _ => (ih _ (hfield k hk)).2⟩

end

/-- Every default that an emitted module writes out is one of records that are emitted with a
default, and evaluates to one value, which is of the type. So does that of every record with a
default, and it is the default that a caller is given. Without hooks it is written, and read again as
it was. This goes for layouts in which no type takes a name of the language. -/
theorem evaluates_of_mem_defaults [Text.CharacterNames] {text : String} (hS : ofText text = .ok S)
    (hB : S.KeepsBuiltins) (runtime : String) :
    (∀ c ∈ (S.emitted runtime).defaults,
      (∀ name ∈ c.defaultNames, ∃ r ∈ (S.emitted runtime).records,
        r.name = name ∧ r.default?.isSome) ∧
      ∃ v, (∀ w, (S.emitted runtime).Evaluates c w ↔ w = v) ∧ S.HasType maxEmptyItems c v) ∧
    ∀ r ∈ S.records, r.hasDefault = true → ∃ v, S.defaultOf r.name = .ok v ∧
      (∀ w, (S.emitted runtime).Evaluates (.declared r.name) w ↔ w = v) ∧
      S.HasType maxEmptyItems (.declared r.name) v ∧
      (S.HookFree → ∀ H, ∃ s t, S.encoded H v = .ok s ∧
        S.decodeFrom H r.name s.bytes.toList = .ok (v, t) ∧ t.bytes = []) := by
  have hwf := wellFormed_of_ofText hS
  obtain ⟨s, hs, -, hresolves⟩ := exists_schema_of_ofText hS
  -- what has a default evaluates to it alone
  have hvalue : ∀ {c v}, c.default? S.default? = some v →
      ∀ w, (S.emitted runtime).Evaluates c w ↔ w = v := by
    intro c v hv w
    have heval := hresolves.evaluates hB runtime hv
    exact ⟨fun hw => hw.unique heval, fun hw => hw ▸ heval⟩
  refine ⟨fun c hc => ?_, fun r hr hdefault => ?_⟩
  · rw [defaults_emitted, List.mem_flatMap] at hc
    obtain ⟨r, hr, hc⟩ := hc
    have hsome := hresolves.isSome_of_mem_defaults hs hwf hr hc
    obtain ⟨v, hv⟩ := Option.isSome_iff_exists.1 hsome
    refine ⟨fun name hname => ?_, v, hvalue hv, ?_⟩
    · exact exists_class_of_isSome_default? (Codec.isSome_of_mem_defaultNames hsome name hname) _
    · exact (hresolves.hasType_of_evaluates hwf hB (hresolves.evaluates hB runtime hv)).1
  · obtain ⟨v, hv⟩ := Option.isSome_iff_exists.1 (hresolves.isSome_default? hs hr hdefault)
    have heval := hresolves.evaluates hB runtime (c := .declared r.name) hv
    have htyped : S.HasType maxEmptyItems (.declared r.name) v ∧ S.reset v = v :=
      hresolves.hasType_of_evaluates hwf hB heval
    obtain ⟨htyped, hreset⟩ := htyped
    have hfills : S.fillsAt S.builtins S.records.length r.name = true := by
      rw [hB.builtins_eq, fillsAt_all]
    have hof : S.defaultOf r.name = .ok v := by
      rw [defaultOf, hv]
      exact if_pos hfills
    refine ⟨v, hof, hvalue hv, htyped, fun hH H => ?_⟩
    have hround := roundTrips_of_hasType (H := H) hwf hH htyped (.declared htyped.mem_names)
    rw [← hB.builtins_eq] at hround
    obtain ⟨t, u, ht, -, hu, hrest, -⟩ := hround.exists_encoded []
    rw [List.append_nil, hreset] at hu
    exact ⟨t, u, ht, hu, hrest⟩

/-- Records in arrays of arrays, each with an ignored field. -/
theorem evaluates_of_mem_defaults_of_nested_arrays :
    let text := "struct Q \x7b @codec(ignore) n: u16 \x7d struct R \x7b items: Q[2][3] \x7d"
    let c := Codec.array (.array (.declared "Q") 2) 3
    ∃ S r, ofText text = .ok S ∧ S.HookFree ∧ S.KeepsBuiltins ∧ c ∈ (S.emitted "runtime").defaults ∧
      r ∈ S.records ∧ r.name = "R" ∧ r.hasDefault = true ∧
      (∃ q ∈ (S.emitted "runtime").records, q.name = "Q" ∧ q.default?.isSome) ∧
      (∃ v, (∀ w, (S.emitted "runtime").Evaluates c w ↔ w = v) ∧ S.HasType maxEmptyItems c v) ∧
      ∃ v s t, S.defaultOf r.name = .ok v ∧ S.encoded Hooks.empty v = .ok s ∧
        S.decodeFrom Hooks.empty r.name s.bytes.toList = .ok (v, t) ∧ t.bytes = [] := by
  intro text c
  obtain ⟨S, hS, h⟩ := exists_of_any_ofText text
    (fun S => S.HookFree && S.KeepsBuiltins && (S.emitted "runtime").defaults.contains c &&
      (S.record? "R").any fun r => r.name = "R" ∧ r.hasDefault = true)
    (by decide +kernel)
  simp only [Bool.and_eq_true, Option.any_eq_true, decide_eq_true_eq, List.contains_iff_mem] at h
  obtain ⟨⟨⟨hhooks, hbuiltins⟩, hc⟩, r, hr, hname, hdefault⟩ := h
  have hmem := (mem_of_record? hr).1
  obtain ⟨hdefaults, hrecords⟩ := evaluates_of_mem_defaults hS hbuiltins "runtime"
  obtain ⟨hnames, hvalue⟩ := hdefaults c hc
  obtain ⟨v, hv, -, -, hround⟩ := hrecords r hmem hdefault
  obtain ⟨s, t, hs, ht, hrest⟩ := hround hhooks Hooks.empty
  exact ⟨S, r, hS, hhooks, hbuiltins, hc, hmem, hname, hdefault, hnames "Q" (.head _), hvalue, v, s,
    t, hv, hs, ht, hrest⟩

/-- Where a type is called `range`, the default of an array does not evaluate, and the record that
should be given it has none. -/
theorem not_evaluates_of_range :
    let c := Codec.array (.declared "P") 3
    ∃ S, ofText ("struct range \x7b x: u8 \x7d struct P \x7b y: u8 \x7d " ++
        "struct B \x7b @codec(ignore) p: P[3] \x7d") = .ok S ∧
      c ∈ (S.emitted "runtime").defaults ∧ (∀ v, ¬ (S.emitted "runtime").Evaluates c v) ∧
      S.defaultOf "B" = .error .wrongKind := by
  intro c
  obtain ⟨S, hS, h⟩ := exists_of_any_ofText
    ("struct range \x7b x: u8 \x7d struct P \x7b y: u8 \x7d " ++
      "struct B \x7b @codec(ignore) p: P[3] \x7d")
    (fun S => (S.emitted "runtime").defaults.contains c && !(S.emitted "runtime").builtins.ranges &&
      ((S.default? "B").isSome && !S.fillsAt S.builtins S.records.length "B"))
    (by decide +kernel)
  simp only [Bool.and_eq_true, Bool.not_eq_true', List.contains_iff_mem] at h
  obtain ⟨⟨hc, hranges⟩, hdefault, hfills⟩ := h
  obtain ⟨v, hv⟩ := Option.isSome_iff_exists.1 hdefault
  refine ⟨S, hS, hc, fun v hv => ?_, ?_⟩
  · have hcounts := hv.ranges_of_array
    rw [hranges] at hcounts
    cases hcounts
  · simp only [defaultOf, hv, hfills, Bool.false_eq_true, if_false]

end Layout

end WireSchema
