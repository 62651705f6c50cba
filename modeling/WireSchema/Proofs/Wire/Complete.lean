import WireSchema.Proofs.Wire.Callable
import WireSchema.Proofs.Wire.Writing

/-!
# Completing a record

A record that is read holds what was read for its fields on the wire and the defaults of its ignored
fields. Nothing is missing for either, and resetting a record comes to completing it from what it
holds on the wire.
-/

namespace WireSchema

/-- What is held by the first field of a name. -/
def heldBy (fields : List (String × Value)) (name : String) : Value :=
  ((fields.find? (·.1 = name)).map Prod.snd).getD .none

theorem heldBy_of_mem {fields : List (String × Value)} (h : (fields.map Prod.fst).Nodup)
    {e : String × Value} (he : e ∈ fields) : heldBy fields e.1 = e.2 := by
  simp only [heldBy, find?_eq_of_nodup h he, Option.map_some, Option.getD_some]

theorem heldBy_mem {fields : List (String × Value)} (h : (fields.map Prod.fst).Nodup)
    {name : String} (hname : name ∈ fields.map Prod.fst) :
    (name, heldBy fields name) ∈ fields := by
  obtain ⟨e, he, rfl⟩ := List.mem_map.1 hname
  rw [heldBy_of_mem h he]
  exact he

/-- An object is known by what is held by its names. -/
theorem eq_map_heldBy {fields : List (String × Value)} (h : (fields.map Prod.fst).Nodup) :
    fields = (fields.map Prod.fst).map fun name => (name, heldBy fields name) := by
  rw [List.map_map]
  refine (List.map_id fields).symm.trans (List.map_congr_left fun e he => ?_)
  simp only [Function.comp, heldBy_of_mem h he, id]

/-- What was read for one of several names. -/
theorem find?_map_ident {fields : List Field} (h : (fields.map Field.ident).Nodup)
    (g : Field → Value) {f : Field} (hf : f ∈ fields) :
    (fields.map fun f => (f.ident, g f)).find? (·.1 = f.ident) = some (f.ident, g f) := by
  have hkeys : ((fields.map fun f => (f.ident, g f)).map Prod.fst).Nodup := by
    rw [List.map_map]
    exact h
  exact find?_eq_of_nodup hkeys (List.mem_map_of_mem (f := fun f => (f.ident, g f)) hf)

namespace Layout

variable {S : Layout} {B : Builtins}

/-- What an object with all its fields holds by the name of a field on the wire. -/
theorem Body.field?_eq (hS : S.WellFormed) {owner : Owner} {d : Declaration}
    {front : List UInt8} {names : List String} {wire : List Field}
    (h : S.Body owner d front names wire) {fields : List (String × Value)}
    (hfields : fields.map Prod.fst = names) {f : Field} (hf : f ∈ wire) :
    (f.ident, heldBy fields f.ident) ∈ fields ∧
      Entity.field? S (.value (.object owner fields)) f.ident = some (heldBy fields f.ident) := by
  obtain ⟨w, hmem, hw⟩ := h.exists_field? hS hfields hf
  have hheld : heldBy fields f.ident = w :=
    heldBy_of_mem (hfields ▸ h.distinct hS) (e := (f.ident, w)) hmem
  rw [hheld]
  exact ⟨hmem, hw⟩

/-- What completes a record, field by field, if all defaults can be evaluated. -/
theorem completeFields_eq {read : List (String × Value)} {fields : List FieldLayout}
    {g : FieldLayout → Value}
    (hignored : ∀ l ∈ fields, l.attributes.ignore = true → S.fieldDefault? l.field = some (g l))
    (hread : ∀ l ∈ fields, l.attributes.ignore = false →
      read.find? (·.1 = l.field.ident) = some (l.field.ident, g l)) :
    S.completeFields B read fields =
      if S.fillsIgnored B fields then .ok (fields.map fun l => (l.field.ident, g l))
      else .error .wrongKind := by
  induction fields with
  | nil => rfl
  | cons l fields ih =>
    have hrest := ih (fun l' hl' => hignored l' (.tail _ hl')) fun l' hl' => hread l' (.tail _ hl')
    have hall : S.fillsIgnored B (l :: fields) =
        ((!l.attributes.ignore || S.fills B l.field) && S.fillsIgnored B fields) := rfl
    rw [completeFields, hrest, hall]
    cases hi : l.attributes.ignore with
    | true =>
      simp only [if_true, filling, hignored l (.head _) hi]
      cases S.fills B l.field <;> cases S.fillsIgnored B fields <;> rfl
    | false =>
      simp only [Bool.false_eq_true, if_false, hread l (.head _) hi]
      cases S.fillsIgnored B fields <;> rfl

theorem ignoredDefault?_eq (hS : S.WellFormed) {r : RecordLayout} (hr : r ∈ S.records)
    {l : FieldLayout} (hl : l ∈ r.fields) :
    S.ignoredDefault? (.record r.name) l.field.ident =
      if l.attributes.ignore then S.fieldDefault? l.field else none := by
  simp only [ignoredDefault?, hS.record?_eq_some hr, Option.bind_eq_bind, Option.bind_some]
  cases hi : l.attributes.ignore with
  | true =>
    have hfind : r.fields.find? (fun f => f.field.ident = l.field.ident ∧ f.attributes.ignore) =
        some l := by
      cases hfind : r.fields.find? fun f => f.field.ident = l.field.ident ∧ f.attributes.ignore with
      | none =>
        have hnone := List.find?_eq_none.1 hfind l hl
        simp [hi] at hnone
      | some l' =>
        have hl' := List.find?_some hfind
        simp only [decide_eq_true_eq] at hl'
        rw [(hS.records r hr).eq_of_ident_eq (List.mem_of_find?_eq_some hfind) hl hl'.1]
    rw [hfind]
    rfl
  | false =>
    have hfind : r.fields.find? (fun f => f.field.ident = l.field.ident ∧ f.attributes.ignore) =
        none := by
      rw [List.find?_eq_none]
      intro l' hl' heq
      simp only [decide_eq_true_eq] at heq
      rw [(hS.records r hr).eq_of_ident_eq hl' hl heq.1, hi] at heq
      exact absurd heq.2 (by decide)
    rw [hfind]
    rfl

/-- What a record holds once it is read, given what was read for the fields on the wire. -/
def completed (S : Layout) (g : Field → Value) (l : FieldLayout) : Value :=
  if l.attributes.ignore then (S.fieldDefault? l.field).getD .none else g l.field

theorem completeFields_wireFields (hS : S.WellFormed) {r : RecordLayout} (hr : r ∈ S.records)
    (g : Field → Value) :
    S.completeFields B (r.wireFields.map fun f => (f.ident, g f)) r.fields =
      if S.fillsIgnored B r.fields then
        .ok (r.fields.map fun l => (l.field.ident, S.completed g l))
      else .error .wrongKind := by
  have hwf := hS.records r hr
  refine completeFields_eq (fun l hl hi => ?_) fun l hl hi => ?_
  · obtain ⟨w, hw⟩ := Option.isSome_iff_exists.1 (hwf.default l hl hi)
    rw [completed, if_pos hi, hw, Option.getD_some]
  · have hwire : l.field ∈ r.wireFields := hwf.mem_wireFields_iff.2 ⟨l, hl, hi, rfl⟩
    rw [completed, if_neg (by simp [hi])]
    exact find?_map_ident hwf.wireFields.distinct g hwire

/-- A record is completed from what is held by the names of its fields on the wire. -/
theorem completeFields_of_names (hS : S.WellFormed) {r : RecordLayout} (hr : r ∈ S.records)
    {read : List (String × Value)} (hnames : read.map Prod.fst = r.wireFields.map Field.ident) :
    S.completeFields B read r.fields =
      if S.fillsIgnored B r.fields then
        .ok (r.fields.map fun l => (l.field.ident, S.completed (fun f => heldBy read f.ident) l))
      else .error .wrongKind := by
  have hdistinct : (read.map Prod.fst).Nodup := hnames ▸ (hS.records r hr).wireFields.distinct
  have hread := eq_map_heldBy hdistinct
  rw [hnames, List.map_map] at hread
  have hcomplete := completeFields_wireFields (B := B) hS hr fun f => heldBy read f.ident
  rwa [← show read = r.wireFields.map fun f => (f.ident, heldBy read f.ident) from hread]
    at hcomplete

/-- Resetting a record completes what it holds, reset. -/
theorem resetFields_record (hS : S.WellFormed) {r : RecordLayout} (hr : r ∈ S.records)
    {fields : List (String × Value)}
    (hfields : fields.map Prod.fst = r.fields.map (·.field.ident)) :
    S.resetFields (.record r.name) fields =
      r.fields.map fun l =>
        (l.field.ident, S.completed (fun f => S.reset (heldBy fields f.ident)) l) := by
  have hdistinct : (fields.map Prod.fst).Nodup := hfields ▸ (Body.record hr).distinct hS
  rw [resetFields_eq_map]
  conv_lhs => rw [eq_map_heldBy hdistinct, hfields, List.map_map, List.map_map]
  refine List.map_congr_left fun l hl => ?_
  simp only [Function.comp, ignoredDefault?_eq hS hr hl, completed]
  cases hi : l.attributes.ignore with
  | true =>
    obtain ⟨w, hw⟩ := Option.isSome_iff_exists.1 ((hS.records r hr).default l hl hi)
    simp only [if_true, hw, Option.getD_some]
  | false => rfl

/-! ## Records by their fields -/

section

variable (hS : S.WellFormed) {r : RecordLayout} (hr : r ∈ S.records) {g : FieldLayout → Value}
include hS hr

/-- What is so of the fields that are not ignored is so of those on the wire. -/
theorem forall_wireFields {P : Codec → Value → Prop}
    (hg : ∀ l ∈ r.fields, l.attributes.ignore = false → P l.field.codec (g l)) :
    ∀ f ∈ r.wireFields, ∀ e ∈ r.fields.map (fun l => (l.field.ident, g l)), e.1 = f.ident →
      P f.codec e.2 := by
  have hwf := hS.records r hr
  intro f hf e he hname
  obtain ⟨l, hl, hi, rfl⟩ := hwf.mem_wireFields_iff.1 hf
  obtain ⟨l', hl', rfl⟩ := List.mem_map.1 he
  obtain rfl := hwf.eq_of_ident_eq hl' hl hname
  exact hg l' hl' hi

/-- A record is typed if what it holds for its fields on the wire is. -/
theorem hasType_record {most : Nat}
    (hg : ∀ l ∈ r.fields, l.attributes.ignore = false → S.HasType most l.field.codec (g l)) :
    S.HasType most (.declared r.name)
      (.object (.record r.name) (r.fields.map fun l => (l.field.ident, g l))) :=
  .record (hS.record?_eq_some hr) List.map_map (forall_wireFields hS hr hg)

/-- A record stays as it is if its ignored fields hold their defaults and nothing else in it would
be reset. -/
theorem reset_record
    (hignored : ∀ l ∈ r.fields, l.attributes.ignore = true → S.fieldDefault? l.field = some (g l))
    (hg : ∀ l ∈ r.fields, l.attributes.ignore = false → S.reset (g l) = g l) :
    S.reset (.object (.record r.name) (r.fields.map fun l => (l.field.ident, g l))) =
      .object (.record r.name) (r.fields.map fun l => (l.field.ident, g l)) := by
  let fields := r.fields.map fun l => (l.field.ident, g l)
  have hnames : fields.map Prod.fst = r.fields.map (·.field.ident) := List.map_map
  have hdistinct : (fields.map Prod.fst).Nodup := hnames ▸ (Body.record hr).distinct hS
  rw [reset, resetFields_record hS hr hnames]
  refine congrArg _ (List.map_congr_left fun l hl => congrArg _ ?_)
  have hheld : heldBy fields l.field.ident = g l :=
    heldBy_of_mem hdistinct (List.mem_map_of_mem (f := fun l => (l.field.ident, g l)) hl)
  cases hi : l.attributes.ignore with
  | true => simp only [completed, hi, if_true, hignored l hl hi, Option.getD_some]
  | false =>
    simp only [completed, hi, Bool.false_eq_true, if_false]
    rw [hheld, hg l hl hi]

end

/-- Nothing is reset in a variant but what it holds. -/
theorem resetFields_variant {union name : String} {fields : List (String × Value)}
    {wire : List Field} (hfields : fields.map Prod.fst = wire.map Field.ident)
    (hdistinct : (fields.map Prod.fst).Nodup) :
    S.resetFields (.variant union name) fields =
      wire.map fun f => (f.ident, S.reset (heldBy fields f.ident)) := by
  rw [resetFields_eq_map]
  conv_lhs => rw [eq_map_heldBy hdistinct, hfields, List.map_map, List.map_map]
  rfl

end Layout

end WireSchema
