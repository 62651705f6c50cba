import Mathlib.Data.List.Nodup
import WireSchema.Layout.Defaultable
import WireSchema.Proofs.Layout.Closure

/-!
# Defaults are what can be derived

The names of the records with a default are found in rounds that each go through the records once and
use at once what they add. What carries the proofs is that names are only ever added by the rule: so
all that is found is in every set of names that is closed under the rule, and what is found in the end
is closed itself. Of these sets one is that of the records with a finite derivation, and another one is
what is left without records that need each other.
-/

namespace WireSchema

/-! ## The rule for types -/

namespace TypeExpr

theorem DefaultsBy.mono {S S' : String → Prop} (h : ∀ name, S name → S' name) {t : TypeExpr}
    (ht : t.DefaultsBy S) : t.DefaultsBy S' := by
  induction ht with
  | primitive p => exact .primitive p
  | generic harity => exact .generic harity
  | array size _ ih => exact .array size ih
  | declared hsize hname => exact .declared hsize (h _ hname)

theorem defaultsBy_named_iff {S : String → Prop} {name : String} :
    (named name).DefaultsBy S ↔
      isPrimitiveName name = true ∨ (genericArity? name).isSome ∨ S name := by
  constructor
  · intro h
    cases h with
    | primitive p =>
      rw [isPrimitiveName, Primitive.ofName?_name]
      exact .inl rfl
    | generic harity => exact .inr (.inl harity)
    | declared _ hname => exact .inr (.inr hname)
  · rintro (hprimitive | harity | hname)
    · obtain ⟨p, rfl⟩ := exists_name_of_isPrimitiveName hprimitive
      exact .primitive p
    · exact .generic harity
    · exact .declared rfl hname

theorem defaultsBy_applied_iff {S : String → Prop} {name : String} {args : List TypeExpr} :
    (applied name args).DefaultsBy S ↔ (genericArity? name).isSome ∨ S name := by
  constructor
  · intro h
    cases h with
    | generic harity => exact .inl harity
    | declared _ hname => exact .inr hname
  · rintro (harity | hname)
    · exact .generic harity
    · exact .declared rfl hname

theorem defaultsBy_array_iff {S : String → Prop} {element : TypeExpr} {size : Nat} :
    (array element size).DefaultsBy S ↔ element.DefaultsBy S := by
  refine ⟨fun h => ?_, .array size⟩
  cases h with
  | generic harity => exact absurd (show (genericArity? "array").isSome from harity) (by decide)
  | array _ h => exact h
  | declared hsize => cases hsize

/-- Types are looked at by the rule. -/
theorem hasDefault_eq_true_iff {known : List String} {t : TypeExpr} :
    t.hasDefault known = true ↔ t.DefaultsBy (· ∈ known) := by
  fun_induction hasDefault known t with
  | case1 name =>
    rw [Bool.or_eq_true, Bool.or_eq_true, or_assoc, List.contains_iff_mem, defaultsBy_named_iff]
  | case2 name args => rw [Bool.or_eq_true, List.contains_iff_mem, defaultsBy_applied_iff]
  | case3 element size ih => rw [ih, defaultsBy_array_iff]

end TypeExpr

/-- A set of names that has each record whose fields all have a default by it. -/
def ClosedByDefaults (records : List Record) (S : String → Prop) : Prop :=
  ∀ r ∈ records, (∀ f ∈ r.fields, f.type.DefaultsBy S) → S r.name

theorem closedByDefaults_defaultable (records : List Record) :
    ClosedByDefaults records (· ∈ defaultable records) := fun r hr h =>
  defaultClosed_defaultable records r hr fun f hf => TypeExpr.hasDefault_eq_true_iff.2 (h f hf)

/-! ## The rounds -/

/-- A round that does not get longer changes nothing. -/
theorem addDefaultable_eq_of_length_eq {records : List Record} {known : List String}
    (h : (addDefaultable records known).length = known.length) :
    addDefaultable records known = known := by
  induction records with
  | nil => rfl
  | cons r rs ih =>
    rw [addDefaultable_cons] at h ⊢
    split at h
    next hknown =>
      rw [if_pos hknown]
      exact ih h
    next hknown =>
      split at h
      next =>
        have hle := length_le_addDefaultable rs (r.name :: known)
        rw [h, List.length_cons] at hle
        omega
      next hfields =>
        rw [if_neg hknown, if_neg hfields]
        exact ih h

theorem Settles.unique {records : List Record} {known result result' : List String}
    (h : Settles records known result) (h' : Settles records known result') : result = result' := by
  induction h with
  | done hdone =>
    cases h' with
    | done => rfl
    | more hmore => exact absurd hdone hmore
  | more hmore _ ih =>
    cases h' with
    | done hdone => exact absurd hdone hmore
    | more _ h' => exact ih h'

/-- There is no more to add before the rounds run out, which are one more than the records that are
left. -/
theorem Grown.settles {records : List Record} {known : List String} (h : Grown records known)
    {n : Nat} (hn : records.length < known.length + n) :
    Settles records known (WireSchema.growDefaultable records n known) := by
  induction n generalizing known with
  | zero => exact absurd h.length_le (Nat.not_le.2 hn)
  | succ n ih =>
    unfold WireSchema.growDefaultable
    extract_lets more
    split
    next hlen => exact .done (addDefaultable_eq_of_length_eq hlen)
    next hlen =>
      have hle : known.length ≤ more.length := length_le_addDefaultable records known
      have hlt : records.length < more.length + n := by omega
      refine .more (fun heq => hlen (congrArg List.length heq)) ?_
      exact ih (h.foldl_addDefaultable (List.Subset.refl _)) hlt

theorem settles_defaultable (records : List Record) :
    Settles records [] (defaultable records) :=
  Grown.nil.settles (by rw [List.length_nil]; omega)

/-! ## The least closed set -/

/-- What is found by the rule is in every set that is closed under it. -/
theorem Grown.of_closedByDefaults {records : List Record} {known : List String}
    (h : Grown records known) {S : String → Prop} (hS : ClosedByDefaults records S) :
    ∀ name ∈ known, S name := by
  induction h with
  | nil => exact List.forall_mem_nil _
  | cons _ hr _ hfields ih =>
    refine List.forall_mem_cons.2 ⟨hS _ hr fun f hf => ?_, ih⟩
    exact (TypeExpr.hasDefault_eq_true_iff.1 (hfields f hf)).mono ih

theorem ClosedByDefaults.of_mem_defaultable {records : List Record} {S : String → Prop}
    (hS : ClosedByDefaults records S) : ∀ name ∈ defaultable records, S name :=
  (Grown.of_defaultable records).of_closedByDefaults hS

/-! ## Derivations -/

/-- What can be derived has a default by any closed set. -/
theorem Defaultable.defaultsBy {records : List Record} {S : String → Prop}
    (hS : ClosedByDefaults records S) {t : TypeExpr} (h : Defaultable records t) :
    t.DefaultsBy S := by
  induction h with
  | primitive p => exact .primitive p
  | generic harity => exact .generic harity
  | array size _ ih => exact .array size ih
  | record hr _ hsize hname ih => exact .declared hsize (hname ▸ hS _ hr ih)

/-- The name is that of a record whose fields all have a derivation. -/
def IsDerivable (records : List Record) (name : String) : Prop :=
  ∃ r ∈ records, (∀ f ∈ r.fields, Defaultable records f.type) ∧ r.name = name

theorem TypeExpr.DefaultsBy.defaultable {records : List Record} {t : TypeExpr}
    (h : t.DefaultsBy (IsDerivable records)) : Defaultable records t := by
  induction h with
  | primitive p => exact .primitive p
  | generic harity => exact .generic harity
  | array size _ ih => exact .array size ih
  | declared hsize hname =>
    obtain ⟨r, hr, hfields, hname⟩ := hname
    exact .record hr hfields hsize hname.symm

theorem closedByDefaults_isDerivable (records : List Record) :
    ClosedByDefaults records (IsDerivable records) := fun r hr h =>
  ⟨r, hr, fun f hf => (h f hf).defaultable, rfl⟩

theorem isDerivable_iff {records : List Record} {name : String} :
    IsDerivable records name ↔ name ∈ defaultable records := by
  constructor
  · rintro ⟨r, hr, hfields, rfl⟩
    have hclosed := closedByDefaults_defaultable records
    exact hclosed r hr fun f hf => (hfields f hf).defaultsBy hclosed
  · exact (closedByDefaults_isDerivable records).of_mem_defaultable name

theorem defaultable_iff_hasDefault {records : List Record} {t : TypeExpr} :
    Defaultable records t ↔ t.hasDefault (defaultable records) = true := by
  rw [TypeExpr.hasDefault_eq_true_iff]
  refine ⟨fun h => h.defaultsBy (closedByDefaults_defaultable records), fun h => ?_⟩
  exact (h.mono fun name => isDerivable_iff.2).defaultable

/-- Among distinct names, that of a record is found only by its own fields. -/
theorem name_mem_defaultable_iff {records : List Record}
    (hdistinct : (records.map Record.name).Nodup) {r : Record} (hr : r ∈ records) :
    r.name ∈ defaultable records ↔ ∀ f ∈ r.fields, Defaultable records f.type := by
  rw [← isDerivable_iff]
  refine ⟨?_, fun hfields => ⟨r, hr, hfields, rfl⟩⟩
  rintro ⟨r', hr', hfields, hname⟩
  rwa [List.inj_on_of_nodup_map hdistinct hr' hr hname] at hfields

/-! ## The result -/

/-- The rounds in which the records with a default are found come to an end, with the names of some
records. They are the least set of names that has a record whenever all its fields have a default by
the set. So a record is among them if there is a derivation for each of its fields, and only then, and
records that each need another one of themselves are not. The order of the records does not matter. -/
theorem defaultable_least {records : List Record} (hdistinct : (records.map Record.name).Nodup) :
    (∀ result, Settles records [] result ↔ result = defaultable records) ∧
    defaultable records ⊆ records.map Record.name ∧
    (∀ r ∈ records, r.name ∈ defaultable records ↔
      ∀ f ∈ r.fields, f.type.DefaultsBy (· ∈ defaultable records)) ∧
    (∀ S, ClosedByDefaults records S → ∀ name ∈ defaultable records, S name) ∧
    (∀ r ∈ records, r.name ∈ defaultable records ↔ ∀ f ∈ r.fields, Defaultable records f.type) ∧
    (∀ t : TypeExpr, t.hasDefault (defaultable records) = true ↔ Defaultable records t) ∧
    (∀ C : String → Prop,
      (∀ r ∈ records, C r.name → ∃ f ∈ r.fields, ¬ f.type.DefaultsBy fun name => ¬ C name) →
        ∀ name, C name → name ∉ defaultable records) ∧
    ∀ records', records'.Perm records →
      ∀ name, name ∈ defaultable records' ↔ name ∈ defaultable records := by
  have hsettles := settles_defaultable records
  refine ⟨fun result => ?_, (Grown.of_defaultable records).subset, fun r hr => ?_,
    fun S hS => hS.of_mem_defaultable, fun r hr => name_mem_defaultable_iff hdistinct hr,
    fun t => defaultable_iff_hasDefault.symm, fun C hC name hname hmem => ?_,
    fun records' hperm => mem_defaultable_congr fun r => hperm.mem_iff⟩
  · exact ⟨fun h => h.unique hsettles, fun h => h ▸ hsettles⟩
  · rw [name_mem_defaultable_iff hdistinct hr]
    refine forall₂_congr fun f _ => ?_
    rw [defaultable_iff_hasDefault, TypeExpr.hasDefault_eq_true_iff]
  · have hclosed : ClosedByDefaults records fun name => ¬ C name := by
      intro r hr hfields hin
      obtain ⟨f, hf, hnot⟩ := hC r hr hin
      exact hnot (hfields f hf)
    exact hclosed.of_mem_defaultable name hmem hname

/-- Two records that hold each other, be it in an array, and a record with an array of a record that is
declared behind it. -/
theorem defaultable_least_of_cycle :
    let field (t : TypeExpr) : Field := ⟨none, 0, t, [], .start⟩
    let a : Record := ⟨"A", .tuple, [field (.named "B")], [], .start⟩
    let b : Record := ⟨"B", .tuple, [field (.array (.named "A") 2)], [], .start⟩
    let c : Record := ⟨"C", .tuple, [field (.array (.named "D") 0)], [], .start⟩
    let d : Record := ⟨"D", .tuple, [field (.applied "list" [.named "A"])], [], .start⟩
    let records := [a, b, c, d]
    (records.map Record.name).Nodup ∧ "C" ∈ defaultable records ∧ "A" ∉ defaultable records := by
  intro field a b c d records
  have hdistinct : (records.map Record.name).Nodup := by decide
  obtain ⟨-, -, -, -, hderivation, -, hcycle, -⟩ := defaultable_least hdistinct
  refine ⟨hdistinct, (hderivation c (by simp [records])).2 fun f hf => ?_, ?_⟩
  · obtain rfl := List.mem_singleton.1 hf
    have hd : ∀ f ∈ d.fields, Defaultable records f.type :=
      List.forall_mem_singleton.2 (.generic rfl)
    exact .array 0 (.record (r := d) (by simp [records]) hd rfl rfl)
  · refine hcycle (fun name => name = "A" ∨ name = "B") (fun r hr hname => ?_) "A" (.inl rfl)
    simp only [records, List.mem_cons, List.not_mem_nil, or_false] at hr
    rcases hr with rfl | rfl | rfl | rfl
    · refine ⟨_, .head _, fun h => ?_⟩
      exact absurd (TypeExpr.defaultsBy_named_iff.1 h) (by decide)
    · refine ⟨_, .head _, fun h => ?_⟩
      exact absurd (TypeExpr.defaultsBy_named_iff.1 (TypeExpr.defaultsBy_array_iff.1 h)) (by decide)
    · exact absurd hname (by decide)
    · exact absurd hname (by decide)

end WireSchema
