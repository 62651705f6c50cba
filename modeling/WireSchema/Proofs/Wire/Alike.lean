import Mathlib.Data.List.Perm.Basic
import WireSchema.Proofs.Wire.Writing
import WireSchema.Wire.Rename

/-!
# Values with the same contents

Values of one layout are compared with those of another in which types, variants and fields have other
names. Two values are alike if they have the same contents by corresponding names. Whether objects
must list their fields in the same order is a parameter: where it is free, the fields of two objects
are the same but for their order, and where it is not, the second value is the first one renamed.

Nothing that coding asks of a value itself tells values apart that are alike.
-/

namespace WireSchema

/-- The same members, in any order if that is free. -/
def Listed {α : Type} (free : Bool) (as bs : List α) : Prop :=
  if free then as.Perm bs else as = bs

namespace Listed

variable {α β : Type} {free : Bool} {as bs : List α}

theorem refl (free : Bool) (as : List α) : Listed free as as := by
  cases free
  · rfl
  · exact List.Perm.refl as

theorem of_eq (h : as = bs) : Listed free as bs := h ▸ .refl free as

theorem perm (h : Listed free as bs) : as.Perm bs := by
  cases free
  · exact .of_eq h
  · exact h

theorem map (f : α → β) (h : Listed free as bs) : Listed free (as.map f) (bs.map f) := by
  cases free
  · exact congrArg (List.map f) h
  · exact List.Perm.map f h

end Listed

/-- Two lists with related members are the two sides of one list of pairs. -/
theorem exists_pairs_of_forall₂ {α β : Type} {R : α → β → Prop} {as : List α} {bs : List β}
    (h : List.Forall₂ R as bs) :
    ∃ ps : List (α × β), (∀ p ∈ ps, R p.1 p.2) ∧ ps.map Prod.fst = as ∧ ps.map Prod.snd = bs := by
  induction h with
  | nil => exact ⟨[], nofun, rfl, rfl⟩
  | @cons a b as bs hab _ ih =>
    obtain ⟨ps, hps, rfl, rfl⟩ := ih
    exact ⟨(a, b) :: ps, List.forall_mem_cons.2 ⟨hab, hps⟩, rfl, rfl⟩

namespace Renaming

/-- All names stay as they are. -/
def keep : Renaming := ⟨fun name => name, fun _ name => name, fun _ name => name⟩

variable (ρ : Renaming) (free : Bool)

/-- Values with the same contents by corresponding names. -/
inductive Alike : Value → Value → Prop
  | none : Alike .none .none
  | bool (b : Bool) : Alike (.bool b) (.bool b)
  | int (n : Int) : Alike (.int n) (.int n)
  | double (d : Double) : Alike (.double d) (.double d)
  | text (s : String) : Alike (.text s) (.text s)
  | foreign (t : Foreign) : Alike (.foreign t) (.foreign t)
  | list {items : List (Value × Value)} :
    (∀ i ∈ items, Alike i.1 i.2) → Alike (.list (items.map Prod.fst)) (.list (items.map Prod.snd))
  | tuple {items : List (Value × Value)} :
    (∀ i ∈ items, Alike i.1 i.2) → Alike (.tuple (items.map Prod.fst)) (.tuple (items.map Prod.snd))
  | map {entries : List ((Value × Value) × (Value × Value))} :
    (∀ e ∈ entries, Alike e.1.1 e.2.1) → (∀ e ∈ entries, Alike e.1.2 e.2.2) →
      Alike (.map (entries.map Prod.fst)) (.map (entries.map Prod.snd))
  | object {owner : Owner} {members : List (String × Value × Value)}
    {fields : List (String × Value)} :
    (∀ m ∈ members, Alike m.2.1 m.2.2) →
      Listed free fields (members.map fun m => (ρ.field owner.text m.1, m.2.2)) →
        Alike (.object owner (members.map fun m => (m.1, m.2.1))) (.object (ρ.ownerOf owner) fields)

variable {ρ} {free}

theorem Alike.list_of_forall₂ {vs ws : List Value} (h : List.Forall₂ (ρ.Alike free) vs ws) :
    ρ.Alike free (.list vs) (.list ws) := by
  obtain ⟨items, hitems, rfl, rfl⟩ := exists_pairs_of_forall₂ h
  exact .list hitems

theorem Alike.tuple_of_forall₂ {vs ws : List Value} (h : List.Forall₂ (ρ.Alike free) vs ws) :
    ρ.Alike free (.tuple vs) (.tuple ws) := by
  obtain ⟨items, hitems, rfl, rfl⟩ := exists_pairs_of_forall₂ h
  exact .tuple hitems

theorem Alike.map_of_forall₂ {es fs : List (Value × Value)}
    (h : List.Forall₂ (fun e f => ρ.Alike free e.1 f.1 ∧ ρ.Alike free e.2 f.2) es fs) :
    ρ.Alike free (.map es) (.map fs) := by
  obtain ⟨entries, hentries, rfl, rfl⟩ := exists_pairs_of_forall₂ h
  exact .map (fun e he => (hentries e he).1) fun e he => (hentries e he).2

/-- Objects are alike if their members are, one by one, by corresponding names. -/
theorem Alike.object_of_forall₂ {owner : Owner} {fields members fields' : List (String × Value)}
    (h : List.Forall₂ (fun m m' => m'.1 = ρ.field owner.text m.1 ∧ ρ.Alike free m.2 m'.2) fields
      members)
    (hlisted : Listed free fields' members) :
    ρ.Alike free (.object owner fields) (.object (ρ.ownerOf owner) fields') := by
  obtain ⟨ps, hps, rfl, rfl⟩ := exists_pairs_of_forall₂ h
  let triples := ps.map fun p => (p.1.1, p.1.2, p.2.2)
  have hfields : triples.map (fun m => (m.1, m.2.1)) = ps.map Prod.fst := List.map_map
  have hmembers : triples.map (fun m => (ρ.field owner.text m.1, m.2.2)) = ps.map Prod.snd := by
    rw [List.map_map]
    exact List.map_congr_left fun p hp => Prod.ext (hps p hp).1.symm rfl
  rw [← hfields]
  exact .object (List.forall_mem_map.2 fun p hp => (hps p hp).2) (hmembers ▸ hlisted)

/-! ## What is asked of values -/

section

variable {v v' : Value} (h : ρ.Alike free v v')
include h

theorem Alike.integer?_eq : v'.integer? = v.integer? := by
  cases h <;> rfl

theorem Alike.isNone_eq : v'.isNone = v.isNone := by
  cases h <;> rfl

theorem Alike.truthy_eq : v'.truthy = v.truthy := by
  cases h <;> simp [Value.truthy]

/-- Items can be gone through in both values or in neither. -/
theorem Alike.items? :
    v.items? = Option.none ∧ v'.items? = Option.none ∨
      ∃ items : List (Value × Value), (∀ i ∈ items, ρ.Alike free i.1 i.2) ∧
        v.items? = some (items.map Prod.fst) ∧ v'.items? = some (items.map Prod.snd) := by
  cases h with
  | none | bool | int | double | foreign | object => exact .inl ⟨rfl, rfl⟩
  | text s =>
    let items := s.toList.map fun c => (Value.text (String.singleton c), Value.text (String.singleton c))
    refine .inr ⟨items, fun i hi => ?_, ?_, ?_⟩
    · obtain ⟨c, -, rfl⟩ := List.mem_map.1 hi
      exact .text _
    · rw [List.map_map]
      rfl
    · rw [List.map_map]
      rfl
  | list hitems | tuple hitems => exact .inr ⟨_, hitems, rfl, rfl⟩
  | @map entries hkeys _ =>
    refine .inr ⟨entries.map fun e => (e.1.1, e.2.1), fun i hi => ?_, ?_, ?_⟩
    · obtain ⟨e, he, rfl⟩ := List.mem_map.1 hi
      exact hkeys e he
    · simp [Value.items?, Function.comp_def]
    · simp [Value.items?, Function.comp_def]

/-- Both values are maps or neither is. -/
theorem Alike.entries :
    (∀ es, v ≠ .map es) ∧ (∀ es, v' ≠ .map es) ∨
      ∃ entries : List ((Value × Value) × (Value × Value)),
        (∀ e ∈ entries, ρ.Alike free e.1.1 e.2.1 ∧ ρ.Alike free e.1.2 e.2.2) ∧
          v = .map (entries.map Prod.fst) ∧ v' = .map (entries.map Prod.snd) := by
  cases h with
  | map hkeys hvalues => exact .inr ⟨_, fun e he => ⟨hkeys e he, hvalues e he⟩, rfl, rfl⟩
  | _ => exact .inl ⟨fun _ => nofun, fun _ => nofun⟩

/-- Both values are objects or neither is. -/
theorem Alike.members :
    (∀ owner fields, v ≠ .object owner fields) ∧ (∀ owner fields, v' ≠ .object owner fields) ∨
      ∃ (owner : Owner) (members : List (String × Value × Value)) (fields : List (String × Value)),
        (∀ m ∈ members, ρ.Alike free m.2.1 m.2.2) ∧
          Listed free fields (members.map fun m => (ρ.field owner.text m.1, m.2.2)) ∧
          v = .object owner (members.map fun m => (m.1, m.2.1)) ∧
          v' = .object (ρ.ownerOf owner) fields := by
  cases h with
  | object hmembers hfields => exact .inr ⟨_, _, _, hmembers, hfields, rfl, rfl⟩
  | _ => exact .inl ⟨fun _ _ => nofun, fun _ _ => nofun⟩

end

end Renaming

namespace Value

theorem depthItems_eq_foldl (d : Nat) (vs : List Value) :
    depthItems d vs = (vs.map depth).foldl max d := by
  induction vs generalizing d with
  | nil => simp [depthItems]
  | cons v vs ih => rw [depthItems, ih, List.map_cons, List.foldl_cons]

theorem depthFields_eq_foldl (d : Nat) (fs : List (String × Value)) :
    depthFields d fs = (fs.map fun f => f.2.depth).foldl max d := by
  induction fs generalizing d with
  | nil => simp [depthFields]
  | cons f fs ih => rw [depthFields, ih, List.map_cons, List.foldl_cons]

theorem depthEntries_eq_foldl (d : Nat) (es : List (Value × Value)) :
    depthEntries d es = (es.map fun e => (e.1.depth, e.2.depth)).foldl
      (fun d e => max (max d e.1) e.2) d := by
  induction es generalizing d with
  | nil => simp [depthEntries]
  | cons e es ih => rw [depthEntries, ih, List.map_cons, List.foldl_cons]

end Value

namespace Renaming

variable {ρ : Renaming} {free : Bool}

theorem Alike.depth_eq {v v' : Value} (h : ρ.Alike free v v') : v'.depth = v.depth := by
  induction h with
  | none | bool | int | double | text | foreign => rfl
  | list _ ih | tuple _ ih =>
    rw [Value.depth, Value.depth, Value.depthItems_eq_foldl, Value.depthItems_eq_foldl,
      List.map_map, List.map_map]
    exact congrArg _ (List.map_congr_left ih)
  | map _ _ ihk ihv =>
    rw [Value.depth, Value.depth, Value.depthEntries_eq_foldl, Value.depthEntries_eq_foldl,
      List.map_map, List.map_map]
    exact congrArg _ (List.map_congr_left fun e he => Prod.ext (ihk e he) (ihv e he))
  | @object owner members fields _ hfields ih =>
    have hdepths := (hfields.perm.map fun f => f.2.depth).foldl_eq (f := max) 0
    rw [Value.depth, Value.depth, Value.depthFields_eq_foldl, Value.depthFields_eq_foldl, hdepths,
      List.map_map, List.map_map]
    exact congrArg (List.foldl max 0 · + 1) (List.map_congr_left ih)

/-! ## In the same order -/

theorem values_eq_map (ρ : Renaming) (vs : List Value) : ρ.values vs = vs.map ρ.value := by
  induction vs with
  | nil => simp [values]
  | cons v vs ih => simp [values, ih]

theorem entries_eq_map (ρ : Renaming) (es : List (Value × Value)) :
    ρ.entries es = es.map fun e => (ρ.value e.1, ρ.value e.2) := by
  induction es with
  | nil => simp [entries]
  | cons e es ih => simp [entries, ih]

theorem members_eq_map (ρ : Renaming) (owner : Owner) (fields : List (String × Value)) :
    ρ.members owner fields = fields.map fun f => (ρ.field owner.text f.1, ρ.value f.2) := by
  induction fields with
  | nil => simp [members]
  | cons f fields ih => simp [members, ih]

/-- Where no order is free, a value is alike its renaming only. -/
theorem Alike.eq_value {v v' : Value} (h : ρ.Alike false v v') : v' = ρ.value v := by
  induction h with
  | none | bool | int | double | text | foreign => simp [value]
  | list _ ih | tuple _ ih =>
    rw [value, values_eq_map, List.map_map]
    exact congrArg _ (List.map_congr_left ih)
  | map _ _ ihk ihv =>
    rw [value, entries_eq_map, List.map_map]
    exact congrArg _ (List.map_congr_left fun e he => Prod.ext (ihk e he) (ihv e he))
  | @object owner members fields _ hfields ih =>
    rw [value, members_eq_map, List.map_map, show fields = _ from hfields]
    exact congrArg _ (List.map_congr_left fun m hm => congrArg _ (ih m hm))

mutual
/-- A value is alike its renaming. -/
theorem alike_value (ρ : Renaming) (free : Bool) : ∀ v, ρ.Alike free v (ρ.value v)
  | .none => by simpa only [value] using .none
  | .bool b => by simpa only [value] using .bool b
  | .int n => by simpa only [value] using .int n
  | .double d => by simpa only [value] using .double d
  | .text s => by simpa only [value] using .text s
  | .foreign t => by simpa only [value] using .foreign t
  | .list vs => by
    rw [value, values_eq_map]
    exact .list_of_forall₂ (List.forall₂_map_right_iff.2
      (List.forall₂_same.2 (alike_values ρ free vs)))
  | .tuple vs => by
    rw [value, values_eq_map]
    exact .tuple_of_forall₂ (List.forall₂_map_right_iff.2
      (List.forall₂_same.2 (alike_values ρ free vs)))
  | .map es => by
    rw [value, entries_eq_map]
    exact .map_of_forall₂ (List.forall₂_map_right_iff.2
      (List.forall₂_same.2 (alike_entries ρ free es)))
  | .object owner fields => by
    rw [value, members_eq_map]
    refine .object_of_forall₂ (List.forall₂_map_right_iff.2 (List.forall₂_same.2 fun m hm => ?_))
      (.refl free _)
    exact ⟨rfl, alike_members ρ free fields m hm⟩

theorem alike_values (ρ : Renaming) (free : Bool) :
    ∀ vs : List Value, ∀ v ∈ vs, ρ.Alike free v (ρ.value v)
  | [] => nofun
  | v :: vs => List.forall_mem_cons.2 ⟨alike_value ρ free v, alike_values ρ free vs⟩

theorem alike_entries (ρ : Renaming) (free : Bool) :
    ∀ es : List (Value × Value), ∀ e ∈ es,
      ρ.Alike free e.1 (ρ.value e.1) ∧ ρ.Alike free e.2 (ρ.value e.2)
  | [] => nofun
  | (k, v) :: es => List.forall_mem_cons.2
    ⟨⟨alike_value ρ free k, alike_value ρ free v⟩, alike_entries ρ free es⟩

theorem alike_members (ρ : Renaming) (free : Bool) :
    ∀ fields : List (String × Value), ∀ f ∈ fields, ρ.Alike free f.2 (ρ.value f.2)
  | [] => nofun
  | (_, v) :: fields => List.forall_mem_cons.2 ⟨alike_value ρ free v, alike_members ρ free fields⟩
end

theorem ownerOf_keep (owner : Owner) : keep.ownerOf owner = owner := by
  cases owner <;> rfl

mutual
/-- With all names kept, a value is its own renaming. -/
theorem value_keep : ∀ v, keep.value v = v
  | .none | .bool _ | .int _ | .double _ | .text _ | .foreign _ => by simp only [value]
  | .list vs => by rw [value, values_keep vs]
  | .tuple vs => by rw [value, values_keep vs]
  | .map es => by rw [value, entries_keep es]
  | .object owner fields => by rw [value, ownerOf_keep, members_keep owner fields]

theorem values_keep : ∀ vs, keep.values vs = vs
  | [] => by simp only [values]
  | v :: vs => by rw [values, value_keep v, values_keep vs]

theorem entries_keep : ∀ es, keep.entries es = es
  | [] => by simp only [entries]
  | (k, v) :: es => by rw [entries, value_keep k, value_keep v, entries_keep es]

theorem members_keep (owner : Owner) : ∀ fields, keep.members owner fields = fields
  | [] => by simp only [members]
  | (name, v) :: fields => by
    rw [members, value_keep v, members_keep owner fields]
    rfl
end

end Renaming

end WireSchema
