import WireSchema.Proofs.Layout.Defaults

/-!
# Which records have a default

The rounds in which records with a default are found end with a round that adds nothing, as there are
no more rounds with an addition than records. What is known then is closed under the rule by which
records have defaults, and since it was only added to by this rule it is the least that is. So it
depends on which records there are, and not on the order in which they are declared.
-/

namespace WireSchema

/-- What has a default by records that have one has it by more records. -/
theorem TypeExpr.hasDefault_mono {known known' : List String} (h : known ⊆ known') {t : TypeExpr}
    (ht : t.hasDefault known = true) : t.hasDefault known' = true := by
  fun_induction hasDefault known t with
  | case1 name =>
    rw [hasDefault]
    simp only [Bool.or_eq_true, List.contains_iff_mem] at ht ⊢
    exact ht.imp_right (h ·)
  | case2 name args =>
    rw [hasDefault]
    simp only [Bool.or_eq_true, List.contains_iff_mem] at ht ⊢
    exact ht.imp_right (h ·)
  | case3 element size ih =>
    rw [hasDefault]
    exact ih ht

theorem TypeExpr.hasDefault_congr {known known' : List String}
    (h : ∀ name, name ∈ known ↔ name ∈ known') (t : TypeExpr) :
    t.hasDefault known = t.hasDefault known' := by
  rw [Bool.eq_iff_iff]
  exact ⟨hasDefault_mono fun name => (h name).1, hasDefault_mono fun name => (h name).2⟩

/-- Names of records that are closed under the rule: a record whose fields all have a default by them
is one of them. -/
def DefaultClosed (records : List Record) (known : List String) : Prop :=
  ∀ r ∈ records, (∀ f ∈ r.fields, f.type.hasDefault known = true) → r.name ∈ known

/-! ## Rounds -/

theorem addDefaultable_cons (r : Record) (rs : List Record) (known : List String) :
    addDefaultable (r :: rs) known = addDefaultable rs
      (if known.contains r.name then known
      else if r.fields.all fun f => f.type.hasDefault known then r.name :: known
      else known) :=
  List.foldl_cons ..

theorem length_le_addDefaultable (records : List Record) (known : List String) :
    known.length ≤ (addDefaultable records known).length := by
  induction records generalizing known with
  | nil => exact Nat.le_refl _
  | cons r rs ih =>
    rw [addDefaultable_cons]
    refine Nat.le_trans ?_ (ih _)
    split
    · exact Nat.le_refl _
    · split
      · exact Nat.le_succ _
      · exact Nat.le_refl _

/-- Where a round adds nothing, nothing could be added. -/
theorem defaultClosed_of_length_eq {records : List Record} {known : List String}
    (h : (addDefaultable records known).length = known.length) : DefaultClosed records known := by
  induction records with
  | nil => exact nofun
  | cons r rs ih =>
    rw [addDefaultable_cons] at h
    split at h
    next hknown =>
      refine List.forall_mem_cons.2 ⟨fun _ => List.contains_iff_mem.1 hknown, ih h⟩
    next =>
      split at h
      next =>
        have hle := length_le_addDefaultable rs (r.name :: known)
        rw [h, List.length_cons] at hle
        omega
      next hfields =>
        refine List.forall_mem_cons.2 ⟨fun hall => absurd ?_ hfields, ih h⟩
        exact List.all_eq_true.2 hall

/-- After as many rounds as there are records left, and one more, nothing can be added. -/
theorem Grown.defaultClosed_growDefaultable {records : List Record} {known : List String}
    (h : Grown records known) {n : Nat} (hn : records.length < known.length + n) :
    DefaultClosed records (WireSchema.growDefaultable records n known) := by
  induction n generalizing known with
  | zero => exact absurd h.length_le (Nat.not_le.2 hn)
  | succ n ih =>
    unfold WireSchema.growDefaultable
    extract_lets more
    split
    next hlen => exact defaultClosed_of_length_eq hlen
    next hlen =>
      have hle : known.length ≤ more.length := length_le_addDefaultable records known
      exact ih (h.foldl_addDefaultable (List.Subset.refl _)) (by omega)

theorem defaultClosed_defaultable (records : List Record) :
    DefaultClosed records (defaultable records) :=
  Grown.nil.defaultClosed_growDefaultable (by rw [List.length_nil]; omega)

/-! ## The least closed names -/

/-- What is found by the rule is among all names that are closed under it. -/
theorem Grown.subset_of_defaultClosed {records : List Record} {known known' : List String}
    (h : Grown records known) (h' : DefaultClosed records known') : known ⊆ known' := by
  induction h with
  | nil => exact List.nil_subset _
  | cons _ hr _ hfields ih =>
    refine List.cons_subset.2 ⟨h' _ hr fun f hf => ?_, ih⟩
    exact TypeExpr.hasDefault_mono ih (hfields f hf)

/-- Which records have a default depends on which records there are. -/
theorem mem_defaultable_congr {records records' : List Record}
    (h : ∀ r, r ∈ records ↔ r ∈ records') (name : String) :
    name ∈ defaultable records ↔ name ∈ defaultable records' := by
  have hclosed : DefaultClosed records (defaultable records') := fun r hr =>
    defaultClosed_defaultable records' r ((h r).1 hr)
  have hclosed' : DefaultClosed records' (defaultable records) := fun r hr =>
    defaultClosed_defaultable records r ((h r).2 hr)
  exact ⟨fun hname => (Grown.of_defaultable records).subset_of_defaultClosed hclosed hname,
    fun hname => (Grown.of_defaultable records').subset_of_defaultClosed hclosed' hname⟩

end WireSchema
