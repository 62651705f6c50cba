import WireSchema.Proofs.Layout.Ordering

/-!
# The order of the wire

Fields of one record stand in different positions. So where no two of them have the same number, any
two stand in a strict order, and there is one way to arrange them by it, from wherever one starts.
Otherwise there is a first field that has the number of an earlier one. As the fields in front of it
have numbers of their own, the earlier one is the only one that it can have the number of.
-/

namespace WireSchema

namespace FieldLayout

/-- The fields that have a number, with their numbers. -/
def claims (fields : List FieldLayout) : List (Int × FieldLayout) :=
  fields.filterMap fun f => f.attributes.orderNo.map fun n => (n, f)

theorem mem_claims {fields : List FieldLayout} {c : Int × FieldLayout} :
    c ∈ claims fields ↔ c.2 ∈ fields ∧ c.2.attributes.orderNo = some c.1 := by
  simp only [claims, List.mem_filterMap, Option.map_eq_some_iff]
  constructor
  · rintro ⟨f, hf, n, hn, rfl⟩
    exact ⟨hf, hn⟩
  · rintro ⟨hf, hn⟩
    exact ⟨c.2, hf, c.1, hn, rfl⟩

/-- One field stands in front of another on the wire. -/
inductive Before (f g : FieldLayout) : Prop
  | numbers {m n : Int} :
    f.attributes.orderNo = some m → g.attributes.orderNo = some n → m < n → Before f g
  | numbered {n : Int} :
    f.attributes.orderNo = some n → g.attributes.orderNo = none → Before f g
  | positions :
    f.attributes.orderNo = none → g.attributes.orderNo = none → f.field.index < g.field.index →
      Before f g

/-- The first field whose number `n` an earlier field has is `f`, and the earlier one is `g`. -/
def FirstShared (fields : List FieldLayout) (g f : FieldLayout) (n : Int) : Prop :=
  ∃ front back, fields = front ++ f :: back ∧ (numbers front).Nodup ∧ g ∈ front ∧
    g.attributes.orderNo = some n ∧ f.attributes.orderNo = some n

end FieldLayout

open FieldLayout (numbers claims Before FirstShared)

/-! ## Shared numbers -/

theorem FieldLayout.map_fst_claims (fields : List FieldLayout) :
    (claims fields).map Prod.fst = numbers fields := by
  rw [claims, List.map_filterMap, numbers]
  refine congrArg (List.filterMap · fields) (funext fun f => ?_)
  rw [Option.map_map]
  exact Option.map_id'

theorem numbers_append (fs gs : List FieldLayout) : numbers (fs ++ gs) = numbers fs ++ numbers gs :=
  List.filterMap_append

/-- Fields that pass the check leave their claims to those behind them. -/
theorem checkNumbers_append {claimed : List (Int × FieldLayout)} {front : List FieldLayout}
    (h : checkNumbers claimed front = .ok ()) (fs : List FieldLayout) :
    checkNumbers claimed (front ++ fs) = checkNumbers ((claims front).reverse ++ claimed) fs := by
  induction front generalizing claimed with
  | nil => rfl
  | cons f front ih =>
    cases hf : f.attributes.orderNo with
    | none =>
      have hclaims : claims (f :: front) = claims front :=
        List.filterMap_cons_none (by rw [hf, Option.map_none])
      rw [checkNumbers, hf] at h
      rw [List.cons_append, checkNumbers, hf, hclaims]
      exact ih h
    | some n =>
      have hclaims : claims (f :: front) = (n, f) :: claims front :=
        List.filterMap_cons_some (by rw [hf, Option.map_some])
      cases hfind : claimed.find? (·.1 = n) with
      | some c => simp only [checkNumbers, hf, hfind, unresolved, reduceCtorEq] at h
      | none =>
        simp only [checkNumbers, hf, hfind] at h
        rw [hclaims, List.reverse_cons, List.append_assoc, List.singleton_append, ← ih h]
        simp only [List.cons_append, checkNumbers, hf, hfind]

/-- The check fails at the first field with a number that is claimed. -/
theorem FieldLayout.FirstShared.checkNumbers_eq {fields : List FieldLayout} {f g : FieldLayout}
    {n : Int} (h : FirstShared fields g f n) :
    checkNumbers [] fields =
      .error ⟨.sharedOrder g.field.ident f.field.ident n, f.field.location⟩ := by
  obtain ⟨front, back, rfl, hdistinct, hg, hgn, hfn⟩ := h
  have hfront : checkNumbers [] front = .ok () :=
    checkNumbers_eq_ok_iff.2 ⟨fun _ _ => List.not_mem_nil, hdistinct⟩
  have hkeys : ((claims front).reverse.map Prod.fst).Nodup := by
    rw [List.map_reverse, List.nodup_reverse, map_fst_claims]
    exact hdistinct
  have hmem : (n, g) ∈ (claims front).reverse := List.mem_reverse.2 (mem_claims.2 ⟨hg, hgn⟩)
  have hfind := find?_eq_of_nodup hkeys hmem
  rw [checkNumbers_append hfront, List.append_nil]
  simp only [checkNumbers, hfn, hfind]
  rfl

/-- Where numbers are not distinct, one field is the first that has the number of an earlier one. -/
theorem FieldLayout.exists_firstShared {fields : List FieldLayout} (h : ¬ (numbers fields).Nodup) :
    ∃ g f n, FirstShared fields g f n := by
  induction fields using List.reverseRecOn with
  | nil => exact absurd List.nodup_nil h
  | append_singleton front f ih =>
    by_cases hfront : (numbers front).Nodup
    · cases hf : f.attributes.orderNo with
      | none =>
        have hlast : numbers [f] = [] := List.filterMap_cons_none hf
        rw [numbers_append, hlast, List.append_nil] at h
        exact absurd hfront h
      | some n =>
        have hlast : numbers [f] = [n] := List.filterMap_cons_some hf
        rw [numbers_append, hlast, List.nodup_append_comm, List.singleton_append, List.nodup_cons,
          not_and'] at h
        obtain ⟨g, hg, hgn⟩ := List.mem_filterMap.1 (not_not.1 (h hfront))
        exact ⟨g, f, n, front, [], rfl, hfront, hg, hgn, hf⟩
    · obtain ⟨g, f', n, front', back, rfl, hrest⟩ := ih hfront
      exact ⟨g, f', n, front', back ++ [f], by simp, hrest⟩

theorem orderFields_eq_error_iff {fields : List FieldLayout} {e : LayoutError} :
    orderFields fields = .error e ↔ ∃ g f n, FirstShared fields g f n ∧
      e = ⟨.sharedOrder g.field.ident f.field.ident n, f.field.location⟩ := by
  constructor
  · intro h
    have hnot : ¬ (numbers fields).Nodup := by
      intro hdistinct
      rw [orderFields, checkNumbers_eq_ok_iff.2 ⟨fun _ _ => List.not_mem_nil, hdistinct⟩] at h
      cases h
    obtain ⟨g, f, n, hshared⟩ := FieldLayout.exists_firstShared hnot
    rw [orderFields, hshared.checkNumbers_eq] at h
    exact ⟨g, f, n, hshared, (Except.error.inj h).symm⟩
  · rintro ⟨g, f, n, hshared, rfl⟩
    rw [orderFields, hshared.checkNumbers_eq]
    rfl

/-- Numbers are shared by fields in two places, or they are distinct. -/
theorem not_nodup_numbers_iff {fields : List FieldLayout} :
    ¬ (numbers fields).Nodup ↔ ∃ (i j : Nat) (g f : FieldLayout) (n : Int), i < j ∧
      fields[i]? = some g ∧ fields[j]? = some f ∧ g.attributes.orderNo = some n ∧
        f.attributes.orderNo = some n := by
  constructor
  · intro h
    obtain ⟨g, f, n, front, back, rfl, -, hg, hgn, hfn⟩ := FieldLayout.exists_firstShared h
    obtain ⟨i, hi, rfl⟩ := List.getElem_of_mem hg
    refine ⟨i, front.length, front[i], f, n, hi, ?_, ?_, hgn, hfn⟩
    · rw [List.getElem?_append_left hi, List.getElem?_eq_getElem hi]
    · rw [List.getElem?_append_right (Nat.le_refl _), Nat.sub_self, List.getElem?_cons_zero]
  · rintro ⟨i, j, g, f, n, hij, hi, hj, hgn, hfn⟩ h
    rw [numbers, List.nodup_iff_pairwise_ne, List.pairwise_filterMap] at h
    obtain ⟨hi', rfl⟩ := List.getElem?_eq_some_iff.1 hi
    obtain ⟨hj', rfl⟩ := List.getElem?_eq_some_iff.1 hj
    exact List.pairwise_iff_getElem.1 h i j hi' hj' hij n hgn n hfn rfl

theorem exists_orderFields_eq_error_iff {fields : List FieldLayout} :
    (∃ e, orderFields fields = .error e) ↔ ¬ (numbers fields).Nodup := by
  constructor
  · rintro ⟨e, he⟩
    obtain ⟨g, f, n, ⟨front, back, rfl, -, hg, hgn, hfn⟩, -⟩ := orderFields_eq_error_iff.1 he
    rw [numbers_append, List.nodup_append]
    rintro ⟨-, -, hapart⟩
    have hfirst : n ∈ numbers (f :: back) := List.mem_filterMap.2 ⟨f, .head _, hfn⟩
    exact hapart n (List.mem_filterMap.2 ⟨g, hg, hgn⟩) n hfirst rfl
  · intro h
    obtain ⟨g, f, n, hshared⟩ := FieldLayout.exists_firstShared h
    exact ⟨_, orderFields_eq_error_iff.2 ⟨g, f, n, hshared, rfl⟩⟩

/-! ## Sorting by positions -/

namespace FieldLayout

/-- Numbers are compared first, and positions where there are none or where they are equal. -/
theorem le_iff {f g : FieldLayout} :
    f.le g = true ↔
      match f.attributes.orderNo, g.attributes.orderNo with
      | some m, some n => m < n ∨ m = n ∧ f.field.index ≤ g.field.index
      | some _, none => True
      | none, some _ => False
      | none, none => f.field.index ≤ g.field.index := by
  unfold le rank
  generalize f.attributes.orderNo = a
  generalize g.attributes.orderNo = b
  cases a <;> cases b <;> simp

theorem Before.le {f g : FieldLayout} (h : f.Before g) : f.le g = true := by
  rw [le_iff]
  cases h with
  | numbers hf hg hlt =>
    rw [hf, hg]
    exact .inl hlt
  | numbered hf hg =>
    rw [hf, hg]
    trivial
  | positions hf hg hlt =>
    rw [hf, hg]
    exact Nat.le_of_lt hlt

/-- Fields in different positions and with different numbers are in a strict order. -/
theorem before_of_le {f g : FieldLayout} (h : f.le g = true)
    (hindex : f.field.index ≠ g.field.index)
    (hnumber : ∀ m, f.attributes.orderNo = some m → ∀ n, g.attributes.orderNo = some n → m ≠ n) :
    f.Before g := by
  rw [le_iff] at h
  cases hf : f.attributes.orderNo with
  | some m =>
    cases hg : g.attributes.orderNo with
    | some n =>
      rw [hf, hg] at h
      exact .numbers hf hg (h.resolve_right fun heq => hnumber m hf n hg heq.1)
    | none => exact .numbered hf hg
  | none =>
    cases hg : g.attributes.orderNo with
    | some n =>
      rw [hf, hg] at h
      exact h.elim
    | none =>
      rw [hf, hg] at h
      exact .positions hf hg (Nat.lt_of_le_of_ne h hindex)

theorem index_eq_of_le_of_le {f g : FieldLayout} (h : f.le g = true) (h' : g.le f = true) :
    f.field.index = g.field.index := by
  rw [le_iff] at h h'
  cases hf : f.attributes.orderNo <;> cases hg : g.attributes.orderNo <;>
    simp only [hf, hg] at h h' <;> omega

theorem nodup_numbers_of_pairwise_before {fields : List FieldLayout}
    (h : fields.Pairwise Before) : (numbers fields).Nodup := by
  rw [numbers, List.nodup_iff_pairwise_ne, List.pairwise_filterMap]
  refine h.imp fun hbefore m hm n hn => ?_
  cases hbefore with
  | numbers hf hg hlt =>
    cases hm.symm.trans hf
    cases hn.symm.trans hg
    exact Int.ne_of_lt hlt
  | numbered _ hg => cases hn.symm.trans hg
  | positions hf => cases hm.symm.trans hf

theorem pairwise_before_of_pairwise_le {fields : List FieldLayout}
    (hindexes : (fields.map fun f => f.field.index).Nodup) (hnumbers : (numbers fields).Nodup)
    (h : fields.Pairwise fun f g => f.le g = true) : fields.Pairwise Before := by
  rw [List.nodup_iff_pairwise_ne, List.pairwise_map] at hindexes
  rw [numbers, List.nodup_iff_pairwise_ne, List.pairwise_filterMap] at hnumbers
  exact (h.and (hindexes.and hnumbers)).imp fun hboth =>
    before_of_le hboth.1 hboth.2.1 hboth.2.2

end FieldLayout

/-- The order of fields in different positions is the one arrangement of them in which each stands
before those behind it. -/
theorem orderFields_eq_ok_iff {fields : List FieldLayout}
    (hindexes : (fields.map fun f => f.field.index).Nodup) {order : List FieldLayout} :
    orderFields fields = .ok order ↔ order.Perm fields ∧ order.Pairwise Before := by
  have hsorted := List.pairwise_mergeSort FieldLayout.le_trans FieldLayout.le_total fields
  have hperm := List.mergeSort_perm fields FieldLayout.le
  constructor
  · intro h
    obtain ⟨_, hnumbers, h⟩ := exists_of_bind_eq_ok h
    cases h
    refine ⟨hperm, FieldLayout.pairwise_before_of_pairwise_le ?_ ?_ hsorted⟩
    · exact (hperm.map _).nodup_iff.2 hindexes
    · exact (hperm.filterMap _).nodup_iff.2 (checkNumbers_eq_ok_iff.1 hnumbers).2
  · rintro ⟨horder, hbefore⟩
    have hnumbers : checkNumbers [] fields = .ok () := by
      refine checkNumbers_eq_ok_iff.2 ⟨fun _ _ => List.not_mem_nil, ?_⟩
      exact (horder.filterMap _).nodup_iff.1 (FieldLayout.nodup_numbers_of_pairwise_before hbefore)
    have heq : fields.mergeSort FieldLayout.le = order := by
      refine List.Perm.eq_of_pairwise (fun f g hf hg hle hle' => ?_) hsorted
        (hbefore.imp FieldLayout.Before.le) (hperm.trans horder.symm)
      exact List.inj_on_of_nodup_map hindexes (hperm.mem_iff.1 hf) (horder.mem_iff.1 hg)
        (FieldLayout.index_eq_of_le_of_le hle hle')
    rw [orderFields, hnumbers, heq]
    rfl

/-- The order of a record's fields on the wire. It fails where two fields have the same number, and
then at the first field that has the number of an earlier one. Otherwise it has each of the fields
once, those with a number in front, by number, and then the others, by position. No other arrangement
has them so, and it does not matter how the fields were arranged before. -/
theorem orderFields_exact {fields : List FieldLayout}
    (hindexes : (fields.map fun f => f.field.index).Nodup) :
    ((∃ e, orderFields fields = .error e) ↔
      ∃ (i j : Nat) (g f : FieldLayout) (n : Int), i < j ∧ fields[i]? = some g ∧
        fields[j]? = some f ∧ g.attributes.orderNo = some n ∧ f.attributes.orderNo = some n) ∧
    (∀ e, orderFields fields = .error e ↔ ∃ g f n, FirstShared fields g f n ∧
      e = ⟨.sharedOrder g.field.ident f.field.ident n, f.field.location⟩) ∧
    (∀ order, orderFields fields = .ok order ↔ order.Perm fields ∧ order.Pairwise Before) ∧
    ∀ fields', fields'.Perm fields →
      ∀ order, orderFields fields' = .ok order ↔ orderFields fields = .ok order := by
  refine ⟨exists_orderFields_eq_error_iff.trans not_nodup_numbers_iff,
    fun e => orderFields_eq_error_iff, fun order => orderFields_eq_ok_iff hindexes,
    fun fields' hperm order => ?_⟩
  have hindexes' : (fields'.map fun f => f.field.index).Nodup :=
    (hperm.map _).nodup_iff.2 hindexes
  rw [orderFields_eq_ok_iff hindexes, orderFields_eq_ok_iff hindexes', hperm.congr_right]

/-- A field without a number in front of an ignored one and one that have numbers. -/
theorem orderFields_exact_of_ignored :
    let field (index : Nat) (a : FieldAttributes) : FieldLayout :=
      ⟨⟨none, index, .named "u8", [], .start⟩, a⟩
    let x := field 0 {}
    let y := field 1 { orderNo := some 9, ignore := true }
    let z := field 2 { orderNo := some 4 }
    ([x, y, z].map fun f => f.field.index).Nodup ∧ orderFields [x, y, z] = .ok [z, y, x] ∧
      orderFields [y, x, z] = .ok [z, y, x] := by
  intro field x y z
  have hindexes : ([x, y, z].map fun f => f.field.index).Nodup := by decide
  obtain ⟨-, -, hok, hperm⟩ := orderFields_exact hindexes
  have hbefore : [z, y, x].Pairwise Before := by
    refine .cons (List.forall_mem_cons.2 ⟨?_, List.forall_mem_singleton.2 ?_⟩)
      (.cons (List.forall_mem_singleton.2 ?_) (List.pairwise_singleton _ _))
    · exact .numbers rfl rfl (by decide)
    · exact .numbered rfl rfl
    · exact .numbered rfl rfl
  have horder := (hok [z, y, x]).2 ⟨List.reverse_perm [x, y, z], hbefore⟩
  exact ⟨hindexes, horder, (hperm [y, x, z] (.swap x y [z]) _).2 horder⟩

end WireSchema
