import Mathlib.Data.List.Nodup
import WireSchema.Proofs.Layout.Rewriting
import WireSchema.Proofs.Wire.Alike

/-!
# The order of fields that are numbered otherwise

Fields are sorted by their numbers, and those without one by their positions. Other numbers in the
same order of size sort them in the same way. Where all fields have a number, and these are distinct,
it does not matter in which order the fields are declared.
-/

namespace WireSchema

/-! ## Numbers -/

/-- Of members with distinct numbers, those with the same number are the same. -/
theorem eq_of_nodup_filterMap {α β : Type} {f : α → Option β} {as : List α}
    (h : (as.filterMap f).Nodup) {a b : α} (ha : a ∈ as) (hb : b ∈ as) {n : β} (hfa : f a = some n)
    (hfb : f b = some n) : a = b := by
  rw [List.nodup_iff_pairwise_ne, List.pairwise_filterMap] at h
  let R (x y : α) := ∀ m, f x = some m → ∀ n, f y = some n → m ≠ n
  have hsymm : Std.Symm R := ⟨fun x y hxy m hm n hn => (hxy n hn m hm).symm⟩
  by_contra hab
  exact List.Pairwise.forall (R := R) h ha hb hab n hfa n hfb rfl

namespace FieldLayout

/-- The numbers of the fields that have one. -/
def numbers (fields : List FieldLayout) : List Int := fields.filterMap fun l => l.attributes.orderNo

end FieldLayout

open FieldLayout (numbers)

theorem checkNumbers_eq_ok_iff {claimed : List (Int × FieldLayout)} {fields : List FieldLayout} :
    checkNumbers claimed fields = .ok () ↔
      (∀ n ∈ numbers fields, n ∉ claimed.map Prod.fst) ∧ (numbers fields).Nodup := by
  induction fields generalizing claimed with
  | nil => simp [checkNumbers, numbers, pure, Except.pure]
  | cons f fs ih =>
    rw [checkNumbers]
    cases hn : f.attributes.orderNo with
    | none =>
      have hnumbers : numbers (f :: fs) = numbers fs := List.filterMap_cons_none hn
      rw [hnumbers]
      exact ih
    | some n =>
      have hnumbers : numbers (f :: fs) = n :: numbers fs := List.filterMap_cons_some hn
      rw [hnumbers, List.forall_mem_cons, List.nodup_cons]
      dsimp only
      cases hfind : claimed.find? (·.1 = n) with
      | some c =>
        obtain ⟨hc, hcn⟩ := mem_of_find?_key hfind
        have hmem : n ∈ claimed.map Prod.fst := hcn ▸ List.mem_map_of_mem hc
        exact ⟨nofun, fun h => absurd hmem h.1.1⟩
      | none =>
        have hnew : n ∉ claimed.map Prod.fst := by
          intro hmem
          obtain ⟨c, hc, hcn⟩ := List.mem_map.1 hmem
          exact List.find?_eq_none.1 hfind c hc (decide_eq_true hcn)
        dsimp only
        rw [ih]
        simp only [List.map_cons, List.mem_cons, not_or]
        grind


/-! ## Sorting -/

namespace FieldLayout

theorem le_trans (a b c : FieldLayout) (hab : a.le b = true) (hbc : b.le c = true) :
    a.le c = true := by
  simp only [le, Bool.or_eq_true, Bool.and_eq_true, decide_eq_true_eq] at hab hbc ⊢
  omega

theorem le_total (a b : FieldLayout) : (a.le b || b.le a) = true := by
  simp only [le, Bool.or_eq_true, Bool.and_eq_true, decide_eq_true_eq]
  omega

theorem eq_of_le_of_le {a b : FieldLayout} (ha : a.attributes.orderNo.isSome)
    (hb : b.attributes.orderNo.isSome) (hab : a.le b = true) (hba : b.le a = true) :
    a.attributes.orderNo = b.attributes.orderNo := by
  obtain ⟨m, hm⟩ := Option.isSome_iff_exists.1 ha
  obtain ⟨n, hn⟩ := Option.isSome_iff_exists.1 hb
  simp only [le, rank, hm, hn, Bool.or_eq_true, Bool.and_eq_true, decide_eq_true_eq] at hab hba
  rw [hm, hn, Option.some.injEq]
  omega

/-- The order of fields that all have numbers of their own does not depend on where they stand. -/
theorem mergeSort_eq_of_perm {fields fields' : List FieldLayout} (h : fields'.Perm fields)
    (hnumbered : ∀ l ∈ fields, l.attributes.orderNo.isSome) (hdistinct : (numbers fields).Nodup) :
    fields'.mergeSort le = fields.mergeSort le := by
  have hperm := List.mergeSort_perm fields le
  have hperm' := (List.mergeSort_perm fields' le).trans h
  refine List.Perm.eq_of_pairwise (fun a b ha hb hab hba => ?_)
    (List.pairwise_mergeSort le_trans le_total fields')
    (List.pairwise_mergeSort le_trans le_total fields) (hperm'.trans hperm.symm)
  have ha := hperm'.mem_iff.1 ha
  have hb := hperm.mem_iff.1 hb
  obtain ⟨n, hn⟩ := Option.isSome_iff_exists.1 (hnumbered b hb)
  have heq := eq_of_le_of_le (hnumbered a ha) (hnumbered b hb) hab hba
  exact eq_of_nodup_filterMap hdistinct ha hb (heq.trans hn) hn

end FieldLayout

/-! ## Other numbers -/

section

variable {used : List Nat} {g : Nat → Nat} (hg : ∀ m ∈ used, ∀ n ∈ used, m < n → g m < g n)
include hg

theorem lt_iff_of_increasing {m n : Nat} (hm : m ∈ used) (hn : n ∈ used) : g m < g n ↔ m < n := by
  have hmn := hg m hm n hn
  have hnm := hg n hn m hm
  rcases Nat.lt_trichotomy m n with h | rfl | h <;> omega

theorem FieldLayout.le_eq_of_rewritten {l m l' m' : FieldLayout}
    (hl : NumberRewritten used g l.attributes.orderNo l'.attributes.orderNo)
    (hm : NumberRewritten used g m.attributes.orderNo m'.attributes.orderNo)
    (hindex : l.attributes.orderNo = m.attributes.orderNo →
      (l.field.index ≤ m.field.index ↔ l'.field.index ≤ m'.field.index)) :
    l.le m = l'.le m' := by
  unfold le rank
  generalize l.attributes.orderNo = a at hl hindex
  generalize l'.attributes.orderNo = a' at hl
  generalize m.attributes.orderNo = b at hm hindex
  generalize m'.attributes.orderNo = b' at hm
  rw [Bool.eq_iff_iff]
  cases hl with
  | none =>
    cases hm with
    | none => simpa using hindex rfl
    | some hm => simp
  | some hl =>
    cases hm with
    | none => simp
    | some hm =>
      obtain ⟨i, hi, rfl, rfl⟩ := hl
      obtain ⟨j, hj, rfl, rfl⟩ := hm
      have hlt := lt_iff_of_increasing hg hi hj
      have hgt := lt_iff_of_increasing hg hj hi
      dsimp only
      simp only [Bool.or_eq_true, Bool.and_eq_true, decide_eq_true_eq, Nat.lt_irrefl, false_or,
        true_and]
      rcases Nat.lt_trichotomy i j with h | rfl | h
      · omega
      · have hindex := hindex rfl
        omega
      · omega

/-- Distinct numbers are replaced by distinct ones. -/
theorem nodup_numbers_of_rewritten {ps : List (FieldLayout × FieldLayout)}
    (hps : ∀ p ∈ ps, NumberRewritten used g p.1.attributes.orderNo p.2.attributes.orderNo)
    (h : (numbers (ps.map Prod.fst)).Nodup) : (numbers (ps.map Prod.snd)).Nodup := by
  rw [FieldLayout.numbers, List.filterMap_map, List.nodup_iff_pairwise_ne,
    List.pairwise_filterMap] at h ⊢
  refine h.imp_of_mem fun {p q} hp hq hne n' hn' m' hm' heq => ?_
  have hp := hps p hp
  have hq := hps q hq
  rw [show p.2.attributes.orderNo = some n' from hn'] at hp
  rw [show q.2.attributes.orderNo = some m' from hm'] at hq
  obtain ⟨n, hn, hpn, rfl⟩ := hp.exists_of_some
  obtain ⟨m, hm, hqm, rfl⟩ := hq.exists_of_some
  have hlt := lt_iff_of_increasing hg hn hm
  have hgt := lt_iff_of_increasing hg hm hn
  have hne := hne _ hpn _ hqm
  omega

/-- Fields side by side are put in corresponding orders, if they stand in the same places or all have
numbers. -/
theorem orderFields_succeeds {free : Bool} {ps : List (FieldLayout × FieldLayout)}
    {fields' : List FieldLayout} (hlisted : Listed free fields' (ps.map Prod.snd))
    (hps : ∀ p ∈ ps, NumberRewritten used g p.1.attributes.orderNo p.2.attributes.orderNo)
    (hplaces : fields' = ps.map Prod.snd ∧ (∀ p ∈ ps, p.2.field.index = p.1.field.index) ∨
      ∀ p ∈ ps, p.1.attributes.orderNo.isSome) :
    Succeeds (fun order order' => ∃ qs : List (FieldLayout × FieldLayout), qs.Perm ps ∧
      qs.map Prod.fst = order ∧ qs.map Prod.snd = order') (orderFields (ps.map Prod.fst))
      (orderFields fields') := by
  intro order horder
  obtain ⟨_, hnumbers, horder⟩ := exists_of_bind_eq_ok horder
  cases horder
  have hdistinct := (checkNumbers_eq_ok_iff.1 hnumbers).2
  have hdistinct' := nodup_numbers_of_rewritten hg hps hdistinct
  have hnumbers' : checkNumbers [] fields' = .ok () := by
    refine checkNumbers_eq_ok_iff.2 ⟨fun _ _ => List.not_mem_nil, ?_⟩
    exact (hlisted.perm.filterMap _).nodup_iff.2 hdistinct'
  have hsorted : fields'.mergeSort FieldLayout.le = (ps.map Prod.snd).mergeSort FieldLayout.le := by
    rcases hplaces with ⟨rfl, -⟩ | hnumbered
    · rfl
    · refine FieldLayout.mergeSort_eq_of_perm hlisted.perm (List.forall_mem_map.2 fun p hp => ?_)
        hdistinct'
      rw [(hps p hp).isSome_eq]
      exact hnumbered p hp
  have hle : ∀ p ∈ ps, ∀ q ∈ ps, p.1.le q.1 = p.2.le q.2 := by
    intro p hp q hq
    refine FieldLayout.le_eq_of_rewritten hg (hps p hp) (hps q hq) fun heq => ?_
    rcases hplaces with ⟨-, hindex⟩ | hnumbered
    · rw [hindex p hp, hindex q hq]
    · obtain ⟨n, hn⟩ := Option.isSome_iff_exists.1 (hnumbered q hq)
      rw [FieldLayout.numbers, List.filterMap_map] at hdistinct
      obtain rfl := eq_of_nodup_filterMap hdistinct hp hq (heq.trans hn) hn
      exact iff_of_true (Nat.le_refl _) (Nat.le_refl _)
  refine ⟨(ps.map Prod.snd).mergeSort FieldLayout.le, ?_, ps.mergeSort fun p q => p.1.le q.1,
    List.mergeSort_perm _ _, ?_, ?_⟩
  · rw [orderFields, hnumbers', hsorted]
    rfl
  · exact List.map_mergeSort fun _ _ _ _ => rfl
  · exact List.map_mergeSort hle

end

end WireSchema
