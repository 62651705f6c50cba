import WireSchema.Proofs.Layout.Closure
import WireSchema.Proofs.Layout.Mirroring
import WireSchema.Proofs.Schema.Passing

/-!
# Declarations in another order

Checks and resolution go through the declarations one by one, and look at one declaration at a time
but for the names of all of them and the names of the records with a default. Neither depends on the
order in which the declarations stand. So a schema and a rearranged one are accepted alike, and their
layouts consist of the same parts.
-/

namespace WireSchema

/-! ## Checking -/

/-- The same declarations, records and unions each in another order. -/
structure Schema.Permuted (s s' : Schema) : Prop where
  records : s'.records.Perm s.records
  unions : s'.unions.Perm s.unions

namespace Schema.Permuted

variable {s s' : Schema} (h : s.Permuted s')
include h

theorem symm : s'.Permuted s := ⟨h.records.symm, h.unions.symm⟩

theorem names : s'.names.Perm s.names := by
  simp only [Schema.names, Schema.declaredNames, List.map_append, List.map_map]
  exact (h.records.map _).append (h.unions.map _)

theorem wellFormed (hs : s.WellFormed) : s'.WellFormed := by
  have hnames : ∀ name, name ∈ s.names ↔ name ∈ s'.names := fun _ => h.names.symm.mem_iff
  refine ⟨h.names.nodup_iff.2 hs.distinct, fun name hname => ?_, fun r hr => ?_, fun u hu => ?_⟩
  · exact hs.free name ((hnames name).2 hname)
  · exact (hs.records r (h.records.mem_iff.1 hr)).congr hnames
  · have hwf := hs.unions u (h.unions.mem_iff.1 hu)
    exact ⟨hwf.distinct, hwf.free, fun v hv => (hwf.fields v hv).congr hnames⟩

end Schema.Permuted

/-! ## Resolving -/

namespace RecordLayout

theorem checkIgnored_congr {known known' : List String} (h : ∀ name, name ∈ known ↔ name ∈ known')
    (fields : List FieldLayout) : checkIgnored known fields = checkIgnored known' fields := by
  induction fields with
  | nil => rfl
  | cons f fs ih => rw [checkIgnored, checkIgnored, TypeExpr.hasDefault_congr h, ih]

/-- Of the records with a default, it matters to a record which there are. -/
theorem ofRecord_congr {known known' : List String} (h : ∀ name, name ∈ known ↔ name ∈ known')
    (r : Record) : ofRecord known r = ofRecord known' r := by
  have hcontains : known.contains r.name = known'.contains r.name := by
    rw [Bool.eq_iff_iff, List.contains_iff_mem, List.contains_iff_mem, h]
  simp only [ofRecord, checkIgnored_congr h, hcontains]

end RecordLayout

namespace Layout

/-- A schema with its declarations in another order has the same layout, in another order. -/
theorem exists_ofSchema_of_permuted {s s' : Schema} (h : s.Permuted s') {S : Layout}
    (hS : ofSchema s = .ok S) :
    ∃ S', ofSchema s' = .ok S' ∧ S'.records.Perm S.records ∧ S'.unions.Perm S.unions := by
  obtain ⟨records, hrecords, hS⟩ := exists_of_bind_eq_ok hS
  obtain ⟨unions, hunions, hS⟩ := exists_of_bind_eq_ok hS
  cases hS
  have hknown := mem_defaultable_congr fun r => (h.records.symm.mem_iff (a := r))
  rw [funext (RecordLayout.ofRecord_congr hknown)] at hrecords
  obtain ⟨records', hrecords', hrperm⟩ := exists_mapM_of_perm h.records.symm hrecords
  obtain ⟨unions', hunions', huperm⟩ := exists_mapM_of_perm h.unions.symm hunions
  exact ⟨⟨records', unions'⟩, bind_eq_ok hrecords' (bind_eq_ok hunions' rfl), hrperm.symm,
    huperm.symm⟩

/-- Among distinct keys, what is found by a key is the same in any order. -/
theorem find?_key_of_perm {α β : Type} [DecidableEq β] {key : α → β} {l l' : List α}
    (h : l'.Perm l) (hdistinct : (l.map key).Nodup) (b : β) :
    l'.find? (fun x => key x = b) = l.find? (fun x => key x = b) := by
  have hdistinct' : (l'.map key).Nodup := (h.map key).nodup_iff.2 hdistinct
  cases hfind : l.find? (fun x => key x = b) with
  | none =>
    rw [List.find?_eq_none] at hfind ⊢
    exact fun x hx => hfind x (h.mem_iff.1 hx)
  | some a =>
    obtain ⟨ha, rfl⟩ := mem_of_find?_key hfind
    exact find?_eq_of_nodup hdistinct' (h.mem_iff.2 ha)

/-- The order of declarations does not matter. A schema is accepted with its records and its unions
in any order, or in none, and so it has a layout in any order, or in none. The layout consists of the
same records, each with the same attributes, field order and default, and of the same unions, each
with the same attributes, width and tags. If the schema is accepted, each is known by its name. -/
theorem ofSchema_of_perm {s s' : Schema} (hrecords : s'.records.Perm s.records)
    (hunions : s'.unions.Perm s.unions) :
    (s.check = .ok () ↔ s'.check = .ok ()) ∧
    ((∃ S, ofSchema s = .ok S) ↔ ∃ S', ofSchema s' = .ok S') ∧
    ∀ S S', ofSchema s = .ok S → ofSchema s' = .ok S' →
      S'.records.Perm S.records ∧ S'.unions.Perm S.unions ∧
        (s.check = .ok () →
          ∀ name, S'.record? name = S.record? name ∧ S'.union? name = S.union? name) := by
  have h : s.Permuted s' := ⟨hrecords, hunions⟩
  refine ⟨?_, ⟨fun ⟨S, hS⟩ => ?_, fun ⟨S', hS'⟩ => ?_⟩, fun S S' hS hS' => ?_⟩
  · rw [Schema.check_eq_ok_iff, Schema.check_eq_ok_iff]
    exact ⟨h.wellFormed, h.symm.wellFormed⟩
  · obtain ⟨S', hS', -⟩ := exists_ofSchema_of_permuted h hS
    exact ⟨S', hS'⟩
  · obtain ⟨S, hS, -⟩ := exists_ofSchema_of_permuted h.symm hS'
    exact ⟨S, hS⟩
  · obtain ⟨S'', hS'', hrperm, huperm⟩ := exists_ofSchema_of_permuted h hS
    obtain rfl := Except.ok.inj (hS'.symm.trans hS'')
    refine ⟨hrperm, huperm, fun hcheck name => ?_⟩
    have hdistinct := (Schema.wellFormed_of_check hcheck).distinct
    rw [← (resolves_of_ofSchema hS).names_eq, names, List.nodup_append] at hdistinct
    exact ⟨find?_key_of_perm hrperm hdistinct.1 name, find?_key_of_perm huperm hdistinct.2.1 name⟩

/-- A record with an ignored field of a type that is declared behind it, or else in front of it. -/
theorem ofSchema_of_perm_of_forward_reference :
    let ignored : AnnotationBlock := ⟨"codec", [.flag "ignore" .start], .start⟩
    let a : Record :=
      ⟨"A", .named, [⟨some "b", 0, .array (.named "B") 2, [ignored], .start⟩], [], .start⟩
    let b : Record := ⟨"B", .tuple, [⟨none, 0, .applied "list" [.named "U"], [], .start⟩], [], .start⟩
    let u : Union := ⟨"U", [⟨"V", .tuple, [⟨none, 0, .named "A", [], .start⟩], some "3", [], .start⟩],
      [], .start⟩
    let w : Union := ⟨"W", [⟨"V", .unit, [], some "0", [], .start⟩], [], .start⟩
    let s : Schema := ⟨[a, b], [u, w]⟩
    let s' : Schema := ⟨[b, a], [w, u]⟩
    s.check = .ok () ∧ s'.check = .ok () ∧ ∃ S S', ofSchema s = .ok S ∧ ofSchema s' = .ok S' ∧
      S'.records.Perm S.records ∧ S'.unions.Perm S.unions ∧
        ∀ name, S'.record? name = S.record? name ∧ S'.union? name = S.union? name := by
  intro ignored a b u w s s'
  have hrecords : s'.records.Perm s.records := .swap a b []
  have hunions : s'.unions.Perm s.unions := .swap u w []
  obtain ⟨hcheck, hlayout, hsame⟩ := ofSchema_of_perm hrecords hunions
  have hs : s.check = .ok () := by decide +kernel
  have hsome : (ofSchema s).toOption.isSome := by decide +kernel
  obtain ⟨S, hS⟩ : ∃ S, ofSchema s = .ok S := by
    cases hS : ofSchema s with
    | ok S => exact ⟨S, rfl⟩
    | error e =>
      rw [hS] at hsome
      cases hsome
  obtain ⟨S', hS'⟩ := hlayout.1 ⟨S, hS⟩
  obtain ⟨hrecords, hunions, hnames⟩ := hsame S S' hS hS'
  exact ⟨hs, hcheck.1 hs, S, S', hS, hS', hrecords, hunions, hnames hs⟩

end Layout

end WireSchema
