import WireSchema.Proofs.Layout.Tagging
import WireSchema.Proofs.Schema.Passing
import WireSchema.Proofs.Schema.Placing
import WireSchema.Schema.Grow

/-!
# Ways to write a schema otherwise

Renaming, growing and rearranging, each up to the places where things stand, are ways to write a
schema otherwise.
-/

namespace WireSchema

/-! ## Keeping all names -/

namespace Renaming

theorem fieldOf_keep (owner : String) (f : Field) : keep.fieldOf owner f = f := by
  have hname : f.name.map (keep.field owner) = f.name := Option.map_id'
  rw [fieldOf, typeExpr_keep, hname]

theorem recordOf_keep (r : Record) : keep.recordOf r = r := by
  rw [recordOf, List.map_congr_left fun f _ => fieldOf_keep r.name f, List.map_id']
  rfl

theorem variantOf_keep (union : String) (v : Variant) : keep.variantOf union v = v := by
  rw [variantOf, List.map_congr_left fun f _ => fieldOf_keep _ f, List.map_id']
  rfl

theorem unionOf_keep (u : Union) : keep.unionOf u = u := by
  rw [unionOf, List.map_congr_left fun v _ => variantOf_keep u.name v, List.map_id']
  rfl

theorem schema_keep (s : Schema) : keep.schema s = s := by
  rw [schema, List.map_congr_left fun r _ => recordOf_keep r,
    List.map_congr_left fun u _ => unionOf_keep u, List.map_id', List.map_id']

theorem keepsPositions_keep (owner : String) (fields : List Field) :
    keep.KeepsPositions owner fields := fun _ _ _ => rfl

end Renaming

/-! ## Renaming and growing -/

section

variable {ρ : Renaming} {g : Nat → Nat}

theorem Field.rewrittenAs_of_unplaced {owner : String} {f f' : Field}
    (h : f'.unplaced = (ρ.fieldOf owner f).unplaced)
    (hkeeps : f.name = none → ρ.field owner f.ident = f.ident) :
    f.RewrittenAs ρ id owner f' ∧ f'.index = f.index := by
  obtain ⟨hname, hindex, htype, hannotations, -⟩ := Field.mk.inj h
  refine ⟨⟨?_, htype, blocksRewritten_id.2 hannotations⟩, hindex⟩
  cases hf : f.name with
  | none =>
    rw [Field.ident_of_unnamed (by rw [hname, Renaming.fieldOf, hf]; rfl), hkeeps hf,
      Field.ident_of_unnamed hf, hindex]
    rfl
  | some name =>
    rw [Field.ident_of_name (by rw [hname, Renaming.fieldOf, hf]; rfl), Field.ident_of_name hf]

theorem forall₂_rewrittenAs {owner : String} {fields fields' : List Field}
    (h : fields'.map Field.unplaced = (fields.map (ρ.fieldOf owner)).map Field.unplaced)
    (hkeeps : ρ.KeepsPositions owner fields) :
    List.Forall₂ (fun f f' => f.RewrittenAs ρ id owner f' ∧ f'.index = f.index) fields fields' := by
  rw [List.map_map] at h
  refine ((List.forall₂_and_left _ _).2 ⟨hkeeps, forall₂_of_map_eq h⟩).imp fun f f' hff' => ?_
  exact Field.rewrittenAs_of_unplaced hff'.2 hff'.1

theorem Record.rewrittenAs_of_unplaced {r r' : Record} (free : Bool)
    (h : r'.unplaced = (ρ.recordOf r).unplaced) (hkeeps : ρ.KeepsPositions r.name r.fields) :
    r.RewrittenAs ρ free r' := by
  obtain ⟨hname, -, hfields, hannotations, -⟩ := Record.mk.inj h
  obtain ⟨ps, hps, hleft, hright⟩ := exists_pairs_of_forall₂ (forall₂_rewrittenAs hfields hkeeps)
  refine ⟨hname, hannotations, id, ps, fun _ _ _ _ hlt => hlt, fun _ _ hle => hle,
    fun p hp => (hps p hp).1, hleft, .of_eq hright.symm, .inl ⟨hright.symm, ?_⟩⟩
  exact fun p hp => (hps p hp).2

theorem Variant.rewrittenAs_of_unplaced {union : String} {v v' : Variant}
    (h : v'.unplaced = (ρ.variantOf union v).unplaced)
    (hkeeps : ρ.KeepsPositions (union ++ "." ++ v.name) v.fields) :
    v.RewrittenAs ρ union v' := by
  obtain ⟨hname, -, hfields, hdiscriminant, hannotations, -⟩ := Variant.mk.inj h
  exact ⟨hname, hdiscriminant, hannotations, (forall₂_rewrittenAs hfields hkeeps).imp fun _ _ h => h.1⟩

theorem Union.rewrittenAs_of_unplaced {grown : Bool} {u u' : Union} {more : List Variant}
    (h : u'.unplaced = ((ρ.unionOf u).grow more).unplaced) (hmore : grown = false → more = [])
    (hkeeps : ∀ v ∈ u.variants, ρ.KeepsPositions (u.name ++ "." ++ v.name) v.fields) :
    u.RewrittenAs ρ grown u' := by
  obtain ⟨hname, hvariants, hannotations, -⟩ := Union.mk.inj h
  change u'.variants.map Variant.unplaced =
    ((u.variants.map (ρ.variantOf u.name)) ++ more).map Variant.unplaced at hvariants
  rw [List.map_append] at hvariants
  obtain ⟨variants, more', heq, hvariants, hmore'⟩ := List.map_eq_append_iff.1 hvariants
  refine ⟨hname, hannotations, variants, more', heq, ?_, fun hgrown => ?_⟩
  · rw [List.map_map] at hvariants
    exact ((List.forall₂_and_left _ _).2 ⟨hkeeps, forall₂_of_map_eq hvariants⟩).imp
      fun v v' hvv' => Variant.rewrittenAs_of_unplaced hvv'.2 hvv'.1
  · rw [hmore hgrown] at hmore'
    exact List.map_eq_nil_iff.1 hmore'

/-- A schema that is renamed and grown, wherever it stands. -/
theorem Schema.rewrittenAs_of_unplaced {free grown : Bool} {s s' : Schema}
    {more : String → List Variant} (h : s'.unplaced = ((ρ.schema s).grow more).unplaced)
    (hmore : grown = false → more = fun _ => [])
    (hrecords : ∀ r ∈ s.records, ρ.KeepsPositions r.name r.fields)
    (hunions : ∀ u ∈ s.unions, ∀ v ∈ u.variants,
      ρ.KeepsPositions (u.name ++ "." ++ v.name) v.fields) :
    s.RewrittenAs ρ free grown s' := by
  obtain ⟨hrecords', hunions'⟩ := Schema.mk.inj h
  change s'.records.map Record.unplaced = (s.records.map ρ.recordOf).map Record.unplaced at hrecords'
  change s'.unions.map Union.unplaced =
    ((s.unions.map ρ.unionOf).map fun u => u.grow (more u.name)).map Union.unplaced at hunions'
  rw [List.map_map] at hrecords'
  rw [List.map_map, List.map_map] at hunions'
  refine ⟨?_, ?_⟩
  · exact ((List.forall₂_and_left _ _).2 ⟨hrecords, forall₂_of_map_eq hrecords'⟩).imp
      fun r r' hrr' => Record.rewrittenAs_of_unplaced free hrr'.2 hrr'.1
  · refine ((List.forall₂_and_left _ _).2 ⟨hunions, forall₂_of_map_eq hunions'⟩).imp
      fun u u' huu' => Union.rewrittenAs_of_unplaced huu'.2 (fun hgrown => ?_) huu'.1
    rw [hmore hgrown]

end

/-! ## Rearranging -/

theorem Field.rewrittenAs_of_renumber {g : Nat → Nat} {owner : String} {f f' : Field} {i : Nat}
    (h : f'.unplaced = { f.renumber g with index := i }.unplaced) (hname : f.name.isSome) :
    f.RewrittenAs .keep g owner f' := by
  obtain ⟨hname', -, htype, hannotations, -⟩ := Field.mk.inj h
  obtain ⟨name, hname⟩ := Option.isSome_iff_exists.1 hname
  refine ⟨?_, ?_, ?_⟩
  · rw [Field.ident_of_name (hname'.trans hname), Field.ident_of_name hname]
    rfl
  · rw [Renaming.typeExpr_keep]
    exact htype
  · rw [BlocksRewritten, hannotations]
    exact List.map_map

theorem forall₂_numbered {g : Nat → Nat} {owner : String} {fields fields' : List Field}
    (h : fields'.map Field.unplaced =
      (Reader.numbered (fields.map (Field.renumber g))).map Field.unplaced)
    (hnamed : ∀ f ∈ fields, f.name.isSome) :
    List.Forall₂ (Field.RewrittenAs .keep g owner) fields fields' := by
  have hlen : fields'.length = fields.length := by
    simpa [Reader.numbered] using congrArg List.length h
  refine List.forall₂_iff_get.2 ⟨hlen.symm, fun i hi hi' => ?_⟩
  have hi'' := congrArg (fun fs => fs[i]?) h
  simp only [Reader.numbered, List.getElem?_map, List.getElem?_mapIdx, List.getElem?_eq_getElem hi,
    List.getElem?_eq_getElem hi', Option.map_some, Option.some.injEq] at hi''
  exact Field.rewrittenAs_of_renumber hi'' (hnamed _ (List.getElem_mem hi))

theorem Record.Rearranged.rewrittenAs {r r₁ r' : Record} (h : r.Rearranged r₁)
    (hnumbered : ∀ f ∈ r.fields, f.IsNumbered) (h' : r'.unplaced = r₁.unplaced) :
    r.RewrittenAs .keep true r' := by
  obtain ⟨g, fields, hg, hperm, rfl⟩ := h
  obtain ⟨hname, -, hfields, hannotations, -⟩ := Record.mk.inj h'
  have hforall : List.Forall₂ (Field.RewrittenAs .keep g r.name) fields r'.fields :=
    forall₂_numbered hfields fun f hf => (hnumbered f (hperm.mem_iff.1 hf)).1
  obtain ⟨fields₁, hforall₁, hperm₁⟩ := List.perm_comp_forall₂ hperm.symm hforall
  obtain ⟨ps, hps, hleft, rfl⟩ := exists_pairs_of_forall₂ hforall₁
  exact ⟨hname, hannotations, g, ps, hg.increasing, fun n hn _ => hg.bounded n hn, hps, hleft,
    hperm₁.symm, .inr fun f hf => (hnumbered f hf).2⟩

/-- A schema in which one record is rearranged, wherever it stands. -/
theorem Schema.rewrittenAs_of_rearranged {s s' : Schema} {before after : List Record}
    {r r₁ : Record} (hs : s.records = before ++ r :: after) (h : r.Rearranged r₁)
    (hnumbered : ∀ f ∈ r.fields, f.IsNumbered)
    (hs' : s'.unplaced = { s with records := before ++ r₁ :: after }.unplaced) :
    s.RewrittenAs .keep true false s' := by
  obtain ⟨hrecords', hunions'⟩ := Schema.mk.inj hs'
  have hsame : ∀ records records' : List Record,
      records'.map Record.unplaced = records.map Record.unplaced →
        List.Forall₂ (Record.RewrittenAs .keep true) records records' := by
    intro records records' heq
    refine (forall₂_of_map_eq heq).imp fun r r' hrr' => ?_
    rw [← Renaming.recordOf_keep r] at hrr'
    exact Record.rewrittenAs_of_unplaced true hrr' (Renaming.keepsPositions_keep _ _)
  refine ⟨?_, ?_⟩
  · rw [List.map_append, List.map_cons] at hrecords'
    obtain ⟨before', rest, heq, hbefore, hrest⟩ := List.map_eq_append_iff.1 hrecords'
    obtain ⟨r', after', rfl, hr', hafter⟩ := List.map_eq_cons_iff.1 hrest
    rw [hs, heq]
    exact List.rel_append (hsame _ _ hbefore) (.cons (h.rewrittenAs hnumbered hr') (hsame _ _ hafter))
  · refine (forall₂_of_map_eq hunions').imp fun u u' huu' => ?_
    rw [← Renaming.unionOf_keep u, ← Union.grow_nil (Renaming.keep.unionOf u)] at huu'
    exact Union.rewrittenAs_of_unplaced huu' (fun _ => rfl) fun v _ =>
      Renaming.keepsPositions_keep _ _

/-- Whether fields are well-formed is not a matter of their order. -/
theorem WellFormedFields.of_perm {declared : List String} {fields fields' : List Field}
    (h : WellFormedFields declared fields)
    (hperm : (fields'.map Field.signature).Perm (fields.map Field.signature)) :
    WellFormedFields declared fields' := by
  have hexists : ∀ f' ∈ fields', ∃ f ∈ fields, f.name = f'.name ∧ f.type = f'.type := by
    intro f' hf'
    obtain ⟨f, hf, heq⟩ :=
      List.mem_map.1 (hperm.mem_iff.1 (List.mem_map_of_mem (f := Field.signature) hf'))
    exact ⟨f, hf, Prod.mk.inj heq⟩
  refine ⟨?_, fun f' hf' name hname => ?_, fun f' hf' => ?_⟩
  · have hnames := hperm.filterMap Prod.fst
    rw [List.filterMap_map, List.filterMap_map] at hnames
    exact hnames.nodup_iff.2 h.distinct
  · obtain ⟨f, hf, heq, -⟩ := hexists f' hf'
    exact h.free f hf name (heq.trans hname)
  · obtain ⟨f, hf, -, heq⟩ := hexists f' hf'
    exact heq ▸ h.types f hf

theorem Record.Rearranged.perm {r r₁ : Record} (h : r.Rearranged r₁) :
    r₁.name = r.name ∧ (r₁.fields.map Field.signature).Perm (r.fields.map Field.signature) := by
  obtain ⟨g, fields, -, hperm, rfl⟩ := h
  refine ⟨rfl, ?_⟩
  have heq : (Reader.numbered (fields.map (Field.renumber g))).map Field.signature =
      fields.map Field.signature := by
    apply List.ext_getElem <;> simp [Reader.numbered, Field.signature, Field.renumber]
  rw [heq]
  exact hperm.map _

namespace Schema.WellFormed

variable {s s' : Schema} (hs : s.WellFormed)
include hs

/-- Well-formed schemas are so wherever they stand. -/
theorem of_unplaced_eq (h : s'.unplaced = s.unplaced) : s'.WellFormed := by
  have hsignature : s.SameSignature s' := by
    have hs₁ := sameSignature_unplaced s
    have hs₂ := sameSignature_unplaced s'
    rw [h] at hs₂
    exact ⟨hs₂.records.symm.trans hs₁.records, hs₂.unions.symm.trans hs₁.unions⟩
  rw [← check_eq_ok_iff, ← Checked.unplaced_eq_ok] at hs ⊢
  rw [unplaced_check hsignature, hs]

theorem rearranged {before after : List Record} {r r₁ : Record}
    (hrecords : s.records = before ++ r :: after) (h : r.Rearranged r₁)
    (h' : s'.unplaced = { s with records := before ++ r₁ :: after }.unplaced) : s'.WellFormed := by
  let s₁ : Schema := { s with records := before ++ r₁ :: after }
  obtain ⟨hname, hperm⟩ := h.perm
  have hnames : s₁.names = s.names := by
    simp [s₁, names, declaredNames, hrecords, hname]
  have hs₁ : s₁.WellFormed := by
    refine ⟨hnames ▸ hs.distinct, hnames ▸ hs.free, ?_, hnames ▸ hs.unions⟩
    have hall := hs.records
    rw [hrecords, List.forall_mem_append, List.forall_mem_cons] at hall
    obtain ⟨hbefore, hr, hafter⟩ := hall
    rw [hnames, List.forall_mem_append, List.forall_mem_cons]
    exact ⟨hbefore, hr.of_perm hperm, hafter⟩
  exact hs₁.of_unplaced_eq h'

end Schema.WellFormed

end WireSchema
