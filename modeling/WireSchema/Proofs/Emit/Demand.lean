import WireSchema.Emit.Demand
import WireSchema.Proofs.Emit.Numbering

/-!
# Codecs on demand are those of the table

While the table of codecs grows it is a front of the table of all codecs. A field that asks for the
first time is given the place that it has in the end, and a field that asks again the same one. So
the module made in one pass is the one that knows the whole table from the start.
-/

namespace WireSchema

/-- A codec without an entry is that of a primitive or the code of a declared type. -/
theorem Codec.exists_primitive_of_needsEntry {c : Codec} (hc : ∀ name, c ≠ .declared name)
    (h : c.needsEntry = false) : ∃ p, c.primitive? = some p := by
  cases c with
  | declared name => exact absurd rfl (hc name)
  | int | bool | string => exact ⟨_, rfl⟩
  | _ => cases h

namespace Demand

theorem bind_of_eq {α β : Type} {x : Demand α} {f : α → Demand β} {a : α} {s s' : CodecTable}
    (h : x s = (a, s')) : (x >>= f) s = f a s' := by
  change f (x s).1 (x s).2 = _
  rw [h]

/-! ## Asking for a codec -/

variable {full before rest : CodecTable} {owner field : String} {c : Codec}

theorem codec_of_primitive {p : Primitive} (h : c.primitive? = some p) :
    codec owner field c before = (full.nameOf owner field c, before) := by
  rw [codec, CodecTable.nameOf, h]

/-- A field with a codec is given it again. -/
theorem codec_of_known (h : c.needsEntry = true) (hfull : full = before ++ rest)
    (hmem : ⟨owner, field, c⟩ ∈ before) :
    codec owner field c before = (full.nameOf owner field c, before) := by
  have hlt : (before.findIdx fun e => e.owner = owner ∧ e.field = field) < before.length :=
    List.findIdx_lt_length_of_exists ⟨_, hmem, by simp⟩
  rw [codec, CodecTable.nameOf, Codec.primitive?_of_needsEntry h, hfull, List.findIdx_append]
  simp only [hlt, if_true]

/-- A field without a codec is given the next place. -/
theorem codec_of_next (h : c.needsEntry = true)
    (hfull : full = before ++ [⟨owner, field, c⟩] ++ rest)
    (hkeys : (full.map CodecEntry.key).Nodup) :
    codec owner field c before = (full.nameOf owner field c, before ++ [⟨owner, field, c⟩]) := by
  have hbefore : (before.findIdx fun e => e.owner = owner ∧ e.field = field) = before.length := by
    rw [List.findIdx_eq_length]
    intro e he
    rw [decide_eq_false_iff_not]
    rintro ⟨rfl, rfl⟩
    rw [hfull, List.append_assoc, List.map_append, List.map_append] at hkeys
    exact (List.nodup_append.1 hkeys).2.2 e.key (List.mem_map_of_mem he) _ (.head _) rfl
  have hnew : (full.findIdx fun e => e.owner = owner ∧ e.field = field) = before.length := by
    rw [hfull, List.append_assoc, List.findIdx_append, hbefore, if_neg (Nat.lt_irrefl _)]
    simp [List.findIdx_cons]
  rw [codec, CodecTable.nameOf, Codec.primitive?_of_needsEntry h]
  simp only [hbefore, hnew, Nat.lt_irrefl, if_false]

theorem entries_of_needsEntry (h : c.needsEntry = true) :
    (Segment.single field c).entries owner = [⟨owner, field, c⟩] := by
  rw [Segment.entries, if_pos h]

theorem entries_of_not_needsEntry (h : c.needsEntry = false) :
    (Segment.single field c).entries owner = [] := by
  rw [Segment.entries, h]
  rfl

/-- Asking for the first time adds the entry there has to be. -/
theorem codec_eq_next (hc : ∀ name, c ≠ .declared name) (hkeys : (full.map CodecEntry.key).Nodup)
    (hfull : full = before ++ (Segment.single field c).entries owner ++ rest) :
    codec owner field c before =
      (full.nameOf owner field c, before ++ (Segment.single field c).entries owner) := by
  cases h : c.needsEntry with
  | true =>
    rw [entries_of_needsEntry h] at hfull ⊢
    exact codec_of_next h hfull hkeys
  | false =>
    obtain ⟨p, hp⟩ := Codec.exists_primitive_of_needsEntry hc h
    rw [entries_of_not_needsEntry h, List.append_nil]
    exact codec_of_primitive hp

/-- Asking again adds nothing. -/
theorem codec_eq_known (hc : ∀ name, c ≠ .declared name) (hfull : full = before ++ rest)
    (hmem : (Segment.single field c).entries owner ⊆ before) :
    codec owner field c before = (full.nameOf owner field c, before) := by
  cases h : c.needsEntry with
  | true =>
    rw [entries_of_needsEntry h] at hmem
    exact codec_of_known h hfull (hmem (.head _))
  | false =>
    obtain ⟨p, hp⟩ := Codec.exists_primitive_of_needsEntry hc h
    exact codec_of_primitive hp

/-! ## Segments -/

theorem encodeStatement_eq_next {object : String} {g : Segment}
    (hkeys : (full.map CodecEntry.key).Nodup)
    (hfull : full = before ++ g.entries owner ++ rest) :
    encodeStatement owner object g before =
      (g.encodeStatement full owner object, before ++ g.entries owner) := by
  cases g with
  | packed fields =>
    rw [Segment.entries, List.append_nil]
    rfl
  | single field c =>
    have hbind (hc : ∀ name, c ≠ .declared name) :
        (do return Statement.encodeBy (← codec owner field c) object field : Demand Statement)
          before = (.encodeBy (full.nameOf owner field c) object field,
            before ++ (Segment.single field c).entries owner) :=
      bind_of_eq (codec_eq_next hc hkeys hfull)
    cases c with
    | declared type =>
      rw [entries_of_not_needsEntry rfl, List.append_nil]
      rfl
    | _ => exact hbind fun _ h => by cases h

theorem decodeStatement_eq_known {g : Segment} (hfull : full = before ++ rest)
    (hmem : g.entries owner ⊆ before) :
    decodeStatement owner g before = (g.decodeStatement full owner, before) := by
  cases g with
  | packed fields => rfl
  | single field c =>
    have hbind (hc : ∀ name, c ≠ .declared name) :
        (do return Statement.decodeBy (← codec owner field c) field : Demand Statement) before =
          (.decodeBy (full.nameOf owner field c) field, before) :=
      bind_of_eq (codec_eq_known hc hfull hmem)
    cases c with
    | declared type => rfl
    | _ => exact hbind fun _ h => by cases h

/-! ## Passes -/

variable {α β : Type} {f : α → Demand β} {g : α → β} {as : List α}

/-- Where each step adds to the table what belongs there next, so does a pass. -/
theorem mapM_of_next (grow : α → CodecTable)
    (hstep : ∀ a ∈ as, ∀ before rest, full = before ++ grow a ++ rest →
      f a before = (g a, before ++ grow a)) (hfull : full = before ++ as.flatMap grow ++ rest) :
    as.mapM f before = (as.map g, before ++ as.flatMap grow) := by
  induction as generalizing before with
  | nil =>
    rw [List.flatMap_nil, List.append_nil]
    rfl
  | cons a as ih =>
    rw [List.flatMap_cons] at hfull ⊢
    have hhead := hstep a (.head _) before (as.flatMap grow ++ rest) (by simpa using hfull)
    have htail : as.mapM f (before ++ grow a) =
        (as.map g, before ++ grow a ++ as.flatMap grow) :=
      ih (fun a ha => hstep a (.tail _ ha)) (by simpa using hfull)
    rw [List.mapM_cons, bind_of_eq hhead, bind_of_eq htail, List.append_assoc]
    rfl

/-- Where no step adds anything to the table, no pass does. -/
theorem mapM_of_known (hstep : ∀ a ∈ as, f a before = (g a, before)) :
    as.mapM f before = (as.map g, before) := by
  induction as with
  | nil => rfl
  | cons a as ih =>
    rw [List.mapM_cons, bind_of_eq (hstep a (.head _)),
      bind_of_eq (ih fun a ha => hstep a (.tail _ ha))]
    rfl

/-! ## Classes -/

theorem mapM_encodeStatement {object : String} {fields : List Field}
    (hkeys : (full.map CodecEntry.key).Nodup)
    (hfull : full = before ++ CodecTable.ofFields owner fields ++ rest) :
    (Segment.ofFields fields).mapM (encodeStatement owner object) before =
      ((Segment.ofFields fields).map (Segment.encodeStatement full owner object),
        before ++ CodecTable.ofFields owner fields) := by
  rw [← Segment.flatMap_entries_ofFields] at hfull ⊢
  exact mapM_of_next (Segment.entries owner)
    (fun g _ before rest h => encodeStatement_eq_next hkeys h) hfull

theorem mapM_decodeStatement {fields : List Field} (hfull : full = before ++ rest)
    (hmem : CodecTable.ofFields owner fields ⊆ before) :
    (Segment.ofFields fields).mapM (decodeStatement owner) before =
      ((Segment.ofFields fields).map (Segment.decodeStatement full owner), before) := by
  rw [← Segment.flatMap_entries_ofFields] at hmem
  exact mapM_of_known fun g hg => decodeStatement_eq_known hfull fun e he =>
    hmem (List.mem_flatMap.2 ⟨g, hg, he⟩)

variable (hkeys : (full.map CodecEntry.key).Nodup)
include hkeys

theorem recordClass_eq {r : RecordLayout}
    (hfull : full = before ++ CodecTable.ofFields r.name r.wireFields ++ rest) :
    recordClass r before =
      (r.emitted full, before ++ CodecTable.ofFields r.name r.wireFields) := by
  rw [recordClass, RecordLayout.segments, bind_of_eq (mapM_encodeStatement hkeys hfull),
    bind_of_eq (mapM_decodeStatement hfull (List.subset_append_right _ _))]
  rfl

theorem variantClass_eq {u : UnionLayout} {v : VariantLayout} {index : Nat}
    (hfull : full = before ++ CodecTable.ofFields (v.ownerName u) v.variant.fields ++ rest) :
    variantClass u v index before = (v.emitted full u index,
      before ++ CodecTable.ofFields (v.ownerName u) v.variant.fields) := by
  rw [variantClass, VariantLayout.segments, bind_of_eq (mapM_encodeStatement hkeys hfull),
    bind_of_eq (mapM_decodeStatement hfull (List.subset_append_right _ _))]
  rfl

theorem unionClass_eq {u : UnionLayout}
    (hfull : full = before ++ (u.variants.flatMap fun v =>
      CodecTable.ofFields (v.ownerName u) v.variant.fields) ++ rest) :
    unionClass u before = (u.emitted full, before ++ u.variants.flatMap fun v =>
      CodecTable.ofFields (v.ownerName u) v.variant.fields) := by
  have hfst : (u.variants.flatMap fun v =>
      CodecTable.ofFields (v.ownerName u) v.variant.fields) = u.variants.zipIdx.flatMap fun x =>
        CodecTable.ofFields (x.1.ownerName u) x.1.variant.fields := by
    rw [← List.flatMap_map (f := Prod.fst) (g := fun v : VariantLayout =>
      CodecTable.ofFields (v.ownerName u) v.variant.fields), List.zipIdx_map_fst]
  have hvariants : u.variants.zipIdx.map (fun x => x.1.emitted full u x.2) =
      (u.emitted full).variants :=
    (List.mapIdx_eq_zipIdx_map (f := fun i v => VariantLayout.emitted full u v i)).symm
  rw [hfst] at hfull ⊢
  rw [unionClass, bind_of_eq (mapM_of_next (g := fun x => x.1.emitted full u x.2) _
    (fun x _ before rest h => variantClass_eq hkeys h) hfull), hvariants]
  rfl

theorem mapM_recordClass {rs : List RecordLayout}
    (hfull : full = before ++ (rs.flatMap fun r => CodecTable.ofFields r.name r.wireFields) ++ rest) :
    rs.mapM recordClass before = (rs.map (RecordLayout.emitted full),
      before ++ rs.flatMap fun r => CodecTable.ofFields r.name r.wireFields) :=
  mapM_of_next _ (fun _ _ _ _ h => recordClass_eq hkeys h) hfull

theorem mapM_unionClass {us : List UnionLayout}
    (hfull : full = before ++ (us.flatMap fun u => u.variants.flatMap fun v =>
      CodecTable.ofFields (v.ownerName u) v.variant.fields) ++ rest) :
    us.mapM unionClass before = (us.map (UnionLayout.emitted · full),
      before ++ us.flatMap fun u => u.variants.flatMap fun v =>
        CodecTable.ofFields (v.ownerName u) v.variant.fields) :=
  mapM_of_next _ (fun _ _ _ _ h => unionClass_eq hkeys h) hfull

end Demand

/-- The module that is made in one pass is the module of the layout. -/
theorem Layout.emittedOnDemand_eq {S : Layout} (hS : S.WellFormed)
    (hdot : ∀ name ∈ S.names, '.' ∉ name.toList) (runtime : String) :
    S.emittedOnDemand runtime = S.emitted runtime := by
  have hkeys := nodup_keys hS hdot
  have hclasses : Demand.classes S [] =
      ((S.records.map (RecordLayout.emitted (CodecTable.ofLayout S)),
        S.unions.map (UnionLayout.emitted · (CodecTable.ofLayout S))), CodecTable.ofLayout S) := by
    rw [Demand.classes, Demand.bind_of_eq (Demand.mapM_recordClass hkeys rfl), List.nil_append,
      Demand.bind_of_eq (Demand.mapM_unionClass hkeys (List.append_nil _).symm)]
    rfl
  rw [emittedOnDemand, hclasses]
  rfl

end WireSchema
