import WireSchema.Emit.Mirror
import WireSchema.Proofs.Emit.Hygiene
import WireSchema.Proofs.Schema.Naming

/-!
# How codecs are numbered

The codecs of a module are those of its owners, one after another. No two fields have the same owner
and the same name, since the name of an owner has a dot in it just if it is that of a variant. So the
number of a codec is its place in the table.
-/

namespace WireSchema

/-- A field with its owner. -/
def CodecEntry.key (e : CodecEntry) : String × String := (e.owner, e.field)

variable {S : Layout}

namespace Layout

/-! ## Owners -/

theorem ofLayout_eq_flatMap (S : Layout) :
    CodecTable.ofLayout S = S.owners.flatMap fun o => CodecTable.ofFields o.1 o.2 := by
  rw [owners, List.flatMap_append, List.flatMap_map, List.flatMap_assoc]
  simp only [List.flatMap_map]
  rfl

/-- The names of declarations are words, without any dot in them. -/
theorem dot_notMem_of_mem_names [Text.CharacterNames] {text : String} (h : ofText text = .ok S) :
    ∀ name ∈ S.names, '.' ∉ name.toList := by
  obtain ⟨s, hparse, hresolve⟩ := ofText_eq_ok_iff.1 h
  have hnamed := Schema.named_of_parse hparse
  have hresolves := resolves_of_ofSchema hresolve
  refine List.forall_mem_append.2 ⟨List.forall_mem_map.2 fun r hr => ?_,
    List.forall_mem_map.2 fun u hu => ?_⟩
  · have hmem : r.record ∈ s.records := hresolves.records ▸ List.mem_map_of_mem hr
    exact (hnamed.records _ hmem).notMem (by decide)
  · have hmem : u.union ∈ s.unions := hresolves.unions ▸ List.mem_map_of_mem hu
    exact (hnamed.unions _ hmem).notMem (by decide)

theorem firstPart_ownerName {u : UnionLayout} (hu : '.' ∉ u.name.toList) (v : VariantLayout) :
    firstPart (v.ownerName u) = u.name := by
  rw [VariantLayout.ownerName, firstPart_append_dot, firstPart_of_notMem hu]

theorem dot_mem_ownerName (u : UnionLayout) (v : VariantLayout) :
    '.' ∈ (v.ownerName u).toList := by
  simp [VariantLayout.ownerName, String.toList_append]

theorem nodup_owners (hS : S.WellFormed) (hdot : ∀ name ∈ S.names, '.' ∉ name.toList) :
    (S.owners.map Prod.fst).Nodup := by
  obtain ⟨hrecords, hunions, -⟩ := List.nodup_append.1 hS.distinct
  obtain ⟨hrecord, hunion⟩ := List.forall_mem_append.1 hdot
  have hunion : ∀ u ∈ S.unions, '.' ∉ u.name.toList := fun u hu =>
    hunion _ (List.mem_map_of_mem hu)
  rw [owners, List.map_append, List.map_map, List.map_flatMap]
  simp only [List.map_map]
  refine List.nodup_append.2 ⟨hrecords, List.nodup_flatMap.2 ⟨fun u hu => ?_, ?_⟩, ?_⟩
  · have hdistinct := (hS.unions u hu).distinct.map (f := (u.name ++ "." ++ ·))
      fun _ _ => (String.append_right_inj _).1
    rwa [List.map_map] at hdistinct
  -- Variants of different unions differ by the unions.
  · refine (List.pairwise_map.1 hunions).imp_of_mem fun hu hu' hne name hname hname' => hne ?_
    obtain ⟨v, -, rfl⟩ := List.mem_map.1 hname
    obtain ⟨v', -, heq⟩ := List.mem_map.1 hname'
    have hfirst := congrArg firstPart heq
    rw [Function.comp, firstPart_ownerName (hunion _ hu'), Function.comp,
      firstPart_ownerName (hunion _ hu)] at hfirst
    exact hfirst.symm
  · rintro name hname name' hname' rfl
    obtain ⟨u, -, hname'⟩ := List.mem_flatMap.1 hname'
    obtain ⟨v, -, rfl⟩ := List.mem_map.1 hname'
    exact hrecord _ hname (dot_mem_ownerName u v)

theorem fieldsWellFormed_of_mem_owners (hS : S.WellFormed) :
    ∀ o ∈ S.owners, S.FieldsWellFormed o.2 :=
  List.forall_mem_append.2 ⟨List.forall_mem_map.2 fun r hr => (hS.records r hr).wireFields,
    List.forall_mem_flatMap.2 fun u hu => List.forall_mem_map.2 fun v hv =>
      (hS.unions u hu).fields v hv⟩

/-! ## Keys -/

theorem key_of_mem_ofFields {owner : String} {fields : List Field} {e : CodecEntry}
    (h : e ∈ CodecTable.ofFields owner fields) : e.owner = owner := by
  obtain ⟨f, -, rfl⟩ := List.mem_map.1 h
  rfl

/-- No two codecs are for fields of the same name with the same owner. -/
theorem nodup_keys (hS : S.WellFormed) (hdot : ∀ name ∈ S.names, '.' ∉ name.toList) :
    ((CodecTable.ofLayout S).map CodecEntry.key).Nodup := by
  rw [ofLayout_eq_flatMap, List.map_flatMap]
  refine List.nodup_flatMap.2 ⟨fun o ho => ?_, ?_⟩
  · have hidents := (fieldsWellFormed_of_mem_owners hS o ho).distinct
    have hneeds : ((o.2.filter fun f => f.codec.needsEntry).map Field.ident).Nodup :=
      hidents.sublist (List.filter_sublist.map _)
    have hkeys := hneeds.map (f := Prod.mk o.1) fun _ _ h => (Prod.mk.inj h).2
    rw [List.map_map] at hkeys
    rwa [CodecTable.ofFields, List.map_map]
  · refine (List.pairwise_map.1 (nodup_owners hS hdot)).imp fun hne k hk hk' => hne ?_
    obtain ⟨e, he, rfl⟩ := List.mem_map.1 hk
    obtain ⟨e', he', heq⟩ := List.mem_map.1 hk'
    rw [← key_of_mem_ofFields he, ← key_of_mem_ofFields he']
    exact (congrArg Prod.fst heq).symm

end Layout

/-! ## Places -/

theorem Codec.primitive?_of_needsEntry {c : Codec} (h : c.needsEntry = true) :
    c.primitive? = none := by
  cases c with
  | declared name => cases h
  | _ => exact Option.isNone_iff_eq_none.1 h

namespace CodecTable

variable {table : CodecTable}

theorem findIdx_key {index : Nat} (h : (table.map CodecEntry.key).Nodup)
    (hindex : index < table.length) :
    (table.findIdx fun e => e.owner = table[index].owner ∧ e.field = table[index].field) = index := by
  refine (List.findIdx_eq hindex).2 ⟨by simp, fun i hi => ?_⟩
  rw [decide_eq_false_iff_not]
  rintro ⟨howner, hfield⟩
  have hlen : (table.map CodecEntry.key).length = table.length := List.length_map ..
  have hi' : i < (table.map CodecEntry.key).length := by omega
  have hindex' : index < (table.map CodecEntry.key).length := by omega
  have hkey : (table.map CodecEntry.key)[i] = (table.map CodecEntry.key)[index] := by
    rw [List.getElem_map, List.getElem_map, CodecEntry.key, howner, hfield, CodecEntry.key]
  exact absurd (h.getElem_inj_iff.1 hkey) (Nat.ne_of_lt hi)

/-- The number of an entry is its place. -/
theorem nameOf_getElem {index : Nat} (h : (table.map CodecEntry.key).Nodup)
    (hindex : index < table.length) (hneeds : table[index].codec.needsEntry = true) :
    table.nameOf table[index].owner table[index].field table[index].codec = entryName index := by
  rw [nameOf, Codec.primitive?_of_needsEntry hneeds]
  exact congrArg entryName (findIdx_key h hindex)

/-- The entries are numbered in order. -/
theorem map_nameOf (h : (table.map CodecEntry.key).Nodup)
    (hneeds : ∀ e ∈ table, e.codec.needsEntry = true) :
    table.map (fun e => table.nameOf e.owner e.field e.codec) =
      (List.range table.length).map entryName := by
  refine List.ext_getElem (by simp) fun index hindex _ => ?_
  have hindex : index < table.length := by simpa using hindex
  rw [List.getElem_map, nameOf_getElem h hindex (hneeds _ (List.getElem_mem hindex))]
  simp

/-- Fields that have a codec of their own do not share it. -/
theorem key_eq_of_nameOf_eq {owner field owner' field' : String} {c c' : Codec}
    (he : ⟨owner, field, c⟩ ∈ table) (hc : c.needsEntry = true) (hc' : c'.needsEntry = true)
    (h : table.nameOf owner field c = table.nameOf owner' field' c') :
    owner = owner' ∧ field = field' := by
  rw [nameOf, Codec.primitive?_of_needsEntry hc, nameOf, Codec.primitive?_of_needsEntry hc'] at h
  have hindex := TopName.eq_of_entryName_eq h
  have hlt : (table.findIdx fun e => e.owner = owner ∧ e.field = field) < table.length :=
    List.findIdx_lt_length_of_exists ⟨_, he, by simp⟩
  have hfound := of_decide_eq_true (List.findIdx_getElem (w := hlt))
  have hlt' := hindex ▸ hlt
  have hfound' := of_decide_eq_true (List.findIdx_getElem (w := hlt'))
  simp only [hindex] at hfound
  exact ⟨hfound.1.symm.trans hfound'.1, hfound.2.symm.trans hfound'.2⟩

theorem entryName_notMem_runtimeNames (index : Nat) : entryName index ∉ runtimeNames := fun h =>
  TopName.not_isNumbered_of_mem_importedNames (List.mem_append_right _ h)
    (TopName.isNumbered_entryName index)

end CodecTable

/-! ## Uses -/

theorem Codec.needsEntry_of_slot? {c : Codec} {slot : Slot} (h : c.slot? = some slot) :
    c.needsEntry = false := by
  cases c with
  | int | bool => rfl
  | _ => cases h

namespace Segment

/-- The entries that a segment needs in the table. -/
def entries (owner : String) : Segment → CodecTable
  | packed _ => []
  | single field c => if c.needsEntry then [⟨owner, field, c⟩] else []

theorem flatMap_entries_cons (owner field : String) (c : Codec) (segments : List Segment) :
    (cons field c segments).flatMap (entries owner) =
      (single field c).entries owner ++ segments.flatMap (entries owner) := by
  unfold cons
  split
  next slot hslot =>
    have hnone : (single field c).entries owner = [] := by
      rw [entries, Codec.needsEntry_of_slot? hslot]
      rfl
    rw [hnone]
    split <;> rfl
  next => rfl

theorem flatMap_entries_ofFields (owner : String) (fields : List Field) :
    (ofFields fields).flatMap (entries owner) = CodecTable.ofFields owner fields := by
  induction fields with
  | nil => rfl
  | cons f fs ih =>
    rw [ofFields_cons, flatMap_entries_cons, ih, entries, CodecTable.ofFields, CodecTable.ofFields,
      List.filter_cons]
    split <;> rfl

variable (table : CodecTable) (owner : String)

/-- Both statements of a segment use the same codec. -/
theorem codec?_encodeStatement (object : String) (g : Segment) :
    (g.encodeStatement table owner object).codec? = (g.decodeStatement table owner).codec? := by
  cases g with
  | packed fields => rfl
  | single field c => cases c <;> rfl

/-- A segment uses the codecs for which it has entries, and those of the runtime. -/
theorem ownCodec?_decodeStatement (g : Segment) :
    (g.decodeStatement table owner).ownCodec?.toList =
      (g.entries owner).map fun e => table.nameOf e.owner e.field e.codec := by
  cases g with
  | packed fields => rfl
  | single field c =>
    have hruntime (p : Primitive) (h : c.primitive? = some p) :
        (some (table.nameOf owner field c)).filter (· ∉ runtimeNames) = none := by
      rw [CodecTable.nameOf, h, Option.filter_some, if_neg]
      simpa using p.codecName_mem_runtimeNames
    have hown (h : c.primitive? = none) :
        (some (table.nameOf owner field c)).filter (· ∉ runtimeNames) =
          some (table.nameOf owner field c) := by
      rw [CodecTable.nameOf, h, Option.filter_some, if_pos]
      exact decide_eq_true (CodecTable.entryName_notMem_runtimeNames _)
    cases c with
    | declared type => rfl
    | int | bool | string => exact congrArg Option.toList (hruntime _ rfl)
    | _ => exact congrArg Option.toList (hown rfl)

theorem ownCodec?_encodeStatement (object : String) (g : Segment) :
    (g.encodeStatement table owner object).ownCodec?.toList =
      (g.entries owner).map fun e => table.nameOf e.owner e.field e.codec := by
  rw [Statement.ownCodec?, codec?_encodeStatement]
  exact ownCodec?_decodeStatement table owner g

end Segment

/-- The codecs of the fields of an owner, by their names in a module. -/
def CodecTable.namesFor (table : CodecTable) (o : String × List Field) : List String :=
  (CodecTable.ofFields o.1 o.2).map fun e => table.nameOf e.owner e.field e.codec

theorem filterMap_ownCodec?_map {table : CodecTable} {owner : String} {f : Segment → Statement}
    (h : ∀ g, (f g).ownCodec?.toList =
      (g.entries owner).map fun e => table.nameOf e.owner e.field e.codec) (fields : List Field) :
    ((Segment.ofFields fields).map f).filterMap Statement.ownCodec? =
      table.namesFor (owner, fields) := by
  rw [List.filterMap_eq_flatMap_toList, List.flatMap_map]
  simp only [h]
  rw [← List.map_flatMap, Segment.flatMap_entries_ofFields]
  rfl

/-- Calling a hook uses no codec. -/
theorem filterMap_ownCodec?_hook {hook? : Option String} {f : String → Statement}
    (h : ∀ e, (f e).ownCodec? = none) : (hook?.toList.map f).filterMap Statement.ownCodec? = [] :=
  filterMap_map_eq_nil h _

variable (table : CodecTable)

theorem RecordLayout.codecUses_methods (r : RecordLayout) :
    (r.emitted table).methods.flatMap Method.codecUses =
      table.namesFor (r.name, r.wireFields) ++ table.namesFor (r.name, r.wireFields) := by
  have hencode : (r.encodeBody table).filterMap Statement.ownCodec? =
      table.namesFor (r.name, r.wireFields) := by
    rw [encodeBody, List.filterMap_append, List.filterMap_append,
      filterMap_ownCodec?_hook fun _ => rfl, filterMap_ownCodec?_hook fun _ => rfl, segments,
      filterMap_ownCodec?_map fun g => g.ownCodec?_encodeStatement table r.name _]
    rw [List.nil_append, List.append_nil]
  have hdecode : (r.decodeBody table).filterMap Statement.ownCodec? =
      table.namesFor (r.name, r.wireFields) := by
    rw [decodeBody, List.filterMap_append, List.filterMap_append,
      filterMap_ownCodec?_hook fun _ => rfl, segments,
      filterMap_ownCodec?_map fun g => g.ownCodec?_decodeStatement table r.name]
    exact (List.append_nil _).trans (List.nil_append _)
  have hdefault : ((r.emitted table).default?.toList.map Method.ofDefault).flatMap
      Method.codecUses = [] := by
    rw [List.flatMap_eq_nil_iff, List.forall_mem_map]
    exact fun _ _ => rfl
  rw [RecordClass.methods, List.flatMap_append, hdefault, List.append_nil, List.flatMap_cons,
    List.flatMap_singleton]
  exact congrArg₂ (· ++ ·) hencode hdecode

theorem VariantLayout.codecUses_methods (u : UnionLayout) (v : VariantLayout) (index : Nat) :
    (v.emitted table u index).methods.flatMap Method.codecUses =
      table.namesFor (v.ownerName u, v.variant.fields) ++
        table.namesFor (v.ownerName u, v.variant.fields) := by
  have hencode : (v.encodeBody table u).filterMap Statement.ownCodec? =
      table.namesFor (v.ownerName u, v.variant.fields) :=
    filterMap_ownCodec?_map (fun g => g.ownCodec?_encodeStatement table (v.ownerName u) "self") _
  have hdecode : (v.decodeBody table u).filterMap Statement.ownCodec? =
      table.namesFor (v.ownerName u, v.variant.fields) := by
    rw [decodeBody, List.filterMap_append, segments,
      filterMap_ownCodec?_map fun g => g.ownCodec?_decodeStatement table (v.ownerName u)]
    exact List.append_nil _
  rw [VariantClass.methods, List.flatMap_cons, List.flatMap_singleton]
  exact congrArg₂ (· ++ ·) hencode hdecode

theorem ownCodec?_readTag (p : Primitive) :
    (Statement.readTag p.codecName).ownCodec? = none := by
  rw [Statement.ownCodec?, Statement.codec?, Option.filter_some, if_neg]
  simpa using p.codecName_mem_runtimeNames

/-- What is made of the classes of variants does not depend on their numbers. -/
theorem UnionLayout.map_variants_emitted {α : Type} {f : VariantClass → α} {g : VariantLayout → α}
    (u : UnionLayout) (h : ∀ v index, f (v.emitted table u index) = g v) :
    (u.emitted table).variants.map f = u.variants.map g := by
  rw [emitted]
  apply List.ext_getElem <;> simp [h]

theorem UnionLayout.codecUses_methods (u : UnionLayout) :
    (u.emitted table).methods.flatMap Method.codecUses = u.variants.flatMap fun v =>
      table.namesFor (v.ownerName u, v.variant.fields) ++
        table.namesFor (v.ownerName u, v.variant.fields) := by
  have hencode : u.encodeBody.filterMap Statement.ownCodec? = [] := by
    rw [encodeBody, List.filterMap_append, List.filterMap_append,
      filterMap_ownCodec?_hook fun _ => rfl, filterMap_ownCodec?_hook fun _ => rfl]
    rfl
  have hdecode : u.decodeBody.filterMap Statement.ownCodec? = [] := by
    rw [decodeBody, List.filterMap_append, filterMap_ownCodec?_hook fun _ => rfl,
      List.filterMap_cons, ownCodec?_readTag]
    rfl
  have hvariants : ((u.emitted table).variants.flatMap VariantClass.methods).flatMap
      Method.codecUses = u.variants.flatMap fun v =>
        table.namesFor (v.ownerName u, v.variant.fields) ++
          table.namesFor (v.ownerName u, v.variant.fields) := by
    rw [List.flatMap_assoc]
    exact congrArg List.flatten
      (u.map_variants_emitted table fun v index => v.codecUses_methods table u index)
  rw [UnionClass.methods, List.flatMap_append, hvariants, List.flatMap_cons,
    List.flatMap_singleton]
  exact congrArg (· ++ _) (congrArg₂ (· ++ ·) hencode hdecode)

/-- In a module, each owner's codecs are used when its fields are written and when they are read. -/
theorem Layout.codecUses_emitted (S : Layout) (runtime : String) :
    (S.emitted runtime).codecUses = S.owners.flatMap fun o =>
      (CodecTable.ofLayout S).namesFor o ++ (CodecTable.ofLayout S).namesFor o := by
  rw [Module.codecUses, Module.methods, emitted, owners, List.flatMap_append, List.flatMap_append,
    List.flatMap_assoc, List.flatMap_assoc, List.flatMap_map, List.flatMap_map, List.flatMap_map,
    List.flatMap_assoc]
  simp only [RecordLayout.codecUses_methods, UnionLayout.codecUses_methods, List.flatMap_map]

/-! ## First uses -/

theorem eraseDups_of_nodup {α : Type} [BEq α] [LawfulBEq α] {l : List α} (h : l.Nodup) :
    l.eraseDups = l := by
  induction l with
  | nil => rfl
  | cons a l ih =>
    obtain ⟨ha, hl⟩ := List.nodup_cons.1 h
    have hfilter : l.filter (fun b => !b == a) = l :=
      List.filter_eq_self.2 fun b hb => by simpa using ne_of_mem_of_not_mem hb ha
    rw [List.eraseDups_cons, hfilter, ih hl]

/-- Lists without repeats that are gone through twice each, one after another, are met in order. -/
theorem eraseDups_flatMap_twice {α : Type} [BEq α] [LawfulBEq α] {ls : List (List α)}
    (h : ls.flatten.Nodup) : (ls.flatMap fun l => l ++ l).eraseDups = ls.flatten := by
  induction ls with
  | nil => rfl
  | cons l ls ih =>
    rw [List.flatten_cons] at h ⊢
    obtain ⟨hl, hls, hdisjoint⟩ := List.nodup_append.1 h
    have hseen : l.removeAll l = [] := by
      rw [List.removeAll, List.filter_eq_nil_iff]
      intro a ha
      simpa using ha
    have hnew : (ls.flatMap fun l => l ++ l).removeAll l = ls.flatMap fun l => l ++ l := by
      rw [List.removeAll, List.filter_eq_self]
      intro a ha
      obtain ⟨l', hl', ha⟩ := List.mem_flatMap.1 ha
      have hmem : a ∈ ls.flatten := List.mem_flatten.2 ⟨l', hl', by simpa using ha⟩
      simpa using fun hal => hdisjoint a hal a hmem rfl
    have hrest : (l ++ ls.flatMap fun l => l ++ l).removeAll l = ls.flatMap fun l => l ++ l := by
      rw [List.removeAll, List.filter_append]
      exact congrArg₂ (· ++ ·) hseen hnew
    rw [List.flatMap_cons, List.append_assoc, List.eraseDups_append, hrest, ih hls,
      eraseDups_of_nodup hl]

namespace Layout

theorem needsEntry_of_mem_ofLayout : ∀ e ∈ CodecTable.ofLayout S, e.codec.needsEntry = true := by
  rw [ofLayout_eq_flatMap, List.forall_mem_flatMap]
  exact fun o _ => List.forall_mem_map.2 fun f hf => (List.mem_filter.1 hf).2

/-- Each field that needs a codec of its own has an entry. -/
theorem mem_ofLayout_of_mem_owners {o : String × List Field} (ho : o ∈ S.owners) {f : Field}
    (hf : f ∈ o.2) (hneeds : f.codec.needsEntry = true) :
    ⟨o.1, f.ident, f.codec⟩ ∈ CodecTable.ofLayout S := by
  rw [ofLayout_eq_flatMap]
  exact List.mem_flatMap.2 ⟨o, ho, List.mem_map_of_mem (List.mem_filter.2 ⟨hf, hneeds⟩)⟩

variable (hS : S.WellFormed) (hdot : ∀ name ∈ S.names, '.' ∉ name.toList)
include hS hdot

theorem flatten_namesFor_owners : (S.owners.map (CodecTable.ofLayout S).namesFor).flatten =
    (List.range (CodecTable.ofLayout S).length).map CodecTable.entryName := by
  have hmap : (S.owners.map (CodecTable.ofLayout S).namesFor).flatten =
      (S.owners.flatMap fun o => CodecTable.ofFields o.1 o.2).map fun e =>
        (CodecTable.ofLayout S).nameOf e.owner e.field e.codec := by
    rw [List.map_flatMap]
    rfl
  rw [hmap, ← ofLayout_eq_flatMap,
    CodecTable.map_nameOf (nodup_keys hS hdot) needsEntry_of_mem_ofLayout]

/-- The codecs of a module are numbered in the order in which they are used first. -/
theorem eraseDups_codecUses (runtime : String) :
    (S.emitted runtime).codecUses.eraseDups = (S.emitted runtime).codecs.map Prod.fst := by
  have hnames := flatten_namesFor_owners hS hdot
  have hnodup : ((List.range (CodecTable.ofLayout S).length).map CodecTable.entryName).Nodup :=
    List.nodup_range.map fun _ _ => TopName.eq_of_entryName_eq
  have htwice := eraseDups_flatMap_twice (hnames ▸ hnodup)
  rw [List.flatMap_map] at htwice
  rw [codecUses_emitted, map_fst_codecs, htwice, hnames]

/-- The codec of a field that needs one is that of its type. -/
theorem mem_codecs_of_mem_owners {o : String × List Field} (ho : o ∈ S.owners) {f : Field}
    (hf : f ∈ o.2) (hneeds : f.codec.needsEntry = true) (runtime : String) :
    ((CodecTable.ofLayout S).nameOf o.1 f.ident f.codec, f.codec) ∈
      (S.emitted runtime).codecs := by
  obtain ⟨index, hindex, hentry⟩ :=
    List.getElem_of_mem (mem_ofLayout_of_mem_owners ho hf hneeds)
  have hname := CodecTable.nameOf_getElem (nodup_keys hS hdot) hindex (by rwa [hentry])
  rw [hentry] at hname
  rw [hname]
  refine List.mem_mapIdx.2 ⟨index, hindex, ?_⟩
  rw [hentry]

end Layout

end WireSchema
