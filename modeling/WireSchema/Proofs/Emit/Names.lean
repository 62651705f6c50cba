import WireSchema.Emit.Binding
import WireSchema.Proofs.Layout.Parsed

/-!
# The names at the top of a module

An emitted module binds names of four sorts at its top: those it imports, those of the declared
types, and the numbered names of the classes of variants and of codecs. What a name is bound to can
be told from its text. A declared name starts with no low line, and the few imported names that do
have no digits; a numbered name starts with one and ends in digits. The number of a variant is what
stands behind the last low line, however many of them the name of the union has, and that of a codec
has none in front of it but the first.
-/

namespace WireSchema

/-- A name that is bound at the top of a module, by what it is bound to. -/
inductive TopName where
  | imported (name : String)
  | declared (name : String)
  | variant (union : String) (index : Nat)
  | codec (index : Nat)

/-- The names that can be bound while the runtime is imported. -/
def importedNames : List String :=
  ["dataclass"] ++ ["sys", "Path", "_runtime_path", "_added_to_path"] ++ runtimeNames

namespace TopName

def text : TopName → String
  | imported name | declared name => name
  | variant union index => VariantLayout.className union index
  | codec index => CodecTable.entryName index

/-- Imports bind their own names only, and declarations free ones. -/
def Proper : TopName → Prop
  | imported name => name ∈ importedNames
  | declared name => FreeTypeName name
  | _ => True

/-! ## Texts of names -/

/-- A name that starts with a low line and has a digit somewhere. -/
def IsNumbered (name : String) : Prop :=
  name.toList.head? = some '_' ∧ name.toList.any Char.isDigit = true

instance (name : String) : Decidable (IsNumbered name) :=
  inferInstanceAs (Decidable (_ ∧ _))

theorem isDigit_of_mem_toString {n : Nat} {c : Char} (h : c ∈ (toString n).toList) :
    c.isDigit = true := by
  rw [Nat.toString_eq_repr, Nat.toList_repr] at h
  exact Nat.isDigit_of_mem_toDigits (by decide) (by decide) h

theorem underscore_notMem_toString (n : Nat) : '_' ∉ (toString n).toList := fun h =>
  absurd (isDigit_of_mem_toString h) (by decide)

theorem exists_digit_mem_toString (n : Nat) : ∃ c ∈ (toString n).toList, c.isDigit = true := by
  have hne : (toString n).toList ≠ [] := by
    rw [Nat.toString_eq_repr, Nat.toList_repr]
    exact Nat.toDigits_ne_nil
  obtain ⟨c, hc⟩ := List.exists_mem_of_ne_nil _ hne
  exact ⟨c, hc, isDigit_of_mem_toString hc⟩

theorem toList_className (union : String) (index : Nat) :
    (VariantLayout.className union index).toList =
      '_' :: (union.toList ++ '_' :: (toString index).toList) := by
  simp [VariantLayout.className, String.toList_append]

theorem toList_entryName (index : Nat) :
    (CodecTable.entryName index).toList =
      '_' :: (['c', 'o', 'd', 'e', 'c'] ++ (toString index).toList) := by
  simp [CodecTable.entryName, String.toList_append]

theorem isNumbered_className (union : String) (index : Nat) :
    IsNumbered (VariantLayout.className union index) := by
  obtain ⟨c, hc, hdigit⟩ := exists_digit_mem_toString index
  rw [IsNumbered, toList_className]
  exact ⟨rfl, List.any_eq_true.2 ⟨c, .tail _ (List.mem_append_right _ (.tail _ hc)), hdigit⟩⟩

theorem isNumbered_entryName (index : Nat) : IsNumbered (CodecTable.entryName index) := by
  obtain ⟨c, hc, hdigit⟩ := exists_digit_mem_toString index
  rw [IsNumbered, toList_entryName]
  exact ⟨rfl, List.any_eq_true.2 ⟨c, .tail _ (List.mem_append_right _ hc), hdigit⟩⟩

theorem not_isNumbered_of_mem_importedNames {name : String} (h : name ∈ importedNames) :
    ¬ IsNumbered name := by
  have hall : ∀ name ∈ importedNames, ¬ IsNumbered name := by decide
  exact hall name h

theorem not_isNumbered_of_freeTypeName {name : String} (h : FreeTypeName name) :
    ¬ IsNumbered name := fun hnumbered => h.1.2.1 hnumbered.1

/-- An imported name is reserved, as that of a module or by its first character. -/
theorem notMem_importedNames_of_freeTypeName {name : String} (h : FreeTypeName name) :
    name ∉ importedNames := by
  have hall : ∀ name ∈ importedNames, name ∈ moduleNames ∨ name.toList.head? = some '_' := by
    decide
  intro hmem
  rcases hall name hmem with hmodule | hhead
  · exact h.2.1 hmodule
  · exact h.1.2.1 hhead

/-- Lists agree in front of and behind the last place of something that they share. -/
theorem eq_of_append_cons_eq {α : Type} {a : α} {xs xs' ys ys' : List α}
    (h : xs ++ a :: ys = xs' ++ a :: ys') (hys : a ∉ ys) (hys' : a ∉ ys') : xs = xs' ∧ ys = ys' := by
  rcases List.append_eq_append_iff.1 h with ⟨zs, rfl, htail⟩ | ⟨zs, rfl, htail⟩
  · cases zs with
    | nil => exact ⟨(List.append_nil xs).symm, (List.cons.inj htail).2⟩
    | cons z zs =>
      rw [(List.cons.inj htail).2] at hys
      exact absurd (List.mem_append_right _ (.head _)) hys
  · cases zs with
    | nil => exact ⟨List.append_nil xs', (List.cons.inj htail).2.symm⟩
    | cons z zs =>
      rw [(List.cons.inj htail).2] at hys'
      exact absurd (List.mem_append_right _ (.head _)) hys'

theorem eq_of_className_eq {union union' : String} {index index' : Nat}
    (h : VariantLayout.className union index = VariantLayout.className union' index') :
    union = union' ∧ index = index' := by
  have hlist := congrArg String.toList h
  rw [toList_className, toList_className] at hlist
  obtain ⟨hunion, hindex⟩ := eq_of_append_cons_eq (List.cons.inj hlist).2
    (underscore_notMem_toString _) (underscore_notMem_toString _)
  exact ⟨String.toList_inj.1 hunion, eq_of_toString_eq (String.toList_inj.1 hindex)⟩

theorem eq_of_entryName_eq {index index' : Nat}
    (h : CodecTable.entryName index = CodecTable.entryName index') : index = index' :=
  eq_of_toString_eq ((String.append_right_inj _).1 h)

theorem className_ne_entryName (union : String) (index index' : Nat) :
    VariantLayout.className union index ≠ CodecTable.entryName index' := by
  intro h
  have htail := congrArg (fun name : String => name.toList.tail) h
  simp only [toList_className, toList_entryName, List.tail_cons] at htail
  have hmem : '_' ∈ ['c', 'o', 'd', 'e', 'c'] ++ (toString index').toList :=
    htail ▸ List.mem_append_right _ (.head _)
  rcases List.mem_append.1 hmem with hmem | hmem
  · exact absurd hmem (by decide)
  · exact underscore_notMem_toString _ hmem

/-- Whether a name ends in a number that is given to it. -/
def numbered : TopName → Bool
  | variant .. | codec _ => true
  | _ => false

theorem isNumbered_text_iff {a : TopName} (ha : a.Proper) :
    IsNumbered a.text ↔ a.numbered = true := by
  cases a with
  | imported name => exact ⟨fun h => absurd h (not_isNumbered_of_mem_importedNames ha), nofun⟩
  | declared name => exact ⟨fun h => absurd h (not_isNumbered_of_freeTypeName ha), nofun⟩
  | variant union index => exact ⟨fun _ => rfl, fun _ => isNumbered_className union index⟩
  | codec index => exact ⟨fun _ => rfl, fun _ => isNumbered_entryName index⟩

/-- What a name is bound to can be told from its text. -/
theorem eq_of_text_eq {a b : TopName} (ha : a.Proper) (hb : b.Proper) (h : a.text = b.text) :
    a = b := by
  -- Names of which only one is numbered cannot be alike, so half of the cases are void.
  have hnumbered : a.numbered = b.numbered := by
    rw [Bool.eq_iff_iff, ← isNumbered_text_iff ha, ← isNumbered_text_iff hb, h]
  cases a with
  | imported name =>
    cases b with
    | imported name' => exact congrArg imported h
    | declared name' =>
      obtain rfl : name = name' := h
      exact absurd ha (notMem_importedNames_of_freeTypeName hb)
    | variant | codec => cases hnumbered
  | declared name =>
    cases b with
    | imported name' =>
      obtain rfl : name = name' := h
      exact absurd hb (notMem_importedNames_of_freeTypeName ha)
    | declared name' => exact congrArg declared h
    | variant | codec => cases hnumbered
  | variant union index =>
    cases b with
    | imported | declared => cases hnumbered
    | variant union' index' =>
      obtain ⟨rfl, rfl⟩ := eq_of_className_eq h
      rfl
    | codec index' => exact absurd h (className_ne_entryName _ _ _)
  | codec index =>
    cases b with
    | imported | declared => cases hnumbered
    | variant union index' => exact absurd h.symm (className_ne_entryName _ _ _)
    | codec index' => exact congrArg codec (eq_of_entryName_eq h)

/-- The declaration that a class belongs to. -/
def owner : TopName → String
  | declared name => name
  | variant union _ => union
  | _ => ""

end TopName

/-! ## The names of a module -/

theorem map_mapIdx_eq_map_range {α β γ : Type} {f : Nat → α → β} {g : β → γ} {h : Nat → γ}
    (hg : ∀ i a, g (f i a) = h i) (l : List α) :
    (l.mapIdx f).map g = (List.range l.length).map h := by
  apply List.ext_getElem <;> simp [hg]

/-- The classes of a union and of its variants. -/
def UnionLayout.topNames (u : UnionLayout) : List TopName :=
  .declared u.name :: (List.range u.variants.length).map (.variant u.name)

theorem UnionLayout.map_text_topNames (u : UnionLayout) (table : CodecTable) :
    u.topNames.map TopName.text = (u.emitted table).classNames := by
  have hvariants : (u.emitted table).variants.map VariantClass.className =
      (List.range u.variants.length).map (VariantLayout.className u.name) :=
    map_mapIdx_eq_map_range (by intros; rfl) _
  rw [topNames, UnionClass.classNames, hvariants, List.map_cons, List.map_map]
  rfl

theorem UnionLayout.owner_of_mem_topNames {u : UnionLayout} {a : TopName} (ha : a ∈ u.topNames) :
    a.owner = u.name := by
  rcases List.mem_cons.1 ha with rfl | ha
  · rfl
  · obtain ⟨index, -, rfl⟩ := List.mem_map.1 ha
    rfl

namespace Layout

variable (S : Layout) (runtime : String)

/-- The classes of a module. -/
def classTopNames : List TopName :=
  S.records.map (fun r => .declared r.name) ++ S.unions.flatMap UnionLayout.topNames

/-- All names that are bound at the top of a module, hook modules aside. -/
def topNames : List TopName :=
  (["dataclass"] ++ Module.helperNames runtime ++ runtimeNames).map .imported ++ S.classTopNames ++
    (List.range (CodecTable.ofLayout S).length).map .codec

theorem map_fst_codecs :
    (S.emitted runtime).codecs.map Prod.fst =
      (List.range (CodecTable.ofLayout S).length).map CodecTable.entryName :=
  map_mapIdx_eq_map_range (by intros; rfl) _

theorem map_text_classTopNames :
    S.classTopNames.map TopName.text = (S.emitted runtime).classNames := by
  rw [classTopNames, Module.classNames, emitted, List.map_append, List.map_flatMap,
    List.flatMap_map, List.map_map, List.map_map]
  simp only [UnionLayout.map_text_topNames _ (CodecTable.ofLayout S)]
  rfl

theorem map_text_topNames :
    (S.topNames runtime).map TopName.text = (S.emitted runtime).bindings := by
  rw [topNames, List.map_append, List.map_append, map_text_classTopNames S runtime,
    Module.bindings, map_fst_codecs, List.map_map, List.map_map]
  exact congrArg (· ++ _ ++ _) (List.map_id _)

variable {S runtime}

theorem mem_classTopNames_of_mem_names {name : String} (h : name ∈ S.names) :
    .declared name ∈ S.classTopNames := by
  rcases List.mem_append.1 h with h | h
  · obtain ⟨r, hr, rfl⟩ := List.mem_map.1 h
    exact List.mem_append_left _ (List.mem_map.2 ⟨r, hr, rfl⟩)
  · obtain ⟨u, hu, rfl⟩ := List.mem_map.1 h
    exact List.mem_append_right _ (List.mem_flatMap.2 ⟨u, hu, .head _⟩)

/-- A class is that of a declaration or of a variant of one. -/
theorem of_mem_classTopNames {a : TopName} (ha : a ∈ S.classTopNames) :
    ∃ name ∈ S.names, a = .declared name ∨ ∃ index, a = .variant name index := by
  rcases List.mem_append.1 ha with ha | ha
  · obtain ⟨r, hr, rfl⟩ := List.mem_map.1 ha
    exact ⟨r.name, List.mem_append_left _ (List.mem_map_of_mem hr), .inl rfl⟩
  · obtain ⟨u, hu, ha⟩ := List.mem_flatMap.1 ha
    refine ⟨u.name, List.mem_append_right _ (List.mem_map_of_mem hu), ?_⟩
    rcases List.mem_cons.1 ha with rfl | ha
    · exact .inl rfl
    · obtain ⟨index, -, rfl⟩ := List.mem_map.1 ha
      exact .inr ⟨index, rfl⟩

theorem nodup_classTopNames (h : S.names.Nodup) : S.classTopNames.Nodup := by
  obtain ⟨hrecords, hunions, hdisjoint⟩ := List.nodup_append.1 h
  refine List.nodup_append.2 ⟨?_, List.nodup_flatMap.2 ⟨fun u _ => ?_, ?_⟩, ?_⟩
  · have hmap := hrecords.map (f := TopName.declared) fun _ _ => TopName.declared.inj
    rwa [List.map_map] at hmap
  · refine List.nodup_cons.2 ⟨fun hmem => ?_, List.nodup_range.map fun _ _ h => ?_⟩
    · obtain ⟨_, -, h⟩ := List.mem_map.1 hmem
      cases h
    · cases h
      rfl
  -- Classes of different declarations differ by their owners.
  · refine (List.pairwise_map.1 hunions).imp fun hne a ha ha' => hne ?_
    rw [← UnionLayout.owner_of_mem_topNames ha, UnionLayout.owner_of_mem_topNames ha']
  · rintro a ha b hb rfl
    obtain ⟨r, hr, rfl⟩ := List.mem_map.1 ha
    obtain ⟨u, hu, hb⟩ := List.mem_flatMap.1 hb
    exact hdisjoint _ (List.mem_map_of_mem hr) _ (List.mem_map_of_mem hu)
      (UnionLayout.owner_of_mem_topNames hb)

theorem imported_sublist_importedNames (runtime : String) :
    (["dataclass"] ++ Module.helperNames runtime ++ runtimeNames).Sublist importedNames := by
  have hhelper : (Module.helperNames runtime).Sublist
      ["sys", "Path", "_runtime_path", "_added_to_path"] := by
    unfold Module.helperNames
    split
    · exact .refl _
    · exact List.nil_sublist _
  exact ((List.Sublist.refl _).append hhelper).append (.refl _)

theorem nodup_topNames (h : S.names.Nodup) : (S.topNames runtime).Nodup := by
  have himported : importedNames.Nodup := by decide
  refine List.nodup_append.2 ⟨List.nodup_append.2 ⟨?_, nodup_classTopNames h, ?_⟩, ?_, ?_⟩
  · exact ((imported_sublist_importedNames runtime).nodup himported).map
      fun _ _ => TopName.imported.inj
  · rintro a ha b hb rfl
    obtain ⟨name, -, rfl⟩ := List.mem_map.1 ha
    obtain ⟨_, -, h | ⟨_, h⟩⟩ := of_mem_classTopNames hb <;> cases h
  · exact List.nodup_range.map fun _ _ => TopName.codec.inj
  · rintro a ha b hb rfl
    obtain ⟨index, -, rfl⟩ := List.mem_map.1 hb
    rcases List.mem_append.1 ha with ha | ha
    · obtain ⟨_, -, h⟩ := List.mem_map.1 ha
      cases h
    · obtain ⟨_, -, h | ⟨_, h⟩⟩ := of_mem_classTopNames ha <;> cases h

theorem proper_of_mem_topNames (hfree : ∀ name ∈ S.names, FreeTypeName name) {a : TopName}
    (ha : a ∈ S.topNames runtime) : a.Proper := by
  rcases List.mem_append.1 ha with ha | ha
  · rcases List.mem_append.1 ha with ha | ha
    · obtain ⟨name, hname, rfl⟩ := List.mem_map.1 ha
      exact (imported_sublist_importedNames runtime).subset hname
    · obtain ⟨name, hname, rfl | ⟨index, rfl⟩⟩ := of_mem_classTopNames ha
      · exact hfree name hname
      · exact trivial
  · obtain ⟨index, -, rfl⟩ := List.mem_map.1 ha
    exact trivial

/-- The names that a module binds at its top are distinct. -/
theorem nodup_bindings (h : S.names.Nodup) (hfree : ∀ name ∈ S.names, FreeTypeName name)
    (runtime : String) : (S.emitted runtime).bindings.Nodup := by
  rw [← map_text_topNames]
  exact (nodup_topNames h).map_on fun a ha b hb heq =>
    TopName.eq_of_text_eq (proper_of_mem_topNames hfree ha) (proper_of_mem_topNames hfree hb) heq

end Layout

end WireSchema
