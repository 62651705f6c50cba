import WireSchema.Proofs.Layout.HookPath
import WireSchema.Proofs.Layout.Parsed

/-!
# Which annotations are accepted

Blocks are accepted if all have the known name and each argument is accepted on its own; what the
others say does not matter. So whether a text can stand for a hook is a question of this one argument.
-/

namespace WireSchema

namespace Vocabulary

variable {α : Type} (V : Vocabulary α)

/-- Merging goes through if all that is merged can be had. -/
theorem foldlM_merge_ok_iff {β : Type} {f : β → Resolved α} {bs : List β} {a : α} :
    (∃ c, bs.foldlM (fun acc b => return V.merge acc (← f b)) a = .ok c) ↔
      ∀ b ∈ bs, ∃ c, f b = .ok c := by
  induction bs generalizing a with
  | nil => exact ⟨fun _ => nofun, fun _ => ⟨a, rfl⟩⟩
  | cons b bs ih =>
    rw [List.forall_mem_cons, List.foldlM_cons]
    constructor
    · rintro ⟨c, h⟩
      obtain ⟨a', ha', h⟩ := exists_of_bind_eq_ok h
      obtain ⟨d, hd, -⟩ := exists_of_bind_eq_ok ha'
      exact ⟨⟨d, hd⟩, ih.1 ⟨c, h⟩⟩
    · rintro ⟨⟨d, hd⟩, h⟩
      obtain ⟨c, hc⟩ := ih.2 h
      refine ⟨c, ?_⟩
      rw [hd]
      exact hc

theorem resolveBlock_ok_iff {b : AnnotationBlock} :
    (∃ a, V.resolveBlock b = .ok a) ↔ ∀ x ∈ b.arguments, ∃ a, V.argument b.location x = .ok a :=
  V.foldlM_merge_ok_iff

theorem checkNames_ok_iff {blocks : List AnnotationBlock} :
    checkNames blocks = .ok () ↔ ∀ b ∈ blocks, b.name = blockName := by
  refine ⟨fun h => ?_, checkNames_eq_ok⟩
  induction blocks with
  | nil => exact nofun
  | cons b bs ih =>
    rw [checkNames] at h
    split at h
    next hb => exact List.forall_mem_cons.2 ⟨hb, ih h⟩
    next => cases h

theorem resolve_ok_iff {blocks : List AnnotationBlock} :
    (∃ a, V.resolve blocks = .ok a) ↔ ∀ b ∈ blocks, b.name = blockName ∧
      ∀ x ∈ b.arguments, ∃ a, V.argument b.location x = .ok a := by
  simp only [← V.resolveBlock_ok_iff]
  constructor
  · rintro ⟨a, h⟩
    obtain ⟨⟨⟩, hnames, h⟩ := exists_of_bind_eq_ok h
    exact fun b hb => ⟨checkNames_ok_iff.1 hnames b hb, V.foldlM_merge_ok_iff.1 ⟨a, h⟩ b hb⟩
  · intro h
    obtain ⟨a, ha⟩ := V.foldlM_merge_ok_iff.2 fun b hb => (h b hb).2
    refine ⟨a, ?_⟩
    rw [resolve, checkNames_eq_ok fun b hb => (h b hb).1]
    exact ha

/-- An argument can be added to blocks just if it is accepted on its own. -/
theorem resolve_insert_ok_iff {before after : List AnnotationBlock} {xs ys : List Argument}
    {x : Argument} {l : Location} :
    (∃ a, V.resolve (before ++ ⟨blockName, xs ++ x :: ys, l⟩ :: after) = .ok a) ↔
      (∃ a, V.argument l x = .ok a) ∧
        ∃ a, V.resolve (before ++ ⟨blockName, xs ++ ys, l⟩ :: after) = .ok a := by
  simp only [resolve_ok_iff, List.forall_mem_append, List.forall_mem_cons]
  constructor
  · rintro ⟨hbefore, ⟨hname, hxs, hx, hys⟩, hafter⟩
    exact ⟨hx, hbefore, ⟨hname, hxs, hys⟩, hafter⟩
  · rintro ⟨hx, hbefore, ⟨hname, hxs, hys⟩, hafter⟩
    exact ⟨hbefore, ⟨hname, hxs, hx, hys⟩, hafter⟩

/-- One argument alone comes to what it says. -/
theorem resolve_argument [Std.Associative V.merge] [Std.LawfulIdentity V.merge V.empty]
    (l : Location) (x : Argument) : V.resolve [⟨blockName, [x], l⟩] = V.argument l x := by
  have hid : V.merge V.empty = id := funext fun a => Std.LawfulLeftIdentity.left_id a
  rw [V.resolve_eq_foldlM (List.forall_mem_singleton.2 rfl)]
  simp only [List.foldlM_cons, List.foldlM_nil, bind_pure, extend, hid, id_map]

end Vocabulary

namespace TypeAttributes

/-- The argument that gives a hook is refused at its value, and for its text only. -/
theorem argument_hook (l : Location) (hook : HookKind) (s : String) (at₁ at₂ : Location) :
    argument l (.keyed hook.key (.string s) at₁ at₂) =
      if isHookPath s then .ok (hook.attributes s) else unresolved (.invalidHookPath s) at₂ := by
  cases hook <;> rfl

theorem argument_hook_ok_iff {l : Location} {hook : HookKind} {s : String} {at₁ at₂ : Location} :
    (∃ a, argument l (.keyed hook.key (.string s) at₁ at₂) = .ok a) ↔ IsHookText s := by
  rw [argument_hook, ← isHookPath_iff]
  split
  next h => exact iff_of_true ⟨_, rfl⟩ h
  next h => exact iff_of_false nofun h

theorem mem_hooks_iff {a : TypeAttributes} {path : String} :
    path ∈ a.hooks ↔ ∃ hook : HookKind, hook.path? a = some path := by
  rw [hooks, List.mem_filterMap]
  constructor
  · rintro ⟨p, hp, rfl⟩
    simp only [List.mem_cons, List.not_mem_nil, or_false] at hp
    rcases hp with h | h | h | h
    · exact ⟨.preEncode, h.symm⟩
    · exact ⟨.postEncode, h.symm⟩
    · exact ⟨.preDecode, h.symm⟩
    · exact ⟨.postDecode, h.symm⟩
  · rintro ⟨hook, h⟩
    refine ⟨some path, ?_, rfl⟩
    rw [← h]
    cases hook <;> simp [HookKind.path?]

theorem of_text?_eq_some {key s : String} {x : Argument} (h : x.text? key = some s) :
    ∃ at₁ at₂, x = .keyed key (.string s) at₁ at₂ := by
  unfold Argument.text? at h
  split at h
  next k s' at₁ at₂ =>
    split at h
    next hk =>
      cases h
      exact ⟨at₁, at₂, hk ▸ rfl⟩
    next => cases h
  next => cases h

/-- All hooks that attributes have were given by arguments, which were accepted. -/
theorem isHookText_of_resolve {blocks : List AnnotationBlock} {a : TypeAttributes}
    (h : resolve blocks = .ok a) {path : String} (hpath : path ∈ a.hooks) : IsHookText path := by
  obtain ⟨hook, hpath⟩ := mem_hooks_iff.1 hpath
  rw [(tells_of_resolve h).hooks] at hpath
  obtain ⟨x, hx, htext⟩ := List.mem_filterMap.1 (List.mem_of_getLast? hpath)
  obtain ⟨b, hb, hx⟩ := List.mem_flatMap.1 hx
  have hok := (vocabulary.resolve_ok_iff.1 ⟨a, h⟩ b hb).2 x hx
  obtain ⟨at₁, at₂, rfl⟩ := of_text?_eq_some htext
  exact argument_hook_ok_iff.1 hok

end TypeAttributes

/-! ## Layouts -/

theorem RecordLayout.resolve_annotations {known : List String} {r : Record} {l : RecordLayout}
    (h : ofRecord known r = .ok l) : TypeAttributes.resolve r.annotations = .ok l.attributes := by
  obtain ⟨attributes, hattributes, h⟩ := exists_of_bind_eq_ok h
  extract_lets rest at h
  have hrest : rest () = .ok l := by
    split at h
    next => cases h
    next => cases h
    next => exact h
  obtain ⟨_, -, h⟩ := exists_of_bind_eq_ok hrest
  obtain ⟨_, -, h⟩ := exists_of_bind_eq_ok h
  obtain ⟨_, -, h⟩ := exists_of_bind_eq_ok h
  cases h
  exact hattributes

/-- The hooks of a layout were given as texts for hooks. -/
theorem Layout.isHookText_of_ofText [Text.CharacterNames] {text : String} {S : Layout}
    (h : ofText text = .ok S)
    {a : TypeAttributes} (ha : a ∈ S.typeAttributes) {path : String} (hpath : path ∈ a.hooks) :
    IsHookText path := by
  obtain ⟨s, -, h⟩ := ofText_eq_ok_iff.1 h
  obtain ⟨records, hrecords, h⟩ := exists_of_bind_eq_ok h
  obtain ⟨unions, hunions, h⟩ := exists_of_bind_eq_ok h
  cases h
  rcases List.mem_append.1 ha with ha | ha
  · obtain ⟨l, hl, rfl⟩ := List.mem_map.1 ha
    obtain ⟨r, -, hr⟩ := exists_of_mem_mapM_ok hrecords hl
    exact TypeAttributes.isHookText_of_resolve (RecordLayout.resolve_annotations hr) hpath
  · obtain ⟨l, hl, rfl⟩ := List.mem_map.1 ha
    obtain ⟨u, -, hu⟩ := exists_of_mem_mapM_ok hunions hl
    obtain ⟨_, _, _, hattributes, -, -, -, -, rfl⟩ := UnionLayout.exists_of_ofUnion hu
    exact TypeAttributes.isHookText_of_resolve hattributes hpath

end WireSchema
