import WireSchema.Layout.Assign
import WireSchema.Proofs.Layout.Resolving

/-!
# How arguments are grouped into blocks

Merging is associative and leaves empty attributes out of account. So it does not matter whether
arguments are merged block by block and then the blocks, or all one after another, and merging one
argument is assigning what it says. A failure is that of the first argument that fails, in either way.
The location of union options is the one thing that remembers a block, and it can be told apart from
all else.
-/

namespace WireSchema

/-! ## Folds -/

section

variable {m : Type → Type} [Monad m] [LawfulMonad m] {α β γ : Type}

/-- Two folds with steps that correspond come to corresponding results. -/
theorem foldlM_hom {f : β → α → m β} {g : γ → α → m γ} (h : β → γ) {as : List α}
    (hfg : ∀ b, ∀ a ∈ as, h <$> f b a = g (h b) a) (b : β) :
    h <$> as.foldlM f b = as.foldlM g (h b) := by
  induction as generalizing b with
  | nil => simp only [List.foldlM_nil, map_pure]
  | cons a as ih =>
    have hrest := ih fun b a ha => hfg b a (.tail _ ha)
    simp only [List.foldlM_cons, map_bind, hrest, ← hfg b a (.head _), bind_map_left]

theorem foldlM_flatMap {f : α → List β} {g : γ → β → m γ} {as : List α} {c : γ} :
    (as.flatMap f).foldlM g c = as.foldlM (fun c a => (f a).foldlM g c) c := by
  induction as generalizing c with
  | nil => rfl
  | cons a as ih => simp only [List.flatMap_cons, List.foldlM_append, List.foldlM_cons, ih]

end

/-! ## Merging -/

theorem map_later {α β : Type} (f : α → β) (a b : Option α) :
    (later a b).map f = later (a.map f) (b.map f) := by
  cases b <;> simp

instance : Std.Associative FieldAttributes.merge where
  assoc a b c := by
    simp only [FieldAttributes.merge, later_assoc, Bool.or_assoc]

instance : Std.LawfulIdentity FieldAttributes.merge .empty where
  left_id a := by simp only [FieldAttributes.merge, FieldAttributes.empty, none_later, Bool.false_or]
  right_id a := by simp only [FieldAttributes.merge, FieldAttributes.empty, later_none, Bool.or_false]

instance : Std.Associative VariantAttributes.merge where
  assoc a b c := by simp only [VariantAttributes.merge, later_assoc]

instance : Std.LawfulIdentity VariantAttributes.merge .empty where
  left_id a := by simp only [VariantAttributes.merge, VariantAttributes.empty, none_later]
  right_id a := by simp only [VariantAttributes.merge, VariantAttributes.empty, later_none]

instance : Std.Associative UnionOptions.merge where
  assoc a b c := by simp only [UnionOptions.merge, later_assoc, Bool.or_assoc]

instance : Std.LawfulIdentity UnionOptions.merge .empty where
  left_id a := by simp only [UnionOptions.merge, UnionOptions.empty, none_later, Bool.false_or]
  right_id a := by simp only [UnionOptions.merge, UnionOptions.empty, later_none, Bool.or_false]

namespace UnionOptions

theorem mergeOptional_none (a : Option UnionOptions) : mergeOptional a none = a := by
  cases a <;> rfl

theorem mergeOptional_assoc (a b c : Option UnionOptions) :
    mergeOptional (mergeOptional a b) c = mergeOptional a (mergeOptional b c) := by
  cases a with
  | none => rfl
  | some a =>
    cases b with
    | none => rfl
    | some b =>
      cases c with
      | none => rfl
      | some c => exact congrArg some (Std.Associative.assoc a b c)

/-- Options that are given are merged with those there are, or else with none. -/
theorem mergeOptional_some (a : Option UnionOptions) (b : UnionOptions) :
    mergeOptional a (some b) = some ((a.getD .empty).merge b) := by
  cases a with
  | none => exact congrArg some (Std.LawfulLeftIdentity.left_id b).symm
  | some a => rfl

theorem isSome_mergeOptional (a b : Option UnionOptions) :
    (mergeOptional a b).isSome = (a.isSome || b.isSome) := by
  cases a <;> cases b <;> rfl

theorem width?_mergeOptional (a b : Option UnionOptions) :
    (mergeOptional a b).bind width? = later (a.bind width?) (b.bind width?) := by
  cases a with
  | none => exact (none_later _).symm
  | some a =>
    cases b with
    | none => exact (later_none _).symm
    | some b => rfl

theorem inferred_mergeOptional (a b : Option UnionOptions) :
    (mergeOptional a b).any inferred = (a.any inferred || b.any inferred) := by
  cases a with
  | none => rfl
  | some a =>
    cases b with
    | none => exact (Bool.or_false _).symm
    | some b => rfl

end UnionOptions

instance : Std.Associative TypeAttributes.merge where
  assoc a b c := by
    simp only [TypeAttributes.merge, later_assoc, UnionOptions.mergeOptional_assoc, Option.or_assoc]

instance : Std.LawfulIdentity TypeAttributes.merge .empty where
  left_id a := by
    simp only [TypeAttributes.merge, TypeAttributes.empty, none_later, Option.none_or]
    rfl
  right_id a := by
    simp only [TypeAttributes.merge, TypeAttributes.empty, later_none,
      UnionOptions.mergeOptional_none, Option.or_none]

/-! ## Blocks as one fold -/

theorem AnnotationBlock.name_of_mem_join {blocks : List AnnotationBlock} (l : Location) :
    ∀ b ∈ [join blocks l], b.name = blockName := by
  intro b hb
  rw [List.mem_singleton.1 hb, join]

namespace Vocabulary

variable {α : Type} (V : Vocabulary α)

/-- What has been said, merged with an argument of a block at `l`. -/
def extend (l : Location) (a : α) (x : Argument) : Resolved α := V.merge a <$> V.argument l x

theorem resolveBlock_eq (b : AnnotationBlock) :
    V.resolveBlock b = b.arguments.foldlM (V.extend b.location) V.empty := by
  simp only [resolveBlock, ← map_eq_pure_bind]
  rfl

/-- Where an argument can be assigned to what is kept of the attributes, so can a block. -/
theorem map_resolveBlock {β : Type} {keep : α → β} {assign : β → Argument → Resolved β}
    (hassign : ∀ l a x, keep <$> V.extend l a x = assign (keep a) x) (b : AnnotationBlock) :
    keep <$> V.resolveBlock b = b.arguments.foldlM assign (keep V.empty) := by
  rw [resolveBlock_eq]
  exact foldlM_hom keep (fun a x _ => hassign b.location a x) V.empty

theorem id_extend {assign : α → Argument → Resolved α}
    (hassign : ∀ l a x, V.extend l a x = assign a x) (l : Location) (a : α) (x : Argument) :
    id <$> V.extend l a x = assign (id a) x := by
  rw [id_map, hassign, id]

theorem resolveBlock_eq_assign {assign : α → Argument → Resolved α}
    (hassign : ∀ l a x, V.extend l a x = assign a x) (b : AnnotationBlock) :
    V.resolveBlock b = b.arguments.foldlM assign V.empty := by
  rw [← id_map (V.resolveBlock b), V.map_resolveBlock (V.id_extend hassign), id]

theorem checkNames_eq_ok {blocks : List AnnotationBlock} (h : ∀ b ∈ blocks, b.name = blockName) :
    checkNames blocks = .ok () := by
  induction blocks with
  | nil => rfl
  | cons b bs ih =>
    rw [checkNames, if_pos (h b (.head _))]
    exact ih fun b hb => h b (.tail _ hb)

variable [Std.Associative V.merge]

/-- What was said before can be merged before or after the arguments of a block. -/
theorem map_merge_foldlM (l : Location) (a b : α) (xs : List Argument) :
    V.merge a <$> xs.foldlM (V.extend l) b = xs.foldlM (V.extend l) (V.merge a b) := by
  refine foldlM_hom _ (fun b x _ => ?_) b
  rw [extend, extend, Functor.map_map]
  exact congrArg (· <$> V.argument l x) (funext fun c => (Std.Associative.assoc a b c).symm)

variable [Std.LawfulIdentity V.merge V.empty]

/-- Blocks are merged as their arguments are, one after another. -/
theorem resolve_eq_foldlM {blocks : List AnnotationBlock} (h : ∀ b ∈ blocks, b.name = blockName) :
    V.resolve blocks =
      blocks.foldlM (fun a b => b.arguments.foldlM (V.extend b.location) a) V.empty := by
  have hstep : ∀ (a : α) (b : AnnotationBlock), (do return V.merge a (← V.resolveBlock b)) =
      b.arguments.foldlM (V.extend b.location) a := by
    intro a b
    have hid : V.merge a V.empty = a := Std.LawfulRightIdentity.right_id a
    rw [← map_eq_pure_bind, resolveBlock_eq, map_merge_foldlM, hid]
  rw [resolve, checkNames_eq_ok h]
  simp only [hstep]
  rfl

/-- Where an argument can be assigned to what is kept, so can those of all blocks in one go. -/
theorem map_resolve {β : Type} {keep : α → β} {assign : β → Argument → Resolved β}
    (hassign : ∀ l a x, keep <$> V.extend l a x = assign (keep a) x)
    {blocks : List AnnotationBlock} (h : ∀ b ∈ blocks, b.name = blockName) :
    keep <$> V.resolve blocks =
      (blocks.flatMap AnnotationBlock.arguments).foldlM assign (keep V.empty) := by
  have hblock (a : α) (b : AnnotationBlock) : keep <$> b.arguments.foldlM (V.extend b.location) a =
      b.arguments.foldlM assign (keep a) :=
    foldlM_hom keep (fun a x _ => hassign b.location a x) a
  rw [V.resolve_eq_foldlM h, foldlM_flatMap]
  exact foldlM_hom keep (fun a b _ => hblock a b) V.empty

theorem resolve_eq_assign {assign : α → Argument → Resolved α}
    (hassign : ∀ l a x, V.extend l a x = assign a x) {blocks : List AnnotationBlock}
    (h : ∀ b ∈ blocks, b.name = blockName) :
    V.resolve blocks = (blocks.flatMap AnnotationBlock.arguments).foldlM assign V.empty := by
  rw [← id_map (V.resolve blocks), V.map_resolve (V.id_extend hassign) h, id]

theorem resolve_eq_join {assign : α → Argument → Resolved α}
    (hassign : ∀ l a x, V.extend l a x = assign a x) {blocks : List AnnotationBlock}
    (h : ∀ b ∈ blocks, b.name = blockName) (l : Location) :
    V.resolve blocks = V.resolve [.join blocks l] := by
  rw [V.resolve_eq_assign hassign h,
    V.resolve_eq_assign hassign (AnnotationBlock.name_of_mem_join l), List.flatMap_singleton]
  rfl

/-- What each step adds is told by the result. -/
theorem relates_of_foldlM {α β : Type} {V : Vocabulary α} {f : β → Resolved α}
    (R : List β → α → Prop)
    (hstep : ∀ bs a b c, R bs a → f b = .ok c → R (bs ++ [b]) (V.merge a c)) (bs : List β)
    {cs : List β} {a d : α} (ha : R bs a)
    (h : cs.foldlM (fun acc b => return V.merge acc (← f b)) a = .ok d) : R (bs ++ cs) d := by
  induction cs generalizing bs a with
  | nil =>
    cases h
    rwa [List.append_nil]
  | cons b cs ih =>
    rw [List.foldlM_cons] at h
    obtain ⟨a', ha', h⟩ := exists_of_bind_eq_ok h
    obtain ⟨c, hc, ha'⟩ := exists_of_bind_eq_ok ha'
    cases ha'
    rw [List.append_cons]
    exact ih _ (hstep bs a b c ha hc) h

section

variable {α : Type} {V : Vocabulary α} (R : List Argument → α → Prop) (hempty : R [] V.empty)
  (hmerge : ∀ xs ys a b, R xs a → R ys b → R (xs ++ ys) (V.merge a b))
  (hargument : ∀ l x a, V.argument l x = .ok a → R [x] a)

include hempty hmerge hargument

/-- What is told of each argument and kept by merging is told of a block. -/
theorem relates_of_resolveBlock {b : AnnotationBlock} {a : α} (h : V.resolveBlock b = .ok a) :
    R b.arguments a :=
  relates_of_foldlM R
    (fun xs a x c ha hc => hmerge xs [x] a c ha (hargument b.location x c hc)) [] hempty h

/-- So is it of all blocks, however the arguments are split. -/
theorem relates_of_resolve {blocks : List AnnotationBlock} {a : α} (h : V.resolve blocks = .ok a) :
    R (blocks.flatMap AnnotationBlock.arguments) a := by
  obtain ⟨_, -, h⟩ := exists_of_bind_eq_ok h
  refine relates_of_foldlM (fun bs a => R (bs.flatMap AnnotationBlock.arguments) a)
    (fun bs a b c ha hc => ?_) [] hempty h
  rw [List.flatMap_append, List.flatMap_singleton]
  exact hmerge _ _ a c ha (relates_of_resolveBlock R hempty hmerge hargument hc)

end

end Vocabulary

/-! ## One argument -/

/-- An argument in its proper form. -/
theorem of_checkForm {keys flags : List String} {x : Argument} {p : String × Option Literal}
    (h : checkForm keys flags x = .ok p) :
    (∃ v l l', x = .keyed p.1 v l l' ∧ p.1 ∈ keys) ∨ ∃ l, x = .flag p.1 l ∧ p.1 ∈ flags := by
  cases x with
  | bare => cases h
  | flag key l =>
    rw [checkForm] at h
    split at h
    next hflag =>
      cases h
      exact .inr ⟨l, rfl, List.contains_iff_mem.1 hflag⟩
    next => split at h <;> cases h
  | keyed key v l l' =>
    rw [checkForm] at h
    split at h
    next => cases h
    next =>
      split at h
      next hkey =>
        cases h
        exact .inl ⟨v, l, l', rfl, List.contains_iff_mem.1 hkey⟩
      next => cases h

theorem of_expectString {fault : String → LayoutFault} {x : Argument} {s : String}
    (h : expectString fault x = .ok s) :
    x.value? = some (.string s) := by
  unfold expectString at h
  split at h
  next hs =>
    cases h
    exact hs
  next => cases h
  next => cases h

theorem of_expectNumber {max : Nat} {x : Argument} {n : Nat} (h : expectNumber max x = .ok n) :
    x.value? = some (.integer n) := by
  unfold expectNumber at h
  split at h
  next hn =>
    split at h
    next =>
      cases h
      exact hn
    next => cases h
  next => cases h

/-- The last value behind all others is that of what comes last, if that has any. -/
theorem getLast?_filterMap_append {α β : Type} (f : α → Option β) (xs ys : List α) :
    ((xs ++ ys).filterMap f).getLast? =
      later (xs.filterMap f).getLast? (ys.filterMap f).getLast? := by
  rw [List.filterMap_append, List.getLast?_append]
  cases (ys.filterMap f).getLast? <;> simp

namespace FieldAttributes

/-- Merging an argument is assigning what it says. -/
theorem extend_eq_assign (l : Location) (a : FieldAttributes) (x : Argument) :
    vocabulary.extend l a x = assign a x := by
  simp only [Vocabulary.extend, vocabulary, argument, assign, map_bind]
  refine bind_congr fun p => ?_
  split
  · rw [map_bind]
    refine bind_congr fun n => ?_
    rw [map_pure, merge, later_some, Bool.or_false]
  · rw [map_pure, merge, later_none, Bool.or_true]

theorem tells_of_argument {l : Location} {x : Argument} {a : FieldAttributes}
    (h : argument l x = .ok a) : a.Tells [x] := by
  obtain ⟨⟨key, v⟩, hform, h⟩ := exists_of_bind_eq_ok h
  rcases of_checkForm hform with ⟨v, l, l', rfl, hkey⟩ | ⟨l, rfl, hkey⟩
  · obtain rfl := List.mem_singleton.1 hkey
    obtain ⟨n, hn, h⟩ := exists_of_bind_eq_ok h
    cases h
    cases of_expectNumber hn
    exact ⟨rfl, rfl⟩
  · obtain rfl := List.mem_singleton.1 hkey
    cases h
    exact ⟨rfl, rfl⟩

theorem tells_empty : empty.Tells [] := ⟨rfl, rfl⟩

theorem Tells.merge {xs ys : List Argument} {a b : FieldAttributes} (ha : a.Tells xs)
    (hb : b.Tells ys) : (a.merge b).Tells (xs ++ ys) where
  orderNo := by rw [getLast?_filterMap_append, ← ha.orderNo, ← hb.orderNo, FieldAttributes.merge]
  ignore := by rw [List.any_append, ← ha.ignore, ← hb.ignore, FieldAttributes.merge]

theorem tells_of_resolve {blocks : List AnnotationBlock} {a : FieldAttributes}
    (h : resolve blocks = .ok a) : a.Tells (blocks.flatMap AnnotationBlock.arguments) :=
  Vocabulary.relates_of_resolve (fun xs a => a.Tells xs) tells_empty
    (fun _ _ _ _ => Tells.merge) (fun l _ _ => tells_of_argument (l := l)) h

instance : Std.Associative vocabulary.merge := inferInstanceAs (Std.Associative merge)

instance : Std.LawfulIdentity vocabulary.merge vocabulary.empty :=
  inferInstanceAs (Std.LawfulIdentity merge empty)

theorem resolveBlock_eq_ofBlock (b : AnnotationBlock) : vocabulary.resolveBlock b = ofBlock b :=
  vocabulary.resolveBlock_eq_assign extend_eq_assign b

theorem resolve_eq_join {blocks : List AnnotationBlock} (h : ∀ b ∈ blocks, b.name = blockName)
    (l : Location) : resolve blocks = resolve [.join blocks l] :=
  vocabulary.resolve_eq_join extend_eq_assign h l

end FieldAttributes

namespace VariantAttributes

theorem extend_eq_assign (l : Location) (a : VariantAttributes) (x : Argument) :
    vocabulary.extend l a x = assign a x := by
  simp only [Vocabulary.extend, vocabulary, argument, assign, map_bind, map_pure, merge, later_some]

theorem tells_of_argument {l : Location} {x : Argument} {a : VariantAttributes}
    (h : argument l x = .ok a) : a.Tells [x] := by
  obtain ⟨⟨key, v⟩, hform, h⟩ := exists_of_bind_eq_ok h
  obtain ⟨n, hn, h⟩ := exists_of_bind_eq_ok h
  cases h
  rcases of_checkForm hform with ⟨v, l, l', rfl, hkey⟩ | ⟨l, rfl, hkey⟩
  · obtain rfl := List.mem_singleton.1 hkey
    cases of_expectNumber hn
    exact ⟨rfl⟩
  · cases hkey

theorem tells_empty : empty.Tells [] := ⟨rfl⟩

theorem Tells.merge {xs ys : List Argument} {a b : VariantAttributes} (ha : a.Tells xs)
    (hb : b.Tells ys) : (a.merge b).Tells (xs ++ ys) where
  value := by rw [getLast?_filterMap_append, ← ha.value, ← hb.value, VariantAttributes.merge]

theorem tells_of_resolve {blocks : List AnnotationBlock} {a : VariantAttributes}
    (h : resolve blocks = .ok a) : a.Tells (blocks.flatMap AnnotationBlock.arguments) :=
  Vocabulary.relates_of_resolve (fun xs a => a.Tells xs) tells_empty
    (fun _ _ _ _ => Tells.merge) (fun l _ _ => tells_of_argument (l := l)) h

instance : Std.Associative vocabulary.merge := inferInstanceAs (Std.Associative merge)

instance : Std.LawfulIdentity vocabulary.merge vocabulary.empty :=
  inferInstanceAs (Std.LawfulIdentity merge empty)

theorem resolveBlock_eq_ofBlock (b : AnnotationBlock) : vocabulary.resolveBlock b = ofBlock b :=
  vocabulary.resolveBlock_eq_assign extend_eq_assign b

theorem resolve_eq_join {blocks : List AnnotationBlock} (h : ∀ b ∈ blocks, b.name = blockName)
    (l : Location) : resolve blocks = resolve [.join blocks l] :=
  vocabulary.resolve_eq_join extend_eq_assign h l

end VariantAttributes

namespace TypeAttributes

theorem place_merge_attributes (hook : HookKind) (path : String) (a : TypeAttributes) :
    (a.merge (hook.attributes path)).place none = hook.assign path (a.place none) := by
  cases hook <;>
    simp only [HookKind.attributes, HookKind.assign, merge, place, later_some, later_none,
      UnionOptions.mergeOptional_none]

theorem place_merge_options (a : TypeAttributes) (o : UnionOptions) (l : Location) :
    (a.merge { unionOptions := some o, unionLocation := some l }).place none =
      { a.place none with unionOptions := some ((a.unionOptions.getD .empty).merge o) } := by
  simp only [merge, place, later_none, UnionOptions.mergeOptional_some]

/-- Merging an argument is assigning what it says, but for the location of its block. -/
theorem place_extend (l : Location) (a : TypeAttributes) (x : Argument) :
    place none <$> vocabulary.extend l a x = assign (a.place none) x := by
  simp only [Vocabulary.extend, vocabulary, argument, assign, map_bind]
  refine bind_congr fun p => ?_
  cases HookKind.all.find? (·.key = p.1) with
  | some hook =>
    simp only [map_bind]
    refine bind_congr fun path => ?_
    split
    · exact congrArg Except.ok (place_merge_attributes hook path a)
    · rfl
  | none =>
    dsimp only
    split
    · simp only [map_bind]
      refine bind_congr fun name => ?_
      cases TagWidth.ofName? name with
      | some w => exact congrArg Except.ok (place_merge_options a _ l)
      | none => rfl
    · exact congrArg Except.ok (place_merge_options a _ l)

/-- What an argument can be, and what it gives then. -/
inductive Reads (l : Location) : Argument → TypeAttributes → Prop
  | hook (hook : HookKind) (path : String) (at₁ at₂ : Location) :
    Reads l (.keyed hook.key (.string path) at₁ at₂) (hook.attributes path)
  | width (w : TagWidth) (at₁ at₂ : Location) :
    Reads l (.keyed "encoding_type" (.string w.name) at₁ at₂)
      { unionOptions := some { width? := some w }, unionLocation := some l }
  | inferred (at₁ : Location) :
    Reads l (.flag "inferred_values" at₁)
      { unionOptions := some { inferred := true }, unionLocation := some l }

theorem reads_of_argument {l : Location} {x : Argument} {a : TypeAttributes}
    (h : argument l x = .ok a) : Reads l x a := by
  obtain ⟨⟨key, v⟩, hform, h⟩ := exists_of_bind_eq_ok h
  dsimp only at h
  cases hfind : HookKind.all.find? (·.key = key) with
  | some hook =>
    rw [hfind] at h
    obtain rfl : hook.key = key := by simpa using List.find?_some hfind
    obtain ⟨path, hpath, h⟩ := exists_of_bind_eq_ok h
    split at h
    next =>
      cases h
      rcases of_checkForm hform with ⟨v, l, l', rfl, -⟩ | ⟨l, rfl, -⟩ <;>
        cases of_expectString hpath
      exact .hook hook path l l'
    next => cases h
  | none =>
    rw [hfind] at h
    have hnot : key ∉ HookKind.all.map HookKind.key := by simpa using hfind
    dsimp only at h
    split at h
    next hkey =>
      subst hkey
      obtain ⟨name, hname, h⟩ := exists_of_bind_eq_ok h
      split at h
      next w hw =>
        cases h
        obtain rfl : w.name = name := by simpa using List.find?_some hw
        rcases of_checkForm hform with ⟨v, l, l', rfl, -⟩ | ⟨l, rfl, -⟩ <;>
          cases of_expectString hname
        exact .width w l l'
      next => cases h
    next hkey =>
      cases h
      rcases of_checkForm hform with ⟨v, l, l', rfl, hmem⟩ | ⟨l, rfl, hmem⟩
      · exact absurd hmem (by simp [hnot, hkey])
      · obtain rfl := List.mem_singleton.1 hmem
        exact .inferred l

theorem Reads.tells {l : Location} {x : Argument} {a : TypeAttributes} (h : Reads l x a) :
    a.Tells [x] := by
  cases h with
  | hook hook path at₁ at₂ =>
    cases hook <;> exact ⟨fun hook => by cases hook <;> rfl, rfl, rfl, rfl⟩
  | width w at₁ at₂ => exact ⟨fun hook => by cases hook <;> rfl, rfl, rfl, rfl⟩
  | inferred at₁ => exact ⟨fun hook => by cases hook <;> rfl, rfl, rfl, rfl⟩

theorem Reads.unionLocation {l : Location} {x : Argument} {a : TypeAttributes} (h : Reads l x a) :
    a.unionLocation = if x.isUnionOption then some l else none := by
  cases h with
  | hook hook path at₁ at₂ => cases hook <;> rfl
  | width w at₁ at₂ => rfl
  | inferred at₁ => rfl

theorem tells_empty : empty.Tells [] := ⟨fun hook => by cases hook <;> rfl, rfl, rfl, rfl⟩

theorem Tells.merge {xs ys : List Argument} {a b : TypeAttributes} (ha : a.Tells xs)
    (hb : b.Tells ys) : (a.merge b).Tells (xs ++ ys) where
  hooks hook := by
    rw [getLast?_filterMap_append, ← ha.hooks, ← hb.hooks]
    cases hook <;> rfl
  options := by
    rw [List.any_append, ← ha.options, ← hb.options, TypeAttributes.merge,
      UnionOptions.isSome_mergeOptional]
  width := by
    rw [getLast?_filterMap_append, ← ha.width, ← hb.width, TypeAttributes.merge,
      UnionOptions.width?_mergeOptional, map_later]
  inferred := by
    rw [List.any_append, ← ha.inferred, ← hb.inferred, TypeAttributes.merge,
      UnionOptions.inferred_mergeOptional]

theorem tells_of_resolveBlock {b : AnnotationBlock} {a : TypeAttributes}
    (h : vocabulary.resolveBlock b = .ok a) : a.Tells b.arguments :=
  Vocabulary.relates_of_resolveBlock (fun xs a => a.Tells xs) tells_empty
    (fun _ _ _ _ => Tells.merge) (fun _ _ _ h => (reads_of_argument h).tells) h

theorem tells_of_resolve {blocks : List AnnotationBlock} {a : TypeAttributes}
    (h : resolve blocks = .ok a) : a.Tells (blocks.flatMap AnnotationBlock.arguments) :=
  Vocabulary.relates_of_resolve (fun xs a => a.Tells xs) tells_empty
    (fun _ _ _ _ => Tells.merge) (fun _ _ _ h => (reads_of_argument h).tells) h

/-! The location of union options is that of the first block that has any. -/

theorem optionLocation?_append (bs cs : List AnnotationBlock) :
    optionLocation? (bs ++ cs) = (optionLocation? bs).or (optionLocation? cs) := by
  rw [optionLocation?, List.find?_append]
  cases h : bs.find? fun b => b.arguments.any Argument.isUnionOption <;> simp [optionLocation?, h]

theorem optionLocation?_singleton (b : AnnotationBlock) :
    optionLocation? [b] =
      if b.arguments.any Argument.isUnionOption then some b.location else none := by
  rw [optionLocation?, List.find?_singleton]
  split <;> rfl

theorem unionLocation_of_resolveBlock {b : AnnotationBlock} {a : TypeAttributes}
    (h : vocabulary.resolveBlock b = .ok a) : a.unionLocation = optionLocation? [b] := by
  rw [optionLocation?_singleton]
  refine Vocabulary.relates_of_foldlM (fun xs a => a.unionLocation =
    if xs.any Argument.isUnionOption then some b.location else none)
    (fun xs a x c ha hc => ?_) [] rfl h
  have hc := (reads_of_argument hc).unionLocation
  show a.unionLocation.or c.unionLocation = _
  rw [ha, hc, List.any_append, List.any_cons, List.any_nil, Bool.or_false]
  cases xs.any Argument.isUnionOption <;> simp

theorem unionLocation_of_resolve {blocks : List AnnotationBlock} {a : TypeAttributes}
    (h : resolve blocks = .ok a) : a.unionLocation = optionLocation? blocks := by
  obtain ⟨_, -, h⟩ := exists_of_bind_eq_ok h
  refine Vocabulary.relates_of_foldlM (fun bs a => a.unionLocation = optionLocation? bs)
    (fun bs a b c ha hc => ?_) [] rfl h
  rw [optionLocation?_append, ← ha, ← unionLocation_of_resolveBlock hc]
  rfl

/-- All but the location is as assigned, and the location is known. -/
theorem eq_of_place {r s : Resolved TypeAttributes} {l? : Option Location}
    (hr : ∀ a, r = .ok a → a.unionLocation = l?) (h : place none <$> r = s) :
    r = place l? <$> s := by
  subst h
  cases r with
  | error f => rfl
  | ok a =>
    have hl : a.place l? = a := by rw [place, ← hr a rfl]
    exact congrArg Except.ok hl.symm

instance : Std.Associative vocabulary.merge := inferInstanceAs (Std.Associative merge)

instance : Std.LawfulIdentity vocabulary.merge vocabulary.empty :=
  inferInstanceAs (Std.LawfulIdentity merge empty)

theorem resolve_eq_assign {blocks : List AnnotationBlock} (h : ∀ b ∈ blocks, b.name = blockName) :
    resolve blocks = place (optionLocation? blocks) <$>
      (blocks.flatMap AnnotationBlock.arguments).foldlM assign empty :=
  eq_of_place (fun _ => unionLocation_of_resolve) (vocabulary.map_resolve place_extend h)

theorem resolve_eq_join {blocks : List AnnotationBlock} (h : ∀ b ∈ blocks, b.name = blockName)
    (l : Location) :
    resolve blocks = place (optionLocation? blocks) <$> resolve [.join blocks l] := by
  rw [resolve_eq_assign h, resolve_eq_assign (AnnotationBlock.name_of_mem_join l),
    List.flatMap_singleton, Functor.map_map]
  rfl

/-- A block leaves its location if it gives any options. -/
theorem resolveBlock_eq_ofBlock (b : AnnotationBlock) : vocabulary.resolveBlock b = ofBlock b := by
  have hplace := vocabulary.map_resolveBlock place_extend b
  have hofBlock : ofBlock b = (fun a => a.place (if a.unionOptions.isSome then some b.location
      else none)) <$> place none <$> vocabulary.resolveBlock b := by
    rw [hplace]
    exact (map_eq_pure_bind ..).symm
  rw [hofBlock]
  cases hb : vocabulary.resolveBlock b with
  | error f => rfl
  | ok a =>
    have hl := unionLocation_of_resolveBlock hb
    rw [optionLocation?_singleton, ← (tells_of_resolveBlock hb).options] at hl
    refine congrArg Except.ok ?_
    show a = a.place (if a.unionOptions.isSome then some b.location else none)
    rw [← hl, place]

end TypeAttributes

/-! ## Blocks do not matter -/

/-- Attributes of every kind are merged like the arguments that give them. Inside a block arguments
are assigned one over the other. For each place that annotations can stand at, the blocks come to
what one block with all their arguments comes to, or fail as it does, but for the location of union
options, which is that of the first block that has any. What is given last counts, and a flag counts
wherever it is given. -/
theorem resolve_joined {blocks : List AnnotationBlock} (h : ∀ b ∈ blocks, b.name = blockName)
    (l : Location) :
    ((Std.Associative TypeAttributes.merge ∧
        Std.LawfulIdentity TypeAttributes.merge .empty) ∧
      (Std.Associative FieldAttributes.merge ∧
        Std.LawfulIdentity FieldAttributes.merge .empty) ∧
      (Std.Associative VariantAttributes.merge ∧
        Std.LawfulIdentity VariantAttributes.merge .empty) ∧
      Std.Associative UnionOptions.merge ∧
        Std.LawfulIdentity UnionOptions.merge .empty) ∧
    (∀ b, TypeAttributes.vocabulary.resolveBlock b = TypeAttributes.ofBlock b ∧
      FieldAttributes.vocabulary.resolveBlock b = FieldAttributes.ofBlock b ∧
      VariantAttributes.vocabulary.resolveBlock b = VariantAttributes.ofBlock b) ∧
    (TypeAttributes.resolve blocks =
        TypeAttributes.place (TypeAttributes.optionLocation? blocks) <$>
          TypeAttributes.resolve [.join blocks l] ∧
      ∀ a, TypeAttributes.resolve blocks = .ok a →
        a.Tells (blocks.flatMap AnnotationBlock.arguments)) ∧
    (FieldAttributes.resolve blocks = FieldAttributes.resolve [.join blocks l] ∧
      ∀ a, FieldAttributes.resolve blocks = .ok a →
        a.Tells (blocks.flatMap AnnotationBlock.arguments)) ∧
    (VariantAttributes.resolve blocks = VariantAttributes.resolve [.join blocks l] ∧
      ∀ a, VariantAttributes.resolve blocks = .ok a →
        a.Tells (blocks.flatMap AnnotationBlock.arguments)) :=
  ⟨⟨⟨inferInstance, inferInstance⟩, ⟨inferInstance, inferInstance⟩,
      ⟨inferInstance, inferInstance⟩, inferInstance, inferInstance⟩,
    fun b => ⟨TypeAttributes.resolveBlock_eq_ofBlock b, FieldAttributes.resolveBlock_eq_ofBlock b,
      VariantAttributes.resolveBlock_eq_ofBlock b⟩,
    ⟨TypeAttributes.resolve_eq_join h l, fun _ => TypeAttributes.tells_of_resolve⟩,
    ⟨FieldAttributes.resolve_eq_join h l, fun _ => FieldAttributes.tells_of_resolve⟩,
    ⟨VariantAttributes.resolve_eq_join h l, fun _ => VariantAttributes.tells_of_resolve⟩⟩

/-- Two blocks with options and a hook in each, so that the second takes the place of the first. -/
theorem resolve_joined_of_override :
    let at₁ : Location := ⟨1, 2⟩
    let at₂ : Location := ⟨2, 2⟩
    let blocks : List AnnotationBlock :=
      [⟨"codec", [.flag "inferred_values" at₁, .keyed "pre_enc_func" (.string "m:f") at₁ at₁], at₁⟩,
        ⟨"codec", [.keyed "pre_enc_func" (.string "m:g") at₂ at₂,
          .keyed "encoding_type" (.string "u8") at₂ at₂], at₂⟩]
    let a : TypeAttributes :=
      { preEncode := some "m:g", unionOptions := some ⟨some .u8, true⟩, unionLocation := some at₁ }
    (∀ b ∈ blocks, b.name = blockName) ∧
      TypeAttributes.resolve [.join blocks at₂] = .ok (a.place (some at₂)) ∧
      TypeAttributes.resolve blocks = .ok a ∧
      a.Tells (blocks.flatMap AnnotationBlock.arguments) := by
  intro at₁ at₂ blocks a
  have hnames : ∀ b ∈ blocks, b.name = blockName := by decide
  obtain ⟨-, -, ⟨hjoin, htells⟩, -⟩ := resolve_joined hnames at₂
  have hone : TypeAttributes.resolve [.join blocks at₂] = .ok (a.place (some at₂)) := by rfl
  have hall : TypeAttributes.resolve blocks = .ok a := by
    rw [hjoin, hone]
    rfl
  exact ⟨hnames, hone, hall, htells a hall⟩

end WireSchema
