import Mathlib.Data.List.Forall2
import WireSchema.Layout.Rearrange
import WireSchema.Proofs.Layout.Resolving
import WireSchema.Schema.Unplaced

/-!
# Annotations that are written otherwise

Blocks are resolved argument by argument, so if each argument sets what the argument in its place
does, the blocks come to the same settings. Places do not matter, and other order numbers give other
order numbers.
-/

namespace WireSchema

/-! ## Where one succeeds, another does -/

/-- Where the first succeeds, so does the second, and their outcomes are related. -/
def Succeeds {ε α β : Type} (R : α → β → Prop) (x : Except ε α) (y : Except ε β) : Prop :=
  ∀ a, x = .ok a → ∃ b, y = .ok b ∧ R a b

namespace Succeeds

variable {ε α β γ δ : Type} {R : α → β → Prop} {Q : γ → δ → Prop}

theorem ok {a : α} {b : β} (h : R a b) : Succeeds R (.ok a : Except ε α) (.ok b) := by
  intro a' ha'
  cases ha'
  exact ⟨b, rfl, h⟩

theorem error (e : ε) (y : Except ε β) : Succeeds R (.error e) y := nofun

theorem bind {x : Except ε α} {y : Except ε β} {f : α → Except ε γ} {g : β → Except ε δ}
    (h : Succeeds R x y) (hfg : ∀ a b, R a b → Succeeds Q (f a) (g b)) :
    Succeeds Q (x >>= f) (y >>= g) := by
  intro c hc
  obtain ⟨a, ha, hc⟩ := exists_of_bind_eq_ok hc
  obtain ⟨b, rfl, hab⟩ := h a ha
  exact hfg a b hab c hc

theorem ite {c d : Prop} [Decidable c] [Decidable d] (hcd : d ↔ c) {x x' : Except ε α}
    {y y' : Except ε β} (h : c → Succeeds R x y) (h' : ¬ c → Succeeds R x' y') :
    Succeeds R (if c then x else x') (if d then y else y') := by
  by_cases hc : c
  · rw [if_pos hc, if_pos (hcd.2 hc)]
    exact h hc
  · rw [if_neg hc, if_neg (mt hcd.1 hc)]
    exact h' hc

theorem mapM {B : γ → δ → Prop} {f : γ → Except ε α} {g : δ → Except ε β} {cs : List γ}
    {ds : List δ} (h : List.Forall₂ B cs ds) (hfg : ∀ c d, B c d → Succeeds R (f c) (g d)) :
    Succeeds (List.Forall₂ R) (cs.mapM f) (ds.mapM g) := by
  induction h with
  | nil => exact .ok .nil
  | cons hcd _ ih =>
    rw [List.mapM_cons, List.mapM_cons]
    exact (hfg _ _ hcd).bind fun a b hab => ih.bind fun as bs habs => .ok (.cons hab habs)

theorem foldlM {B : γ → δ → Prop} {f : α → γ → Except ε α} {g : β → δ → Except ε β} {cs : List γ}
    {ds : List δ} (h : List.Forall₂ B cs ds)
    (hfg : ∀ a b c d, R a b → B c d → Succeeds R (f a c) (g b d)) {a : α} {b : β} (hab : R a b) :
    Succeeds R (cs.foldlM f a) (ds.foldlM g b) := by
  induction h generalizing a b with
  | nil => exact .ok hab
  | cons hcd _ ih =>
    rw [List.foldlM_cons, List.foldlM_cons]
    exact (hfg _ _ _ _ hab hcd).bind fun a b hab => ih hab

end Succeeds

theorem forall₂_of_map_eq {α β γ : Type} {f : α → γ} {g : β → γ} {as : List α} {bs : List β}
    (h : bs.map g = as.map f) : List.Forall₂ (fun a b => g b = f a) as bs := by
  induction as generalizing bs with
  | nil =>
    rw [List.map_eq_nil_iff.1 h]
    exact .nil
  | cons a as ih =>
    obtain ⟨b, bs', rfl, hb, hbs⟩ := List.map_eq_cons_iff.1 h
    exact .cons hb (ih hbs)

/-! ## Blocks -/

/-- Blocks of the same name, argument by argument. -/
def AnnotationBlock.Matches (A : Argument → Argument → Prop) (b b' : AnnotationBlock) : Prop :=
  b'.name = b.name ∧ List.Forall₂ A b.arguments b'.arguments

namespace Vocabulary

variable {A : Argument → Argument → Prop} {blocks blocks' : List AnnotationBlock}
  (h : List.Forall₂ (AnnotationBlock.Matches A) blocks blocks')
include h

theorem checkNames_succeeds : Succeeds Eq (checkNames blocks) (checkNames blocks') := by
  induction h with
  | nil => exact .ok rfl
  | cons hb _ ih =>
    rw [checkNames, checkNames]
    exact .ite (by rw [hb.1]) (fun _ => ih) fun _ => .error _ _

/-- Blocks come to settings that are related, if argument by argument they do. -/
theorem resolve_succeeds {α : Type} {V : Vocabulary α} {R : α → α → Prop}
    (hempty : R V.empty V.empty)
    (hmerge : ∀ a a' b b', R a a' → R b b' → R (V.merge a b) (V.merge a' b'))
    (hargument : ∀ l l' x x', A x x' → Succeeds R (V.argument l x) (V.argument l' x')) :
    Succeeds R (V.resolve blocks) (V.resolve blocks') := by
  refine (checkNames_succeeds h).bind fun _ _ _ => ?_
  refine .foldlM h (fun a a' b b' ha hb => ?_) hempty
  refine Succeeds.bind (R := R) ?_ fun c c' hc => .ok (hmerge a a' c c' ha hc)
  refine .foldlM hb.2 (fun a a' x x' ha hx => ?_) hempty
  exact (hargument _ _ x x' hx).bind fun c c' hc => .ok (hmerge a a' c c' ha hc)

end Vocabulary

/-! ## Arguments -/

def Argument.key? : Argument → Option String
  | keyed key _ _ _ | flag key _ => some key
  | bare _ _ => none

/-- The same argument, wherever it stands, but for order numbers. -/
def Argument.Rewritten (g : Nat → Nat) (x x' : Argument) : Prop :=
  x'.unplaced = (x.renumber g).unplaced

theorem Argument.renumber_id (x : Argument) : x.renumber id = x := by
  cases x with
  | keyed key v l l₁ => cases v <;> simp [renumber]
  | flag | bare => rfl

theorem Argument.rewritten_id {x x' : Argument} : x.Rewritten id x' ↔ x'.unplaced = x.unplaced := by
  rw [Rewritten, renumber_id]

theorem Argument.value?_of_unplaced_eq {x x' : Argument} (h : x'.unplaced = x.unplaced) :
    x'.value? = x.value? := by
  have hvalue : ∀ y : Argument, y.unplaced.value? = y.value? := fun y => by cases y <;> rfl
  rw [← hvalue x', h, hvalue]

section

variable {g : Nat → Nat} {x x' : Argument}

/-- An argument has its proper form whatever number it gives. -/
theorem checkForm_succeeds (h : x.Rewritten g x') (keys flags : List String) :
    Succeeds (fun p p' => p'.1 = p.1 ∧ x.key? = some p.1) (checkForm keys flags x)
      (checkForm keys flags x') := by
  cases x with
  | keyed key v l l₁ =>
    obtain ⟨w, hw⟩ : ∃ w, ((Argument.keyed key v l l₁).renumber g).unplaced =
        .keyed key w .start .start := by
      cases v <;> exact ⟨_, rfl⟩
    rw [Argument.Rewritten, hw] at h
    cases x' with
    | flag | bare => cases h
    | keyed key' v' l' l₁' =>
      obtain ⟨rfl, -⟩ := Argument.keyed.inj h
      exact .ite Iff.rfl (fun _ => .error _ _) fun _ =>
        .ite Iff.rfl (fun _ => .ok ⟨rfl, rfl⟩) fun _ => .error _ _
  | flag key l =>
    cases x' with
    | keyed | bare => cases h
    | flag key' l' =>
      obtain ⟨rfl, -⟩ := Argument.flag.inj h
      exact .ite Iff.rfl (fun _ => .ok ⟨rfl, rfl⟩) fun _ =>
        .ite Iff.rfl (fun _ => .error _ _) fun _ => .error _ _
  | bare v l => exact .error _ _

theorem expectNumber_succeeds (h : x'.value? = x.value?) (max : Nat) :
    Succeeds Eq (expectNumber max x) (expectNumber max x') := by
  rw [expectNumber, expectNumber, h]
  split
  · exact .ite Iff.rfl (fun _ => .ok rfl) fun _ => .error _ _
  · exact .error _ _

theorem expectString_succeeds (h : x'.value? = x.value?) (fault : String → LayoutFault) :
    Succeeds Eq (expectString fault x) (expectString fault x') := by
  rw [expectString, expectString, h]
  split
  · exact .ok rfl
  · exact .error _ _
  · exact .error _ _

/-- An order number is given as another one. -/
theorem expectNumber_succeeds_of_renumber (h : x.Rewritten g x') (hkey : x.key? = some "order_no")
    {max : Nat} (hmax : ∀ n, x.orderNo? = some n → n ≤ max → g n ≤ max) :
    Succeeds (fun n n' => x.orderNo? = some n ∧ n' = g n) (expectNumber max x)
      (expectNumber max x') := by
  cases x with
  | bare v l => cases hkey
  | flag key l => exact .error _ _
  | keyed key v l l₁ =>
    cases hkey
    cases v with
    | string | codePoints | name => exact .error _ _
    | integer n =>
      cases x' with
      | flag | bare => cases h
      | keyed key' v' l' l₁' =>
        obtain ⟨rfl, rfl, -⟩ := Argument.keyed.inj h
        intro a ha
        simp only [expectNumber, Argument.value?, if_true] at ha ⊢
        split at ha
        next hn =>
          cases ha
          rw [if_pos (hmax n rfl hn)]
          exact ⟨g n, rfl, rfl, rfl⟩
        next => cases ha

end

/-! ## Settings -/

/-- The same blocks, wherever they stand, but for order numbers. -/
def BlocksRewritten (g : Nat → Nat) (blocks blocks' : List AnnotationBlock) : Prop :=
  blocks'.map AnnotationBlock.unplaced = blocks.map fun b => (b.renumber g).unplaced

theorem BlocksRewritten.forall₂ {g : Nat → Nat} {blocks blocks' : List AnnotationBlock}
    (h : BlocksRewritten g blocks blocks') {P : Argument → Prop}
    (hP : ∀ b ∈ blocks, ∀ x ∈ b.arguments, P x) :
    List.Forall₂ (AnnotationBlock.Matches fun x x' => P x ∧ x.Rewritten g x') blocks blocks' := by
  refine ((List.forall₂_and_left _ _).2 ⟨hP, forall₂_of_map_eq h⟩).imp fun b b' hb => ?_
  obtain ⟨hname, harguments, -⟩ := AnnotationBlock.mk.inj hb.2
  rw [AnnotationBlock.renumber, List.map_map] at harguments
  exact ⟨hname, (List.forall₂_and_left _ _).2 ⟨hb.1, forall₂_of_map_eq harguments⟩⟩

/-- The same blocks, wherever they stand. -/
def SameBlocks (blocks blocks' : List AnnotationBlock) : Prop :=
  blocks'.map AnnotationBlock.unplaced = blocks.map AnnotationBlock.unplaced

theorem AnnotationBlock.renumber_id (b : AnnotationBlock) : b.renumber id = b := by
  rw [renumber, List.map_congr_left fun x _ => Argument.renumber_id x, List.map_id']

theorem blocksRewritten_id {blocks blocks' : List AnnotationBlock} :
    BlocksRewritten id blocks blocks' ↔ SameBlocks blocks blocks' := by
  simp only [BlocksRewritten, AnnotationBlock.renumber_id]
  rfl

theorem SameBlocks.forall₂ {blocks blocks' : List AnnotationBlock} (h : SameBlocks blocks blocks') :
    List.Forall₂ (AnnotationBlock.Matches fun x x' => x'.unplaced = x.unplaced) blocks blocks' := by
  refine ((blocksRewritten_id.2 h).forall₂ (P := fun _ => True) fun _ _ _ _ => trivial).imp
    fun b b' hb => ⟨hb.1, hb.2.imp fun x x' hx => Argument.rewritten_id.1 hx.2⟩

theorem VariantAttributes.resolve_succeeds {blocks blocks' : List AnnotationBlock}
    (h : SameBlocks blocks blocks') : Succeeds Eq (resolve blocks) (resolve blocks') := by
  refine Vocabulary.resolve_succeeds h.forall₂ rfl (fun _ _ _ _ ha hb => by rw [ha, hb])
    fun l l' x x' hx => ?_
  refine (checkForm_succeeds (Argument.rewritten_id.2 hx) _ _).bind fun _ _ _ => ?_
  refine (expectNumber_succeeds (Argument.value?_of_unplaced_eq hx) _).bind fun n n' hn => ?_
  exact .ok (by rw [hn])

/-- Settings without the place of an option. -/
def TypeAttributes.unplaced (a : TypeAttributes) : TypeAttributes := { a with unionLocation := none }

@[simp] theorem TypeAttributes.unionOptions_unplaced (a : TypeAttributes) :
    a.unplaced.unionOptions = a.unionOptions := rfl

@[simp] theorem TypeAttributes.hooks_unplaced (a : TypeAttributes) : a.unplaced.hooks = a.hooks := rfl

theorem TypeAttributes.resolve_succeeds {blocks blocks' : List AnnotationBlock}
    (h : SameBlocks blocks blocks') :
    Succeeds (fun a a' => a'.unplaced = a.unplaced) (resolve blocks) (resolve blocks') := by
  refine Vocabulary.resolve_succeeds h.forall₂ rfl (fun a a' b b' ha hb => ?_)
    fun l l' x x' hx => ?_
  · have hmerge : ∀ a b : TypeAttributes,
        (merge a b).unplaced = merge a.unplaced b.unplaced := fun _ _ => rfl
    exact (hmerge a' b').trans (by rw [ha, hb, ← hmerge a b]; rfl)
  · refine (checkForm_succeeds (Argument.rewritten_id.2 hx) _ _).bind fun p p' hp => ?_
    have hstring := expectString_succeeds (Argument.value?_of_unplaced_eq hx)
    obtain ⟨key, w⟩ := p
    obtain ⟨key', w'⟩ := p'
    obtain rfl : key' = key := hp.1
    dsimp only
    split
    · refine (hstring _).bind fun path path' hpath => ?_
      subst hpath
      exact .ite Iff.rfl (fun _ => .ok rfl) fun _ => .error _ _
    · refine .ite Iff.rfl (fun _ => ?_) fun _ => .ok rfl
      refine (hstring _).bind fun name name' hname => ?_
      subst hname
      split
      · exact .ok rfl
      · exact .error _ _

/-- Order numbers that are replaced by others. -/
def NumberRewritten (used : List Nat) (g : Nat → Nat) : Option Int → Option Int → Prop :=
  Option.Rel fun n n' => ∃ m ∈ used, n = (m : Int) ∧ n' = (g m : Int)

structure FieldAttributes.Rewritten (used : List Nat) (g : Nat → Nat) (a a' : FieldAttributes) :
    Prop where
  ignore : a'.ignore = a.ignore
  orderNo : NumberRewritten used g a.orderNo a'.orderNo

theorem NumberRewritten.isSome_eq {used : List Nat} {g : Nat → Nat} {a a' : Option Int}
    (h : NumberRewritten used g a a') : a'.isSome = a.isSome := by
  cases h <;> rfl

theorem NumberRewritten.exists_of_some {used : List Nat} {g : Nat → Nat} {a : Option Int} {n' : Int}
    (h : NumberRewritten used g a (some n')) :
    ∃ n ∈ used, a = some (n : Int) ∧ n' = (g n : Int) := by
  cases h with
  | some h =>
    obtain ⟨n, hn, rfl, rfl⟩ := h
    exact ⟨n, hn, rfl, rfl⟩

theorem NumberRewritten.later {used : List Nat} {g : Nat → Nat} {a a' b b' : Option Int}
    (ha : NumberRewritten used g a a') (hb : NumberRewritten used g b b') :
    NumberRewritten used g (later a b) (later a' b') := by
  cases hb with
  | none => simpa using ha
  | some hb => simpa using .some hb

theorem FieldAttributes.resolve_succeeds {used : List Nat} {g : Nat → Nat} {f f' : Field}
    (h : BlocksRewritten g f.annotations f'.annotations) (hused : f.orderNumbers ⊆ used)
    (hmax : ∀ n ∈ used, n ≤ maxOrderNo → g n ≤ maxOrderNo) :
    Succeeds (Rewritten used g) (resolve f.annotations) (resolve f'.annotations) := by
  have hnumber : ∀ b ∈ f.annotations, ∀ x ∈ b.arguments, ∀ n, x.orderNo? = some n → n ∈ used :=
    fun b hb x hx n hn => hused (List.mem_flatMap.2 ⟨b, hb, List.mem_filterMap.2 ⟨x, hx, hn⟩⟩)
  refine Vocabulary.resolve_succeeds (h.forall₂ hnumber) ⟨rfl, .none⟩ (fun a a' b b' ha hb => ?_)
    fun l l' x x' hx => ?_
  · refine ⟨?_, ha.orderNo.later hb.orderNo⟩
    exact congrArg₂ (· || ·) ha.ignore hb.ignore
  · obtain ⟨hnumber, hx⟩ := hx
    refine (checkForm_succeeds hx _ _).bind fun p p' hp => ?_
    obtain ⟨key, w⟩ := p
    obtain ⟨key', w'⟩ := p'
    obtain ⟨rfl, hkey⟩ : key' = key ∧ _ := hp
    refine .ite Iff.rfl (fun hkey' => ?_) fun _ => .ok ⟨rfl, .none⟩
    subst hkey'
    refine (expectNumber_succeeds_of_renumber hx hkey fun n hn => hmax n (hnumber n hn)).bind
      fun n n' hn => .ok ⟨rfl, .some ⟨n, hnumber n hn.1, rfl, congrArg Nat.cast hn.2⟩⟩

end WireSchema
