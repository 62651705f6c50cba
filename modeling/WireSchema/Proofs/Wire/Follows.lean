import WireSchema.Proofs.Layout.WellFormed
import WireSchema.Proofs.Wire.Packing
import WireSchema.Proofs.Wire.Readers

/-!
# Readers that follow each other

Reading is compared with reading of other input, or with following references deeper. In each
comparison there is a relation between the inputs, and some halts are excused: where the first
reader comes to one of these, nothing is said of the second. Otherwise the second reader does what
the first does, and what remains is related again.

A relation between inputs can be kept up if whatever stands at the front of the first input also
stands at the front of the second. That readers follow each other is then a matter of how they are
made from the readers of declared types, and is shown once for all relations.
-/

namespace WireSchema

namespace Read

section

variable {α β : Type} (E : Source → Source → Prop) (X : Halt → Prop)

/-- What the second reader comes to, given what the first one does. -/
inductive Agree : Except Halt (α × Source) → Except Halt (α × Source) → Prop
  | found (a : α) {s t : Source} : E s t → Agree (.ok (a, s)) (.ok (a, t))
  | failed (f : Fault) {s t : Source} : E s t → Agree (.error ⟨f, s.log⟩) (.error ⟨f, t.log⟩)
  | excused {h : Halt} (y : Except Halt (α × Source)) : X h → Agree (.error h) y

/-- On related inputs, the second reader does what the first does. -/
def Follows (r r' : Read α) : Prop := ∀ s t, E s t → Agree E X (r s) (r' t)

/-- Relations that are kept up by reading. Faults of the input tell how much of it remains, so unless
all of these are excused, related inputs are the same. -/
structure Steady : Prop where
  front : ∀ {s t : Source} {front rest : List UInt8}, E s t → s.bytes = front ++ rest →
    ∃ rest', t.bytes = front ++ rest' ∧ E { s with bytes := rest } { t with bytes := rest' }
  fault : ∀ {s t : Source}, E s t → (∀ h : Halt, h.fault.kind = .input → X h) ∨ s = t

end

variable {α β : Type} {E : Source → Source → Prop} {X : Halt → Prop}

theorem Agree.bind {x y : Except Halt (α × Source)} {f g : α × Source → Except Halt (β × Source)}
    (h : Agree E X x y) (hfg : ∀ a s t, E s t → Agree E X (f (a, s)) (g (a, t))) :
    Agree E X (x >>= f) (y >>= g) := by
  cases h with
  | found a hst => exact hfg a _ _ hst
  | failed f hst => exact .failed f hst
  | excused y hx => exact .excused _ hx

namespace Steady

variable (hE : Steady E X) {s t : Source}
include hE

theorem length_le (hst : E s t) : s.bytes.length ≤ t.bytes.length := by
  obtain ⟨rest', ht, -⟩ := hE.front hst (List.append_nil s.bytes).symm
  rw [ht, List.length_append]
  omega

/-- A reader of bytes that is exact follows itself. -/
theorem lift {read : BytesReader α} (hr : read.Exact) (hfails : read.FailsByInput) :
    Follows E X (lift read) (lift read) := by
  intro s t hst
  cases hs : read s.bytes with
  | error f =>
    simp only [Read.lift, hs]
    rcases hE.fault hst with hx | rfl
    · exact .excused _ (hx _ (hfails _ _ hs))
    · rw [hs]
      exact .failed f hst
  | ok r =>
    obtain ⟨front, hbs, htakes⟩ := hr _ _ _ hs
    obtain ⟨rest', ht, hrest⟩ := hE.front hst hbs
    simp only [Read.lift, hs, ht, htakes rest']
    exact .found r.1 hrest

/-- If a count is not too large for the first input, it is not for the second. -/
theorem count (hst : E s t) {count allowance : Nat} {f : Fault} (hf : f.kind = .input)
    {x y : Except Halt (α × Source)} (h : Agree E X x y) :
    Agree E X (if exceeds count allowance s.bytes then .error ⟨f, s.log⟩ else x)
      (if exceeds count allowance t.bytes then .error ⟨f, t.log⟩ else y) := by
  have hlen := hE.length_le hst
  rcases hE.fault hst with hx | rfl
  · by_cases hs : exceeds count allowance s.bytes = true
    · rw [if_pos hs]
      exact .excused _ (hx _ hf)
    · have ht : ¬ exceeds count allowance t.bytes = true := by
        rw [exceeds_iff] at hs ⊢
        omega
      rw [if_neg hs, if_neg ht]
      exact h
  · split
    · exact .failed f hst
    · exact h

end Steady

/-! ## Readers made of others -/

theorem Follows.timesOnto {r r' : Read α} (h : Follows E X r r') (n : Nat) (as : List α) :
    Follows E X (Read.timesOnto r n as) (Read.timesOnto r' n as) := by
  induction n generalizing as with
  | zero => exact fun s t hst => .found _ hst
  | succ n ih =>
    intro s t hst
    have hfirst := h s t hst
    simp only [Read.timesOnto]
    generalize r s = x at hfirst ⊢
    generalize r' t = y at hfirst ⊢
    cases hfirst with
    | found a hst => exact ih (a :: as) _ _ hst
    | failed f hst => exact .failed f hst
    | excused _ hx => exact .excused _ hx

theorem Follows.times {r r' : Read α} (h : Follows E X r r') (n : Nat) :
    Follows E X (Read.times r n) (Read.times r' n) :=
  h.timesOnto n []

theorem Follows.iterate {step step' : α → Read α} (h : ∀ a, Follows E X (step a) (step' a))
    (n : Nat) (a : α) : Follows E X (Read.iterate step n a) (Read.iterate step' n a) := by
  induction n generalizing a with
  | zero => exact fun s t hst => .found _ hst
  | succ n ih =>
    intro s t hst
    have hfirst := h a s t hst
    simp only [Read.iterate]
    generalize step a s = x at hfirst ⊢
    generalize step' a t = y at hfirst ⊢
    cases hfirst with
    | found a hst => exact ih a _ _ hst
    | failed f hst => exact .failed f hst
    | excused _ hx => exact .excused _ hx

end Read

open Read

/-- The names of declarations that a codec refers to. -/
def Codec.declaredNames : Codec → List String
  | optional c | list c | array c _ => c.declaredNames
  | map k c => k.declaredNames ++ c.declaredNames
  | declared name => [name]
  | _ => []

theorem Codec.IsKey.declaredNames_eq_nil {k : Codec} (h : k.IsKey) : k.declaredNames = [] := by
  induction h with
  | int | bool | string => rfl
  | optional _ ih => exact ih

theorem Layout.Admits.mem_names {S : Layout} {c : Codec} (h : S.Admits c) :
    ∀ name ∈ c.declaredNames, name ∈ S.names := by
  induction h with
  | int | bool | string | packedBools => exact nofun
  | optional _ ih | list _ ih | array _ _ ih => exact ih
  | map hk _ ih =>
    rw [Codec.declaredNames, hk.declaredNames_eq_nil]
    exact ih
  | declared hname =>
    intro name h
    rwa [List.mem_singleton.1 h]

variable {E : Source → Source → Prop} {X : Halt → Prop} (hE : Steady E X)
  {D D' : String → Read Value}
include hE

/-- A codec follows itself if the readers of the declared types in it follow each other. -/
theorem Codec.follows_decode {c : Codec}
    (hD : ∀ name ∈ c.declaredNames, Follows E X (D name) (D' name)) :
    Follows E X (c.decode D) (c.decode D') := by
  induction c with
  | int k =>
    exact hE.lift ((exact_readInt k).map Value.int) ((failsByInput_readInt k).map Value.int)
  | bool => exact hE.lift (exact_readBool.map Value.bool) (failsByInput_readBool.map Value.bool)
  | string => exact hE.lift (exact_readString.map Value.text) (failsByInput_readString.map Value.text)
  | packedBools => exact hE.lift exact_readPackedBools failsByInput_readPackedBools
  | optional c ih =>
    intro s t hst
    refine (hE.lift exact_readBool failsByInput_readBool s t hst).bind fun b s t hst => ?_
    cases b with
    | true => exact ih hD s t hst
    | false => exact .found _ hst
  | list c ih =>
    intro s t hst
    refine (hE.lift exact_readCount failsByInput_readCount s t hst).bind
      fun n s t hst => hE.count hst rfl ?_
    exact ((ih hD).times n s t hst).bind fun vs s t hst => .found _ hst
  | array c n ih =>
    intro s t hst
    exact ((ih hD).times n s t hst).bind fun vs s t hst => .found _ hst
  | map k c ihk ihc =>
    have hk := ihk fun name hname => hD name (List.mem_append.2 (.inl hname))
    have hc := ihc fun name hname => hD name (List.mem_append.2 (.inr hname))
    intro s t hst
    refine (hE.lift exact_readCount failsByInput_readCount s t hst).bind
      fun n s t hst => hE.count hst rfl ?_
    refine (Follows.iterate (fun es => ?_) n [] s t hst).bind fun es s t hst => .found _ hst
    intro s t hst
    refine (hk s t hst).bind fun key s t hst => ?_
    refine (hc s t hst).bind fun v s t hst => ?_
    dsimp only
    split
    · exact .found _ hst
    · exact .failed _ hst
  | declared name => exact hD name (.head _)

/-- So do segments. -/
theorem Segment.follows_decodeAll {gs : List Segment}
    (hD : ∀ field c, Segment.single field c ∈ gs →
      ∀ name ∈ c.declaredNames, Follows E X (D name) (D' name)) :
    Follows E X (Segment.decodeAll D gs) (Segment.decodeAll D' gs) := by
  induction gs with
  | nil => exact fun s t hst => .found _ hst
  | cons g gs ih =>
    intro s t hst
    have hfirst : Agree E X (g.decode D s) (g.decode D' t) := by
      cases g with
      | packed fields =>
        exact (hE.lift (Format.exact_unpack _) (Format.failsByInput_unpack _) s t hst).bind
          fun vs s t hst => .found _ hst
      | single field c =>
        have hfollows := c.follows_decode hE (hD field c (.head _))
        exact (hfollows s t hst).bind fun v s t hst => .found _ hst
    refine hfirst.bind fun vs s t hst => ?_
    exact (ih (fun field c h => hD field c (.tail _ h)) s t hst).bind
      fun ws s t hst => .found _ hst

variable {S : Layout} (hD : ∀ name ∈ S.names, Follows E X (D name) (D' name))
include hD

/-- So does the reading of segments. -/
theorem Segment.decodeAll_follows {gs : List Segment}
    (hgs : ∀ field c, Segment.single field c ∈ gs → S.Admits c) :
    Follows E X (Segment.decodeAll D gs) (Segment.decodeAll D' gs) :=
  Segment.follows_decodeAll hE fun field c h name hname =>
    hD name ((hgs field c h).mem_names name hname)

omit hE hD in
theorem Layout.FieldsWellFormed.admits_of_single {fields : List Field}
    (h : S.FieldsWellFormed fields) {field : String} {c : Codec}
    (hc : Segment.single field c ∈ Segment.ofFields fields) : S.Admits c := by
  obtain ⟨f, hf, -, rfl⟩ := Segment.exists_field_of_single hc
  exact h.admits f hf

omit hE hD in
/-- So does the reading by a class method. -/
theorem Builtins.calling_follows {α : Type} (B : Builtins) (type : String) {read read' : Read α}
    (h : Follows E X read read') : Follows E X (B.calling type read) (B.calling type read') := by
  intro s t hst
  unfold calling
  split
  · exact h s t hst
  · exact .failed _ hst

namespace Layout

variable (hS : S.WellFormed) (hH : S.HookFree) {B : Builtins} (H : Hooks)
include hS hH

/-- So does the reading of a declaration. -/
theorem readAs_follows {d : Declaration} (hd : S.Declares d) (type : String) :
    Follows E X (S.readAs B H D type d) (S.readAs B H D' type d) := by
  intro s t hst
  cases d with
  | record r =>
    have hpost : r.attributes.postDecode = none := (hH.hooks_eq_nil (d := .record r) hd).2.2.2
    have hgs : ∀ field c, Segment.single field c ∈ r.segments → S.Admits c := fun field c h =>
      (hS.records r hd).wireFields.admits_of_single h
    refine (Segment.decodeAll_follows hE hD hgs s t hst).bind fun read s t hst => ?_
    dsimp only
    cases S.completeFields B read r.fields with
    | ok fields =>
      dsimp only
      rw [H.postDecoded_of_none hpost, H.postDecoded_of_none hpost]
      exact .found _ hst
    | error f => exact .failed f hst
  | union u =>
    have hpost : u.attributes.postDecode = none := (hH.hooks_eq_nil (d := .union u) hd).2.2.2
    refine (hE.lift (exact_readInt u.width.kind) (failsByInput_readInt _) s t hst).bind
      fun tag s t hst => ?_
    dsimp only
    cases htag : u.variantOfTag? tag with
    | none => exact .failed _ hst
    | some v =>
      have hv : v ∈ u.variants := List.mem_of_find?_eq_some htag
      have hgs : ∀ field c, Segment.single field c ∈ v.segments → S.Admits c := fun field c h =>
        ((hS.unions u hd).fields v hv).admits_of_single h
      refine (Segment.decodeAll_follows hE hD hgs s t hst).bind fun read s t hst => ?_
      dsimp only
      rw [H.postDecoded_of_none hpost, H.postDecoded_of_none hpost]
      exact .found _ hst

end Layout

end WireSchema
