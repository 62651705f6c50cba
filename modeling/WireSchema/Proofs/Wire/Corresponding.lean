import WireSchema.Proofs.Wire.Key
import WireSchema.Proofs.Wire.Mirrored
import WireSchema.Proofs.Wire.Soundness

/-!
# Reading by layouts that mirror each other

Two readers correspond if, on any input, they find values that are related and leave the same rest, or
fail for the same kind of reason. Where the second reader may know more than the first, it is excused
wherever the first one fails.

If the readers of the declared types correspond, so do all codecs, the fields of a record or variant,
and with them the readers of the declared types one level deeper. By induction on the depth of the
references, layouts that mirror each other read values that are alike.
-/

namespace WireSchema

namespace Read

section

variable {α β : Type} (R : α → β → Prop) (excused : Prop)

/-- What the second of two readers comes to on the input of the first. -/
inductive Corresponds : Except Halt (α × Source) → Except Halt (β × Source) → Prop
  | found {a : α} {b : β} (s : Source) : R a b → Corresponds (.ok (a, s)) (.ok (b, s))
  | failed {h h' : Halt} : h'.fault.kind = h.fault.kind → h'.log = h.log →
    Corresponds (.error h) (.error h')
  | excused {h : Halt} (y : Except Halt (β × Source)) : excused → Corresponds (.error h) y

end

section

variable {α β γ δ : Type} {R : α → β → Prop} {Q : γ → δ → Prop} {excused : Prop}

theorem Corresponds.bind {x : Except Halt (α × Source)} {y : Except Halt (β × Source)}
    {f : α × Source → Except Halt (γ × Source)} {g : β × Source → Except Halt (δ × Source)}
    (h : Corresponds R excused x y)
    (hfg : ∀ a b s, R a b → Corresponds Q excused (f (a, s)) (g (b, s))) :
    Corresponds Q excused (x >>= f) (y >>= g) := by
  cases h with
  | found s hab => exact hfg _ _ s hab
  | failed hkind hlog => exact .failed hkind hlog
  | excused y hx => exact .excused _ hx

/-- Without an excuse, both find something or both fail. -/
theorem Corresponds.exists_of_not {x : Except Halt (α × Source)} {y : Except Halt (β × Source)}
    (h : Corresponds R excused x y) (hexcused : ¬ excused) :
    (∃ a b s, x = .ok (a, s) ∧ y = .ok (b, s) ∧ R a b) ∨
      ∃ e e', x = .error e ∧ y = .error e' ∧ e'.fault.kind = e.fault.kind := by
  cases h with
  | found s hab => exact .inl ⟨_, _, s, rfl, rfl, hab⟩
  | failed hkind _ => exact .inr ⟨_, _, rfl, rfl, hkind⟩
  | excused y h => exact absurd h hexcused

/-- To correspond is a matter of the outcomes. -/
theorem Corresponds.of_outcome_eq {x x' : Except Halt (α × Source)}
    {y y' : Except Halt (β × Source)} (h : Corresponds R excused x' y')
    (hx : outcome x = outcome x') (hy : outcome y = outcome y') : Corresponds R excused x y := by
  cases h with
  | found s hab =>
    rw [outcome_eq_ok_iff.1 hx, outcome_eq_ok_iff.1 hy]
    exact .found s hab
  | @failed h h' hkind hlog =>
    cases x with
    | ok p => cases hx
    | error e =>
      cases y with
      | ok p => cases hy
      | error e' =>
        simp only [outcome, Except.mapError, Except.error.injEq, Prod.mk.injEq] at hx hy
        refine .failed ?_ ?_
        · rw [hx.1, hy.1, hkind]
        · rw [hx.2, hy.2, hlog]
  | excused y hexcused =>
    cases x with
    | ok p => cases hx
    | error e => exact .excused _ hexcused

theorem corresponds_self {R : α → α → Prop} (hR : ∀ a, R a a) (x : Except Halt (α × Source)) :
    Corresponds R excused x x := by
  cases x with
  | ok p => exact .found p.2 (hR p.1)
  | error h => exact .failed rfl rfl

/-- A reader of bytes whose values are all related to themselves. -/
theorem corresponds_lift_map {R : β → β → Prop} (read : BytesReader α) {f : α → β}
    (hR : ∀ a, R (f a) (f a)) (s : Source) :
    Corresponds R excused (lift (fun bs => do let (a, r) ← read bs; return (f a, r)) s)
      (lift (fun bs => do let (a, r) ← read bs; return (f a, r)) s) := by
  cases h : read s.bytes with
  | error e =>
    simp only [lift, h]
    exact .failed rfl rfl
  | ok p =>
    simp only [lift, h]
    exact .found _ (hR p.1)

theorem Corresponds.timesOnto {read : Read α} {read' : Read β}
    (h : ∀ s, Corresponds R excused (read s) (read' s)) (n : Nat) {as : List α} {bs : List β}
    (hab : List.Forall₂ R as bs) (s : Source) :
    Corresponds (List.Forall₂ R) excused (Read.timesOnto read n as s)
      (Read.timesOnto read' n bs s) := by
  induction n generalizing as bs s with
  | zero => exact .found s (List.rel_reverse hab)
  | succ n ih =>
    have hfirst := h s
    simp only [Read.timesOnto]
    generalize read s = x at hfirst ⊢
    generalize read' s = y at hfirst ⊢
    cases hfirst with
    | found s hfirst => exact ih (.cons hfirst hab) s
    | failed hkind hlog => exact .failed hkind hlog
    | excused _ hx => exact .excused _ hx

theorem Corresponds.times {read : Read α} {read' : Read β}
    (h : ∀ s, Corresponds R excused (read s) (read' s)) (n : Nat) (s : Source) :
    Corresponds (List.Forall₂ R) excused (Read.times read n s) (Read.times read' n s) :=
  Corresponds.timesOnto h n .nil s

theorem Corresponds.iterate {step : α → Read α} {step' : β → Read β}
    (h : ∀ a b, R a b → ∀ s, Corresponds R excused (step a s) (step' b s)) (n : Nat) {a : α}
    {b : β} (hab : R a b) (s : Source) :
    Corresponds R excused (Read.iterate step n a s) (Read.iterate step' n b s) := by
  induction n generalizing a b s with
  | zero => exact .found s hab
  | succ n ih =>
    have hfirst := h a b hab s
    simp only [Read.iterate]
    generalize step a s = x at hfirst ⊢
    generalize step' b s = y at hfirst ⊢
    cases hfirst with
    | found s hfirst => exact ih hfirst s
    | failed hkind hlog => exact .failed hkind hlog
    | excused _ hx => exact .excused _ hx

/-- A count is too large in both or in neither. -/
theorem Corresponds.count {x : Except Halt (α × Source)} {y : Except Halt (β × Source)}
    (h : Corresponds R excused x y) {p : Prop} [Decidable p] {f f' : Fault} (s : Source)
    (hf : f'.kind = f.kind) :
    Corresponds R excused (if p then .error ⟨f, s.log⟩ else x)
      (if p then .error ⟨f', s.log⟩ else y) := by
  split
  · exact .failed hf rfl
  · exact h

end

end Read

open Read

variable {ρ : Renaming} {free grown : Bool} {S S' : Layout} {excused : Prop}

/-! ## Codecs -/

/-- Keys are the same by whatever names. -/
theorem Codec.IsKey.corresponds_decode {k : Codec} (hk : k.IsKey) (D D' : String → Read Value)
    (s : Source) :
    Corresponds (fun v v' => v = v' ∧ ρ.Alike free v v') excused (k.decode D s)
      ((ρ.codec k).decode D' s) := by
  induction hk generalizing s with
  | int k => exact corresponds_lift_map (readInt k) (fun n => ⟨rfl, .int n⟩) s
  | bool => exact corresponds_lift_map readBool (fun b => ⟨rfl, .bool b⟩) s
  | string => exact corresponds_lift_map readString (fun t => ⟨rfl, .text t⟩) s
  | optional _ ih =>
    refine (corresponds_self (R := Eq) (fun _ => rfl) (Read.lift readBool s)).bind fun b b' s hb => ?_
    subst hb
    cases b with
    | true => exact ih s
    | false => exact .found s ⟨rfl, .none⟩

/-- Entries with the same keys and values that are alike. -/
def EntriesAlike (ρ : Renaming) (free : Bool) : List (Value × Value) → List (Value × Value) → Prop :=
  List.Forall₂ fun e e' => e.1 = e'.1 ∧ ρ.Alike free e.1 e'.1 ∧ ρ.Alike free e.2 e'.2

theorem EntriesAlike.insertEntry {k v v' : Value} {es es' : List (Value × Value)}
    (h : EntriesAlike ρ free es es') (hk : ρ.Alike free k k) (hv : ρ.Alike free v v') :
    EntriesAlike ρ free (Value.insertEntry k v es) (Value.insertEntry k v' es') := by
  induction h with
  | nil => exact .cons ⟨rfl, hk, hv⟩ .nil
  | @cons e e' es es' he hes ih =>
    obtain ⟨hkey, halike, hvalue⟩ := he
    rw [Value.insertEntry, Value.insertEntry, ← hkey]
    split
    · exact .cons ⟨rfl, hkey ▸ halike, hv⟩ hes
    · exact .cons ⟨hkey, halike, hvalue⟩ ih

theorem EntriesAlike.map {es es' : List (Value × Value)} (h : EntriesAlike ρ free es es') :
    ρ.Alike free (.map es) (.map es') :=
  Renaming.Alike.map_of_forall₂ (h.imp fun _ _ he => he.2)

section

variable {D D' : String → Read Value}
  (hD : ∀ name ∈ S.names, ∀ s,
    Corresponds (ρ.Alike free) excused (D name s) (D' (ρ.type name) s))
include hD

/-- If the readers of the declared types correspond, so do all codecs of the layout. -/
theorem Codec.corresponds_decode {c : Codec} (hc : S.Admits c) (s : Source) :
    Corresponds (ρ.Alike free) excused (c.decode D s) ((ρ.codec c).decode D' s) := by
  induction hc generalizing s with
  | int k => exact corresponds_lift_map (readInt k) .int s
  | bool => exact corresponds_lift_map readBool .bool s
  | string => exact corresponds_lift_map readString .text s
  | packedBools =>
    refine corresponds_lift_map (takeBytes 1 Codec.packedBools.name) (f := packedBoolsOf)
      (fun front => ?_) s
    refine Renaming.Alike.list_of_forall₂ (List.forall₂_same.2 fun v hv => ?_)
    obtain ⟨b, -, hb⟩ := List.mem_flatMap.1 hv
    obtain ⟨bit, -, rfl⟩ := List.mem_map.1 hb
    exact .bool bit
  | optional _ ih =>
    refine (corresponds_self (R := Eq) (fun _ => rfl) (Read.lift readBool s)).bind fun b b' s hb => ?_
    subst hb
    cases b with
    | true => exact ih s
    | false => exact .found s .none
  | list _ ih =>
    refine (corresponds_self (R := Eq) (fun _ => rfl) (Read.lift readCount s)).bind fun n n' s hn => ?_
    subst hn
    refine Corresponds.count ?_ s rfl
    exact (Corresponds.times ih n s).bind fun vs ws s h => .found s (.list_of_forall₂ h)
  | array n _ ih =>
    exact (Corresponds.times ih n s).bind fun vs ws s h => .found s (.list_of_forall₂ h)
  | @map k c hk _ ih =>
    refine (corresponds_self (R := Eq) (fun _ => rfl) (Read.lift readCount s)).bind fun n n' s hn => ?_
    subst hn
    refine Corresponds.count ?_ s rfl
    have hentry : ∀ es es', EntriesAlike ρ free es es' → ∀ s,
        Corresponds (EntriesAlike ρ free) excused (k.readEntry c D es s)
          ((ρ.codec k).readEntry (ρ.codec c) D' es' s) := by
      intro es es' hes s
      have hkeys : Corresponds (fun v v' => v = v' ∧ ρ.Alike free v v') excused (k.decode D s) _ :=
        hk.corresponds_decode D D' s
      refine hkeys.bind fun key key' s hkey => ?_
      obtain ⟨rfl, hkey⟩ := hkey
      refine (ih s).bind fun v v' s hv => ?_
      dsimp only
      split
      · exact .found s (hes.insertEntry hkey hv)
      · exact .failed rfl rfl
    exact (Corresponds.iterate hentry n .nil s).bind fun es es' s hes => .found s hes.map
  | declared hname => exact hD _ hname s

end

/-! ## Fields -/

/-- What is read for fields by corresponding names. -/
def FieldsAlike (ρ : Renaming) (free : Bool) (owner : String) :
    List (String × Value) → List (String × Value) → Prop :=
  List.Forall₂ fun e e' => e'.1 = ρ.field owner e.1 ∧ ρ.Alike free e.2 e'.2

namespace FieldsAlike

theorem names {owner : String} {read read' : List (String × Value)}
    (h : FieldsAlike ρ free owner read read') :
    read'.map Prod.fst = (read.map Prod.fst).map (ρ.field owner) := by
  rw [List.map_map]
  exact map_eq_of_forall₂ h fun e e' he => he.1

theorem object {owner : Owner} {read read' : List (String × Value)}
    (h : FieldsAlike ρ free owner.text read read') :
    ρ.Alike free (.object owner read) (.object (ρ.ownerOf owner) read') :=
  .object_of_forall₂ h (.refl free _)

/-- What is held by a name is alike what is held by the name in its place. -/
theorem heldBy {owner : String} {read read' : List (String × Value)}
    (h : FieldsAlike ρ free owner read read') (hread : (read.map Prod.fst).Nodup)
    (hread' : (read'.map Prod.fst).Nodup) {name : String} (hname : name ∈ read.map Prod.fst) :
    ρ.Alike free (WireSchema.heldBy read name) (WireSchema.heldBy read' (ρ.field owner name)) := by
  obtain ⟨ps, hps, rfl, rfl⟩ := exists_pairs_of_forall₂ h
  rw [List.map_map] at hname
  obtain ⟨p, hp, rfl⟩ := List.mem_map.1 hname
  rw [Function.comp, ← (hps p hp).1, heldBy_of_mem hread (List.mem_map_of_mem hp),
    heldBy_of_mem hread' (List.mem_map_of_mem hp)]
  exact (hps p hp).2

end FieldsAlike

section

variable {D D' : String → Read Value}
  (hD : ∀ name ∈ S.names, ∀ s,
    Corresponds (ρ.Alike free) excused (D name s) (D' (ρ.type name) s))
include hD

theorem Field.corresponds_decodeEach {owner : String} {wire wire' : List Field}
    (hwire : List.Forall₂ (Field.MirroredBy ρ owner) wire wire')
    (hadmits : ∀ f ∈ wire, S.Admits f.codec) (s : Source) :
    Corresponds (fun read read' => read.map Prod.fst = wire.map Field.ident ∧
      FieldsAlike ρ free owner read read') excused (decodeEach D wire s) (decodeEach D' wire' s) := by
  induction hwire generalizing s with
  | nil => exact .found s ⟨rfl, .nil⟩
  | @cons f f' wire wire' hf _ ih =>
    have hcodec := Codec.corresponds_decode hD (hadmits f (.head _)) s
    rw [← hf.codec] at hcodec
    refine hcodec.bind fun v v' s hv => ?_
    refine (ih (fun g hg => hadmits g (.tail _ hg)) s).bind fun read read' s hread => ?_
    refine .found s ⟨?_, .cons ⟨hf.ident, hv⟩ hread.2⟩
    rw [List.map_cons, List.map_cons, hread.1]

/-- Fields that stand for each other are read in the same way. -/
theorem Segment.corresponds_decodeAll {owner : String} {wire wire' : List Field}
    (hwire : List.Forall₂ (Field.MirroredBy ρ owner) wire wire')
    (hadmits : ∀ f ∈ wire, S.Admits f.codec) (s : Source) :
    Corresponds (fun read read' => read.map Prod.fst = wire.map Field.ident ∧
      FieldsAlike ρ free owner read read') excused
      (decodeAll D (ofFields wire) s) (decodeAll D' (ofFields wire') s) :=
  (Field.corresponds_decodeEach hD hwire hadmits s).of_outcome_eq
    (Field.outcome_decodeAll D wire s) (Field.outcome_decodeAll D' wire' s)

end

/-! ## Defaults -/

/-- A default is alike the default of the type in its place. -/
theorem Codec.exists_default? {f f' : String → Option Value}
    (h : ∀ name v, f name = some v → ∃ v', f' (ρ.type name) = some v' ∧ ρ.Alike free v v')
    {c : Codec} {v : Value} (hv : c.default? f = some v) :
    ∃ v', (ρ.codec c).default? f' = some v' ∧ ρ.Alike free v v' := by
  induction c generalizing v with
  | int k =>
    cases hv
    exact ⟨_, rfl, .int 0⟩
  | bool =>
    cases hv
    exact ⟨_, rfl, .bool false⟩
  | string =>
    cases hv
    exact ⟨_, rfl, .text ""⟩
  | packedBools =>
    cases hv
    refine ⟨_, rfl, .list_of_forall₂ (List.forall₂_same.2 fun v hv => ?_)⟩
    rw [List.eq_of_mem_replicate hv]
    exact .bool false
  | optional c _ =>
    cases hv
    exact ⟨_, rfl, .none⟩
  | list c _ =>
    cases hv
    exact ⟨_, rfl, .list_of_forall₂ .nil⟩
  | map k c _ _ =>
    cases hv
    exact ⟨_, rfl, .map_of_forall₂ .nil⟩
  | array c n ih =>
    rw [default?, Option.map_eq_some_iff] at hv
    obtain ⟨w, hw, rfl⟩ := hv
    obtain ⟨w', hw', halike⟩ := ih hw
    refine ⟨.list (List.replicate n w'), ?_, .list_of_forall₂ ?_⟩
    · rw [Renaming.codec, default?, hw', Option.map_some]
    · rw [List.forall₂_iff_get]
      simp [halike]
  | declared name => exact h name v hv

namespace RecordLayout.MirroredBy

variable {r r' : RecordLayout} (h : r.MirroredBy ρ free r')
include h

/-- Fields of a record side by side with the fields that stand for them. -/
theorem exists_pairs :
    ∃ ps : List (FieldLayout × FieldLayout), (∀ p ∈ ps, p.1.MirroredBy ρ r.name p.2) ∧
      ps.map Prod.fst = r.fields ∧ Listed free r'.fields (ps.map Prod.snd) := by
  obtain ⟨fields, hfields, hlisted⟩ := h.fields
  obtain ⟨ps, hps, hfst, rfl⟩ := exists_pairs_of_forall₂ hfields
  exact ⟨ps, hps, hfst, hlisted⟩

/-- Every field stands for one of the first record. -/
theorem exists_left {l' : FieldLayout} (hl' : l' ∈ r'.fields) :
    ∃ l ∈ r.fields, l.MirroredBy ρ r.name l' := by
  obtain ⟨ps, hps, hfst, hlisted⟩ := h.exists_pairs
  obtain ⟨p, hp, rfl⟩ := List.mem_map.1 (hlisted.perm.mem_iff.1 hl')
  exact ⟨p.1, hfst ▸ List.mem_map_of_mem hp, hps p hp⟩

theorem exists_right {l : FieldLayout} (hl : l ∈ r.fields) :
    ∃ l' ∈ r'.fields, l.MirroredBy ρ r.name l' := by
  obtain ⟨ps, hps, hfst, hlisted⟩ := h.exists_pairs
  rw [← hfst] at hl
  obtain ⟨p, hp, rfl⟩ := List.mem_map.1 hl
  exact ⟨p.2, hlisted.perm.mem_iff.2 (List.mem_map_of_mem hp), hps p hp⟩

/-- A test that fields pass if those pass that stand for them. -/
theorem all_fields_eq {p p' : FieldLayout → Bool}
    (hp : ∀ l ∈ r.fields, ∀ l', l.MirroredBy ρ r.name l' → p' l' = p l) :
    r'.fields.all p' = r.fields.all p := by
  rw [Bool.eq_iff_iff, List.all_eq_true, List.all_eq_true]
  constructor
  · intro hall l hl
    obtain ⟨l', hl', hll'⟩ := h.exists_right hl
    rw [← hp l hl l' hll', hall l' hl']
  · intro hall l' hl'
    obtain ⟨l, hl, hll'⟩ := h.exists_left hl'
    rw [hp l hl l' hll', hall l hl]

/-- Records with values for all fields are alike if the values are, field by field. -/
theorem alike_object {g g' : FieldLayout → Value}
    (hg : ∀ l ∈ r.fields, ∀ l' ∈ r'.fields, l.MirroredBy ρ r.name l' → ρ.Alike free (g l) (g' l')) :
    ρ.Alike free (.object (.record r.name) (r.fields.map fun l => (l.field.ident, g l)))
      (.object (.record r'.name) (r'.fields.map fun l' => (l'.field.ident, g' l'))) := by
  obtain ⟨ps, hps, hfst, hlisted⟩ := h.exists_pairs
  rw [← hfst, h.name]
  change ρ.Alike free _ (.object (ρ.ownerOf (.record r.name)) _)
  refine .object_of_forall₂ ?_ (hlisted.map _)
  rw [List.map_map, List.map_map, List.forall₂_map_left_iff, List.forall₂_map_right_iff,
    List.forall₂_same]
  refine fun p hp => ⟨(hps p hp).field.ident, hg _ ?_ _ ?_ (hps p hp)⟩
  · exact hfst ▸ List.mem_map_of_mem hp
  · exact hlisted.perm.mem_iff.2 (List.mem_map_of_mem hp)

end RecordLayout.MirroredBy

/-- Layouts leave the same of the names of the language, types by their other names. -/
structure Builtins.MirroredBy (ρ : Renaming) (S : Layout) (B B' : Builtins) : Prop where
  calls : ∀ name ∈ S.names, B'.calls (ρ.type name) = B.calls name
  ranges : B'.ranges = B.ranges

/-- Layouts of the same types by other names leave the same, if these are not names of the language. -/
theorem Layout.MirroredBy.builtins (hS' : S'.WellFormed) (M : S.MirroredBy ρ free grown S')
    (hH : S.HookFree) (hρ : ρ.KeepsBuiltins S.names) : S.builtins.MirroredBy ρ S S'.builtins := by
  have hnames : S'.names = S.names.map ρ.type := by
    rw [names, names, List.map_append, List.map_map, List.map_map,
      map_eq_of_forall₂ M.records fun r r' h => h.name,
      map_eq_of_forall₂ M.unions fun u u' h => h.name]
    rfl
  have hone : ∀ name ∈ S.names, ∀ t ∈ S.names, ρ.type t = ρ.type name → t = name :=
    fun name hname t ht => List.inj_on_of_nodup_map (hnames ▸ hS'.distinct) ht hname
  have hbuiltins : S'.builtins = .ofNames (S.names.map ρ.type) S.hookNames := by
    rw [Layout.builtins, hnames, hH.hookNames_eq_nil, (M.hookFree hH).hookNames_eq_nil]
  rw [hbuiltins]
  exact ⟨fun name hname => Builtins.calls_ofNames_map _ (hone name hname) fun t ht => (hρ t ht).1,
    Builtins.ranges_ofNames_map _ fun t ht => (hρ t ht).2⟩

theorem Builtins.MirroredBy.fills {B B' : Builtins} (hB : B.MirroredBy ρ S B')
    {f f' : String → Bool} (h : ∀ name ∈ S.names, f' (ρ.type name) = f name) {c : Codec}
    (hc : S.Admits c) : (ρ.codec c).fills B' f' = c.fills B f := by
  induction hc with
  | packedBools => exact hB.ranges
  | array n _ ih => simp only [Renaming.codec, Codec.fills, hB.ranges, ih]
  | declared hname => exact h _ hname
  | _ => rfl

namespace Layout.MirroredBy

variable (hS : S.WellFormed) (hS' : S'.WellFormed) (M : S.MirroredBy ρ free grown S')

section

variable {B B' : Builtins} (hB : B.MirroredBy ρ S B')
include hS hS' M hB

/-- So the same defaults can be evaluated. -/
theorem fillsAt_eq (n : Nat) : ∀ name ∈ S.names,
    S'.fillsAt B' n (ρ.type name) = S.fillsAt B n name := by
  induction n with
  | zero => exact fun _ _ => rfl
  | succ n ih =>
    intro name hname
    rw [fillsAt, fillsAt, hB.calls name hname]
    obtain ⟨d, hd, rfl, -⟩ := hS.exists_declaration hname
    refine congrArg _ ?_
    cases d with
    | record r =>
      obtain ⟨r', hr', h⟩ := exists_right_of_forall₂ M.records hd
      rw [Declaration.name, ← h.name, hS.record?_eq_some hd, hS'.record?_eq_some hr', Option.all_some,
        Option.all_some]
      refine h.all_fields_eq fun l hl l' hll' => ?_
      rw [hll'.field.codec]
      exact hB.fills ih ((hS.records r hd).fields.admits _ (List.mem_map_of_mem hl))
    | union u =>
      obtain ⟨u', hu', h⟩ := exists_right_of_forall₂ M.unions hd
      rw [Declaration.name, ← h.name, hS.record?_eq_none hd, hS'.record?_eq_none hu']
      rfl

theorem fillsIgnored_eq {r r' : RecordLayout} (hr : r ∈ S.records) (h : r.MirroredBy ρ free r') :
    S'.fillsIgnored B' r'.fields = S.fillsIgnored B r.fields := by
  refine h.all_fields_eq fun l hl l' hll' => ?_
  have hadmits := (hS.records r hr).fields.admits _ (List.mem_map_of_mem hl)
  rw [hll'.ignore, fills, fills, hll'.field.codec, ← M.records.length_eq,
    hB.fills (M.fillsAt_eq hS hS' hB _) hadmits]

end

include hS' M

/-- The default of a record is alike that of the record in its place. -/
theorem exists_defaultAt (n : Nat) : ∀ name v, S.defaultAt n name = some v →
    ∃ v', S'.defaultAt n (ρ.type name) = some v' ∧ ρ.Alike free v v' := by
  induction n with
  | zero => exact fun _ _ => nofun
  | succ n ih =>
    intro name v hv
    obtain ⟨r, g, hr, hdefault, hg, rfl⟩ := exists_of_defaultAt_succ hv
    obtain ⟨hmem, rfl⟩ := mem_of_record? hr
    obtain ⟨r', hr', h⟩ := exists_right_of_forall₂ M.records hmem
    have hfields : ∀ l ∈ r.fields, ∀ l', l.MirroredBy ρ r.name l' →
        ∃ v', l'.field.codec.default? (S'.defaultAt n) = some v' ∧ ρ.Alike free (g l) v' := by
      intro l hl l' hll'
      rw [hll'.field.codec]
      exact Codec.exists_default? ih (hg l hl)
    have hsome : (S'.defaultAt (n + 1) r'.name).isSome := by
      refine isSome_defaultAt_succ_iff.2 ⟨r', hS'.record?_eq_some hr', ?_, fun l' hl' => ?_⟩
      · rw [h.hasDefault, hdefault]
      · obtain ⟨l, hl, hll'⟩ := h.exists_left hl'
        obtain ⟨v', hv', -⟩ := hfields l hl l' hll'
        exact Option.isSome_of_eq_some hv'
    obtain ⟨v', hv'⟩ := Option.isSome_iff_exists.1 hsome
    obtain ⟨r'', g', hr'', -, hg', rfl⟩ := exists_of_defaultAt_succ hv'
    obtain rfl := Option.some.inj ((hS'.record?_eq_some hr').symm.trans hr'')
    rw [← h.name]
    refine ⟨_, hv', h.alike_object fun l hl l' hl' hll' => ?_⟩
    obtain ⟨w, hw, halike⟩ := hfields l hl l' hll'
    obtain rfl := Option.some.inj (hw.symm.trans (hg' l' hl'))
    exact halike

/-- So is the default of a field. -/
theorem exists_fieldDefault? {owner : String} {f f' : Field} (h : f.MirroredBy ρ owner f')
    {v : Value} (hv : S.fieldDefault? f = some v) :
    ∃ v', S'.fieldDefault? f' = some v' ∧ ρ.Alike free v v' := by
  rw [fieldDefault?, h.codec]
  refine Codec.exists_default? (fun name v hv => ?_) hv
  have hlen : S'.records.length = S.records.length := M.records.length_eq.symm
  rw [default?, hlen]
  exact M.exists_defaultAt hS' _ name v hv

include hS

/-- What completes a record is alike, field by field. -/
theorem alike_completed {r : RecordLayout} (hr : r ∈ S.records) {owner : String}
    {g g' : Field → Value} {l l' : FieldLayout} (hl : l ∈ r.fields) (h : l.MirroredBy ρ owner l')
    (hg : l.field ∈ r.wireFields → ρ.Alike free (g l.field) (g' l'.field)) :
    ρ.Alike free (S.completed g l) (S'.completed g' l') := by
  rw [completed, completed, h.ignore]
  cases hi : l.attributes.ignore with
  | true =>
    obtain ⟨v, hv⟩ := Option.isSome_iff_exists.1 ((hS.records r hr).default l hl hi)
    obtain ⟨v', hv', halike⟩ := M.exists_fieldDefault? hS' h.field hv
    simpa [hv, hv'] using halike
  | false =>
    simpa using hg ((hS.records r hr).mem_wireFields_iff.2 ⟨l, hl, hi, rfl⟩)

/-! ## Declarations -/

section

variable {B B' : Builtins} (hB : B.MirroredBy ρ S B') {D D' : String → Read Value}
  (hD : ∀ name ∈ S.names, ∀ s,
    Corresponds (ρ.Alike free) (grown = true) (D name s) (D' (ρ.type name) s))
include hD

include hB in
theorem corresponds_record {r r' : RecordLayout} (hr : r ∈ S.records) (hr' : r' ∈ S'.records)
    (h : r.MirroredBy ρ free r') (s : Source) :
    Corresponds (fun p p' => ρ.Alike free p.2 p'.2) (grown = true)
      (S.readBody B D (.record r) s) (S'.readBody B' D' (.record r') s) := by
  have hwf := (hS.records r hr).wireFields
  have hwf' := (hS'.records r' hr').wireFields
  refine (Segment.corresponds_decodeAll hD h.wire hwf.admits s).bind fun read read' s hread => ?_
  obtain ⟨hnames, hread⟩ := hread
  have hnames' : read'.map Prod.fst = r'.wireFields.map Field.ident := by
    rw [hread.names, hnames, List.map_map]
    exact (map_eq_of_forall₂ h.wire fun f f' hf => hf.ident).symm
  dsimp only
  rw [completeFields_of_names hS hr hnames, completeFields_of_names hS' hr' hnames',
    M.fillsIgnored_eq hS hS' hB hr h]
  cases S.fillsIgnored B r.fields with
  | false => exact .failed rfl rfl
  | true =>
  refine .found s (h.alike_object fun l hl l' _ hll' => ?_)
  refine M.alike_completed hS hS' hr hl hll' fun hwire => ?_
  rw [hll'.field.ident]
  refine hread.heldBy ?_ ?_ ?_
  · exact hnames ▸ hwf.distinct
  · exact hnames' ▸ hwf'.distinct
  · exact hnames ▸ List.mem_map_of_mem hwire

theorem corresponds_union {u u' : UnionLayout} (hu : u ∈ S.unions) (hu' : u' ∈ S'.unions)
    (h : u.MirroredBy ρ grown u') (s : Source) :
    Corresponds (fun p p' => ρ.Alike free p.2 p'.2) (grown = true)
      (S.readBody B D (.union u) s) (S'.readBody B' D' (.union u') s) := by
  simp only [readBody, h.width]
  refine (corresponds_self (R := Eq) (fun _ => rfl) (Read.lift (readInt u.width.kind) s)).bind
    fun tag tag' s htag => ?_
  subst htag
  dsimp only
  cases hfind : u.variantOfTag? tag with
  | some v =>
    obtain ⟨hv, rfl⟩ := mem_of_find?_key hfind
    obtain ⟨v', hv', hvv'⟩ := h.variants v hv
    rw [← hvv'.tag, variantOfTag?_tag hS' hu' hv']
    refine (Segment.corresponds_decodeAll hD hvv'.fields ((hS.unions u hu).fields v hv).admits
      s).bind fun read read' s hread => .found s ?_
    dsimp only
    rw [h.name, hvv'.name]
    change ρ.Alike free _ (.object (ρ.ownerOf (.variant u.name v.name)) _)
    exact FieldsAlike.object hread.2
  | none =>
    cases grown with
    | true => exact .excused _ rfl
    | false =>
      have hnone : u'.variantOfTag? tag = none := by
        rw [UnionLayout.variantOfTag?, List.find?_eq_none] at hfind ⊢
        intro v' hv'
        obtain ⟨v, hv, htag⟩ := h.tags rfl v' hv'
        rw [htag]
        exact hfind v hv
      rw [hnone]
      exact .failed rfl rfl

end

variable (hH : S.HookFree) {B B' : Builtins} (hB : B.MirroredBy ρ S B') (H H' : Hooks)
include hH hB

/-- If the readers of the declared types correspond, they do one level deeper. -/
theorem corresponds_decodeAt (n : Nat) : ∀ name ∈ S.names, ∀ s,
    Corresponds (ρ.Alike free) (grown = true) (S.decodeAt B H n name s)
      (S'.decodeAt B' H' n (ρ.type name) s) := by
  induction n with
  | zero => exact fun name _ s => .failed rfl rfl
  | succ n ih =>
    intro name hname s
    obtain ⟨d, hd, rfl, -⟩ := hS.exists_declaration hname
    have hfound : ∀ d', S'.Declares d' → d'.name = ρ.type d.name →
        Corresponds (fun p p' => ρ.Alike free p.2 p'.2) (grown = true)
          (S.readBody B (S.decodeAt B H n) d s) (S'.readBody B' (S'.decodeAt B' H' n) d' s) →
        Corresponds (ρ.Alike free) (grown = true) (S.decodeAt B H (n + 1) d.name s)
          (S'.decodeAt B' H' (n + 1) (ρ.type d.name) s) := by
      intro d' hd' hname' hbody
      have hH' := M.hookFree hH
      have hcalls : B'.calls d'.name = B.calls d.name := by
        rw [hname']
        exact hB.calls d.name hname
      rw [← hname', decodeAt_succ hS hH H hd, decodeAt_succ hS' hH' H' hd', Builtins.calling,
        Builtins.calling, hcalls]
      cases B.calls d.name with
      | false => exact .failed rfl rfl
      | true =>
      rw [if_pos rfl, if_pos rfl, readAs_eq_readBody, readAs_eq_readBody]
      refine hbody.bind fun p p' s hp => ?_
      rw [H.postDecoded_of_none (hH.hooks_eq_nil hd).2.2.2,
        H'.postDecoded_of_none (hH'.hooks_eq_nil hd').2.2.2]
      exact .found s hp
    cases d with
    | record r =>
      obtain ⟨r', hr', h⟩ := exists_right_of_forall₂ M.records hd
      exact hfound (.record r') hr' h.name (M.corresponds_record hS hS' hB ih hd hr' h s)
    | union u =>
      obtain ⟨u', hu', h⟩ := exists_right_of_forall₂ M.unions hd
      exact hfound (.union u') hu' h.name (M.corresponds_union hS hS' ih hd hu' h s)

/-- The readers of the declared types correspond. -/
theorem corresponds_decode {name : String} (hname : name ∈ S.names) (s : Source) :
    Corresponds (ρ.Alike free) (grown = true) (S.decodeIn B H name s)
      (S'.decodeIn B' H' (ρ.type name) s) := by
  have hname' : ρ.type name ∈ S'.names := by
    obtain ⟨d, hd, rfl, -⟩ := hS.exists_declaration hname
    cases d with
    | record r =>
      obtain ⟨r', hr', h⟩ := exists_right_of_forall₂ M.records hd
      exact h.name ▸ mem_names_of_record hr'
    | union u =>
      obtain ⟨u', hu', h⟩ := exists_right_of_forall₂ M.unions hd
      exact h.name ▸ mem_names_of_union hu'
  have hbound : S'.depthBound s.bytes = S.depthBound s.bytes := by
    rw [depthBound, depthBound, M.records.length_eq, M.unions.length_eq]
  rw [decode_eq_decodeAt hS hH H hname (Nat.le_refl _),
    decode_eq_decodeAt hS' (M.hookFree hH) H' hname' (Nat.le_refl _), hbound]
  exact M.corresponds_decodeAt hS hS' hH hB H H' _ name hname s

/-- So do the codecs of all types. -/
theorem corresponds_codec {c : Codec} (hc : S.Admits c) (s : Source) :
    Corresponds (ρ.Alike free) (grown = true) (c.decode (S.decodeIn B H) s)
      ((ρ.codec c).decode (S'.decodeIn B' H') s) :=
  Codec.corresponds_decode (fun _ hname => M.corresponds_decode hS hS' hH hB H H' hname) hc s

omit hB in
/-- They do so for what is left of the names of the language, if these are kept. -/
theorem corresponds_of_keepsBuiltins (hρ : ρ.KeepsBuiltins S.names) {c : Codec} (hc : S.Admits c)
    (s : Source) :
    Corresponds (ρ.Alike free) (grown = true) (c.decode (S.decode H) s)
      ((ρ.codec c).decode (S'.decode H') s) :=
  M.corresponds_codec hS hS' hH (M.builtins hS' hH hρ) H H' hc s

end Layout.MirroredBy

theorem Renaming.keepsBuiltins_keep (types : List String) : Renaming.keep.KeepsBuiltins types :=
  fun _ _ => ⟨Iff.rfl, Iff.rfl⟩

end WireSchema
