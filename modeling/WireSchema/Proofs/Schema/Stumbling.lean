import WireSchema.Proofs.Layout.Blaming
import WireSchema.Proofs.Schema.Exact
import WireSchema.Proofs.Schema.Passing

/-!
# Faults without a text

A map key at fault is reported by its text. If it has none, the check stops without a diagnostic.
Where this happens is told for types by their constructors. The lists of fields, variants and
declarations are all gone through in the same way: the check stops at a member if it accepts the
members before it and this one, but for the part of it that is checked last.
-/

namespace WireSchema

/-! ## Types without a text -/

namespace TypeExpr

/-- A type without a text: the word `array` on its own, or a type written with such a one. -/
inductive Textless : TypeExpr → Prop
  | word : Textless (.named "array")
  | element {t : TypeExpr} (size : Nat) : Textless t → Textless (.array t size)
  | noElement : Textless (.applied "array" [])
  | first {t : TypeExpr} {ts : List TypeExpr} : Textless t → Textless (.applied "array" (t :: ts))
  | argument {name : String} {t : TypeExpr} {ts : List TypeExpr} :
    name ≠ "array" → t ∈ ts → Textless t → Textless (.applied name ts)

mutual
theorem text?_eq_none_iff : ∀ t : TypeExpr, t.text? = none ↔ t.Textless
  | named name => by
    rw [text?]
    split
    next h =>
      subst h
      exact iff_of_true rfl .word
    next h =>
      refine iff_of_false nofun fun ht => h ?_
      cases ht
      rfl
  | applied name args => by
    rw [text?]
    split
    next h =>
      subst h
      rw [Option.map_eq_none_iff, firstText?_eq_none_iff args]
      constructor
      · rintro (rfl | ⟨t, ts, rfl, ht⟩)
        · exact .noElement
        · exact .first ht
      · rintro (_ | _ | _ | ht | ⟨hne, -, -⟩)
        · exact .inl rfl
        · exact .inr ⟨_, _, rfl, ht⟩
        · exact absurd rfl hne
    next h =>
      rw [Option.map_eq_none_iff, textList?_eq_none_iff args]
      constructor
      · rintro ⟨t, hmem, ht⟩
        exact .argument h hmem ht
      · rintro (_ | _ | _ | _ | ⟨-, hmem, ht⟩)
        · exact absurd rfl h
        · exact absurd rfl h
        · exact ⟨_, hmem, ht⟩
  | array element size => by
    rw [text?, Option.map_eq_none_iff, text?_eq_none_iff element]
    refine ⟨.element size, fun h => ?_⟩
    cases h with
    | element _ h => exact h

theorem textList?_eq_none_iff :
    ∀ ts : List TypeExpr, textList? ts = none ↔ ∃ t ∈ ts, t.Textless
  | [] => iff_of_false nofun nofun
  | t :: ts => by
    rw [textList?, List.exists_mem_cons_iff, ← text?_eq_none_iff t, ← textList?_eq_none_iff ts]
    cases text? t <;> cases textList? ts <;> simp

theorem firstText?_eq_none_iff :
    ∀ ts : List TypeExpr, firstText? ts = none ↔ ts = [] ∨ ∃ t us, ts = t :: us ∧ t.Textless
  | [] => iff_of_true rfl (.inl rfl)
  | t :: ts => by
    rw [firstText?, text?_eq_none_iff t]
    simp
end

/-- The check of a type comes to a map key that is at fault and has no text. -/
inductive Stumbles : TypeExpr → Prop
  | key {key t : TypeExpr} : key.Textless → Stumbles (.applied "map" [key, t])
  | value (key : Primitive) {t : TypeExpr} :
    Stumbles t → Stumbles (.applied "map" [.named key.name, t])
  | optional {t : TypeExpr} : Stumbles t → Stumbles (.applied "optional" [t])
  | list {t : TypeExpr} : Stumbles t → Stumbles (.applied "list" [t])
  | array {t : TypeExpr} (size : Nat) : Stumbles t → Stumbles (.array t size)

/-- A type without a text is not a primitive one. -/
theorem Textless.primitive?_eq_none {t : TypeExpr} (h : t.Textless) : t.primitive? = none := by
  cases h with
  | word => decide
  | element | noElement | first | argument => rfl

end TypeExpr

/-! ## Steps of a check -/

theorem exists_of_checkName_eq_error {name what : String} {l : Location} {why : SchemaRejection}
    (h : checkName name what l = .error why) : ∃ fault, why = .invalid fault l := by
  unfold checkName at h
  split at h
  · cases h
    exact ⟨_, rfl⟩
  · cases h

/-- What is refused is not stopped, so the check has gone on. -/
theorem stops_of_not_refused {α : Type} {c : Prop} [Decidable c] {fault : SchemaFault}
    {l : Location} {next : Unit → Checked α}
    (h : (if c then (refuse fault l : Checked Unit) >>= next else next ()) =
      .error .keyWithoutText) : next () = .error .keyWithoutText := by
  split at h
  next => cases h
  next => exact h

theorem checkDeclared_ne_keyWithoutText (declared : List String)
    (names : List (String × Location)) :
    checkDeclared declared names ≠ .error .keyWithoutText := by
  induction names generalizing declared with
  | nil => nofun
  | cons n names ih =>
    intro h
    rw [checkDeclared] at h
    rcases bind_eq_error_iff.1 h with h | ⟨_, -, h⟩
    · obtain ⟨_, h⟩ := exists_of_checkName_eq_error h
      cases h
    · exact ih _ (stops_of_not_refused (stops_of_not_refused h))

/-! ## Types -/

section

variable {declared : List String} {l : Location}

/-- The check of an applied type stops at its key, or at a type that it is applied to. -/
theorem stops_of_checkType_applied {name : String} {args : List TypeExpr}
    (h : checkType declared l (.applied name args) = .error .keyWithoutText) :
    genericArity? name = some args.length ∧
      ((name = "map" ∧ ∃ key rest, args = key :: rest ∧ key.Textless) ∨
        (name = "map" → ∀ key rest, args = key :: rest → key.primitive?.isSome) ∧
          checkTypes declared l args = .error .keyWithoutText) := by
  rw [checkType.eq_def] at h
  dsimp only at h
  split at h
  next arity harity =>
    split at h
    next => cases h
    next hlen =>
      obtain rfl := not_not.1 hlen
      refine ⟨harity, ?_⟩
      split at h
      next hmap =>
        split at h
        next => exact .inr ⟨fun _ _ _ heq => absurd heq (by simp), h⟩
        next key rest =>
          split at h
          next hkey =>
            refine .inr ⟨fun _ _ _ heq => ?_, h⟩
            obtain ⟨rfl, -⟩ := List.cons_eq_cons.1 heq
            exact hkey
          next =>
            split at h
            next => cases h
            next htext => exact .inl ⟨hmap, key, rest, rfl, (TypeExpr.text?_eq_none_iff key).1 htext⟩
      next hmap => exact .inr ⟨fun heq => absurd heq hmap, h⟩
  next => cases h

/-- A type that is applied to one that stumbles does so too, unless it stops at its key before. -/
theorem stumbles_applied {name : String} {args : List TypeExpr}
    (hname : genericArity? name = some args.length)
    (hkey : name = "map" → ∀ key rest, args = key :: rest → key.primitive?.isSome)
    (hargs : ∃ t ∈ args, t.Stumbles) : (TypeExpr.applied name args).Stumbles := by
  obtain ⟨t, hmem, ht⟩ := hargs
  have hcases := genericArity?_eq_some hname
  clear hname
  rcases hcases with ⟨hname, hlen⟩ | ⟨rfl, hlen⟩
  · obtain ⟨t', rfl⟩ := List.length_eq_one_iff.1 hlen
    obtain rfl := List.mem_singleton.1 hmem
    rcases hname with rfl | rfl
    · exact .optional ht
    · exact .list ht
  · obtain ⟨key, t', rfl⟩ := List.length_eq_two.1 hlen
    obtain ⟨p, rfl⟩ := exists_name_of_primitive? (hkey rfl _ _ rfl)
    rcases List.mem_pair.1 hmem with rfl | rfl
    · cases ht
    · exact .value p ht

mutual
theorem stumbles_of_checkType : ∀ t : TypeExpr,
    checkType declared l t = .error .keyWithoutText → t.Stumbles
  | .named name => fun h => by
    rw [checkType] at h
    split at h
    · cases h
    · split at h <;> cases h
  | .applied name args => fun h => by
    obtain ⟨hname, ⟨rfl, key, rest, rfl, hkey⟩ | ⟨hkey, hargs⟩⟩ := stops_of_checkType_applied h
    · have hlen := (genericArity?_eq_some hname).resolve_left fun h => absurd h.1 (by decide)
      obtain ⟨_, t, heq⟩ := List.length_eq_two.1 hlen.2
      cases heq
      exact .key hkey
    · exact stumbles_applied hname hkey (stumbles_of_checkTypes args hargs)
  | .array element size => fun h => by
    rw [checkType] at h
    exact .array size (stumbles_of_checkType element h)

theorem stumbles_of_checkTypes : ∀ ts : List TypeExpr,
    checkTypes declared l ts = .error .keyWithoutText → ∃ t ∈ ts, t.Stumbles
  | [] => nofun
  | t :: ts => fun h => by
    rcases bind_eq_error_iff.1 h with ht | ⟨_, -, hts⟩
    · exact ⟨t, .head _, stumbles_of_checkType t ht⟩
    · obtain ⟨t', hmem, ht'⟩ := stumbles_of_checkTypes ts hts
      exact ⟨t', .tail _ hmem, ht'⟩
end

theorem TypeExpr.Stumbles.checkType {t : TypeExpr} (h : t.Stumbles) :
    checkType declared l t = .error .keyWithoutText := by
  induction h with
  | key hkey =>
    have htext := (TypeExpr.text?_eq_none_iff _).2 hkey
    rw [WireSchema.checkType.eq_def]
    simp only [hkey.primitive?_eq_none, htext]
    rfl
  | @value key t _ ih =>
    have hkey : (TypeExpr.named key.name).primitive?.isSome := by
      simp [TypeExpr.primitive?, Primitive.ofName?_name]
    have htypes : checkTypes declared l [.named key.name, t] = .error .keyWithoutText := by
      refine bind_eq_error_iff.2 (.inr ⟨_, checkType_primitive declared l key, ?_⟩)
      exact bind_eq_error_iff.2 (.inl ih)
    simp only [WireSchema.checkType, hkey, if_true, htypes]
    rfl
  | optional _ ih | list _ ih =>
    simp only [WireSchema.checkType, checkTypes, ih]
    rfl
  | array size _ ih =>
    rw [WireSchema.checkType]
    exact ih

/-- The check of a type stops just if the type stumbles, whatever is declared. -/
theorem checkType_stops_iff {t : TypeExpr} :
    checkType declared l t = .error .keyWithoutText ↔ t.Stumbles :=
  ⟨stumbles_of_checkType t, TypeExpr.Stumbles.checkType⟩

end

/-! ## Checks in a row -/

/-- A check that goes through a list, given the names seen. It checks a member to the part `bare` of
it, and then by `inner`, where alone it can stop without a diagnostic; and it has seen its names. -/
structure Stepwise {α : Type} (check : List String → List α → Checked Unit)
    (names : α → List String) (bare : α → α) (inner : α → Checked Unit) : Prop where
  nil : ∀ seen, check seen [] = .ok ()
  cons : ∀ seen a as, check seen (a :: as) = check seen [a] >>= fun _ => check (names a ++ seen) as
  single : ∀ seen a, check seen [a] = check seen [bare a] >>= fun _ => inner a
  bare : ∀ seen a, check seen [bare a] ≠ .error .keyWithoutText

/-- Such a check stops at a member if it accepts what comes before it. -/
theorem Stepwise.stops_iff {α : Type} {check : List String → List α → Checked Unit}
    {names : α → List String} {bare : α → α} {inner : α → Checked Unit}
    (h : Stepwise check names bare inner) (seen : List String) {as : List α} :
    check seen as = .error .keyWithoutText ↔ ∃ bs a cs, as = bs ++ a :: cs ∧
      check seen (bs ++ [bare a]) = .ok () ∧ inner a = .error .keyWithoutText := by
  induction as generalizing seen with
  | nil =>
    rw [h.nil]
    exact iff_of_false nofun fun ⟨bs, a, cs, hsplit, _⟩ => by simp at hsplit
  | cons a as ih =>
    rw [h.cons, bind_eq_error_iff, h.single, bind_eq_error_iff]
    constructor
    · rintro ((hbare | ⟨_, hbare, hinner⟩) | ⟨_, hsingle, has⟩)
      · exact absurd hbare (h.bare seen a)
      · exact ⟨[], a, as, rfl, hbare, hinner⟩
      · obtain ⟨bs, a', cs, rfl, hbs, hinner⟩ := (ih _).1 has
        refine ⟨a :: bs, a', cs, rfl, ?_, hinner⟩
        rw [List.cons_append, h.cons, h.single]
        exact bind_eq_ok hsingle hbs
    · rintro ⟨bs, a', cs, hsplit, hbs, hinner⟩
      cases bs with
      | nil =>
        obtain ⟨rfl, rfl⟩ := List.cons_eq_cons.1 hsplit
        exact .inl (.inr ⟨_, hbs, hinner⟩)
      | cons b bs =>
        obtain ⟨rfl, rfl⟩ := List.cons_eq_cons.1 hsplit
        rw [List.cons_append, h.cons, h.single] at hbs
        obtain ⟨_, hsingle, hbs⟩ := exists_of_bind_eq_ok hbs
        exact .inr ⟨_, hsingle, (ih _).2 ⟨bs, a', cs, rfl, hbs, hinner⟩⟩

/-! ## Declarations -/

/-- A field whose type is in order. -/
def Field.bare (f : Field) : Field := { f with type := .named Primitive.bool.name }

/-- A variant without fields. -/
def Variant.bare (v : Variant) : Variant := { v with fields := [] }

def Record.bare (r : Record) : Record := { r with fields := [] }

def Union.bare (u : Union) : Union := { u with variants := [] }

section

variable (declared : List String)

/-- What is checked of a field before its type. -/
def checkFieldName (owner : String) (seen : List String) (f : Field) : Checked Unit :=
  match f.name with
  | none => pure ()
  | some name => do
    checkName name "field" f.location
    if declared.contains name || moduleNames.contains name then
      refuse (.shadowingField name owner) f.location
    if seen.contains name then
      refuse (.duplicateField name owner) f.location

theorem checkFields_cons (owner : String) (seen : List String) (f : Field) (fs : List Field) :
    checkFields declared owner seen (f :: fs) =
      checkFieldName declared owner seen f >>= fun _ =>
        checkType declared f.location f.type >>= fun _ =>
          checkFields declared owner (f.name.toList ++ seen) fs := by
  rw [checkFields, checkFieldName]
  cases f.name with
  | none => rfl
  | some name =>
    dsimp only
    cases checkName name "field" f.location with
    | error => rfl
    | ok =>
      change (if _ then _ else _) = (if _ then _ else _) >>= _
      split
      · rfl
      · split <;> rfl

theorem checkFieldName_ne_keyWithoutText (owner : String) (seen : List String) (f : Field) :
    checkFieldName declared owner seen f ≠ .error .keyWithoutText := by
  unfold checkFieldName
  split
  · nofun
  · intro h
    rcases bind_eq_error_iff.1 h with h | ⟨_, -, h⟩
    · obtain ⟨_, h⟩ := exists_of_checkName_eq_error h
      cases h
    · have h := stops_of_not_refused h
      split at h <;> cases h

theorem stepwise_checkFields (owner : String) :
    Stepwise (checkFields declared owner) (fun f => f.name.toList) Field.bare
      (fun f => checkType declared f.location f.type) where
  nil _ := rfl
  cons seen f fs := by
    rw [checkFields_cons, checkFields_cons _ _ _ f []]
    simp only [bind_assoc]
    rfl
  single seen f := by
    have htype := checkType_primitive declared f.location .bool
    rw [checkFields_cons, checkFields_cons _ _ _ f.bare []]
    change checkFieldName declared owner seen f >>= _ = (checkFieldName declared owner seen f >>=
      fun _ => checkType declared f.location (.named Primitive.bool.name) >>= _) >>= _
    rw [htype]
    cases checkFieldName declared owner seen f with
    | error => rfl
    | ok => cases checkType declared f.location f.type <;> rfl
  bare seen f := by
    have htype := checkType_primitive declared f.location .bool
    rw [checkFields_cons, Field.bare]
    dsimp only
    rw [htype]
    intro h
    rcases bind_eq_error_iff.1 h with h | ⟨_, -, h⟩
    · exact checkFieldName_ne_keyWithoutText _ _ _ _ h
    · cases h

theorem checkVariants_cons (union : String) (seen : List String) (v : Variant) (vs : List Variant) :
    checkVariants declared union seen (v :: vs) =
      checkVariants declared union seen [v.bare] >>= fun _ =>
        checkFields declared (union ++ "." ++ v.name) [] v.fields >>= fun _ =>
          checkVariants declared union (v.name :: seen) vs := by
  rw [checkVariants, checkVariants]
  change _ = (checkName v.name "variant" v.location >>= _) >>= _
  cases checkName v.name "variant" v.location with
  | error => rfl
  | ok =>
    change (if seen.contains v.name = true then _ else _) =
      (if seen.contains v.name = true then _ else _) >>= _
    split <;> rfl

theorem stepwise_checkVariants (union : String) :
    Stepwise (checkVariants declared union) (fun v => [v.name]) Variant.bare
      (fun v => checkFields declared (union ++ "." ++ v.name) [] v.fields) where
  nil _ := rfl
  cons seen v vs := by
    rw [checkVariants_cons, checkVariants_cons _ _ _ v []]
    simp only [bind_assoc]
    rfl
  single seen v := by
    rw [checkVariants_cons]
    cases checkVariants declared union seen [v.bare] with
    | error => rfl
    | ok => cases checkFields declared (union ++ "." ++ v.name) [] v.fields <;> rfl
  bare seen v := by
    intro h
    rcases bind_eq_error_iff.1 h with h | ⟨_, -, h⟩
    · obtain ⟨_, h⟩ := exists_of_checkName_eq_error h
      cases h
    · cases stops_of_not_refused h

theorem stepwise_checkRecords :
    Stepwise (fun _ => checkRecords declared) (fun _ => []) Record.bare
      (fun r => checkFields declared r.name [] r.fields) where
  nil _ := rfl
  cons _ r rs := by
    simp only [checkRecords, bind_assoc]
    rfl
  single _ r := by
    change checkFields declared r.name [] r.fields >>= _ = _
    cases checkFields declared r.name [] r.fields <;> rfl
  bare _ r := nofun

theorem stepwise_checkUnions :
    Stepwise (fun _ => checkUnions declared) (fun _ => []) Union.bare
      (fun u => checkVariants declared u.name [] u.variants) where
  nil _ := rfl
  cons _ u us := by
    simp only [checkUnions, bind_assoc]
    rfl
  single _ u := by
    change checkVariants declared u.name [] u.variants >>= _ = _
    cases checkVariants declared u.name [] u.variants <;> rfl
  bare _ u := nofun

end

/-! ## Schemas that stumble -/

/-- A field stumbles, and what is checked before it is in order. -/
def StumblingFields (declared : List String) (fields : List Field) : Prop :=
  ∃ fs f gs, fields = fs ++ f :: gs ∧ WellFormedFields declared (fs ++ [f.bare]) ∧ f.type.Stumbles

/-- A variant has fields that stumble, and what is checked before them is in order. -/
def Union.Stumbles (declared : List String) (u : Union) : Prop :=
  ∃ vs v ws, u.variants = vs ++ v :: ws ∧
    { u with variants := vs ++ [v.bare] }.WellFormed declared ∧ StumblingFields declared v.fields

/-- The fields of a record stumble, or those of a variant after all records, and what is checked
before is in order. -/
structure Schema.Stumbles (s : Schema) : Prop where
  distinct : s.names.Nodup
  free : ∀ name ∈ s.names, FreeTypeName name
  first : (∃ rs r rs', s.records = rs ++ r :: rs' ∧
      (∀ r ∈ rs, WellFormedFields s.names r.fields) ∧ StumblingFields s.names r.fields) ∨
    (∀ r ∈ s.records, WellFormedFields s.names r.fields) ∧
      ∃ us u us', s.unions = us ++ u :: us' ∧ (∀ u ∈ us, u.WellFormed s.names) ∧
        u.Stumbles s.names

section

variable {declared : List String} (hfree : ∀ name ∈ declared, FreeTypeName name)
include hfree

theorem checkFields_eq_ok_iff {owner : String} {fields : List Field} :
    checkFields declared owner [] fields = .ok () ↔ WellFormedFields declared fields :=
  ⟨fun h => (wellFormedFields_of_checkFields h).1,
    fun h => checkFields_of_wellFormedFields hfree h fun _ _ => List.not_mem_nil⟩

theorem checkFields_stops_iff {owner : String} {fields : List Field} :
    checkFields declared owner [] fields = .error .keyWithoutText ↔
      StumblingFields declared fields := by
  rw [(stepwise_checkFields declared owner).stops_iff []]
  simp only [checkFields_eq_ok_iff hfree, checkType_stops_iff]
  rfl

theorem checkVariants_eq_ok_iff {u : Union} :
    checkVariants declared u.name [] u.variants = .ok () ↔ u.WellFormed declared := by
  constructor
  · intro h
    obtain ⟨hdistinct, -, hnames, hfields⟩ := of_checkVariants h
    exact ⟨hdistinct, hnames, hfields⟩
  · exact fun h => checkVariants_of_wellFormedFields hfree h.distinct h.free h.fields
      fun _ _ => List.not_mem_nil

theorem checkVariants_stops_iff {u : Union} :
    checkVariants declared u.name [] u.variants = .error .keyWithoutText ↔ u.Stumbles declared := by
  rw [(stepwise_checkVariants declared u.name).stops_iff []]
  simp only [checkFields_stops_iff hfree]
  refine exists_congr fun vs => exists_congr fun v => exists_congr fun ws => and_congr .rfl ?_
  exact and_congr_left' (checkVariants_eq_ok_iff hfree (u := { u with variants := vs ++ [v.bare] }))

theorem checkRecords_eq_ok_iff {records : List Record} :
    checkRecords declared records = .ok () ↔ ∀ r ∈ records, WellFormedFields declared r.fields :=
  ⟨of_checkRecords, checkRecords_of_wellFormedFields hfree⟩

theorem checkUnions_eq_ok_iff {unions : List Union} :
    checkUnions declared unions = .ok () ↔ ∀ u ∈ unions, u.WellFormed declared :=
  ⟨of_checkUnions, checkUnions_of_wellFormed hfree⟩

theorem checkRecords_stops_iff {records : List Record} :
    checkRecords declared records = .error .keyWithoutText ↔
      ∃ rs r rs', records = rs ++ r :: rs' ∧ (∀ r ∈ rs, WellFormedFields declared r.fields) ∧
        StumblingFields declared r.fields := by
  rw [(stepwise_checkRecords declared).stops_iff []]
  have hbare : ∀ r : Record, WellFormedFields declared r.bare.fields := fun _ =>
    ⟨List.nodup_nil, nofun, nofun⟩
  simp only [checkRecords_eq_ok_iff hfree, checkFields_stops_iff hfree, List.forall_mem_append,
    List.forall_mem_singleton, hbare, and_true]

theorem checkUnions_stops_iff {unions : List Union} :
    checkUnions declared unions = .error .keyWithoutText ↔
      ∃ us u us', unions = us ++ u :: us' ∧ (∀ u ∈ us, u.WellFormed declared) ∧
        u.Stumbles declared := by
  rw [(stepwise_checkUnions declared).stops_iff []]
  have hbare : ∀ u : Union, u.bare.WellFormed declared := fun _ => ⟨List.nodup_nil, nofun, nofun⟩
  simp only [checkUnions_eq_ok_iff hfree, checkVariants_stops_iff hfree, List.forall_mem_append,
    List.forall_mem_singleton, hbare, and_true]

end

/-! Which names are declared matters, and not in which order. -/

section

variable {declared declared' : List String} (h : ∀ name, name ∈ declared ↔ name ∈ declared')
include h

theorem wellFormedFields_congr (fields : List Field) :
    WellFormedFields declared fields ↔ WellFormedFields declared' fields :=
  ⟨.congr h, .congr fun name => (h name).symm⟩

theorem Union.wellFormed_congr (u : Union) : u.WellFormed declared ↔ u.WellFormed declared' := by
  constructor <;> rintro ⟨hdistinct, hfree, hfields⟩ <;> refine ⟨hdistinct, hfree, fun v hv => ?_⟩
  · exact (wellFormedFields_congr h v.fields).1 (hfields v hv)
  · exact (wellFormedFields_congr h v.fields).2 (hfields v hv)

theorem stumblingFields_congr (fields : List Field) :
    StumblingFields declared fields ↔ StumblingFields declared' fields := by
  simp only [StumblingFields, wellFormedFields_congr h]

theorem Union.stumbles_congr (u : Union) : u.Stumbles declared ↔ u.Stumbles declared' := by
  simp only [Stumbles, Union.wellFormed_congr h, stumblingFields_congr h]

end

/-- The check of a schema stops without a diagnostic just if the schema stumbles. -/
theorem Schema.check_stops_iff {s : Schema} : s.check = .error .keyWithoutText ↔ s.Stumbles := by
  have hmem : ∀ name, name ∈ s.names.reverse ++ [] ↔ name ∈ s.names := by
    simp
  -- what is left once the names of the declarations are checked
  have hparts : s.names.Nodup → (∀ name ∈ s.names, FreeTypeName name) →
      ((checkRecords (s.names.reverse ++ []) s.records >>= fun _ =>
        checkUnions (s.names.reverse ++ []) s.unions) = .error .keyWithoutText ↔ s.Stumbles) := by
    intro hdistinct hfree
    have hfree' : ∀ name ∈ s.names.reverse ++ [], FreeTypeName name := fun name hname =>
      hfree name ((hmem name).1 hname)
    rw [bind_eq_error_iff, checkRecords_stops_iff hfree', checkUnions_stops_iff hfree']
    simp only [checkRecords_eq_ok_iff hfree', wellFormedFields_congr hmem,
      Union.wellFormed_congr hmem, stumblingFields_congr hmem, Union.stumbles_congr hmem]
    exact ⟨fun h => ⟨hdistinct, hfree, h.imp_right fun ⟨_, h⟩ => h⟩,
      fun h => h.first.imp_right fun h => ⟨(), h⟩⟩
  constructor
  · intro h
    rcases bind_eq_error_iff.1 h with h | ⟨declared, hdeclared, h⟩
    · exact absurd h (checkDeclared_ne_keyWithoutText _ _)
    · obtain ⟨rfl, hdistinct, hfree⟩ := of_checkDeclared hdeclared
      exact (hparts hdistinct fun name hname => (hfree name hname).1).1 h
  · intro h
    have hdeclared : checkDeclared [] s.declaredNames = .ok (s.names.reverse ++ []) :=
      checkDeclared_of_nodup h.distinct h.free fun _ _ => List.not_mem_nil
    exact bind_eq_error_iff.2 (.inr ⟨_, hdeclared, (hparts h.distinct h.free).2 h⟩)

/-! ## Finishing a schema -/

theorem Checked.unplaced_eq_keyWithoutText {α : Type} {x : Checked α} :
    x.unplaced = .error .keyWithoutText ↔ x = .error .keyWithoutText := by
  cases x with
  | error why =>
    cases why with
    | keyWithoutText => exact iff_of_true rfl rfl
    | invalid | malformedString => exact iff_of_false nofun nofun
  | ok a => exact ⟨nofun, nofun⟩

namespace Schema

theorem finish_of_unescape? [Text.CharacterNames] {s s' : Schema} (h : s.unescape? = some s') :
    s.finish = s'.check >>= fun _ => .ok s' := by
  rw [finish, h]
  rfl

/-- A literal that stands for no text is found once the text is read, before anything is checked. -/
theorem finish_eq_malformedString_iff [Text.CharacterNames] {s : Schema} :
    s.finish = .error .malformedString ↔ ¬ Readable s.literals := by
  rw [← isSome_unescape?_iff]
  cases hs : s.unescape? with
  | none =>
    rw [finish, hs]
    exact iff_of_true rfl Bool.false_ne_true
  | some s' =>
    rw [finish_of_unescape? hs, bind_eq_error_iff]
    refine iff_of_false ?_ (not_not_intro rfl)
    rintro (h | ⟨_, -, h⟩)
    · exact s'.fails_check _ h
    · cases h

theorem finish_eq_keyWithoutText_iff [Text.CharacterNames] {s : Schema} :
    s.finish = .error .keyWithoutText ↔ Readable s.literals ∧ s.Stumbles := by
  rw [← isSome_unescape?_iff]
  cases hs : s.unescape? with
  | none =>
    rw [finish, hs]
    exact iff_of_false (by simp) fun h => Bool.false_ne_true h.1
  | some s' =>
    rw [finish_of_unescape? hs, bind_eq_error_iff, ← check_stops_iff,
      ← Checked.unplaced_eq_keyWithoutText (x := s.check),
      ← unplaced_check (sameSignature_of_unescape? hs), Checked.unplaced_eq_keyWithoutText]
    simp

end Schema

end WireSchema
