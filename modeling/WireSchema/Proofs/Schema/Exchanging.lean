import WireSchema.Proofs.Schema.Spacing
import WireSchema.Schema.Retype

/-!
# Exchanging the tokens of a type

Where the tokens of a field's type stand in a row that spells something, any tokens that spell
another type can be put in their place, and then the row spells the same with that type for the
field. This is kept where phrases are put together, so it holds of whole texts.
-/

namespace WireSchema

/-! ## Lists that differ in one item -/

namespace OneChanged

variable {α β : Type} {R : α → α → Prop} {R' : β → β → Prop}

theorem map {f : α → β} (h : ∀ a b, R a b → R' (f a) (f b)) {as bs : List α}
    (hab : OneChanged R as bs) : OneChanged R' (as.map f) (bs.map f) := by
  induction hab with
  | head hr => exact .head (h _ _ hr)
  | tail _ ih => exact .tail ih

/-- What the change of an item keeps is kept by the list. -/
theorem map_eq {f : α → β} (h : ∀ a b, R a b → f b = f a) {as bs : List α}
    (hab : OneChanged R as bs) : bs.map f = as.map f := by
  induction hab with
  | head hr => rw [List.map_cons, List.map_cons, h _ _ hr]
  | tail _ ih => rw [List.map_cons, List.map_cons, ih]

theorem forall_mem {P : α → Prop} (h : ∀ a b, R a b → P a → P b) {as bs : List α}
    (hab : OneChanged R as bs) (has : ∀ a ∈ as, P a) : ∀ b ∈ bs, P b := by
  induction hab with
  | head hr =>
    obtain ⟨ha, has⟩ := List.forall_mem_cons.1 has
    exact List.forall_mem_cons.2 ⟨h _ _ hr ha, has⟩
  | tail _ ih =>
    obtain ⟨ha, has⟩ := List.forall_mem_cons.1 has
    exact List.forall_mem_cons.2 ⟨ha, ih has⟩

/-- A change of the outcomes comes from a change of one item. -/
theorem of_mapM {f : α → Option β}
    (h : ∀ a b b', f a = some b → R' b b' → ∃ a', R a a' ∧ f a' = some b')
    {as : List α} {bs bs' : List β} (hbs : as.mapM f = some bs) (hchanged : OneChanged R' bs bs') :
    ∃ as', OneChanged R as as' ∧ as'.mapM f = some bs' := by
  induction as generalizing bs bs' with
  | nil =>
    cases hbs
    cases hchanged
  | cons a as ih =>
    rw [List.mapM_cons] at hbs
    obtain ⟨b, hb, hbs⟩ := Option.bind_eq_some_iff.1 hbs
    obtain ⟨bs, has, hbs⟩ := Option.bind_eq_some_iff.1 hbs
    cases hbs
    cases hchanged with
    | head hr =>
      obtain ⟨a', ha, hb'⟩ := h a b _ hb hr
      exact ⟨a' :: as, .head ha, by rw [List.mapM_cons, hb', has]; rfl⟩
    | tail hchanged =>
      obtain ⟨as', has', hbs'⟩ := ih has hchanged
      exact ⟨a :: as', .tail has', by rw [List.mapM_cons, hb, hbs']; rfl⟩

/-- A change of what is made from items by their position comes from a change of one item. -/
theorem of_mapIdx {f : Nat → α → β} (h : ∀ i a b, R' (f i a) b → ∃ a', R a a' ∧ f i a' = b)
    {as : List α} {bs : List β} (hbs : OneChanged R' (as.mapIdx f) bs) :
    ∃ as', OneChanged R as as' ∧ as'.mapIdx f = bs := by
  induction as generalizing f bs with
  | nil => cases hbs
  | cons a as ih =>
    rw [List.mapIdx_cons] at hbs
    cases hbs with
    | head hr =>
      obtain ⟨a', ha, rfl⟩ := h 0 a _ hr
      exact ⟨a' :: as, .head ha, List.mapIdx_cons⟩
    | tail hbs =>
      obtain ⟨as', has, rfl⟩ := ih (fun i => h (i + 1)) hbs
      exact ⟨a :: as', .tail has, List.mapIdx_cons⟩

end OneChanged

/-! ## Rows -/

namespace Phrase

variable {α β : Type} {t t' : TypeExpr}

/-- Somewhere in the row `t` is spelled, and with `t'` spelled there instead the row spells `b`. -/
def Exchanges (t t' : TypeExpr) (q : Phrase α) (xs : List Token) (b : α) : Prop :=
  ∃ front ys back, xs = front ++ ys ++ back ∧ type ys t ∧
    ∀ zs, type zs t' → q (front ++ zs ++ back) b

/-- A change of what is spelled can be made in this way. -/
def Exchangeable (t t' : TypeExpr) (q : Phrase α) (R : α → α → Prop) : Prop :=
  ∀ xs a b, q xs a → R a b → Exchanges t t' q xs b

namespace Exchanges

theorem type {xs : List Token} (h : type xs t) : Exchanges t t' Phrase.type xs t' := by
  refine ⟨[], xs, [], by simp, h, fun zs hzs => ?_⟩
  simpa using hzs

theorem before {q : Phrase α} {q' : Phrase β} {xs ys : List Token} {a : α} {b : β}
    (h : Exchanges t t' q xs a) (hq : ∀ zs, q zs a → q' (zs ++ ys) b) :
    Exchanges t t' q' (xs ++ ys) b := by
  obtain ⟨front, us, back, rfl, hus, hzs⟩ := h
  refine ⟨front, us, back ++ ys, by simp, hus, fun zs htype => ?_⟩
  simpa using hq _ (hzs zs htype)

theorem behind {q : Phrase α} {q' : Phrase β} {xs ys : List Token} {a : α} {b : β}
    (h : Exchanges t t' q xs a) (hq : ∀ zs, q zs a → q' (ys ++ zs) b) :
    Exchanges t t' q' (ys ++ xs) b := by
  obtain ⟨front, us, back, rfl, hus, hzs⟩ := h
  refine ⟨ys ++ front, us, back, by simp, hus, fun zs htype => ?_⟩
  simpa using hq _ (hzs zs htype)

theorem mono {q : Phrase α} {q' : Phrase β} {xs : List Token} {a : α} {b : β}
    (h : Exchanges t t' q xs a) (hq : ∀ zs, q zs a → q' zs b) : Exchanges t t' q' xs b := by
  obtain ⟨front, us, back, rfl, hus, hzs⟩ := h
  exact ⟨front, us, back, rfl, hus, fun zs htype => hq _ (hzs zs htype)⟩

/-- In the first of two phrases. -/
theorem first {p : Phrase α} {k : α → Phrase β} {xs ys : List Token} {a : α} {b : β}
    (h : Exchanges t t' p xs a) (hk : k a ys b) : Exchanges t t' (p >>= k) (xs ++ ys) b :=
  h.before fun zs hzs => ⟨zs, a, ys, rfl, hzs, hk⟩

/-- In the second of two phrases. -/
theorem second {p : Phrase α} {k : α → Phrase β} {xs ys : List Token} {a : α} {b : β}
    (hp : p xs a) (h : Exchanges t t' (k a) ys b) : Exchanges t t' (p >>= k) (xs ++ ys) b :=
  h.behind fun zs hzs => ⟨xs, a, zs, rfl, hp, hzs⟩

end Exchanges

namespace Exchangeable

variable {q q' : Phrase α} {R : α → α → Prop}

theorem orElse (h : Exchangeable t t' q R) (h' : Exchangeable t t' q' R) :
    Exchangeable t t' (q.orElse q') R := by
  rintro xs a b (ha | ha) hr
  · exact (h xs a b ha hr).mono fun _ => .inl
  · exact (h' xs a b ha hr).mono fun _ => .inr

theorem many (h : Exchangeable t t' q R) : Exchangeable t t' q.many (OneChanged R) := by
  intro xs as bs has hr
  induction hr generalizing xs with
  | head hr =>
    cases has with | cons ha has =>
    exact (h _ _ _ ha hr).before fun zs hzs => .cons hzs has
  | tail _ ih =>
    cases has with | cons ha has =>
    exact (ih _ has).behind fun zs hzs => .cons ha hzs

/-- Behind a comma. -/
theorem further (h : Exchangeable t t' q R) :
    Exchangeable t t' (do sign ","; q) R := by
  rintro _ a b ⟨xs, _, ys, rfl, hcomma, ha⟩ hr
  exact .second hcomma (h ys a b ha hr)

theorem listed (h : Exchangeable t t' q R) : Exchangeable t t' (listed q) (OneChanged R) := by
  rintro xs as bs (⟨rfl, rfl⟩ | ⟨xs, a, _, rfl, ha, ys, more, _, rfl, hmore, zs, _, _, rfl, hcomma,
    rfl, rfl⟩) hr
  · cases hr
  · refine Exchanges.mono ?_ fun _ => .inr
    cases hr with
    | head hr =>
      refine .first (h xs a _ ha hr) ?_
      exact ⟨ys, more, _, rfl, hmore, zs, _, [], rfl, hcomma, rfl, rfl⟩
    | tail hr =>
      refine .second ha (.first (h.further.many ys more _ hmore hr) ?_)
      exact ⟨zs, _, [], rfl, hcomma, rfl, rfl⟩

end Exchangeable

/-! ## Fields and bodies -/

theorem exchangeable_namedField : Exchangeable t t' namedField (Field.Retyped t t') := by
  rintro _ _ _ ⟨xs, as, _, rfl, has, ys, n, _, rfl, hn, zs, _, _, rfl, hcolon, us, e, _, rfl, he,
    rfl, rfl⟩ ⟨rfl, rfl⟩
  exact .second has (.second hn (.second hcolon (.first (.type he) ⟨rfl, rfl⟩)))

theorem exchangeable_tupleField : Exchangeable t t' tupleField (Field.Retyped t t') := by
  rintro _ _ _ ⟨xs, as, _, rfl, has, ys, e, _, rfl, he, rfl, rfl⟩ ⟨rfl, rfl⟩
  exact .second has (.first (.type he) ⟨rfl, rfl⟩)

theorem exchangeable_namedItem : Exchangeable t t' namedItem (Field.Retyped t t') := by
  rintro _ _ g ⟨xs, f, _, rfl, hf, ys, _, _, rfl, hcomma, rfl, rfl⟩ hr
  exact .first (exchangeable_namedField xs _ g hf hr) ⟨ys, _, [], rfl, hcomma, rfl, rfl⟩

/-- The fields of a body are changed, and its shape is not. -/
def BodyRetyped (t t' : TypeExpr) (b b' : Shape × List Field) : Prop :=
  b'.1 = b.1 ∧ OneChanged (Field.Retyped t t') b.2 b'.2

theorem exists_of_numbered {fields gs : List Field}
    (h : OneChanged (Field.Retyped t t') (Reader.numbered fields) gs) :
    ∃ fields', OneChanged (Field.Retyped t t') fields fields' ∧ Reader.numbered fields' = gs := by
  refine OneChanged.of_mapIdx (fun i f g hr => ?_) h
  obtain ⟨rfl, rfl⟩ := hr
  exact ⟨{ f with type := t' }, ⟨rfl, rfl⟩, rfl⟩

theorem exchangeable_namedBody : Exchangeable t t' namedBody (BodyRetyped t t') := by
  rintro _ _ ⟨shape, gs⟩ ⟨xs, _, _, rfl, hopen, ys, fields, _, rfl, hfields, zs, _, _, rfl, hclose,
    rfl, rfl⟩ ⟨rfl, hr⟩
  obtain ⟨fields', hfields', rfl⟩ := exists_of_numbered hr
  exact .second hopen (.first (exchangeable_namedItem.many ys fields _ hfields hfields')
    ⟨zs, _, [], rfl, hclose, rfl, rfl⟩)

theorem exchangeable_tupleBody : Exchangeable t t' tupleBody (BodyRetyped t t') := by
  rintro _ _ ⟨shape, gs⟩ ⟨xs, _, _, rfl, hopen, ys, fields, _, rfl, hfields, zs, _, _, rfl, hclose,
    rfl, rfl⟩ ⟨rfl, hr⟩
  obtain ⟨fields', hfields', rfl⟩ := exists_of_numbered hr
  exact .second hopen (.first (exchangeable_tupleField.listed ys fields _ hfields hfields')
    ⟨zs, _, [], rfl, hclose, rfl, rfl⟩)

theorem exchangeable_body : Exchangeable t t' body (BodyRetyped t t') := by
  refine exchangeable_namedBody.orElse (exchangeable_tupleBody.orElse ?_)
  rintro _ _ _ ⟨rfl, rfl⟩ ⟨-, hr⟩
  cases hr

/-! ## Declarations -/

theorem exchangeable_variant : Exchangeable t t' variant (Variant.Retyped t t') := by
  rintro _ _ _ ⟨xs, as, _, rfl, has, ys, n, _, rfl, hn, zs, ⟨shape, fields⟩, _, rfl, hbody, us, d,
    _, rfl, hd, rfl, rfl⟩ @⟨fields', hr⟩
  exact .second has (.second hn (.first
    (exchangeable_body zs (shape, fields) (shape, fields') hbody ⟨rfl, hr⟩)
    ⟨us, d, [], rfl, hd, rfl, rfl⟩))

theorem exchangeable_record : Exchangeable t t' record (Record.Retyped t t') := by
  rintro _ _ _ ⟨xs, as, _, rfl, has, ys, _, _, rfl, hsign, zs, n, _, rfl, hn, us, ⟨shape, fields⟩,
    _, rfl, hbody, rfl, rfl⟩ @⟨fields', hr⟩
  exact .second has (.second hsign (.second hn (.first
    (exchangeable_body us (shape, fields) (shape, fields') hbody ⟨rfl, hr⟩) ⟨rfl, rfl⟩)))

theorem exchangeable_union : Exchangeable t t' union (Union.Retyped t t') := by
  rintro _ _ _ ⟨xs, as, _, rfl, has, ys, _, _, rfl, hsign, zs, n, _, rfl, hn, us, _, _, rfl, hopen,
    vs, variants, _, rfl, hvariants, ws, _, _, rfl, hclose, rfl, rfl⟩ @⟨variants', hr⟩
  exact .second has (.second hsign (.second hn (.second hopen (.first
    (exchangeable_variant.many vs variants variants' hvariants hr)
    ⟨ws, _, [], rfl, hclose, rfl, rfl⟩))))

/-- The type of a field of a record or a union is changed. -/
abbrev DeclarationRetyped (t t' : TypeExpr) : Record ⊕ Union → Record ⊕ Union → Prop :=
  Sum.LiftRel (Record.Retyped t t') (Union.Retyped t t')

theorem exchangeable_declaration :
    Exchangeable t t' declaration (DeclarationRetyped t t') := by
  rintro xs _ _ (⟨xs, r, _, rfl, hr, rfl, rfl⟩ | ⟨xs, u, _, rfl, hu, rfl, rfl⟩) hchanged
  · cases hchanged with | inl hchanged =>
    exact .mono (.first (exchangeable_record xs r _ hr hchanged) ⟨rfl, rfl⟩) fun _ => .inl
  · cases hchanged with | inr hchanged =>
    exact .mono (.first (exchangeable_union xs u _ hu hchanged) ⟨rfl, rfl⟩) fun _ => .inr

theorem exchangeable_declarations :
    Exchangeable t t' declarations (OneChanged (DeclarationRetyped t t')) :=
  exchangeable_declaration.many

end Phrase

end WireSchema
