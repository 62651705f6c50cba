import WireSchema.Proofs.Schema.Nesting
import WireSchema.Schema.Phrase
import WireSchema.Schema.Unplaced

/-!
# Gaps do not matter

A text that a rule spells is a row of tokens that the phrase of the same name spells, with gaps in
front of the tokens; and any text with these tokens, whatever the gaps, is spelled by the rule. What
is spelled is the same but for the places. So it is with each kind of token, and it is kept where
rules are put together.
-/

namespace WireSchema

theorem Token.Covers.length_lt {x : Token} {s t : Cursor} (h : x.Covers s t) :
    t.rest.length < s.rest.length := by
  have hlt : ∀ {cs : List Char}, cs ≠ [] → s.Covers cs t → t.rest.length < s.rest.length := by
    intro cs hcs hcovers
    have hpos := List.length_pos_iff.2 hcs
    rw [hcovers.length]
    omega
  cases x with
  | sign text => exact hlt h.1 h.2
  | name text => exact hlt h.nonempty h.covers
  | integer digits => exact hlt h.nonempty h.covers
  | discriminant text => exact hlt h.nonempty h.covers
  | string body => exact hlt (List.cons_ne_nil _ _) h.1

namespace Tokens

theorem append {s t u : Cursor} {xs ys : List Token} (h : Tokens s xs t) (k : Tokens t ys u) :
    Tokens s (xs ++ ys) u := by
  induction h with
  | nil => exact k
  | cons hgap hx _ ih => exact .cons hgap hx (ih k)

theorem split {s u : Cursor} {xs ys : List Token} (h : Tokens s (xs ++ ys) u) :
    ∃ t, Tokens s xs t ∧ Tokens t ys u := by
  induction xs generalizing s with
  | nil => exact ⟨s, .nil s, h⟩
  | cons x xs ih =>
    cases h with | cons hgap hx hrest =>
    obtain ⟨t, hxs, hys⟩ := ih hrest
    exact ⟨t, .cons hgap hx hxs, hys⟩

theorem length_lt {s t : Cursor} {xs : List Token} (h : Tokens s xs t) (hxs : xs ≠ []) :
    t.rest.length < s.rest.length := by
  induction h with
  | nil => exact absurd rfl hxs
  | @cons s t u v x xs hgap hx hrest ih =>
    have hlt := Nat.lt_of_lt_of_le hx.length_lt hgap.length_le
    cases xs with
    | nil =>
      cases hrest
      exact hlt
    | cons y ys => exact Nat.lt_trans (ih (List.cons_ne_nil _ _)) hlt

end Tokens

namespace Rule

variable {α β γ δ : Type} {f : α → γ} {g : β → δ}

/-- A rule spells, up to `f`, what a phrase spells by the tokens of the text. -/
structure Tokenized (f : α → γ) (p : Rule α) (q : Phrase γ) : Prop where
  tokens : ∀ {s a t}, p s a t → ∃ xs, Tokens s xs t ∧ q xs (f a)
  spelled : ∀ {s xs t c}, Tokens s xs t → q xs c → ∃ a, p s a t ∧ f a = c

namespace Tokenized

theorem pure {a : α} {c : γ} (h : f a = c) : Tokenized f (pure a) (pure c) where
  tokens := by
    rintro s _ _ ⟨rfl, rfl⟩
    exact ⟨[], .nil _, rfl, h⟩
  spelled := by
    rintro s _ t _ hs ⟨rfl, rfl⟩
    cases hs
    exact ⟨a, ⟨rfl, rfl⟩, h⟩

theorem bind {p : Rule α} {q : Phrase γ} {k : α → Rule β} {l : γ → Phrase δ}
    (hp : Tokenized f p q) (hk : ∀ a, Tokenized g (k a) (l (f a))) :
    Tokenized g (p >>= k) (q >>= l) where
  tokens := by
    rintro s b u ⟨a, t, ha, hb⟩
    obtain ⟨xs, hxs, hq⟩ := hp.tokens ha
    obtain ⟨ys, hys, hl⟩ := (hk a).tokens hb
    exact ⟨xs ++ ys, hxs.append hys, xs, f a, ys, rfl, hq, hl⟩
  spelled := by
    rintro s _ u d hs ⟨xs, c, ys, rfl, hq, hl⟩
    obtain ⟨t, hxs, hys⟩ := hs.split
    obtain ⟨a, ha, rfl⟩ := hp.spelled hxs hq
    obtain ⟨b, hb, rfl⟩ := (hk a).spelled hys hl
    exact ⟨b, ⟨a, t, ha, hb⟩, rfl⟩

theorem orElse {p p' : Rule α} {q q' : Phrase γ} (h : Tokenized f p q) (h' : Tokenized f p' q') :
    Tokenized f (p.orElse p') (q.orElse q') where
  tokens := by
    rintro s a t (ha | ha)
    · obtain ⟨xs, hxs, hq⟩ := h.tokens ha
      exact ⟨xs, hxs, .inl hq⟩
    · obtain ⟨xs, hxs, hq⟩ := h'.tokens ha
      exact ⟨xs, hxs, .inr hq⟩
  spelled := by
    rintro s xs t c hs (hq | hq)
    · obtain ⟨a, ha, hac⟩ := h.spelled hs hq
      exact ⟨a, .inl ha, hac⟩
    · obtain ⟨a, ha, hac⟩ := h'.spelled hs hq
      exact ⟨a, .inr ha, hac⟩

theorem many {p : Rule α} {q : Phrase γ} (h : Tokenized f p q) :
    Tokenized (List.map f) p.many q.many where
  tokens has := by
    induction has with
    | nil s => exact ⟨[], .nil s, .nil⟩
    | cons ha _ ih =>
      obtain ⟨xs, hxs, hq⟩ := h.tokens ha
      obtain ⟨ys, hys, hrest⟩ := ih
      exact ⟨xs ++ ys, hxs.append hys, .cons hq hrest⟩
  spelled {s xs t cs} hs hcs := by
    induction hcs generalizing s with
    | nil =>
      cases hs
      exact ⟨[], .nil _, rfl⟩
    | cons hq _ ih =>
      obtain ⟨u, hxs, hys⟩ := hs.split
      obtain ⟨a, ha, rfl⟩ := h.spelled hxs hq
      obtain ⟨as, has, rfl⟩ := ih hys
      exact ⟨a :: as, .cons ha has, rfl⟩

/-- A rule for one token. -/
theorem token {p : Rule α} {q : Phrase γ} (x : γ → Token) (hq : ∀ {xs c}, q xs c ↔ xs = [x c])
    (hx : ∀ {s a t}, p s a t → (x (f a)).Covers s t)
    (hp : ∀ {s c t}, (x c).Covers s t → ∃ a, p s a t ∧ f a = c) : Tokenized f p.token q where
  tokens := by
    rintro s a u ⟨t, hgap, ha⟩
    exact ⟨[x (f a)], .cons hgap (hx ha) (.nil u), hq.2 rfl⟩
  spelled {s xs t c} hs hc := by
    obtain rfl := hq.1 hc
    cases hs with | cons hgap hcovers hnil =>
    cases hnil
    obtain ⟨a, ha, hac⟩ := hp hcovers
    exact ⟨a, ⟨_, hgap, ha⟩, hac⟩

end Tokenized

/-! ## Tokens -/

theorem tokenized_sign {text : String} (h : text.toList ≠ []) :
    Tokenized id (sign text) (Phrase.sign text) :=
  .token (fun _ => .sign text) .rfl (fun hs => ⟨h, hs⟩) fun hs => ⟨(), hs.2, rfl⟩

theorem tokenized_stretch {first p : Char → Bool} {q : Phrase String} (x : String → Token)
    (hq : ∀ {xs text}, q xs text ↔ xs = [x text])
    (hx : ∀ text s t, (x text).Covers s t ↔ Stretch first p s (text, s.location) t) :
    Tokenized Prod.fst (token (Stretch first p)) q := by
  refine .token x hq (fun {s a t} ha => ?_) fun hs => ⟨_, (hx _ _ _).1 hs, rfl⟩
  obtain ⟨text, l⟩ := a
  obtain rfl : l = s.location := ha.location
  exact (hx _ _ _).2 ha

theorem tokenized_name : Tokenized Prod.fst name Phrase.name :=
  tokenized_stretch .name .rfl fun _ _ _ => .rfl

theorem tokenized_integer : Tokenized Prod.fst integer Phrase.integer :=
  .bind (tokenized_stretch .integer .rfl fun _ _ _ => .rfl) fun _ => .pure rfl

theorem tokenized_discriminant : Tokenized id discriminant Phrase.discriminant := by
  have h := tokenized_stretch (q := Phrase.discriminant) .discriminant .rfl fun _ _ _ => .rfl
  refine ⟨fun {s d t} hd => ?_, fun hs hd => ?_⟩
  · obtain ⟨_, _, htext, rfl, rfl⟩ := hd
    exact h.tokens htext
  · obtain ⟨_, htext, rfl⟩ := h.spelled hs hd
    exact ⟨_, ⟨_, _, htext, rfl, rfl⟩, rfl⟩

theorem tokenized_string : Tokenized Prod.fst string Phrase.string := by
  refine .token .string .rfl (fun ha => ⟨ha.1, ha.2.2⟩) fun {s c t} hs => ?_
  exact ⟨(c, s.location), ⟨hs.1, rfl, hs.2⟩, rfl⟩

/-- A further item of a list. -/
theorem Tokenized.further {p : Rule α} {q : Phrase γ} (h : Tokenized f p q) :
    Tokenized f (do sign ","; p) (do Phrase.sign ","; q) :=
  .bind (tokenized_sign (by decide)) fun _ => h

/-! ## Types -/

theorem tokenized_size : Tokenized id size Phrase.size :=
  .bind (tokenized_sign (by decide)) fun _ => .bind tokenized_integer fun _ =>
    .bind (tokenized_sign (by decide)) fun _ => .pure rfl

theorem Tokenized.typeOf {p : Rule TypeExpr} {q : Phrase TypeExpr} (h : Tokenized id p q) :
    Tokenized id (typeOf p) (Phrase.typeOf q) := by
  have hmore := h.further.many
  refine .bind tokenized_name fun _ => .bind (f := id) (.orElse ?_ (.pure rfl)) fun _ =>
    .bind tokenized_size.many fun _ => .pure ?_
  · exact .bind (tokenized_sign (by decide)) fun _ => .bind h fun _ => .bind hmore fun _ =>
      .bind (tokenized_sign (by decide)) fun _ => .pure (by simp)
  · simp

theorem tokenized_typeUpTo (n : Nat) : Tokenized id (typeUpTo n) (Phrase.typeUpTo n) := by
  induction n with
  | zero => exact ⟨fun h => h.elim, fun _ h => h.elim⟩
  | succ n ih => exact ih.typeOf

theorem tokenized_type : Tokenized Prod.fst type Phrase.type where
  tokens ha := by
    obtain ⟨xs, hxs, htype⟩ :=
      (tokenized_typeUpTo _).tokens ((typeUpTo_of_type ha).2.2 _ (Nat.lt_succ_self _))
    exact ⟨xs, hxs, _, htype⟩
  spelled := by
    rintro s xs t e hs ⟨n, htype⟩
    obtain ⟨_, ha, rfl⟩ := (tokenized_typeUpTo n).spelled hs htype
    exact ⟨_, type_of_typeUpTo ha, rfl⟩

/-! ## Annotations -/

theorem tokenized_comma : Tokenized id (optionally (sign ",")) (Phrase.optionally (.sign ",")) :=
  .orElse (tokenized_sign (by decide)) (.pure rfl)

theorem Tokenized.listed {p : Rule α} {q : Phrase γ} (h : Tokenized f p q) :
    Tokenized (List.map f) (listed p) (Phrase.listed q) := by
  have hmore := h.further.many
  exact .orElse (.pure rfl) (.bind h fun _ => .bind hmore fun _ => .bind tokenized_comma fun _ =>
    .pure rfl)

theorem tokenized_literalString : Tokenized Prod.fst literalString Phrase.literalString :=
  .bind tokenized_string fun _ => .pure rfl

theorem tokenized_literalInteger : Tokenized Prod.fst literalInteger Phrase.literalInteger :=
  .bind tokenized_integer fun _ => .pure rfl

theorem tokenized_literalName : Tokenized Prod.fst literalName Phrase.literalName :=
  .bind tokenized_name fun _ => .pure rfl

theorem tokenized_argument : Tokenized Argument.unplaced argument Phrase.argument :=
  .orElse (.bind tokenized_name fun _ => .bind (tokenized_sign (by decide)) fun _ =>
      .bind (tokenized_literalString.orElse (tokenized_literalInteger.orElse tokenized_literalName))
        fun _ => .pure rfl)
    (.orElse (.bind tokenized_name fun _ => .pure rfl)
      (.bind (tokenized_literalString.orElse tokenized_literalInteger) fun _ => .pure rfl))

theorem tokenized_block : Tokenized AnnotationBlock.unplaced block Phrase.block :=
  .bind (tokenized_sign (by decide)) fun _ => .bind tokenized_name fun _ =>
    .bind (tokenized_sign (by decide)) fun _ => .bind tokenized_argument.listed fun _ =>
      .bind (tokenized_sign (by decide)) fun _ => .pure rfl

/-! ## Declarations -/

theorem tokenized_namedField : Tokenized Field.unplaced namedField Phrase.namedField :=
  .bind tokenized_block.many fun _ => .bind tokenized_name fun _ =>
    .bind (tokenized_sign (by decide)) fun _ => .bind tokenized_type fun _ => .pure rfl

theorem tokenized_tupleField : Tokenized Field.unplaced tupleField Phrase.tupleField :=
  .bind tokenized_block.many fun _ => .bind tokenized_type fun _ => .pure rfl

/-- A field with a name, and perhaps a comma. -/
def namedItem : Rule Field := do
  let f ← namedField
  optionally (sign ",")
  return f

theorem tokenized_namedItem : Tokenized Field.unplaced namedItem Phrase.namedItem :=
  .bind tokenized_namedField fun _ => .bind tokenized_comma fun _ => .pure rfl

/-- The shape of a body, and its fields without their places. -/
def unplacedBody (b : Shape × List Field) : Shape × List Field :=
  (b.1, b.2.map Field.unplaced)

theorem unplacedBody_numbered (shape : Shape) (fields : List Field) :
    unplacedBody (shape, Reader.numbered fields) =
      (shape, Reader.numbered (fields.map Field.unplaced)) := by
  refine Prod.ext rfl (List.ext_getElem ?_ ?_) <;>
    simp [unplacedBody, Reader.numbered, Field.unplaced]

theorem tokenized_namedBody : Tokenized unplacedBody namedBody Phrase.namedBody :=
  .bind (tokenized_sign (by decide)) fun _ => .bind tokenized_namedItem.many fun _ =>
    .bind (tokenized_sign (by decide)) fun _ => .pure (unplacedBody_numbered _ _)

theorem tokenized_tupleBody : Tokenized unplacedBody tupleBody Phrase.tupleBody :=
  .bind (tokenized_sign (by decide)) fun _ => .bind tokenized_tupleField.listed fun _ =>
    .bind (tokenized_sign (by decide)) fun _ => .pure (unplacedBody_numbered _ _)

theorem tokenized_body : Tokenized unplacedBody body Phrase.body :=
  tokenized_namedBody.orElse (tokenized_tupleBody.orElse (.pure rfl))

theorem tokenized_writtenTag : Tokenized id writtenTag Phrase.writtenTag :=
  .bind (tokenized_sign (by decide)) fun _ => .bind tokenized_discriminant fun _ => .pure rfl

theorem tokenized_variant : Tokenized Variant.unplaced variant Phrase.variant :=
  .bind tokenized_block.many fun _ => .bind tokenized_name fun _ => .bind tokenized_body fun _ =>
    .bind (tokenized_writtenTag.orElse (.pure rfl)) fun _ => .pure rfl

theorem tokenized_record : Tokenized Record.unplaced record Phrase.record :=
  .bind tokenized_block.many fun _ => .bind (tokenized_sign (by decide)) fun _ =>
    .bind tokenized_name fun _ => .bind tokenized_body fun _ => .pure rfl

theorem tokenized_union : Tokenized Union.unplaced union Phrase.union :=
  .bind tokenized_block.many fun _ => .bind (tokenized_sign (by decide)) fun _ =>
    .bind tokenized_name fun _ => .bind (tokenized_sign (by decide)) fun _ =>
      .bind tokenized_variant.many fun _ => .bind (tokenized_sign (by decide)) fun _ => .pure rfl

theorem tokenized_declaration :
    Tokenized (Sum.map Record.unplaced Union.unplaced) declaration Phrase.declaration :=
  .orElse (.bind tokenized_record fun _ => .pure rfl) (.bind tokenized_union fun _ => .pure rfl)

end Rule

end WireSchema
