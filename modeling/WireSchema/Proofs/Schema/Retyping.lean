import WireSchema.Proofs.Schema.Exchanging
import WireSchema.Proofs.Schema.Printing
import WireSchema.Proofs.Schema.Refusing

/-!
# The text of a type in the place of another

In the text of a schema, the type of any field can be replaced by the text of any type that stands
in a field, on a line of its own: what is parsed then is the schema with just this type for the
field. The tokens in front of the place and behind it are the same as before, so only those of the
type are exchanged, and the change is the same once escapes are replaced.
-/

namespace WireSchema

open Cursor

variable {t t' : TypeExpr}

/-! ## Other places -/

theorem Gap.elsewhere {s u : Cursor} (h : Gap s u) (l : Location) :
    ∃ m, Gap ⟨s.rest, l⟩ ⟨u.rest, m⟩ := by
  induction h generalizing l with
  | nil s => exact ⟨l, .nil _⟩
  | @blank s v u c hc hs _ ih =>
    obtain ⟨m, hgap⟩ := ih (l.advance [c])
    have hc' : Cursor.Covers ⟨s.rest, l⟩ [c] ⟨v.rest, l.advance [c]⟩ := ⟨hs.text, rfl⟩
    exact ⟨m, .blank hc hc' hgap⟩
  | @comment s v u cs hcs hs hend _ ih =>
    obtain ⟨m, hgap⟩ := ih (l.advance ('#' :: cs))
    have hs' : Cursor.Covers ⟨s.rest, l⟩ ('#' :: cs) ⟨v.rest, l.advance ('#' :: cs)⟩ :=
      ⟨hs.text, rfl⟩
    exact ⟨m, .comment hcs hs' hend hgap⟩

theorem Rule.Stretch.elsewhere {first p : Char → Bool} {s u : Cursor} {text : String}
    (h : Stretch first p s (text, s.location) u) (l : Location) :
    ∃ m, Stretch first p ⟨s.rest, l⟩ (text, l) ⟨u.rest, m⟩ :=
  ⟨l.advance text.toList, ⟨h.covers.text, rfl⟩, rfl, h.nonempty, h.starts, h.within, h.longest⟩

theorem Token.Covers.elsewhere {x : Token} {s u : Cursor} (h : x.Covers s u) (l : Location) :
    ∃ m, x.Covers ⟨s.rest, l⟩ ⟨u.rest, m⟩ := by
  cases x with
  | sign text => exact ⟨l.advance text.toList, h.1, h.2.text, rfl⟩
  | string body =>
    exact ⟨l.advance ('\x22' :: body.toList ++ ['\x22']), ⟨h.1.text, rfl⟩, h.2⟩
  | name | integer | discriminant => exact Rule.Stretch.elsewhere h l

theorem Tokens.elsewhere {s u : Cursor} {xs : List Token} (h : Tokens s xs u) (l : Location) :
    ∃ m, Tokens ⟨s.rest, l⟩ xs ⟨u.rest, m⟩ := by
  induction h generalizing l with
  | nil s => exact ⟨l, .nil _⟩
  | cons hgap hx _ ih =>
    obtain ⟨l₁, hgap⟩ := hgap.elsewhere l
    obtain ⟨l₂, hx⟩ := hx.elsewhere l₁
    obtain ⟨m, hxs⟩ := ih l₂
    exact ⟨m, .cons hgap hx hxs⟩

theorem gap_lineFeed (rest : List Char) (l : Location) :
    Gap ⟨'\n' :: rest, l⟩ ⟨rest, l.next '\n'⟩ :=
  .blank isLayout_lineFeed (covers_cons '\n' rest l) (.nil _)

/-- The tokens up to the end are the same behind a gap. -/
theorem Tokens.behind_gap {r s u v : Cursor} {xs : List Token} (hgap : Gap r s)
    (h : Tokens s xs u) (hend : Gap u v) : ∃ u', Tokens r xs u' ∧ Gap u' v := by
  cases h with
  | nil => exact ⟨r, .nil r, hgap.trans hend⟩
  | cons hfirst hx hrest => exact ⟨u, .cons (hgap.trans hfirst) hx hrest, hend⟩

/-- The tokens up to the end are the same behind a line feed, wherever it stands. -/
theorem Tokens.behind_lineFeed {s u v : Cursor} {xs : List Token} (h : Tokens s xs u)
    (hgap : Gap u v) (hv : v.rest = []) (l : Location) :
    ∃ u' v', Tokens ⟨'\n' :: s.rest, l⟩ xs u' ∧ Gap u' v' ∧ v'.rest = [] := by
  obtain ⟨m, hxs⟩ := h.elsewhere (l.next '\n')
  obtain ⟨n, hend⟩ := hgap.elsewhere m
  obtain ⟨u', hxs', hend'⟩ := hxs.behind_gap (gap_lineFeed s.rest l) hend
  exact ⟨u', _, hxs', hend', hv⟩

/-! ## Texts -/

/-- Tokens in a text that spell a type stand in some place, and the text of any other type can be
put there instead, on a line of its own. -/
theorem exists_lexed {text : String} {front ys back : List Token}
    (h : Lexed text (front ++ ys ++ back)) (hys : Phrase.type ys t) :
    ∃ before written behind m, text.toList = before ++ written ++ behind ∧
      Rule.type ⟨written ++ behind, .behind before⟩ (t, m) ⟨behind, .behind (before ++ written)⟩ ∧
      ∀ w t', Spelling w t' → ∃ zs, Phrase.type zs t' ∧
        Lexed (String.ofList (before ++ '\n' :: (w.toList ++ '\n' :: behind)))
          (front ++ zs ++ back) := by
  obtain ⟨u, v, htokens, hgap, hv⟩ := h
  obtain ⟨d, htokens, hback⟩ := htokens.split
  obtain ⟨c, hfront, hys'⟩ := htokens.split
  obtain ⟨before, hbefore⟩ := hfront.exists_covers
  obtain ⟨written, hwritten⟩ := hys'.exists_covers
  obtain ⟨⟨_, m⟩, hspelled, rfl⟩ := Rule.tokenized_type.spelled hys' hys
  have hc : c.location = .behind before := hbefore.location.trans (Location.advance_start _)
  have hd : d.location = .behind (before ++ written) :=
    (hbefore.append hwritten).location.trans (Location.advance_start _)
  refine ⟨before, written, d.rest, m, (hbefore.append hwritten).text, ?_, fun w t' hw => ?_⟩
  · rw [← hwritten.text, ← hc, ← hd]
    exact hspelled
  · obtain ⟨n, hw⟩ := hw _ _ ('\n' :: d.rest)
      (gap_lineFeed (w.toList ++ '\n' :: d.rest) c.location) (parts_cons (by decide) _)
    obtain ⟨zs, hzs, hphrase⟩ := Rule.tokenized_type.tokens hw
    obtain ⟨u', v', hback, hgap, hv⟩ := hback.behind_lineFeed hgap hv n
    have hlexed := lexed_of_joins hbefore hfront (.nil c) (.inl rfl) (hzs.append hback) hgap hv
    exact ⟨zs, hphrase, by rwa [List.append_assoc]⟩

/-! ## Without places -/

theorem Field.Retyped.unplaced {f g : Field} (h : f.Retyped t t' g) :
    f.unplaced.Retyped t t' g.unplaced := by
  obtain ⟨rfl, rfl⟩ := h
  exact ⟨rfl, rfl⟩

theorem Record.Retyped.unplaced {r r' : Record} (h : r.Retyped t t' r') :
    r.unplaced.Retyped t t' r'.unplaced := by
  obtain @⟨fields, h⟩ := h
  have hfields : OneChanged (Field.Retyped t t') r.unplaced.fields (fields.map Field.unplaced) :=
    h.map (f := Field.unplaced) fun _ _ => Field.Retyped.unplaced
  exact .mk hfields

theorem Variant.Retyped.unplaced {v v' : Variant} (h : v.Retyped t t' v') :
    v.unplaced.Retyped t t' v'.unplaced := by
  obtain @⟨fields, h⟩ := h
  have hfields : OneChanged (Field.Retyped t t') v.unplaced.fields (fields.map Field.unplaced) :=
    h.map (f := Field.unplaced) fun _ _ => Field.Retyped.unplaced
  exact .mk hfields

theorem Union.Retyped.unplaced {u u' : Union} (h : u.Retyped t t' u') :
    u.unplaced.Retyped t t' u'.unplaced := by
  obtain @⟨variants, h⟩ := h
  have hvariants : OneChanged (Variant.Retyped t t') u.unplaced.variants
      (variants.map Variant.unplaced) :=
    h.map (f := Variant.unplaced) fun _ _ => Variant.Retyped.unplaced
  exact .mk hvariants

theorem Phrase.DeclarationRetyped.unplaced {d d' : Record ⊕ Union}
    (h : Phrase.DeclarationRetyped t t' d d') :
    Phrase.DeclarationRetyped t t' (unplacedDeclaration d) (unplacedDeclaration d') := by
  cases h with
  | inl h => exact .inl h.unplaced
  | inr h => exact .inr h.unplaced

/-! ## Declarations -/

namespace Schema

theorem ofDeclarations_record (r : Record) (ds : List (Record ⊕ Union)) :
    ofDeclarations (.inl r :: ds) =
      ⟨r :: (ofDeclarations ds).records, (ofDeclarations ds).unions⟩ := rfl

theorem ofDeclarations_union (u : Union) (ds : List (Record ⊕ Union)) :
    ofDeclarations (.inr u :: ds) =
      ⟨(ofDeclarations ds).records, u :: (ofDeclarations ds).unions⟩ := rfl

/-- A change of the schema comes from a change of one declaration. -/
theorem Retyped.exists_declarations {ds : List (Record ⊕ Union)} {s' : Schema}
    (h : (ofDeclarations ds).Retyped t t' s') :
    ∃ ds', OneChanged (Phrase.DeclarationRetyped t t') ds ds' ∧ ofDeclarations ds' = s' := by
  induction ds generalizing s' with
  | nil => cases h with | record h | union h => cases h
  | cons d ds ih =>
    cases d with
    | inl r =>
      cases h with
      | record h =>
        cases h with
        | head hr => exact ⟨_, .head (.inl hr), rfl⟩
        | tail h =>
          obtain ⟨ds', hds', hs'⟩ := ih (.record h)
          exact ⟨.inl r :: ds', .tail hds', by rw [ofDeclarations_record, hs']; rfl⟩
      | union h =>
        obtain ⟨ds', hds', hs'⟩ := ih (.union h)
        exact ⟨.inl r :: ds', .tail hds', by rw [ofDeclarations_record, hs']; rfl⟩
    | inr u =>
      cases h with
      | record h =>
        obtain ⟨ds', hds', hs'⟩ := ih (.record h)
        exact ⟨.inr u :: ds', .tail hds', by rw [ofDeclarations_union, hs']; rfl⟩
      | union h =>
        cases h with
        | head hu => exact ⟨_, .head (.inr hu), rfl⟩
        | tail h =>
          obtain ⟨ds', hds', hs'⟩ := ih (.union h)
          exact ⟨.inr u :: ds', .tail hds', by rw [ofDeclarations_union, hs']; rfl⟩

end Schema

/-! ## Escapes -/

/-- A change of fields whose escapes are replaced comes from a change of the fields. -/
theorem exists_of_unescapeFields? [Text.CharacterNames] {fields fields₁ fields' : List Field}
    (h : unescapeFields? fields = some fields₁)
    (hchanged : OneChanged (Field.Retyped t t') fields₁ fields') :
    ∃ fields₀, OneChanged (Field.Retyped t t') fields fields₀ ∧
      unescapeFields? fields₀ = some fields' := by
  refine OneChanged.of_mapM (fun f g g' hg hr => ?_) h hchanged
  obtain ⟨annotations, hannotations, hg⟩ := Option.bind_eq_some_iff.1 hg
  cases hg
  obtain ⟨rfl, rfl⟩ := hr
  exact ⟨{ f with type := t' }, ⟨rfl, rfl⟩, by rw [hannotations]; rfl⟩

theorem Record.Retyped.of_unescape? [Text.CharacterNames] {r r₁ r' : Record}
    (h : r.unescape? = some r₁)
    (hchanged : r₁.Retyped t t' r') : ∃ r₀, r.Retyped t t' r₀ ∧ r₀.unescape? = some r' := by
  obtain ⟨annotations, hannotations, h⟩ := Option.bind_eq_some_iff.1 h
  obtain ⟨fields₁, hfields, h⟩ := Option.bind_eq_some_iff.1 h
  cases h
  obtain ⟨hchanged⟩ := hchanged
  obtain ⟨fields₀, hfields₀, hfields'⟩ := exists_of_unescapeFields? hfields hchanged
  refine ⟨_, .mk hfields₀, ?_⟩
  rw [unescape?, hannotations, hfields']
  rfl

theorem Variant.Retyped.of_unescape? [Text.CharacterNames] {v v₁ v' : Variant}
    (h : v.unescape? = some v₁)
    (hchanged : v₁.Retyped t t' v') : ∃ v₀, v.Retyped t t' v₀ ∧ v₀.unescape? = some v' := by
  obtain ⟨annotations, hannotations, h⟩ := Option.bind_eq_some_iff.1 h
  obtain ⟨fields₁, hfields, h⟩ := Option.bind_eq_some_iff.1 h
  cases h
  obtain ⟨hchanged⟩ := hchanged
  obtain ⟨fields₀, hfields₀, hfields'⟩ := exists_of_unescapeFields? hfields hchanged
  refine ⟨_, .mk hfields₀, ?_⟩
  rw [unescape?, hannotations, hfields']
  rfl

theorem Union.Retyped.of_unescape? [Text.CharacterNames] {u u₁ u' : Union}
    (h : u.unescape? = some u₁)
    (hchanged : u₁.Retyped t t' u') : ∃ u₀, u.Retyped t t' u₀ ∧ u₀.unescape? = some u' := by
  obtain ⟨annotations, hannotations, h⟩ := Option.bind_eq_some_iff.1 h
  obtain ⟨variants₁, hvariants, h⟩ := Option.bind_eq_some_iff.1 h
  cases h
  obtain ⟨hchanged⟩ := hchanged
  obtain ⟨variants₀, hvariants₀, hvariants'⟩ :=
    OneChanged.of_mapM (fun _ _ _ => Variant.Retyped.of_unescape?) hvariants hchanged
  refine ⟨_, .mk hvariants₀, ?_⟩
  rw [unescape?, hannotations, hvariants']
  rfl

theorem Schema.Retyped.of_unescape? [Text.CharacterNames] {s s₁ s' : Schema}
    (h : s.unescape? = some s₁)
    (hchanged : s₁.Retyped t t' s') : ∃ s₀, s.Retyped t t' s₀ ∧ s₀.unescape? = some s' := by
  obtain ⟨records, hrecords, h⟩ := Option.bind_eq_some_iff.1 h
  obtain ⟨unions, hunions, h⟩ := Option.bind_eq_some_iff.1 h
  cases h
  cases hchanged with
  | record hchanged =>
    obtain ⟨records₀, hrecords₀, hrecords'⟩ :=
      OneChanged.of_mapM (fun _ _ _ => Record.Retyped.of_unescape?) hrecords hchanged
    refine ⟨_, .record hrecords₀, ?_⟩
    rw [unescape?, hrecords', hunions]
    rfl
  | union hchanged =>
    obtain ⟨unions₀, hunions₀, hunions'⟩ :=
      OneChanged.of_mapM (fun _ _ _ => Union.Retyped.of_unescape?) hunions hchanged
    refine ⟨_, .union hunions₀, ?_⟩
    rw [unescape?, hrecords, hunions']
    rfl

/-! ## Checks -/

theorem Record.Retyped.name {r r' : Record} (h : r.Retyped t t' r') : r'.name = r.name := by
  obtain ⟨-⟩ := h
  rfl

theorem Variant.Retyped.name {v v' : Variant} (h : v.Retyped t t' v') : v'.name = v.name := by
  obtain ⟨-⟩ := h
  rfl

theorem Union.Retyped.name {u u' : Union} (h : u.Retyped t t' u') : u'.name = u.name := by
  obtain ⟨-⟩ := h
  rfl

theorem Schema.Retyped.names {s s' : Schema} (h : s.Retyped t t' s') : s'.names = s.names := by
  rw [names_eq_append, names_eq_append]
  cases h with
  | record h => exact congrArg (· ++ _) (h.map_eq (f := Record.name) fun _ _ => Record.Retyped.name)
  | union h => exact congrArg (_ ++ ·) (h.map_eq (f := Union.name) fun _ _ => Union.Retyped.name)

section

variable {declared : List String} (ht' : t'.WellFormed declared)
include ht'

theorem WellFormedFields.retyped {fields fields' : List Field}
    (h : OneChanged (Field.Retyped t t') fields fields')
    (hfields : WellFormedFields declared fields) :
    WellFormedFields declared fields' := by
  have hname : ∀ f g : Field, f.Retyped t t' g → g.name = f.name := by
    rintro f _ ⟨-, rfl⟩
    rfl
  refine ⟨?_, h.forall_mem (fun f g hr hf => ?_) hfields.free,
    h.forall_mem (fun f g hr _ => ?_) hfields.types⟩
  · have hnames := congrArg (List.filterMap id) (h.map_eq (f := Field.name) hname)
    rw [List.filterMap_map, List.filterMap_map, Function.id_comp] at hnames
    exact hnames ▸ hfields.distinct
  · rw [hname f g hr]
    exact hf
  · obtain ⟨-, rfl⟩ := hr
    exact ht'

theorem Record.Retyped.wellFormed {r r' : Record} (h : r.Retyped t t' r')
    (hr : WellFormedFields declared r.fields) : WellFormedFields declared r'.fields := by
  obtain ⟨h⟩ := h
  exact hr.retyped ht' h

theorem Variant.Retyped.wellFormed {v v' : Variant} (h : v.Retyped t t' v')
    (hv : WellFormedFields declared v.fields) : WellFormedFields declared v'.fields := by
  obtain ⟨h⟩ := h
  exact hv.retyped ht' h

theorem Union.Retyped.wellFormed {u u' : Union} (h : u.Retyped t t' u')
    (hu : u.WellFormed declared) : u'.WellFormed declared := by
  obtain @⟨variants, h⟩ := h
  refine ⟨?_, h.forall_mem (fun v v' hr hv => ?_) hu.free,
    h.forall_mem (fun v v' hr => hr.wellFormed ht') hu.fields⟩
  · have hnames : variants.map Variant.name = u.variants.map Variant.name :=
      h.map_eq (f := Variant.name) fun _ _ => Variant.Retyped.name
    exact hnames ▸ hu.distinct
  · rw [hr.name]
    exact hv

end

theorem Schema.Retyped.wellFormed {s s' : Schema} (h : s.Retyped t t' s') (hs : s.WellFormed)
    (ht' : t'.WellFormed s.names) : s'.WellFormed := by
  have hnames := h.names
  rw [← hnames] at ht'
  obtain ⟨hdistinct, hfree, hrecords, hunions⟩ := hs
  rw [← hnames] at hdistinct hfree hrecords hunions
  cases h with
  | record h => exact ⟨hdistinct, hfree, h.forall_mem (fun _ _ hr => hr.wellFormed ht') hrecords,
      hunions⟩
  | union h => exact ⟨hdistinct, hfree, hrecords,
      h.forall_mem (fun _ _ hr => hr.wellFormed ht') hunions⟩

/-! ## Parsing -/

namespace Schema

theorem exists_of_outcome {x : Checked Schema} {s : Schema} (h : outcome x = .ok s) :
    ∃ s', x = .ok s' ∧ s'.unplaced = s := by
  cases x with
  | error why => cases h
  | ok s' => exact ⟨s', rfl, Except.ok.inj h⟩

theorem finish_eq_ok [Text.CharacterNames] {s s' : Schema} (h : s.unescape? = some s')
    (hs' : s'.WellFormed) :
    s.finish = .ok s' := by
  rw [finish, h]
  exact bind_eq_ok (check_eq_ok_iff.2 hs') rfl

/-- Where the type of a field stands, the text of another type is read. -/
theorem exists_parse [Text.CharacterNames] {text : String} {s s' : Schema} (h : parse text = .ok s)
    (hs' : s.Retyped t t' s') (ht' : t'.WellFormed s.names) {w : String} (hw : Spelling w t') :
    ∃ before written behind m, text.toList = before ++ written ++ behind ∧
      Rule.type ⟨written ++ behind, .behind before⟩ (t, m) ⟨behind, .behind (before ++ written)⟩ ∧
      ∃ s'', parse (String.ofList (before ++ '\n' :: (w.toList ++ '\n' :: behind))) = .ok s'' ∧
        s''.unplaced = s'.unplaced := by
  obtain ⟨s₀, hread, hunescape, hs⟩ := parse_eq_ok_iff.1 h
  obtain ⟨ds, hds⟩ := Spells.of_read hread
  obtain rfl := Except.ok.inj (hds.read.symm.trans hread)
  -- the change is one of the declarations that the text spells
  obtain ⟨s₁, hs₁, hunescape'⟩ := hs'.of_unescape? hunescape
  obtain ⟨ds', hchanged, rfl⟩ := hs₁.exists_declarations
  have hunplaced := hchanged.map (f := unplacedDeclaration) fun _ _ =>
    Phrase.DeclarationRetyped.unplaced
  obtain ⟨xs, hxs, hphrase⟩ := spells_iff_lexed.1 ⟨ds, hds, rfl⟩
  obtain ⟨front, ys, back, rfl, hys, hexchange⟩ :=
    Phrase.exchangeable_declarations xs _ _ hphrase hunplaced
  obtain ⟨before, written, behind, m, htext, htype, hlexed⟩ := exists_lexed hxs hys
  refine ⟨before, written, behind, m, htext, htype, ?_⟩
  obtain ⟨zs, hzs, hxs'⟩ := hlexed w t' hw
  obtain ⟨ds'', hds'', hplaces⟩ := spells_iff_lexed.2 ⟨_, hxs', hexchange zs hzs⟩
  refine exists_of_outcome ?_
  have hfinish := finish_eq_ok hunescape' (hs'.wellFormed hs ht')
  rw [hds''.parse, outcome_finish, ← ofDeclarations_unplaced, hplaces, ofDeclarations_unplaced,
    ← outcome_finish, hfinish]
  rfl

/-! ## Types of fields -/

theorem WellFormed.type {s : Schema} (hs : s.WellFormed) {f : Field} (hf : f ∈ s.fields) :
    f.type.WellFormed s.names := by
  rcases List.mem_append.1 hf with hf | hf
  · obtain ⟨r, hr, hf⟩ := List.mem_flatMap.1 hf
    exact (hs.records r hr).types f hf
  · obtain ⟨u, hu, hf⟩ := List.mem_flatMap.1 hf
    obtain ⟨v, hv, hf⟩ := List.mem_flatMap.1 hf
    exact ((hs.unions u hu).fields v hv).types f hf

/-- The names of declarations are words, and none is the one that arrays have. -/
theorem Named.identifier {s : Schema} (h : s.Named) (hs : s.WellFormed) {n : String}
    (hn : n ∈ s.names) : Identifier n.toList ∧ n ≠ "array" := by
  refine ⟨?_, ?_⟩
  · rw [names_eq_append] at hn
    rcases List.mem_append.1 hn with hn | hn
    · obtain ⟨r, hr, rfl⟩ := List.mem_map.1 hn
      exact h.records r hr
    · obtain ⟨u, hu, rfl⟩ := List.mem_map.1 hn
      exact h.unions u hu
  · rintro rfl
    exact (hs.free _ hn).2.1 (by decide)

/-- The type of a field that is parsed has a text, by which it is spelled. -/
theorem exists_spelling [Text.CharacterNames] {text : String} {s : Schema} (h : parse text = .ok s)
    {f : Field}
    (hf : f ∈ s.fields) : ∃ w, f.type.text? = some w ∧ Spelling w f.type := by
  obtain ⟨hs, -⟩ := of_parse h
  exact (hs.type hf).exists_spelling fun _ hn => (named_of_parse h).identifier hs hn

/-- Types are read from their texts. The type of each field of a schema that is parsed has a text,
and this can be put in the place of the type of any field, on a line of its own: then the schema is
parsed with just this type for that field. And fields of schemas that are parsed, the same or two,
have the same type if the texts of their types are the same. -/
theorem types_parse_back [Text.CharacterNames] {text : String} {s : Schema}
    (h : parse text = .ok s) :
    (∀ f ∈ s.fields, ∃ w, f.type.text? = some w ∧ ∀ t s', s.Retyped t f.type s' →
        ∃ before written behind m, text.toList = before ++ written ++ behind ∧
          Rule.type ⟨written ++ behind, .behind before⟩ (t, m)
            ⟨behind, .behind (before ++ written)⟩ ∧
          ∃ s'', parse (String.ofList (before ++ '\n' :: (w.toList ++ '\n' :: behind))) = .ok s'' ∧
            s''.unplaced = s'.unplaced) ∧
      ∀ text₂ s₂, parse text₂ = .ok s₂ → ∀ f ∈ s.fields, ∀ g ∈ s₂.fields,
        f.type.text? = g.type.text? → f.type = g.type := by
  refine ⟨fun f hf => ?_, fun text₂ s₂ h₂ f hf g hg hsame => ?_⟩
  · obtain ⟨w, hw, hspelling⟩ := exists_spelling h hf
    exact ⟨w, hw, fun t s' hs' => exists_parse h hs' ((of_parse h).1.type hf) hspelling⟩
  · obtain ⟨w, hw, hf⟩ := exists_spelling h hf
    obtain ⟨w₂, hw₂, hg⟩ := exists_spelling h₂ hg
    obtain rfl : w = w₂ := Option.some.inj (hw.symm.trans (hsame.trans hw₂))
    exact hf.unique hg

/-- A type that is nested in all ways is read in the place of a name. -/
theorem types_parse_back_of_nested :
    ∃ (s : Schema) (e : TypeExpr),
      parse "struct A \x7b a: map<u8, list<optional<A>[2][3]>>, b: u16 \x7d" = .ok s ∧
        s.fields.map Field.type = [e, .named "u16"] ∧
        ∃ w before behind s', e.text? = some w ∧
          parse (String.ofList (before ++ '\n' :: (w.toList ++ '\n' :: behind))) = .ok s' ∧
          s'.unplaced.fields.map Field.type = [e, e] := by
  have hread : read "struct A \x7b a: map<u8, list<optional<A>[2][3]>>, b: u16 \x7d" =
      .ok ⟨[⟨"A", .named, [⟨some "a", 0, .applied "map" [.named "u8",
        .applied "list" [.array (.array (.applied "optional" [.named "A"]) 2) 3]], [], ⟨1, 12⟩⟩,
        ⟨some "b", 1, .named "u16", [], ⟨1, 49⟩⟩], [], ⟨1, 8⟩⟩], []⟩ := by cbv
  have hparse := parse_eq_ok_iff.2 ⟨_, hread, rfl, check_eq_ok_iff.1 (by decide)⟩
  refine ⟨_, _, hparse, rfl, ?_⟩
  obtain ⟨w, hw, hback⟩ := (types_parse_back hparse).1 _ (.head _)
  obtain ⟨before, _, behind, _, -, -, s', hs', hplaces⟩ :=
    hback _ _ (.record (.head (.mk (.tail (.head ⟨rfl, rfl⟩)))))
  exact ⟨w, before, behind, s', hw, hs', by rw [hplaces]; rfl⟩

end Schema

end WireSchema
