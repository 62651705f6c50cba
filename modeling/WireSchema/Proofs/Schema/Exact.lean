import Mathlib
import WireSchema.Proofs.Schema.Parsing
import WireSchema.Proofs.Schema.Placing

/-!
# Exactly the grammar

Reading goes on to the end of the text, for each declaration takes up text. So it finds the
declarations of just the texts that spell some, and they are the only ones a text spells. Parsing
then replaces the escapes and checks names and types, and its outcome is the same for all texts with
the same tokens, but for the places.
-/

namespace WireSchema

open Cursor

/-! ## Reading -/

namespace Reader

theorem atEnd_of_manyUpTo {n : Nat} {s t : Cursor} {ds : List (Record ⊕ Union)}
    (h : manyUpTo (!·.atEnd) declaration n s = .ok (ds, t)) (hn : s.rest.length ≤ n) :
    t.atEnd = true := by
  induction n generalizing s ds with
  | zero =>
    cases h
    have hrest : t.rest = [] := List.length_eq_zero_iff.1 (Nat.le_zero.1 hn)
    rw [Cursor.atEnd, Cursor.token, hrest, skipGap]
    rfl
  | succ n ih =>
    obtain ⟨d, u, ds, hd, hds, -⟩ | ⟨hend, -, rfl⟩ := of_manyUpTo_succ h
    · have hlt := length_lt_of_declaration (reads_declaration.sound hd)
      exact ih hds (by omega)
    · simpa using hend

theorem declarations_eq_ok_iff {s t : Cursor} {ds : List (Record ⊕ Union)} :
    declarations s = .ok (ds, t) ↔ Rule.many Rule.declaration s ds t ∧ t.atEnd = true :=
  ⟨fun h => ⟨reads_declarations.sound h, atEnd_of_manyUpTo h (Nat.le_refl _)⟩,
    fun h => reads_declarations.complete h.1 h.2⟩

end Reader

namespace Spells

variable {text : String} {ds ds' : List (Record ⊕ Union)}

theorem iff_read : Spells text ds ↔ ∃ t, Reader.declarations (.ofString text) = .ok (ds, t) := by
  simp only [Reader.declarations_eq_ok_iff, atEnd_iff]
  exact ⟨fun ⟨t, u, hds, hgap, hend⟩ => ⟨t, hds, u, hgap, hend⟩,
    fun ⟨t, hds, u, hgap, hend⟩ => ⟨t, u, hds, hgap, hend⟩⟩

theorem unique (h : Spells text ds) (h' : Spells text ds') : ds = ds' := by
  obtain ⟨t, ht⟩ := iff_read.1 h
  obtain ⟨t', ht'⟩ := iff_read.1 h'
  cases ht.symm.trans ht'
  rfl

theorem read (h : Spells text ds) : Schema.read text = .ok (.ofDeclarations ds) := by
  obtain ⟨t, ht⟩ := iff_read.1 h
  rw [Schema.read, ht]

theorem of_read {s : Schema} (h : Schema.read text = .ok s) : ∃ ds, Spells text ds := by
  unfold Schema.read at h
  split at h
  next ds t ht => exact ⟨ds, iff_read.2 ⟨t, ht⟩⟩
  next => cases h

end Spells

/-- A schema is read from a text just if the text spells it. -/
theorem Schema.read_eq_ok_iff {text : String} {s : Schema} :
    read text = .ok s ↔ Spelled text s := by
  constructor
  · intro h
    obtain ⟨ds, hds⟩ := Spells.of_read h
    cases hds.read.symm.trans h
    obtain ⟨t, u, hspelled, hgap, hend⟩ := hds
    exact ⟨ds, t, u, hspelled, hgap, hend, rfl⟩
  · rintro ⟨ds, t, u, hspelled, hgap, hend, rfl⟩
    exact Spells.read ⟨t, u, hspelled, hgap, hend⟩

/-! ## Tokens -/

/-- A declaration without its places. -/
def unplacedDeclaration : Record ⊕ Union → Record ⊕ Union := Sum.map Record.unplaced Union.unplaced

/-- The declarations that a text spells are, but for their places, those that its tokens spell. -/
theorem spells_iff_lexed {text : String} {ds : List (Record ⊕ Union)} :
    (∃ ds', Spells text ds' ∧ ds'.map unplacedDeclaration = ds) ↔
      ∃ xs, Lexed text xs ∧ Phrase.declarations xs ds := by
  constructor
  · rintro ⟨ds, ⟨t, u, hds, hgap, hend⟩, rfl⟩
    obtain ⟨xs, hxs, hphrase⟩ := Rule.tokenized_declaration.many.tokens hds
    exact ⟨xs, ⟨t, u, hxs, hgap, hend⟩, hphrase⟩
  · rintro ⟨xs, ⟨t, u, hxs, hgap, hend⟩, hphrase⟩
    obtain ⟨ds', hds', hds⟩ := Rule.tokenized_declaration.many.spelled hxs hphrase
    exact ⟨ds', ⟨t, u, hds', hgap, hend⟩, hds⟩

theorem Schema.ofDeclarations_unplaced (ds : List (Record ⊕ Union)) :
    ofDeclarations (ds.map unplacedDeclaration) = (ofDeclarations ds).unplaced := by
  have hleft : ∀ d, (unplacedDeclaration d).getLeft? = d.getLeft?.map Record.unplaced := by
    rintro (r | u) <;> rfl
  have hright : ∀ d, (unplacedDeclaration d).getRight? = d.getRight?.map Union.unplaced := by
    rintro (r | u) <;> rfl
  simp [ofDeclarations, unplaced, List.filterMap_map, hleft, hright, List.map_filterMap]

/-! ## Positions of fields -/

/-- The fields know their position, counted from zero. -/
def Counted (fields : List Field) : Prop := fields.map Field.index = List.range fields.length

theorem Reader.yields_counted : Yields (fun b => Counted b.2) body := by
  have hnumbered : ∀ fields, Counted (numbered fields) := fun fields => by
    rw [Counted, map_index_numbered, numbered, List.length_mapIdx]
  refine (yields_true _).bind fun b _ => ?_
  cases b with
  | true =>
    exact (yields_true _).bind fun _ _ => (yields_true _).bind fun fields _ =>
      (yields_true _).bind fun _ _ => yields_pure (hnumbered fields)
  | false =>
    refine (yields_true _).bind fun b _ => ?_
    cases b with
    | true =>
      exact (yields_true _).bind fun _ _ => (yields_true _).bind fun fields _ =>
        yields_pure (hnumbered fields)
    | false => exact yields_pure rfl

theorem counted_of_unescapeFields? [Text.CharacterNames] {fields fields' : List Field}
    (h : unescapeFields? fields = some fields') (hfields : Counted fields) : Counted fields' := by
  have hindexes : fields'.map Field.index = fields.map Field.index := by
    refine map_eq_of_mapM (fun f f' hf' => ?_) h
    obtain ⟨_, -, hf'⟩ := Option.bind_eq_some_iff.1 hf'
    cases hf'
    rfl
  have hlen := congrArg List.length hindexes
  rw [List.length_map, List.length_map] at hlen
  rw [Counted, hindexes, hfields, hlen]

/-! ## Parsing -/

namespace Schema

/-- What is left to do once a text is read: the escapes are replaced, and the outcome is checked. -/
def finish [Text.CharacterNames] (s : Schema) : Checked Schema :=
  match s.unescape? with
  | none => .error .malformedString
  | some s' => do
    s'.check
    return s'

theorem parse_of_read [Text.CharacterNames] {text : String} {s : Schema} (h : read text = .ok s) :
    parse text = s.finish := by
  rw [parse, h]
  rfl

theorem finish_eq_ok_iff [Text.CharacterNames] {s s' : Schema} :
    s.finish = .ok s' ↔ s.unescape? = some s' ∧ s.check = .ok () := by
  rw [finish]
  cases hs : s.unescape? with
  | none => exact ⟨nofun, fun h => nomatch h.1⟩
  | some t =>
    have hcheck : t.check = .ok () ↔ s.check = .ok () := by
      rw [← Checked.unplaced_eq_ok, unplaced_check (sameSignature_of_unescape? hs),
        Checked.unplaced_eq_ok]
    rw [← hcheck]
    change (t.check >>= fun _ => pure t) = .ok s' ↔ some t = some s' ∧ t.check = .ok ()
    cases t.check with
    | error e => exact ⟨nofun, fun h => nomatch h.2⟩
    | ok _ => exact ⟨fun h => ⟨congrArg some (Except.ok.inj h), rfl⟩,
        fun h => congrArg Except.ok (Option.some.inj h.1)⟩

/-- A schema, or why there is none, without places. -/
def outcome (x : Checked Schema) : Checked Schema := Checked.unplaced (x.map unplaced)

theorem outcome_finish [Text.CharacterNames] (s : Schema) :
    outcome s.finish = s.unplaced.finish.unplaced := by
  rw [finish, finish, unescape?_unplaced]
  cases s.unescape? with
  | none => rfl
  | some t =>
    have hcheck := unplaced_check (sameSignature_unplaced t)
    dsimp only [Option.map_some]
    rw [Checked.unplaced_bind, hcheck]
    cases t.check <;> rfl

end Schema

theorem Spells.parse [Text.CharacterNames] {text : String} {ds : List (Record ⊕ Union)}
    (h : Spells text ds) :
    Schema.parse text = (Schema.ofDeclarations ds).finish :=
  Schema.parse_of_read h.read

namespace Schema

open Text (Escaped Bare)

/-- Reading succeeds for just the texts that spell declarations, and these are unique. If all
integers can be read, parsing returns the declarations with their escapes replaced, provided that
all string literals stand for a text and the names and types are in order. What a text spells is up
to its tokens, and not to the gaps around them, but for the places. -/
theorem parse_exact [Text.CharacterNames] (text : String) :
    ((∃ s, read text = .ok s) ↔ ∃ ds, Spells text ds) ∧
      (∀ ds ds', Spells text ds → Spells text ds' → ds = ds') ∧
      (∀ ds, Spells text ds →
        read text = .ok (.ofDeclarations ds) ∧
          (IntegersFit text →
            ((∃ s, parse text = .ok s) ↔
              (∀ body ∈ (ofDeclarations ds).literals, Escaped Bare body.toList) ∧
                (ofDeclarations ds).check = .ok ()) ∧
            ∀ s, parse text = .ok s →
              (ofDeclarations ds).unescape? = some s ∧ s.AllFields Counted)) ∧
      (∀ ds, (∃ ds', Spells text ds' ∧ ds'.map unplacedDeclaration = ds) ↔
        ∃ xs, Lexed text xs ∧ Phrase.declarations xs ds) ∧
      ∀ xs ds text', Phrase.declarations xs ds → Lexed text xs → Lexed text' xs →
        outcome (parse text') = outcome (parse text) := by
  refine ⟨?_, fun _ _ => Spells.unique, fun ds hds => ⟨hds.read, fun _ => ⟨?_, fun s hs => ?_⟩⟩,
    fun ds => spells_iff_lexed, fun xs ds text' hxs htext htext' => ?_⟩
  · constructor
    · rintro ⟨s, hs⟩
      exact Spells.of_read hs
    · rintro ⟨ds, hds⟩
      exact ⟨_, hds.read⟩
  · rw [hds.parse]
    change _ ↔ Readable _ ∧ _
    rw [← isSome_unescape?_iff, Option.isSome_iff_exists, ← exists_and_right]
    exact exists_congr fun s => finish_eq_ok_iff
  · rw [hds.parse] at hs
    have hunescape := (finish_eq_ok_iff.1 hs).1
    have hcounted := allFields_of_read Reader.yields_counted hds.read
    exact ⟨hunescape, hcounted.of_unescape? counted_of_unescapeFields? hunescape⟩
  · obtain ⟨ds₁, hds₁, h₁⟩ := spells_iff_lexed.2 ⟨xs, htext, hxs⟩
    obtain ⟨ds₂, hds₂, h₂⟩ := spells_iff_lexed.2 ⟨xs, htext', hxs⟩
    rw [hds₁.parse, hds₂.parse, outcome_finish, outcome_finish, ← ofDeclarations_unplaced,
      ← ofDeclarations_unplaced, h₁, h₂]

/-- A literal without an escape can be malformed, too: a bare carriage return breaks this one. -/
theorem malformed_of_bare_return :
    ∃ ds, Spells "@doc(text=\x22a\rb\x22) struct A" ds ∧
      (∀ body ∈ (ofDeclarations ds).literals, Escaped (fun _ => True) body.toList) ∧
      (ofDeclarations ds).check = .ok () ∧
      parse "@doc(text=\x22a\rb\x22) struct A" = .error .malformedString := by
  have hname : isReservedName "A" = false := by decide
  have htype : isReservedTypeName "A" = false := by decide
  have hspells : Spells "@doc(text=\x22a\rb\x22) struct A"
      [.inl ⟨"A", .unit, [], [⟨"doc", [.keyed "text" (.string "a\rb") ⟨1, 6⟩ ⟨1, 11⟩], ⟨1, 1⟩⟩],
        ⟨1, 25⟩⟩] :=
    Spells.iff_read.2 ⟨⟨[], ⟨1, 26⟩⟩, by cbv⟩
  refine ⟨_, hspells, fun body hbody => ?_, ?_, ?_⟩
  · obtain rfl : body = "a\rb" := List.mem_singleton.1 hbody
    exact .bare (by decide) trivial (.bare (by decide) trivial (.bare (by decide) trivial .nil))
  · have hdeclared : checkDeclared [] [("A", ⟨1, 25⟩)] = .ok ["A"] := by
      simp only [checkDeclared, checkName, hname, htype]
      rfl
    change (checkDeclared [] [("A", ⟨1, 25⟩)] >>= _) = _
    rw [hdeclared]
    rfl
  · rw [hspells.parse]
    cbv

end Schema

end WireSchema
