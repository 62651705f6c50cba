import WireSchema.Command.Run
import WireSchema.Proofs.Schema.Refusing
import WireSchema.Proofs.Schema.Stumbling

/-!
# Texts without an answer

A text has a layout, or a diagnostic that says why not, but for two faults that are found once it is
read: a malformed string literal, and a map key whose fault cannot be worded. The command prints a
diagnostic for all others. This goes for texts in which no number has more digits than can be read.
-/

namespace WireSchema

/-- No number of a text has more digits than can be read, be it an integer of the grammar or a
discriminant. -/
structure NumbersFit (text : String) : Prop where
  integers : IntegersFit text
  discriminants : ∀ ds, Spells text ds →
    ∀ d ∈ (Schema.ofDeclarations ds).discriminants, isTooLong d = false

/-- Of the declarations that the text spells, if there are any, all string literals are well formed,
and no map key without a text stops the checks. -/
def Answerable [Text.CharacterNames] (text : String) : Prop :=
  ∀ ds, Spells text ds →
    Readable (Schema.ofDeclarations ds).literals ∧ ¬ (Schema.ofDeclarations ds).Stumbles

/-- What is no unexpected input is found once the text is read. -/
theorem Schema.parse_eq_error_iff [Text.CharacterNames] {text : String} {why : SchemaRejection}
    (hwhy : ∀ l, why ≠ .invalid .unexpectedInput l) :
    parse text = .error why ↔ ∃ ds, Spells text ds ∧ (ofDeclarations ds).finish = .error why := by
  constructor
  · intro h
    rcases parse_error_cases h with ⟨l, -, rfl⟩ | ⟨s, hread, -⟩
    · exact absurd rfl (hwhy l)
    · obtain ⟨ds, hds⟩ := Spells.of_read hread
      exact ⟨ds, hds, hds.parse.symm.trans h⟩
  · rintro ⟨ds, hds, hfinish⟩
    exact hds.parse.trans hfinish

/-- Escapes make no difference to discriminants. -/
theorem Schema.discriminants_of_unescape? [Text.CharacterNames] {s s' : Schema}
    (h : s.unescape? = some s') :
    s'.discriminants = s.discriminants := by
  obtain ⟨records, -, h⟩ := Option.bind_eq_some_iff.1 h
  obtain ⟨unions, hunions, h⟩ := Option.bind_eq_some_iff.1 h
  cases h
  have hwritten : unions.map (fun u => u.variants.map Variant.discriminant) =
      s.unions.map fun u => u.variants.map Variant.discriminant := by
    refine map_eq_of_mapM (fun u u' hu => ?_) hunions
    obtain ⟨_, -, hu⟩ := Option.bind_eq_some_iff.1 hu
    obtain ⟨variants, hvariants, hu⟩ := Option.bind_eq_some_iff.1 hu
    cases hu
    refine map_eq_of_mapM (fun v v' hv => ?_) hvariants
    obtain ⟨_, -, hv⟩ := Option.bind_eq_some_iff.1 hv
    obtain ⟨_, -, hv⟩ := Option.bind_eq_some_iff.1 hv
    cases hv
    rfl
  have hall := congrArg (List.flatMap (List.filterMap id)) hwritten
  simpa [discriminants, List.flatMap_map, List.filterMap_map, Function.comp_def] using hall

/-- What cannot be resolved has a diagnostic, if all discriminants can be read. -/
theorem NumbersFit.isWorded [Text.CharacterNames] {text : String} (h : NumbersFit text)
    {e : LayoutError}
    (he : Layout.ofText text = .error (.resolving e)) : e.fault.isWorded = true := by
  obtain ⟨why', -, hwhy⟩ | ⟨s, e', hparse, hlayout, hwhy⟩ := Layout.ofText_eq_error_iff.1 he
  · cases hwhy
  cases hwhy
  obtain ⟨s₀, hread, hunescape, -⟩ := Schema.parse_eq_ok_iff.1 hparse
  obtain ⟨ds, hds⟩ := Spells.of_read hread
  cases hds.read.symm.trans hread
  by_contra hworded
  obtain ⟨d, hd, hlong⟩ := (Layout.fails_ofSchema s e hlayout).unworded (eq_false_of_ne_true hworded)
  rw [Schema.discriminants_of_unescape? hunescape] at hd
  cases hlong.symm.trans (h.discriminants ds hds d hd)

namespace Layout

/-- There is a layout of the text, or a diagnostic. -/
def Answered [Text.CharacterNames] (text : String) : Prop :=
  (∃ layout, ofText text = .ok layout) ∨
    ∃ why message l, ofText text = .error why ∧ why.diagnostic? = some (message, l)

theorem ofText_eq_reading_iff [Text.CharacterNames] {text : String} {why : SchemaRejection} :
    ofText text = .error (.reading why) ↔ Schema.parse text = .error why := by
  rw [ofText_eq_error_iff]
  simp

theorem ofText_eq_malformedString_iff [Text.CharacterNames] {text : String} :
    ofText text = .error (.reading .malformedString) ↔
      ∃ ds, Spells text ds ∧ ¬ Readable (Schema.ofDeclarations ds).literals := by
  rw [ofText_eq_reading_iff, Schema.parse_eq_error_iff fun _ => SchemaRejection.noConfusion]
  simp only [Schema.finish_eq_malformedString_iff]

theorem ofText_eq_keyWithoutText_iff [Text.CharacterNames] {text : String} :
    ofText text = .error (.reading .keyWithoutText) ↔
      ∃ ds, Spells text ds ∧ Readable (Schema.ofDeclarations ds).literals ∧
        (Schema.ofDeclarations ds).Stumbles := by
  rw [ofText_eq_reading_iff, Schema.parse_eq_error_iff fun _ => SchemaRejection.noConfusion]
  simp only [Schema.finish_eq_keyWithoutText_iff]

theorem not_answered [Text.CharacterNames] {text : String} {why : Rejection}
    (h : ofText text = .error why)
    (hd : why.diagnostic? = none) : ¬ Answered text := by
  rintro (⟨_, hok⟩ | ⟨why', _, _, herror, hd'⟩)
  · cases h.symm.trans hok
  · cases h.symm.trans herror
    cases hd.symm.trans hd'

theorem not_answered_iff [Text.CharacterNames] {text : String} (h : NumbersFit text) :
    ¬ Answered text ↔ ofText text = .error (.reading .malformedString) ∨
      ofText text = .error (.reading .keyWithoutText) := by
  have hworded := fun e => h.isWorded (e := e)
  unfold Answered
  cases hlayout : ofText text with
  | ok layout => exact iff_of_false (fun h => h (.inl ⟨layout, rfl⟩)) nofun
  | error why =>
    cases why with
    | resolving e =>
      exact iff_of_false (fun h => h (.inr ⟨_, _, _, rfl, if_pos (hworded e hlayout)⟩)) nofun
    | reading why =>
      cases why with
      | invalid fault l => exact iff_of_false (fun h => h (.inr ⟨_, _, _, rfl, rfl⟩)) nofun
      | malformedString | keyWithoutText =>
        refine iff_of_true ?_ (by simp)
        rintro (⟨_, h⟩ | ⟨_, _, _, h, hd⟩)
        · cases h
        · cases h
          cases hd

theorem answered_iff_answerable [Text.CharacterNames] {text : String} (h : NumbersFit text) :
    Answered text ↔ Answerable text := by
  rw [← not_iff_not, not_answered_iff h, ofText_eq_malformedString_iff, ofText_eq_keyWithoutText_iff]
  constructor
  · rintro (⟨ds, hds, hliterals⟩ | ⟨ds, hds, -, hstumbles⟩) h
    · exact hliterals (h ds hds).1
    · exact (h ds hds).2 hstumbles
  · intro h
    obtain ⟨ds, h⟩ := not_forall.1 h
    obtain ⟨hds, h⟩ := Classical.not_imp.1 h
    by_cases hliterals : Readable (Schema.ofDeclarations ds).literals
    · exact .inr ⟨ds, hds, hliterals, not_not.1 fun hstumbles => h ⟨hliterals, hstumbles⟩⟩
    · exact .inl ⟨ds, hds, hliterals⟩

/-- The text of a file as the command reads it. -/
def readText (text : String) : String := .ofList (Command.unifyNewlines text.toList)

/-- The command has a layout, or prints the diagnostic behind the path and the place. -/
def Reported [Text.CharacterNames] (path text : String) : Prop :=
  (∃ layout, Command.load path text = .ok (.inr layout)) ∨
    ∃ why message l, ofText (readText text) = .error why ∧ why.diagnostic? = some (message, l) ∧
      Command.load path text = .ok (.inl
        { exitCode := 1, errors := path ++ ":" ++ l.text ++ ": error: " ++ message ++ "\n" })

theorem reported_iff_answered [Text.CharacterNames] {path text : String} :
    Reported path text ↔ Answered (readText text) := by
  unfold Reported Answered Command.load
  rw [← readText]
  cases ofText (readText text) with
  | ok layout => exact iff_of_true (.inl ⟨layout, rfl⟩) (.inl ⟨layout, rfl⟩)
  | error why =>
    cases hd : why.diagnostic? with
    | none => simp [hd]
    | some d =>
      refine iff_of_true (.inr ⟨why, d.1, d.2, rfl, hd, ?_⟩) (.inr ⟨why, d.1, d.2, rfl, hd⟩)
      simp only [hd]

/-- A text has a layout or a diagnostic, and the command prints it, if what it spells has no
malformed string literal and no map key at fault that has no text. The first is found once the text
is read. The second is found if all that is checked before is in order. -/
theorem ofText_answers [Text.CharacterNames] {text : String} (h : NumbersFit text) :
    (Answered text ↔ Answerable text) ∧
      (ofText text = .error (.reading .malformedString) ↔
        ∃ ds, Spells text ds ∧ ¬ Readable (Schema.ofDeclarations ds).literals) ∧
      (ofText text = .error (.reading .keyWithoutText) ↔
        ∃ ds, Spells text ds ∧ Readable (Schema.ofDeclarations ds).literals ∧
          (Schema.ofDeclarations ds).Stumbles) ∧
      ∀ path file, readText file = text → (Reported path file ↔ Answerable text) := by
  refine ⟨answered_iff_answerable h, ofText_eq_malformedString_iff, ofText_eq_keyWithoutText_iff,
    ?_⟩
  rintro path file rfl
  exact reported_iff_answered.trans (answered_iff_answerable h)

/-- A token is no longer than the text it is in. -/
theorem length_chars_le {s t : Cursor} {xs : List Token} (h : Tokens s xs t) :
    ∀ x ∈ xs, x.chars.length ≤ s.rest.length := by
  induction h with
  | nil => nofun
  | cons hgap hx _ ih =>
    have hgap := hgap.length_le
    have hlength := hx.covers_chars.length
    exact List.forall_mem_cons.2 ⟨by omega, fun y hy => (ih y hy).trans (by omega)⟩

/-- A union with a tag of two digits has a layout. -/
theorem ofText_answers_of_tag :
    let text := "union U \x7b A = 07 \x7d"
    NumbersFit text ∧ Answered text ∧ ∀ path, Reported path text := by
  intro text
  have hspells : Spells text [.inr ⟨"U", [⟨"A", .unit, [], some "07", [], ⟨1, 11⟩⟩], [], ⟨1, 7⟩⟩] :=
    Spells.iff_read.2 ⟨⟨[], ⟨1, 19⟩⟩, by cbv⟩
  have hfit : NumbersFit text := by
    refine ⟨fun xs ds hlexed _ digits hdigits => ?_, fun ds hds d hd => ?_⟩
    · obtain ⟨_, _, htokens, -⟩ := hlexed
      have hshort : text.toList.length ≤ Text.maxDigits := by decide +kernel
      exact (length_chars_le htokens _ hdigits).trans hshort
    · cases hds.unique hspells
      cases List.mem_singleton.1 hd
      decide
  obtain ⟨hanswered, -, -, hreported⟩ := ofText_answers hfit
  have hlayout : Answered text := .inl (exists_of_any_ofText text (fun _ => true)
    (by decide +kernel) |>.imp fun _ h => h.1)
  exact ⟨hfit, hlayout, fun path =>
    (hreported path text (by decide +kernel)).2 (hanswered.1 hlayout)⟩

/-- The word `array` as the key of a map, and an escape that is cut short. -/
theorem not_answered_of_array_key :
    ofText "struct A \x7b x: map<array, u8> \x7d" = .error (.reading .keyWithoutText) ∧
      ¬ Answered "struct A \x7b x: map<array, u8> \x7d" ∧
      ofText "@codec(a = \x22\x5cx4\x22) struct A" = .error (.reading .malformedString) ∧
      ¬ Answered "@codec(a = \x22\x5cx4\x22) struct A" := by
  have hkey : ofText "struct A \x7b x: map<array, u8> \x7d" = .error (.reading .keyWithoutText) :=
    ofText_eq_error_of_decide (by decide +kernel)
  have hescape : ofText "@codec(a = \x22\x5cx4\x22) struct A" =
      .error (.reading .malformedString) :=
    ofText_eq_error_of_decide (by decide +kernel)
  exact ⟨hkey, not_answered hkey rfl, hescape, not_answered hescape rfl⟩

end Layout

end WireSchema
