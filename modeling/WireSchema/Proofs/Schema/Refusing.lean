import WireSchema.Proofs.Layout.Blaming
import WireSchema.Proofs.Schema.Completing
import WireSchema.Proofs.Schema.Exact
import WireSchema.Proofs.Schema.Marking

/-!
# Where a text is refused

Reading stops as late as it can: what stands in front of the place can be completed, and no token
that could follow begins there. If a line feed is put behind the place, the tokens in front of it
are the same, so a completion can be written behind it. And if a token began there that could
follow, the text with just this token and a completion would be read, though it stops at the same
place.

The place that is reported is this one, unless a shadow covers it.
-/

namespace WireSchema

open Cursor

/-! ## Shadows -/

/-- The sign of a comment stands before on the same line, and of what comes there is more than one
character on the line. -/
def Shadowed (before rest : List Char) : Prop :=
  '#' ∈ before.reverse.takeWhile (· ≠ '\n') ∧ 2 ≤ (rest.takeWhile (· ≠ '\n')).length

theorem gapLength_of_gapFree {s : Cursor} (h : s.GapFree) : gapLength s.rest = 0 := by
  cases hs : s.rest with
  | nil => rfl
  | cons c cs =>
    obtain ⟨hlayout, hhash⟩ := h c (by rw [hs]; rfl)
    simp [gapLength, hlayout, hhash]

theorem exists_leaveShadow (n : Nat) (l : Location) (cs : List Char) :
    ∃ skipped behind, cs = skipped ++ behind ∧ leaveShadow n l cs = l.advance skipped := by
  induction cs generalizing n l with
  | nil => exact ⟨[], [], rfl, rfl⟩
  | cons c cs ih =>
    rw [leaveShadow]
    split
    · exact ⟨[], c :: cs, rfl, rfl⟩
    · obtain ⟨skipped, behind, rfl, h⟩ := ih (max n (gapLength (c :: cs)) - 1) (l.next c)
      exact ⟨c :: skipped, behind, rfl, h⟩

theorem shadow_eq {text : String} {before : List Char} {e : Cursor}
    (h : (ofString text).Covers before e) :
    shadow text.toList e = if '#' ∈ before.reverse.takeWhile (· ≠ '\n') then
      (e.rest.takeWhile (· ≠ '\n')).length else 0 := by
  have htext : text.toList = before ++ e.rest := h.text
  have hbefore : text.toList.take (text.toList.length - e.rest.length) = before := by
    rw [htext, List.length_append, Nat.add_sub_cancel, List.take_left']
    rfl
  simp only [shadow, hbefore, List.contains_iff_mem]

/-- The place that is reported is that of the cursor, or further on if a shadow covers it. -/
theorem exists_refusal {text : String} {before : List Char} {e : Cursor}
    (h : (ofString text).Covers before e) (hne : e.rest ≠ []) (hfree : e.GapFree) :
    ∃ skipped behind, e.rest = skipped ++ behind ∧
      refusal text.toList e = Location.behind (before ++ skipped) ∧
      (skipped = [] ↔ ¬ Shadowed before e.rest) := by
  have hplace : ∀ skipped, e.location.advance skipped = Location.behind (before ++ skipped) := by
    intro skipped
    rw [h.location, ← Location.advance_append]
    exact Location.advance_start _
  obtain ⟨c, cs, hrest⟩ := List.exists_cons_of_ne_nil hne
  have hzero := gapLength_of_gapFree hfree
  have hempty : e.rest.isEmpty = false := by rw [hrest]; rfl
  have hmax : max (shadow text.toList e) (gapLength (c :: cs)) ≤ 1 ↔ ¬ Shadowed before e.rest := by
    rw [← hrest, hzero, Nat.max_zero, shadow_eq h, Shadowed]
    split
    next hmem => simp only [hmem, true_and]; omega
    next hmem => simp only [hmem, false_and]; simp
  rw [refusal, hempty, hrest, leaveShadow]
  simp only [Bool.false_eq_true, if_false]
  split
  next hle =>
    refine ⟨[], c :: cs, rfl, hplace [], ?_⟩
    rw [← hrest]
    exact iff_of_true rfl (hmax.1 hle)
  next hle =>
    obtain ⟨skipped, behind, rfl, hl⟩ := exists_leaveShadow
      (max (shadow text.toList e) (gapLength (c :: cs)) - 1) (e.location.next c) cs
    refine ⟨c :: skipped, behind, rfl, hl.trans (hplace (c :: skipped)), ?_⟩
    rw [← hrest]
    exact iff_of_false (List.cons_ne_nil _ _) fun h => hle (hmax.2 h)

theorem refusal_eq_endOfText_iff {text : String} {before : List Char} {e : Cursor}
    (h : (ofString text).Covers before e) (hfree : e.GapFree) :
    refusal text.toList e = .endOfText ↔ e.rest = [] := by
  constructor
  · intro hl
    by_contra hne
    obtain ⟨skipped, _, -, hplace, -⟩ := exists_refusal h hne hfree
    have hline := congrArg Location.line (hplace.symm.trans hl)
    have hpos : (Location.behind (before ++ skipped)).line =
        1 + ((before ++ skipped).count '\n' : Int) := rfl
    rw [hpos] at hline
    change _ = (-1 : Int) at hline
    omega
  · intro hrest
    rw [refusal, hrest]
    rfl

/-! ## Going on -/

/-- A token that can stand behind a row of tokens: some text has the row and then the token, and it
spells declarations. -/
def Allows (xs : List Token) (x : Token) : Prop :=
  ∃ text ys ds, Lexed text (xs ++ x :: ys) ∧ Phrase.declarations (xs ++ x :: ys) ds

/-- Reading a text stops behind `before`, as late as it can, and it is reported where the text ends
early, or else there or further on in a shadow. -/
structure StopsLate (text : String) (l : Location) (before : List Char) (e : Cursor) : Prop where
  split : text.toList = before ++ e.rest
  place : e.location = Location.behind before
  /-- What stands in front of the place can be completed. -/
  completable : ∃ behind ds, Spells (String.ofList (before ++ behind)) ds
  /-- Neither a blank nor a comment begins there. -/
  gapFree : e.GapFree
  tokens : ∃ xs t, Tokens (ofString text) xs t ∧ Gap t e
  /-- No token begins there that can stand behind those in front. -/
  late : ∀ xs t x u, Tokens (ofString text) xs t → Gap t e → x.Covers e u → ¬ Allows xs x
  endsEarly : l = .endOfText ↔ e.rest = []
  reported : e.rest ≠ [] → ∃ skipped behind, e.rest = skipped ++ behind ∧
    l = Location.behind (before ++ skipped) ∧ (skipped = [] ↔ ¬ Shadowed before e.rest)

theorem Tokens.exists_covers {s t : Cursor} {xs : List Token} (h : Tokens s xs t) :
    ∃ cs, s.Covers cs t := by
  induction h with
  | nil s => exact ⟨[], s.covers_nil⟩
  | cons hgap hx _ ih =>
    obtain ⟨gap, hgap⟩ := hgap.exists_covers
    obtain ⟨cs, hcs⟩ := ih
    exact ⟨_, hgap.append (hx.covers_chars.append hcs)⟩

/-- A text that goes on in another way has the tokens in front of the place, and then those that it
goes on with. -/
theorem lexed_of_joins {text : String} {before behind : List Char} {e t u v : Cursor}
    {xs ys : List Token} (hbefore : (ofString text).Covers before e)
    (hxs : Tokens (ofString text) xs t) (hgap : Gap t e) (hjoins : Joins e ⟨behind, e.location⟩)
    (hys : Tokens ⟨behind, e.location⟩ ys u) (hend : Gap u v) (hv : v.rest = []) :
    Lexed (String.ofList (before ++ behind)) (xs ++ ys) := by
  have htwins : Twins e ⟨behind, e.location⟩ (ofString text)
      (ofString (String.ofList (before ++ behind))) :=
    ⟨rfl, before, hbefore, by rw [ofString, String.toList_ofList], hbefore.location⟩
  obtain ⟨t', hxs', ht'⟩ := hxs.twins hjoins htwins hgap.length_le
  obtain ⟨e', hgap', he'⟩ := hgap.twins hjoins ht' (Nat.le_refl _)
  obtain rfl := he'.eq
  cases hys with
  | nil =>
    rw [List.append_nil]
    exact ⟨t', v, hxs', hgap'.trans hend, hv⟩
  | cons hgap₁ hx hrest =>
    exact ⟨u, v, hxs'.append (.cons (hgap'.trans hgap₁) hx hrest), hend, hv⟩

/-- Written behind the place, a completion of the tokens before it makes a text that is read. -/
theorem exists_spells {text : String} {before : List Char} {e t : Cursor} {xs ys : List Token}
    {ds : List (Record ⊕ Union)} (hbefore : (ofString text).Covers before e)
    (hxs : Tokens (ofString text) xs t) (hgap : Gap t e) (hys : ∀ y ∈ ys, y.Writable)
    (hds : Phrase.declarations (xs ++ ys) ds) :
    ∃ behind ds', Spells (String.ofList (before ++ behind)) ds' := by
  obtain ⟨u, v, htokens, hend, hv⟩ := tokens_written hys (s := ⟨written ys, e.location⟩) rfl
  have hlexed := lexed_of_joins hbefore hxs hgap (.inl (head?_written ys)) htokens hend hv
  obtain ⟨ds', hds', -⟩ := spells_iff_lexed.2 ⟨_, hlexed, hds⟩
  exact ⟨_, ds', hds'⟩

/-- Where reading stops, no token begins that can stand behind those in front of the place. -/
theorem not_allows {text : String} {before : List Char} {e t u : Cursor} {xs : List Token}
    {x : Token} (hread : Reader.declarations (ofString text) = .error e) (hfree : e.GapFree)
    (hbefore : (ofString text).Covers before e) (hxs : Tokens (ofString text) xs t)
    (hgap : Gap t e) (hx : x.Covers e u) : ¬ Allows xs x := by
  rintro ⟨text', ys, ds, ⟨t', _, htokens, -⟩, hds⟩
  have hys : ∀ y ∈ ys, y.Writable := fun y hy =>
    htokens.writable y (List.mem_append_right _ (.tail _ hy))
  obtain ⟨rest, hrest⟩ := List.head?_eq_some_iff.1 (head?_written ys)
  have hne : x.chars ≠ [] := by
    intro hnil
    have hlength := hx.covers_chars.length
    have hlt := hx.length_lt
    rw [hnil] at hlength
    exact absurd hlength (by simp; omega)
  -- the text with just this token, and then a completion
  have hcut : Cut e ⟨x.chars ++ written ys, e.location⟩ :=
    ⟨rfl, hfree, x.chars, u.rest, rest, hne, hx.covers_chars.text, by rw [hrest]⟩
  have htwins : Twins e ⟨x.chars ++ written ys, e.location⟩ (ofString text)
      (ofString (String.ofList (before ++ (x.chars ++ written ys)))) :=
    ⟨rfl, before, hbefore, by rw [ofString, String.toList_ofList], hbefore.location⟩
  have hstop := Reader.declarations_stops hcut htwins hread
  obtain ⟨v, w, hwritten, hend, hw⟩ :=
    tokens_written hys (s := ⟨written ys, e.location.advance x.chars⟩) rfl
  have htoken : Tokens ⟨x.chars ++ written ys, e.location⟩ (x :: ys) v :=
    .cons (.nil _) (Token.Writable.covers ⟨e, u, hx⟩ ⟨rfl, rfl⟩ (head?_written ys)) hwritten
  have hlexed := lexed_of_joins hbefore hxs hgap hcut.joins htoken hend hw
  obtain ⟨ds', hds', -⟩ := spells_iff_lexed.2 ⟨_, hlexed, hds⟩
  obtain ⟨_, hok⟩ := Spells.iff_read.1 hds'
  cases hok.symm.trans hstop

/-- Where the readers stop is as late as it can be. -/
theorem exists_stopsLate {text : String} {e : Cursor}
    (hread : Reader.declarations (ofString text) = .error e) :
    ∃ before, StopsLate text (refusal text.toList e) before e := by
  obtain ⟨xs, t, hxs, hgap, hfree, ys, ds, hys, hds⟩ := Reader.follows_declarations.stops hread
  obtain ⟨cs, hcs⟩ := hxs.exists_covers
  obtain ⟨gap, hgap'⟩ := hgap.exists_covers
  have hbefore := hcs.append hgap'
  exact ⟨cs ++ gap, {
    split := hbefore.text
    place := hbefore.location.trans (Location.advance_start _)
    completable := exists_spells hbefore hxs hgap hys hds
    gapFree := hfree
    tokens := ⟨xs, t, hxs, hgap⟩
    late := fun _ _ _ _ hxs hgap hx => not_allows hread hfree hbefore hxs hgap hx
    endsEarly := refusal_eq_endOfText_iff hbefore hfree
    reported := fun hne => exists_refusal hbefore hne hfree }⟩

/-! ## Texts that are refused -/

namespace Schema

theorem parse_error_cases [Text.CharacterNames] {text : String} {why : SchemaRejection}
    (h : parse text = .error why) :
    (∃ l, read text = .error l ∧ why = .invalid .unexpectedInput l) ∨
      ∃ s₀, read text = .ok s₀ ∧ (s₀.unescape? = none ∧ why = .malformedString ∨
        ∃ s, s₀.unescape? = some s ∧ s.check = .error why) := by
  unfold parse at h
  cases hread : read text with
  | error l =>
    rw [hread] at h
    cases h
    exact .inl ⟨l, rfl, rfl⟩
  | ok s₀ =>
    rw [hread] at h
    refine .inr ⟨s₀, rfl, ?_⟩
    dsimp only at h
    cases hs : s₀.unescape? with
    | none =>
      rw [hs] at h
      cases h
      exact .inl ⟨rfl, rfl⟩
    | some s =>
      rw [hs] at h
      dsimp only at h
      refine .inr ⟨s, rfl, ?_⟩
      cases hcheck : s.check with
      | error why' =>
        rw [hcheck] at h
        cases h
        rfl
      | ok _ =>
        rw [hcheck] at h
        cases h

theorem read_of_unexpectedInput [Text.CharacterNames] {text : String} {l : Location}
    (h : parse text = refuse .unexpectedInput l) : ∃ e,
    Reader.declarations (ofString text) = .error e ∧ l = refusal text.toList e := by
  obtain ⟨l', hread, hl⟩ : ∃ l', read text = .error l' ∧ l' = l := by
    rcases parse_error_cases h with ⟨l', hread, hwhy⟩ | ⟨s₀, -, ⟨-, hwhy⟩ | ⟨s, -, hcheck⟩⟩
    · cases hwhy
      exact ⟨l, hread, rfl⟩
    · cases hwhy
    · exact absurd rfl (s.fails_check _ hcheck).1
  subst hl
  unfold read at hread
  split at hread
  next => cases hread
  next e he =>
    cases hread
    exact ⟨e, he, rfl⟩

/-- A text that is refused as unexpected input is so at a place where nothing fits: what stands in
front of it can be completed, and no blank, comment or token begins there that could follow. If the
text ends there, it is reported to end early; otherwise this is the place that is reported, but in a
shadow a place further on is. -/
theorem parse_stops_late [Text.CharacterNames] {text : String} {l : Location}
    (h : parse text = refuse .unexpectedInput l) : ∃ before e, StopsLate text l before e := by
  obtain ⟨e, hread, rfl⟩ := read_of_unexpectedInput h
  obtain ⟨before, hlate⟩ := exists_stopsLate hread
  exact ⟨before, e, hlate⟩

/-- Behind the name of a record comes no exclamation mark. -/
theorem parse_stops_late_of_mark :
    parse "struct A !" = refuse .unexpectedInput ⟨1, 10⟩ ∧
      ∃ before e, StopsLate "struct A !" ⟨1, 10⟩ before e := by
  have h : parse "struct A !" = refuse .unexpectedInput ⟨1, 10⟩ := by cbv
  exact ⟨h, parse_stops_late h⟩

/-- In a shadow the place that is reported is too late: what stands in front of it cannot be
completed. -/
theorem reported_too_late :
    parse "@a(\x22#\x22) !x" = refuse .unexpectedInput ⟨1, 10⟩ ∧
      Location.behind "@a(\x22#\x22) !".toList = ⟨1, 10⟩ ∧
      ∀ behind ds, ¬ Spells (String.ofList ("@a(\x22#\x22) !".toList ++ behind)) ds := by
  refine ⟨by cbv, by decide, fun behind ds hds => ?_⟩
  obtain ⟨t, ht⟩ := Spells.iff_read.1 hds
  have hstop : Reader.declarations ⟨"@a(\x22#\x22) !".toList ++ behind, .start⟩ =
      .error ⟨'!' :: behind, ⟨1, 9⟩⟩ := by cbv
  rw [ofString, String.toList_ofList, hstop] at ht
  cases ht

end Schema

end WireSchema
