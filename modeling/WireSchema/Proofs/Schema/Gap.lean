import WireSchema.Schema.Spelling

/-!
# Gaps

Skipping takes the longest gap, and whatever gap is taken in front of a token, the token begins
where skipping leads to. So where a rule starts with a token, the gap in front of it need not be
chosen.
-/

namespace WireSchema

namespace Cursor

theorem Covers.length {s t : Cursor} {cs : List Char} (h : s.Covers cs t) :
    s.rest.length = cs.length + t.rest.length := by
  rw [h.text, List.length_append]

/-- No gap begins here. -/
def GapFree (s : Cursor) : Prop := ∀ c ∈ s.rest.head?, Text.isLayout c = false ∧ c ≠ '#'

theorem covers_cons (c : Char) (cs : List Char) (l : Location) :
    Covers ⟨c :: cs, l⟩ [c] ⟨cs, l.next c⟩ := ⟨rfl, rfl⟩

/-- Text that is covered is known with its place. -/
theorem Covers.eq {s t : Cursor} {cs : List Char} (h : s.Covers cs t) :
    s = ⟨cs ++ t.rest, s.location⟩ ∧ t = ⟨t.rest, s.location.advance cs⟩ := by
  obtain ⟨htext, hlocation⟩ := h
  obtain ⟨_, _⟩ := s
  obtain ⟨_, _⟩ := t
  simp_all

end Cursor

open Cursor

theorem not_isLayout_hash : Text.isLayout '#' = false := by
  decide

theorem isLayout_lineFeed : Text.isLayout '\n' = true := by
  decide

/-! ## Skipping -/

/-- In a comment, skipping goes on up to the end of the line. -/
theorem skipGap_comment {cs rest : List Char} (l : Location) (hcs : '\n' ∉ cs)
    (hrest : ∀ c ∈ rest.head?, c = '\n') :
    skipGap true l (cs ++ rest) = skipGap false (l.advance cs) rest := by
  induction cs generalizing l with
  | nil =>
    cases rest with
    | nil => rfl
    | cons c rest =>
      obtain rfl := hrest c rfl
      simp [skipGap, isLayout_lineFeed]
  | cons c cs ih =>
    rw [List.mem_cons, not_or] at hcs
    have hc : (c != '\n') = true := by simpa using Ne.symm hcs.1
    simp [skipGap, hc, ih (l.next c) hcs.2]

theorem gap_skipGap (cs : List Char) (l : Location) :
    Gap ⟨cs, l⟩ (skipGap false l cs) ∧
      ∃ ds t, '\n' ∉ ds ∧ Covers ⟨cs, l⟩ ds t ∧ (∀ c ∈ t.rest.head?, c = '\n') ∧
        Gap t (skipGap true l cs) := by
  induction cs generalizing l with
  | nil => exact ⟨.nil _, [], _, List.not_mem_nil, covers_nil _, nofun, .nil _⟩
  | cons c cs ih =>
    obtain ⟨hgap, ds, t, hds, hcovers, ht, hcomment⟩ := ih (l.next c)
    have hcovers' : Covers ⟨c :: cs, l⟩ (c :: ds) t := (covers_cons c cs l).append hcovers
    by_cases hc : c = '\n'
    · -- a line feed ends a comment
      subst hc
      have hblank : Gap ⟨'\n' :: cs, l⟩ (skipGap false (l.next '\n') cs) :=
        .blank isLayout_lineFeed (covers_cons _ _ _) hgap
      simp only [skipGap, isLayout_lineFeed, if_true, bne_self_eq_false, Bool.and_false]
      exact ⟨hblank, [], _, List.not_mem_nil, covers_nil _, by simp, hblank⟩
    · have hcs : '\n' ∉ c :: ds := by simp [Ne.symm hc, hds]
      have hc' : (c != '\n') = true := by simpa using hc
      refine ⟨?_, c :: ds, t, hcs, hcovers', ht, ?_⟩
      · by_cases hlayout : Text.isLayout c = true
        · simpa [skipGap, hlayout] using .blank hlayout (covers_cons c cs l) hgap
        · by_cases hhash : c = '#'
          · subst hhash
            simpa [skipGap, hlayout] using .comment hds hcovers' ht hcomment
          · simpa [skipGap, hlayout, hhash] using .nil _
      · simpa [skipGap, hc'] using hcomment

theorem gap_token (s : Cursor) : Gap s s.token := (gap_skipGap s.rest s.location).1

theorem token_of_gapFree {s : Cursor} (h : s.GapFree) : s.token = s := by
  obtain ⟨cs, l⟩ := s
  cases cs with
  | nil => rfl
  | cons c cs =>
    obtain ⟨hlayout, hhash⟩ := h c rfl
    simp [token, skipGap, hlayout, hhash]

/-- A gap does not change what comes next. -/
theorem Gap.token_eq {s t : Cursor} (h : Gap s t) : s.token = t.token := by
  induction h with
  | nil => rfl
  | blank hc hs _ ih =>
    rw [← ih]
    obtain ⟨h₁, h₂⟩ := hs.eq
    rw [h₁, h₂]
    simp [token, skipGap, hc]
  | comment hcs hs ht _ ih =>
    rw [← ih]
    obtain ⟨h₁, h₂⟩ := hs.eq
    rw [h₁, h₂]
    simp [token, skipGap, not_isLayout_hash, skipGap_comment _ hcs ht]

theorem Gap.eq_token {s t : Cursor} (h : Gap s t) (ht : t.GapFree) : t = s.token :=
  (token_of_gapFree ht).symm.trans h.token_eq.symm

theorem Gap.length_le {s t : Cursor} (h : Gap s t) : t.rest.length ≤ s.rest.length := by
  induction h with
  | nil => exact Nat.le_refl _
  | blank _ hs _ ih => exact Nat.le_trans ih (hs.length ▸ Nat.le_add_left _ _)
  | comment _ hs _ _ ih => exact Nat.le_trans ih (hs.length ▸ Nat.le_add_left _ _)

theorem atEnd_iff {s : Cursor} : s.atEnd = true ↔ ∃ t, Gap s t ∧ t.rest = [] := by
  rw [atEnd, List.isEmpty_iff]
  constructor
  · exact fun h => ⟨s.token, gap_token s, h⟩
  · rintro ⟨t, hgap, ht⟩
    have hfree : t.GapFree := by simp [GapFree, ht]
    rw [← hgap.eq_token hfree, ht]

/-! ## Tokens -/

/-- Whether a token can begin with a character. -/
def startsToken (c : Char) : Bool := !Text.isLayout c && c != '#'

theorem gapFree_of_head {s : Cursor} {c : Char} (hs : s.rest.head? = some c)
    (hc : startsToken c = true) : s.GapFree := by
  intro d hd
  obtain rfl := Option.some.inj (hs.symm.trans hd)
  simpa [startsToken] using hc

/-- The characters that gaps begin with. -/
def gapStarts : List Char := [' ', '\t', '\x0c', '\r', '\n', '#']

theorem startsToken_of {first : Char → Bool} (h : gapStarts.any first = false) {c : Char}
    (hc : first c = true) : startsToken c = true := by
  cases hstart : startsToken c with
  | true => rfl
  | false =>
    have hmem : c ∈ gapStarts := by
      simp only [startsToken, Text.isLayout, Bool.and_eq_false_iff, Bool.not_eq_false',
        Bool.or_eq_true, decide_eq_true_eq, bne_eq_false_iff_eq] at hstart
      simpa [gapStarts, or_assoc] using hstart
    exact absurd hc (List.any_eq_false.1 h c hmem)

namespace Rule

variable {α : Type}

/-- A rule that never starts with a gap is told from the place where skipping leads to. -/
theorem token_iff {p : Rule α} (hp : ∀ {s a t}, p s a t → s.GapFree) {s : Cursor} {a : α}
    {t : Cursor} : token p s a t ↔ p s.token a t := by
  constructor
  · rintro ⟨u, hgap, hu⟩
    rwa [← hgap.eq_token (hp hu)]
  · exact fun h => ⟨s.token, gap_token s, h⟩

theorem head_of_covers {s t : Cursor} {cs : List Char} {c : Char} (h : s.Covers cs t)
    (hc : cs.head? = some c) : s.rest.head? = some c := by
  rw [h.text, List.head?_append, hc]
  rfl

theorem Stretch.exists_head {first p : Char → Bool} {s t : Cursor} {x : String × Location}
    (h : Stretch first p s x t) : ∃ c, s.rest.head? = some c ∧ first c = true := by
  obtain ⟨c, hc⟩ := Option.isSome_iff_exists.1 (List.isSome_head?.2 h.nonempty)
  exact ⟨c, head_of_covers h.covers hc, h.starts c hc⟩

theorem stretch_iff {first p : Char → Bool} (hfirst : gapStarts.any first = false) {s t : Cursor}
    {x : String × Location} : token (Stretch first p) s x t ↔ Stretch first p s.token x t := by
  refine token_iff fun h => ?_
  obtain ⟨c, hc, hstart⟩ := h.exists_head
  exact gapFree_of_head hc (startsToken_of hfirst hstart)

theorem sign_iff {text : String} {c : Char} (hc : text.toList.head? = some c)
    (hstart : startsToken c = true) {s t : Cursor} {a : Unit} :
    sign text s a t ↔ s.token.Covers text.toList t :=
  token_iff fun h => gapFree_of_head (head_of_covers h hc) hstart

theorem name_iff {s t : Cursor} {x : String × Location} :
    name s x t ↔ Stretch isNameStart isNameChar s.token x t :=
  stretch_iff (by decide)

theorem string_iff {s t : Cursor} {x : String × Location} :
    string s x t ↔ s.token.Covers ('\x22' :: x.1.toList ++ ['\x22']) t ∧
      x.2 = s.token.location ∧ Inside x.1.toList :=
  token_iff fun h => gapFree_of_head (head_of_covers h.1 rfl) (by decide)

end Rule

end WireSchema
