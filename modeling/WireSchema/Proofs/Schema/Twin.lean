import WireSchema.Proofs.Schema.Parsing

/-!
# Texts that part

Two texts that are the same up to a place. What is behind the place changes neither the gaps nor the
tokens in front of it, as long as a line feed is there or the character that was there before.
-/

namespace WireSchema

open Cursor

/-- Two cursors from which the same characters lead up to `e` and `e'`, and from the same place. -/
structure Twins (e e' s s' : Cursor) : Prop where
  location : s'.location = s.location
  upTo : ∃ cs, s.Covers cs e ∧ s'.Covers cs e'

/-- A line feed follows, or the character that did before. -/
def Joins (e e' : Cursor) : Prop :=
  e'.rest.head? = some '\n' ∨ e'.rest.head? = e.rest.head?

variable {e e' s s' t : Cursor}

theorem Cursor.Covers.split {cs ds : List Char} (h : s.Covers cs e) (k : s.Covers ds t)
    (hle : e.rest.length ≤ t.rest.length) : ∃ gs, cs = ds ++ gs ∧ t.Covers gs e := by
  have htext := k.text.symm.trans h.text
  have hlength := congrArg List.length htext
  rw [List.length_append, List.length_append] at hlength
  obtain ⟨gs, rfl⟩ := List.prefix_of_prefix_length_le (List.prefix_append ds t.rest)
    (htext ▸ List.prefix_append cs e.rest) (by omega)
  refine ⟨gs, rfl, ?_, ?_⟩
  · rw [List.append_assoc] at htext
    exact List.append_cancel_left htext
  · rw [h.location, k.location, Location.advance_append]

namespace Twins

/-- The same characters lead to twins again. -/
theorem step (h : Twins e e' s s') {ds : List Char} (hs : s.Covers ds t)
    (hle : e.rest.length ≤ t.rest.length) : ∃ t', s'.Covers ds t' ∧ Twins e e' t t' := by
  obtain ⟨hlocation, _, hcs, hcs'⟩ := h
  obtain ⟨gs, rfl, hgs⟩ := hcs.split hs hle
  have htext : s'.Covers ds ⟨gs ++ e'.rest, s'.location.advance ds⟩ :=
    ⟨by rw [hcs'.text, List.append_assoc], rfl⟩
  refine ⟨_, htext, ⟨by rw [hs.location, ← hlocation], gs, hgs, rfl, ?_⟩⟩
  rw [hcs'.location, Location.advance_append]

theorem length_le (h : Twins e e' s s') : e.rest.length ≤ s.rest.length := by
  obtain ⟨-, cs, hcs, -⟩ := h
  exact hcs.length ▸ Nat.le_add_left _ _

/-- At the place itself, the twin is the other place. -/
theorem eq (h : Twins e e' e s') : s' = e' := by
  obtain ⟨hlocation, cs, hcs, hcs'⟩ := h
  obtain rfl : cs = [] := by
    have hlength := hcs.length
    exact List.length_eq_zero_iff.1 (by omega)
  rw [hcs'.eq.1, hcs'.eq.2]
  rfl

/-- Twins are followed by the same character, or are at the place itself. -/
theorem head_eq_or (h : Twins e e' s s') :
    s'.rest.head? = s.rest.head? ∨ s'.rest = e'.rest ∧ s.rest = e.rest := by
  obtain ⟨-, cs, hcs, hcs'⟩ := h
  cases cs with
  | nil => exact .inr ⟨hcs'.text, hcs.text⟩
  | cons c cs => exact .inl (by rw [hcs.text, hcs'.text]; rfl)

theorem joins (h : Twins e e' s s') (hjoins : Joins e e') : Joins s s' := by
  rcases h.head_eq_or with hsame | ⟨hs', hs⟩
  · exact .inr hsame
  · rwa [Joins, hs', hs]

theorem head_eq (h : Twins e e' s s') (he : e'.rest.head? = e.rest.head?) :
    s'.rest.head? = s.rest.head? :=
  h.head_eq_or.elim id fun ⟨hs', hs⟩ => by rw [hs', hs, he]

/-- Between two pairs of twins there is the same text. -/
theorem length_add {t' : Cursor} (h : Twins e e' s s') (k : Twins e e' t t') :
    s'.rest.length + t.rest.length = s.rest.length + t'.rest.length := by
  obtain ⟨-, cs, hcs, hcs'⟩ := h
  obtain ⟨-, ds, hds, hds'⟩ := k
  rw [hcs.length, hcs'.length, hds.length, hds'.length]
  omega

end Twins

/-! ## Gaps and tokens -/

/-- Gaps of a text are gaps of the other. -/
theorem Gap.twins (hjoins : Joins e e') (hgap : Gap s t) {s' : Cursor} (h : Twins e e' s s')
    (hle : e.rest.length ≤ t.rest.length) : ∃ t', Gap s' t' ∧ Twins e e' t t' := by
  induction hgap generalizing s' with
  | nil => exact ⟨s', .nil s', h⟩
  | blank hc hs hgap ih =>
    obtain ⟨u, hu, htwins⟩ := h.step hs (Nat.le_trans hle hgap.length_le)
    obtain ⟨t', hgap', h'⟩ := ih htwins hle
    exact ⟨t', .blank hc hu hgap', h'⟩
  | comment hcs hs hend hgap ih =>
    obtain ⟨u, hu, htwins⟩ := h.step hs (Nat.le_trans hle hgap.length_le)
    obtain ⟨t', hgap', h'⟩ := ih htwins hle
    refine ⟨t', .comment hcs hu (fun c hc => ?_) hgap', h'⟩
    rcases htwins.joins hjoins with hfeed | hsame
    · rw [hfeed] at hc
      exact (Option.some.inj hc).symm
    · exact hend c (hsame ▸ hc)

theorem Rule.Stretch.twins {first p : Char → Bool} (hp : p '\n' = false) (hjoins : Joins e e')
    {text : String} (hx : Stretch first p s (text, s.location) t) (h : Twins e e' s s')
    (hle : e.rest.length ≤ t.rest.length) :
    ∃ t', Stretch first p s' (text, s'.location) t' ∧ Twins e e' t t' := by
  obtain ⟨t', ht', htwins⟩ := h.step hx.covers hle
  refine ⟨t', ⟨ht', rfl, hx.nonempty, hx.starts, hx.within, fun c hc => ?_⟩, htwins⟩
  rcases htwins.joins hjoins with hfeed | hsame
  · rw [hfeed] at hc
    obtain rfl := Option.some.inj hc
    simp [hp]
  · exact hx.longest c (hsame ▸ hc)

/-- A token of a text is one of the other. -/
theorem Token.Covers.twins (hjoins : Joins e e') {x : Token} (hx : x.Covers s t)
    (h : Twins e e' s s') (hle : e.rest.length ≤ t.rest.length) :
    ∃ t', x.Covers s' t' ∧ Twins e e' t t' := by
  cases x with
  | sign text =>
    obtain ⟨t', ht', htwins⟩ := h.step hx.2 hle
    exact ⟨t', ⟨hx.1, ht'⟩, htwins⟩
  | string body =>
    obtain ⟨t', ht', htwins⟩ := h.step hx.1 hle
    exact ⟨t', ⟨ht', hx.2⟩, htwins⟩
  | name | integer | discriminant => exact Rule.Stretch.twins (by decide) hjoins hx h hle

theorem Tokens.length_le {xs : List Token} (h : Tokens s xs t) : t.rest.length ≤ s.rest.length := by
  cases xs with
  | nil =>
    cases h
    exact Nat.le_refl _
  | cons => exact Nat.le_of_lt (h.length_lt (List.cons_ne_nil _ _))

theorem Tokens.twins (hjoins : Joins e e') {xs : List Token} (hxs : Tokens s xs t) {s' : Cursor}
    (h : Twins e e' s s') (hle : e.rest.length ≤ t.rest.length) :
    ∃ t', Tokens s' xs t' ∧ Twins e e' t t' := by
  induction hxs generalizing s' with
  | nil => exact ⟨s', .nil s', h⟩
  | cons hgap hx hrest ih =>
    have hle' := Nat.le_trans hle hrest.length_le
    obtain ⟨u, hgap', hu⟩ := hgap.twins hjoins h (Nat.le_trans hle' (Nat.le_of_lt hx.length_lt))
    obtain ⟨v, hx', hv⟩ := hx.twins hjoins hu hle'
    obtain ⟨t', hrest', ht'⟩ := ih hv hle
    exact ⟨t', .cons hgap' hx' hrest', ht'⟩

end WireSchema
