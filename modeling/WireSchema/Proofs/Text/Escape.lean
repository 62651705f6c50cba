import WireSchema.Text.Escape

/-!
# Well-formed literals

Whether the inside of a literal stands for a text is a matter of its escapes and of the characters
outside them, each on its own.
-/

namespace WireSchema.Text

variable [CharacterNames]

/-- The escapes are well formed, and all characters outside of them are in `bare`. -/
inductive Escaped (bare : Char → Prop) : List Char → Prop
  | nil : Escaped bare []
  | bare {c : Char} {cs : List Char} :
    c ≠ '\x5c' → bare c → Escaped bare cs → Escaped bare (c :: cs)
  | escape {cs rest : List Char} {ds : List Nat} :
    escape? cs = some (ds, rest) → Escaped bare rest → Escaped bare ('\x5c' :: cs)

/-- Every character can stand outside of an escape, but for a carriage return, which ends the line,
and the null character. -/
def Bare (c : Char) : Prop := c ≠ '\r' ∧ c ≠ '\x00'

theorem unescape?_escape {cs rest : List Char} {ds : List Nat} (h : escape? cs = some (ds, rest)) :
    unescape? ('\x5c' :: cs) = (unescape? rest).map (ds ++ ·) := by
  rw [unescape?]
  simp only [if_true]
  split
  next h' =>
    cases h.symm.trans h'
    rfl
  next h' => cases h.symm.trans h'

theorem isSome_unescape?_of_escaped {cs : List Char} (h : Escaped Bare cs) :
    (unescape? cs).isSome := by
  induction h with
  | nil => rw [unescape?_nil]; rfl
  | bare hc hbare _ ih => rwa [unescape?_cons _ hc hbare.1 hbare.2, Option.isSome_map]
  | escape he _ ih => rwa [unescape?_escape he, Option.isSome_map]

theorem escaped_of_unescape? {cs : List Char} {ds : List Nat} (h : unescape? cs = some ds) :
    Escaped Bare cs := by
  fun_induction unescape? cs generalizing ds with
  | case1 => exact .nil
  | case2 cs es rest he ih =>
    obtain ⟨ds, hds, -⟩ := Option.map_eq_some_iff.1 h
    exact .escape he (ih hds)
  | case3 => cases h
  | case4 => cases h
  | case5 c cs hc hbare ih =>
    obtain ⟨ds, hds, -⟩ := Option.map_eq_some_iff.1 h
    exact .bare hc (not_or.1 hbare) (ih hds)

/-- A literal stands for a text if its escapes are well formed and no character outside of them
breaks it. -/
theorem isSome_unescape?_iff {cs : List Char} : (unescape? cs).isSome ↔ Escaped Bare cs := by
  refine ⟨fun h => ?_, isSome_unescape?_of_escaped⟩
  obtain ⟨ds, hds⟩ := Option.isSome_iff_exists.1 h
  exact escaped_of_unescape? hds

end WireSchema.Text
