import WireSchema.Layout.HookPath

/-!
# Dotted names

The language of hook paths as a grammar: identifiers joined by single dots, and at most one colon
between two such names.
-/

namespace WireSchema

/-- A letter or an underscore, and then letters, digits and underscores. -/
inductive Identifier : List Char → Prop
  | mk {c : Char} {cs : List Char} :
    isNameStart c → (∀ d ∈ cs, isNameChar d) → Identifier (c :: cs)

inductive Dotted : List Char → Prop
  | single {cs : List Char} : Identifier cs → Dotted cs
  | cons {cs ds : List Char} : Identifier cs → Dotted ds → Dotted (cs ++ '.' :: ds)

/-- A path from its first character to its last. -/
inductive HookPath : List Char → Prop
  | plain {cs : List Char} : Dotted cs → HookPath cs
  | inModule {home member : List Char} :
    Dotted home → Dotted member → HookPath (home ++ ':' :: member)

/-- The texts by which a hook can be given: a path, and the same with a line feed behind it. -/
def IsHookText (s : String) : Prop :=
  ∃ path : String, HookPath path.toList ∧ (s = path ∨ s = path ++ "\n")

theorem isIdentifier_iff {cs : List Char} : isIdentifier cs = true ↔ Identifier cs := by
  cases cs with
  | nil => exact ⟨fun h => (Bool.false_ne_true h).elim, nofun⟩
  | cons c cs =>
    simp only [isIdentifier, Bool.and_eq_true, List.all_eq_true]
    exact ⟨fun h => .mk h.1 h.2, fun h => by cases h with | mk hc hcs => exact ⟨hc, hcs⟩⟩

end WireSchema
