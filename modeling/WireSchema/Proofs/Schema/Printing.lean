import Mathlib.Data.List.Basic
import WireSchema.Proofs.Layout.HookPath
import WireSchema.Proofs.Schema.Naming

/-!
# Types are read from their texts

The text of a type is one that the grammar spells the type by, behind any gap and in front of
anything that does not go on with the last word. That is so for names and kept where types are put
together, at every depth. So a type is told by its text.
-/

namespace WireSchema

open Rule

/-! ## Words and signs -/

/-- What follows does not go on with a word. -/
def Parts (rest : List Char) : Prop := ∀ c ∈ rest.head?, ¬ isNameChar c = true

theorem parts_cons {c : Char} (hc : isNameChar c = false) (rest : List Char) :
    Parts (c :: rest) := by
  rintro _ ⟨⟩
  rw [hc]
  exact Bool.false_ne_true

theorem parts_nil : Parts [] := nofun

namespace Rule

theorem sign_of_gap {s : Cursor} {text : String} {rest : List Char} {l : Location}
    (h : Gap s ⟨text.toList ++ rest, l⟩) : sign text s () ⟨rest, l.advance text.toList⟩ :=
  ⟨_, h, rfl, rfl⟩

theorem name_of_gap {s : Cursor} {n : String} (hn : Identifier n.toList) {rest : List Char}
    {l : Location} (h : Gap s ⟨n.toList ++ rest, l⟩) (hrest : Parts rest) :
    name s (n, l) ⟨rest, l.advance n.toList⟩ := by
  have hchars := hn.isNameChar
  obtain ⟨c, cs, hcs, hstart⟩ : ∃ c cs, n.toList = c :: cs ∧ isNameStart c = true := by
    generalize n.toList = cs at hn
    obtain ⟨hstart, -⟩ := hn
    exact ⟨_, _, rfl, hstart⟩
  refine ⟨_, h, ⟨rfl, rfl⟩, rfl, ?_, ?_, hchars, hrest⟩
  · rw [hcs]
    exact List.cons_ne_nil c cs
  · rw [hcs]
    rintro _ ⟨⟩
    exact hstart

end Rule

/-! ## Sizes -/

theorem toList_toString (n : Nat) : (toString n).toList = Nat.toDigits 10 n := by
  rw [Nat.toString_eq_repr, Nat.toList_repr]

theorem isDigit_of_mem_toDigits {n : Nat} {c : Char} (h : c ∈ Nat.toDigits 10 n) :
    c.isDigit = true :=
  Nat.isDigit_of_mem_toDigits (by decide) (by decide) h

theorem digit?_of_isDigit {c : Char} (h : c.isDigit = true) :
    (Text.digit? c).getD 0 = c.toNat - '0'.toNat := by
  have hdigit : '0' ≤ c ∧ c ≤ '9' := by
    rw [Char.isDigit, Bool.and_eq_true, decide_eq_true_eq, decide_eq_true_eq] at h
    exact h
  rw [Text.digit?, if_pos hdigit]
  rfl

/-- A number is read from its digits. -/
theorem ofDigits_toDigits (n : Nat) : Text.ofDigits 10 (Nat.toDigits 10 n) = n := by
  have hread : Text.ofDigits 10 (Nat.toDigits 10 n) =
      Nat.ofDigitChars 10 (Nat.toDigits 10 n) 0 := by
    rw [Text.ofDigits, Nat.ofDigitChars_eq_foldl]
    refine List.foldl_ext _ _ _ fun m c hc => ?_
    rw [digit?_of_isDigit (isDigit_of_mem_toDigits hc), Nat.mul_comm]
  rw [hread, Nat.ofDigitChars_toDigits (by decide) (by decide)]

theorem Rule.integer_of_gap {s : Cursor} {n : Nat} {rest : List Char} {l : Location}
    (h : Gap s ⟨(toString n).toList ++ rest, l⟩) (hrest : ∀ c ∈ rest.head?, ¬ c.isDigit = true) :
    integer s (n, l) ⟨rest, l.advance (toString n).toList⟩ := by
  have hdigits : ∀ c ∈ (toString n).toList, c.isDigit = true := fun c hc =>
    isDigit_of_mem_toDigits (toList_toString n ▸ hc)
  refine ⟨(toString n, l), _, ⟨_, h, ⟨rfl, rfl⟩, rfl, ?_, fun c hc => ?_, hdigits, hrest⟩, ?_, rfl⟩
  · rw [toList_toString]
    exact Nat.toDigits_ne_nil
  · exact hdigits c (List.mem_of_head? hc)
  · rw [toList_toString, ofDigits_toDigits]

/-! ## Types -/

/-- The grammar spells the type by this text. -/
def Spelling (w : String) (t : TypeExpr) : Prop :=
  ∀ s l rest, Gap s ⟨w.toList ++ rest, l⟩ → Parts rest → ∃ m, TypeSpelled s (t, l) ⟨rest, m⟩

/-- The grammar spells the types by this text. -/
def Spellings (w : String) (ts : List TypeExpr) : Prop :=
  ∀ s l rest, Gap s ⟨w.toList ++ rest, l⟩ → Parts rest → ∃ m, TypesSpelled s ts ⟨rest, m⟩

namespace Spelling

variable {w : String} {t : TypeExpr}

theorem named {n : String} (hn : Identifier n.toList) : Spelling n (.named n) :=
  fun _ _ _ hgap hrest => ⟨_, .named (name_of_gap hn hgap hrest)⟩

theorem single (h : Spelling w t) : Spellings w [t] := by
  intro s l rest hgap hrest
  obtain ⟨m, ht⟩ := h s l rest hgap hrest
  exact ⟨m, .single ht⟩

theorem cons (h : Spelling w t) {ws : String} {ts : List TypeExpr} (hs : Spellings ws ts) :
    Spellings (w ++ ", " ++ ws) (t :: ts) := by
  intro s l rest hgap hrest
  have hcomma : ", ".toList = ",".toList ++ [' '] := by decide
  simp only [String.toList_append, List.append_assoc, hcomma] at hgap
  obtain ⟨m, ht⟩ := h s l _ hgap (parts_cons (by decide) _)
  have hblank : Gap ⟨[' '] ++ (ws.toList ++ rest), m.advance ",".toList⟩
      ⟨ws.toList ++ rest, (m.advance ",".toList).advance [' ']⟩ :=
    .blank (by decide) ⟨rfl, rfl⟩ (.nil _)
  obtain ⟨m', hts⟩ := hs _ _ rest hblank hrest
  exact ⟨m', .cons ht (sign_of_gap (.nil _)) hts⟩

theorem array (h : Spelling w t) (size : Nat) :
    Spelling (w ++ "[" ++ toString size ++ "]") (.array t size) := by
  intro s l rest hgap hrest
  simp only [String.toList_append, List.append_assoc] at hgap
  obtain ⟨m, ht⟩ := h s l _ hgap (parts_cons (by decide) _)
  have hend : ∀ c ∈ ("]".toList ++ rest).head?, ¬ c.isDigit = true := by
    rintro _ ⟨⟩
    decide
  exact ⟨_, .array ht (sign_of_gap (.nil _)) (integer_of_gap (.nil _) hend) (sign_of_gap (.nil _))⟩

end Spelling

theorem Spellings.applied {w : String} {ts : List TypeExpr} (h : Spellings w ts) {n : String}
    (hn : Identifier n.toList) : Spelling (n ++ "<" ++ w ++ ">") (.applied n ts) := by
  intro s l rest hgap hrest
  simp only [String.toList_append, List.append_assoc] at hgap
  have hname := name_of_gap hn hgap (parts_cons (by decide) _)
  obtain ⟨m, hts⟩ := h _ ((l.advance n.toList).advance "<".toList) (">".toList ++ rest) (.nil _)
    (parts_cons (by decide) _)
  exact ⟨_, .applied hname (sign_of_gap (.nil _)) hts (sign_of_gap (.nil _))⟩

/-! ## Texts of types -/

theorem identifier_of_primitive (p : Primitive) : Identifier p.name.toList := by
  rw [← isIdentifier_iff]
  cases p with
  | int k => cases k <;> decide
  | _ => decide

theorem text?_named {n : String} (h : n ≠ "array") : (TypeExpr.named n).text? = some n := by
  rw [TypeExpr.text?, if_neg h]

theorem Primitive.name_ne_array (p : Primitive) : p.name ≠ "array" := by
  cases p with
  | int k => cases k <;> decide
  | _ => decide

theorem Spellings.exists_applied {n w : String} {ts : List TypeExpr} (hn : Identifier n.toList)
    (hne : n ≠ "array") (hw : (TypeExpr.textList? ts).map ", ".intercalate = some w)
    (hts : Spellings w ts) :
    ∃ v, (TypeExpr.applied n ts).text? = some v ∧ Spelling v (.applied n ts) := by
  obtain ⟨ws, hws, rfl⟩ := Option.map_eq_some_iff.1 hw
  refine ⟨_, ?_, hts.applied hn⟩
  rw [TypeExpr.text?, if_neg hne, hws]
  rfl

/-- A type that can stand in a field has a text, by which it is spelled. -/
theorem TypeExpr.WellFormed.exists_spelling {declared : List String}
    (hdeclared : ∀ n ∈ declared, Identifier n.toList ∧ n ≠ "array") {t : TypeExpr}
    (h : t.WellFormed declared) : ∃ w, t.text? = some w ∧ Spelling w t := by
  induction h with
  | primitive p =>
    exact ⟨_, text?_named p.name_ne_array, Spelling.named (identifier_of_primitive p)⟩
  | declared hmem =>
    obtain ⟨hn, hne⟩ := hdeclared _ hmem
    exact ⟨_, text?_named hne, Spelling.named hn⟩
  | optional _ ih | list _ ih =>
    obtain ⟨w, hw, ht⟩ := ih
    refine ht.single.exists_applied (isIdentifier_iff.1 (by decide)) (by decide) ?_
    rw [TypeExpr.textList?, hw]
    rfl
  | map key _ ih =>
    obtain ⟨w, hw, ht⟩ := ih
    have hkey := Spelling.named (identifier_of_primitive key)
    refine (hkey.cons ht.single).exists_applied (isIdentifier_iff.1 (by decide)) (by decide) ?_
    rw [TypeExpr.textList?, text?_named key.name_ne_array, TypeExpr.textList?, hw]
    rfl
  | array size _ ih =>
    obtain ⟨w, hw, ht⟩ := ih
    exact ⟨_, by rw [TypeExpr.text?, hw]; rfl, ht.array size⟩

/-- No two types are spelled by the same text. -/
theorem Spelling.unique {w : String} {t t' : TypeExpr} (h : Spelling w t) (h' : Spelling w t') :
    t = t' := by
  have hend : ∀ m, Reader.TypeEnds ⟨[], m⟩ := fun m => Cursor.avoids_of_atEnd rfl _
  obtain ⟨m, ht⟩ := h _ .start [] (.nil _) parts_nil
  obtain ⟨m', ht'⟩ := h' _ .start [] (.nil _) parts_nil
  have hread := Reader.reads_type.complete ht (hend m)
  rw [Reader.reads_type.complete ht' (hend m')] at hread
  cases hread
  rfl

end WireSchema
