import WireSchema.Layout.Dotted
import WireSchema.Proofs.Layout.Joining
import WireSchema.Proofs.Text.Segments

/-!
# Which hook paths are accepted

A dotted name has no colon and no line feed, so it can be told from the characters where a path is
cut. What is accepted is therefore the language of paths, but for a line feed that may stand behind
one.
-/

namespace WireSchema

/-! ## The characters of a path -/

theorem isNameChar_of_isNameStart {c : Char} (h : isNameStart c = true) : isNameChar c = true := by
  simp only [isNameStart, isNameChar, Char.isAlphanum, Bool.or_eq_true] at h ⊢
  exact h.imp_left .inl

theorem Identifier.isNameChar {cs : List Char} (h : Identifier cs) :
    ∀ c ∈ cs, isNameChar c = true := by
  cases h with
  | mk hc hcs => exact List.forall_mem_cons.2 ⟨isNameChar_of_isNameStart hc, hcs⟩

theorem Identifier.notMem {cs : List Char} (h : Identifier cs) {c : Char}
    (hc : WireSchema.isNameChar c = false) : c ∉ cs := fun hmem => by
  rw [h.isNameChar c hmem] at hc
  cases hc

theorem Dotted.notMem {cs : List Char} (h : Dotted cs) {c : Char} (hc : isNameChar c = false)
    (hdot : c ≠ '.') : c ∉ cs := by
  induction h with
  | single h => exact h.notMem hc
  | cons h _ ih =>
    rw [List.mem_append, List.mem_cons]
    exact fun hmem => hmem.elim (h.notMem hc) fun hmem => hmem.elim hdot ih

theorem HookPath.notMem {cs : List Char} (h : HookPath cs) {c : Char} (hc : isNameChar c = false)
    (hdot : c ≠ '.') (hcolon : c ≠ ':') : c ∉ cs := by
  cases h with
  | plain h => exact h.notMem hc hdot
  | inModule hhome hmember =>
    rw [List.mem_append, List.mem_cons]
    exact fun hmem => hmem.elim (hhome.notMem hc hdot) fun hmem =>
      hmem.elim hcolon (hmember.notMem hc hdot)

/-! ## Acceptance -/

theorem isDotted_iff {cs : List Char} : isDotted cs = true ↔ Dotted cs := by
  constructor
  · intro h
    induction hlen : cs.length using Nat.strongRecOn generalizing cs with
    | ind n ih =>
      rw [isDotted] at h
      rcases Text.segments_cases '.' cs with ⟨-, hcs⟩ | ⟨xs, ys, -, rfl, hcs⟩
      · rw [hcs, List.all_cons, List.all_nil, Bool.and_true] at h
        exact .single (isIdentifier_iff.1 h)
      · rw [hcs, List.all_cons, Bool.and_eq_true] at h
        refine .cons (isIdentifier_iff.1 h.1) (ih ys.length ?_ h.2 rfl)
        rw [← hlen, List.length_append, List.length_cons]
        omega
  · intro h
    induction h with
    | single h =>
      rw [isDotted, Text.segments_of_notMem (h.notMem (by decide)), List.all_cons, List.all_nil,
        Bool.and_true]
      exact isIdentifier_iff.2 h
    | cons h _ ih =>
      rw [isDotted, Text.segments_append_cons (h.notMem (by decide)), List.all_cons,
        isIdentifier_iff.2 h]
      exact ih

/-- A text is a path just if its segments between colons are one or two dotted names. -/
theorem hookPath_iff {cs : List Char} : HookPath cs ↔
    (match Text.segments ':' cs with
      | [member] => isDotted member
      | [home, member] => isDotted home && isDotted member
      | _ => false) = true := by
  constructor
  · intro h
    cases h with
    | plain h =>
      rw [Text.segments_of_notMem (h.notMem (by decide) (by decide))]
      exact isDotted_iff.2 h
    | inModule hhome hmember =>
      rw [Text.segments_append_cons (hhome.notMem (by decide) (by decide)),
        Text.segments_of_notMem (hmember.notMem (by decide) (by decide))]
      exact Bool.and_eq_true_iff.2 ⟨isDotted_iff.2 hhome, isDotted_iff.2 hmember⟩
  · intro h
    rcases Text.segments_cases ':' cs with ⟨-, hcs⟩ | ⟨home, ys, -, rfl, hcs⟩
    · rw [hcs] at h
      exact .plain (isDotted_iff.1 h)
    · rw [hcs] at h
      rcases Text.segments_cases ':' ys with ⟨-, hys⟩ | ⟨_, _, -, rfl, hys⟩
      · rw [hys, Bool.and_eq_true] at h
        exact .inModule (isDotted_iff.1 h.1) (isDotted_iff.1 h.2)
      · rw [hys] at h
        -- there are three segments or more
        split at h
        next heq => cases heq
        next heq => exact absurd (List.cons.inj (List.cons.inj heq).2).2 (Text.segments_ne_nil _ _)
        next => cases h

theorem isHookPath_iff_withoutFinalNewline {s : String} :
    isHookPath s = true ↔ HookPath (withoutFinalNewline s.toList) := hookPath_iff.symm

theorem HookPath.newline_notMem {cs : List Char} (h : HookPath cs) : '\n' ∉ cs :=
  h.notMem (by decide) (by decide) (by decide)

/-- What is accepted is a path, or one with a line feed behind it. -/
theorem isHookPath_iff {s : String} : isHookPath s = true ↔ IsHookText s := by
  rw [isHookPath_iff_withoutFinalNewline, IsHookText, withoutFinalNewline]
  constructor
  · intro h
    split at h
    next hlast =>
      obtain ⟨cs, hcs⟩ := List.getLast?_eq_some_iff.1 hlast
      rw [hcs, List.dropLast_concat] at h
      refine ⟨.ofList cs, by rwa [String.toList_ofList], .inr (String.toList_inj.1 ?_)⟩
      rw [hcs, String.toList_append, String.toList_ofList]
      rfl
    next => exact ⟨s, h, .inl rfl⟩
  · rintro ⟨path, h, rfl | rfl⟩
    · rw [if_neg]
      · exact h
      · exact fun hlast => h.newline_notMem (List.mem_of_getLast? hlast)
    · have hend : (path ++ "\n").toList = path.toList ++ ['\n'] := String.toList_append
      rw [hend, List.getLast?_concat, if_pos rfl, List.dropLast_concat]
      exact h

/-- A text for a hook that is no path has a line feed at its end. -/
theorem hookPath_iff_isHookText {s : String} :
    HookPath s.toList ↔ IsHookText s ∧ s.toList.getLast? ≠ some '\n' := by
  constructor
  · intro h
    exact ⟨⟨s, h, .inl rfl⟩, fun hlast => h.newline_notMem (List.mem_of_getLast? hlast)⟩
  · rintro ⟨⟨path, h, rfl | rfl⟩, hlast⟩
    · exact h
    · have hend : (path ++ "\n").toList = path.toList ++ ['\n'] := String.toList_append
      rw [hend, List.getLast?_concat] at hlast
      exact absurd rfl hlast

/-! ## The expression of a path -/

theorem splitHookPath_of_notMem {path : String} (h : ':' ∉ path.toList) :
    splitHookPath path = (none, path) := by
  rw [splitHookPath, if_neg (by rwa [List.contains_iff_mem])]

theorem splitHookPath_of_append {path : String} {home member : List Char}
    (hpath : path.toList = home ++ ':' :: member) (hhome : ':' ∉ home) :
    splitHookPath path = (some (.ofList home), .ofList member) := by
  have hmem : path.toList.contains ':' = true := by
    rw [List.contains_iff_mem, hpath]
    exact List.mem_append_right _ (.head _)
  rw [splitHookPath, if_pos hmem, hpath, Text.takeWhile_ne_append hhome,
    Text.dropWhile_ne_append hhome]
  simp

/-- The colon of a path becomes a dot. -/
theorem toList_hookExpression_of_append {path : String} {home member : List Char}
    (hpath : path.toList = home ++ ':' :: member) (hhome : ':' ∉ home) :
    (hookExpression path).toList = home ++ '.' :: member := by
  rw [hookExpression, splitHookPath_of_append hpath hhome]
  simp [String.toList_append]

theorem hookExpression_of_notMem {path : String} (h : ':' ∉ path.toList) :
    hookExpression path = path := by
  rw [hookExpression, splitHookPath_of_notMem h]

theorem HookPath.newline_notMem_hookExpression {path : String} (h : HookPath path.toList) :
    '\n' ∉ (hookExpression path).toList := by
  rcases Text.segments_cases ':' path.toList with ⟨hpath, -⟩ | ⟨home, member, hhome, hpath, -⟩
  · rw [hookExpression_of_notMem hpath]
    exact h.newline_notMem
  · have hnot := h.newline_notMem
    rw [hpath] at hnot
    rw [toList_hookExpression_of_append hpath hhome]
    simpa using hnot

/-- A line feed behind a path stands behind its expression. -/
theorem hookExpression_append_newline (path : String) :
    hookExpression (path ++ "\n") = hookExpression path ++ "\n" := by
  have hend : (path ++ "\n").toList = path.toList ++ ['\n'] := String.toList_append
  rcases Text.segments_cases ':' path.toList with ⟨hpath, -⟩ | ⟨home, member, hhome, hpath, -⟩
  · rw [hookExpression_of_notMem hpath, hookExpression_of_notMem]
    rw [hend]
    simpa using hpath
  · have hpath' : (path ++ "\n").toList = home ++ ':' :: (member ++ ['\n']) := by
      rw [hend, hpath]
      simp
    rw [← String.toList_inj, toList_hookExpression_of_append hpath' hhome, String.toList_append,
      toList_hookExpression_of_append hpath hhome]
    simp

/-- The module of a text for a hook is a dotted name. -/
theorem IsHookText.dotted_home {path home member : String} (h : IsHookText path)
    (hsplit : splitHookPath path = (some home, member)) : Dotted home.toList := by
  obtain ⟨p, hp, hpath⟩ := h
  obtain ⟨cs, hcs, hcolon⟩ : ∃ cs, path.toList = p.toList ++ cs ∧ ':' ∉ cs := by
    rcases hpath with rfl | rfl
    · exact ⟨[], (List.append_nil _).symm, List.not_mem_nil⟩
    · exact ⟨['\n'], String.toList_append, by decide⟩
  generalize p.toList = ds at hp hcs
  cases hp with
  | plain hp =>
    have hnot : ':' ∉ path.toList := by
      rw [hcs, List.mem_append, not_or]
      exact ⟨hp.notMem (by decide) (by decide), hcolon⟩
    rw [splitHookPath_of_notMem hnot] at hsplit
    cases hsplit
  | inModule hhome hmember =>
    rw [List.append_assoc] at hcs
    rw [splitHookPath_of_append hcs (hhome.notMem (by decide) (by decide))] at hsplit
    cases hsplit
    rwa [String.toList_ofList]

end WireSchema
