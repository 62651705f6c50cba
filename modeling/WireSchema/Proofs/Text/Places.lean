import WireSchema.Proofs.Text.Segments
import WireSchema.Schema.Mark

/-!
# Places inside a text

Moving forward through a text counts its line feeds, and the characters since the last of them. So a
place is reached from the start just if there is such a line in the text, and the column is within
it or right behind it.
-/

namespace WireSchema

namespace Location

theorem behind_concat (cs : List Char) (c : Char) : behind (cs ++ [c]) = (behind cs).next c := by
  by_cases hc : c = '\n'
  · subst hc
    simp [behind, next, Int.add_assoc]
  · have hcount : [c].count '\n' = 0 := List.count_eq_zero.2 (by simpa using Ne.symm hc)
    simp [behind, next, hc, hcount, Int.add_assoc]

/-- Where moving forward leads is the place behind what was passed. -/
theorem advance_start (cs : List Char) : start.advance cs = behind cs := by
  have hreverse : ∀ ds : List Char, start.advance ds.reverse = behind ds.reverse := by
    intro ds
    induction ds with
    | nil => rfl
    | cons c ds ih =>
      rw [List.reverse_cons, advance_append, ih, behind_concat]
      rfl
  rw [← cs.reverse_reverse]
  exact hreverse _

@[simp] theorem right_left (l : Location) : l.left.right = l := by
  simp [left, right]

theorem behind_of_notMem {cs : List Char} (h : '\n' ∉ cs) : behind cs = ⟨1, cs.length + 1⟩ := by
  have hline : cs.reverse.takeWhile (· ≠ '\n') = cs.reverse := by
    have hself := Text.takeWhile_ne_append (mt List.mem_reverse.1 h) []
    rwa [List.append_nil, List.takeWhile_nil, List.append_nil] at hself
  rw [behind, hline, List.count_eq_zero.2 h, List.length_reverse]
  simp [Int.add_comm]

/-- Different beginnings of a text end at different places. -/
theorem behind_append_eq_iff {xs ys : List Char} : behind (xs ++ ys) = behind xs ↔ ys = [] := by
  constructor
  · intro h
    have hline := congrArg Location.line h
    have hcolumn := congrArg Location.column h
    simp only [behind, List.count_append, List.reverse_append] at hline hcolumn
    have hnot : '\n' ∉ ys.reverse := by
      rw [List.mem_reverse]
      exact List.count_eq_zero.1 (by omega)
    rw [Text.takeWhile_ne_append hnot, List.length_append, List.length_reverse] at hcolumn
    exact List.length_eq_zero_iff.1 (by omega)
  · rintro rfl
    rw [List.append_nil]

/-- Behind the first line a place is one line further down. -/
theorem behind_append_cons (xs ys : List Char) (h : '\n' ∉ xs) :
    behind (xs ++ '\n' :: ys) = ⟨(behind ys).line + 1, (behind ys).column⟩ := by
  have hcount : (xs ++ '\n' :: ys).count '\n' = ys.count '\n' + 1 := by
    rw [List.count_append, List.count_eq_zero.2 h, List.count_cons_self, Nat.zero_add]
  have hline : (xs ++ '\n' :: ys).reverse.takeWhile (· ≠ '\n') =
      ys.reverse.takeWhile (· ≠ '\n') := by
    rw [List.reverse_append, List.reverse_cons, List.append_assoc, List.takeWhile_append]
    split
    next hall => simpa using ((List.takeWhile_prefix _).eq_of_length hall).symm
    next => rfl
  rw [behind, behind, hcount, hline]
  simp [Int.add_assoc]

/-- The lines of a text are what its line feeds cut it into. The line of a place is one of these,
and its column is at most one more than the line is long. -/
def Within (l : Location) (text : List Char) : Prop :=
  ∃ (n k : Nat) (line : List Char), l = ⟨n + 1, k + 1⟩ ∧
    (Text.segments '\n' text)[n]? = some line ∧ k ≤ line.length

theorem behind_within (before after : List Char) : (behind before).Within (before ++ after) := by
  rcases Text.segments_cases '\n' before with ⟨h, -⟩ | ⟨xs, ys, h, rfl, -⟩
  · refine ⟨0, before.length, before ++ after.takeWhile (· ≠ '\n'), ?_, ?_, ?_⟩
    · simpa using behind_of_notMem h
    · rw [← List.head?_eq_getElem?, Text.head?_segments, Text.takeWhile_ne_append h]
    · simp
  · obtain ⟨n, k, line, hl, hline, hk⟩ := behind_within ys after
    refine ⟨n + 1, k, line, ?_, ?_, hk⟩
    · rw [behind_append_cons xs ys h, hl]
      rfl
    · rwa [List.append_assoc, List.cons_append, Text.segments_append_cons h]
termination_by before.length
decreasing_by subst_vars; simp; omega

/-- A place is within a text just if it is behind a beginning of it. -/
theorem within_iff {l : Location} {text : List Char} :
    l.Within text ↔ ∃ before after, text = before ++ after ∧ l = behind before := by
  refine ⟨?_, ?_⟩
  · rintro ⟨n, k, line, rfl, hline, hk⟩
    induction n generalizing text with
    | zero =>
      rw [← List.head?_eq_getElem?, Text.head?_segments] at hline
      obtain rfl := Option.some.inj hline
      have hnot : '\n' ∉ (text.takeWhile (· ≠ '\n')).take k := fun hmem => by
        have hne := List.all_eq_true.1 List.all_takeWhile _ (List.mem_of_mem_take hmem)
        exact absurd rfl (of_decide_eq_true hne)
      refine ⟨(text.takeWhile (· ≠ '\n')).take k,
        (text.takeWhile (· ≠ '\n')).drop k ++ text.dropWhile (· ≠ '\n'), ?_, ?_⟩
      · rw [← List.append_assoc, List.take_append_drop, List.takeWhile_append_dropWhile]
      · rw [behind_of_notMem hnot, List.length_take, Nat.min_eq_left hk]
        rfl
    | succ n ih =>
      rcases Text.segments_cases '\n' text with ⟨-, hcs⟩ | ⟨xs, ys, h, rfl, hcs⟩
      · rw [hcs] at hline
        simp at hline
      · rw [hcs, List.getElem?_cons_succ] at hline
        obtain ⟨before, after, rfl, hl⟩ := ih hline
        refine ⟨xs ++ '\n' :: before, after, by simp, ?_⟩
        rw [behind_append_cons xs before h, ← hl]
        rfl
  · rintro ⟨before, after, rfl, rfl⟩
    exact behind_within before after

end Location

end WireSchema
