import WireSchema.Text.Segments

/-!
# Where a text is cut

The first segment of a text is what stands in front of the first separator, and the others are the
segments of what stands behind it. A text without the separator is its only segment.
-/

namespace WireSchema.Text

variable {sep : Char}

theorem segments_of_notMem {cs : List Char} (h : sep ∉ cs) : segments sep cs = [cs] := by
  induction cs with
  | nil => rfl
  | cons c cs ih =>
    rw [List.mem_cons, not_or] at h
    rw [segments, if_neg (Ne.symm h.1), ih h.2]

theorem segments_append_cons {xs : List Char} (h : sep ∉ xs) (ys : List Char) :
    segments sep (xs ++ sep :: ys) = xs :: segments sep ys := by
  induction xs with
  | nil => rw [List.nil_append, segments, if_pos rfl]
  | cons x xs ih =>
    rw [List.mem_cons, not_or] at h
    rw [List.cons_append, segments, if_neg (Ne.symm h.1), ih h.2]

theorem segments_cases (sep : Char) (cs : List Char) :
    sep ∉ cs ∧ segments sep cs = [cs] ∨
      ∃ xs ys, sep ∉ xs ∧ cs = xs ++ sep :: ys ∧ segments sep cs = xs :: segments sep ys := by
  by_cases h : sep ∈ cs
  · obtain ⟨xs, ys, rfl, hxs⟩ := List.eq_append_cons_of_mem h
    exact .inr ⟨xs, ys, hxs, rfl, segments_append_cons hxs ys⟩
  · exact .inl ⟨h, segments_of_notMem h⟩

theorem takeWhile_ne_append {xs : List Char} (h : sep ∉ xs) (ys : List Char) :
    (xs ++ ys).takeWhile (· ≠ sep) = xs ++ ys.takeWhile (· ≠ sep) :=
  List.takeWhile_append_of_pos fun _ hx => decide_eq_true (ne_of_mem_of_not_mem hx h)

theorem dropWhile_ne_append {xs : List Char} (h : sep ∉ xs) (ys : List Char) :
    (xs ++ ys).dropWhile (· ≠ sep) = ys.dropWhile (· ≠ sep) :=
  List.dropWhile_append_of_pos fun _ hx => decide_eq_true (ne_of_mem_of_not_mem hx h)

theorem head?_segments (cs : List Char) :
    (segments sep cs).head? = some (cs.takeWhile (· ≠ sep)) := by
  rcases segments_cases sep cs with ⟨h, hcs⟩ | ⟨xs, ys, h, rfl, hcs⟩
  · have hself := takeWhile_ne_append h []
    rw [List.append_nil, List.takeWhile_nil, List.append_nil] at hself
    rw [hcs, hself, List.head?_cons]
  · rw [hcs, List.head?_cons, takeWhile_ne_append h]
    simp

end WireSchema.Text
