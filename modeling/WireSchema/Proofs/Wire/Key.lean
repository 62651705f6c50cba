import WireSchema.Proofs.Layout.WellFormed

/-!
# Keys of maps

Keys are numbers, truth values and texts, or nothing at all. Of one codec, keys that are the same
are equal, though numbers and truth values of different codecs can be the same. So new keys come
last in a map, and putting in entries keeps keys distinct.
-/

namespace WireSchema

namespace Layout

variable {S : Layout} {most : Nat} {k : Codec} {v w : Value}

theorem isKey_of_hasType (hk : k.IsKey) (h : S.HasType most k v) : v.isKey = true := by
  induction hk generalizing v with
  | int k =>
    cases h
    rfl
  | bool =>
    cases h
    rfl
  | string =>
    cases h
    rfl
  | optional _ ih =>
    cases h with
    | absent => rfl
    | present h => exact ih h

/-- Nothing is reset in a key. -/
theorem reset_of_isKey (hk : k.IsKey) (h : S.HasType most k v) : S.reset v = v := by
  induction hk generalizing v with
  | int k =>
    cases h
    rfl
  | bool =>
    cases h
    rfl
  | string =>
    cases h
    rfl
  | optional _ ih =>
    cases h with
    | absent => rfl
    | present h => exact ih h

/-- A key that is the same as none is none. -/
theorem eq_none_of_same (hk : k.IsKey) (hv : S.HasType most k v) (h : v.same .none = true) :
    v = .none := by
  induction hk generalizing v with
  | int k =>
    cases hv
    simp [Value.same, Value.sameInt, Value.integer?] at h
  | bool =>
    cases hv
    simp [Value.same, Value.sameInt, Value.integer?] at h
  | string =>
    cases hv
    simp [Value.same] at h
  | optional _ ih =>
    cases hv with
    | absent => rfl
    | present hv => exact ih hv h

theorem eq_of_same (hk : k.IsKey) (hv : S.HasType most k v) (hw : S.HasType most k w)
    (h : v.same w = true) : v = w := by
  induction hk generalizing v w with
  | int k =>
    cases hv
    cases hw
    simp only [Value.same, Value.sameInt, Value.integer?, decide_eq_true_eq, Option.some.injEq] at h
    rw [h]
  | bool =>
    cases hv with | bool b =>
    cases hw with | bool b' =>
    cases b <;> cases b' <;> simp [Value.same, Value.sameInt, Value.integer?] at h ⊢
  | string =>
    cases hv
    cases hw
    simp only [Value.same, decide_eq_true_eq] at h
    rw [h]
  | optional hk ih =>
    cases hv with
    | absent =>
      rw [Value.same] at h
      cases w with
      | none => rfl
      | _ => cases h
    | present hv =>
      cases hw with
      | absent => exact eq_none_of_same hk hv h
      | present hw => exact ih hv hw h

theorem same_self_of_isKey (hk : k.IsKey) (h : S.HasType most k v) : v.same v = true := by
  induction hk generalizing v with
  | int k =>
    cases h
    simp [Value.same, Value.sameInt, Value.integer?]
  | bool =>
    cases h
    simp [Value.same, Value.sameInt, Value.integer?]
  | string =>
    cases h
    simp [Value.same]
  | optional _ ih =>
    cases h with
    | absent => simp [Value.same, Value.isNone]
    | present h => exact ih h

/-- The values of a key's type take up bytes. -/
theorem not_zeroWidth_of_isKey (hk : k.IsKey) : ¬ S.ZeroWidth k := by
  intro h
  cases hk <;> cases h

end Layout

namespace Value

theorem insertEntry_of_new {k v : Value} {es : List (Value × Value)}
    (h : ∀ e ∈ es, e.1.same k = false) : insertEntry k v es = es ++ [(k, v)] := by
  induction es with
  | nil => rfl
  | cons e es ih =>
    rw [insertEntry, h e (.head _), ih fun e' he' => h e' (.tail _ he')]
    rfl

/-- The keys after an entry is put in. -/
theorem keys_insertEntry (k v : Value) (es : List (Value × Value)) :
    (insertEntry k v es).map Prod.fst = es.map Prod.fst ∨
      (∀ e ∈ es, e.1.same k = false) ∧
        (insertEntry k v es).map Prod.fst = es.map Prod.fst ++ [k] := by
  induction es with
  | nil => exact .inr ⟨nofun, rfl⟩
  | cons e es ih =>
    cases hsame : e.1.same k with
    | true =>
      rw [insertEntry, hsame]
      exact .inl rfl
    | false =>
      rw [insertEntry, hsame]
      rcases ih with hkeys | ⟨hnew, hkeys⟩
      · exact .inl (congrArg (e.1 :: ·) hkeys)
      · refine .inr ⟨?_, congrArg (e.1 :: ·) hkeys⟩
        intro e' he'
        rcases List.mem_cons.1 he' with rfl | he'
        · exact hsame
        · exact hnew e' he'

theorem mem_insertEntry {k v : Value} {es : List (Value × Value)} {e : Value × Value}
    (h : e ∈ insertEntry k v es) : e ∈ es ∨ e.2 = v ∧ (e.1 = k ∨ ∃ e' ∈ es, e'.1 = e.1) := by
  induction es with
  | nil =>
    rcases List.mem_singleton.1 h with rfl
    exact .inr ⟨rfl, .inl rfl⟩
  | cons e' es ih =>
    rw [insertEntry] at h
    split at h
    · rcases List.mem_cons.1 h with rfl | h
      · exact .inr ⟨rfl, .inr ⟨e', .head _, rfl⟩⟩
      · exact .inl (.tail _ h)
    · rcases List.mem_cons.1 h with rfl | h
      · exact .inl (.head _)
      · rcases ih h with h | ⟨hv, hk | ⟨e'', he'', hk⟩⟩
        · exact .inl (.tail _ h)
        · exact .inr ⟨hv, .inl hk⟩
        · exact .inr ⟨hv, .inr ⟨e'', .tail _ he'', hk⟩⟩

theorem length_insertEntry_le (k v : Value) (es : List (Value × Value)) :
    (insertEntry k v es).length ≤ es.length + 1 := by
  rcases keys_insertEntry k v es with h | ⟨-, h⟩
  · have hlen := congrArg List.length h
    simp only [List.length_map] at hlen
    omega
  · have hlen := congrArg List.length h
    simp only [List.length_map, List.length_append, List.length_singleton] at hlen
    omega

end Value

end WireSchema
