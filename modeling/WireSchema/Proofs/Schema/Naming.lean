import WireSchema.Layout.Dotted
import WireSchema.Proofs.Schema.Exact
import WireSchema.Proofs.Schema.Passing

/-!
# Names that are read

The names of declarations and variants are words of the text, so they are identifiers, whatever
escapes are replaced in the annotations around them.
-/

namespace WireSchema

/-- The declarations and their variants have identifiers for names. -/
structure Schema.Named (s : Schema) : Prop where
  records : ∀ r ∈ s.records, Identifier r.name.toList
  unions : ∀ u ∈ s.unions, Identifier u.name.toList
  variants : ∀ u ∈ s.unions, ∀ v ∈ u.variants, Identifier v.name.toList

/-! ## Rules -/

namespace Rule

variable {α : Type} {p : Rule α} {P : α → Prop}

theorem Many.forall (h : ∀ s a t, p s a t → P a) {s t : Cursor} {as : List α}
    (has : Many p s as t) : ∀ a ∈ as, P a := by
  induction has with
  | nil => exact nofun
  | cons ha _ ih => exact List.forall_mem_cons.2 ⟨h _ _ _ ha, ih⟩

theorem identifier_of_name {s t : Cursor} {n : String} {l : Location} (h : name s (n, l) t) :
    Identifier n.toList := by
  obtain ⟨_, -, -, -, hne, hstart, hwithin, -⟩ := h
  obtain ⟨c, cs, hcs⟩ := List.exists_cons_of_ne_nil hne
  rw [hcs] at hstart hwithin ⊢
  exact .mk (hstart c rfl) fun d hd => hwithin d (.tail _ hd)

theorem identifier_of_record {s t : Cursor} {r : Record} (h : record s r t) :
    Identifier r.name.toList := by
  obtain ⟨_, _, -, _, _, -, _, _, hname, _, _, -, rfl, -⟩ := h
  exact identifier_of_name hname

theorem identifier_of_variant {s t : Cursor} {v : Variant} (h : variant s v t) :
    Identifier v.name.toList := by
  obtain ⟨_, _, -, _, _, hname, _, _, -, _, _, -, rfl, -⟩ := h
  exact identifier_of_name hname

theorem identifier_of_union {s t : Cursor} {u : Union} (h : union s u t) :
    Identifier u.name.toList ∧ ∀ v ∈ u.variants, Identifier v.name.toList := by
  obtain ⟨_, _, -, _, _, -, _, _, hname, _, _, -, variants, _, hvariants, _, _, -, rfl, -⟩ := h
  exact ⟨identifier_of_name hname,
    Many.forall (p := variant) (fun _ _ _ => identifier_of_variant) hvariants⟩

end Rule

/-! ## Schemas -/

namespace Schema

theorem named_of_read {text : String} {s : Schema} (h : read text = .ok s) : s.Named := by
  obtain ⟨ds, t, u, hds, -, -, rfl⟩ := read_eq_ok_iff.1 h
  have hall : ∀ d ∈ ds, Sum.elim (fun r : Record => Identifier r.name.toList)
      (fun u : Union => Identifier u.name.toList ∧
        ∀ v ∈ u.variants, Identifier v.name.toList) d := by
    refine Rule.Many.forall (fun s d t hd => ?_) hds
    rcases hd with ⟨r, _, hr, rfl, -⟩ | ⟨u, _, hu, rfl, -⟩
    · exact Rule.identifier_of_record hr
    · exact Rule.identifier_of_union hu
  have hrecord : ∀ r ∈ (ofDeclarations ds).records, .inl r ∈ ds := fun r hr => by
    obtain ⟨d, hd, hr⟩ := List.mem_filterMap.1 hr
    cases d <;> cases hr
    exact hd
  have hunion : ∀ u ∈ (ofDeclarations ds).unions, .inr u ∈ ds := fun u hu => by
    obtain ⟨d, hd, hu⟩ := List.mem_filterMap.1 hu
    cases d <;> cases hu
    exact hd
  exact ⟨fun r hr => hall _ (hrecord r hr), fun u hu => (hall _ (hunion u hu)).1,
    fun u hu => (hall _ (hunion u hu)).2⟩

/-- Names are kept when escapes are replaced. -/
theorem Named.of_unescape? [Text.CharacterNames] {s s' : Schema} (hs : s.Named)
    (h : s.unescape? = some s') :
    s'.Named := by
  obtain ⟨records, hrecords, h⟩ := Option.bind_eq_some_iff.1 h
  obtain ⟨unions, hunions, h⟩ := Option.bind_eq_some_iff.1 h
  cases h
  refine ⟨forall_of_mapM (fun r r' hr hname => ?_) hrecords hs.records,
    forall_of_mapM (fun u u' hu hname => ?_) hunions hs.unions,
    forall_of_mapM (fun u u' hu hvariants => ?_) hunions hs.variants⟩
  · obtain ⟨_, -, hr⟩ := Option.bind_eq_some_iff.1 hr
    obtain ⟨_, -, hr⟩ := Option.bind_eq_some_iff.1 hr
    cases hr
    exact hname
  · obtain ⟨_, -, hu⟩ := Option.bind_eq_some_iff.1 hu
    obtain ⟨_, -, hu⟩ := Option.bind_eq_some_iff.1 hu
    cases hu
    exact hname
  · obtain ⟨_, -, hu⟩ := Option.bind_eq_some_iff.1 hu
    obtain ⟨variants, hv, hu⟩ := Option.bind_eq_some_iff.1 hu
    cases hu
    refine forall_of_mapM (fun v v' hv hname => ?_) hv hvariants
    obtain ⟨_, -, hv⟩ := Option.bind_eq_some_iff.1 hv
    obtain ⟨_, -, hv⟩ := Option.bind_eq_some_iff.1 hv
    cases hv
    exact hname

theorem named_of_parse [Text.CharacterNames] {text : String} {s : Schema} (h : parse text = .ok s) :
    s.Named := by
  obtain ⟨s₀, hread, hunescape, -⟩ := parse_eq_ok_iff.1 h
  exact (named_of_read hread).of_unescape? hunescape

end Schema

end WireSchema
