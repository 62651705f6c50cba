import Mathlib.Data.List.Nodup
import WireSchema.Layout.Candidate
import WireSchema.Proofs.Layout.Literals
import WireSchema.Proofs.Layout.Resolving

/-!
# Which tags are assigned

Tags are assigned from the front, and nothing is kept of the variants before but their tags. These
are the candidates of those variants. So the next variant is given its candidate, if it has one, and
the assignment goes on as long as each variant has a tag of its own. Where it stops, the fault is that
of the first variant without one, and there is one such fault only.
-/

namespace WireSchema

variable {options : UnionOptions} {variants : List (Variant × VariantAttributes)}

/-! ## Faults -/

namespace TagFault

variable {i : Nat} {e e' : LayoutError}

theorem lt_length (h : TagFault options variants i e) : i < variants.length := by
  have hsome : ∃ x, variants[i]? = some x := by
    cases h <;> exact ⟨_, ‹_›⟩
  obtain ⟨x, hx⟩ := hsome
  exact (List.getElem?_eq_some_iff.1 hx).1

theorem not_hasOwnTag (h : TagFault options variants i e) : ¬ HasOwnTag options variants i := by
  rintro ⟨tag, htag, hfits, hnew⟩
  cases h with
  | missing => cases htag <;> simp_all
  | written => cases htag <;> simp_all
  | shared _ hshared hj hearlier =>
    rw [hshared.unique htag] at hearlier
    exact hnew _ hj hearlier
  | tooLarge _ hlarge _ hmax =>
    rw [hlarge.unique htag] at hmax
    omega

/-- What can be wrong with a tag that there is. -/
theorem of_candidate {tag : Int} (htag : Candidate options variants i tag)
    (h : TagFault options variants i e) : ∃ v a, variants[i]? = some (v, a) ∧
      ((∃ j < i, Candidate options variants j tag) ∧ e = ⟨.sharedTag tag, v.location⟩ ∨
        (∀ j < i, ¬ Candidate options variants j tag) ∧
          e = ⟨.tagTooLarge tag options.width, v.location⟩) := by
  cases h with
  | missing => cases htag <;> simp_all
  | written => cases htag <;> simp_all
  | @shared v a _ j hv hshared hj hearlier =>
    obtain rfl := hshared.unique htag
    exact ⟨v, a, hv, .inl ⟨⟨j, hj, hearlier⟩, rfl⟩⟩
  | @tooLarge v a _ hv hlarge hnew _ =>
    obtain rfl := hlarge.unique htag
    exact ⟨v, a, hv, .inr ⟨hnew, rfl⟩⟩

theorem unique (h : TagFault options variants i e) (h' : TagFault options variants i e') :
    e = e' := by
  by_cases hsome : ∃ tag, Candidate options variants i tag
  · obtain ⟨tag, htag⟩ := hsome
    obtain ⟨v, a, hv, hfault⟩ := h.of_candidate htag
    obtain ⟨v', a', hv', hfault'⟩ := h'.of_candidate htag
    obtain ⟨rfl, rfl⟩ := Prod.mk.inj (Option.some.inj (hv.symm.trans hv'))
    rcases hfault with ⟨⟨j, hj, hearlier⟩, rfl⟩ | ⟨hnew, rfl⟩
    · rcases hfault' with ⟨-, rfl⟩ | ⟨hnew', -⟩
      · rfl
      · exact absurd hearlier (hnew' j hj)
    · rcases hfault' with ⟨⟨j, hj, hearlier⟩, -⟩ | ⟨-, rfl⟩
      · exact absurd hearlier (hnew j hj)
      · rfl
  · cases h with
    | missing => cases h' <;> simp_all
    | written => cases h' <;> simp_all
    | shared _ htag => exact absurd ⟨_, htag⟩ hsome
    | tooLarge _ htag => exact absurd ⟨_, htag⟩ hsome

end TagFault

/-! ## Steps -/

/-- The tags of the variants in front. -/
structure Assigned (options : UnionOptions) (variants : List (Variant × VariantAttributes))
    (tags : List Int) : Prop where
  candidate : ∀ i tag, tags[i]? = some tag → Candidate options variants i tag
  distinct : tags.Nodup
  fits : ∀ tag ∈ tags, tag ≤ options.width.maxValue

theorem assigned_nil : Assigned options variants [] := ⟨nofun, List.nodup_nil, nofun⟩

namespace Assigned

variable {tags : List Int} (h : Assigned options variants tags)
include h

theorem mem_iff {tag : Int} :
    tag ∈ tags ↔ ∃ j < tags.length, Candidate options variants j tag := by
  constructor
  · intro hmem
    obtain ⟨j, hj, rfl⟩ := List.getElem_of_mem hmem
    exact ⟨j, hj, h.candidate j _ (List.getElem?_eq_getElem hj)⟩
  · rintro ⟨j, hj, htag⟩
    rw [htag.unique (h.candidate j _ (List.getElem?_eq_getElem hj))]
    exact List.getElem_mem hj

theorem hasOwnTag {i : Nat} (hi : i < tags.length) : HasOwnTag options variants i := by
  have htag := h.candidate i _ (List.getElem?_eq_getElem hi)
  refine ⟨tags[i], htag, h.fits _ (List.getElem_mem hi), fun j hj hearlier => ?_⟩
  have hsame := hearlier.unique (h.candidate j _ (List.getElem?_eq_getElem (Nat.lt_trans hj hi)))
  exact Nat.ne_of_gt hj ((h.distinct.getElem_inj_iff).1 hsame)

theorem snoc {tag : Int} (htag : Candidate options variants tags.length tag) (hnew : tag ∉ tags)
    (hfits : tag ≤ options.width.maxValue) : Assigned options variants (tags ++ [tag]) := by
  refine ⟨fun i t ht => ?_, ?_, List.forall_mem_append.2 ⟨h.fits, List.forall_mem_singleton.2 hfits⟩⟩
  · rcases Nat.lt_trichotomy i tags.length with hi | rfl | hi
    · rw [List.getElem?_append_left hi] at ht
      exact h.candidate i t ht
    · rw [List.getElem?_concat_length] at ht
      exact Option.some.inj ht ▸ htag
    · have hlen : (tags ++ [tag]).length ≤ i := by
        rw [List.length_append]
        exact hi
      rw [List.getElem?_eq_none hlen] at ht
      cases ht
  · rw [← List.concat_eq_append, List.nodup_concat]
    exact ⟨hnew, h.distinct⟩

section

variable {v : Variant} {a : VariantAttributes} (hv : variants[tags.length]? = some (v, a))
include hv

/-- The tag that the next variant is given is its candidate. -/
theorem candidate_of_ownTag {tag : Int} (htag : ownTag options tags.getLast? v a = .ok tag) :
    Candidate options variants tags.length tag := by
  unfold ownTag at htag
  split at htag
  next value _ hvalue =>
    cases htag
    exact .stated hv hvalue
  next text hvalue hdiscriminant =>
    obtain ⟨n, hn, htag⟩ := exists_of_bind_eq_ok htag
    cases htag
    exact .written hv hvalue hdiscriminant hn
  next hvalue hdiscriminant =>
    split at htag
    next hinferred =>
      cases htag
      cases hlast : tags.getLast? with
      | none =>
        obtain rfl := List.getLast?_eq_none_iff.1 hlast
        exact .first hv hvalue hdiscriminant hinferred
      | some last =>
        obtain ⟨front, rfl⟩ := List.getLast?_eq_some_iff.1 hlast
        rw [List.length_append] at hv ⊢
        refine .next hv hvalue hdiscriminant hinferred (h.candidate _ _ ?_)
        exact List.getElem?_concat_length
    next => cases htag

omit h in
/-- If the next variant is given none, that is its fault. -/
theorem fault_of_ownTag {e : LayoutError} (he : ownTag options tags.getLast? v a = .error e) :
    TagFault options variants tags.length e := by
  unfold ownTag at he
  split at he
  next => cases he
  next text hvalue hdiscriminant =>
    cases hn : readDiscriminant text v.location with
    | ok n =>
      rw [hn] at he
      cases he
    | error e' =>
      rw [hn] at he
      cases he
      exact .written hv hvalue hdiscriminant hn
  next hvalue hdiscriminant =>
    split at he
    next => cases he
    next hinferred =>
      cases he
      exact .missing hv hvalue hdiscriminant (Bool.eq_false_iff.2 hinferred)

end

end Assigned

/-! ## Runs -/

/-- What stops the assignment: the first variant has no tag, or it has one that is used or too large,
or a variant behind it is at fault. -/
theorem of_assignFrom_cons_eq_error {used : List Int} {x : Variant × VariantAttributes}
    {xs : List (Variant × VariantAttributes)} {e : LayoutError}
    (h : assignFrom options used (x :: xs) = .error e) :
    ownTag options used.head? x.1 x.2 = .error e ∨
      ∃ tag, ownTag options used.head? x.1 x.2 = .ok tag ∧
        (tag ∈ used ∧ e = ⟨.sharedTag tag, x.1.location⟩ ∨
          tag ∉ used ∧ options.width.maxValue < tag ∧
            e = ⟨.tagTooLarge tag options.width, x.1.location⟩ ∨
          tag ∉ used ∧ tag ≤ options.width.maxValue ∧
            assignFrom options (tag :: used) xs = .error e) := by
  rw [assignFrom] at h
  cases htag : ownTag options used.head? x.1 x.2 with
  | error e' =>
    rw [htag] at h
    cases h
    exact .inl rfl
  | ok tag =>
    rw [htag] at h
    refine .inr ⟨tag, rfl, ?_⟩
    change (if used.contains tag then _ else _ : Resolved (List Int)) = _ at h
    split at h
    next hused =>
      cases h
      exact .inl ⟨List.contains_iff_mem.1 hused, rfl⟩
    next hused =>
      rw [List.contains_iff_mem] at hused
      split at h
      next hmax =>
        cases h
        exact .inr (.inl ⟨hused, hmax, rfl⟩)
      next hmax =>
        refine .inr (.inr ⟨hused, by omega, ?_⟩)
        cases hrest : assignFrom options (tag :: used) xs with
        | error e' =>
          rw [hrest] at h
          cases h
          rfl
        | ok rest =>
          rw [hrest] at h
          cases h

theorem getElem?_of_drop_eq_cons {α : Type} {as rest : List α} {n : Nat} {a : α}
    (h : as.drop n = a :: rest) : as[n]? = some a ∧ as.drop (n + 1) = rest := by
  constructor
  · rw [← List.head?_drop, h, List.head?_cons]
  · rw [← List.tail_drop, h, List.tail_cons]

namespace Assigned

variable {tags : List Int} (h : Assigned options variants tags)
  {rest : List (Variant × VariantAttributes)} (hrest : variants.drop tags.length = rest)
include h hrest

theorem append {more : List Int} (hmore : assignFrom options tags.reverse rest = .ok more) :
    Assigned options variants (tags ++ more) := by
  induction rest generalizing tags more with
  | nil =>
    cases hmore
    rwa [List.append_nil]
  | cons x rest ih =>
    obtain ⟨hx, hrest⟩ := getElem?_of_drop_eq_cons hrest
    obtain ⟨tag, more, htag, hnew, hfits, hmore, rfl⟩ := of_assignFrom_cons hmore
    rw [List.head?_reverse] at htag
    rw [List.mem_reverse] at hnew
    have hsnoc := h.snoc (h.candidate_of_ownTag hx htag) hnew hfits
    rw [List.append_cons]
    refine ih hsnoc (by rwa [List.length_append]) ?_
    rwa [List.reverse_concat]

/-- The fault that is reported is that of the first variant without a tag of its own. -/
theorem exists_fault {e : LayoutError} (he : assignFrom options tags.reverse rest = .error e) :
    ∃ i, (∀ j < i, HasOwnTag options variants j) ∧ TagFault options variants i e := by
  induction rest generalizing tags with
  | nil => cases he
  | cons x rest ih =>
    obtain ⟨hx, hrest⟩ := getElem?_of_drop_eq_cons hrest
    have hfront : ∀ j < tags.length, HasOwnTag options variants j := fun _ hj => h.hasOwnTag hj
    have hcases := of_assignFrom_cons_eq_error he
    rw [List.head?_reverse] at hcases
    simp only [List.mem_reverse] at hcases
    rcases hcases with hnone | ⟨tag, htag, hcases⟩
    · exact ⟨_, hfront, fault_of_ownTag hx hnone⟩
    · have hcandidate := h.candidate_of_ownTag hx htag
      rcases hcases with ⟨hused, rfl⟩ | ⟨hnew, hmax, rfl⟩ | ⟨hnew, hfits, he⟩
      · obtain ⟨j, hj, hearlier⟩ := h.mem_iff.1 hused
        exact ⟨_, hfront, .shared hx hcandidate hj hearlier⟩
      · refine ⟨_, hfront, .tooLarge hx hcandidate (fun j hj hearlier => ?_) hmax⟩
        exact hnew (h.mem_iff.2 ⟨j, hj, hearlier⟩)
      · rw [← List.reverse_concat] at he
        exact ih (h.snoc hcandidate hnew hfits) (by rwa [List.length_append]) he

end Assigned

/-- All tags together are determined by the candidates. -/
theorem Assigned.eq_of_length_eq {tags tags' : List Int} (h : Assigned options variants tags)
    (h' : Assigned options variants tags') (hlen : tags.length = tags'.length) : tags = tags' := by
  refine List.ext_getElem hlen fun i hi hi' => ?_
  have htag := h.candidate i _ (List.getElem?_eq_getElem hi)
  exact htag.unique (h'.candidate i _ (List.getElem?_eq_getElem hi'))

theorem assigned_of_assignTags {tags : List Int} (h : assignTags options variants = .ok tags) :
    Assigned options variants tags ∧ tags.length = variants.length :=
  ⟨assigned_nil.append rfl h, length_of_assignFrom h⟩

theorem exists_fault_of_assignTags {e : LayoutError} (h : assignTags options variants = .error e) :
    ∃ i, (∀ j < i, HasOwnTag options variants j) ∧ TagFault options variants i e :=
  assigned_nil.exists_fault rfl h

theorem readDiscriminant_eq_tooLong_iff {text : String} {l l' : Location} :
    readDiscriminant text l = .error ⟨.discriminantTooLong, l'⟩ ↔
      l' = l ∧ isTooLong text = true := by
  simp only [readDiscriminant, isTooLong, Bool.and_eq_true, decide_eq_true_eq]
  split
  next hdecimal =>
    split
    next hlong => exact ⟨fun h => by cases h; exact ⟨rfl, hdecimal, hlong⟩, fun h => by rw [h.1]; rfl⟩
    next hshort =>
      refine ⟨fun h => ?_, fun h => absurd h.2.2 hshort⟩
      split at h <;> cases h
  next hdecimal =>
    refine ⟨fun h => ?_, fun h => absurd h.2.1 hdecimal⟩
    split at h <;> cases h

/-- Tags are assigned just if every variant has one of its own: it has a candidate, which no variant
before it has and which fits the width. So they are the candidates in declaration order, if these are
distinct and fit. Otherwise the first variant without a tag of its own is at fault, because it has no
candidate, or else shares it with a variant before it, or else has one that is too large. This is no
diagnostic just if its discriminant is too long to be read. -/
theorem assignTags_exact (options : UnionOptions) (variants : List (Variant × VariantAttributes)) :
    ((∃ tags, assignTags options variants = .ok tags) ↔
      ∀ i < variants.length, HasOwnTag options variants i) ∧
    (∀ tags, assignTags options variants = .ok tags ↔
      tags.length = variants.length ∧
        (∀ i tag, tags[i]? = some tag → Candidate options variants i tag) ∧ tags.Nodup ∧
        ∀ tag ∈ tags, tag ≤ options.width.maxValue) ∧
    (∀ e, assignTags options variants = .error e ↔
      ∃ i < variants.length, (∀ j < i, HasOwnTag options variants j) ∧
        TagFault options variants i e) ∧
    ((∃ e, assignTags options variants = .error e ∧ e.fault.isWorded = false) ↔
      ∃ i v a text, (∀ j < i, HasOwnTag options variants j) ∧ variants[i]? = some (v, a) ∧
        a.value = none ∧ v.discriminant = some text ∧ isTooLong text = true) := by
  have hall : ∀ tags, Assigned options variants tags → tags.length = variants.length →
      ∀ i < variants.length, HasOwnTag options variants i :=
    fun tags h hlen i hi => h.hasOwnTag (hlen ▸ hi)
  have hsome : (∀ i < variants.length, HasOwnTag options variants i) →
      ∃ tags, assignTags options variants = .ok tags := by
    intro hown
    cases htags : assignTags options variants with
    | ok tags => exact ⟨tags, rfl⟩
    | error e =>
      obtain ⟨i, -, hfault⟩ := exists_fault_of_assignTags htags
      exact absurd (hown i hfault.lt_length) hfault.not_hasOwnTag
  have herror : ∀ e, assignTags options variants = .error e ↔
      ∃ i < variants.length, (∀ j < i, HasOwnTag options variants j) ∧
        TagFault options variants i e := by
    refine fun e => ⟨fun he => ?_, fun ⟨i, hi, hfront, hfault⟩ => ?_⟩
    · obtain ⟨i, hfront, hfault⟩ := exists_fault_of_assignTags he
      exact ⟨i, hfault.lt_length, hfront, hfault⟩
    · cases htags : assignTags options variants with
      | ok tags =>
        obtain ⟨h, hlen⟩ := assigned_of_assignTags htags
        exact absurd (hall tags h hlen i hi) hfault.not_hasOwnTag
      | error e' =>
        obtain ⟨i', hfront', hfault'⟩ := exists_fault_of_assignTags htags
        rcases Nat.lt_trichotomy i i' with hlt | rfl | hlt
        · exact absurd (hfront' i hlt) hfault.not_hasOwnTag
        · rw [hfault.unique hfault']
        · exact absurd (hfront i' hlt) hfault'.not_hasOwnTag
  refine ⟨⟨fun ⟨tags, htags⟩ => ?_, hsome⟩, fun tags => ⟨fun htags => ?_, fun h => ?_⟩, herror,
    ⟨fun ⟨e, he, hworded⟩ => ?_, fun ⟨i, v, a, text, hfront, hv, hvalue, htext, hlong⟩ => ?_⟩⟩
  · obtain ⟨h, hlen⟩ := assigned_of_assignTags htags
    exact hall tags h hlen
  · obtain ⟨h, hlen⟩ := assigned_of_assignTags htags
    exact ⟨hlen, h.candidate, h.distinct, h.fits⟩
  · obtain ⟨hlen, hcandidate, hdistinct, hfits⟩ := h
    have h : Assigned options variants tags := ⟨hcandidate, hdistinct, hfits⟩
    obtain ⟨tags', htags'⟩ := hsome (hall tags h hlen)
    obtain ⟨h', hlen'⟩ := assigned_of_assignTags htags'
    rw [h.eq_of_length_eq h' (hlen.trans hlen'.symm), htags']
  · obtain ⟨i, -, hfront, hfault⟩ := (herror e).1 he
    cases hfault with
    | @written v a text _ hv hvalue htext hread =>
      obtain ⟨fault, l⟩ := e
      cases fault with
      | discriminantTooLong =>
        exact ⟨i, v, a, text, hfront, hv, hvalue, htext, (readDiscriminant_eq_tooLong_iff.1 hread).2⟩
      | _ => cases hworded
    | missing | shared | tooLarge => cases hworded
  · have hfault : TagFault options variants i ⟨.discriminantTooLong, v.location⟩ :=
      .written hv hvalue htext (readDiscriminant_eq_tooLong_iff.2 ⟨rfl, hlong⟩)
    exact ⟨_, (herror _).2 ⟨i, hfault.lt_length, hfront, hfault⟩, rfl⟩

theorem decimalValue_zeros (n : Nat) : decimalValue (List.replicate n '0') = 0 := by
  rw [decimalValue, decimalDigits, List.filter_eq_self.2 fun c hc => by
    rw [List.eq_of_mem_replicate hc]; decide]
  induction n with
  | zero => rfl
  | succ n ih => exact ih

/-- Zero, written with one digit more than can be read, is no tag, and there is no diagnostic. -/
theorem not_assigned_of_zeros :
    let zeros := List.replicate 4301 '0'
    let v : Variant := ⟨"A", .unit, [], some (String.ofList zeros), [], .start⟩
    decimalValue zeros = 0 ∧
      ∃ e, assignTags .empty [(v, {})] = .error e ∧ e.fault.isWorded = false := by
  intro zeros v
  refine ⟨decimalValue_zeros _, ⟨.discriminantTooLong, .start⟩, ?_, rfl⟩
  have hread : readDiscriminant (String.ofList zeros) .start = .error ⟨.discriminantTooLong, .start⟩ :=
    (readDiscriminant_replicate (c := '0') (by decide) (le_refl _) _).2.2
  have htag : ownTag .empty none v {} = .error ⟨.discriminantTooLong, .start⟩ := by
    change (readDiscriminant (String.ofList zeros) .start >>= _) = _
    rw [hread]
    rfl
  rw [assignTags, assignFrom]
  change (ownTag .empty none v {} >>= _) = _
  rw [htag]
  rfl

end WireSchema
