import Mathlib.Data.List.Perm.Basic
import WireSchema.Proofs.Layout.Assigning

/-!
# Pinning tags

A tag that was inferred can be stated instead. The candidate of a variant depends on those before it
only by the tag of the last one, and that is the same whether it is stated or inferred. Once all
variants state their tags, a candidate does not depend on other variants at all: it goes where its
variant goes.
-/

namespace WireSchema

variable {options options' : UnionOptions} {variants : List (Variant × VariantAttributes)}
  {tags : List Int}

/-- The candidates are all that tags need to be, if they are distinct and fit. -/
theorem Assigned.assignTags_eq (h : Assigned options variants tags)
    (hlen : tags.length = variants.length) : assignTags options variants = .ok tags := by
  cases htags : assignTags options variants with
  | ok tags' =>
    obtain ⟨h', hlen'⟩ := assigned_of_assignTags htags
    rw [h.eq_of_length_eq h' (hlen.trans hlen'.symm)]
  | error e =>
    obtain ⟨i, -, hfault⟩ := exists_fault_of_assignTags htags
    exact absurd (h.hasOwnTag (hlen ▸ hfault.lt_length)) hfault.not_hasOwnTag

/-! ## Stating what was inferred -/

section

variable (chosen : Nat → Bool)

theorem length_pinTags (hlen : tags.length = variants.length) :
    (pinTags chosen variants tags).length = variants.length := by
  rw [pinTags, List.length_mapIdx, List.length_zip, hlen, Nat.min_self]

variable {i : Nat} {x : Variant × VariantAttributes} {tag : Int}

theorem getElem?_pinTags (hx : variants[i]? = some x) (htag : tags[i]? = some tag) :
    (pinTags chosen variants tags)[i]? =
      some (if chosen i then (x.1, { x.2 with value := some tag }) else x) := by
  have hzip : (variants.zip tags)[i]? = some (x, tag) :=
    List.getElem?_zip_eq_some.2 ⟨hx, htag⟩
  rw [pinTags, List.getElem?_mapIdx, hzip]
  rfl

/-- A variant is left as it was, unless its tag is stated now. -/
theorem candidate_pinTags_or (hx : variants[i]? = some x) (htag : tags[i]? = some tag) :
    Candidate options (pinTags chosen variants tags) i tag ∨
      (pinTags chosen variants tags)[i]? = some x := by
  have hget := getElem?_pinTags chosen hx htag
  cases hi : chosen i with
  | true =>
    rw [hi, if_pos rfl] at hget
    exact .inl (.stated hget rfl)
  | false =>
    rw [hi] at hget
    exact .inr hget

/-- The tags stay the candidates: the tag before an inferred one is the same, stated or not. -/
theorem Assigned.candidate_pinTags (h : Assigned options variants tags)
    (htag : tags[i]? = some tag) : Candidate options (pinTags chosen variants tags) i tag := by
  have hcandidate := h.candidate i tag htag
  induction hcandidate with
  | stated hv hvalue =>
    exact (candidate_pinTags_or chosen hv htag).elim id fun hv => .stated hv hvalue
  | written hv hvalue hdiscriminant hn =>
    exact (candidate_pinTags_or chosen hv htag).elim id fun hv =>
      .written hv hvalue hdiscriminant hn
  | first hv hvalue hdiscriminant hinferred =>
    exact (candidate_pinTags_or chosen hv htag).elim id fun hv =>
      .first hv hvalue hdiscriminant hinferred
  | @next i v a last hv hvalue hdiscriminant hinferred hlast ih =>
    refine (candidate_pinTags_or chosen hv htag).elim id fun hv =>
      .next hv hvalue hdiscriminant hinferred (ih ?_)
    have hi : i < tags.length := Nat.lt_of_succ_lt (List.getElem?_eq_some_iff.1 htag).1
    rw [List.getElem?_eq_getElem hi]
    exact congrArg some ((h.candidate i _ (List.getElem?_eq_getElem hi)).unique hlast)

theorem Assigned.pinTags (h : Assigned options variants tags) :
    Assigned options (pinTags chosen variants tags) tags where
  candidate _ _ := h.candidate_pinTags chosen
  distinct := h.distinct
  fits := h.fits

end

/-! ## Rearranging variants that state their tags -/

/-- The tag that a variant states does not depend on where it is, nor on what is inferred. -/
theorem Candidate.of_statesTag {variants' : List (Variant × VariantAttributes)} {i j : Nat}
    {x : Variant × VariantAttributes} {tag : Int} (h : Candidate options variants i tag)
    (hx : variants[i]? = some x) (hstates : StatesTag x) (hx' : variants'[j]? = some x) :
    Candidate options' variants' j tag := by
  cases h with
  | stated hv hvalue =>
    obtain rfl := Option.some.inj (hx.symm.trans hv)
    exact .stated hx' hvalue
  | written hv hvalue hdiscriminant hn =>
    obtain rfl := Option.some.inj (hx.symm.trans hv)
    exact .written hx' hvalue hdiscriminant hn
  | first hv hvalue hdiscriminant =>
    obtain rfl := Option.some.inj (hx.symm.trans hv)
    simp [StatesTag, hvalue, hdiscriminant] at hstates
  | next hv hvalue hdiscriminant =>
    obtain rfl := Option.some.inj (hx.symm.trans hv)
    simp [StatesTag, hvalue, hdiscriminant] at hstates

/-- Variants along with their tags can be put in any order. -/
theorem Assigned.of_perm (h : Assigned options variants tags)
    (hlen : tags.length = variants.length) (hstates : ∀ x ∈ variants, StatesTag x)
    (hwidth : options'.width = options.width) {pairs : List ((Variant × VariantAttributes) × Int)}
    (hperm : pairs.Perm (variants.zip tags)) :
    Assigned options' (pairs.map Prod.fst) (pairs.map Prod.snd) := by
  have hmem : ∀ p ∈ pairs, p.1 ∈ variants ∧ p.2 ∈ tags := fun p hp =>
    List.of_mem_zip (hperm.subset hp)
  refine ⟨fun j tag hj => ?_, ?_, List.forall_mem_map.2 fun p hp => ?_⟩
  · rw [List.getElem?_map, Option.map_eq_some_iff] at hj
    obtain ⟨p, hp, rfl⟩ := hj
    have hpair := List.mem_of_getElem? hp
    obtain ⟨i, hi⟩ := List.getElem?_of_mem (hperm.subset hpair)
    obtain ⟨hx, htag⟩ := List.getElem?_zip_eq_some.1 hi
    refine (h.candidate i p.2 htag).of_statesTag hx (hstates _ (hmem p hpair).1) ?_
    rw [List.getElem?_map, hp, Option.map_some]
  · have hsnd : (variants.zip tags).map Prod.snd = tags := List.map_snd_zip (Nat.le_of_eq hlen)
    rw [(hperm.map Prod.snd).nodup_iff, hsnd]
    exact h.distinct
  · rw [hwidth]
    exact h.fits _ (hmem p hp).2

/-- Where tags are assigned, any of them can be stated and all stay as they are. Once every variant
states its tag, the variants can be put in any order, whether tags would be inferred or not, and each
keeps its tag. -/
theorem assignTags_of_pinned (h : assignTags options variants = .ok tags) :
    (∀ chosen, assignTags options (pinTags chosen variants tags) = .ok tags) ∧
      ((∀ x ∈ variants, StatesTag x) → ∀ options' : UnionOptions, options'.width = options.width →
        ∀ variants', variants'.Perm variants → ∃ tags', assignTags options' variants' = .ok tags' ∧
          tags'.length = variants'.length ∧ (variants'.zip tags').Perm (variants.zip tags)) := by
  obtain ⟨hassigned, hlen⟩ := assigned_of_assignTags h
  refine ⟨fun chosen => (hassigned.pinTags chosen).assignTags_eq ?_,
    fun hstates options' hwidth variants' hperm => ?_⟩
  · rw [length_pinTags chosen hlen, hlen]
  · have hfst : (variants.zip tags).map Prod.fst = variants :=
      List.map_fst_zip (Nat.le_of_eq hlen.symm)
    rw [← hfst] at hperm
    -- the rearranged variants bring their tags with them
    obtain ⟨pairs, rfl, hpairs⟩ :
        Relation.Comp (· = List.map Prod.fst ·) List.Perm variants' (variants.zip tags) := by
      rw [List.eq_map_comp_perm]
      exact hperm
    have hzip : pairs = (pairs.map Prod.fst).zip (pairs.map Prod.snd) := List.zip_of_prod rfl rfl
    refine ⟨pairs.map Prod.snd, ?_, by rw [List.length_map, List.length_map], hzip ▸ hpairs⟩
    exact (hassigned.of_perm hlen hstates hwidth hpairs).assignTags_eq
      (by rw [List.length_map, List.length_map])

/-- The tag after the largest of 128 bits and the one after a discriminant are pinned, and then the
variants are reversed. -/
theorem assignTags_of_pinned_of_wrapped :
    let variant (discriminant : Option String) : Variant :=
      ⟨"V", .unit, [], discriminant, [], .start⟩
    let options : UnionOptions := { width? := some .u128, inferred := true }
    let variants : List (Variant × VariantAttributes) :=
      [(variant none, ⟨some maxTagValue⟩), (variant none, ⟨none⟩), (variant (some "7"), ⟨none⟩),
        (variant none, ⟨none⟩)]
    let tags : List Int := [maxTagValue, 0, 7, 8]
    let pinned := pinTags (fun i => i = 1 ∨ i = 3) variants tags
    assignTags options variants = .ok tags ∧ assignTags options pinned = .ok tags ∧
      (∀ x ∈ pinned, StatesTag x) ∧
      ∃ tags', assignTags { width? := some .u128 } pinned.reverse = .ok tags' ∧
        tags'.length = pinned.reverse.length ∧
        (pinned.reverse.zip tags').Perm (pinned.zip tags) := by
  intro variant options variants tags pinned
  have htags : assignTags options variants = .ok tags := by decide +kernel
  have hpinned : assignTags options pinned = .ok tags :=
    (assignTags_of_pinned htags).1 fun i => i = 1 ∨ i = 3
  have hstates : ∀ x ∈ pinned, StatesTag x := by
    simp [pinned, pinTags, variants, tags, variant, StatesTag]
  exact ⟨htags, hpinned, hstates, (assignTags_of_pinned hpinned).2 hstates { width? := some .u128 } rfl
    _ (List.reverse_perm pinned)⟩

end WireSchema
