import WireSchema.Proofs.Schema.Refusing

/-!
# Diagnostics point into the text

A fault is reported at a token of the text, and unexpected input where it comes, but for two cases.
A text that ends early has no place for what is missing. And a fault of a block of annotations is
reported one column to the left of the name of the block, which is where its sign stands if there is
no gap in between.
-/

namespace WireSchema

open Cursor

/-! ## Places of a schema in its marks -/

/-- A word of the row has this place. -/
def Holds (ms : List Mark) (l : Location) : Prop := ∃ w, Mark.word w (some l) ∈ ms

theorem Holds.mono {ms ns : List Mark} {l : Location} (h : Holds ms l) (hsub : ms ⊆ ns) :
    Holds ns l := by
  obtain ⟨w, hw⟩ := h
  exact ⟨w, hsub hw⟩

theorem infix_flatMap {α β : Type} {f : α → List β} {a : α} {as : List α} (h : a ∈ as) :
    f a <:+: as.flatMap f := by
  obtain ⟨bs, cs, rfl⟩ := List.append_of_mem h
  exact ⟨bs.flatMap f, cs.flatMap f, by simp⟩

theorem infix_listed {ms : List Mark} {items : List (List Mark)} (h : ms ∈ items) :
    ms <:+: Mark.listed items := by
  fun_induction Mark.listed items with
  | case1 => cases h
  | case2 ns =>
    obtain rfl := List.mem_singleton.1 h
    exact List.infix_append' [] _ _
  | case3 ns items _ ih =>
    rcases List.mem_cons.1 h with rfl | h
    · exact List.infix_append' [] _ _
    · exact (ih h).trans ((List.suffix_cons _ _).trans (List.suffix_append _ _)).isInfix

theorem holds_argument (a : Argument) :
    Holds a.marks a.location ∧ Holds a.marks a.valueLocation := by
  have hliteral : ∀ (v : Literal) (l : Location), Holds [v.mark l] l := by
    intro v l
    cases v <;> exact ⟨_, .head _⟩
  cases a with
  | keyed key value l vl =>
    exact ⟨⟨_, .head _⟩, (hliteral value vl).mono (by simp [Argument.marks])⟩
  | flag key l => exact ⟨⟨_, .head _⟩, ⟨_, .head _⟩⟩
  | bare value l => exact ⟨hliteral value l, hliteral value l⟩

theorem infix_argument {b : AnnotationBlock} {a : Argument} (ha : a ∈ b.arguments) :
    a.marks <:+: b.marks :=
  (infix_listed (List.mem_map_of_mem ha)).trans
    ⟨[.sign "@", .name b.name b.location.right, .sign "("], [.sign ")"], by
      simp [AnnotationBlock.marks]⟩

theorem holds_type (l : Location) (e : TypeExpr) : Holds (e.marks (some l)) l := by
  cases e with
  | named n | applied n args => exact ⟨.name n, by simp [TypeExpr.marks]⟩
  | array element size =>
    rw [TypeExpr.marks]
    exact (holds_type l element).mono (List.subset_append_left _ _)

theorem infix_fieldBlock {f : Field} {b : AnnotationBlock} (hb : b ∈ f.annotations) :
    b.marks <:+: f.marks :=
  (infix_flatMap hb).trans (List.prefix_append _ _).isInfix

theorem holds_field (f : Field) : Holds f.marks f.location := by
  unfold Field.marks
  split
  next n _ => exact ⟨.name n, List.mem_append_right _ (.head _)⟩
  next => exact (holds_type _ f.type).mono (List.subset_append_right _ _)

theorem infix_body {shape : Shape} {fields : List Field} {f : Field} (hf : f ∈ fields) :
    f.marks <:+: bodyMarks shape fields := by
  cases shape with
  | named =>
    refine .trans ?_ (.trans (infix_flatMap (f := fun f => f.marks ++ [Mark.comma]) hf) ?_)
    · exact (List.prefix_append _ _).isInfix
    · exact ⟨[.sign "\x7b"], [.sign "\x7d"], by simp [bodyMarks]⟩
  | tuple =>
    exact (infix_listed (List.mem_map_of_mem hf)).trans
      ⟨[.sign "("], [.sign ")"], by simp [bodyMarks]⟩
  | unit => exact infix_flatMap hf

/-- A row of marks has blocks in it, and has the places of these and others. -/
structure Covers (ms : List Mark) (blocks : List AnnotationBlock) (places : List Location) :
    Prop where
  blocks : ∀ b ∈ blocks, b.marks <:+: ms
  places : ∀ l ∈ places, Holds ms l

theorem Covers.mono {ms ns : List Mark} {blocks : List AnnotationBlock} {places : List Location}
    (h : Covers ms blocks places) (hsub : ms <:+: ns) : Covers ns blocks places :=
  ⟨fun b hb => (h.blocks b hb).trans hsub, fun l hl => (h.places l hl).mono hsub.subset⟩

theorem Covers.append {ms : List Mark} {blocks blocks' : List AnnotationBlock}
    {places places' : List Location} (h : Covers ms blocks places)
    (h' : Covers ms blocks' places') : Covers ms (blocks ++ blocks') (places ++ places') :=
  ⟨fun b hb => (List.mem_append.1 hb).elim (h.blocks b) (h'.blocks b),
    fun l hl => (List.mem_append.1 hl).elim (h.places l) (h'.places l)⟩

theorem Covers.flatMap {α : Type} {ms : List Mark} {as : List α} {blocks : α → List AnnotationBlock}
    {places : α → List Location} (h : ∀ a ∈ as, Covers ms (blocks a) (places a)) :
    Covers ms (as.flatMap blocks) (as.flatMap places) where
  blocks b hb := by
    obtain ⟨a, ha, hb⟩ := List.mem_flatMap.1 hb
    exact (h a ha).blocks b hb
  places l hl := by
    obtain ⟨a, ha, hl⟩ := List.mem_flatMap.1 hl
    exact (h a ha).places l hl

theorem covers_fields (shape : Shape) (fields : List Field) :
    Covers (bodyMarks shape fields) (fields.flatMap Field.annotations)
      (fields.map Field.location) where
  blocks b hb := by
    obtain ⟨f, hf, hb⟩ := List.mem_flatMap.1 hb
    exact (infix_fieldBlock hb).trans (infix_body hf)
  places l hl := by
    obtain ⟨f, hf, rfl⟩ := List.mem_map.1 hl
    exact (holds_field f).mono (infix_body hf).subset

/-- The marks of annotations, a name and what follows. -/
theorem covers_named {ms rest : List Mark} {annotations blocks : List AnnotationBlock} {n : String}
    {l : Location} {places : List Location} (hrest : Covers rest blocks places)
    (hms : ∃ signs, ms = annotations.flatMap AnnotationBlock.marks ++
      (signs ++ Mark.name n l :: rest)) :
    Covers ms (annotations ++ blocks) (l :: places) := by
  obtain ⟨signs, rfl⟩ := hms
  have hinfix : rest <:+: annotations.flatMap AnnotationBlock.marks ++
      (signs ++ Mark.name n l :: rest) :=
    ((List.suffix_cons _ _).trans ((List.suffix_append _ _).trans (List.suffix_append _ _))).isInfix
  have hnamed : Covers (annotations.flatMap AnnotationBlock.marks ++
      (signs ++ Mark.name n l :: rest)) annotations [l] := by
    refine ⟨fun b hb => ?_, fun m hm => ?_⟩
    · exact (infix_flatMap hb).trans (List.prefix_append _ _).isInfix
    · obtain rfl := List.mem_singleton.1 hm
      exact ⟨.name n, by simp [Mark.name]⟩
  exact hnamed.append (hrest.mono hinfix)

theorem covers_variant (v : Variant) : Covers v.marks
    (v.annotations ++ v.fields.flatMap Field.annotations)
    (v.location :: v.fields.map Field.location) :=
  covers_named ((covers_fields v.shape v.fields).mono (List.prefix_append _ _).isInfix) ⟨[], rfl⟩

theorem covers_record (r : Record) : Covers r.marks
    (r.annotations ++ r.fields.flatMap Field.annotations)
    (r.location :: r.fields.map Field.location) :=
  covers_named (covers_fields r.shape r.fields) ⟨[.sign "struct"], rfl⟩

theorem covers_union (u : Union) : Covers u.marks
    (u.annotations ++ u.variants.flatMap fun v =>
      v.annotations ++ v.fields.flatMap Field.annotations)
    (u.location :: u.variants.flatMap fun v => v.location :: v.fields.map Field.location) := by
  refine covers_named ((Covers.flatMap fun v hv => (covers_variant v).mono (infix_flatMap hv)).mono
    ?_) ⟨[.sign "union"], rfl⟩
  exact ⟨[.sign "\x7b"], [.sign "\x7d"], by simp⟩

theorem covers_declarations (ds : List (Record ⊕ Union)) :
    Covers (ds.flatMap declarationMarks) (Schema.ofDeclarations ds).blocks
      (Schema.ofDeclarations ds).places := by
  refine .append (.flatMap fun r hr => ?_) (.flatMap fun u hu => ?_)
  · obtain ⟨d, hd, hr⟩ := List.mem_filterMap.1 hr
    obtain rfl := Sum.getLeft?_eq_some_iff.1 hr
    exact (covers_record r).mono (infix_flatMap (f := declarationMarks) hd)
  · obtain ⟨d, hd, hu⟩ := List.mem_filterMap.1 hu
    obtain rfl := Sum.getRight?_eq_some_iff.1 hu
    exact (covers_union u).mono (infix_flatMap (f := declarationMarks) hd)

/-! ## The sign of a block -/

theorem Marked.split [Text.CharacterNames] {s t : Cursor} {ms ns : List Mark}
    (h : Marked s (ms ++ ns) t) :
    ∃ u, Marked s ms u ∧ Marked u ns t := by
  induction ms generalizing s with
  | nil => exact ⟨s, .nil s, h⟩
  | cons m ms ih =>
    rw [List.cons_append] at h
    cases h with
    | word hgap hx hsays hplace h =>
      obtain ⟨u, hms, hns⟩ := ih h
      exact ⟨u, .word hgap hx hsays hplace hms, hns⟩
    | comma hgap hx h =>
      obtain ⟨u, hms, hns⟩ := ih h
      exact ⟨u, .comma hgap hx hms, hns⟩
    | noComma h =>
      obtain ⟨u, hms, hns⟩ := ih h
      exact ⟨u, .noComma hms, hns⟩

theorem Marked.exists_covers [Text.CharacterNames] {s t : Cursor} {ms : List Mark}
    (h : Marked s ms t) :
    ∃ cs, s.Covers cs t := by
  induction h with
  | nil s => exact ⟨[], s.covers_nil⟩
  | word hgap hx _ _ _ ih | comma hgap hx _ ih =>
    obtain ⟨gap, hgap⟩ := hgap.exists_covers
    obtain ⟨cs, hcs⟩ := ih
    exact ⟨_, hgap.append (hx.covers_chars.append hcs)⟩
  | noComma _ ih => exact ih

/-- The place one column to the left of the name of a block, whose sign stands in front of it, with
a gap in between. -/
structure LeftOfName (text : String) (l : Location) (before gap : List Char) (name : String) :
    Prop where
  sign : ∃ behind, text.toList = before ++ '@' :: (gap ++ (name.toList ++ behind))
  between : ∃ s t, Gap s t ∧ s.Covers gap t
  place : l.right = .behind (before ++ '@' :: gap)
  /-- The sign stands there if the gap is empty. -/
  atSign : l = .behind before ↔ gap = []
  /-- There is no such place if the name begins a line. -/
  within : l.Within text.toList ↔ (Location.behind (before ++ '@' :: gap)).column ≠ 1

theorem Location.right_injective : Function.Injective Location.right := by
  rintro ⟨n, k⟩ ⟨n', k'⟩ h
  simp only [right, Location.mk.injEq] at h ⊢
  omega

theorem LeftOfName.of_sign {text : String} {l : Location} {before gap : List Char} {name : String}
    (hsign : ∃ behind, text.toList = before ++ '@' :: (gap ++ (name.toList ++ behind)))
    (hgap : ∃ s t, Gap s t ∧ s.Covers gap t) (hname : l.right = .behind (before ++ '@' :: gap)) :
    LeftOfName text l before gap name := by
  have hcons : before ++ '@' :: gap = before ++ ['@'] ++ gap := by simp
  refine ⟨hsign, hgap, hname, ?_, ?_⟩
  · have hnext : Location.behind (before ++ ['@']) = (Location.behind before).right := by
      rw [Location.behind_concat]
      rfl
    rw [← Location.right_injective.eq_iff, hname, hcons, ← hnext]
    exact Location.behind_append_eq_iff
  · obtain ⟨behind, hsign⟩ := hsign
    obtain ⟨n, k, line, hplace, hline, hk⟩ := Location.behind_within (before ++ '@' :: gap)
      (name.toList ++ behind)
    have htext : text.toList = before ++ '@' :: gap ++ (name.toList ++ behind) := by
      rw [hsign]
      simp
    rw [← htext] at hline
    obtain rfl : l = ⟨n + 1, k⟩ := Location.right_injective (by rw [hname, hplace]; rfl)
    rw [hplace]
    constructor
    · rintro ⟨n', k', -, hl, -, -⟩ hcolumn
      have := congrArg Location.column hl
      simp only at this hcolumn
      omega
    · intro hcolumn
      simp only [ne_eq] at hcolumn
      obtain ⟨k, rfl⟩ : ∃ m, k = m + 1 := ⟨k - 1, by omega⟩
      exact ⟨n, k, line, by simp, hline, by omega⟩

theorem MarkedOut.leftOfName [Text.CharacterNames] {text : String} {ms : List Mark}
    (h : MarkedOut text ms)
    {b : AnnotationBlock} (hb : b.marks <:+: ms) :
    ∃ before gap, LeftOfName text b.location before gap b.name := by
  obtain ⟨ms₁, ms₂, rfl⟩ := hb
  obtain ⟨t, -, hmarked, -⟩ := h
  obtain ⟨s₂, hmarked, -⟩ := hmarked.split
  obtain ⟨s₁, hbefore, hblock⟩ := hmarked.split
  obtain ⟨cs, hcs⟩ := hbefore.exists_covers
  cases hblock with | word hgap₁ hsign hsays₁ _ hblock =>
  cases hblock with | word hgap₂ hname hsays₂ hplace _ =>
  cases hsays₁
  cases hsays₂
  obtain ⟨gap₁, hgap₁⟩ := hgap₁.exists_covers
  obtain ⟨gap, hgap⟩ := hgap₂.exists_covers
  have hall := ((hcs.append hgap₁).append hsign.covers_chars).append hgap
  have hshape : cs ++ gap₁ ++ (Token.sign "@").chars ++ gap = cs ++ gap₁ ++ '@' :: gap :=
    List.append_assoc _ _ gap
  rw [hshape] at hall
  have htext := hall.text
  rw [hname.covers_chars.text, List.append_assoc _ (_ :: gap)] at htext
  refine ⟨cs ++ gap₁, gap, .of_sign ⟨_, htext⟩ ⟨_, _, hgap₂, hgap⟩ ?_⟩
  rw [hplace _ rfl, hall.location]
  exact Location.advance_start _

/-! ## Diagnostics -/

/-- A fault of a block of annotations. -/
def Rejection.OfBlock : Rejection → Prop
  | reading _ => False
  | resolving e => e.fault.OfBlock

/-- The text is refused as unexpected input. -/
def Rejection.Unexpected (l : Location) (why : Rejection) : Prop :=
  why = .reading (.invalid .unexpectedInput l)

/-- What is at the place that a rejection is reported at. -/
inductive PointsAt [Text.CharacterNames] (text : String) (l : Location) (why : Rejection) : Prop
  /-- A token of the text starts there. -/
  | token {w : Word} : ¬ why.OfBlock → ¬ why.Unexpected l → TokenAt text w l → PointsAt text l why
  /-- The text goes on there in an unexpected way. -/
  | input : why.Unexpected l → l.Within text.toList → PointsAt text l why
  /-- The text ends early, and is read if something more is written behind it. -/
  | textEnd {behind : List Char} {ds : List (Record ⊕ Union)} : why.Unexpected l → l = .endOfText →
    Spells (String.ofList (text.toList ++ behind)) ds → PointsAt text l why
  /-- A block of annotations is at fault, and this is its place. -/
  | leftOfName {s : Schema} {b : AnnotationBlock} {before gap : List Char} : why.OfBlock →
    Schema.parse text = .ok s → b ∈ s.blocks → l = b.location →
    LeftOfName text l before gap b.name → PointsAt text l why

theorem Location.Within.pos {l : Location} {cs : List Char} (h : l.Within cs) :
    0 < l.line ∧ 0 < l.column := by
  obtain ⟨n, k, _, rfl, -, -⟩ := h
  simp only
  omega

/-- The place is within the text but where it is left of a name that begins its line, or where there
is none. -/
theorem PointsAt.within_iff [Text.CharacterNames] {text : String} {l : Location} {why : Rejection}
    (h : PointsAt text l why) : l.Within text.toList ↔ l ≠ .endOfText ∧ l.column ≠ 0 := by
  have hpos : l.Within text.toList → l ≠ .endOfText ∧ l.column ≠ 0 := fun hl => by
    obtain ⟨hline, hcolumn⟩ := hl.pos
    refine ⟨?_, by omega⟩
    rintro rfl
    exact absurd hline (by decide)
  refine ⟨hpos, fun ⟨hend, hcolumn⟩ => ?_⟩
  cases h with
  | token _ _ htoken =>
    obtain ⟨before, x, behind, htext, -, rfl⟩ := htoken
    rw [htext, List.append_assoc]
    exact Location.behind_within before _
  | input _ hl => exact hl
  | textEnd _ hl _ => exact absurd hl hend
  | leftOfName _ _ _ _ hleft =>
    rw [hleft.within, ← hleft.place]
    simp only [Location.right]
    omega

theorem Schema.pointsAt_of_unexpected [Text.CharacterNames] {text : String} {l : Location}
    (h : parse text = refuse .unexpectedInput l) :
    PointsAt text l (.reading (.invalid .unexpectedInput l)) := by
  obtain ⟨e, hread, rfl⟩ := read_of_unexpectedInput h
  obtain ⟨before, hlate⟩ := exists_stopsLate hread
  by_cases hrest : e.rest = []
  · obtain ⟨behind, ds, hds⟩ := hlate.completable
    rw [← List.append_nil before, ← hrest, ← hlate.split] at hds
    exact .textEnd rfl (hlate.endsEarly.2 hrest) hds
  · obtain ⟨skipped, behind, hsplit, hl, -⟩ := hlate.reported hrest
    refine .input rfl (Location.within_iff.2 ⟨before ++ skipped, behind, ?_, hl⟩)
    rw [hlate.split, hsplit, List.append_assoc]

/-- What a text is refused for, if it is a diagnostic, is found where the text goes on in an
unexpected way, or at a place of its schema. -/
theorem Schema.pointsAt_of_parse [Text.CharacterNames] {text message : String} {l : Location}
    {why : SchemaRejection}
    (h : parse text = .error why) (hd : (Rejection.reading why).diagnostic? = some (message, l)) :
    PointsAt text l (.reading why) := by
  rcases parse_error_cases h with ⟨l', -, rfl⟩ | ⟨s₀, hread, ⟨-, rfl⟩ | ⟨s, hunescape, hcheck⟩⟩
  · cases hd
    exact pointsAt_of_unexpected h
  · cases hd
  · obtain ⟨ds, rfl, hmarked⟩ := exists_markedOut hread hunescape
    cases why with
    | malformedString | keyWithoutText => cases hd
    | invalid fault l' =>
      cases hd
      obtain ⟨hfault, hl⟩ := fails_check _ _ hcheck
      obtain ⟨w, hw⟩ := (covers_declarations ds).places l hl
      refine .token id (fun h => hfault ?_) (hmarked.tokenAt hw)
      cases h
      rfl

namespace Layout

/-- What a schema cannot be resolved for is found left of the name of a block, or at an argument or
a place of the schema. -/
theorem pointsAt_of_ofSchema [Text.CharacterNames] {text : String} {s : Schema} {e : LayoutError}
    (hparse : Schema.parse text = .ok s) (h : ofSchema s = .error e) :
    PointsAt text e.location (.resolving e) := by
  obtain ⟨s₀, hread, hunescape, -⟩ := Schema.parse_eq_ok_iff.1 hparse
  obtain ⟨ds, rfl, hmarked⟩ := Schema.exists_markedOut hread hunescape
  have hcovers := covers_declarations ds
  have hat := fails_ofSchema _ _ h
  by_cases hblock : e.fault.OfBlock
  · obtain ⟨b, hb, hl⟩ := hat.block hblock
    obtain ⟨before, gap, hleft⟩ := hmarked.leftOfName (hcovers.blocks b hb)
    rw [← hl] at hleft
    exact .leftOfName hblock hparse hb hl hleft
  · suffices Holds (ds.flatMap declarationMarks) e.location by
      obtain ⟨w, hw⟩ := this
      exact .token hblock nofun (hmarked.tokenAt hw)
    rcases hat.other hblock with hl | ⟨b, hb, a, ha, hl⟩
    · exact hcovers.places _ hl
    · have hsub := ((infix_argument ha).trans (hcovers.blocks b hb)).subset
      rcases hl with hl | hl <;> rw [hl]
      · exact (holds_argument a).1.mono hsub
      · exact (holds_argument a).2.mono hsub

/-- A diagnostic of a text points at a token of it, or at where it goes on in an unexpected way. But
where the text ends early there is no place, and a fault of a block is reported in the column left
of its name, which is where the sign stands only if no gap comes in between. So the place is within
the text, except in the first of these cases and where that name begins its line. -/
theorem diagnostic_points [Text.CharacterNames] {text : String} {why : Rejection}
    {message : String} {l : Location}
    (h : ofText text = .error why) (hd : why.diagnostic? = some (message, l)) :
    PointsAt text l why ∧ (l.Within text.toList ↔ l ≠ .endOfText ∧ l.column ≠ 0) := by
  suffices PointsAt text l why from ⟨this, this.within_iff⟩
  rcases ofText_eq_error_iff.1 h with ⟨why, hparse, rfl⟩ | ⟨s, e, hparse, hlayout, rfl⟩
  · exact Schema.pointsAt_of_parse hparse hd
  · obtain ⟨-, hd⟩ := Option.ite_none_right_eq_some.1 hd
    cases hd
    exact pointsAt_of_ofSchema hparse hlayout

/-- A gap comes between the sign and the name, so the place is that of the gap. -/
theorem diagnostic_points_of_gap :
    ofText "@ codec(inferred_values) struct A" =
        .error (.resolving ⟨.unionOptionOnRecord, ⟨1, 2⟩⟩) ∧
      PointsAt "@ codec(inferred_values) struct A" ⟨1, 2⟩
        (.resolving ⟨.unionOptionOnRecord, ⟨1, 2⟩⟩) ∧
      (Location.Within ⟨1, 2⟩ "@ codec(inferred_values) struct A".toList ↔
        (⟨1, 2⟩ : Location) ≠ .endOfText ∧ (2 : Int) ≠ 0) := by
  have h : ofText "@ codec(inferred_values) struct A" =
      .error (.resolving ⟨.unionOptionOnRecord, ⟨1, 2⟩⟩) :=
    ofText_eq_error_of_decide (by decide +kernel)
  exact ⟨h, diagnostic_points h rfl⟩

/-- No column is left of a name that begins a line, and the sign of its block stands elsewhere. The
place that an early end is reported at is not within any text. -/
theorem diagnostics_outside :
    ofText "@\ncodec(inferred_values) struct A" =
        .error (.resolving ⟨.unionOptionOnRecord, ⟨2, 0⟩⟩) ∧
      ¬ Location.Within ⟨2, 0⟩ "@\ncodec(inferred_values) struct A".toList ∧
      Location.behind [] = ⟨1, 1⟩ ∧
      ofText "struct" = .error (.reading (.invalid .unexpectedInput ⟨-1, -1⟩)) ∧
      ¬ Location.Within ⟨-1, -1⟩ "struct".toList := by
  refine ⟨ofText_eq_error_of_decide (by decide +kernel), fun h => ?_, rfl,
    ofText_eq_error_of_decide (by decide +kernel), fun h => ?_⟩
  · exact absurd h.pos.2 (by decide)
  · exact absurd h.pos.1 (by decide)

end Layout

end WireSchema
