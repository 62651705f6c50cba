import WireSchema.Proofs.Schema.Passing
import WireSchema.Proofs.Schema.Exact
import WireSchema.Proofs.Text.Places
import WireSchema.Proofs.Text.Utf8

/-!
# Where the parts of a schema stand

What a rule spells, written out, is the text that it was spelled by, and the places are those of the
text. It is shown rule by rule, with the escapes replaced on the way: a rule's text is marked out by
what becomes of the outcome.
-/

namespace WireSchema

theorem exists_of_mapM_cons {α β : Type} {f : α → Option β} {a : α} {as : List α} {bs : List β}
    (h : (a :: as).mapM f = some bs) :
    ∃ b bs', f a = some b ∧ as.mapM f = some bs' ∧ bs = b :: bs' := by
  rw [List.mapM_cons] at h
  obtain ⟨b, hb, h⟩ := Option.bind_eq_some_iff.1 h
  obtain ⟨bs', hbs', h⟩ := Option.bind_eq_some_iff.1 h
  exact ⟨b, bs', hb, hbs', (Option.some.inj h).symm⟩

theorem Rule.placeless (l : Location) : ∀ m ∈ (none : Option Location), m = l :=
  fun _ h => (Option.not_mem_none _ h).elim

/-- The mark of a string is that of its code points, be it a text or not. -/
theorem Rule.mark_ofCodePoints (l : Location) (points : List Nat) :
    (Literal.ofCodePoints points).mark l = .word (.literal points) (some l) := by
  rw [Literal.ofCodePoints]
  split
  next h =>
    rw [List.all_eq_true] at h
    have hpoints : (String.ofList (points.map Char.ofNat)).toList.map Char.toNat = points := by
      rw [String.toList_ofList, List.map_map, List.map_congr_left, List.map_id]
      exact fun n hn => Text.toNat_ofNat_of_valid (of_decide_eq_true (h n hn))
    rw [Literal.mark, hpoints]
  next => rfl

theorem Gap.exists_covers {s t : Cursor} (h : Gap s t) : ∃ gap, s.Covers gap t := by
  induction h with
  | nil s => exact ⟨[], s.covers_nil⟩
  | blank _ hs _ ih | comment _ hs _ _ ih =>
    obtain ⟨gap, hgap⟩ := ih
    exact ⟨_, hs.append hgap⟩

theorem Token.Covers.covers_chars {x : Token} {s t : Cursor} (h : x.Covers s t) :
    s.Covers x.chars t := by
  cases x with
  | sign => exact h.2
  | string => exact h.1
  | name | integer | discriminant => exact Rule.Stretch.covers h

section

variable [Text.CharacterNames]

namespace Marked

theorem append {s t u : Cursor} {ms ns : List Mark} (h : Marked s ms t) (k : Marked t ns u) :
    Marked s (ms ++ ns) u := by
  induction h with
  | nil => exact k
  | word hgap hx hsays hplace _ ih => exact .word hgap hx hsays hplace (ih k)
  | comma hgap hx _ ih => exact .comma hgap hx (ih k)
  | noComma _ ih => exact .noComma (ih k)

theorem cons {s t u : Cursor} {m : Mark} {ms : List Mark} (h : Marked s [m] t)
    (k : Marked t ms u) : Marked s (m :: ms) u := h.append k

end Marked

namespace Rule

variable {α β : Type}

/-! ## Tokens -/

theorem marked_sign {text : String} (hne : text.toList ≠ []) {s t : Cursor} {a : Unit}
    (h : sign text s a t) : Marked s [.sign text] t := by
  obtain ⟨u, hgap, hcovers⟩ := h
  exact .word (x := .sign text) hgap ⟨hne, hcovers⟩ (.sign text) (placeless _) (.nil t)

theorem marked_name {s t : Cursor} {n : String} {l : Location} (h : name s (n, l) t)
    {place : Option Location} (hplace : ∀ m ∈ place, m = l) :
    Marked s [.word (.name n) place] t := by
  obtain ⟨u, hgap, hstretch⟩ := h
  obtain rfl : l = u.location := hstretch.location
  exact .word (x := .name n) hgap hstretch (.name n) hplace (.nil t)

theorem marked_integer {s t : Cursor} {n : Nat} {l : Location} (h : integer s (n, l) t)
    {place : Option Location} (hplace : ∀ m ∈ place, m = l) :
    Marked s [.word (.number n) place] t := by
  obtain ⟨⟨digits, m⟩, _, ⟨u, hgap, hstretch⟩, ⟨⟩, rfl⟩ := h
  obtain rfl : l = u.location := hstretch.location
  exact .word (x := .integer digits) hgap hstretch (.integer digits) hplace (.nil t)

theorem marked_discriminant {s t : Cursor} {d : String} (h : discriminant s d t) :
    Marked s [.word (.discriminant d) none] t := by
  obtain ⟨⟨d, l⟩, _, ⟨u, hgap, hstretch⟩, rfl, rfl⟩ := h
  obtain rfl : l = u.location := hstretch.location
  exact .word (x := .discriminant d) hgap hstretch (.discriminant d) (placeless _) (.nil t)

/-! ## Types -/

mutual
theorem marked_type {s t : Cursor} {e : TypeExpr} {l : Location} {place : Option Location}
    (hplace : ∀ m ∈ place, m = l) : TypeSpelled s (e, l) t → Marked s (e.marks place) t
  | .named hname => marked_name hname hplace
  | .applied hname hopen hargs hclose =>
    (marked_name hname hplace).cons ((marked_sign (by decide) hopen).cons
      ((marked_types hargs).append (marked_sign (by decide) hclose)))
  | .array htype hopen hsize hclose =>
    (marked_type hplace htype).append ((marked_sign (by decide) hopen).cons
      ((marked_integer hsize (placeless _)).cons (marked_sign (by decide) hclose)))

theorem marked_types {s t : Cursor} {es : List TypeExpr} :
    TypesSpelled s es t → Marked s (typeMarks es) t
  | .single htype => marked_type (placeless _) htype
  | .cons htype hcomma hrest => by
    have hmarked := (marked_type (placeless _) htype).append
      ((marked_sign (by decide) hcomma).cons (marked_types hrest))
    cases hrest with
    | single | cons => exact hmarked
end

/-! ## Annotations -/

/-- The marks of what becomes of each member. -/
theorem marked_listed {p : Rule α} {f : α → Option β} {m : β → List Mark} {s t : Cursor}
    {as : List α} {bs : List β} (h : listed p s as t) (hbs : as.mapM f = some bs)
    (hp : ∀ s a t b, p s a t → f a = some b → Marked s (m b) t) :
    Marked s (Mark.listed (bs.map m)) t := by
  rcases h with ⟨rfl, rfl⟩ | ⟨a, u, ha, more, v, hmore, _, _, hlast, rfl, rfl⟩
  · cases hbs
    exact .nil _
  · have hcomma : Marked v [.comma] t := by
      rcases hlast with ⟨w, hgap, hcovers⟩ | ⟨-, rfl⟩
      · exact .comma hgap ⟨by decide, hcovers⟩ (.nil _)
      · exact .noComma (.nil _)
    clear hlast
    induction hmore generalizing s a bs with
    | nil v =>
      obtain ⟨b, _, hb, ⟨⟩, rfl⟩ := exists_of_mapM_cons hbs
      exact (hp _ _ _ _ ha hb).append hcomma
    | @cons u v _ a' more hnext _ ih =>
      obtain ⟨b, bs, hb, hrest, rfl⟩ := exists_of_mapM_cons hbs
      obtain ⟨_, w, hsign, ha'⟩ := hnext
      have hmarked := ih _ ha' hrest hcomma
      obtain ⟨b', bs, -, -, rfl⟩ := exists_of_mapM_cons hrest
      exact (hp _ _ _ _ ha hb).append ((marked_sign (by decide) hsign).cons hmarked)

theorem marked_many {p : Rule α} {f : α → Option β} {m : β → List Mark} {s t : Cursor}
    {as : List α} {bs : List β} (h : many p s as t) (hbs : as.mapM f = some bs)
    (hp : ∀ s a t b, p s a t → f a = some b → Marked s (m b) t) :
    Marked s (bs.flatMap m) t := by
  induction h generalizing bs with
  | nil s =>
    cases hbs
    exact .nil s
  | cons ha _ ih =>
    obtain ⟨b, bs, hb, hrest, rfl⟩ := exists_of_mapM_cons hbs
    exact (hp _ _ _ _ ha hb).append (ih hrest)

theorem marked_literal {s t : Cursor} {v v' : Literal} {l : Location}
    (h : orElse literalString (orElse literalInteger literalName) s (v, l) t)
    (hv : v.unescape? = some v') : Marked s [v'.mark l] t := by
  rcases h with ⟨⟨body, m⟩, _, ⟨u, hgap, hcovers, hplace, hinside⟩, ⟨⟩, rfl⟩ |
    ⟨⟨n, m⟩, _, hn, ⟨⟩, rfl⟩ | ⟨⟨n, m⟩, _, hn, ⟨⟩, rfl⟩
  · obtain ⟨points, hpoints, rfl⟩ := Option.map_eq_some_iff.1 hv
    rw [mark_ofCodePoints]
    refine .word (x := .string body) hgap ⟨hcovers, hinside⟩ (.string hpoints) ?_ (.nil _)
    rintro _ ⟨⟩
    exact hplace
  · cases hv
    exact marked_integer hn fun _ h => (Option.some.inj h).symm
  · cases hv
    exact marked_name hn fun _ h => (Option.some.inj h).symm

theorem marked_argument {s t : Cursor} {a a' : Argument} (h : argument s a t)
    (ha : a.unescape? = some a') : Marked s a'.marks t := by
  rcases h with ⟨⟨key, l⟩, u, hkey, _, v, hsign, ⟨value, vl⟩, w, hvalue, rfl, rfl⟩ |
    ⟨⟨key, l⟩, u, hkey, rfl, rfl⟩ | ⟨⟨value, vl⟩, u, hvalue, rfl, rfl⟩
  · obtain ⟨value', hvalue', rfl⟩ := Option.map_eq_some_iff.1 ha
    exact (marked_name hkey fun _ h => (Option.some.inj h).symm).cons
      ((marked_sign (by decide) hsign).cons (marked_literal hvalue hvalue'))
  · cases ha
    exact marked_name hkey fun _ h => (Option.some.inj h).symm
  · obtain ⟨value', hvalue', rfl⟩ := Option.map_eq_some_iff.1 ha
    exact marked_literal (hvalue.imp_right .inl) hvalue'

theorem marked_blocks {s t : Cursor} {bs bs' : List AnnotationBlock} (h : many block s bs t)
    (hbs : unescapeBlocks? bs = some bs') : Marked s (bs'.flatMap AnnotationBlock.marks) t := by
  refine marked_many h hbs fun s b t b' hb hb' => ?_
  obtain ⟨_, s₁, hsign, ⟨n, l⟩, s₂, hname, _, s₃, hopen, as, s₄, hargs, _, s₅, hclose, rfl, rfl⟩ :=
    hb
  obtain ⟨as', has', hb'⟩ := Option.bind_eq_some_iff.1 hb'
  cases hb'
  have hplace : ∀ m ∈ some l.left.right, m = l := by simp
  have hmarked : Marked s₃ (Mark.listed (as'.map Argument.marks)) s₄ :=
    marked_listed hargs has' fun _ _ _ _ => marked_argument
  exact (marked_sign (by decide) hsign).cons ((marked_name hname hplace).cons
    ((marked_sign (by decide) hopen).cons (hmarked.append (marked_sign (by decide) hclose))))

/-! ## Fields -/

/-- What becomes of a field. -/
def unescapeField? (f : Field) : Option Field := do
  let annotations ← unescapeBlocks? f.annotations
  return { f with annotations }

theorem marked_namedField {s t : Cursor} {f f' : Field} (h : namedField s f t)
    (hf : unescapeField? f = some f') : Marked s f'.marks t := by
  obtain ⟨bs, s₁, hblocks, ⟨n, l⟩, s₂, hname, _, s₃, hsign, ⟨e, m⟩, s₄, htype, rfl, rfl⟩ := h
  obtain ⟨bs', hbs', hf⟩ := Option.bind_eq_some_iff.1 hf
  cases hf
  exact (marked_blocks hblocks hbs').append
    ((marked_name hname fun _ h => (Option.some.inj h).symm).cons
      ((marked_sign (by decide) hsign).cons (marked_type (placeless _) htype)))

theorem marked_tupleField {s t : Cursor} {f f' : Field} (h : tupleField s f t)
    (hf : unescapeField? f = some f') : Marked s f'.marks t := by
  obtain ⟨bs, s₁, hblocks, ⟨e, l⟩, s₂, htype, rfl, rfl⟩ := h
  obtain ⟨bs', hbs', hf⟩ := Option.bind_eq_some_iff.1 hf
  cases hf
  exact (marked_blocks hblocks hbs').append
    (marked_type (fun _ h => (Option.some.inj h).symm) htype)

theorem marked_namedItem {s t : Cursor} {f f' : Field} (h : namedItem s f t)
    (hf : unescapeField? f = some f') : Marked s (f'.marks ++ [.comma]) t := by
  obtain ⟨f, u, hfield, _, v, hcomma, rfl, rfl⟩ := h
  refine (marked_namedField hfield hf).append ?_
  rcases hcomma with ⟨w, hgap, hcovers⟩ | ⟨-, rfl⟩
  · exact .comma hgap ⟨by decide, hcovers⟩ (.nil _)
  · exact .noComma (.nil _)

/-- What fields become does not depend on their positions, nor do their marks. -/
theorem exists_of_unescapeFields?_numbered {fields fields' : List Field}
    (h : unescapeFields? (Reader.numbered fields) = some fields') :
    ∃ gs, fields.mapM unescapeField? = some gs ∧ gs.map Field.marks = fields'.map Field.marks := by
  have hfrom : ∀ (k : Nat) (fields fields' : List Field),
      (fields.mapIdx fun i f => { f with index := i + k }).mapM unescapeField? = some fields' →
        ∃ gs, fields.mapM unescapeField? = some gs ∧
          gs.map Field.marks = fields'.map Field.marks := by
    intro k fields
    induction fields generalizing k with
    | nil =>
      intro fields' h
      cases h
      exact ⟨[], rfl, rfl⟩
    | cons f fs ih =>
      intro fields' h
      rw [List.mapIdx_cons] at h
      obtain ⟨f', fs', hf, hfs, rfl⟩ := exists_of_mapM_cons h
      simp only [Nat.add_assoc, Nat.add_comm 1 k] at hfs
      obtain ⟨gs, hgs, hmarks⟩ := ih (k + 1) fs' hfs
      obtain ⟨bs, hbs, hf⟩ := Option.bind_eq_some_iff.1 hf
      cases hf
      refine ⟨{ f with annotations := bs } :: gs, ?_, ?_⟩
      · rw [List.mapM_cons, hgs, unescapeField?, hbs]
        rfl
      · rw [List.map_cons, List.map_cons, hmarks]
        rfl
  exact hfrom 0 fields fields' h

theorem marked_body {s t : Cursor} {shape : Shape} {fields fields' : List Field}
    (h : body s (shape, fields) t) (hf : unescapeFields? fields = some fields') :
    Marked s (bodyMarks shape fields') t := by
  rcases h with ⟨_, s₁, hopen, fs, s₂, hfields, _, s₃, hclose, ⟨⟩, rfl⟩ |
    ⟨_, s₁, hopen, fs, s₂, hfields, _, s₃, hclose, ⟨⟩, rfl⟩ | ⟨⟨⟩, rfl⟩
  · obtain ⟨gs, hgs, hmarks⟩ := exists_of_unescapeFields?_numbered hf
    have hmarked := marked_many hfields hgs fun _ _ _ _ => marked_namedItem
    have heq : (gs.flatMap fun f => f.marks ++ [.comma]) =
        fields'.flatMap fun f => f.marks ++ [.comma] := by
      have hflat := congrArg (List.flatMap (· ++ [Mark.comma])) hmarks
      simpa only [List.flatMap_map] using hflat
    rw [heq] at hmarked
    exact (marked_sign (by decide) hopen).cons
      (hmarked.append (marked_sign (by decide) hclose))
  · obtain ⟨gs, hgs, hmarks⟩ := exists_of_unescapeFields?_numbered hf
    have hmarked := marked_listed hfields hgs fun _ _ _ _ => marked_tupleField
    rw [hmarks] at hmarked
    exact (marked_sign (by decide) hopen).cons
      (hmarked.append (marked_sign (by decide) hclose))
  · cases hf
    exact .nil _

/-! ## Declarations -/

theorem marked_variant {s t : Cursor} {v v' : Variant} (h : variant s v t)
    (hv : v.unescape? = some v') : Marked s v'.marks t := by
  obtain ⟨bs, s₁, hblocks, ⟨n, l⟩, s₂, hname, ⟨shape, fields⟩, s₃, hbody, d, s₄, hd, ⟨⟩, ⟨⟩⟩ := h
  obtain ⟨bs', hbs', hv⟩ := Option.bind_eq_some_iff.1 hv
  obtain ⟨fields', hfields', hv⟩ := Option.bind_eq_some_iff.1 hv
  cases hv
  have htag : Marked s₃ (tagMarks d) t := by
    rcases hd with ⟨_, u, hsign, d, w, hd, ⟨⟩, ⟨⟩⟩ | ⟨⟨⟩, ⟨⟩⟩
    · exact (marked_sign (by decide) hsign).cons (marked_discriminant hd)
    · exact .nil _
  exact (marked_blocks hblocks hbs').append
    ((marked_name hname fun _ h => (Option.some.inj h).symm).cons
      ((marked_body hbody hfields').append htag))

theorem marked_record {s t : Cursor} {r r' : Record} (h : record s r t)
    (hr : r.unescape? = some r') : Marked s r'.marks t := by
  obtain ⟨bs, s₁, hblocks, _, s₂, hsign, ⟨n, l⟩, s₃, hname, ⟨shape, fields⟩, s₄, hbody, rfl, rfl⟩ :=
    h
  obtain ⟨bs', hbs', hr⟩ := Option.bind_eq_some_iff.1 hr
  obtain ⟨fields', hfields', hr⟩ := Option.bind_eq_some_iff.1 hr
  cases hr
  exact (marked_blocks hblocks hbs').append ((marked_sign (by decide) hsign).cons
    ((marked_name hname fun _ h => (Option.some.inj h).symm).cons (marked_body hbody hfields')))

theorem marked_union {s t : Cursor} {u u' : Union} (h : union s u t)
    (hu : u.unescape? = some u') : Marked s u'.marks t := by
  obtain ⟨bs, s₁, hblocks, _, s₂, hsign, ⟨n, l⟩, s₃, hname, _, s₄, hopen, vs, s₅, hvariants, _, s₆,
    hclose, rfl, rfl⟩ := h
  obtain ⟨bs', hbs', hu⟩ := Option.bind_eq_some_iff.1 hu
  obtain ⟨vs', hvs', hu⟩ := Option.bind_eq_some_iff.1 hu
  cases hu
  have hmarked : Marked s₄ (vs'.flatMap Variant.marks) s₅ :=
    marked_many hvariants hvs' fun _ _ _ _ => marked_variant
  exact (marked_blocks hblocks hbs').append ((marked_sign (by decide) hsign).cons
    ((marked_name hname fun _ h => (Option.some.inj h).symm).cons
      ((marked_sign (by decide) hopen).cons
        (hmarked.append (marked_sign (by decide) hclose)))))

/-- What becomes of a declaration. -/
def unescapeDeclaration? : Record ⊕ Union → Option (Record ⊕ Union)
  | .inl r => r.unescape?.map .inl
  | .inr u => u.unescape?.map .inr

theorem marked_declaration {s t : Cursor} {d d' : Record ⊕ Union} (h : declaration s d t)
    (hd : unescapeDeclaration? d = some d') : Marked s (declarationMarks d') t := by
  rcases h with ⟨r, _, hr, rfl, rfl⟩ | ⟨u, _, hu, rfl, rfl⟩
  · obtain ⟨r', hr', rfl⟩ := Option.map_eq_some_iff.1 hd
    exact marked_record hr hr'
  · obtain ⟨u', hu', rfl⟩ := Option.map_eq_some_iff.1 hd
    exact marked_union hu hu'

theorem marked_declarations {s t : Cursor} {ds ds' : List (Record ⊕ Union)}
    (h : many declaration s ds t) (hds : ds.mapM unescapeDeclaration? = some ds') :
    Marked s (ds'.flatMap declarationMarks) t :=
  marked_many h hds fun _ _ _ _ => marked_declaration

end Rule

/-! ## Schemas -/

open Rule

theorem exists_of_mapM_parts {ds : List (Record ⊕ Union)} {records : List Record}
    {unions : List Union}
    (hrecords : (ds.filterMap Sum.getLeft?).mapM Record.unescape? = some records)
    (hunions : (ds.filterMap Sum.getRight?).mapM Union.unescape? = some unions) :
    ∃ ds', ds.mapM unescapeDeclaration? = some ds' ∧ ds'.filterMap Sum.getLeft? = records ∧
      ds'.filterMap Sum.getRight? = unions := by
  induction ds generalizing records unions with
  | nil =>
    cases hrecords
    cases hunions
    exact ⟨[], rfl, rfl, rfl⟩
  | cons d ds ih =>
    rcases d with r | u
    · obtain ⟨r', records, hr, hrs, rfl⟩ := exists_of_mapM_cons hrecords
      obtain ⟨ds', hds', rfl, rfl⟩ := ih hrs hunions
      refine ⟨.inl r' :: ds', ?_, rfl, rfl⟩
      rw [List.mapM_cons, hds', unescapeDeclaration?, hr]
      rfl
    · obtain ⟨u', unions, hu, hus, rfl⟩ := exists_of_mapM_cons hunions
      obtain ⟨ds', hds', rfl, rfl⟩ := ih hrecords hus
      refine ⟨.inr u' :: ds', ?_, rfl, rfl⟩
      rw [List.mapM_cons, hds', unescapeDeclaration?, hu]
      rfl

/-- The declarations become those of what the schema becomes. -/
theorem exists_of_unescape?_ofDeclarations {ds : List (Record ⊕ Union)} {s : Schema}
    (h : (Schema.ofDeclarations ds).unescape? = some s) :
    ∃ ds', ds.mapM unescapeDeclaration? = some ds' ∧ s = .ofDeclarations ds' := by
  obtain ⟨records, hrecords, h⟩ := Option.bind_eq_some_iff.1 h
  obtain ⟨unions, hunions, h⟩ := Option.bind_eq_some_iff.1 h
  obtain ⟨ds', hds', rfl, rfl⟩ := exists_of_mapM_parts hrecords hunions
  exact ⟨ds', hds', (Option.some.inj h).symm⟩

/-- What stands at the place of a mark. -/
theorem Marked.exists_token {s t : Cursor} {ms : List Mark} (h : Marked s ms t) {w : Word}
    {l : Location} (hw : .word w (some l) ∈ ms) :
    ∃ (before : List Char) (x : Token) (u v : Cursor),
      s.Covers before u ∧ x.Covers u v ∧ x.Says w ∧ l = u.location := by
  induction h with
  | nil => cases hw
  | word hgap hx hsays hplace _ ih =>
    obtain ⟨gap, hgap⟩ := hgap.exists_covers
    rcases List.mem_cons.1 hw with hw | hw
    · cases hw
      exact ⟨gap, _, _, _, hgap, hx, hsays, hplace l rfl⟩
    · obtain ⟨before, y, u', v', hbefore, hy⟩ := ih hw
      exact ⟨_, y, u', v', hgap.append (hx.covers_chars.append hbefore), hy⟩
  | comma hgap hx _ ih =>
    obtain ⟨gap, hgap⟩ := hgap.exists_covers
    obtain ⟨before, y, u', v', hbefore, hy⟩ := ih ((List.mem_cons.1 hw).resolve_left nofun)
    exact ⟨_, y, u', v', hgap.append (hx.covers_chars.append hbefore), hy⟩
  | noComma _ ih => exact ih ((List.mem_cons.1 hw).resolve_left nofun)

theorem MarkedOut.tokenAt {text : String} {ms : List Mark} (h : MarkedOut text ms) {w : Word}
    {l : Location} (hw : .word w (some l) ∈ ms) : TokenAt text w l := by
  obtain ⟨t, u, hmarked, -⟩ := h
  obtain ⟨before, x, v, v', hbefore, hx, hsays, hl⟩ := hmarked.exists_token hw
  refine ⟨before, x, v'.rest, ?_, hsays, ?_⟩
  · rw [List.append_assoc, ← hx.covers_chars.text]
    exact hbefore.text
  · rw [hl, hbefore.location]
    exact Location.advance_start before

end

namespace Schema

/-- Once its escapes are replaced, what is read is the schema that marks out the text. -/
theorem exists_markedOut [Text.CharacterNames] {text : String} {s₀ s : Schema}
    (hread : read text = .ok s₀)
    (hunescape : s₀.unescape? = some s) :
    ∃ ds, s = ofDeclarations ds ∧ MarkedOut text (ds.flatMap declarationMarks) := by
  obtain ⟨ds, t, u, hds, hgap, hend, rfl⟩ := read_eq_ok_iff.1 hread
  obtain ⟨ds', hds', rfl⟩ := exists_of_unescape?_ofDeclarations hunescape
  exact ⟨ds', rfl, t, u, Rule.marked_declarations hds hds', hgap, hend⟩

/-- A text that is accepted is the schema written out: its tokens are the words of the declarations
in turn, with gaps around them, and each place in the schema is that of just this token. So it says
on which line of the text and in which column the token starts. -/
theorem parse_places [Text.CharacterNames] {text : String} {s : Schema} (h : parse text = .ok s) :
    ∃ ds, s = ofDeclarations ds ∧ MarkedOut text (ds.flatMap declarationMarks) ∧
      ∀ w l, Mark.word w (some l) ∈ ds.flatMap declarationMarks → TokenAt text w l := by
  obtain ⟨s₀, hread, hunescape, -⟩ := parse_eq_ok_iff.1 h
  obtain ⟨ds, hs, hmarked⟩ := exists_markedOut hread hunescape
  exact ⟨ds, hs, hmarked, fun w l hw => hmarked.tokenAt hw⟩

/-- The field is where the element of the nested array starts, on the line below a comment. -/
theorem parse_places_of_nested_array :
    let text := "# é\r\n@codec(layout=\x22é\\n\x22)\tstruct A(\r@doc(tag=1)\n# b\n list<u8>[2][3],)"
    ∃ s, parse text = .ok s ∧
      (s.records.map fun r => (r.name, r.location, r.fields.map Field.location)) =
        [("A", ⟨2, 29⟩, [⟨4, 2⟩])] ∧
      ∃ ds, s = ofDeclarations ds ∧ MarkedOut text (ds.flatMap declarationMarks) ∧
        ∀ w l, Mark.word w (some l) ∈ ds.flatMap declarationMarks → TokenAt text w l := by
  intro text
  have h : (parse text).toOption.any (fun s =>
      (s.records.map fun r => (r.name, r.location, r.fields.map Field.location)) =
        [("A", ⟨2, 29⟩, [⟨4, 2⟩])]) = true := by decide +kernel
  cases hs : parse text with
  | error why =>
    rw [hs] at h
    cases h
  | ok s =>
    rw [hs] at h
    exact ⟨s, rfl, of_decide_eq_true h, parse_places hs⟩

end Schema

end WireSchema
