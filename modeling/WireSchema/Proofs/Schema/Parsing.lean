import WireSchema.Proofs.Schema.Reads

/-!
# Reading exactly the grammar

Each rule of the grammar is read as it is spelled, given that what comes behind does not begin with
one of a few signs: behind a type no bracket, behind a body no brace. The rules that follow see to
that. So a schema is read from the texts that spell it and from no others, and it is the only one
that the text spells.
-/

namespace WireSchema

open Cursor
open Rule (Before Tokenized)

namespace Reader

variable {α β γ : Type} {F G : Cursor → Prop}

theorem orElse_bind (p q : Rule α) (k : α → Rule β) :
    p.orElse q >>= k = (p >>= k).orElse (q >>= k) := by
  refine Rule.ext fun s b u => ⟨?_, ?_⟩
  · rintro ⟨a, t, ha | ha, hb⟩
    · exact .inl ⟨a, t, ha, hb⟩
    · exact .inr ⟨a, t, ha, hb⟩
  · rintro (⟨a, t, ha, hb⟩ | ⟨a, t, ha, hb⟩)
    · exact ⟨a, t, .inl ha, hb⟩
    · exact ⟨a, t, .inr ha, hb⟩

/-- Items that begin with a sign, as long as it comes next. -/
theorem Reads.manyWhile {f : α → γ} {q : Phrase γ} {c : Char} {r : Reader α} {p : Rule α}
    (h : Reads F r p) (hp : Before (fun s => s.next? = some c) p Anywhere)
    (htokens : Tokenized f p q) (hF : ∀ {s}, s.next? = some c → F s) :
    Reads (fun s => s.Avoids [c] ∧ F s) (Reader.many (·.startsWith [c]) r) (Rule.many p) :=
  h.many (hp.mono fun hc => ⟨startsWith_singleton.2 hc, hF hc⟩) htokens
    (hp.mono fun hc => ⟨c, hc, beq_self_eq_true c⟩) fun hs =>
      ⟨startsWith_singleton_eq_false hs.1, hs.2⟩

/-- Items up to a closing sign, with which none of them begins. -/
theorem Reads.manyUntil {f : α → γ} {q : Phrase γ} {opens : Char → Bool} {c : Char}
    {r : Reader α} {p : Rule α} (h : Reads F r p) (hp : Before (Opens opens) p Anywhere)
    (htokens : Tokenized f p q) (hc : opens c = false) (hF : ∀ {s}, s.Opens opens → F s)
    (hend : ∀ {s}, s.next? = some c → F s) :
    Reads (fun s => s.next? = some c) (Reader.many (!·.startsWith [c]) r) (Rule.many p) := by
  refine h.many (hp.mono fun hs => ⟨?_, hF hs⟩) htokens hp fun hs => ⟨?_, hend hs⟩
  · rw [startsWith_singleton_eq_false (hs.avoids (by simpa using hc))]
    rfl
  · rw [startsWith_singleton.2 hs]
    rfl

/-! ## Types -/

/-- Behind a type comes neither of the brackets that it could go on with. -/
abbrev TypeEnds : Cursor → Prop := Avoids ['<', '[']

theorem before_size : Before (fun s => s.next? = some '[') Rule.size G :=
  (before_next? rfl (by decide)).first

theorem reads_sizes : Reads (fun s => s.Avoids ['['] ∧ Anywhere s)
    (many (·.startsWith ['[']) do
      sign "["
      let (n, _) ← integer
      sign "]"
      return n) (Rule.many Rule.size) := by
  refine Reads.manyWhile ?_ before_size Rule.tokenized_size fun _ => trivial
  exact (reads_sign rfl (by decide)).andThen fun _ => reads_integer.andThen fun _ =>
    (reads_sign rfl (by decide)).andThen fun _ => .pure _

/-- A type whose base is read is an array of it for each size that follows. -/
theorem reads_arrays (base : TypeExpr) : Reads TypeEnds
    (do
      let sizes ← many (·.startsWith ['[']) do
        sign "["
        let (n, _) ← integer
        sign "]"
        return n
      return sizes.foldl TypeExpr.array base)
    (do
      let sizes ← Rule.many Rule.size
      return sizes.foldl TypeExpr.array base) :=
  reads_sizes.bind (fun _ => .pure fun h => ⟨h.mono (by simp), trivial⟩) fun _ => .pure _

theorem before_further {p : Rule α} :
    Before (fun s => s.next? = some ',') (do Rule.sign ","; p) G :=
  (before_next? rfl (by decide)).first

theorem Reads.further {f : α → γ} {r : Reader α} {p : Rule α} {q : Phrase γ}
    (h : Reads TypeEnds r p) (htokens : Tokenized f p q) :
    Reads (fun s => s.Avoids [','] ∧ TypeEnds s)
      (Reader.many (·.startsWith [',']) do sign ","; r) (Rule.many do Rule.sign ","; p) :=
  Reads.manyWhile ((reads_sign rfl (by decide)).andThen fun _ => h) before_further
    htokens.further fun h => avoids_of_next? h (by decide)

theorem before_typeUpTo (n : Nat) : Before (Opens isNameStart) (Rule.typeUpTo n) G := by
  cases n with
  | zero => exact ⟨fun h _ => h.elim⟩
  | succ n => exact before_name.first

theorem reads_typeUpTo (n : Nat) : Reads TypeEnds (typeUpTo n) (Rule.typeUpTo n) := by
  induction n with
  | zero => exact ⟨fun h => (by cases h), fun h => h.elim⟩
  | succ n ih =>
    have hmore := ih.further (Rule.tokenized_typeUpTo n)
    have hclose : Reads Anywhere (sign ">") (Rule.sign ">") := reads_sign rfl (by decide)
    change Reads _ (name >>= _) (Rule.name >>= _)
    refine reads_name.andThen fun ⟨head, l⟩ => ?_
    simp only [orElse_bind, bind_assoc, pure_bind]
    refine .branch ((reads_sign rfl (by decide)).andThen fun _ => ih.bind (fun first => ?_)
      fun first => hmore.bind (fun more => ?_) fun more =>
        hclose.andThen fun _ => reads_arrays _) (reads_arrays _)
      (before_sign rfl (by decide)).first ?_
    · -- behind the first type comes a comma or the closing bracket
      refine .bind (.many (before_further.mono fun h => ?_) fun h => ?_) fun _ =>
        (before_next? rfl (by decide)).first
      · exact avoids_of_next? h (by decide)
      · exact avoids_of_next? h (by decide)
    · exact ((before_next? rfl (by decide)).mono fun h =>
        ⟨avoids_of_next? h (by decide), avoids_of_next? h (by decide)⟩).first
    · -- behind a name alone comes a size, or what ends the type
      refine .bind (.many (before_size.mono fun h => ?_) fun h => ?_) fun _ => .pure id
      · exact startsWith_singleton_eq_false (avoids_of_next? h (by decide))
      · exact startsWith_singleton_eq_false (c := '<') (h.mono (by simp))

theorem before_type : Before (Opens isNameStart) Rule.type G where
  holds h _ :=
    (before_typeUpTo _).holds (G := Anywhere) ((Rule.typeUpTo_of_type h).2.2 _ (Nat.lt_succ_self _))
      trivial

/-- A type is read with its place. -/
theorem reads_type : Reads TypeEnds
    (do
      let l ← fun s => .ok (s.token.location, s)
      let e ← type
      return (e, l)) Rule.type where
  sound {s x t} h := by
    change (type s >>= fun y => .ok ((y.1, s.token.location), y.2)) = _ at h
    cases htype : type s with
    | error l =>
      rw [htype] at h
      cases h
    | ok y =>
      rw [htype] at h
      cases h
      exact Rule.type_of_typeUpTo ((reads_typeUpTo _).sound htype)
  complete {s x t} h ht := by
    obtain ⟨e, l⟩ := x
    obtain rfl : l = s.token.location := (Rule.typeUpTo_of_type h).1
    have htype : type s = .ok (e, t) := (reads_typeUpTo _).complete
      ((Rule.typeUpTo_of_type h).2.2 _ (Nat.lt_succ_self _)) ht
    change (type s >>= fun y => .ok ((y.1, s.token.location), y.2)) = _
    rw [htype]
    rfl

/-- A type is read without its place. -/
theorem Reads.type {k : TypeExpr → Reader β} {q : TypeExpr × Location → Rule β}
    (hq : ∀ x, Before TypeEnds (q x) G) (hk : ∀ x, Reads G (k x.1) (q x)) :
    Reads G (Reader.type >>= k) (Rule.type >>= q) := by
  have hread : (Reader.type >>= k) = (do
      let l ← fun s => .ok (s.token.location, s)
      let e ← Reader.type
      return (e, l)) >>= fun x => k x.1 := by
    funext s
    change (Reader.type s >>= fun y => k y.1 y.2) =
      (Reader.type s >>= fun y => .ok ((y.1, s.token.location), y.2)) >>= fun y => k y.1.1 y.2
    cases Reader.type s <;> rfl
  rw [hread]
  exact reads_type.bind hq hk

/-! ## Annotations -/

/-- A literal of any kind. -/
def anyLiteral : Rule (Literal × Location) :=
  Rule.orElse Rule.literalString (Rule.orElse Rule.literalInteger Rule.literalName)

theorem before_string : Before (fun s => s.next? = some '\x22') Rule.string G :=
  ⟨fun h _ => Rule.head_of_covers (Rule.string_iff.1 h).1 rfl⟩

theorem before_integer : Before (Opens Char.isDigit) Rule.integer G :=
  Before.first ⟨fun h _ => ((Rule.stretch_iff (by decide)).1 h).exists_head⟩

/-- The first character of a literal tells of which kind it is. -/
theorem literal_of_next? {s : Cursor} {c : Char} (h : s.next? = some c) :
    literal s = (if c = '\x22' then do let (t, l) ← string; return (Literal.string t, l)
      else if c.isDigit then do let (n, l) ← integer; return (Literal.integer n, l)
      else do let (t, l) ← name; return (Literal.name t, l) : Reader (Literal × Location)) s := by
  obtain ⟨cs, hrest⟩ := List.head?_eq_some_iff.1 h
  rw [literal, hrest]
  dsimp only
  split
  · rfl
  · split <;> rfl

theorem literal_of_empty {s : Cursor} (h : s.next? = none) : literal s = .error s.token := by
  have hrest : s.token.rest = [] := List.head?_eq_none_iff.1 h
  rw [literal, hrest]
  rfl

theorem not_isDigit_of_isNameStart {c : Char} (h : isNameStart c = true) :
    ¬ c.isDigit = true := by
  simp only [isNameStart, Bool.or_eq_true, decide_eq_true_eq] at h
  rcases h with halpha | rfl
  · delta Char.isAlpha Char.isUpper Char.isLower at halpha
    delta Char.isDigit
    grind
  · decide

theorem reads_literal : Reads Anywhere literal anyLiteral := by
  have hstring : Reads Anywhere (do let (t, l) ← string; return (Literal.string t, l))
      Rule.literalString := reads_string.andThen fun _ => .pure _
  have hinteger : Reads Anywhere (do let (n, l) ← integer; return (Literal.integer n, l))
      Rule.literalInteger := reads_integer.andThen fun _ => .pure _
  have hname : Reads Anywhere (do let (t, l) ← name; return (Literal.name t, l))
      Rule.literalName := reads_name.andThen fun _ => .pure _
  refine ⟨fun {s x t} h => ?_, fun {s x t} h ht => ?_⟩
  · cases hs : s.next? with
    | none =>
      rw [literal_of_empty hs] at h
      cases h
    | some c =>
      rw [literal_of_next? hs] at h
      split at h
      · exact .inl (hstring.sound h)
      · split at h
        · exact .inr (.inl (hinteger.sound h))
        · exact .inr (.inr (hname.sound h))
  · rcases h with h | h | h
    · rw [literal_of_next? ((Before.first (G := Anywhere) before_string).holds h ht), if_pos rfl]
      exact hstring.complete h ht
    · obtain ⟨c, hc, hdigit⟩ := (Before.first (G := Anywhere) before_integer).holds h ht
      have hmark : c ≠ '\x22' := by
        rintro rfl
        cases hdigit
      rw [literal_of_next? hc, if_neg hmark, if_pos hdigit]
      exact hinteger.complete h ht
    · obtain ⟨c, hc, hstart⟩ := (Before.first (G := Anywhere) before_name).holds h ht
      have hmark : c ≠ '\x22' := by
        rintro rfl
        cases hstart
      rw [literal_of_next? hc, if_neg hmark, if_neg (not_isDigit_of_isNameStart hstart)]
      exact hname.complete h ht

/-- What an argument is, once its first literal is known. -/
def argumentOf (x : Literal × Location) : Rule Argument :=
  match x with
  | (.name key, l) => Rule.orElse
    (do
      Rule.sign "="
      let (v, vl) ← anyLiteral
      return .keyed key v l vl)
    (return .flag key l)
  | (v, l) => return .bare v l

theorem argument_eq : Rule.argument = anyLiteral >>= argumentOf := by
  refine Rule.ext fun s a u => ⟨?_, ?_⟩
  · rintro (⟨⟨key, l⟩, t, hname, hvalue⟩ | ⟨⟨key, l⟩, t, hname, ha⟩ |
      ⟨⟨v, l⟩, t, hv | hv, ha⟩)
    · exact ⟨(.name key, l), t, .inr (.inr ⟨(key, l), t, hname, rfl, rfl⟩), .inl hvalue⟩
    · exact ⟨(.name key, l), t, .inr (.inr ⟨(key, l), t, hname, rfl, rfl⟩), .inr ha⟩
    · obtain ⟨⟨text, l⟩, t, hstring, hv, rfl⟩ := hv
      cases hv
      exact ⟨(.string text, l), t, .inl ⟨(text, l), t, hstring, rfl, rfl⟩, ha⟩
    · obtain ⟨⟨n, l⟩, t, hinteger, hv, rfl⟩ := hv
      cases hv
      exact ⟨(.integer n, l), t, .inr (.inl ⟨(n, l), t, hinteger, rfl, rfl⟩), ha⟩
  · rintro ⟨x, t, hx | hx | hx, ha⟩
    · obtain ⟨⟨text, l⟩, t, hstring, rfl, rfl⟩ := hx
      exact .inr (.inr ⟨_, t, .inl ⟨(text, l), t, hstring, rfl, rfl⟩, ha⟩)
    · obtain ⟨⟨n, l⟩, t, hinteger, rfl, rfl⟩ := hx
      exact .inr (.inr ⟨_, t, .inr ⟨(n, l), t, hinteger, rfl, rfl⟩, ha⟩)
    · obtain ⟨⟨key, l⟩, t, hname, rfl, rfl⟩ := hx
      rcases ha with hvalue | ha
      · exact .inl ⟨(key, l), t, hname, hvalue⟩
      · exact .inr (.inl ⟨(key, l), t, hname, ha⟩)

theorem reads_argument : Reads (Avoids ['=']) argument Rule.argument := by
  rw [argument_eq]
  refine reads_literal.andThen fun ⟨value, l⟩ => ?_
  cases value with
  | name key =>
    refine .branch ((reads_sign rfl (by decide)).andThen fun _ =>
      reads_literal.andThen fun _ => .pure _) (.pure _) (before_sign rfl (by decide)).first
      (.pure startsWith_singleton_eq_false)
  | string | codePoints | integer => exact .pure _

/-- What a literal begins with. -/
def opensLiteral (c : Char) : Bool := c = '\x22' || c.isDigit || isNameStart c

theorem before_anyLiteral : Before (Opens opensLiteral) anyLiteral G := by
  refine .orElse (before_string.mono fun h => ⟨_, h, by decide⟩).first
    (.orElse (before_integer.mono fun h => h.mono fun c hc => ?_).first
      (before_name.mono fun h => h.mono fun c hc => ?_).first)
  · simp [opensLiteral, hc]
  · simp [opensLiteral, hc]

theorem before_argument : Before (Opens opensLiteral) Rule.argument G := by
  rw [argument_eq]
  exact before_anyLiteral.first

theorem before_block : Before (fun s => s.next? = some '@') Rule.block G :=
  (before_next? rfl (by decide)).first

theorem Reads.closed {r : Reader (List α)} {p : Rule α} {k : List α → Reader β}
    {q : List α → Rule β} (hr : Reads Anywhere r (Rule.closed p))
    (hk : ∀ as, Reads G (k as) (q as)) :
    Reads G (r >>= k) (do
      let as ← Rule.listed p
      Rule.sign ")"
      q as) := by
  have h := hr.andThen hk
  simpa only [Rule.closed, bind_assoc, pure_bind] using h

theorem reads_block : Reads Anywhere block Rule.block := by
  have harguments : Reads Anywhere (commaSeparated ")" argument) (Rule.closed Rule.argument) :=
    reads_commaSeparated reads_argument
      (before_argument.mono fun h => h.avoids (by decide))
      (fun h => h.elim (avoids_of_next? · (by decide)) (avoids_of_next? · (by decide)))
      (Rule.length_lt_of_tokenized Rule.tokenized_argument before_argument)
  refine (reads_sign rfl (by decide)).andThen fun _ => reads_name.andThen fun ⟨n, l⟩ =>
    (reads_sign rfl (by decide)).andThen fun _ => harguments.closed fun _ => .pure _

theorem reads_blocks : Reads (fun s => s.Avoids ['@'] ∧ Anywhere s) blocks (Rule.many Rule.block) :=
  reads_block.manyWhile before_block Rule.tokenized_block fun _ => trivial

/-! ## Fields -/

/-- What annotations and a name, or a name alone, begin with. -/
def opensItem (c : Char) : Bool := c = '@' || isNameStart c

theorem before_item {k : List AnnotationBlock → Rule α}
    (hk : ∀ annotations, Before (Opens isNameStart) (k annotations) G) :
    Before (Opens opensItem) (Rule.many Rule.block >>= k) G := by
  refine .bind (.many (before_block.mono fun h => ⟨_, h, by decide⟩) fun h => h)
    fun annotations => (hk annotations).mono fun h => h.mono fun c hc => ?_
  simp [opensItem, hc]

/-- Behind annotations comes what is annotated. -/
theorem before_named {p : Rule α} (hp : Before (Opens isNameStart) p G) :
    Before (fun s => s.Avoids ['@'] ∧ Anywhere s) p G :=
  hp.mono fun h => ⟨h.avoids (by decide), trivial⟩

/-- Behind a field comes neither a bracket that its type could go on with nor a comma. -/
abbrev FieldEnds : Cursor → Prop := Avoids ['<', '[', ',']

theorem reads_comma {k : Reader β} {q : Rule β} (hk : Reads G k q)
    (hq : Before (Avoids [',']) q G) :
    Reads G (do
      if ← nextIs "," then
        sign ","
        k
      else k) (do
      Rule.optionally (Rule.sign ",")
      q) := by
  rw [Rule.optionally, orElse_bind, pure_bind]
  exact .branch ((reads_sign rfl (by decide)).andThen fun _ => hk) hk
    (before_sign rfl (by decide)).first (hq.mono startsWith_singleton_eq_false)

theorem before_namedItem : Before (Opens opensItem) Rule.namedItem G :=
  (before_item fun _ => before_name.first).first

theorem reads_namedField : Reads FieldEnds namedField Rule.namedItem := by
  simp only [Rule.namedItem, Rule.namedField, bind_assoc, pure_bind]
  refine reads_blocks.bind (fun _ => ?_) fun annotations => reads_name.andThen fun ⟨n, l⟩ =>
    (reads_sign rfl (by decide)).andThen fun _ => ?_
  · exact before_named before_name.first
  · refine Reads.type (fun ⟨e, m⟩ => ?_) fun ⟨e, m⟩ => ?_
    · refine .bind (.orElse ((before_next? rfl (by decide)).mono fun h => ?_) (.pure id)) fun _ =>
        .pure fun h => h.mono (by simp)
      exact avoids_of_next? h (by decide)
    · exact reads_comma (.pure _) (.pure fun h => h.mono (by simp))

theorem before_tupleField : Before (Opens opensItem) Rule.tupleField G :=
  before_item fun _ => before_type.first

theorem reads_tupleField : Reads TypeEnds tupleField Rule.tupleField := by
  refine reads_blocks.bind (fun _ => before_named before_type.first) fun annotations => ?_
  have h := reads_type.bind (k := fun x => pure (⟨none, 0, x.1, annotations, x.2⟩ : Field))
    (fun _ => .pure id) fun _ => .pure (F := TypeEnds) _
  simp only [bind_assoc, pure_bind] at h
  exact h

/-! ## Bodies -/

/-- Behind a body comes no brace or bracket that opens one. -/
abbrev BodyEnds : Cursor → Prop := Avoids ['\x7b', '(']

theorem reads_namedBody : Reads Anywhere
    (do
      sign "\x7b"
      let fields ← many (!·.startsWith ['\x7d']) namedField
      sign "\x7d"
      return (Shape.named, numbered fields)) Rule.namedBody := by
  have hfields := reads_namedField.manyUntil (c := '\x7d') before_namedItem
    Rule.tokenized_namedItem (by decide) (fun h => h.avoids (by decide))
    (fun h => avoids_of_next? h (by decide))
  exact (reads_sign rfl (by decide)).andThen fun _ =>
    hfields.bind (fun _ => (before_next? rfl (by decide)).first) fun _ =>
      (reads_sign rfl (by decide)).andThen fun _ => .pure _

theorem reads_tupleBody : Reads Anywhere
    (do
      sign "("
      let fields ← commaSeparated ")" tupleField
      return (Shape.tuple, numbered fields)) Rule.tupleBody := by
  have hfields : Reads Anywhere (commaSeparated ")" tupleField) (Rule.closed Rule.tupleField) :=
    reads_commaSeparated reads_tupleField (before_tupleField.mono fun h => h.avoids (by decide))
      (fun h => h.elim (avoids_of_next? · (by decide)) (avoids_of_next? · (by decide)))
      (Rule.length_lt_of_tokenized Rule.tokenized_tupleField before_tupleField)
  exact (reads_sign rfl (by decide)).andThen fun _ => hfields.closed fun _ => .pure _

theorem before_namedBody : Before (fun s => s.next? = some '\x7b') Rule.namedBody G :=
  (before_next? rfl (by decide)).first

theorem before_tupleBody : Before (fun s => s.next? = some '(') Rule.tupleBody G :=
  (before_next? rfl (by decide)).first

theorem reads_body : Reads BodyEnds body Rule.body := by
  refine .branch (reads_namedBody.mono fun _ => trivial)
    (.branch (reads_tupleBody.mono fun _ => trivial) (.pure _)
      (before_tupleBody.mono startsWith_singleton.2) (.pure fun h => ?_))
    (before_namedBody.mono startsWith_singleton.2)
    (.orElse (before_tupleBody.mono fun h => ?_) (.pure fun h => ?_))
  · exact startsWith_singleton_eq_false (c := '(') (h.mono (by simp))
  · exact startsWith_singleton_eq_false (avoids_of_next? h (by decide))
  · exact startsWith_singleton_eq_false (c := '\x7b') (h.mono (by simp))

/-! ## Variants -/

/-- Behind a variant comes neither what opens a body nor what introduces a tag. -/
abbrev VariantEnds : Cursor → Prop := Avoids ['\x7b', '(', '=']

theorem before_writtenTag : Before (fun s => s.next? = some '=') Rule.writtenTag G :=
  (before_next? rfl (by decide)).first

theorem before_variant : Before (Opens opensItem) Rule.variant G :=
  before_item fun _ => before_name.first

theorem reads_variant : Reads VariantEnds variant Rule.variant := by
  refine reads_blocks.bind (fun _ => before_named before_name.first) fun annotations =>
    reads_name.andThen fun ⟨n, l⟩ => reads_body.bind (fun ⟨shape, fields⟩ => ?_)
      fun ⟨shape, fields⟩ => ?_
  · refine .bind (.orElse (before_writtenTag.mono fun h => ?_) (.pure id)) fun _ =>
      .pure (G := VariantEnds) fun h => h.mono (by simp)
    exact avoids_of_next? h (by decide)
  · simp only [orElse_bind, pure_bind, Rule.writtenTag, bind_assoc]
    refine .branch ((reads_sign rfl (by decide)).andThen fun _ =>
      reads_discriminant.andThen fun _ => .pure _) (.pure _)
      (before_sign rfl (by decide)).first (.pure fun h => ?_)
    exact startsWith_singleton_eq_false (c := '=') (h.mono (by simp))

/-! ## Declarations -/

/-- What stands behind the annotations of a record. -/
def plainRecord (annotations : List AnnotationBlock) : Rule Record := do
  Rule.sign "struct"
  let (n, l) ← Rule.name
  let (shape, fields) ← Rule.body
  return ⟨n, shape, fields, annotations, l⟩

/-- What stands behind the annotations of a union. -/
def plainUnion (annotations : List AnnotationBlock) : Rule Union := do
  Rule.sign "union"
  let (n, l) ← Rule.name
  Rule.sign "\x7b"
  let variants ← Rule.many Rule.variant
  Rule.sign "\x7d"
  return ⟨n, variants, annotations, l⟩

theorem reads_record (annotations : List AnnotationBlock) :
    Reads BodyEnds (record annotations) (plainRecord annotations) :=
  (reads_sign rfl (by decide)).andThen fun _ => reads_name.andThen fun ⟨_, _⟩ =>
    reads_body.bind (fun _ => .pure id) fun _ => .pure _

theorem reads_union (annotations : List AnnotationBlock) :
    Reads Anywhere (union annotations) (plainUnion annotations) := by
  have hvariants := reads_variant.manyUntil (c := '\x7d') before_variant Rule.tokenized_variant
    (by decide) (fun h => h.avoids (by decide)) (fun h => avoids_of_next? h (by decide))
  exact (reads_sign rfl (by decide)).andThen fun _ => reads_name.andThen fun ⟨_, _⟩ =>
    (reads_sign rfl (by decide)).andThen fun _ =>
      hvariants.bind (fun _ => (before_next? rfl (by decide)).first) fun _ =>
        (reads_sign rfl (by decide)).andThen fun _ => .pure _

theorem bind_orElse (p : Rule α) (k l : α → Rule β) :
    (do let a ← p; (k a).orElse (l a)) = (p >>= k).orElse (p >>= l) := by
  refine Rule.ext fun s b u => ⟨?_, ?_⟩
  · rintro ⟨a, t, ha, hb | hb⟩
    · exact .inl ⟨a, t, ha, hb⟩
    · exact .inr ⟨a, t, ha, hb⟩
  · rintro (⟨a, t, ha, hb⟩ | ⟨a, t, ha, hb⟩)
    · exact ⟨a, t, ha, .inl hb⟩
    · exact ⟨a, t, ha, .inr hb⟩

/-- What stands behind the annotations of a declaration. -/
def plainDeclaration (annotations : List AnnotationBlock) : Rule (Record ⊕ Union) :=
  Rule.orElse (do return .inl (← plainRecord annotations))
    (do return .inr (← plainUnion annotations))

/-- Records and unions begin alike, and the keyword behind the annotations tells them apart. -/
theorem declaration_eq :
    Rule.declaration = Rule.many Rule.block >>= plainDeclaration := by
  change _ = Rule.many Rule.block >>= fun annotations => plainDeclaration annotations
  simp only [plainDeclaration, plainRecord, plainUnion, bind_orElse, Rule.declaration, Rule.record,
    Rule.union, bind_assoc, pure_bind]

theorem before_plainRecord (annotations : List AnnotationBlock) :
    Before (fun s => s.startsWith "struct".toList = true) (plainRecord annotations) G :=
  (before_sign (c := 's') rfl (by decide)).first

theorem before_plainUnion (annotations : List AnnotationBlock) :
    Before (fun s => s.next? = some 'u') (plainUnion annotations) G :=
  (before_next? rfl (by decide)).first

/-- The keywords begin like names. -/
theorem before_plainDeclaration (annotations : List AnnotationBlock) :
    Before (Opens isNameStart) (plainDeclaration annotations) G := by
  refine .orElse ((before_next? (c := 's') rfl (by decide)).mono fun h => ?_).first.first
    ((before_plainUnion annotations).mono fun h => ?_).first
  · exact ⟨_, h, by decide⟩
  · exact ⟨_, h, by decide⟩

theorem before_declaration : Before (Opens opensItem) Rule.declaration G := by
  rw [declaration_eq]
  exact before_item before_plainDeclaration

theorem startsWith_of_next? {s : Cursor} {c d : Char} {cs : List Char} (h : s.next? = some c)
    (hd : c ≠ d) : s.startsWith (d :: cs) = false := by
  obtain ⟨rest, hrest⟩ := List.head?_eq_some_iff.1 h
  rw [startsWith, hrest, List.isPrefixOf_cons_cons, beq_false_of_ne hd.symm, Bool.false_and]

theorem reads_declaration : Reads BodyEnds declaration Rule.declaration := by
  rw [declaration_eq]
  refine reads_blocks.bind (fun annotations => before_named (before_plainDeclaration annotations))
    fun annotations => ?_
  refine .branch ((reads_record annotations).bind (fun _ => .pure id) fun _ => .pure _)
    ((reads_union annotations).andThen fun _ => .pure _) (before_plainRecord annotations).first
    ((before_plainUnion annotations).mono fun h => ?_).first
  exact startsWith_of_next? h (by decide)

theorem length_lt_of_declaration {s t : Cursor} {d : Record ⊕ Union}
    (h : Rule.declaration s d t) : t.rest.length < s.rest.length :=
  Rule.length_lt_of_tokenized Rule.tokenized_declaration before_declaration h

/-- The declarations of a text are read as they are spelled, if nothing but a gap is behind them. -/
theorem reads_declarations :
    Reads (·.atEnd = true) declarations (Rule.many Rule.declaration) := by
  refine reads_declaration.many (before_declaration.mono fun h => ⟨?_, h.avoids (by decide)⟩)
    Rule.tokenized_declaration before_declaration fun h => ⟨by rw [h]; rfl, avoids_of_atEnd h _⟩
  obtain ⟨c, hc, -⟩ := h
  obtain ⟨rest, hrest⟩ := List.head?_eq_some_iff.1 hc
  rw [Cursor.atEnd, hrest]
  rfl

end Reader

end WireSchema
