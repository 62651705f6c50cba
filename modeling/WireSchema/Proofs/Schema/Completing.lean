import WireSchema.Proofs.Schema.Parallel
import WireSchema.Schema.Mark

/-!
# What can still follow

Where a reader stops, the tokens in front of that place begin something that its phrase spells: what
was read before is complete, what was begun can be completed, and whatever has to follow can be
written. It is shown for each reader in turn, and it is kept where readers are put together.
-/

namespace WireSchema

open Cursor

/-! ## Sequences of phrases -/

namespace Phrase

variable {α β : Type}

theorem ext {p q : Phrase α} (h : ∀ xs a, p xs a ↔ q xs a) : p = q :=
  funext fun xs => funext fun a => propext (h xs a)

instance : LawfulMonad Phrase := by
  refine LawfulMonad.mk' Phrase (fun p => ext fun xs a => ?_) (fun a k => ext fun xs b => ?_)
    fun p k l => ext fun xs c => ?_
  · constructor
    · rintro ⟨ys, _, _, rfl, h, rfl, rfl⟩
      rwa [List.append_nil]
    · exact fun h => ⟨xs, a, [], xs.append_nil.symm, h, rfl, rfl⟩
  · constructor
    · rintro ⟨_, _, ys, rfl, ⟨rfl, rfl⟩, h⟩
      exact h
    · exact fun h => ⟨[], a, xs, rfl, ⟨rfl, rfl⟩, h⟩
  · constructor
    · rintro ⟨_, b, zs, rfl, ⟨xs, a, ys, rfl, ha, hb⟩, hc⟩
      exact ⟨xs, a, ys ++ zs, List.append_assoc _ _ _, ha, ys, b, zs, rfl, hb, hc⟩
    · rintro ⟨xs, a, _, rfl, ha, ys, b, zs, rfl, hb, hc⟩
      exact ⟨xs ++ ys, b, zs, (List.append_assoc _ _ _).symm, ⟨xs, a, ys, rfl, ha, hb⟩, hc⟩

theorem orElse_bind (p q : Phrase α) (k : α → Phrase β) :
    p.orElse q >>= k = (p >>= k).orElse (q >>= k) := by
  refine ext fun xs b => ⟨?_, ?_⟩
  · rintro ⟨xs, a, ys, rfl, ha | ha, hb⟩
    · exact .inl ⟨xs, a, ys, rfl, ha, hb⟩
    · exact .inr ⟨xs, a, ys, rfl, ha, hb⟩
  · rintro (⟨xs, a, ys, rfl, ha, hb⟩ | ⟨xs, a, ys, rfl, ha, hb⟩)
    · exact ⟨xs, a, ys, rfl, .inl ha, hb⟩
    · exact ⟨xs, a, ys, rfl, .inr ha, hb⟩

theorem bind_orElse (p : Phrase α) (k l : α → Phrase β) :
    (do let a ← p; (k a).orElse (l a)) = (p >>= k).orElse (p >>= l) := by
  refine ext fun xs b => ⟨?_, ?_⟩
  · rintro ⟨xs, a, ys, rfl, ha, hb | hb⟩
    · exact .inl ⟨xs, a, ys, rfl, ha, hb⟩
    · exact .inr ⟨xs, a, ys, rfl, ha, hb⟩
  · rintro (⟨xs, a, ys, rfl, ha, hb⟩ | ⟨xs, a, ys, rfl, ha, hb⟩)
    · exact ⟨xs, a, ys, rfl, ha, .inl hb⟩
    · exact ⟨xs, a, ys, rfl, ha, .inr hb⟩

end Phrase

/-! ## Rows of tokens -/

/-- A token that some text has. -/
def Token.Writable (x : Token) : Prop := ∃ s t, x.Covers s t

/-- Tokens with a line feed in front of each, and one behind them. -/
def written : List Token → List Char
  | [] => ['\n']
  | x :: xs => '\n' :: (x.chars ++ written xs)

theorem head?_written (xs : List Token) : (written xs).head? = some '\n' := by
  cases xs <;> rfl

/-- A line feed does not prolong a token. -/
theorem Token.Writable.covers {x : Token} (h : x.Writable) {s t : Cursor}
    (hs : s.Covers x.chars t) (ht : t.rest.head? = some '\n') : x.Covers s t := by
  obtain ⟨_, _, hx⟩ := h
  have hstretch : ∀ {first p : Char → Bool} {text : String} {s₀ t₀ : Cursor}, p '\n' = false →
      Rule.Stretch first p s₀ (text, s₀.location) t₀ → s.Covers text.toList t →
        Rule.Stretch first p s (text, s.location) t := by
    intro first p text s₀ t₀ hp hx hs
    refine ⟨hs, rfl, hx.nonempty, hx.starts, hx.within, fun c hc => ?_⟩
    obtain rfl := Option.some.inj (ht.symm.trans hc)
    simp [hp]
  cases x with
  | sign text => exact ⟨hx.1, hs⟩
  | string body => exact ⟨hs, hx.2⟩
  | name | integer | discriminant => exact hstretch (by decide) hx hs

theorem tokens_written {xs : List Token} (hxs : ∀ x ∈ xs, x.Writable) {s : Cursor}
    (hs : s.rest = written xs) : ∃ t u, Tokens s xs t ∧ Gap t u ∧ u.rest = [] := by
  induction xs generalizing s with
  | nil =>
    refine ⟨s, ⟨[], s.location.next '\n'⟩, .nil s, ?_, rfl⟩
    exact .blank isLayout_lineFeed ⟨by rw [hs]; rfl, rfl⟩ (.nil _)
  | cons x xs ih =>
    obtain ⟨hx, hxs⟩ := List.forall_mem_cons.1 hxs
    have hfeed : s.Covers ['\n'] ⟨x.chars ++ written xs, s.location.advance ['\n']⟩ := ⟨hs, rfl⟩
    obtain ⟨t, u, htokens, hgap, hend⟩ := ih hxs (s := ⟨written xs, _⟩) rfl
    exact ⟨t, u, .cons (.blank isLayout_lineFeed hfeed (.nil _))
      (hx.covers ⟨rfl, rfl⟩ (head?_written xs)) htokens, hgap, hend⟩

theorem Tokens.writable {s t : Cursor} {xs : List Token} (h : Tokens s xs t) :
    ∀ x ∈ xs, x.Writable := by
  induction h with
  | nil => exact nofun
  | cons _ hx _ ih => exact List.forall_mem_cons.2 ⟨⟨_, _, hx⟩, ih⟩

/-! ## Completions -/

namespace Reader

variable {α β γ δ : Type} {f : α → γ} {g : β → δ}

/-- A row of tokens begins one that a phrase spells. -/
def Completable (f : α → γ) (q : Phrase γ) (xs : List Token) : Prop :=
  ∃ ys a, (∀ y ∈ ys, y.Writable) ∧ q (xs ++ ys) (f a)

/-- What a reader takes is spelled by the phrase, and where it stops the phrase can be completed. -/
structure Follows (f : α → γ) (r : Reader α) (q : Phrase γ) : Prop where
  read : ∀ {s a t}, r s = .ok (a, t) → ∃ xs, Tokens s xs t ∧ q xs (f a)
  stops : ∀ {s e}, r s = .error e →
    ∃ xs t, Tokens s xs t ∧ Gap t e ∧ e.GapFree ∧ Completable f q xs
  any : Completable f q []

namespace Follows

theorem mono {r : Reader α} {q q' : Phrase γ} (h : Follows f r q)
    (hq : ∀ {xs c}, q xs c → q' xs c) : Follows f r q' where
  read hr := by
    obtain ⟨xs, hxs, ha⟩ := h.read hr
    exact ⟨xs, hxs, hq ha⟩
  stops hr := by
    obtain ⟨xs, t, hxs, hgap, hfree, ys, a, hys, ha⟩ := h.stops hr
    exact ⟨xs, t, hxs, hgap, hfree, ys, a, hys, hq ha⟩
  any := by
    obtain ⟨ys, a, hys, ha⟩ := h.any
    exact ⟨ys, a, hys, hq ha⟩

theorem pure {a : α} {c : γ} (h : f a = c) : Follows f (pure a) (pure c) where
  read hr := by
    cases hr
    exact ⟨[], .nil _, rfl, h⟩
  stops := nofun
  any := ⟨[], a, nofun, rfl, h⟩

theorem bind {r : Reader α} {q : Phrase γ} {k : α → Reader β} {l : γ → Phrase δ}
    (hr : Follows f r q) (hk : ∀ a, Follows g (k a) (l (f a))) :
    Follows g (r >>= k) (q >>= l) where
  read h := by
    obtain ⟨a, t, ha, hb⟩ := Parallel.bind_ok h
    obtain ⟨xs, hxs, hq⟩ := hr.read ha
    obtain ⟨ys, hys, hl⟩ := (hk a).read hb
    exact ⟨xs ++ ys, hxs.append hys, xs, f a, ys, rfl, hq, hl⟩
  stops h := by
    rcases Parallel.bind_error h with h | ⟨a, t, ha, hb⟩
    · obtain ⟨xs, t, hxs, hgap, hfree, ys, a, hys, hq⟩ := hr.stops h
      obtain ⟨zs, b, hzs, hl⟩ := (hk a).any
      refine ⟨xs, t, hxs, hgap, hfree, ys ++ zs, b, ?_, xs ++ ys, f a, zs, ?_, hq, hl⟩
      · exact List.forall_mem_append.2 ⟨hys, hzs⟩
      · rw [List.append_assoc]
    · obtain ⟨xs, hxs, hq⟩ := hr.read ha
      obtain ⟨ys, u, hys, hgap, hfree, zs, b, hzs, hl⟩ := (hk a).stops hb
      refine ⟨xs ++ ys, u, hxs.append hys, hgap, hfree, zs, b, hzs, xs, f a, ys ++ zs, ?_, hq, hl⟩
      rw [List.append_assoc]
  any := by
    obtain ⟨ys, a, hys, hq⟩ := hr.any
    obtain ⟨zs, b, hzs, hl⟩ := (hk a).any
    exact ⟨ys ++ zs, b, List.forall_mem_append.2 ⟨hys, hzs⟩, ys, f a, zs, rfl, hq, hl⟩

/-- A choice between readers of the same phrase. -/
theorem look {ι : Type} {q : Phrase γ} {k : ι → Reader α} (hk : ∀ i, Follows f (k i) q)
    (c : Cursor → ι) (i : ι) : Follows f (fun s => k (c s) s) q where
  read h := (hk _).read h
  stops h := (hk _).stops h
  any := (hk i).any

theorem branch {text : String} {r l : Reader α} {q : Phrase γ} (hr : Follows f r q)
    (hl : Follows f l q) : Follows f (do if ← nextIs text then r else l) q where
  read {s _ _} h := by
    rw [branch_apply] at h
    split at h
    · exact hr.read h
    · exact hl.read h
  stops {s _} h := by
    rw [branch_apply] at h
    split at h
    · exact hr.stops h
    · exact hl.stops h
  any := hr.any

/-- A reader for one token, which can be written. -/
theorem token {r : Reader α} {q : Phrase γ}
    (hread : ∀ {s a t}, r s = .ok (a, t) → ∃ xs, Tokens s xs t ∧ q xs (f a))
    (hstop : ∀ {s u}, r s = .error u → u = s.token) {x : Token} (hx : x.Writable) (a : α)
    (hq : q [x] (f a)) : Follows f r q where
  read := hread
  stops {s e} h := by
    obtain rfl := hstop h
    exact ⟨[], s, .nil s, gap_token s, token_gapFree s, [x], a, by simpa using hx, hq⟩
  any := ⟨[x], a, by simpa using hx, hq⟩

theorem manyUpTo {r : Reader α} {q : Phrase γ} (hr : Follows f r q) (more : Cursor → Bool)
    (n : Nat) : Follows (List.map f) (manyUpTo more r n) q.many := by
  have hnil : Follows (List.map f) (Pure.pure [] : Reader (List α)) q.many :=
    (pure rfl).mono fun ⟨hxs, hc⟩ => by
      subst hxs hc
      exact .nil
  induction n with
  | zero => exact hnil
  | succ n ih =>
    rw [manyUpTo_succ]
    refine .look (k := itemsIf r _) (fun b => ?_) more false
    cases b with
    | false => exact hnil
    | true =>
      refine (bind (g := List.map f) (l := fun c => do let cs ← q.many; return c :: cs) hr
        fun a => bind ih fun as => pure rfl).mono ?_
      rintro _ _ ⟨xs, a, _, rfl, ha, ys, as, _, rfl, has, rfl, rfl⟩
      rw [List.append_nil]
      exact .cons ha has

theorem many {r : Reader α} {q : Phrase γ} (hr : Follows f r q) (more : Cursor → Bool) :
    Follows (List.map f) (many more r) q.many where
  read {s _ _} h := (hr.manyUpTo more s.rest.length).read h
  stops {s _} h := (hr.manyUpTo more s.rest.length).stops h
  any := (hr.manyUpTo more 0).any

end Follows

/-! ## Tokens -/

theorem writable_sign {text : String} (h : text.toList ≠ []) : (Token.sign text).Writable :=
  ⟨⟨text.toList ++ [], .start⟩, ⟨[], _⟩, h, rfl, rfl⟩

theorem writable_stretch {first p : Char → Bool} {text : String} {c : Char} (x : String → Token)
    (hx : ∀ s t, (x text).Covers s t ↔ Rule.Stretch first p s (text, s.location) t)
    (htext : text.toList = [c]) (hfirst : first c = true) (hp : p c = true) :
    (x text).Writable :=
  ⟨⟨text.toList ++ [], .start⟩, ⟨[], _⟩, (hx _ _).2 ⟨⟨rfl, rfl⟩, rfl, by simp [htext],
    by simpa [htext] using hfirst, by simpa [htext] using hp, nofun⟩⟩

theorem follows_sign {text : String} {c : Char} (hc : text.toList.head? = some c)
    (hstart : startsToken c = true) : Follows id (sign text) (Phrase.sign text) := by
  have hne : text.toList ≠ [] := List.ne_nil_of_mem (List.mem_of_head? hc)
  exact .token (fun h => (Rule.tokenized_sign hne).tokens ((reads_sign hc hstart).sound h))
    eq_of_sign_error (writable_sign hne) () rfl

theorem follows_stretch {first p : Char → Bool} {q : Phrase String} (x : String → Token)
    (hq : ∀ {xs text}, q xs text ↔ xs = [x text])
    (hx : ∀ text s t, (x text).Covers s t ↔ Rule.Stretch first p s (text, s.location) t)
    (hfirst : gapStarts.any first = false) (hp : ∀ c, first c = true → p c = true)
    (text : String) {c : Char} (htext : text.toList = [c]) (hc : first c = true) :
    Follows Prod.fst (stretch first p) q :=
  .token (fun h => (Rule.tokenized_stretch x hq hx).tokens ((reads_stretch hfirst hp).sound h))
    eq_of_stretch_error (writable_stretch x (hx text) htext hc (hp c hc)) (text, .start)
    (hq.2 rfl)

theorem follows_name : Follows Prod.fst name Phrase.name :=
  follows_stretch .name .rfl (fun _ _ _ => .rfl) (by decide) (fun c hc => by
    simp only [isNameStart, isNameChar, Char.isAlphanum] at hc ⊢
    grind) "a" rfl (by decide)

theorem follows_integer : Follows Prod.fst integer Phrase.integer :=
  .bind (follows_stretch .integer .rfl (fun _ _ _ => .rfl) (by decide) (fun _ hc => hc) "0"
    rfl (by decide)) fun _ => .pure rfl

theorem follows_discriminant : Follows id discriminant Phrase.discriminant := by
  have h : Follows Prod.fst (stretch isDiscriminantChar isDiscriminantChar) Phrase.discriminant :=
    follows_stretch .discriminant .rfl (fun _ _ _ => .rfl) (by decide) (fun _ hc => hc) "0"
      rfl (by decide)
  refine (Follows.bind (g := id) (l := fun d => Pure.pure d) h fun ⟨_, _⟩ => .pure rfl).mono ?_
  rintro _ _ ⟨xs, d, _, rfl, hd, rfl, rfl⟩
  rwa [List.append_nil]

theorem follows_string : Follows Prod.fst string Phrase.string := by
  have hwritable : (Token.string "").Writable :=
    ⟨⟨['\x22', '\x22'], .start⟩, ⟨[], _⟩, ⟨rfl, rfl⟩, .nil⟩
  exact .token (fun h => Rule.tokenized_string.tokens (reads_string.sound h)) eq_of_string_error
    hwritable ("", .start) rfl

/-! ## Lists -/

/-- Items with a comma between them, perhaps one more, and the closing sign. -/
def closedRow (q : Phrase γ) : Phrase (List γ) := do
  let as ← Phrase.listed q
  Phrase.sign ")"
  return as

theorem closedRow_iff {q : Phrase γ} {xs : List Token} {cs : List γ} :
    closedRow q xs cs ↔ ∃ ys, xs = ys ++ [.sign ")"] ∧ Phrase.listed q ys cs := by
  constructor
  · rintro ⟨ys, cs, _, rfl, hys, _, _, _, rfl, rfl, rfl, rfl⟩
    exact ⟨ys, rfl, hys⟩
  · rintro ⟨ys, rfl, hys⟩
    exact ⟨ys, cs, _, rfl, hys, _, (), [], rfl, rfl, rfl, rfl⟩

/-- An item goes in front of others with a comma. -/
theorem listed_cons {q : Phrase γ} {xs ys : List Token} {c : γ} {cs : List γ} (hc : q xs c)
    (hcs : Phrase.listed q ys cs) : Phrase.listed q (xs ++ .sign "," :: ys) (c :: cs) := by
  rcases hcs with ⟨rfl, rfl⟩ | ⟨xs', c', _, rfl, hc', zs, more, _, rfl, hmore, us, _, _, rfl, hus,
    rfl, rfl⟩
  · exact .inr ⟨xs, c, _, rfl, hc, [], [], _, rfl, .nil, [.sign ","], (), [], rfl, .inl rfl, rfl,
      rfl⟩
  · have hnext : (do Phrase.sign ","; q : Phrase γ) (.sign "," :: xs') c' :=
      ⟨[.sign ","], (), xs', rfl, rfl, hc'⟩
    refine .inr ⟨xs, c, .sign "," :: xs' ++ (zs ++ us), by simp, hc, .sign "," :: xs' ++ zs,
      c' :: more, us, by simp, .cons hnext hmore, us, (), [], by simp, hus, rfl, rfl⟩

theorem listed_single {q : Phrase γ} {xs : List Token} {c : γ} (hc : q xs c) :
    Phrase.listed q xs [c] :=
  .inr ⟨xs, c, [], by simp, hc, [], [], [], rfl, .nil, [], (), [], rfl, .inr ⟨rfl, rfl⟩, rfl, rfl⟩

theorem Follows.commaSeparatedUpTo {r : Reader α} {q : Phrase γ} (hr : Follows f r q) (n : Nat) :
    Follows (List.map f) (commaSeparatedUpTo ")" r n) (closedRow q) := by
  have hsign : Follows id (sign ")") (Phrase.sign ")") := follows_sign rfl (by decide)
  have hnil : Follows (List.map f) (do sign ")"; return []) (closedRow q) := by
    refine (Follows.bind (l := fun _ => Pure.pure []) hsign fun _ => .pure rfl).mono ?_
    rintro _ _ ⟨_, _, _, rfl, rfl, rfl, rfl⟩
    exact closedRow_iff.2 ⟨[], rfl, .inl ⟨rfl, rfl⟩⟩
  induction n with
  | zero => exact hnil
  | succ n ih =>
    have hcomma : Follows id (sign ",") (Phrase.sign ",") := follows_sign rfl (by decide)
    have hmore : ∀ a, Follows (List.map f)
        (do sign ","; let as ← Reader.commaSeparatedUpTo ")" r n; return a :: as)
        (do Phrase.sign ","; let cs ← closedRow q; return f a :: cs) := fun a =>
      .bind hcomma fun _ => .bind ih fun _ => .pure rfl
    have hlast : ∀ a, Follows (List.map f) (do sign ")"; return [a])
        (do Phrase.sign ")"; return [f a]) := fun a => .bind hsign fun _ => .pure rfl
    refine hnil.branch ((Follows.bind (g := List.map f) (l := fun c => Phrase.orElse
      (do Phrase.sign ","; let cs ← closedRow q; return c :: cs)
      (do Phrase.sign ")"; return [c])) hr
      fun a => ((hmore a).mono .inl).branch ((hlast a).mono .inr)).mono ?_)
    rintro _ _ ⟨xs, c, _, rfl, hc, ⟨_, _, _, rfl, rfl, ys, cs, _, rfl, hcs, rfl, rfl⟩ |
      ⟨_, _, _, rfl, rfl, rfl, rfl⟩⟩
    · obtain ⟨ys, rfl, hys⟩ := closedRow_iff.1 hcs
      exact closedRow_iff.2 ⟨_, by simp, listed_cons hc hys⟩
    · exact closedRow_iff.2 ⟨xs, rfl, listed_single hc⟩

theorem Follows.commaSeparated {r : Reader α} {q : Phrase γ} (hr : Follows f r q) :
    Follows (List.map f) (commaSeparated ")" r) (closedRow q) where
  read {s _ _} h := (hr.commaSeparatedUpTo s.rest.length).read h
  stops {s _} h := (hr.commaSeparatedUpTo s.rest.length).stops h
  any := (hr.commaSeparatedUpTo 0).any

/-! ## Types -/

theorem follows_arrays (base : TypeExpr) : Follows id
    (do
      let sizes ← many (·.startsWith ['[']) do
        sign "["
        let (n, _) ← integer
        sign "]"
        return n
      return sizes.foldl TypeExpr.array base)
    (do
      let sizes ← Phrase.many Phrase.size
      return sizes.foldl TypeExpr.array base) := by
  have hsize : Follows id
      (do
        sign "["
        let (n, _) ← integer
        sign "]"
        return n) Phrase.size :=
    .bind (follows_sign rfl (by decide)) fun _ => .bind follows_integer fun ⟨_, _⟩ =>
      .bind (follows_sign rfl (by decide)) fun _ => .pure rfl
  exact .bind (hsize.many _) fun sizes => .pure (by simp)

/-- A type that goes on too deep can be completed by a name. -/
theorem follows_typeUpTo (n : Nat) : Follows id (typeUpTo n) (Phrase.typeUpTo (n + 1)) := by
  induction n with
  | zero =>
    refine .token nofun (fun h => (Except.error.inj h).symm) (x := .name "a") ?_ (.named "a") ?_
    · exact writable_stretch .name (fun _ _ => .rfl) rfl (by decide) (by decide)
    · exact ⟨[.name "a"], "a", [], rfl, rfl, [], .named "a", [], rfl, .inr ⟨rfl, rfl⟩, [], [], [],
        rfl, .nil, rfl, rfl⟩
  | succ n ih =>
    have hfurther : Follows id (do sign ","; typeUpTo n)
        (do Phrase.sign ","; Phrase.typeUpTo (n + 1)) :=
      .bind (follows_sign rfl (by decide)) fun _ => ih
    change Follows id _ (Phrase.typeOf _)
    simp only [Phrase.typeOf, Phrase.orElse_bind, bind_assoc, pure_bind]
    refine .bind follows_name fun ⟨head, _⟩ => .branch (.mono ?_ .inl)
      (.mono (follows_arrays (.named head)) .inr)
    exact .bind (follows_sign rfl (by decide)) fun _ => .bind ih fun first =>
      .bind (hfurther.many _) fun more => .bind (follows_sign rfl (by decide)) fun _ =>
        by simpa using follows_arrays (.applied head (first :: more))

theorem follows_type : Follows id type Phrase.type where
  read h := by
    obtain ⟨xs, hxs, htype⟩ := (follows_typeUpTo _).read h
    exact ⟨xs, hxs, _, htype⟩
  stops h := by
    obtain ⟨xs, t, hxs, hgap, hfree, ys, a, hys, htype⟩ := (follows_typeUpTo _).stops h
    exact ⟨xs, t, hxs, hgap, hfree, ys, a, hys, _, htype⟩
  any := by
    obtain ⟨ys, a, hys, htype⟩ := (follows_typeUpTo 0).any
    exact ⟨ys, a, hys, _, htype⟩

/-! ## Annotations -/

def anyLiteralRow : Phrase Literal :=
  Phrase.orElse Phrase.literalString (Phrase.orElse Phrase.literalInteger Phrase.literalName)

theorem follows_literal : Follows Prod.fst literal anyLiteralRow := by
  have hstring : Follows Prod.fst (string >>= fun x => pure (Literal.string x.1, x.2))
      Phrase.literalString := .bind follows_string fun _ => .pure rfl
  have hinteger : Follows Prod.fst (integer >>= fun x => pure (Literal.integer x.1, x.2))
      Phrase.literalInteger := .bind follows_integer fun _ => .pure rfl
  have hname : Follows Prod.fst (name >>= fun x => pure (Literal.name x.1, x.2))
      Phrase.literalName := .bind follows_name fun _ => .pure rfl
  have hany : Completable Prod.fst anyLiteralRow [] := (hstring.mono .inl).any
  rw [literal_eq]
  refine .look (k := literalFrom) (fun c => ?_) next? none
  cases c with
  | none =>
    refine ⟨nofun, fun {s e} h => ?_, hany⟩
    obtain rfl := Except.error.inj h
    exact ⟨[], s, .nil s, gap_token s, token_gapFree s, hany⟩
  | some c =>
    simp only [literalFrom]
    split
    · exact hstring.mono .inl
    · split
      · exact hinteger.mono fun h => .inr (.inl h)
      · exact hname.mono fun h => .inr (.inr h)

/-- What an argument is, once its first literal is known. -/
def argumentRow : Literal → Phrase Argument
  | .name key => Phrase.orElse
    (do
      Phrase.sign "="
      let v ← anyLiteralRow
      return .keyed key v .start .start)
    (return .flag key .start)
  | v => return .bare v .start

theorem argument_of_argumentRow {xs : List Token} {a : Argument}
    (h : (anyLiteralRow >>= argumentRow) xs a) : Phrase.argument xs a := by
  obtain ⟨xs, v, ys, rfl, ⟨xs, t, zs, rfl, ht, rfl, rfl⟩ | ⟨xs, n, zs, rfl, hn, rfl, rfl⟩ |
    ⟨xs, key, zs, rfl, hkey, rfl, rfl⟩, ha⟩ := h
  · exact .inr (.inr ⟨_, _, _, rfl, .inl ⟨xs, t, [], rfl, ht, rfl, rfl⟩, ha⟩)
  · exact .inr (.inr ⟨_, _, _, rfl, .inr ⟨xs, n, [], rfl, hn, rfl, rfl⟩, ha⟩)
  · rw [List.append_nil]
    rcases ha with ha | ha
    · exact .inl ⟨xs, key, ys, rfl, hkey, ha⟩
    · exact .inr (.inl ⟨xs, key, ys, rfl, hkey, ha⟩)

theorem follows_argument : Follows Argument.unplaced argument Phrase.argument := by
  refine (Follows.bind (g := Argument.unplaced) (l := argumentRow) follows_literal
    fun ⟨value, l⟩ => ?_).mono argument_of_argumentRow
  cases value with
  | name key =>
    refine .branch (.mono ?_ .inl) (.mono (.pure rfl) .inr)
    exact .bind (follows_sign rfl (by decide)) fun _ =>
      .bind follows_literal fun ⟨_, _⟩ => .pure rfl
  | string | codePoints | integer => exact .pure rfl

/-- The closing sign behind a list belongs to its row. -/
theorem listed_bind (q : Phrase γ) (l : List γ → Phrase δ) :
    (do let as ← Phrase.listed q; Phrase.sign ")"; l as) = closedRow q >>= l := by
  simp only [closedRow, bind_assoc, pure_bind]

theorem follows_block : Follows AnnotationBlock.unplaced block Phrase.block := by
  simp only [Phrase.block, listed_bind]
  exact .bind (follows_sign rfl (by decide)) fun _ => .bind follows_name fun ⟨_, _⟩ =>
    .bind (follows_sign rfl (by decide)) fun _ => .bind follows_argument.commaSeparated fun _ =>
      .pure rfl

theorem follows_blocks :
    Follows (List.map AnnotationBlock.unplaced) blocks (Phrase.many Phrase.block) :=
  follows_block.many _

/-! ## Declarations -/

theorem follows_namedField : Follows Field.unplaced namedField Phrase.namedItem := by
  simp only [Phrase.namedItem, Phrase.namedField, bind_assoc, pure_bind, Phrase.optionally,
    Phrase.orElse_bind]
  refine .bind follows_blocks fun _ => .bind follows_name fun ⟨_, _⟩ =>
    .bind (follows_sign rfl (by decide)) fun _ => .bind follows_type fun _ =>
      .branch (.mono ?_ .inl) (.mono (.pure rfl) .inr)
  exact .bind (follows_sign rfl (by decide)) fun _ => .pure rfl

theorem follows_tupleField : Follows Field.unplaced tupleField Phrase.tupleField := by
  refine .bind follows_blocks fun annotations => ?_
  have h : ∀ l, Follows Field.unplaced
      (do let t ← type; return (⟨none, 0, t, annotations, l⟩ : Field))
      (do
        let t ← Phrase.type
        return ⟨none, 0, t, annotations.map AnnotationBlock.unplaced, .start⟩) := fun l =>
    .bind follows_type fun _ => .pure rfl
  exact .look h (·.token.location) .start

theorem follows_body : Follows Rule.unplacedBody body Phrase.body := by
  refine .branch (.mono ?_ .inl) (.branch (.mono ?_ fun h => .inr (.inl h))
    (.mono (.pure rfl) fun h => .inr (.inr h)))
  · exact .bind (follows_sign rfl (by decide)) fun _ => .bind (follows_namedField.many _) fun _ =>
      .bind (follows_sign rfl (by decide)) fun _ => .pure (Rule.unplacedBody_numbered _ _)
  · simp only [Phrase.tupleBody, listed_bind]
    exact .bind (follows_sign rfl (by decide)) fun _ => .bind follows_tupleField.commaSeparated
      fun _ => .pure (Rule.unplacedBody_numbered _ _)

theorem follows_variant : Follows Variant.unplaced variant Phrase.variant := by
  simp only [Phrase.variant, Phrase.writtenTag, bind_assoc, pure_bind, Phrase.orElse_bind]
  refine .bind follows_blocks fun _ => .bind follows_name fun ⟨_, _⟩ =>
    .bind follows_body fun ⟨_, _⟩ => .branch (.mono ?_ .inl) (.mono (.pure rfl) .inr)
  exact .bind (follows_sign rfl (by decide)) fun _ => .bind follows_discriminant fun _ => .pure rfl

/-- What stands behind the annotations of a declaration. -/
def declarationRow (annotations : List AnnotationBlock) : Phrase (Record ⊕ Union) :=
  Phrase.orElse
    (do
      Phrase.sign "struct"
      let n ← Phrase.name
      let (shape, fields) ← Phrase.body
      return .inl ⟨n, shape, fields, annotations, .start⟩)
    (do
      Phrase.sign "union"
      let n ← Phrase.name
      Phrase.sign "\x7b"
      let variants ← Phrase.many Phrase.variant
      Phrase.sign "\x7d"
      return .inr ⟨n, variants, annotations, .start⟩)

theorem declaration_eq_row : Phrase.declaration = Phrase.many Phrase.block >>= declarationRow := by
  change _ = Phrase.many Phrase.block >>= fun annotations => declarationRow annotations
  simp only [Phrase.declaration, Phrase.record, Phrase.union, declarationRow, bind_assoc, pure_bind,
    Phrase.bind_orElse]

theorem follows_declaration :
    Follows (Sum.map Record.unplaced Union.unplaced) declaration Phrase.declaration := by
  rw [declaration_eq_row]
  refine .bind follows_blocks fun _ => .branch (.mono ?_ .inl) (.mono ?_ .inr)
  · simp only [record, bind_assoc, pure_bind]
    exact .bind (follows_sign rfl (by decide)) fun _ => .bind follows_name fun _ =>
      .bind follows_body fun _ => .pure rfl
  · simp only [union, bind_assoc, pure_bind]
    exact .bind (follows_sign rfl (by decide)) fun _ => .bind follows_name fun _ =>
      .bind (follows_sign rfl (by decide)) fun _ => .bind (follows_variant.many _) fun _ =>
        .bind (follows_sign rfl (by decide)) fun _ => .pure rfl

theorem follows_declarations : Follows (List.map (Sum.map Record.unplaced Union.unplaced))
    declarations Phrase.declarations :=
  follows_declaration.many _

end Reader

end WireSchema
