import WireSchema.Proofs.Schema.Spacing

/-!
# Readers and rules

A reader finds just what a rule spells, if behind it comes nothing that would have made the reader
go on. What may come is a matter of the first character of the next token, and it can be told from
the rule that follows. So each way of putting readers together has its counterpart among the rules,
given what may come in between.

A repetition that reads as many items as the text has characters reads them all, for each item takes
up text: it is a row of tokens that is not empty.
-/

namespace WireSchema

namespace Cursor

/-- The first character of the next token. -/
def next? (s : Cursor) : Option Char := s.token.rest.head?

/-- A token comes next, and begins with a character in `p`. -/
def Opens (p : Char → Bool) (s : Cursor) : Prop := ∃ c, s.next? = some c ∧ p c = true

/-- None of these characters comes next. -/
def Avoids (cs : List Char) (s : Cursor) : Prop := ∀ c ∈ s.next?, c ∉ cs

/-- No matter what comes next. -/
def Anywhere (_ : Cursor) : Prop := True

theorem startsWith_singleton {s : Cursor} {c : Char} :
    s.startsWith [c] = true ↔ s.next? = some c := by
  rw [startsWith, next?, List.isPrefixOf_iff_prefix]
  cases s.token.rest <;> simp [List.cons_prefix_cons, eq_comm]

theorem startsWith_singleton_eq_false {s : Cursor} {c : Char} (h : s.Avoids [c]) :
    s.startsWith [c] = false := by
  rw [← Bool.not_eq_true, startsWith_singleton]
  exact fun hc => h c hc (List.mem_singleton.2 rfl)

theorem Opens.avoids {p : Char → Bool} {cs : List Char} {s : Cursor} (h : s.Opens p)
    (hcs : cs.any p = false) : s.Avoids cs := by
  obtain ⟨c, hc, hp⟩ := h
  intro d hd hmem
  obtain rfl := Option.some.inj (hc.symm.trans hd)
  exact List.any_eq_false.1 hcs c hmem hp

theorem Opens.mono {p q : Char → Bool} {s : Cursor} (h : s.Opens p)
    (hpq : ∀ c, p c = true → q c = true) : s.Opens q := by
  obtain ⟨c, hc, hp⟩ := h
  exact ⟨c, hc, hpq c hp⟩

theorem avoids_of_next? {cs : List Char} {s : Cursor} {c : Char} (h : s.next? = some c)
    (hc : c ∉ cs) : s.Avoids cs := by
  intro d hd
  obtain rfl := Option.some.inj (h.symm.trans hd)
  exact hc

theorem Avoids.mono {cs ds : List Char} {s : Cursor} (h : s.Avoids cs) (hds : ds ⊆ cs) :
    s.Avoids ds :=
  fun c hc hmem => h c hc (hds hmem)

theorem avoids_of_atEnd {s : Cursor} (h : s.atEnd = true) (cs : List Char) : s.Avoids cs := by
  intro c hc
  rw [atEnd, List.isEmpty_iff] at h
  simp [next?, h] at hc

theorem after?_eq_some_iff {s t : Cursor} {cs : List Char} :
    s.after? cs = some t ↔ s.Covers cs t := by
  constructor
  · intro h
    refine ⟨rest_of_after? h, ?_⟩
    unfold after? at h
    split at h
    next => cases h; rfl
    next => cases h
  · intro h
    have hprefix : cs.isPrefixOf s.rest = true := by
      rw [List.isPrefixOf_iff_prefix, h.text]
      exact List.prefix_append _ _
    rw [after?, if_pos hprefix, h.eq.2, h.text, List.drop_left]

end Cursor

open Cursor

/-! ## What comes before a rule -/

namespace Rule

variable {α β : Type} {F G : Cursor → Prop}

/-- In front of what a rule spells `F` holds, if `G` does behind it. -/
structure Before (F : Cursor → Prop) (p : Rule α) (G : Cursor → Prop) : Prop where
  holds : ∀ {s a t}, p s a t → G t → F s

namespace Before

theorem mono {F' : Cursor → Prop} {p : Rule α} (h : Before F p G) (hF : ∀ {s}, F s → F' s) :
    Before F' p G :=
  ⟨fun ha ht => hF (h.holds ha ht)⟩

theorem pure {a : α} (h : ∀ {s}, G s → F s) : Before F (pure a) G where
  holds := by
    rintro s _ _ ⟨rfl, rfl⟩ hs
    exact h hs

/-- A rule that takes up text decides what comes before it and another. -/
theorem first {p : Rule α} {k : α → Rule β} (h : Before F p Anywhere) : Before F (p >>= k) G where
  holds := by
    rintro s _ _ ⟨a, t, ha, -⟩ -
    exact h.holds ha trivial

theorem bind {F' : Cursor → Prop} {p : Rule α} {k : α → Rule β} (h : Before F p F')
    (hk : ∀ a, Before F' (k a) G) : Before F (p >>= k) G where
  holds := by
    rintro s _ _ ⟨a, t, ha, hb⟩ hu
    exact h.holds ha ((hk a).holds hb hu)

theorem orElse {p q : Rule α} (hp : Before F p G) (hq : Before F q G) :
    Before F (orElse p q) G where
  holds := by
    rintro s a t (ha | ha) ht
    · exact hp.holds ha ht
    · exact hq.holds ha ht

theorem many {p : Rule α} (h : Before F p Anywhere) (hF : ∀ {s}, G s → F s) :
    Before F (many p) G where
  holds has ht := by
    cases has with
    | nil => exact hF ht
    | cons ha _ => exact h.holds ha trivial

end Before

/-- Rows of tokens that are not empty take up text. -/
theorem length_lt_of_tokenized {γ : Type} {f : α → γ} {p : Rule α} {q : Phrase γ} {c : Char → Bool}
    (h : Tokenized f p q) (hp : Before (Opens c) p Anywhere) {s : Cursor} {a : α} {t : Cursor}
    (ha : p s a t) : t.rest.length < s.rest.length := by
  obtain ⟨xs, hxs, hq⟩ := h.tokens ha
  refine hxs.length_lt fun hnil => ?_
  subst hnil
  -- otherwise the rule would spell something in an empty text, too
  obtain ⟨b, hb, -⟩ := h.spelled (.nil ⟨[], s.location⟩) hq
  obtain ⟨c, hc, -⟩ := hp.holds hb trivial
  simp [next?, Cursor.token, skipGap] at hc

/-- There are no more items than characters that they take up. -/
theorem length_le_of_many {p : Rule α} (hp : ∀ {s a t}, p s a t → t.rest.length < s.rest.length)
    {s t : Cursor} {as : List α} (h : many p s as t) :
    as.length + t.rest.length ≤ s.rest.length := by
  induction h with
  | nil => simp
  | cons ha _ ih =>
    have hlt := hp ha
    rw [List.length_cons]
    omega

/-! ## Lists -/

/-- Items with a comma between them, perhaps one more, and the closing sign. -/
def closed (p : Rule α) : Rule (List α) := do
  let as ← listed p
  sign ")"
  return as

/-- The same for so many items, decided item by item. -/
def closedUpTo (p : Rule α) : Nat → Rule (List α)
  | 0 => do
    sign ")"
    return []
  | n + 1 => orElse
    (do
      sign ")"
      return [])
    (do
      let a ← p
      orElse
        (do
          sign ","
          let as ← closedUpTo p n
          return a :: as)
        (do
          sign ")"
          return [a]))

theorem closed_of_closedUpTo {p : Rule α} {n : Nat} {s t : Cursor} {as : List α}
    (h : closedUpTo p n s as t) : closed p s as t := by
  have hnil : ∀ {s as t}, (do sign ")"; return [] : Rule (List α)) s as t →
      closed p s as t := by
    rintro s _ _ ⟨_, t, hclose, rfl, rfl⟩
    exact ⟨[], s, .inl ⟨rfl, rfl⟩, (), _, hclose, rfl, rfl⟩
  induction n generalizing s as t with
  | zero => exact hnil h
  | succ n ih =>
    rcases h with h | ⟨a, u, ha, ⟨_, v, hcomma, as, _, has, rfl, rfl⟩ | ⟨_, _, hclose, rfl, rfl⟩⟩
    · exact hnil h
    · obtain ⟨_, w, hlisted, _, _, hclose, rfl, rfl⟩ := ih has
      refine ⟨_, w, .inr ?_, (), _, hclose, rfl, rfl⟩
      rcases hlisted with ⟨rfl, rfl⟩ | ⟨a', _, ha', more, _, hmore, _, _, hlast, rfl, rfl⟩
      · exact ⟨a, u, ha, [], u, .nil u, (), _, .inl hcomma, rfl, rfl⟩
      · exact ⟨a, u, ha, a' :: more, _, .cons ⟨(), v, hcomma, ha'⟩ hmore, (), _, hlast, rfl, rfl⟩
    · exact ⟨[a], u, .inr ⟨a, u, ha, [], u, .nil u, (), u, .inr ⟨rfl, rfl⟩, rfl, rfl⟩, (), _,
        hclose, rfl, rfl⟩

theorem closedUpTo_of_closed {p : Rule α} {n : Nat} {s t : Cursor} {as : List α}
    (h : closed p s as t) (hn : as.length ≤ n) : closedUpTo p n s as t := by
  obtain ⟨as, u, hlisted, _, _, hclose, rfl, rfl⟩ := h
  rcases hlisted with ⟨rfl, rfl⟩ | ⟨a, v, ha, more, w, hmore, _, _, hlast, rfl, rfl⟩
  · cases n with
    | zero => exact ⟨(), _, hclose, rfl, rfl⟩
    | succ n => exact .inl ⟨(), _, hclose, rfl, rfl⟩
  · induction hmore generalizing s a n with
    | nil v =>
      obtain ⟨n, rfl⟩ : ∃ k, n = k + 1 := ⟨n - 1, by rw [List.length_cons] at hn; omega⟩
      refine .inr ⟨a, v, ha, ?_⟩
      rcases hlast with hcomma | ⟨-, rfl⟩
      · refine .inl ⟨(), _, hcomma, [], _, ?_, rfl, rfl⟩
        cases n with
        | zero => exact ⟨(), _, hclose, rfl, rfl⟩
        | succ n => exact .inl ⟨(), _, hclose, rfl, rfl⟩
      · exact .inr ⟨(), _, hclose, rfl, rfl⟩
    | @cons v x _ a' more hnext _ ih =>
      obtain ⟨n, rfl⟩ : ∃ k, n = k + 1 := ⟨n - 1, by rw [List.length_cons] at hn; omega⟩
      obtain ⟨_, v', hcomma, ha'⟩ := hnext
      exact .inr ⟨a, v, ha, .inl ⟨(), v', hcomma, a' :: more, _,
        ih _ ha' (Nat.le_of_succ_le_succ hn) hlast, rfl, rfl⟩⟩

theorem length_le_of_closed {p : Rule α}
    (hp : ∀ {s a t}, p s a t → t.rest.length < s.rest.length) {s t : Cursor} {as : List α}
    (h : closed p s as t) : as.length ≤ s.rest.length := by
  obtain ⟨_, _, ⟨rfl, -⟩ | ⟨a, u, ha, more, v, hmore, _, _, -, rfl, -⟩, -, -, -, rfl, -⟩ := h
  · exact Nat.zero_le _
  · have hlt := hp ha
    have hle := length_le_of_many (fun ⟨_, _, hcomma, hnext⟩ =>
      Nat.lt_trans (hp hnext) (length_lt_of_sign rfl hcomma)) hmore
    rw [List.length_cons]
    omega

end Rule

/-! ## Readers that find what rules spell -/

namespace Reader

open Rule (Before)

variable {α β : Type} {F G : Cursor → Prop}

/-- A reader finds only what a rule spells, and all that the rule spells in front of `F`. -/
structure Reads (F : Cursor → Prop) (r : Reader α) (p : Rule α) : Prop where
  sound : ∀ {s a t}, r s = .ok (a, t) → p s a t
  complete : ∀ {s a t}, p s a t → F t → r s = .ok (a, t)

theorem bind_apply (r : Reader α) (k : α → Reader β) (s : Cursor) :
    (r >>= k) s = r s >>= fun x => k x.1 x.2 := rfl

namespace Reads

theorem mono {r : Reader α} {p : Rule α} (h : Reads F r p) (hF : ∀ {s}, G s → F s) :
    Reads G r p :=
  ⟨h.sound, fun ha ht => h.complete ha (hF ht)⟩

theorem pure (a : α) : Reads F (pure a) (pure a) where
  sound h := by
    cases h
    exact ⟨rfl, rfl⟩
  complete := by
    rintro s _ _ ⟨rfl, rfl⟩ -
    rfl

theorem bind {r : Reader α} {p : Rule α} {k : α → Reader β} {q : α → Rule β} (hr : Reads F r p)
    (hq : ∀ a, Before F (q a) G) (hk : ∀ a, Reads G (k a) (q a)) :
    Reads G (r >>= k) (p >>= q) where
  sound {s b u} h := by
    rw [bind_apply] at h
    cases hread : r s with
    | error e =>
      rw [hread] at h
      cases h
    | ok x =>
      rw [hread] at h
      exact ⟨x.1, x.2, hr.sound hread, (hk x.1).sound h⟩
  complete := by
    rintro s b u ⟨a, t, ha, hb⟩ hu
    rw [bind_apply, hr.complete ha ((hq a).holds hb hu)]
    exact (hk a).complete hb hu

/-- Behind a reader that stops by itself anything can come. -/
theorem andThen {r : Reader α} {p : Rule α} {k : α → Reader β} {q : α → Rule β}
    (hr : Reads Anywhere r p) (hk : ∀ a, Reads G (k a) (q a)) : Reads G (r >>= k) (p >>= q) :=
  hr.bind (fun _ => ⟨fun _ _ => trivial⟩) hk

/-- The next token decides between two rules. -/
theorem branch {text : String} {r r' : Reader α} {p q : Rule α} (hr : Reads G r p)
    (hr' : Reads G r' q) (hp : Before (fun s => s.startsWith text.toList = true) p G)
    (hq : Before (fun s => s.startsWith text.toList = false) q G) :
    Reads G (do if ← nextIs text then r else r') (p.orElse q) where
  sound {s a t} h := by
    change (if s.startsWith text.toList = true then r else r') s = _ at h
    split at h
    · exact .inl (hr.sound h)
    · exact .inr (hr'.sound h)
  complete {s a t} ha ht := by
    change (if s.startsWith text.toList = true then r else r') s = _
    rcases ha with ha | ha
    · rw [if_pos (hp.holds ha ht)]
      exact hr.complete ha ht
    · rw [if_neg (by rw [hq.holds ha ht]; exact Bool.false_ne_true)]
      exact hr'.complete ha ht

section

variable {more : Cursor → Bool} {r : Reader α} {p : Rule α}

theorem sound_manyUpTo (h : Reads F r p) {n : Nat} {s : Cursor} {as : List α} {t : Cursor}
    (has : manyUpTo more r n s = .ok (as, t)) : Rule.many p s as t := by
  induction n generalizing s as with
  | zero =>
    cases has
    exact .nil _
  | succ n ih =>
    obtain ⟨a, u, rest, ha, hrest, rfl⟩ | ⟨-, rfl, rfl⟩ := of_manyUpTo_succ has
    · exact .cons (h.sound ha) (ih hrest)
    · exact .nil _

theorem complete_manyUpTo (h : Reads F r p) (hp : Before (fun s => more s = true ∧ F s) p Anywhere)
    (hG : ∀ {s}, G s → more s = false ∧ F s) {n : Nat} {s : Cursor} {as : List α} {t : Cursor}
    (has : Rule.many p s as t) (hn : as.length ≤ n) (ht : G t) :
    manyUpTo more r n s = .ok (as, t) := by
  induction has generalizing n with
  | nil s =>
    cases n with
    | zero => rfl
    | succ n => simp [manyUpTo, (hG ht).1]
  | @cons s t' u a as ha has ih =>
    obtain ⟨n, rfl⟩ : ∃ k, n = k + 1 := ⟨n - 1, by rw [List.length_cons] at hn; omega⟩
    have hF : F t' := by
      cases has with
      | nil => exact (hG ht).2
      | cons ha' _ => exact (hp.holds ha' trivial).2
    have hrest := ih (Nat.le_of_succ_le_succ hn) ht
    simp [manyUpTo, (hp.holds ha trivial).1, h.complete ha hF, hrest]

theorem many {γ : Type} {f : α → γ} {q : Phrase γ} {c : Char → Bool} (h : Reads F r p)
    (hp : Before (fun s => more s = true ∧ F s) p Anywhere) (htokens : Rule.Tokenized f p q)
    (hopens : Before (Opens c) p Anywhere) (hG : ∀ {s}, G s → more s = false ∧ F s) :
    Reads G (many more r) (Rule.many p) where
  sound has := h.sound_manyUpTo has
  complete has ht := h.complete_manyUpTo hp hG has
    (Nat.le_trans (Nat.le_add_right _ _) (Rule.length_le_of_many
      (Rule.length_lt_of_tokenized htokens hopens) has)) ht

end

end Reads

/-! ## Tokens -/

section

variable {text : String} {c : Char} (hc : text.toList.head? = some c)
  (hstart : startsToken c = true)
include hc hstart

theorem before_next? : Before (fun s => s.next? = some c) (Rule.sign text) G :=
  ⟨fun h _ => Rule.head_of_covers ((Rule.sign_iff hc hstart).1 h) hc⟩

theorem before_sign : Before (fun s => s.startsWith text.toList = true) (Rule.sign text) G where
  holds h _ := by
    rw [startsWith, List.isPrefixOf_iff_prefix, ((Rule.sign_iff hc hstart).1 h).text]
    exact List.prefix_append _ _

end

theorem before_name : Before (Opens isNameStart) Rule.name G :=
  ⟨fun h _ => (Rule.name_iff.1 h).exists_head⟩

theorem reads_sign {text : String} {c : Char} (hc : text.toList.head? = some c)
    (hstart : startsToken c = true) : Reads Anywhere (sign text) (Rule.sign text) where
  sound {s a t} h := by
    rw [sign] at h
    split at h
    next hafter =>
      cases h
      exact (Rule.sign_iff hc hstart).2 (after?_eq_some_iff.1 hafter)
    next => cases h
  complete {s a t} h _ := by
    rw [sign, after?_eq_some_iff.2 ((Rule.sign_iff hc hstart).1 h)]

theorem span_of_covers {p : Char → Bool} {s t : Cursor} {cs : List Char} (h : s.Covers cs t)
    (hcs : ∀ c ∈ cs, p c = true) (ht : ∀ c ∈ t.rest.head?, ¬ p c = true) : s.span p = (cs, t) := by
  have hnil : t.rest.takeWhile p = [] ∧ t.rest.dropWhile p = t.rest := by
    cases hrest : t.rest with
    | nil => simp
    | cons c rest =>
      have hc : ¬ p c = true := ht c (by simp [hrest])
      simp [hc]
  rw [span, h.text, List.takeWhile_append_of_pos hcs, List.dropWhile_append_of_pos hcs, hnil.1,
    hnil.2, List.append_nil]
  exact congrArg _ h.eq.2.symm

/-- A longest stretch is what can be taken while its characters are in `p`. -/
theorem stretch_iff_span {first p : Char → Bool} (hp : ∀ c, first c = true → p c = true)
    {s t : Cursor} {x : String × Location} :
    Rule.Stretch first p s x t ↔ (∃ c, s.rest.head? = some c ∧ first c = true) ∧
      x = (String.ofList (s.span p).1, s.location) ∧ t = (s.span p).2 := by
  constructor
  · intro h
    have hspan := span_of_covers h.covers h.within h.longest
    refine ⟨h.exists_head, Prod.ext ?_ h.location, ?_⟩
    · rw [hspan, String.ofList_toList]
    · rw [hspan]
  · rintro ⟨⟨c, hc, hstart⟩, rfl, rfl⟩
    have htaken : (s.span p).1.head? = some c := by
      simp [span, List.head?_takeWhile, hc, hp c hstart]
    constructor
    · exact ⟨by rw [String.toList_ofList, span_append], by rw [String.toList_ofList]; rfl⟩
    · rfl
    · rw [String.toList_ofList]
      exact List.ne_nil_of_mem (List.mem_of_head? htaken)
    · rw [String.toList_ofList, htaken]
      rintro _ ⟨⟩
      exact hstart
    · rw [String.toList_ofList]
      exact fun d hd => List.all_eq_true.1 List.all_takeWhile d hd
    · intro d hd
      have hnot := List.head?_dropWhile_not p s.rest
      rw [show (s.rest.dropWhile p).head? = some d from hd] at hnot
      simp [hnot]

theorem reads_stretch {first p : Char → Bool}
    (hfirst : gapStarts.any first = false) (hp : ∀ c, first c = true → p c = true) :
    Reads Anywhere (stretch first p) (Rule.token (Rule.Stretch first p)) where
  sound {s a t} h := by
    rw [Rule.stretch_iff hfirst, stretch_iff_span hp]
    rw [stretch] at h
    split at h
    next c cs hrest =>
      split at h
      next hc =>
        cases h
        exact ⟨⟨c, by rw [hrest]; rfl, hc⟩, rfl, rfl⟩
      next => cases h
    next => cases h
  complete {s a t} h _ := by
    rw [Rule.stretch_iff hfirst, stretch_iff_span hp] at h
    obtain ⟨⟨c, hc, hstart⟩, rfl, rfl⟩ := h
    obtain ⟨cs, hrest⟩ := List.head?_eq_some_iff.1 hc
    simp [stretch, hrest, hstart]

theorem reads_name : Reads Anywhere name Rule.name :=
  reads_stretch (by decide) fun c hc => by
    simp only [isNameStart, isNameChar, Char.isAlphanum] at hc ⊢
    grind

theorem reads_integer : Reads Anywhere integer Rule.integer :=
  (reads_stretch (by decide) fun _ hc => hc).andThen fun _ => .pure _

theorem reads_discriminant : Reads Anywhere discriminant Rule.discriminant :=
  (reads_stretch (by decide) fun _ hc => hc).andThen fun _ => .pure _

/-- A literal is closed by its first mark that is not behind a backslash, on the same line. -/
theorem closeString_eq_some_iff {cs body rest : List Char} :
    closeString cs = some (body, rest) ↔ cs = body ++ '\x22' :: rest ∧ Rule.Inside body := by
  constructor
  · intro h
    refine ⟨append_of_closeString h, ?_⟩
    fun_induction closeString cs generalizing body rest with
    | case1 => cases h
    | case2 => cases h
    | case3 =>
      cases h
      exact .nil
    | case4 => cases h
    | case5 => cases h
    | case6 c cs hd _ _ ih =>
      obtain ⟨r, hr, he⟩ := Option.map_eq_some_iff.1 h
      cases he
      exact .escaped hd (ih hr)
    | case7 _ _ hn hq hb ih =>
      obtain ⟨r, hr, he⟩ := Option.map_eq_some_iff.1 h
      cases he
      exact .plain hq hb hn (ih hr)
  · rintro ⟨rfl, h⟩
    induction h with
    | nil =>
      rw [List.nil_append, closeString.eq_def]
      simp
    | plain hq hb hn _ ih =>
      rw [List.cons_append, closeString.eq_def]
      simp [hq, hb, hn, ih]
    | escaped hn _ ih =>
      rw [List.cons_append, List.cons_append, closeString.eq_def]
      simp [hn, ih]

theorem reads_string : Reads Anywhere string Rule.string where
  sound {s a t} h := by
    rw [Rule.string_iff]
    rw [string] at h
    split at h
    next cs hrest =>
      split at h
      next body rest hclose =>
        cases h
        obtain ⟨rfl, hinside⟩ := closeString_eq_some_iff.1 hclose
        refine ⟨⟨by simp [hrest], by simp⟩, rfl, ?_⟩
        rwa [String.toList_ofList]
      next => cases h
    next => cases h
  complete {s a t} h _ := by
    obtain ⟨hcovers, hlocation, hinside⟩ := Rule.string_iff.1 h
    obtain ⟨body, l⟩ := a
    obtain rfl : l = s.token.location := hlocation
    have hrest : s.token.rest = '\x22' :: (body.toList ++ '\x22' :: t.rest) := by
      simpa using hcovers.text
    have hclose : closeString (body.toList ++ '\x22' :: t.rest) = some (body.toList, t.rest) :=
      closeString_eq_some_iff.2 ⟨rfl, hinside⟩
    simp only [string, hrest, hclose, String.ofList_toList]
    rw [← hcovers.eq.2]

/-! ## Lists -/

section

variable {r : Reader α} {p : Rule α} (hr : Reads F r p)
  (hfirst : Before (Avoids [')']) p Anywhere)
  (hF : ∀ {s}, s.next? = some ',' ∨ s.next? = some ')' → F s)
include hr hfirst hF

theorem reads_closedUpTo (n : Nat) :
    Reads Anywhere (commaSeparatedUpTo ")" r n) (Rule.closedUpTo p n) := by
  have hsign : Reads Anywhere (sign ")") (Rule.sign ")") := reads_sign rfl (by decide)
  induction n with
  | zero => exact hsign.andThen fun _ => .pure []
  | succ n ih =>
    refine .branch (hsign.andThen fun _ => .pure []) (hr.bind (fun a => ?_) fun a => ?_)
      (before_sign rfl (by decide)).first (hfirst.mono startsWith_singleton_eq_false).first
    · exact .orElse ((before_next? rfl (by decide)).mono (hF ∘ .inl)).first
        ((before_next? rfl (by decide)).mono (hF ∘ .inr)).first
    · refine .branch ((reads_sign rfl (by decide)).andThen fun _ => ih.andThen fun _ => .pure _)
        (hsign.andThen fun _ => .pure _) (before_sign rfl (by decide)).first
        ((before_next? rfl (by decide)).mono fun h => ?_).first
      exact startsWith_singleton_eq_false (avoids_of_next? h (by decide))

theorem reads_commaSeparated (hp : ∀ {s a t}, p s a t → t.rest.length < s.rest.length) :
    Reads Anywhere (commaSeparated ")" r) (Rule.closed p) where
  sound h := Rule.closed_of_closedUpTo ((reads_closedUpTo hr hfirst hF _).sound h)
  complete h ht := (reads_closedUpTo hr hfirst hF _).complete
    (Rule.closedUpTo_of_closed h (Rule.length_le_of_closed hp h)) ht

end

end Reader

end WireSchema
