import WireSchema.Proofs.Schema.Twin

/-!
# Stopping at the same place

Of two texts that are the same up to a place, let the first go on with something, and the second
with a part of that and then a line feed. As long as a reader is in front of the place it does the
same in both texts, since it decides by the next character, by a keyword or by a literal, and none
of these goes beyond the end of a line. So where it stops at the place of the first text, it stops
at that of the second.
-/

namespace WireSchema

open Cursor

/-- What comes in the one text comes in the other, but there a line feed cuts it off. -/
structure Cut (e e' : Cursor) : Prop where
  location : e'.location = e.location
  gapFree : e.GapFree
  text : ∃ cs rest rest', cs ≠ [] ∧ e.rest = cs ++ rest ∧ e'.rest = cs ++ '\n' :: rest'

theorem skipGap_gapFree (inComment : Bool) (l : Location) (cs : List Char) :
    (skipGap inComment l cs).GapFree := by
  induction cs generalizing inComment l with
  | nil => exact nofun
  | cons c cs ih =>
    rw [skipGap]
    split
    · exact ih _ _
    · split
      · exact ih _ _
      next hlayout hhash =>
        rintro _ ⟨⟩
        rw [Bool.or_eq_true, not_or] at hhash
        exact ⟨eq_false_of_ne_true hlayout, by simpa using hhash.2⟩

theorem token_gapFree (s : Cursor) : s.token.GapFree := skipGap_gapFree _ _ _

theorem token_length_le (s : Cursor) : s.token.rest.length ≤ s.rest.length :=
  (gap_token s).length_le

namespace Cut

variable {e e' s s' : Cursor}

theorem head (h : Cut e e') : ∃ c, e.rest.head? = some c ∧ e'.rest.head? = some c := by
  obtain ⟨cs, _, _, hcs, hrest, hrest'⟩ := h.text
  cases cs with
  | nil => exact absurd rfl hcs
  | cons c cs => exact ⟨c, by rw [hrest]; rfl, by rw [hrest']; rfl⟩

theorem head_eq (h : Cut e e') : e'.rest.head? = e.rest.head? := by
  obtain ⟨c, hc, hc'⟩ := h.head
  exact hc'.trans hc.symm

theorem joins (h : Cut e e') : Joins e e' := .inr h.head_eq

theorem length_pos (h : Cut e e') : 0 < e.rest.length ∧ 0 < e'.rest.length := by
  obtain ⟨c, hc, hc'⟩ := h.head
  exact ⟨List.length_pos_iff.2 (List.ne_nil_of_mem (List.mem_of_head? hc)),
    List.length_pos_iff.2 (List.ne_nil_of_mem (List.mem_of_head? hc'))⟩

/-- What is not on the first text is not on the second, if it stays on one line. -/
theorem isPrefix (h : Cut e e') {cs : List Char} (hcs : '\n' ∉ cs) (hstart : cs <+: e'.rest) :
    cs <+: e.rest := by
  obtain ⟨ds, rest, rest', -, hrest, hrest'⟩ := h.text
  rw [hrest'] at hstart
  rw [hrest]
  rcases Nat.lt_or_ge ds.length cs.length with hlt | hge
  · -- otherwise the line feed would be among the characters
    have hline : ds ++ ['\n'] <+: ds ++ '\n' :: rest' := by simp
    obtain ⟨gs, hgs⟩ := List.prefix_of_prefix_length_le hline hstart
      (by simpa using Nat.succ_le_of_lt hlt)
    exact absurd (hgs ▸ by simp) hcs
  · exact (List.prefix_of_prefix_length_le hstart (List.prefix_append _ _) hge).trans
      (List.prefix_append _ _)

/-- The next tokens begin at twins. -/
theorem token (h : Cut e e') (hs : Twins e e' s s') (hle : e.rest.length ≤ s.token.rest.length) :
    Twins e e' s.token s'.token := by
  obtain ⟨t', hgap, ht'⟩ := (gap_token s).twins h.joins hs hle
  have hfree : t'.GapFree := by
    rw [GapFree, ht'.head_eq h.head_eq]
    exact token_gapFree s
  rwa [← hgap.eq_token hfree]

theorem next?_eq (h : Cut e e') (hs : Twins e e' s s')
    (hle : e.rest.length ≤ s.token.rest.length) : s'.next? = s.next? :=
  (h.token hs hle).head_eq h.head_eq

theorem startsWith_eq (h : Cut e e') (hs : Twins e e' s s')
    (hle : e.rest.length ≤ s.token.rest.length) (c : Char) :
    s'.startsWith [c] = s.startsWith [c] := by
  rw [Bool.eq_iff_iff, startsWith_singleton, startsWith_singleton, h.next?_eq hs hle]

theorem atEnd_eq (h : Cut e e') (hs : Twins e e' s s')
    (hle : e.rest.length ≤ s.token.rest.length) : s'.atEnd = s.atEnd := by
  rw [Bool.eq_iff_iff, Cursor.atEnd, Cursor.atEnd, List.isEmpty_iff, List.isEmpty_iff,
    ← List.head?_eq_none_iff, ← List.head?_eq_none_iff]
  exact iff_of_eq (congrArg (· = none) (h.next?_eq hs hle))

/-- What is the place of twins is a cut, too. -/
theorem twins (h : Cut e e') (hs : Twins e e' s s') (hfree : s.GapFree) : Cut s s' := by
  obtain ⟨hlocation, ds, hds, hds'⟩ := hs
  obtain ⟨cs, rest, rest', hcs, hrest, hrest'⟩ := h.text
  refine ⟨hlocation, hfree, ds ++ cs, rest, rest', by simp [hcs], ?_, ?_⟩
  · rw [hds.text, hrest, List.append_assoc]
  · rw [hds'.text, hrest', List.append_assoc]

end Cut

/-- A literal stays on one line. -/
theorem Rule.Inside.notMem_lineFeed {body : List Char} (h : Inside body) : '\n' ∉ body := by
  induction h with
  | nil => exact List.not_mem_nil
  | plain _ _ hn _ ih => exact List.not_mem_cons_of_ne_of_not_mem (Ne.symm hn) ih
  | escaped hn _ ih =>
    exact List.not_mem_cons_of_ne_of_not_mem (by decide)
      (List.not_mem_cons_of_ne_of_not_mem (Ne.symm hn) ih)

namespace Reader

variable {α β : Type} {e e' : Cursor} {N N' : Nat}

/-- Two readers do the same in two texts in front of `e` and `e'`, if less than `N` characters are
left of the one text, and less than `N'` of the other. -/
structure Parallel (e e' : Cursor) (N N' : Nat) (r r' : Reader α) : Prop where
  onward : ∀ {s a t}, r s = .ok (a, t) →
    t.rest.length ≤ s.rest.length ∧ t.token.rest.length ≤ s.token.rest.length
  stops : ∀ {s u}, r s = .error u → u.rest.length ≤ s.token.rest.length
  ok : ∀ {s s' a t}, s.rest.length < N → s'.rest.length < N' → Twins e e' s s' →
    r s = .ok (a, t) → e.rest.length ≤ t.token.rest.length →
      ∃ t', r' s' = .ok (a, t') ∧ Twins e e' t t'
  error : ∀ {s s'}, s.rest.length < N → s'.rest.length < N' → Twins e e' s s' →
    r s = .error e → r' s' = .error e'

namespace Parallel

theorem pure (a : α) : Parallel e e' N N' (pure a) (pure a) where
  onward h := by
    cases h
    exact ⟨Nat.le_refl _, Nat.le_refl _⟩
  stops := nofun
  ok _ _ hs h _ := by
    cases h
    exact ⟨_, rfl, hs⟩
  error _ _ _ := nofun

theorem bind_error {r : Reader α} {k : α → Reader β} {s u : Cursor} (h : (r >>= k) s = .error u) :
    r s = .error u ∨ ∃ a t, r s = .ok (a, t) ∧ k a t = .error u := by
  rw [bind_apply] at h
  cases hr : r s with
  | error v =>
    rw [hr] at h
    cases h
    exact .inl rfl
  | ok x =>
    rw [hr] at h
    exact .inr ⟨x.1, x.2, rfl, h⟩

theorem bind_ok {r : Reader α} {k : α → Reader β} {s t : Cursor} {b : β}
    (h : (r >>= k) s = .ok (b, t)) : ∃ a u, r s = .ok (a, u) ∧ k a u = .ok (b, t) := by
  rw [bind_apply] at h
  cases hr : r s with
  | error v =>
    rw [hr] at h
    cases h
  | ok x =>
    rw [hr] at h
    exact ⟨x.1, x.2, rfl, h⟩

/-- A reader that takes up text leaves less of it to the next. -/
theorem bindFrom (d : Nat) {r r' : Reader α} {k k' : α → Reader β}
    (hr : Parallel e e' N N' r r')
    (hd : ∀ {s a t}, r s = .ok (a, t) → t.rest.length + d ≤ s.rest.length)
    (hk : ∀ a, Parallel e e' (N - d) (N' - d) (k a) (k' a)) :
    Parallel e e' N N' (r >>= k) (r' >>= k') where
  onward h := by
    obtain ⟨a, u, ha, hb⟩ := bind_ok h
    obtain ⟨h₁, h₂⟩ := hr.onward ha
    obtain ⟨h₃, h₄⟩ := (hk a).onward hb
    exact ⟨Nat.le_trans h₃ h₁, Nat.le_trans h₄ h₂⟩
  stops h := by
    rcases bind_error h with h | ⟨a, u, ha, hb⟩
    · exact hr.stops h
    · exact Nat.le_trans ((hk a).stops hb) (hr.onward ha).2
  ok hN hN' hs h hle := by
    obtain ⟨a, u, ha, hb⟩ := bind_ok h
    obtain ⟨u', ha', hu⟩ := hr.ok hN hN' hs ha (Nat.le_trans hle ((hk a).onward hb).2)
    have hlength := hs.length_add hu
    have hshorter := hd ha
    obtain ⟨t', hb', ht⟩ := (hk a).ok (by omega) (by omega) hu hb hle
    refine ⟨t', ?_, ht⟩
    rw [bind_apply, ha']
    exact hb'
  error hN hN' hs h := by
    rcases bind_error h with h | ⟨a, u, ha, hb⟩
    · rw [bind_apply, hr.error hN hN' hs h]
      rfl
    · obtain ⟨u', ha', hu⟩ := hr.ok hN hN' hs ha ((hk a).stops hb)
      have hlength := hs.length_add hu
      have hshorter := hd ha
      have hb' := (hk a).error (by omega) (by omega) hu hb
      rw [bind_apply, ha']
      exact hb'

theorem bind {r r' : Reader α} {k k' : α → Reader β} (hr : Parallel e e' N N' r r')
    (hk : ∀ a, Parallel e e' N N' (k a) (k' a)) : Parallel e e' N N' (r >>= k) (r' >>= k') :=
  bindFrom 0 hr (fun h => (hr.onward h).1) hk

theorem mono {r r' : Reader α} (h : Parallel e e' N N' r r') {M M' : Nat} (hM : M ≤ N)
    (hM' : M' ≤ N') : Parallel e e' M M' r r' :=
  ⟨h.onward, h.stops, fun hs hs' => h.ok (Nat.lt_of_lt_of_le hs hM) (Nat.lt_of_lt_of_le hs' hM'),
    fun hs hs' => h.error (Nat.lt_of_lt_of_le hs hM) (Nat.lt_of_lt_of_le hs' hM')⟩

/-- A choice by something that is the same in both texts. -/
theorem look {γ : Type} {g : Cursor → γ}
    (hg : ∀ {s s'}, Twins e e' s s' → e.rest.length ≤ s.token.rest.length → g s' = g s)
    {k m : γ → Reader α} (hk : ∀ c, Parallel e e' N N' (k c) (m c)) :
    Parallel e e' N N' (fun s => k (g s) s) (fun s => m (g s) s) where
  onward h := (hk _).onward h
  stops h := (hk _).stops h
  ok {s s' a t} hN hN' hs h hle := by
    rw [hg hs (Nat.le_trans hle ((hk _).onward h).2)]
    exact (hk _).ok hN hN' hs h hle
  error {s s'} hN hN' hs h := by
    rw [hg hs ((hk _).stops h)]
    exact (hk _).error hN hN' hs h

/-- Without text left there is nothing to compare. -/
theorem noText {r r' r'' : Reader α} (hcut : Cut e e') (h : Parallel e e' N N' r r') {M M' : Nat}
    (hM : M ≤ 1 ∨ M' ≤ 1) : Parallel e e' M M' r r'' := by
  have hno : ∀ {s s'}, s.rest.length < M → s'.rest.length < M' → ¬ Twins e e' s s' := by
    intro s s' hs hs' htwins
    have hlength := htwins.length_le
    have hadd := htwins.length_add ⟨hcut.location, [], e.covers_nil, e'.covers_nil⟩
    obtain ⟨hpos, hpos'⟩ := hcut.length_pos
    omega
  exact ⟨h.onward, h.stops, fun hs hs' htwins => absurd htwins (hno hs hs'),
    fun hs hs' htwins => absurd htwins (hno hs hs')⟩

/-- A reader for one token, which stops at the place if it is there. -/
theorem token (hcut : Cut e e') {r : Reader α}
    (hok : ∀ {s a t}, r s = .ok (a, t) → ∃ x : Token, x.Covers s.token t ∧
      ∀ {s' t'}, s'.token.location = s.token.location → x.Covers s'.token t' → r s' = .ok (a, t'))
    (herror : ∀ {s u}, r s = .error u → u = s.token)
    (hstop : ∀ {s s'}, s.token = e → s'.token = e' → r s = .error e → r s' = .error e') :
    Parallel e e' N N' r r where
  onward {s a t} h := by
    obtain ⟨x, hx, -⟩ := hok h
    have hlt := hx.length_lt
    have hs := token_length_le s
    have ht := token_length_le t
    omega
  stops h := herror h ▸ Nat.le_refl _
  ok {s s' a t} _ _ hs h hle := by
    obtain ⟨x, hx, hread⟩ := hok h
    have hle' := Nat.le_trans hle (token_length_le t)
    have htoken := hcut.token hs (Nat.le_trans hle' (Nat.le_of_lt hx.length_lt))
    obtain ⟨t', hx', ht⟩ := hx.twins hcut.joins htoken hle'
    exact ⟨t', hread htoken.location hx', ht⟩
  error {s s'} _ _ hs h := by
    have hse := (herror h).symm
    have htoken := hcut.token hs (hse ▸ Nat.le_refl _)
    rw [hse] at htoken
    exact hstop hse htoken.eq h

end Parallel

/-! ## Tokens -/

theorem eq_of_sign_error {text : String} {s u : Cursor} (h : sign text s = .error u) :
    u = s.token := by
  rw [sign] at h
  split at h
  next => cases h
  next => exact (Except.error.inj h).symm

theorem eq_of_stretch_error {first p : Char → Bool} {s u : Cursor}
    (h : stretch first p s = .error u) : u = s.token := by
  rw [stretch] at h
  split at h
  next =>
    split at h
    next => cases h
    next => exact (Except.error.inj h).symm
  next => exact (Except.error.inj h).symm

theorem eq_of_string_error {s u : Cursor} (h : string s = .error u) : u = s.token := by
  rw [string] at h
  split at h
  next =>
    split at h
    next => cases h
    next => exact (Except.error.inj h).symm
  next => exact (Except.error.inj h).symm

section

variable (hcut : Cut e e')
include hcut

theorem parallel_sign {text : String} (hne : text.toList ≠ []) (hline : '\n' ∉ text.toList) :
    Parallel e e' N N' (sign text) (sign text) := by
  have hsign : ∀ {s t}, sign text s = .ok ((), t) ↔ s.token.Covers text.toList t := by
    intro s t
    rw [← after?_eq_some_iff, sign]
    cases s.token.after? text.toList with
    | none => simp
    | some u => exact ⟨fun h => by cases h; rfl, fun h => by cases h; rfl⟩
  refine .token hcut (fun h => ?_) eq_of_sign_error fun {s s'} hs hs' h => ?_
  · exact ⟨.sign text, ⟨hne, hsign.1 h⟩, fun _ hx => hsign.2 hx.2⟩
  · cases h' : sign text s' with
    | error u => rw [eq_of_sign_error h', hs']
    | ok x =>
      -- the text of the sign would be on the first text, too
      obtain ⟨rest, hrest⟩ := hcut.isPrefix hline
        ⟨x.2.rest, (hs' ▸ (hsign.1 h').text).symm⟩
      have hcovers : s.token.Covers text.toList ⟨rest, s.token.location.advance text.toList⟩ :=
        ⟨(hs ▸ hrest).symm, rfl⟩
      rw [hsign.2 hcovers] at h
      cases h

theorem parallel_stretch {first p : Char → Bool} (x : String → Token)
    (hx : ∀ text s t, (x text).Covers s t ↔ Rule.Stretch first p s (text, s.location) t)
    (hfirst : gapStarts.any first = false) (hp : ∀ c, first c = true → p c = true) :
    Parallel e e' N N' (stretch first p) (stretch first p) := by
  have hstretch : ∀ {s a t}, stretch first p s = .ok (a, t) ↔ Rule.Stretch first p s.token a t :=
    ⟨fun h => (Rule.stretch_iff hfirst).1 ((reads_stretch hfirst hp).sound h),
      fun h => (reads_stretch hfirst hp).complete ((Rule.stretch_iff hfirst).2 h) trivial⟩
  refine .token hcut (fun {s a t} h => ?_) eq_of_stretch_error fun {s s'} hs hs' h => ?_
  · obtain ⟨text, l⟩ := a
    have hcovers := hstretch.1 h
    obtain rfl : l = s.token.location := hcovers.location
    exact ⟨x text, (hx _ _ _).2 hcovers, fun hlocation hx' =>
      hstretch.2 (hlocation ▸ (hx _ _ _).1 hx')⟩
  · cases h' : stretch first p s' with
    | error u => rw [eq_of_stretch_error h', hs']
    | ok y =>
      obtain ⟨c, hc, hstart⟩ := (hstretch.1 h').exists_head
      have hspan := (stretch_iff_span (s := s.token) hp).2
        ⟨⟨c, by rw [hs, ← hcut.head_eq, ← hs', hc], hstart⟩, rfl, rfl⟩
      rw [hstretch.2 hspan] at h
      cases h

theorem parallel_name : Parallel e e' N N' name name :=
  parallel_stretch hcut .name (fun _ _ _ => .rfl) (by decide) fun c hc => by
    simp only [isNameStart, isNameChar, Char.isAlphanum] at hc ⊢
    grind

theorem parallel_integer : Parallel e e' N N' integer integer :=
  .bind (parallel_stretch hcut .integer (fun _ _ _ => .rfl) (by decide) fun _ hc => hc) fun _ =>
    .pure _

theorem parallel_discriminant : Parallel e e' N N' discriminant discriminant :=
  .bind (parallel_stretch hcut .discriminant (fun _ _ _ => .rfl) (by decide) fun _ hc => hc)
    fun _ => .pure _

/-- A literal that the line feed does not cut off is a literal of the first text. -/
theorem isSome_closeString {cs body rest' : List Char} (he : e.rest = '\x22' :: cs)
    (he' : e'.rest = '\x22' :: (body ++ '\x22' :: rest')) (hbody : Rule.Inside body) :
    (closeString cs).isSome := by
  have hline : '\n' ∉ '\x22' :: body ++ ['\x22'] := by simpa using hbody.notMem_lineFeed
  obtain ⟨rest, hrest⟩ := hcut.isPrefix hline ⟨rest', by simp [he']⟩
  have hcs : cs = body ++ '\x22' :: rest := by
    rw [he] at hrest
    simpa using hrest.symm
  rw [closeString_eq_some_iff.2 ⟨hcs, hbody⟩]
  rfl

theorem parallel_string : Parallel e e' N N' string string := by
  have hstring : ∀ {s a t}, string s = .ok (a, t) ↔
      s.token.Covers ('\x22' :: a.1.toList ++ ['\x22']) t ∧ a.2 = s.token.location ∧
        Rule.Inside a.1.toList :=
    ⟨fun h => Rule.string_iff.1 (reads_string.sound h),
      fun h => reads_string.complete (Rule.string_iff.2 h) trivial⟩
  refine .token hcut (fun {s a t} h => ?_) eq_of_string_error fun {s s'} hs hs' h => ?_
  · obtain ⟨hcovers, hlocation, hinside⟩ := hstring.1 h
    exact ⟨.string a.1, ⟨hcovers, hinside⟩, fun hsame hx' =>
      hstring.2 ⟨hx'.1, hlocation.trans hsame.symm, hx'.2⟩⟩
  · cases h' : string s' with
    | error u => rw [eq_of_string_error h', hs']
    | ok y =>
      obtain ⟨hcovers, -, hinside⟩ := hstring.1 h'
      have he' : e'.rest = '\x22' :: (y.1.1.toList ++ '\x22' :: y.2.rest) := by
        rw [← hs', hcovers.text]
        simp
      obtain ⟨cs, he⟩ : ∃ cs, e.rest = '\x22' :: cs :=
        List.head?_eq_some_iff.1 (by rw [← hcut.head_eq, he']; rfl)
      obtain ⟨⟨body, rest⟩, hclose⟩ :=
        Option.isSome_iff_exists.1 (isSome_closeString hcut he he' hinside)
      rw [string, hs, he] at h
      simp only [hclose] at h
      cases h

/-- Whether a sign of one character comes is the same in both texts. -/
theorem parallel_nextIs {text : String} {c : Char} (hc : text.toList = [c]) :
    Parallel e e' N N' (nextIs text) (nextIs text) where
  onward h := by
    cases h
    exact ⟨Nat.le_refl _, Nat.le_refl _⟩
  stops := nofun
  ok _ _ hs h hle := by
    cases h
    refine ⟨_, ?_, hs⟩
    rw [nextIs, hc, hcut.startsWith_eq hs hle]
  error _ _ _ := nofun

theorem parallel_unexpected {α : Type} :
    Parallel e e' N N' (unexpected : Reader α) unexpected :=
  .token hcut nofun (fun h => (Except.error.inj h).symm) fun _ hs' _ => congrArg _ hs'

/-- A choice by whether a sign comes. -/
theorem Parallel.branch {text : String} {c : Char} (hc : text.toList = [c])
    {r r' l l' : Reader α} (hr : Parallel e e' N N' r r') (hl : Parallel e e' N N' l l') :
    Parallel e e' N N' (do if ← nextIs text then r else l) (do if ← nextIs text then r' else l') :=
  .bind (parallel_nextIs hcut hc) fun b => by
    cases b with
    | true => exact hr
    | false => exact hl

/-! ## Items -/

omit hcut in
/-- An item and others, or none. -/
def itemsIf (r : Reader α) (rest : Reader (List α)) (more : Bool) : Reader (List α) :=
  if more then do
    let a ← r
    let as ← rest
    return a :: as
  else return []

omit hcut in
theorem manyUpTo_succ (more : Cursor → Bool) (r : Reader α) (n : Nat) :
    manyUpTo more r (n + 1) = fun s => itemsIf r (manyUpTo more r n) (more s) s := by
  funext s
  rw [manyUpTo, itemsIf]
  cases hmore : more s with
  | false => simp only [hmore]; rfl
  | true =>
    simp only [hmore, if_true]
    rw [bind_apply]
    cases r s with
    | error u => rfl
    | ok x =>
      change _ = (manyUpTo more r n x.2 >>= fun y => .ok (x.1 :: y.1, y.2))
      dsimp only
      cases manyUpTo more r n x.2 <;> rfl

/-- So many items as there is text for. -/
theorem Parallel.manyUpTo {more : Cursor → Bool} {r r' : Reader α}
    (hr : Parallel e e' N N' r r')
    (hmore : ∀ {s s'}, Twins e e' s s' → e.rest.length ≤ s.token.rest.length → more s' = more s)
    (hlt : ∀ {s a t}, r s = .ok (a, t) → t.rest.length < s.rest.length) (n n' : Nat) :
    Parallel e e' (min N (n + 1)) (min N' (n' + 1)) (manyUpTo more r n)
      (Reader.manyUpTo more r' n') := by
  induction n generalizing n' with
  | zero =>
    have hpure : Parallel e e' N N' (Pure.pure []) (Pure.pure [] : Reader (List α)) := .pure []
    exact hpure.noText hcut (by omega)
  | succ n ih =>
    have hstep : ∀ n', Parallel e e' (min N (n + 2)) (min N' (n' + 2))
        (Reader.manyUpTo more r (n + 1)) (Reader.manyUpTo more r' (n' + 1)) := fun n' => by
      rw [manyUpTo_succ, manyUpTo_succ]
      refine .look (k := itemsIf r _) (m := itemsIf r' _) hmore fun b => ?_
      cases b with
      | false => exact .pure []
      | true =>
        exact .bindFrom 1 (hr.mono (by omega) (by omega)) hlt fun a =>
          .bind ((ih n').mono (by omega) (by omega)) fun _ => .pure _
    cases n' with
    | zero => exact (hstep 0).noText hcut (by omega)
    | succ n' => exact hstep n'

theorem Parallel.many {more : Cursor → Bool} {r r' : Reader α} (hr : Parallel e e' N N' r r')
    (hmore : ∀ {s s'}, Twins e e' s s' → e.rest.length ≤ s.token.rest.length → more s' = more s)
    (hlt : ∀ {s a t}, r s = .ok (a, t) → t.rest.length < s.rest.length) :
    Parallel e e' N N' (many more r) (Reader.many more r') where
  onward {s _ _} h := (hr.manyUpTo hcut hmore hlt s.rest.length 0).onward h
  stops {s _} h := (hr.manyUpTo hcut hmore hlt s.rest.length 0).stops h
  ok {s s' _ _} hN hN' hs h hle :=
    (hr.manyUpTo hcut hmore hlt s.rest.length s'.rest.length).ok (by omega) (by omega) hs h hle
  error {s s'} hN hN' hs h :=
    (hr.manyUpTo hcut hmore hlt s.rest.length s'.rest.length).error (by omega) (by omega) hs h

theorem Parallel.commaSeparatedUpTo {r r' : Reader α} (hr : Parallel e e' N N' r r') (n n' : Nat) :
    Parallel e e' (min N (n + 1)) (min N' (n' + 1)) (commaSeparatedUpTo ")" r n)
      (Reader.commaSeparatedUpTo ")" r' n') := by
  have hclose : ∀ {M M'} (as : List α), Parallel e e' M M' (do sign ")"; return as)
      (do sign ")"; return as) :=
    fun as => .bind (parallel_sign hcut (by decide) (by decide)) fun _ => .pure as
  induction n generalizing n' with
  | zero =>
    have hnone : Parallel e e' N N' (do sign ")"; return []) (do sign ")"; return ([] : List α)) :=
      hclose []
    exact hnone.noText hcut (by omega)
  | succ n ih =>
    have hstep : ∀ n', Parallel e e' (min N (n + 2)) (min N' (n' + 2))
        (Reader.commaSeparatedUpTo ")" r (n + 1)) (Reader.commaSeparatedUpTo ")" r' (n' + 1)) := by
      intro n'
      refine .branch hcut rfl (hclose []) (.bind (hr.mono (by omega) (by omega)) fun a => ?_)
      refine .branch hcut rfl (.bindFrom 1 (parallel_sign hcut (by decide) (by decide)) ?_ fun _ =>
        .bind ((ih n').mono (by omega) (by omega)) fun _ => .pure _) (hclose [a])
      exact fun h => Nat.succ_le_of_lt (Rule.length_lt_of_sign rfl
        ((reads_sign rfl (by decide)).sound h))
    cases n' with
    | zero => exact (hstep 0).noText hcut (by omega)
    | succ n' => exact hstep n'

theorem Parallel.commaSeparated {r r' : Reader α} (hr : Parallel e e' N N' r r') :
    Parallel e e' N N' (commaSeparated ")" r) (Reader.commaSeparated ")" r') where
  onward {s _ _} h := (hr.commaSeparatedUpTo hcut s.rest.length 0).onward h
  stops {s _} h := (hr.commaSeparatedUpTo hcut s.rest.length 0).stops h
  ok {s s' _ _} hN hN' hs h hle :=
    (hr.commaSeparatedUpTo hcut s.rest.length s'.rest.length).ok (by omega) (by omega) hs h hle
  error {s s'} hN hN' hs h :=
    (hr.commaSeparatedUpTo hcut s.rest.length s'.rest.length).error (by omega) (by omega) hs h

omit hcut in
theorem branch_apply (text : String) (r l : Reader α) (s : Cursor) :
    (do if ← nextIs text then r else l : Reader α) s =
      if s.startsWith text.toList = true then r s else l s := by
  change (if s.startsWith text.toList = true then r else l) s = _
  split <;> rfl

omit hcut in
theorem startsWith_of_sign {text : String} {s : Cursor} {x : Unit × Cursor}
    (h : sign text s = .ok x) : s.startsWith text.toList = true := by
  rw [sign] at h
  split at h
  next hafter =>
    rw [startsWith, List.isPrefixOf_iff_prefix]
    exact ⟨_, (rest_of_after? hafter).symm⟩
  next => cases h

/-- A keyword does not come in the second text if it does not in the first. -/
theorem not_startsWith_of_twins {text : String} (hline : '\n' ∉ text.toList) {s s' : Cursor}
    (hs : Twins e e' s s') (hle : e.rest.length ≤ s.token.rest.length)
    (hnot : ¬ s.startsWith text.toList = true) : ¬ s'.startsWith text.toList = true := by
  intro h
  rw [startsWith, List.isPrefixOf_iff_prefix] at hnot h
  exact hnot ((hcut.twins (hcut.token hs hle) (token_gapFree s)).isPrefix hline h)

/-- A choice by whether a keyword comes, which is then read. If the keyword goes beyond the place,
so does reading. -/
theorem Parallel.keyword {text : String} (hne : text.toList ≠ []) (hline : '\n' ∉ text.toList)
    {k k' l l' : Reader α} (hk : Parallel e e' N N' k k') (hl : Parallel e e' N N' l l') :
    Parallel e e' N N' (do if ← nextIs text then (do sign text; k) else l)
      (do if ← nextIs text then (do sign text; k') else l') := by
  have hsign : Parallel e e' N N' (sign text) (sign text) := parallel_sign hcut hne hline
  have hr : Parallel e e' N N' (do sign text; k) (do sign text; k') := .bind hsign fun _ => hk
  constructor
  · intro s a t h
    rw [branch_apply] at h
    split at h
    · exact hr.onward h
    · exact hl.onward h
  · intro s u h
    rw [branch_apply] at h
    split at h
    · exact hr.stops h
    · exact hl.stops h
  · intro s s' a t hN hN' hs h hle
    rw [branch_apply] at h ⊢
    split at h
    next =>
      obtain ⟨_, u, hread, hrest⟩ := Parallel.bind_ok h
      obtain ⟨u', hread', -⟩ := hsign.ok hN hN' hs hread (Nat.le_trans hle (hk.onward hrest).2)
      rw [if_pos (startsWith_of_sign hread')]
      exact hr.ok hN hN' hs h hle
    next hnot =>
      have hle' := Nat.le_trans hle (hl.onward h).2
      rw [if_neg (not_startsWith_of_twins hcut hline hs hle' hnot)]
      exact hl.ok hN hN' hs h hle
  · intro s s' hN hN' hs h
    rw [branch_apply] at h ⊢
    split at h
    next hstarts =>
      rcases Parallel.bind_error h with h' | ⟨_, u, hread, hrest⟩
      · rw [startsWith, List.isPrefixOf_iff_prefix] at hstarts
        obtain ⟨rest, hrest⟩ := hstarts
        have hcovers : s.token.Covers text.toList ⟨rest, _⟩ := ⟨hrest.symm, rfl⟩
        rw [sign, after?_eq_some_iff.2 hcovers] at h'
        cases h'
      · obtain ⟨u', hread', -⟩ := hsign.ok hN hN' hs hread (hk.stops hrest)
        rw [if_pos (startsWith_of_sign hread')]
        exact hr.error hN hN' hs h
    next hnot =>
      rw [if_neg (not_startsWith_of_twins hcut hline hs (hl.stops h) hnot)]
      exact hl.error hN hN' hs h

/-! ## The readers of a schema -/

omit hcut in
theorem lt_of_sign {text : String} (hne : text.toList ≠ []) {s t : Cursor} {a : Unit}
    (h : sign text s = .ok (a, t)) : t.rest.length < s.rest.length := by
  rw [sign] at h
  split at h
  next hafter =>
    cases h
    have hlength := congrArg List.length (rest_of_after? hafter)
    have hpos := List.length_pos_iff.2 hne
    have hle := token_length_le s
    rw [List.length_append] at hlength
    omega
  next => cases h

omit hcut in
theorem lt_of_name {s t : Cursor} {x : String × Location} (h : name s = .ok (x, t)) :
    t.rest.length < s.rest.length := by
  have hstretch := Rule.name_iff.1 (reads_name.sound h)
  have hlength := hstretch.covers.length
  have hpos := List.length_pos_iff.2 hstretch.nonempty
  have hle := token_length_le s
  omega

/-- Items that begin with a sign, as long as it comes. -/
theorem Parallel.manySigned {text : String} {c : Char} (htext : text.toList = [c]) (hc : c ≠ '\n')
    {k k' : Unit → Reader α} (hk : ∀ x, Parallel e e' N N' (k x) (k' x)) :
    Parallel e e' N N' (Reader.many (·.startsWith [c]) (sign text >>= k))
      (Reader.many (·.startsWith [c]) (sign text >>= k')) := by
  have hne : text.toList ≠ [] := htext ▸ List.cons_ne_nil _ _
  have hline : '\n' ∉ text.toList := by simpa [htext] using hc.symm
  refine .many hcut (.bind (parallel_sign hcut hne hline) hk)
    (fun hs hle => hcut.startsWith_eq hs hle _) fun h => ?_
  obtain ⟨_, u, hsign, hrest⟩ := Parallel.bind_ok h
  exact Nat.lt_of_le_of_lt ((hk _).onward hrest).1 (lt_of_sign hne hsign)

/-! ## The readers of a schema -/

theorem parallel_sizes : Parallel e e' N N'
    (many (·.startsWith ['[']) do sign "["; let (n, _) ← integer; sign "]"; return n)
    (many (·.startsWith ['[']) do sign "["; let (n, _) ← integer; sign "]"; return n) :=
  .manySigned hcut rfl (by decide) fun _ => .bind (parallel_integer hcut) fun _ =>
    .bind (parallel_sign hcut (by decide) (by decide)) fun _ => .pure _

theorem parallel_typeUpTo (n n' : Nat) : Parallel e e' n n' (typeUpTo n) (typeUpTo n') := by
  have hsign : ∀ {text M M'}, text.toList ≠ [] → '\n' ∉ text.toList →
      Parallel e e' M M' (sign text) (sign text) := parallel_sign hcut
  induction n generalizing n' with
  | zero =>
    have hnone : Parallel e e' 0 0 (unexpected : Reader TypeExpr) unexpected :=
      parallel_unexpected hcut
    exact hnone.noText hcut (by omega)
  | succ n ih =>
    have hstep : ∀ n', Parallel e e' (n + 1) (n' + 1) (typeUpTo (n + 1)) (typeUpTo (n' + 1)) := by
      intro n'
      refine .bindFrom 1 (parallel_name hcut) (fun h => lt_of_name h) fun ⟨head, _⟩ => ?_
      refine .branch hcut rfl ?_ (.bind (.pure _) fun _ => .bind (parallel_sizes hcut) fun _ =>
        .pure _)
      refine .bind (hsign (by decide) (by decide)) fun _ => .bind (ih n') fun _ =>
        .bind (.manySigned hcut rfl (by decide) fun _ => ih n') fun _ =>
          .bind (hsign (by decide) (by decide)) fun _ => .bind (.pure _) fun _ =>
            .bind (parallel_sizes hcut) fun _ => .pure _
    cases n' with
    | zero => exact (hstep 0).noText hcut (by omega)
    | succ n' => exact hstep n'

theorem parallel_type : Parallel e e' N N' type type where
  onward {s _ _} h := (parallel_typeUpTo hcut (s.rest.length + 1) 0).onward h
  stops {s _} h := (parallel_typeUpTo hcut (s.rest.length + 1) 0).stops h
  ok {s s' _ _} _ _ hs h hle := (parallel_typeUpTo hcut (s.rest.length + 1)
    (s'.rest.length + 1)).ok (Nat.lt_succ_self _) (Nat.lt_succ_self _) hs h hle
  error {s s'} _ _ hs h := (parallel_typeUpTo hcut (s.rest.length + 1)
    (s'.rest.length + 1)).error (Nat.lt_succ_self _) (Nat.lt_succ_self _) hs h

omit hcut in
/-- The literal that begins with a character. -/
def literalFrom : Option Char → Reader (Literal × Location)
  | none => unexpected
  | some c =>
    if c = '\x22' then do let (t, l) ← string; return (Literal.string t, l)
    else if c.isDigit then do let (n, l) ← integer; return (Literal.integer n, l)
    else do let (t, l) ← name; return (Literal.name t, l)

omit hcut in
theorem literal_eq : literal = fun s => literalFrom s.next? s := by
  funext s
  cases hs : s.next? with
  | none => exact literal_of_empty hs
  | some c => exact literal_of_next? hs

theorem parallel_literal : Parallel e e' N N' literal literal := by
  rw [literal_eq]
  refine .look (k := literalFrom) (m := literalFrom) hcut.next?_eq fun c => ?_
  cases c with
  | none => exact parallel_unexpected hcut
  | some c =>
    simp only [literalFrom]
    split
    · exact .bind (parallel_string hcut) fun _ => .pure _
    · split
      · exact .bind (parallel_integer hcut) fun _ => .pure _
      · exact .bind (parallel_name hcut) fun _ => .pure _

theorem parallel_argument : Parallel e e' N N' argument argument := by
  refine .bind (parallel_literal hcut) fun ⟨value, l⟩ => ?_
  cases value with
  | name key =>
    exact .branch hcut rfl (.bind (parallel_sign hcut (by decide) (by decide)) fun _ =>
      .bind (parallel_literal hcut) fun _ => .pure _) (.pure _)
  | string | codePoints | integer => exact .pure _

theorem parallel_blocks : Parallel e e' N N' blocks blocks :=
  .manySigned hcut rfl (by decide) fun _ => .bind (parallel_name hcut) fun ⟨_, _⟩ =>
    .bind (parallel_sign hcut (by decide) (by decide)) fun _ =>
      .bind (.commaSeparated hcut (parallel_argument hcut)) fun _ => .pure _

theorem parallel_namedField : Parallel e e' N N' namedField namedField :=
  .bind (parallel_blocks hcut) fun _ => .bind (parallel_name hcut) fun ⟨_, _⟩ =>
    .bind (parallel_sign hcut (by decide) (by decide)) fun _ => .bind (parallel_type hcut) fun _ =>
      .branch hcut rfl (.bind (parallel_sign hcut (by decide) (by decide)) fun _ => .pure _)
        (.pure _)

theorem parallel_tupleField : Parallel e e' N N' tupleField tupleField := by
  have hplace : Parallel e e' N N' (fun s => .ok (s.token.location, s) : Reader Location)
      fun s => .ok (s.token.location, s) :=
    .look (g := fun s => s.token.location) (k := Pure.pure) (m := Pure.pure)
      (fun hs hle => (hcut.token hs hle).location) fun _ => .pure _
  exact .bind (parallel_blocks hcut) fun _ => .bind hplace fun _ => .bind (parallel_type hcut)
    fun _ => .pure _

/-- Items up to a closing brace. -/
theorem Parallel.manyUntil {r r' : Reader α} (hr : Parallel e e' N N' r r')
    (hlt : ∀ {s a t}, r s = .ok (a, t) → t.rest.length < s.rest.length) :
    Parallel e e' N N' (Reader.many (!·.startsWith ['\x7d']) r)
      (Reader.many (!·.startsWith ['\x7d']) r') :=
  hr.many hcut (fun hs hle => congrArg _ (hcut.startsWith_eq hs hle _)) hlt

theorem parallel_body : Parallel e e' N N' body body := by
  refine .branch hcut rfl (.bind (parallel_sign hcut (by decide) (by decide)) fun _ =>
      .bind (.manyUntil hcut (parallel_namedField hcut) fun h => ?_) fun _ =>
        .bind (parallel_sign hcut (by decide) (by decide)) fun _ => .pure _)
    (.branch hcut rfl (.bind (parallel_sign hcut (by decide) (by decide)) fun _ =>
      .bind (.commaSeparated hcut (parallel_tupleField hcut)) fun _ => .pure _) (.pure _))
  exact Rule.length_lt_of_tokenized Rule.tokenized_namedItem before_namedItem
    (reads_namedField.sound h)

theorem parallel_variant : Parallel e e' N N' variant variant :=
  .bind (parallel_blocks hcut) fun _ => .bind (parallel_name hcut) fun ⟨_, _⟩ =>
    .bind (parallel_body hcut) fun ⟨_, _⟩ => .branch hcut rfl
      (.bind (parallel_sign hcut (by decide) (by decide)) fun _ =>
        .bind (parallel_discriminant hcut) fun _ => .pure _) (.pure _)

theorem parallel_union (annotations : List AnnotationBlock) :
    Parallel e e' N N' (union annotations) (union annotations) := by
  refine .bind (parallel_sign hcut (by decide) (by decide)) fun _ =>
    .bind (parallel_name hcut) fun ⟨_, _⟩ =>
      .bind (parallel_sign hcut (by decide) (by decide)) fun _ =>
        .bind (.manyUntil hcut (parallel_variant hcut) fun h => ?_) fun _ =>
          .bind (parallel_sign hcut (by decide) (by decide)) fun _ => .pure _
  exact Rule.length_lt_of_tokenized Rule.tokenized_variant before_variant (reads_variant.sound h)

theorem parallel_declaration : Parallel e e' N N' declaration declaration := by
  refine .bind (parallel_blocks hcut) fun annotations => ?_
  simp only [record, bind_assoc]
  exact .keyword hcut (by decide) (by decide) (.bind (parallel_name hcut) fun ⟨_, _⟩ =>
    .bind (parallel_body hcut) fun ⟨_, _⟩ => .pure _)
    (.bind (parallel_union hcut annotations) fun _ => .pure _)

theorem parallel_declarations : Parallel e e' N N' declarations declarations :=
  (parallel_declaration hcut).many hcut (fun hs hle => congrArg _ (hcut.atEnd_eq hs hle))
    fun h => length_lt_of_declaration (reads_declaration.sound h)

end

/-- Where the declarations of a text stop being read, they do so in each text that is the same up to
there and goes on with a part of what comes, and a line feed. -/
theorem declarations_stops {s s' : Cursor} (hcut : Cut e e') (hs : Twins e e' s s')
    (h : declarations s = .error e) : declarations s' = .error e' :=
  (parallel_declarations hcut).error (Nat.lt_succ_self _) (Nat.lt_succ_self _) hs h

end Reader

end WireSchema
