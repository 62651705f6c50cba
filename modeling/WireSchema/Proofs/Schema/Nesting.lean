import WireSchema.Proofs.Schema.Gap
import WireSchema.Schema.Grammar

/-!
# Types nested so deep

An array of some type starts with the spelling of that type, so the rule for types begins with
itself. Here are types without that: a name, perhaps applied to types nested less deep, and then any
number of sizes. Each level of nesting takes up text, so the length of the text is deep enough.
-/

namespace WireSchema

open Cursor

namespace Rule

variable {α β : Type}

/-! ## Sequences of rules -/

theorem ext {p q : Rule α} (h : ∀ s a t, p s a t ↔ q s a t) : p = q :=
  funext fun s => funext fun a => funext fun t => propext (h s a t)

instance : LawfulMonad Rule := by
  refine LawfulMonad.mk' Rule (fun p => ext fun s a t => ?_) (fun a k => ext fun s b t => ?_)
    fun p k l => ext fun s c v => ?_
  · constructor
    · rintro ⟨_, _, h, rfl, rfl⟩
      exact h
    · exact fun h => ⟨a, t, h, rfl, rfl⟩
  · constructor
    · rintro ⟨_, _, ⟨rfl, rfl⟩, h⟩
      exact h
    · exact fun h => ⟨a, s, ⟨rfl, rfl⟩, h⟩
  · constructor
    · rintro ⟨b, u, ⟨a, t, ha, hb⟩, hc⟩
      exact ⟨a, t, ha, b, u, hb, hc⟩
    · rintro ⟨a, t, ha, b, u, hb, hc⟩
      exact ⟨b, u, ⟨a, t, ha, hb⟩, hc⟩

theorem Many.concat {p : Rule α} {s t u : Cursor} {as : List α} {a : α} (h : Many p s as t)
    (ha : p t a u) : Many p s (as ++ [a]) u := by
  induction h with
  | nil => exact .cons ha (.nil u)
  | cons hfirst _ ih => exact .cons hfirst (ih ha)

/-! ## Types -/

/-- A size behind a type. -/
def size : Rule Nat := do
  sign "["
  let (n, _) ← integer
  sign "]"
  return n

/-- A type, given the rule for the types it is applied to. -/
def typeOf (arg : Rule TypeExpr) : Rule TypeExpr := do
  let (head, _) ← name
  let base ← orElse
    (do
      sign "<"
      let first ← arg
      let more ← many do
        sign ","
        arg
      sign ">"
      return .applied head (first :: more))
    (return .named head)
  let sizes ← many size
  return sizes.foldl .array base

/-- A type nested less than `depth` deep. -/
def typeUpTo : Nat → Rule TypeExpr
  | 0 => fun _ _ _ => False
  | depth + 1 => typeOf (typeUpTo depth)

theorem location_of_name {s t : Cursor} {n : String} {l : Location} (h : name s (n, l) t) :
    l = s.token.location :=
  (name_iff.1 h).location

theorem type_of_many_size {s t u : Cursor} {e : TypeExpr} {l : Location} {sizes : List Nat}
    (h : TypeSpelled s (e, l) t) (hsizes : Many size t sizes u) :
    TypeSpelled s (sizes.foldl .array e, l) u := by
  induction hsizes generalizing e with
  | nil => exact h
  | cons hsize _ ih =>
    obtain ⟨_, _, hopen, ⟨n, m⟩, _, hn, _, _, hclose, rfl, rfl⟩ := hsize
    exact ih (.array h hopen hn hclose)

theorem types_of_many {p : Rule TypeExpr}
    (hp : ∀ {s e t}, p s e t → TypeSpelled s (e, s.token.location) t) {s t u : Cursor}
    {first : TypeExpr} {more : List TypeExpr} (hfirst : p s first t)
    (hmore : Many (do sign ","; p) t more u) : TypesSpelled s (first :: more) u := by
  induction hmore generalizing s first with
  | nil => exact .single (hp hfirst)
  | cons hnext _ ih =>
    obtain ⟨_, _, hcomma, hnext⟩ := hnext
    exact .cons (hp hfirst) hcomma (ih hnext)

theorem type_of_typeUpTo {n : Nat} {s t : Cursor} {e : TypeExpr} (h : typeUpTo n s e t) :
    TypeSpelled s (e, s.token.location) t := by
  induction n generalizing s e t with
  | zero => exact h.elim
  | succ n ih =>
    obtain ⟨⟨head, l⟩, s₁, hname, base, s₂, hbase, sizes, _, hsizes, rfl, rfl⟩ := h
    obtain rfl := location_of_name hname
    refine type_of_many_size ?_ hsizes
    rcases hbase with ⟨_, s₃, hopen, first, s₄, hfirst, more, s₅, hmore, _, s₆, hclose, rfl, rfl⟩ |
      ⟨rfl, rfl⟩
    · refine .applied hname hopen ?_ hclose
      exact types_of_many ih hfirst hmore
    · exact .named hname

/-- What a rule spells does not reach back. -/
theorem length_le_of_name {s t : Cursor} {x : String × Location} (h : name s x t) :
    t.rest.length ≤ s.rest.length := by
  obtain ⟨u, hgap, hx⟩ := h
  exact Nat.le_trans (hx.covers.length ▸ Nat.le_add_left _ _) hgap.length_le

theorem length_lt_of_sign {text : String} {c : Char} {s t : Cursor} {a : Unit}
    (hc : text.toList.head? = some c) (h : sign text s a t) :
    t.rest.length < s.rest.length := by
  obtain ⟨u, hgap, hu⟩ := h
  have hpos : 0 < text.toList.length := by
    cases htext : text.toList with
    | nil => simp [htext] at hc
    | cons => simp
  have hlen := hu.length
  have hle := hgap.length_le
  omega

theorem length_le_of_integer {s t : Cursor} {x : Nat × Location} (h : integer s x t) :
    t.rest.length ≤ s.rest.length := by
  obtain ⟨_, _, ⟨u, hgap, hx⟩, -, rfl⟩ := h
  exact Nat.le_trans (hx.covers.length ▸ Nat.le_add_left _ _) hgap.length_le

mutual
theorem typeUpTo_of_type {s t : Cursor} {x : TypeExpr × Location} :
    TypeSpelled s x t → x.2 = s.token.location ∧
      t.rest.length ≤ s.rest.length ∧ ∀ n, s.rest.length < n → typeUpTo n s x.1 t
  | .named hname => by
    refine ⟨location_of_name hname, length_le_of_name hname, fun n hn => ?_⟩
    obtain ⟨n, rfl⟩ := Nat.exists_eq_succ_of_ne_zero (Nat.ne_zero_of_lt hn)
    exact ⟨_, _, hname, _, _, .inr ⟨rfl, rfl⟩, [], _, .nil _, rfl, rfl⟩
  | .applied hname hopen hargs hclose => by
    have hle := length_le_of_name hname
    have hlt := length_lt_of_sign rfl hopen
    have hlt' := length_lt_of_sign rfl hclose
    obtain ⟨hle', hupTo⟩ := typesUpTo_of_types hargs
    refine ⟨location_of_name hname, by omega, fun n hn => ?_⟩
    obtain ⟨n, rfl⟩ := Nat.exists_eq_succ_of_ne_zero (Nat.ne_zero_of_lt hn)
    obtain ⟨first, more, u, rfl, hfirst, hmore⟩ := hupTo n (by omega)
    exact ⟨_, _, hname, _, _, .inl ⟨_, _, hopen, first, _, hfirst, more, _, hmore, _, _, hclose,
      rfl, rfl⟩, [], _, .nil _, rfl, rfl⟩
  | .array htype hopen hsize hclose => by
    obtain ⟨hlocation, hle, hupTo⟩ := typeUpTo_of_type htype
    have hlt := length_lt_of_sign rfl hopen
    have hle' := length_le_of_integer hsize
    have hlt' := length_lt_of_sign rfl hclose
    refine ⟨hlocation, by omega, fun n hn => ?_⟩
    have hbase := hupTo n hn
    obtain ⟨n, rfl⟩ := Nat.exists_eq_succ_of_ne_zero (Nat.ne_zero_of_lt hn)
    obtain ⟨head, _, hname, base, _, hbase, sizes, _, hsizes, rfl, rfl⟩ := hbase
    refine ⟨head, _, hname, base, _, hbase, sizes ++ [_], _,
      hsizes.concat ⟨_, _, hopen, _, _, hsize, _, _, hclose, rfl, rfl⟩, ?_, rfl⟩
    rw [List.foldl_append]
    rfl

theorem typesUpTo_of_types {s t : Cursor} {es : List TypeExpr} :
    TypesSpelled s es t →
      t.rest.length ≤ s.rest.length ∧ ∀ n, s.rest.length < n → ∃ first more u,
        es = first :: more ∧ typeUpTo n s first u ∧ Many (do sign ","; typeUpTo n) u more t
  | .single htype => by
    obtain ⟨-, hle, hupTo⟩ := typeUpTo_of_type htype
    exact ⟨hle, fun n hn => ⟨_, [], _, rfl, hupTo n hn, .nil _⟩⟩
  | .cons htype hcomma hrest => by
    obtain ⟨-, hle, hupTo⟩ := typeUpTo_of_type htype
    have hlt := length_lt_of_sign rfl hcomma
    obtain ⟨hle', hupTo'⟩ := typesUpTo_of_types hrest
    refine ⟨by omega, fun n hn => ?_⟩
    obtain ⟨first, more, u, rfl, hfirst, hmore⟩ := hupTo' n (by omega)
    exact ⟨_, first :: more, _, rfl, hupTo n hn, .cons ⟨_, _, hcomma, hfirst⟩ hmore⟩
end

end Rule

end WireSchema
