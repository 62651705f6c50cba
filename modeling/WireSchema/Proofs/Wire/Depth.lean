import Mathlib.Data.Finset.Prod
import WireSchema.Proofs.Wire.Follows

/-!
# How deep references go

Decoding follows references up to a bound, and it is to be shown that the bound does not show: what
is decoded with the bound solves the equation in which each declared type is decoded by all others
without any bound.

If following one level more changes nothing for any declared type on any rest of the input, then no
further level changes anything. Each level up to there lets some declared type end on some rest that
did not end before. So there are no more such levels than there are pairs of a declared type and a
length of a rest, and the bound is as large as that.
-/

namespace WireSchema

open Read

/-! ## Relations between inputs -/

namespace Source

/-- A rest of a given input, twice. -/
def Within (base s t : Source) : Prop :=
  s = t ∧ s.bytes <:+ base.bytes ∧ s.origin = base.origin ∧ s.log = base.log

/-- The second input is a rest of a given one, which goes on where the first input ends. -/
def ProlongedBy (base : Source) (tail : List UInt8) (s t : Source) : Prop :=
  t = { base with bytes := s.bytes ++ tail }

theorem within_refl (s : Source) : Within s s s :=
  ⟨rfl, List.suffix_refl _, rfl, rfl⟩

/-- A rest is known by its length. -/
theorem Within.eq_of_length_eq {base s t : Source} (hs : Within base s s) (ht : Within base t t)
    (h : s.bytes.length = t.bytes.length) : s = t := by
  obtain ⟨-, hsb, hso, hsn⟩ := hs
  obtain ⟨-, htb, hto, htn⟩ := ht
  have hbytes : s.bytes = t.bytes :=
    (List.suffix_of_suffix_length_le hsb htb (Nat.le_of_eq h)).eq_of_length h
  obtain ⟨⟨_, _⟩, _⟩ := s
  obtain ⟨⟨_, _⟩, _⟩ := t
  simp_all

end Source

theorem steady_eq (X : Halt → Prop) : Steady Eq X where
  front := by
    rintro s t front rest rfl hs
    exact ⟨rest, hs, rfl⟩
  fault := .inr

theorem steady_within (base : Source) (X : Halt → Prop) : Steady base.Within X where
  front := by
    rintro s t front rest ⟨rfl, hb, ho, hn⟩ hs
    exact ⟨rest, hs, rfl, (List.suffix_append front rest).trans (hs ▸ hb), ho, hn⟩
  fault h := .inr h.1

theorem steady_prolongedBy (base : Source) (tail : List UInt8) :
    Steady (base.ProlongedBy tail) fun h => h.fault.kind = .input where
  front := by
    rintro s t front rest rfl hs
    refine ⟨rest ++ tail, ?_, rfl⟩
    rw [hs, List.append_assoc]
  fault _ := .inl fun _ hinput => hinput

/-! ## Depths -/

namespace Read

variable {α : Type} {E : Source → Source → Prop} {X : Halt → Prop}
  {x y : Except Halt (α × Source)}

theorem Agree.eq_of_ok (h : Agree E X x y) {a : α} {s : Source} (hx : x = .ok (a, s)) :
    ∃ t, y = .ok (a, t) ∧ E s t := by
  cases h with
  | found a hst =>
    cases hx
    exact ⟨_, rfl, hst⟩
  | failed f hst => cases hx
  | excused _ _ => cases hx

/-- Without excuses, and on the same input, outcomes that agree are the same. -/
theorem Agree.eq {base : Source} (h : Agree base.Within (fun _ => False) x y) : x = y := by
  cases h with
  | found a hst => rw [hst.1]
  | failed f hst => rw [hst.1]
  | excused _ hx => exact hx.elim

/-- What was logged in front of an input is logged where reading it fails. -/
theorem Agree.log_eq {base : Source} {h : Halt}
    (hxy : Agree base.Within (fun _ => False) (.error h) y) : h.log = base.log := by
  cases hxy with
  | failed f hst => exact hst.2.2.2
  | excused _ hx => exact hx.elim

end Read

namespace Layout

variable {S : Layout} (hS : S.WellFormed) (hH : S.HookFree) {B : Builtins} (H : Hooks)
include hS hH

theorem decodeAt_succ {d : Declaration} (hd : S.Declares d) (n : Nat) (s : Source) :
    S.decodeAt B H (n + 1) d.name s =
      B.calling d.name (S.readAs B H (S.decodeAt B H n) d.name d) s := by
  rw [decodeAt, hS.declaration?_eq_some hd]
  simp only [H.preDecoded_of_none (hH.hooks_eq_nil hd).2.2.1]
  rfl

/-- Readers of the declared types that follow each other still do so one level deeper. -/
theorem decodeAt_follows_succ {E : Source → Source → Prop} {X : Halt → Prop} (hE : Steady E X)
    {m n : Nat} (h : ∀ name ∈ S.names, Follows E X (S.decodeAt B H m name) (S.decodeAt B H n name)) :
    ∀ name ∈ S.names, Follows E X (S.decodeAt B H (m + 1) name) (S.decodeAt B H (n + 1) name) := by
  intro name hname s t hst
  obtain ⟨d, hd, rfl, -⟩ := hS.exists_declaration hname
  rw [decodeAt_succ hS hH H hd, decodeAt_succ hS hH H hd]
  exact B.calling_follows d.name (readAs_follows hE h hS hH H hd d.name) s t hst

theorem decodeAt_follows {E : Source → Source → Prop} {X : Halt → Prop} (hE : Steady E X)
    (n : Nat) : ∀ name ∈ S.names, Follows E X (S.decodeAt B H n name) (S.decodeAt B H n name) := by
  induction n with
  | zero => exact fun name _ s t hst => .failed .endless hst
  | succ n ih => exact decodeAt_follows_succ hS hH H hE ih

/-- What ends within some depth comes to the same within any greater one. -/
theorem decodeAt_follows_of_le {m n : Nat} (h : m ≤ n) :
    ∀ name ∈ S.names, Follows Eq (fun h => h.fault = .endless) (S.decodeAt B H m name)
      (S.decodeAt B H n name) := by
  induction m generalizing n with
  | zero => exact fun name _ s t _ => .excused _ rfl
  | succ m ih =>
    obtain ⟨n, rfl⟩ : ∃ k, n = k + 1 := ⟨n - 1, by omega⟩
    exact decodeAt_follows_succ hS hH H (steady_eq _) (ih (by omega))

/-- Within any depth, decoding ends and then does so in the same way within any greater depth, or it
does not end. -/
theorem decodeAt_eq_or_endless {base : Source} {name : String} (hname : name ∈ S.names) {s : Source}
    (hs : base.Within s s) (m : Nat) :
    (∀ n, m ≤ n → S.decodeAt B H n name s = S.decodeAt B H m name s) ∨
      S.decodeAt B H m name s = .error ⟨.endless, base.log⟩ := by
  have hself :=
    decodeAt_follows (B := B) hS hH H (steady_within base fun _ => False) m name hname s s hs
  by_cases hend : ∃ h, S.decodeAt B H m name s = .error h ∧ h.fault = .endless
  · obtain ⟨⟨fault, log⟩, hh, hfault⟩ := hend
    rw [hh] at hself ⊢
    cases hfault
    cases hself.log_eq
    exact .inr rfl
  · refine .inl fun n hmn => ?_
    have hagree := decodeAt_follows_of_le (B := B) hS hH H hmn name hname s s rfl
    generalize hx : S.decodeAt B H m name s = x at hagree hend
    generalize S.decodeAt B H n name s = y at hagree
    cases hagree with
    | found a hst => rw [hst]
    | failed f hst => rw [hst]
    | excused _ h => exact absurd ⟨_, rfl, h⟩ hend

/-- Nothing changes from a depth to the next, on any rest of an input. -/
def Settled (S : Layout) (B : Builtins) (H : Hooks) (base : Source) (n : Nat) : Prop :=
  ∀ name ∈ S.names, ∀ s, base.Within s s →
    S.decodeAt B H n name s = S.decodeAt B H (n + 1) name s

theorem Settled.succ {base : Source} {n : Nat} (h : Settled S B H base n) :
    Settled S B H base (n + 1) := by
  have hfollows : ∀ name ∈ S.names, Follows base.Within (fun _ => False) (S.decodeAt B H n name)
      (S.decodeAt B H (n + 1) name) := by
    intro name hname s t hst
    have hself :=
      decodeAt_follows (B := B) hS hH H (steady_within base fun _ => False) n name hname s t hst
    obtain rfl := hst.1
    rwa [h name hname s hst] at hself ⊢
  intro name hname s hs
  exact (decodeAt_follows_succ hS hH H (steady_within base _) hfollows name hname s s hs).eq

theorem Settled.of_le {base : Source} {m n : Nat} (h : Settled S B H base m) (hmn : m ≤ n) :
    Settled S B H base n := by
  induction n, hmn using Nat.le_induction with
  | base => exact h
  | succ n _ ih => exact ih.succ hS hH H

/-- From a settled depth on, depth does not matter. -/
theorem Settled.decodeAt_eq {base : Source} {m n : Nat} (h : Settled S B H base m) (hmn : m ≤ n)
    {name : String} (hname : name ∈ S.names) {s : Source} (hs : base.Within s s) :
    S.decodeAt B H n name s = S.decodeAt B H m name s := by
  induction n, hmn using Nat.le_induction with
  | base => rfl
  | succ n hmn ih => rw [← (h.of_le hS hH H hmn) name hname s hs, ih]

/-- A depth that is not settled is the last at which some declared type does not end on some
rest. -/
theorem exists_of_not_settled {base : Source} {n : Nat} (h : ¬ Settled S B H base n) :
    ∃ name ∈ S.names, ∃ s, base.Within s s ∧
      (∀ m ≤ n, S.decodeAt B H m name s = .error ⟨.endless, base.log⟩) ∧
      ∀ m, n < m → S.decodeAt B H m name s ≠ .error ⟨.endless, base.log⟩ := by
  simp only [Settled, not_forall] at h
  obtain ⟨name, hname, s, hs, hne⟩ := h
  have hcases := decodeAt_eq_or_endless (B := B) hS hH H hname hs
  have hn : S.decodeAt B H n name s = .error ⟨.endless, base.log⟩ :=
    (hcases n).resolve_left fun heq => hne (heq (n + 1) (by omega)).symm
  refine ⟨name, hname, s, hs, fun m hm => ?_, fun m hm hend => ?_⟩
  · rcases hcases m with heq | hend
    · rw [← heq n hm, hn]
    · exact hend
  · rcases hcases (n + 1) with heq | hend'
    · exact hne (by rw [hn, ← heq m hm, hend])
    · exact hne (by rw [hn, hend'])

/-- The number of levels that change anything is that of declared types with lengths of rests. -/
theorem settled_of_le {base : Source} {n : Nat}
    (hn : S.names.length * (base.bytes.length + 1) ≤ n) : Settled S B H base n := by
  by_contra hnot
  have hlast : ∀ m, m ≤ n → ¬ Settled S B H base m := fun m hm h => hnot (h.of_le hS hH H hm)
  choose! name hname s hs hbefore hafter using fun m (hm : m ≤ n) =>
    exists_of_not_settled hS hH H (hlast m hm)
  have hcard : (S.names.toFinset ×ˢ Finset.range (base.bytes.length + 1)).card <
      (Finset.range (n + 1)).card := by
    rw [Finset.card_product, Finset.card_range, Finset.card_range]
    have hnames := Nat.mul_le_mul_right (base.bytes.length + 1) (List.toFinset_card_le S.names)
    omega
  have hmaps : Set.MapsTo (fun m => (name m, (s m).bytes.length)) (Finset.range (n + 1))
      (S.names.toFinset ×ˢ Finset.range (base.bytes.length + 1) : Finset (String × Nat)) := by
    intro m hm
    have hm : m ≤ n := by simpa [Nat.lt_succ_iff] using hm
    have hlen := (hs m hm).2.1.length_le
    simp [hname m hm]
    omega
  obtain ⟨x, hx, y, hy, hne, heq⟩ := Finset.exists_ne_map_eq_of_card_lt_of_maps_to hcard hmaps
  have hx : x ≤ n := by simpa [Nat.lt_succ_iff] using hx
  have hy : y ≤ n := by simpa [Nat.lt_succ_iff] using hy
  obtain ⟨hnames, hlengths⟩ := Prod.mk.inj heq
  have hrests : s x = s y := (hs x hx).eq_of_length_eq (hs y hy) hlengths
  -- the earlier of the two levels is the last one without an end, and so is the later
  rcases Nat.lt_or_gt_of_ne hne with hlt | hlt
  · exact hafter x hx y hlt (hnames ▸ hrests ▸ hbefore y hy y (Nat.le_refl y))
  · exact hafter y hy x hlt (hnames ▸ hrests ▸ hbefore x hx x (Nat.le_refl x))

/-! ## Without a bound -/

/-- Decoding is decoding within any depth from the bound on. -/
theorem decode_eq_decodeAt {name : String} (hname : name ∈ S.names) {s : Source} {n : Nat}
    (hn : S.depthBound s.bytes ≤ n) : S.decodeIn B H name s = S.decodeAt B H n name s := by
  have hsettled : Settled S B H s (S.depthBound s.bytes) := by
    apply settled_of_le hS hH H
    simp only [depthBound, names, List.length_append, List.length_map]
    omega
  have hs := Source.within_refl s
  rw [hsettled.decodeAt_eq hS hH H hn hname hs, hsettled name hname s hs]
  obtain ⟨d, hd, rfl, hd?⟩ := hS.exists_declaration hname
  rw [decodeAt_succ hS hH H hd, decodeIn, hd?]
  simp only [Builtins.calling, H.preDecoded_of_none (hH.hooks_eq_nil hd).2.2.1]
  split <;> rfl

/-- A declared type is decoded as its declaration says, with the declared types in it decoded in the
same way. -/
theorem decode_eq_readAs {d : Declaration} (hd : S.Declares d) (s : Source) :
    S.decodeIn B H d.name s = B.calling d.name (S.readAs B H (S.decodeIn B H) d.name d) s := by
  have hname : d.name ∈ S.names := by
    cases d with
    | record r => exact mem_names_of_record hd
    | union u => exact mem_names_of_union hd
  have hfollows : ∀ name ∈ S.names, Follows s.Within (fun _ => False)
      (S.decodeAt B H (S.depthBound s.bytes) name) (S.decodeIn B H name) := by
    intro name hname t u htu
    have hself := decodeAt_follows (B := B) hS hH H (steady_within s fun _ => False)
      (S.depthBound s.bytes) name hname t u htu
    obtain rfl := htu.1
    have hbound : S.depthBound t.bytes ≤ S.depthBound s.bytes := by
      have hlen := htu.2.1.length_le
      have hmul := Nat.mul_le_mul_left (S.records.length + S.unions.length)
        (Nat.add_le_add_right hlen 1)
      simp only [depthBound]
      omega
    rwa [decode_eq_decodeAt hS hH H hname hbound]
  rw [decode_eq_decodeAt hS hH H hname (Nat.le_succ _), decodeAt_succ hS hH H hd]
  exact (B.calling_follows d.name (readAs_follows (steady_within s _) hfollows hS hH H hd d.name) s
    s (Source.within_refl s)).eq

/-- Decoding follows itself, whatever inputs are compared. -/
theorem decode_follows {E : Source → Source → Prop} {X : Halt → Prop} (hE : Steady E X) :
    ∀ name ∈ S.names, Follows E X (S.decodeIn B H name) (S.decodeIn B H name) := by
  intro name hname s t hst
  have hs : S.depthBound s.bytes ≤ max (S.depthBound s.bytes) (S.depthBound t.bytes) :=
    Nat.le_max_left _ _
  have ht : S.depthBound t.bytes ≤ max (S.depthBound s.bytes) (S.depthBound t.bytes) :=
    Nat.le_max_right _ _
  rw [decode_eq_decodeAt hS hH H hname hs, decode_eq_decodeAt hS hH H hname ht]
  exact decodeAt_follows hS hH H hE _ name hname s t hst

/-! ## Names of variants -/

omit hS hH in
theorem declares_of_declaration? {name : String} {d : Declaration}
    (h : S.declaration? name = some d) : S.Declares d := by
  unfold declaration? at h
  cases hr : S.record? name with
  | some r =>
    rw [hr] at h
    cases h
    exact (mem_of_record? hr).1
  | none =>
    cases hu : S.union? name with
    | some u =>
      rw [hr, hu] at h
      cases h
      exact (mem_of_union? hu).1
    | none =>
      rw [hr, hu] at h
      dsimp only at h
      split at h
      next =>
        obtain ⟨p, hp, rfl⟩ := Option.map_eq_some_iff.1 h
        exact (mem_of_variant? hp).1
      next => cases h

omit hS in
/-- What is asked for by another name is read in the same way. -/
theorem readAs_eq {d : Declaration} (hd : S.Declares d) (D : String → Read Value)
    (type type' : String) : S.readAs B H D type d = S.readAs B H D type' d := by
  funext s
  cases d with
  | record r =>
    have hpost : r.attributes.postDecode = none := (hH.hooks_eq_nil (d := .record r) hd).2.2.2
    simp only [readAs, H.postDecoded_of_none hpost]
  | union u =>
    have hpost : u.attributes.postDecode = none := (hH.hooks_eq_nil (d := .union u) hd).2.2.2
    simp only [readAs, H.postDecoded_of_none hpost]

/-- A variant is decoded as its union. -/
theorem decode_eq_of_declaration? {name : String} {d : Declaration}
    (h : S.declaration? name = some d) : S.decodeIn B H name = S.decodeIn B H d.name := by
  have hd := declares_of_declaration? h
  have hpre := (hH.hooks_eq_nil hd).2.2.1
  funext s
  rw [decodeIn, decodeIn, h, hS.declaration?_eq_some hd]
  simp only [H.preDecoded_of_none hpre, readAs_eq hH H hd _ name d.name]

/-- Decoding follows itself by whatever name. -/
theorem decode_follows_self {E : Source → Source → Prop} {X : Halt → Prop} (hE : Steady E X)
    (name : String) : Follows E X (S.decodeIn B H name) (S.decodeIn B H name) := by
  cases h : S.declaration? name with
  | none =>
    intro s t hst
    rw [decodeIn, decodeIn, h]
    exact .failed _ hst
  | some d =>
    rw [decode_eq_of_declaration? hS hH H h]
    refine decode_follows hS hH H hE d.name ?_
    cases d with
    | record r => exact mem_names_of_record (declares_of_declaration? h)
    | union u => exact mem_names_of_union (declares_of_declaration? h)

/-- So does every codec. -/
theorem codec_follows_self {E : Source → Source → Prop} {X : Halt → Prop} (hE : Steady E X)
    (c : Codec) : Follows E X (c.decode (S.decodeIn B H)) (c.decode (S.decodeIn B H)) :=
  c.follows_decode hE fun name _ => decode_follows_self hS hH H hE name

end Layout

end WireSchema
