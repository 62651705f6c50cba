import Mathlib.Data.Set.Finite.Basic
import Mathlib.Order.WellFounded
import WireSchema.Proofs.Wire.Soundness
import WireSchema.Wire.Grounded

/-!
# Where reading ends

Declared types refer to each other in circles, and some are read without taking a byte. Yet reading
ends, if no record holds itself. What a list, a map, an optional or a union reads of other types
stands behind a count or a tag, and so in fewer bytes than there were. Only records and arrays pass
all bytes on, and they do so along a relation of which there is no circle among finitely many names.

So the proof is by the number of bytes, and for one number by what the names hold. A codec ends if
the declared types end on fewer bytes and those that it holds end on the same number.
-/

namespace WireSchema

namespace Read

variable {α β : Type}

/-- Fewer bytes remain than some number, or reading stopped by something other than that references
go on. -/
inductive Ended (n : Nat) : Except Halt (α × Source) → Prop
  | value (a : α) {s : Source} : s.bytes.length < n → Ended n (.ok (a, s))
  | halt {h : Halt} : h.fault.kind ≠ .endless → Ended n (.error h)

/-- On inputs of at most `n` bytes, reading ends, and no more bytes remain than there were. -/
def Ends (n : Nat) (read : Read α) : Prop :=
  ∀ s, s.bytes.length ≤ n → Ended (s.bytes.length + 1) (read s)

theorem Ended.mono {m n : Nat} {x : Except Halt (α × Source)} (h : Ended m x) (hmn : m ≤ n) :
    Ended n x := by
  cases h with
  | value a hs => exact .value a (Nat.lt_of_lt_of_le hs hmn)
  | halt hk => exact .halt hk

theorem Ended.bind {n : Nat} {x : Except Halt (α × Source)}
    {f : α × Source → Except Halt (β × Source)} (h : Ended n x)
    (hf : ∀ a s, s.bytes.length < n → Ended (s.bytes.length + 1) (f (a, s))) :
    Ended n (x >>= f) := by
  cases h with
  | value a hs => exact (hf a _ hs).mono hs
  | halt hk => exact .halt hk

theorem Ended.of_outcome_eq {n : Nat} {x y : Except Halt (α × Source)} (hy : Ended n y)
    (h : outcome x = outcome y) : Ended n x := by
  cases hy with
  | value a hs =>
    rw [outcome_eq_ok_iff.1 h]
    exact .value a hs
  | halt hk =>
    cases x with
    | ok r => cases h
    | error h' =>
      simp only [outcome, Except.mapError, Except.error.injEq, Prod.mk.injEq] at h
      exact .halt (h.1 ▸ hk)

theorem ended_ok (a : α) (s : Source) : Ended (s.bytes.length + 1) (.ok (a, s)) :=
  .value a (Nat.lt_succ_self _)

/-- Reading of bytes ends wherever it is exact. -/
theorem ends_lift {read : BytesReader α} (hr : read.Exact) (hfails : read.FailsByInput) (n : Nat) :
    Ends n (lift read) := by
  intro s _
  rw [lift]
  cases hs : read s.bytes with
  | ok r =>
    obtain ⟨front, hbs, -⟩ := hr _ _ _ hs
    have hlen := congrArg List.length hbs
    rw [List.length_append] at hlen
    exact .value r.1 (Nat.lt_succ_of_le (Nat.le_of_add_left_le (Nat.le_of_eq hlen.symm)))
  | error f => exact .halt fun hend => by cases (hfails _ _ hs).symm.trans hend

/-- A number takes at least one byte. -/
theorem ended_readInt (k : IntKind) (s : Source) : Ended s.bytes.length (lift (readInt k) s) := by
  rw [lift]
  cases hs : readInt k s.bytes with
  | ok r =>
    obtain ⟨front, hfront, -, hbs⟩ := exists_of_readInt hs
    have hlen := congrArg List.length hbs
    have hpos := k.size_pos
    rw [List.length_append] at hlen
    refine .value r.1 ?_
    dsimp only
    omega
  | error f => exact .halt fun hend => by cases (failsByInput_readInt k _ _ hs).symm.trans hend

theorem ended_readCount (s : Source) : Ended s.bytes.length (lift readCount s) := by
  rw [lift]
  cases hs : readCount s.bytes with
  | ok r =>
    have hlen := congrArg List.length (eq_append_of_readCount hs)
    have hcount := length_countBytes (le_maxLength_of_readCount hs)
    rw [List.length_append] at hlen
    refine .value r.1 ?_
    dsimp only
    omega
  | error f => exact .halt fun hend => by cases (failsByInput_readCount _ _ hs).symm.trans hend

theorem ended_readBool (s : Source) : Ended s.bytes.length (lift readBool s) := by
  rw [lift]
  cases hs : readBool s.bytes with
  | ok r =>
    obtain ⟨byte, hbs, -⟩ := exists_of_readBool hs
    have hlen := congrArg List.length hbs
    rw [List.length_cons] at hlen
    refine .value r.1 ?_
    dsimp only
    omega
  | error f => exact .halt fun hend => by cases (failsByInput_readBool _ _ hs).symm.trans hend

theorem Ends.timesOnto {n : Nat} {read : Read α} (h : Ends n read) (count : Nat) (as : List α) :
    Ends n (timesOnto read count as) := by
  induction count generalizing as with
  | zero => exact fun s _ => ended_ok _ s
  | succ count ih =>
    intro s hs
    have hfirst := h s hs
    rw [Read.timesOnto]
    generalize read s = x at hfirst ⊢
    cases hfirst with
    | value a hlt => exact (ih (a :: as) _ (by omega)).mono hlt
    | halt hk => exact .halt hk

theorem Ends.times {n : Nat} {read : Read α} (h : Ends n read) (count : Nat) :
    Ends n (times read count) :=
  h.timesOnto count []

theorem Ends.iterate {n : Nat} {step : α → Read α} (h : ∀ a, Ends n (step a)) (count : Nat)
    (a : α) : Ends n (iterate step count a) := by
  induction count generalizing a with
  | zero => exact fun s _ => ended_ok _ s
  | succ count ih =>
    intro s hs
    have hfirst := h a s hs
    rw [Read.iterate]
    generalize step a s = x at hfirst ⊢
    cases hfirst with
    | value b hlt => exact (ih b _ (by omega)).mono hlt
    | halt hk => exact .halt hk

theorem Ends.calling {n : Nat} {read : Read α} (h : Ends n read) (B : Builtins) (type : String) :
    Ends n (B.calling type read) := by
  intro s hs
  unfold Builtins.calling
  split
  · exact h s hs
  · exact .halt nofun

end Read

open Read

namespace Layout

variable {S : Layout}

theorem Admits.mem_of_holds {c : Codec} {name : String} (hc : S.Admits c) (h : c.Holds name) :
    name ∈ S.names := by
  induction h with
  | declared name =>
    cases hc with | declared hname =>
    exact hname
  | array _ _ ih =>
    cases hc with | array _ hc =>
    exact ih hc

/-! ## Codecs -/

section

variable {D : String → Read Value}

theorem ends_readEntry {k c : Codec} {n : Nat} (hk : Ends n (k.decode D)) (hc : Ends n (c.decode D))
    (es : List (Value × Value)) : Ends n (Codec.readEntry k c D es) := by
  intro s hs
  refine (hk s hs).bind fun key s hlt => ?_
  refine (hc s (by omega)).bind fun v s _ => ?_
  dsimp only
  split
  · exact ended_ok _ s
  · exact .halt nofun

/-- A codec passes all bytes on only to the types that it holds. -/
theorem decode_ends {c : Codec} (hc : S.Admits c) {n : Nat}
    (hshort : ∀ m < n, ∀ name ∈ S.names, Ends m (D name))
    (hheld : ∀ name, c.Holds name → Ends n (D name)) : Ends n (c.decode D) := by
  induction c generalizing n with
  | int k =>
    exact ends_lift ((exact_readInt k).map Value.int) ((failsByInput_readInt k).map Value.int) n
  | bool => exact ends_lift (exact_readBool.map Value.bool) (failsByInput_readBool.map Value.bool) n
  | string =>
    exact ends_lift (exact_readString.map Value.text) (failsByInput_readString.map Value.text) n
  | packedBools => exact ends_lift exact_readPackedBools failsByInput_readPackedBools n
  | optional c ih =>
    cases hc with | optional hc =>
    intro s hs
    refine Ended.mono ((ended_readBool s).bind fun present t ht => ?_) (Nat.le_succ _)
    have hlt : t.bytes.length < n := Nat.lt_of_lt_of_le ht hs
    cases present with
    | true =>
      exact ih hc (fun m hm => hshort m (Nat.lt_trans hm hlt))
        (fun name hname => hshort _ hlt name (hc.mem_of_holds hname)) t (Nat.le_refl _)
    | false => exact ended_ok _ t
  | list c ih =>
    cases hc with | list hc =>
    intro s hs
    refine Ended.mono ((ended_readCount s).bind fun count t ht => ?_) (Nat.le_succ _)
    have hlt : t.bytes.length < n := Nat.lt_of_lt_of_le ht hs
    have hitem := ih hc (fun m hm => hshort m (Nat.lt_trans hm hlt))
      fun name hname => hshort _ hlt name (hc.mem_of_holds hname)
    dsimp only
    split
    · exact .halt nofun
    · exact (hitem.times count t (Nat.le_refl _)).bind fun vs t _ => ended_ok _ t
  | array c size ih =>
    cases hc with | array _ hc =>
    intro s hs
    have hitem := ih hc hshort fun name hname => hheld name (.array size hname)
    exact (hitem.times size s hs).bind fun vs t _ => ended_ok _ t
  | map k c ihk ihc =>
    cases hc with | map hk hc =>
    have hk : S.Admits k := .of_isKey hk
    intro s hs
    refine Ended.mono ((ended_readCount s).bind fun count t ht => ?_) (Nat.le_succ _)
    have hlt : t.bytes.length < n := Nat.lt_of_lt_of_le ht hs
    have hless : ∀ m < t.bytes.length, ∀ name ∈ S.names, Ends m (D name) := fun m hm =>
      hshort m (Nat.lt_trans hm hlt)
    have hkey := ihk hk hless fun name hname => hshort _ hlt name (hk.mem_of_holds hname)
    have hvalue := ihc hc hless fun name hname => hshort _ hlt name (hc.mem_of_holds hname)
    dsimp only
    split
    · exact .halt nofun
    · exact (Ends.iterate (ends_readEntry hkey hvalue) count [] t (Nat.le_refl _)).bind
        fun es t _ => ended_ok _ t
  | declared name => exact hheld name (.declared name)

theorem decodeEach_ends {fields : List Field} {n : Nat}
    (h : ∀ f ∈ fields, Ends n (f.codec.decode D)) : Ends n (Field.decodeEach D fields) := by
  induction fields with
  | nil => exact fun s _ => ended_ok _ s
  | cons f fs ih =>
    intro s hs
    refine (h f (.head _) s hs).bind fun v t ht => ?_
    exact (ih (fun f hf => h f (.tail _ hf)) t (by omega)).bind fun others t _ => ended_ok _ t

theorem decodeAll_ends {fields : List Field} {n : Nat}
    (h : ∀ f ∈ fields, Ends n (f.codec.decode D)) :
    Ends n (Segment.decodeAll D (Segment.ofFields fields)) :=
  fun s hs => (decodeEach_ends h s hs).of_outcome_eq (Field.outcome_decodeAll D fields s)

end

/-! ## Declared types -/

section

variable (hS : S.WellFormed) (hH : S.HookFree) {B : Builtins} (H : Hooks)

/-- What records hold can be followed only finitely far. -/
theorem Grounded.wellFounded (hG : S.Grounded) :
    WellFounded fun a b : {name // name ∈ S.names} => Relation.TransGen S.Contains b a := by
  have : Finite {name // name ∈ S.names} := List.finite_toSet S.names
  have : IsTrans {name // name ∈ S.names} fun a b => Relation.TransGen S.Contains b a :=
    ⟨fun _ _ _ hab hbc => hbc.trans hab⟩
  have : Std.Irrefl fun a b : {name // name ∈ S.names} => Relation.TransGen S.Contains b a :=
    ⟨fun a => hG a⟩
  exact Finite.wellFounded_of_trans_of_irrefl _

include hS hH

/-- A union ends on the bytes behind its tag, if all declared types do. -/
theorem ends_union {u : UnionLayout} (hu : u ∈ S.unions) {n : Nat}
    (hshort : ∀ m < n, ∀ name ∈ S.names, Ends m (S.decodeIn B H name)) :
    Ends n (S.decodeIn B H u.name) := by
  intro s hs
  have hpost : u.attributes.postDecode = none := (hH.hooks_eq_nil (d := .union u) hu).2.2.2
  rw [show S.decodeIn B H u.name s = _ from decode_eq_readAs hS hH H (d := .union u) hu s]
  refine Ends.calling (n := n) (fun s hs => ?_) B u.name s hs
  refine Ended.mono ((ended_readInt u.width.kind s).bind fun tag t ht => ?_) (Nat.le_succ _)
  have hlt : t.bytes.length < n := Nat.lt_of_lt_of_le ht hs
  dsimp only
  cases hv : u.variantOfTag? tag with
  | none => exact .halt nofun
  | some v =>
    have hadmits := ((hS.unions u hu).fields v (List.mem_of_find?_eq_some hv)).admits
    have hfields : ∀ f ∈ v.variant.fields, Ends t.bytes.length (f.codec.decode (S.decodeIn B H)) :=
      fun f hf => decode_ends (hadmits f hf) (fun m hm => hshort m (Nat.lt_trans hm hlt))
        fun name hname => hshort _ hlt name ((hadmits f hf).mem_of_holds hname)
    refine (decodeAll_ends hfields t (Nat.le_refl _)).bind fun read t _ => ?_
    dsimp only
    rw [H.postDecoded_of_none hpost]
    exact ended_ok _ t

/-- A record ends on as many bytes as its fields do. -/
theorem ends_record {r : RecordLayout} (hr : r ∈ S.records) {n : Nat}
    (h : ∀ f ∈ r.wireFields, Ends n (f.codec.decode (S.decodeIn B H))) :
    Ends n (S.decodeIn B H r.name) := by
  intro s hs
  have hpost : r.attributes.postDecode = none := (hH.hooks_eq_nil (d := .record r) hr).2.2.2
  rw [show S.decodeIn B H r.name s = _ from decode_eq_readAs hS hH H (d := .record r) hr s]
  refine Ends.calling (n := n) (fun s hs => ?_) B r.name s hs
  have hfields := (hS.records r hr).wireFields
  have hfound := decodeAll_finds (decode_declared_finds hS hH (B := B) H) hfields s
  have hended := decodeAll_ends h s hs
  change Ended _ (Segment.decodeAll _ (Segment.ofFields r.wireFields) s >>= _)
  generalize Segment.decodeAll _ (Segment.ofFields r.wireFields) s = x at hfound hended ⊢
  cases hended with
  | halt hk => exact .halt hk
  | value read hlt =>
    cases hfound with
    | value t hread =>
    have hcomplete := completeFields_of_names (B := B) hS hr hread.names
    simp only [bind, Except.bind, hcomplete]
    cases S.fillsIgnored B r.fields with
    | true =>
      simp only [if_true, H.postDecoded_of_none hpost]
      exact .value _ hlt
    | false => exact .halt nofun

/-- On a number of bytes on which less is read without end, a declared type is read as those that it
holds are. -/
theorem decode_ends_of_lt (hG : S.Grounded) {n : Nat}
    (hshort : ∀ m < n, ∀ name ∈ S.names, Ends m (S.decodeIn B H name)) :
    ∀ name ∈ S.names, Ends n (S.decodeIn B H name) := by
  intro name hname
  refine hG.wellFounded.induction (C := fun a => Ends n (S.decodeIn B H a.1)) ⟨name, hname⟩ ?_
  rintro ⟨name, hname⟩ ih
  obtain ⟨d, hd, rfl, -⟩ := hS.exists_declaration hname
  cases d with
  | union u => exact ends_union hS hH H hd hshort
  | record r =>
    have hadmits := (hS.records r hd).wireFields.admits
    refine ends_record hS hH H hd fun f hf => decode_ends (hadmits f hf) hshort fun held hheld => ?_
    -- what is held is a union, which has a tag, or a record further along
    have hmem := (hadmits f hf).mem_of_holds hheld
    obtain ⟨d', hd', rfl, -⟩ := hS.exists_declaration hmem
    cases d' with
    | union u => exact ends_union hS hH H hd' hshort
    | record r' =>
      refine ih ⟨r'.name, hmem⟩ (.single ⟨r, hS.record?_eq_some hd, ?_, f, hf, hheld⟩)
      exact Option.isSome_iff_exists.2 ⟨r', hS.record?_eq_some hd'⟩

theorem decode_declared_ends (hG : S.Grounded) (n : Nat) :
    ∀ name ∈ S.names, Ends n (S.decodeIn B H name) := by
  induction n using Nat.strong_induction_on with
  | h n ih => exact decode_ends_of_lt hS hH H hG ih

end

/-- If no record holds itself, a declared type is read from any bytes as a value or found to be at
fault, unless a name of the language is taken. This is what following references to any great enough
depth comes to. -/
theorem decodeFrom_ends [Text.CharacterNames] {text : String} (hS : ofText text = .ok S)
    (hH : S.HookFree) (hG : S.Grounded) (H : Hooks) {name : String} (hname : name ∈ S.names)
    (bytes : List UInt8) :
    ((∃ v rest, S.decodeFrom H name bytes = .ok (v, rest)) ∨
      ∃ h, S.decodeFrom H name bytes = .error h ∧
        (h.fault.ofInput = true ∨ ¬ S.KeepsBuiltins ∧ h.fault.kind = .wrongKind)) ∧
    ∃ depth, ∀ n ≥ depth,
      S.decodeAt S.builtins H n name (.ofOrigin { bytes }) = S.decodeFrom H name bytes := by
  have hwf := wellFormed_of_ofText hS
  have hended := decode_declared_ends hwf hH (B := S.builtins) H hG bytes.length name hname
    (.ofOrigin { bytes }) (Nat.le_refl _)
  have hfound := decode_declared_finds hwf hH (B := S.builtins) H name hname (.ofOrigin { bytes })
  refine ⟨?_, S.depthBound bytes, fun n hn => (decode_eq_decodeAt hwf hH H hname hn).symm⟩
  cases hdecode : S.decodeFrom H name bytes with
  | ok p => exact .inl ⟨p.1, p.2, rfl⟩
  | error h =>
    rw [show S.decodeIn S.builtins H name _ = _ from hdecode] at hended hfound
    refine .inr ⟨h, rfl, ?_⟩
    cases hended with | halt hend =>
    cases hfound with
    | halt hkind => exact .inl (by simpa [Fault.ofInput, hend] using hkind)
    | want hnot hkind => exact .inr ⟨fun hB => hnot hB.builtins_eq, hkind⟩

/-- A record of records in an array, with a list of its own kind behind them. -/
theorem decodeFrom_ends_of_recursive_record :
    let text := "struct Leaf struct Node \x7b leaves: Leaf[3] rest: list<Node> \x7d"
    let bytes := [1, 0, 0, 0, 0, 0, 0, 0, 2]
    ∃ S, ofText text = .ok S ∧ S.HookFree ∧ S.Grounded ∧ "Node" ∈ S.names ∧
      ((∃ v rest, S.decodeFrom Hooks.empty "Node" bytes = .ok (v, rest)) ∨
        ∃ h, S.decodeFrom Hooks.empty "Node" bytes = .error h ∧ h.fault.ofInput = true) ∧
      ∃ depth, ∀ n ≥ depth, S.decodeAt S.builtins Hooks.empty n "Node" (.ofOrigin { bytes }) =
        S.decodeFrom Hooks.empty "Node" bytes := by
  intro text bytes
  obtain ⟨S, hS, h⟩ := exists_of_any_ofText text
    (fun S => S.HookFree && S.KeepsBuiltins && S.names.contains "Node" &&
      S.records.map (fun r : RecordLayout => (r.name, r.fields.map fun l => l.field.codec)) =
        [("Leaf", []), ("Node", [.array (.declared "Leaf") 3, .list (.declared "Node")])])
    (by decide +kernel)
  simp only [Bool.and_eq_true, decide_eq_true_eq, List.contains_iff_mem] at h
  obtain ⟨⟨⟨hhooks, hkeeps⟩, hname⟩, hrecords⟩ := h
  -- only the one record holds anything, and that is the other
  have hcontains : ∀ a b, S.Contains a b → a = "Node" ∧ b = "Leaf" := by
    rintro a b ⟨r, hr, -, f, hf, hheld⟩
    obtain ⟨hmem, rfl⟩ := mem_of_record? hr
    have hwf := (wellFormed_of_ofText hS).records r hmem
    obtain ⟨l, hl, -, rfl⟩ := hwf.mem_wireFields_iff.1 hf
    have hr := hrecords ▸ List.mem_map_of_mem (f := fun r : RecordLayout =>
      (r.name, r.fields.map fun l : FieldLayout => l.field.codec)) hmem
    have hf := List.mem_map_of_mem (f := fun l : FieldLayout => l.field.codec) hl
    simp only [List.mem_cons, List.not_mem_nil, or_false, Prod.mk.injEq] at hr
    rcases hr with ⟨-, hcodecs⟩ | ⟨hrname, hcodecs⟩ <;> rw [hcodecs] at hf
    · cases hf
    · refine ⟨hrname, ?_⟩
      simp only [List.mem_cons, List.not_mem_nil, or_false] at hf
      rcases hf with hf | hf <;> rw [hf] at hheld
      · cases hheld with | array _ hheld =>
        cases hheld
        rfl
      · cases hheld
  have hG : S.Grounded := by
    intro name h
    obtain ⟨b, hfirst, -⟩ := Relation.TransGen.head'_iff.1 h
    obtain ⟨c, -, hlast⟩ := Relation.TransGen.tail'_iff.1 h
    have hsame := (hcontains _ _ hfirst).1.symm.trans (hcontains _ _ hlast).2
    exact absurd hsame (by decide)
  obtain ⟨hended, hdepth⟩ := decodeFrom_ends hS hhooks hG Hooks.empty hname bytes
  refine ⟨S, hS, hhooks, hG, hname, hended.imp_right ?_, hdepth⟩
  exact fun ⟨h, he, hkind⟩ => ⟨h, he, hkind.resolve_right fun hnot => hnot.1 hkeeps⟩

end Layout

end WireSchema
