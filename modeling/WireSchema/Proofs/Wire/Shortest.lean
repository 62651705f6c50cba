import Mathlib.Algebra.Order.BigOperators.Group.List
import Mathlib.Algebra.Order.Group.Nat
import WireSchema.Proofs.Wire.Meaning
import WireSchema.Proofs.Wire.Reencoding

/-!
# The shortest bytes

Of all bytes that stand for a value, those that it is written as are the shortest. By the rules of
what bytes stand for, each part of a value is written in no more bytes than stand for it. Maps are
the one case where parts get lost: an entry whose key comes again keeps its place and takes the new
value. So entries are weighed, and putting one in adds at most its own weight, whatever it replaces.

A value that was read and can be written is thus written in no more bytes than it was read from, and
is read from these again, as they are written from it.
-/

namespace WireSchema

theorem length_flatMap_le {α : Type} {f g : α → List UInt8} {as : List α}
    (h : ∀ a ∈ as, (f a).length ≤ (g a).length) :
    (as.flatMap f).length ≤ (as.flatMap g).length := by
  rw [List.length_flatMap, List.length_flatMap]
  exact List.sum_le_sum h

/-! ## The weight of a map -/

namespace Value

variable (w w' : Value → Nat)

/-- What the entries of a map weigh, given what keys and values do. -/
def weight : List (Value × Value) → Nat
  | [] => 0
  | e :: es => w e.1 + w' e.2 + weight es

theorem weight_cons (e : Value × Value) (es : List (Value × Value)) :
    weight w w' (e :: es) = w e.1 + w' e.2 + weight w w' es :=
  rfl

/-- To put in an entry adds no more than its weight. -/
theorem weight_insertEntry_le (k v : Value) (es : List (Value × Value)) :
    weight w w' (insertEntry k v es) ≤ weight w w' es + (w k + w' v) := by
  induction es with
  | nil =>
    rw [insertEntry, weight_cons, Nat.add_comm]
  | cons e es ih =>
    rw [insertEntry]
    split
    · rw [weight_cons, weight_cons]
      dsimp only
      omega
    · rw [weight_cons, weight_cons]
      omega

theorem weight_foldl_insertEntry_le {ι : Type} (key value : ι → Value) (items : List ι)
    (es : List (Value × Value)) :
    weight w w' (items.foldl (fun es i => insertEntry (key i) (value i) es) es) ≤
      weight w w' es + weight w w' (items.map fun i => (key i, value i)) := by
  induction items generalizing es with
  | nil => exact Nat.le_refl _
  | cons i items ih =>
    have hfirst := weight_insertEntry_le w w' (key i) (value i) es
    have hrest := ih (insertEntry (key i) (value i) es)
    rw [List.foldl_cons, List.map_cons, weight_cons]
    dsimp only
    omega

/-- Entries that each stand behind as many bytes as they weigh. -/
theorem weight_map_le_length_flatMap {ι : Type} {key value : ι → Value} {bytes : ι → List UInt8}
    {items : List ι} (h : ∀ i ∈ items, w (key i) + w' (value i) ≤ (bytes i).length) :
    weight w w' (items.map fun i => (key i, value i)) ≤ (items.flatMap bytes).length := by
  induction items with
  | nil => exact Nat.zero_le _
  | cons i items ih =>
    rw [List.map_cons, weight_cons, List.flatMap_cons, List.length_append]
    exact Nat.add_le_add (h i (.head _)) (ih fun i hi => h i (.tail _ hi))

end Value

namespace Layout

variable {S : Layout}

/-! ## Parts of typed values -/

theorem HasType.of_array {most : Nat} {c : Codec} {n : Nat} {vs : List Value}
    (h : S.HasType most (.array c n) (.list vs)) : ∀ v ∈ vs, S.HasType most c v := by
  generalize hc : Codec.array c n = c' at h
  generalize hv : Value.list vs = v at h
  cases h with
  | array hvs =>
    obtain ⟨rfl, -⟩ := Codec.array.inj hc
    rw [Value.list.inj hv]
    exact hvs
  | _ => cases hc

theorem HasType.of_variant (hS : S.WellFormed) {most : Nat} {u : UnionLayout} {v : VariantLayout}
    (hu : u ∈ S.unions) (hv : v ∈ u.variants) {fields : List (String × Value)}
    (h : S.HasType most (.declared u.name) (.object (.variant u.name v.name) fields)) :
    ∀ f ∈ v.variant.fields, ∀ e ∈ fields, e.1 = f.ident → S.HasType most f.codec e.2 := by
  generalize hc : Codec.declared u.name = c at h
  generalize hw : Value.object (.variant u.name v.name) fields = w at h
  cases h with
  | variant hv' _ htyped =>
    obtain ⟨howner, rfl⟩ := Value.object.inj hw
    obtain ⟨hunion, hvariant⟩ := Owner.variant.inj howner
    rw [← hunion, ← hvariant, hS.variant?_eq_some hu hv] at hv'
    cases hv'
    exact htyped
  | present => cases hc
  | _ => cases hw

/-! ## How long values are written -/

variable (S) in
open Classical in
/-- How many bytes a value of a type is written as. Other values do not count. -/
noncomputable def writtenLength (H : Hooks) (c : Codec) (v : Value) : Nat :=
  if S.HasType maxEmptyItems c v then (S.bytesOf H c v).length else 0

variable {H : Hooks}

theorem writtenLength_of_hasType {c : Codec} {v : Value} (h : S.HasType maxEmptyItems c v) :
    S.writtenLength H c v = (S.bytesOf H c v).length :=
  if_pos h

theorem writtenLength_le {c : Codec} {v : Value} {n : Nat}
    (h : S.HasType maxEmptyItems c v → (S.bytesOf H c v).length ≤ n) :
    S.writtenLength H c v ≤ n := by
  rw [writtenLength]
  split
  next hv => exact h hv
  next => exact Nat.zero_le n

theorem bytesOf_bool (b : Bool) : S.bytesOf H .bool (.bool b) = [if b then 1 else 0] :=
  bytesOf_eq fun _ => rfl

theorem bytesOf_none (c : Codec) : S.bytesOf H (.optional c) .none = [0] :=
  bytesOf_eq fun _ => rfl

/-- Elements that each stand behind no fewer bytes than they are written as. -/
theorem length_flatMap_bytesOf_le {c : Codec} {items : List (List UInt8 × Value)}
    (h : ∀ i ∈ items, S.writtenLength H c i.2 ≤ i.1.length)
    (htyped : ∀ v ∈ items.map Prod.snd, S.HasType maxEmptyItems c v) :
    ((items.map Prod.snd).flatMap (S.bytesOf H c)).length ≤ (items.flatMap Prod.fst).length := by
  rw [List.flatMap_map]
  refine length_flatMap_le fun i hi => ?_
  rw [← writtenLength_of_hasType (htyped _ (List.mem_map_of_mem hi))]
  exact h i hi

theorem length_flatMap_entryBytes {k c : Codec} {es : List (Value × Value)}
    (hk : ∀ e ∈ es, S.HasType maxEmptyItems k e.1) (hc : ∀ e ∈ es, S.HasType maxEmptyItems c e.2) :
    (es.flatMap (S.entryBytes H k c)).length =
      Value.weight (S.writtenLength H k) (S.writtenLength H c) es := by
  induction es with
  | nil => rfl
  | cons e es ih =>
    rw [List.flatMap_cons, List.length_append, entryBytes, List.length_append,
      ← writtenLength_of_hasType (hk e (.head _)), ← writtenLength_of_hasType (hc e (.head _)),
      Value.weight_cons, ih (fun e he => hk e (.tail _ he)) fun e he => hc e (.tail _ he)]

section

variable (hS : S.WellFormed) (hH : S.HookFree)
include hS hH

/-- An object is written in front of its fields, none of which is longer than what stands for
it. -/
theorem Body.length_bytesOf_le {owner : Owner} {d : Declaration} {front : List UInt8}
    {names : List String} {wire : List Field} (h : S.Body owner d front names wire)
    {fields : List (String × Value)} (hfields : fields.map Prod.fst = names)
    (htyped : ∀ f ∈ wire, ∀ e ∈ fields, e.1 = f.ident → S.HasType maxEmptyItems f.codec e.2)
    {bytes : Field → List UInt8}
    (hbytes : ∀ f ∈ wire, S.writtenLength H f.codec (heldBy fields f.ident) ≤ (bytes f).length)
    (name : String) :
    (S.bytesOf H (.declared name) (.object owner fields)).length ≤
      (front ++ wire.flatMap bytes).length := by
  have hheld := fun f hf => htyped f hf _ (h.field?_eq hS hfields hf).1 rfl
  have hround := fun f hf =>
    roundTrips_of_hasType (H := H) hS hH (hheld f hf) ((h.wellFormed hS).admits f hf)
  rw [bytesOf_eq (c := .declared name) (h.appends_encode hS hH hfields htyped hround),
    List.length_append, List.length_append]
  refine Nat.add_le_add_left (length_flatMap_le fun f hf => ?_) _
  rw [← writtenLength_of_hasType (hheld f hf)]
  exact hbytes f hf

/-- What a value is written as is no longer than any bytes that stand for it. -/
theorem StandsFor.writtenLength_le {c : Codec} {bs : List UInt8} {v : Value}
    (h : S.StandsFor c bs v) : S.Admits c → S.writtenLength H c v ≤ bs.length := by
  induction h with
  | int hlen =>
    refine fun _ => Layout.writtenLength_le fun _ => ?_
    rw [bytesOf_eq (appends_int _ (IntKind.encode?_decode hlen))]
  | bool b =>
    refine fun _ => Layout.writtenLength_le fun _ => ?_
    rw [bytesOf_bool]
    exact Nat.le_refl 1
  | text hlen =>
    refine fun _ => Layout.writtenLength_le fun _ => ?_
    rw [bytesOf_eq (appends_string _ hlen)]
  | packedBools b =>
    refine fun _ => Layout.writtenLength_le fun _ => ?_
    rw [packedBoolsOf, List.flatMap_singleton,
      bytesOf_eq (appends_packedBools _ (length_unpackBits b))]
    exact Nat.le_refl 1
  | absent c =>
    refine fun _ => Layout.writtenLength_le fun _ => ?_
    rw [bytesOf_none]
  | @present c b bs v _ _ ih =>
    intro hc
    cases hc with | optional hc =>
    refine Layout.writtenLength_le fun htyped => ?_
    by_cases hnone : v.isNone = true
    · -- one more level of absence is lost
      cases v with
      | none =>
        rw [bytesOf_none]
        exact Nat.succ_le_succ (Nat.zero_le _)
      | _ => cases hnone
    · cases htyped with
      | absent => exact absurd rfl hnone
      | present hv =>
        have hround := roundTrips_of_hasType (H := H) hS hH hv hc
        rw [bytesOf_eq (hround.appends_present hnone), List.length_cons, List.length_cons,
          ← writtenLength_of_hasType hv]
        exact Nat.succ_le_succ (ih hc)
  | @list c items hlen _ ih =>
    intro hc
    cases hc with | list hc =>
    refine Layout.writtenLength_le fun htyped => ?_
    cases htyped with | list hlen' hmost hvs =>
    have hround := fun v hv => roundTrips_of_hasType (H := H) hS hH (hvs v hv) hc
    rw [bytesOf_eq (appends_list hlen' hmost hround), List.length_map, List.length_append,
      List.length_append]
    exact Nat.add_le_add_left (length_flatMap_bytesOf_le (fun i hi => ih i hi hc) hvs) _
  | @array c items _ ih =>
    intro hc
    cases hc with | array _ hc =>
    refine Layout.writtenLength_le fun htyped => ?_
    have hvs := htyped.of_array
    have hround := fun v hv => roundTrips_of_hasType (H := H) hS hH (hvs v hv) hc
    have hwritten := bytesOf_eq (appends_array hround)
    rw [List.length_map] at hwritten
    rw [hwritten]
    exact length_flatMap_bytesOf_le (fun i hi => ih i hi hc) hvs
  | @map k c entries hlen _ _ ihk ihc =>
    intro hc
    cases hc with | map hk hc =>
    have hk : S.Admits k := .of_isKey hk
    refine Layout.writtenLength_le fun htyped => ?_
    cases htyped with | map hlen' _ hkeys hvalues =>
    rw [bytesOf_eq (appends_map hlen'
        (fun e he => roundTrips_of_hasType (H := H) hS hH (hkeys e he) hk)
        fun e he => roundTrips_of_hasType (H := H) hS hH (hvalues e he) hc),
      List.length_append, List.length_append, length_countBytes hlen', length_countBytes hlen,
      length_flatMap_entryBytes hkeys hvalues]
    have hweight := Value.weight_foldl_insertEntry_le (S.writtenLength H k) (S.writtenLength H c)
      (fun e : (List UInt8 × Value) × (List UInt8 × Value) => e.1.2) (fun e => e.2.2) entries []
    have hbytes : ∀ e ∈ entries, S.writtenLength H k e.1.2 + S.writtenLength H c e.2.2 ≤
        (e.1.1 ++ e.2.1).length := by
      intro e he
      rw [List.length_append]
      exact Nat.add_le_add (ihk e he hk) (ihc e he hc)
    have hlength := Value.weight_map_le_length_flatMap _ _ hbytes
    exact Nat.add_le_add_left (hweight.trans ((Nat.zero_add _).trans_le hlength)) 8
  | @record r bytes g hr hall ih =>
    intro _
    obtain ⟨hmem, -⟩ := mem_of_record? hr
    have hwf := hS.records r hmem
    have hbody := Body.record hmem
    refine Layout.writtenLength_le fun htyped => ?_
    let fields := r.fields.map fun l => (l.field.ident, S.completed g l)
    have hfields : fields.map Prod.fst = r.fields.map (·.field.ident) := List.map_map
    refine hbody.length_bytesOf_le hS hH hfields (htyped.of_record hS hmem) (fun f hf => ?_) _
    have hheld : heldBy fields f.ident = g f := by
      obtain ⟨l, hl, hi, rfl⟩ := hwf.mem_wireFields_iff.1 hf
      rw [heldBy_of_mem (hfields ▸ hbody.distinct hS)
        (List.mem_map_of_mem (f := fun l => (l.field.ident, S.completed g l)) hl)]
      simp only [completed, hi, Bool.false_eq_true, if_false]
    rw [hheld]
    exact ih f hf (hwf.wireFields.admits f hf)
  | @variant u v bytes g hv hall ih =>
    intro _
    obtain ⟨hu, -, hmem, -⟩ := mem_of_variant? hv
    have hbody := Body.variant hu hmem
    refine Layout.writtenLength_le fun htyped => ?_
    let fields := v.variant.fields.map fun f => (f.ident, g f)
    have hfields : fields.map Prod.fst = v.variant.fields.map Field.ident := List.map_map
    refine hbody.length_bytesOf_le hS hH hfields (htyped.of_variant hS hu hmem) (fun f hf => ?_) _
    rw [heldBy_of_mem (hfields ▸ hbody.distinct hS)
      (List.mem_map_of_mem (f := fun f => (f.ident, g f)) hf)]
    exact ih f hf ((hbody.wellFormed hS).admits f hf)

end

/-- What was read, if it can be written, is written in no more bytes than were taken for it. From
these it is read again, and whatever is read from them is written as the same bytes. -/
theorem size_encoded_le [Text.CharacterNames] {text : String} (hS : ofText text = .ok S)
    (hH : S.HookFree) (H : Hooks) {name : String} (hname : name ∈ S.names) {bytes : List UInt8}
    {v : Value} {rest : Source} (h : S.decodeFrom H name bytes = .ok (v, rest)) {s : Sink}
    (hs : S.encoded H v = .ok s) :
    s.bytes.size + rest.bytes.length ≤ bytes.length ∧
      (∃ t, S.decodeFrom H name s.bytes.toList = .ok (v, t) ∧ t.bytes = []) ∧
      ∀ w t, S.decodeFrom H name s.bytes.toList = .ok (w, t) → S.encoded H w = .ok s := by
  have hwf := wellFormed_of_ofText hS
  have hc : S.Admits (.declared name) := .declared hname
  obtain ⟨front, hfront, hstands⟩ := decode_declared_interprets hwf hH H name hname _ _ _ h
  have hfound := decode_declared_finds hwf hH (B := S.builtins) H name hname (.ofOrigin { bytes })
  rw [show S.decodeIn S.builtins H name _ = _ from h] at hfound
  cases hfound with | value _ hv =>
  have hneeds : Write.Needs (S.HasType maxEmptyItems (.declared name) v) (S.encoded H v) :=
    hv.hasType.rewrites hwf hH hc {}
  rw [hs] at hneeds
  have htyped := hneeds.of_ok
  have hround := roundTrips_of_callable (H := H) hwf hH htyped hc hv.callable
  obtain ⟨s', t, hs', -, ht, hrest, -⟩ := hround.exists_encoded []
  cases hs.symm.trans hs'
  rw [List.append_nil, hv.reset] at ht
  refine ⟨?_, ⟨t, ht, hrest⟩, fun w t' hw => ?_⟩
  · have hlen := hstands.writtenLength_le hwf hH (H := H) hc
    have hwritten : S.encoded H v = _ := hround.writes {}
    cases hs.symm.trans hwritten
    have hbytes : bytes.length = front.length + rest.bytes.length := by
      rw [← List.length_append, ← hfront]
      rfl
    rw [writtenLength_of_hasType htyped] at hlen
    rw [Sink.size_append, hbytes, Array.size_empty, Nat.zero_add]
    exact Nat.add_le_add_right hlen _
  · cases ht.symm.trans hw
    exact hs

/-- A map whose one key comes twice, each time with another byte for the same truth value. -/
theorem size_encoded_le_of_repeated_key :
    let text := "struct R \x7b flags: map<u8, bool> \x7d"
    let bytes := [2, 0, 0, 0, 0, 0, 0, 0, 1, 5, 1, 7, 9]
    ∃ S v rest s, ofText text = .ok S ∧ S.HookFree ∧ "R" ∈ S.names ∧
      S.decodeFrom Hooks.empty "R" bytes = .ok (v, rest) ∧ S.encoded Hooks.empty v = .ok s ∧
      s.bytes.size + rest.bytes.length ≤ bytes.length ∧
      (∃ t, S.decodeFrom Hooks.empty "R" s.bytes.toList = .ok (v, t) ∧ t.bytes = []) ∧
      ∀ w t, S.decodeFrom Hooks.empty "R" s.bytes.toList = .ok (w, t) →
        S.encoded Hooks.empty w = .ok s := by
  intro text bytes
  obtain ⟨S, hS, h⟩ := exists_of_any_ofText text
    (fun S => S.HookFree && S.names.contains "R" &&
      (S.decodeFrom Hooks.empty "R" bytes).toOption.any fun p =>
        (S.encoded Hooks.empty p.1).isOk)
    (by decide +kernel)
  simp only [Bool.and_eq_true, Option.any_eq_true, decide_eq_true_eq, List.contains_iff_mem] at h
  obtain ⟨⟨hhooks, hname⟩, ⟨v, rest⟩, hread, hok⟩ := h
  cases hdecode : S.decodeFrom Hooks.empty "R" bytes with
  | error e =>
    rw [hdecode] at hread
    cases hread
  | ok p =>
    rw [hdecode] at hread
    cases hread
    cases hencode : S.encoded Hooks.empty v with
    | error e =>
      rw [hencode] at hok
      cases hok
    | ok s =>
      exact ⟨S, v, rest, s, hS, hhooks, hname, hdecode, hencode,
        size_encoded_le hS hhooks Hooks.empty hname hdecode hencode⟩

end Layout

end WireSchema
