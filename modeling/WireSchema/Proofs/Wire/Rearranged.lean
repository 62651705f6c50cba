import Mathlib
import WireSchema.Proofs.Layout.Relating
import WireSchema.Proofs.Wire.Corresponding
import WireSchema.Proofs.Wire.Makeable

/-!
# Records that are declared in another order

Where all fields of a record are numbered, the order in which they are declared does not show on the
wire. Objects list their fields in the order of declaration, so values correspond if they have the
same fields in whatever order.
-/

namespace WireSchema

namespace Layout

variable {S : Layout}

/-- A schema in which a record with numbered fields is rearranged has a layout, too. The record has
the same fields on the wire, values with the same fields are written in the same way, and what is
read has the same fields, with the same rest, or fails as before. -/
theorem exists_codes_of_rearranged [Text.CharacterNames] {text text' : String} {s s₀ s' : Schema}
    (hs : Schema.parse text = .ok s) (hS : ofText text = .ok S) (hH : S.HookFree)
    {before after : List Record} {r r₁ : Record} (hrecords : s.records = before ++ r :: after)
    (hnumbered : ∀ f ∈ r.fields, f.IsNumbered) (hr₁ : r.Rearranged r₁)
    (hread : Schema.read text' = .ok s₀) (hs' : s₀.unescape? = some s')
    (hsame : s'.unplaced = { s with records := before ++ r₁ :: after }.unplaced) (H H' : Hooks) :
    ∃ S', ofText text' = .ok S' ∧
      (∃ x x', S.record? r.name = some x ∧ S'.record? r.name = some x' ∧
        x'.wireFields.map Field.ident = x.wireFields.map Field.ident) ∧
      (∀ (c : Codec) v v', S.Made v → Renaming.keep.Alike true v v' → ∀ t,
        (c.encode (S'.objects (S'.encode H')) v' t).toOption =
          (c.encode (S.objects (S.encode H)) v t).toOption) ∧
      (∀ c, S.Admits c → ∀ t,
        (∃ v v' u, c.decode (S.decode H) t = .ok (v, u) ∧
          c.decode (S'.decode H') t = .ok (v', u) ∧ Renaming.keep.Alike true v v') ∨
        ∃ e e', c.decode (S.decode H) t = .error e ∧ c.decode (S'.decode H') t = .error e' ∧
          e'.fault.kind = e.fault.kind) ∧
      (S.isMakeable = true → (S'.isMakeable = true ↔ MroLast r₁.fields)) := by
  have hwf := wellFormed_of_ofText hS
  have hresolve := ofSchema_of_ofText hs hS
  have hschema := (Schema.of_parse hs).1
  have hschema' := hschema.rearranged hrecords hr₁ hsame
  have hparse : Schema.parse text' = .ok s' :=
    Schema.parse_eq_ok_iff.2 ⟨s₀, hread, hs', hschema'⟩
  have hrewritten := Schema.rewrittenAs_of_rearranged hrecords hr₁ hnumbered hsame
  obtain ⟨S', hresolve', M⟩ := ofSchema_succeeds hschema hschema' hrewritten S hresolve
  have hS' : ofText text' = .ok S' := ofText_eq_ok_iff.2 ⟨s', hparse, hresolve'⟩
  have hwf' := wellFormed_of_ofText hS'
  refine ⟨S', hS', ?_, fun c v v' hv halike t => ?_, fun c hc t => ?_, fun hmakeable => ?_⟩
  · have hr : r ∈ S.records.map RecordLayout.record := by
      rw [(resolves_of_ofSchema hresolve).records, hrecords]
      exact List.mem_append.2 (.inr (.head _))
    obtain ⟨x, hx, rfl⟩ := List.mem_map.1 hr
    obtain ⟨x', hx', hxx'⟩ := exists_right_of_forall₂ M.records hx
    refine ⟨x, x', hwf.record?_eq_some hx, ?_, map_eq_of_forall₂ hxx'.wire fun f f' h => h.ident⟩
    rw [← hwf'.record?_eq_some hx', hxx'.name]
    rfl
  · have heq := M.toOption_codec hwf hwf' hH H H' c hv halike t
    rwa [Renaming.codec_keep] at heq
  · have hcorresponds :=
      M.corresponds_of_keepsBuiltins hwf hwf' hH H H' (Renaming.keepsBuiltins_keep _) hc t
    rw [Renaming.codec_keep] at hcorresponds
    exact hcorresponds.exists_of_not nofun
  · rw [isMakeable_iff_of_unplaced_eq hs hS hH rfl] at hmakeable
    rw [isMakeable_iff_of_unplaced_eq hparse hS' (M.hookFree hH) hsame]
    exact Schema.makeable_replace hrecords hr₁.perm.1 (hr₁.perm_idents hnumbered) hmakeable

/-- Two fields in the other order, in a record that is held in a list. -/
theorem exists_codes_of_rearranged_of_reversed :
    let text := "struct A \x7b @codec(order_no = 1) x: u8 @codec(order_no = 2) y: u8 \x7d"
    let text' := "struct A \x7b @codec(order_no = 5) y: u8 @codec(order_no = 4) x: u8 \x7d"
    let v := Value.object (.record "A") [("x", .int 1), ("y", .int 2)]
    let v' := Value.object (.record "A") [("y", .int 2), ("x", .int 1)]
    let c := Codec.list (.declared "A")
    ∃ S S', ofText text = .ok S ∧ S.HookFree ∧ ofText text' = .ok S' ∧ S'.isMakeable = true ∧
      Renaming.keep.Alike true (.list [v]) (.list [v']) ∧
      ∃ t, c.encode (S.objects (S.encode Hooks.empty)) (.list [v]) {} = .ok t ∧
        c.encode (S'.objects (S'.encode Hooks.empty)) (.list [v']) {} = .ok t := by
  intro text text' v v' c
  obtain ⟨S, hS, h⟩ := exists_of_any_ofText text
    (fun S => S.HookFree && S.isMakeable && (S.record? "A").any (fun r => r.name = "A" ∧
      r.fields.map (fun l => (l.field.ident, l.field.codec)) = [("x", .int .u8), ("y", .int .u8)]))
    (by decide +kernel)
  simp only [Bool.and_eq_true, Option.any_eq_true, decide_eq_true_eq] at h
  obtain ⟨⟨hhooks, hmakeable⟩, x, hx, hname, hfields⟩ := h
  have hwf := wellFormed_of_ofText hS
  have hrecord : S.HasType maxEmptyItems (.declared "A") v := by
    have hidents := congrArg (List.map Prod.fst) hfields
    rw [List.map_map] at hidents
    have hobject : S.HasType maxEmptyItems (.declared x.name)
        (.object (.record x.name) [("x", .int 1), ("y", .int 2)]) := by
      refine .record (hname.symm ▸ hx) hidents.symm fun f hf e he _ => ?_
      obtain ⟨l, hl, -, rfl⟩ := (hwf.records x (mem_of_record? hx).1).mem_wireFields_iff.1 hf
      have hcodec := List.mem_map_of_mem (f := fun l : FieldLayout => (l.field.ident, l.field.codec)) hl
      simp only [hfields, List.mem_cons, Prod.mk.injEq, List.not_mem_nil, or_false,
        ← or_and_right] at hcodec
      simp only [List.mem_cons, List.not_mem_nil, or_false] at he
      rw [hcodec.2]
      rcases he with rfl | rfl <;> exact .int (by decide) (by decide)
    rwa [hname] at hobject
  have htyped : S.HasType maxEmptyItems c (.list [v]) :=
    .list (show 1 ≤ maxLength by decide) (fun _ => show 1 ≤ maxEmptyItems by decide)
      (List.forall_mem_singleton.2 hrecord)
  have halike : Renaming.keep.Alike true (.list [v]) (.list [v']) := by
    refine .list_of_forall₂ (.cons ?_ .nil)
    exact .object_of_forall₂ (.cons ⟨rfl, .int 1⟩ (.cons ⟨rfl, .int 2⟩ .nil)) (.swap _ _ _)
  obtain ⟨r, s', hread, hread', hunescape, hunescape', hnumbered, hused, hsame, hlast⟩ :
      ∃ r s', Schema.read text = .ok ⟨[r], []⟩ ∧ Schema.read text' = .ok s' ∧
        Schema.unescape? ⟨[r], []⟩ = some ⟨[r], []⟩ ∧ s'.unescape? = some s' ∧
        (∀ f ∈ r.fields, f.IsNumbered) ∧ r.fields.flatMap Field.orderNumbers = [1, 2] ∧
        s'.unplaced = Schema.unplaced
          ⟨[{ r with fields := Reader.numbered (r.fields.reverse.map (Field.renumber (· + 3))) }], []⟩ ∧
        MroLast (Reader.numbered (r.fields.reverse.map (Field.renumber (· + 3)))) := by
    exact ⟨_, _, by cbv, by cbv, by rfl, by rfl, by decide +kernel, by decide +kernel, by rfl,
      by decide +kernel⟩
  have hrearranged : r.Rearranged
      { r with fields := Reader.numbered (r.fields.reverse.map (Field.renumber (· + 3))) } := by
    refine ⟨(· + 3), r.fields.reverse, ⟨fun m _ n _ hlt => Nat.add_lt_add_right hlt 3, ?_⟩,
      List.reverse_perm _, rfl⟩
    rw [hused]
    decide
  obtain ⟨S', hS', -, hencode, -, hmakeable'⟩ :=
    exists_codes_of_rearranged (parse_of_ofText hS hread hunescape) hS hhooks
      (show [r] = [] ++ r :: [] from rfl) hnumbered hrearranged hread' hunescape' hsame Hooks.empty
      Hooks.empty
  have hwrites := (roundTrips_of_hasType (H := Hooks.empty) hwf hhooks htyped
    (.list (.declared hrecord.mem_names))).writes {}
  have heq := hencode c _ _ htyped.made halike {}
  rw [hwrites] at heq
  exact ⟨S, S', hS, hhooks, hS', (hmakeable' hmakeable).2 hlast, halike, _, hwrites,
    toOption_eq_some_iff.1 heq⟩

/-- In another order the class of a record is not made: a field that goes by the name of the request
has moved in front of another. -/
theorem not_isMakeable_of_rearranged :
    let text := "struct A \x7b@codec(order_no=1) x: u8 @codec(order_no=2) mro: u8\x7d"
    let text' := "struct A \x7b@codec(order_no=2) mro: u8 @codec(order_no=1) x: u8\x7d"
    ∃ S S' r r₁ s', ofText text = .ok S ∧ S.HookFree ∧ S.isMakeable = true ∧
      Schema.parse text = .ok ⟨[r], []⟩ ∧ (∀ f ∈ r.fields, f.IsNumbered) ∧ r.Rearranged r₁ ∧
      Schema.parse text' = .ok s' ∧ s'.unplaced = Schema.unplaced ⟨[r₁], []⟩ ∧
      ofText text' = .ok S' ∧ S'.isMakeable = false := by
  intro text text'
  obtain ⟨S, hS, h⟩ := exists_of_any_ofText text (fun S => S.HookFree && S.isMakeable)
    (by decide +kernel)
  obtain ⟨S', hS', h'⟩ := exists_of_any_ofText text' (fun S => !S.isMakeable) (by decide +kernel)
  rw [Bool.and_eq_true, decide_eq_true_eq] at h
  rw [Bool.not_eq_true'] at h'
  obtain ⟨r, s', hread, hread', hunescape, hunescape', hnumbered, hused, hsame⟩ :
      ∃ r s', Schema.read text = .ok ⟨[r], []⟩ ∧ Schema.read text' = .ok s' ∧
        Schema.unescape? ⟨[r], []⟩ = some ⟨[r], []⟩ ∧ s'.unescape? = some s' ∧
        (∀ f ∈ r.fields, f.IsNumbered) ∧ r.fields.flatMap Field.orderNumbers = [1, 2] ∧
        s'.unplaced = Schema.unplaced
          ⟨[{ r with fields := Reader.numbered (r.fields.reverse.map (Field.renumber id)) }], []⟩ := by
    exact ⟨_, _, by cbv, by cbv, by rfl, by rfl, by decide +kernel, by decide +kernel, by rfl⟩
  have hsmall : ∀ n ∈ r.fields.flatMap Field.orderNumbers, n ≤ maxOrderNo := by
    rw [hused]
    decide
  exact ⟨S, S', r, _, s', hS, h.1, h.2, parse_of_ofText hS hread hunescape, hnumbered,
    ⟨id, r.fields.reverse, ⟨fun _ _ _ _ hlt => hlt, hsmall⟩, List.reverse_perm _, rfl⟩,
    parse_of_ofText hS' hread' hunescape', hsame, hS', h'⟩

end Layout

end WireSchema
