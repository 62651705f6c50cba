import WireSchema.Proofs.Wire.RoundTrip

/-!
# Which values are written alike

What a value is written as depends on nothing but its fields on the wire. Resetting the ignored
fields keeps a value in its type, so that the bytes of both can be taken apart by the same equations,
and by the derivation of its type they are the same.

In the other direction, a value is read from the front of any bytes that begin with those it is
written as. So if the bytes of one value begin with those of another, both are read as the same.
-/

namespace WireSchema

namespace Layout

variable {S : Layout}

section

variable (hS : S.WellFormed)
include hS

/-! ## Resetting keeps the type -/

section

variable {owner : Owner} {d : Declaration} {front : List UInt8} {names : List String}
  {wire : List Field} (h : S.Body owner d front names wire) {fields : List (String × Value)}
include h

theorem Body.ignoredDefault?_eq_none {f : Field} (hf : f ∈ wire) :
    S.ignoredDefault? owner f.ident = none := by
  cases h with
  | record hr =>
    obtain ⟨l, hl, hi, rfl⟩ := (hS.records _ hr).mem_wireFields_iff.1 hf
    rw [ignoredDefault?_eq hS hr hl, hi]
    rfl
  | variant => rfl

theorem Body.exists_of_mem_resetFields {f : Field} (hf : f ∈ wire) {e : String × Value}
    (he : e ∈ S.resetFields owner fields) (hname : e.1 = f.ident) :
    ∃ e' ∈ fields, e'.1 = f.ident ∧ e.2 = S.reset e'.2 := by
  rw [resetFields_eq_map] at he
  obtain ⟨e', he', rfl⟩ := List.mem_map.1 he
  refine ⟨e', he', hname, ?_⟩
  dsimp only at hname ⊢
  rw [hname, h.ignoredDefault?_eq_none hS hf, Option.getD_none]

omit hS h in
theorem names_resetFields (S : Layout) (owner : Owner) (fields : List (String × Value)) :
    (S.resetFields owner fields).map Prod.fst = fields.map Prod.fst := by
  rw [resetFields_eq_map, List.map_map]
  rfl

theorem Body.heldBy_resetFields (hfields : fields.map Prod.fst = names) {f : Field}
    (hf : f ∈ wire) :
    heldBy (S.resetFields owner fields) f.ident = S.reset (heldBy fields f.ident) := by
  have hnames := (names_resetFields S owner fields).trans hfields
  have hmem := heldBy_mem (hnames ▸ h.distinct hS) (hnames ▸ h.mem_names hS hf)
  obtain ⟨e, he, hname, hreset⟩ := h.exists_of_mem_resetFields hS hf hmem rfl
  rw [← hname, heldBy_of_mem (hfields ▸ h.distinct hS) he, hname]
  exact hreset

/-- The reset fields are typed if each is once it is reset. -/
theorem Body.hasType_resetFields {most : Nat}
    (hreset : ∀ f ∈ wire, ∀ e ∈ fields, e.1 = f.ident → S.Admits f.codec →
      S.HasType most f.codec (S.reset e.2)) :
    ∀ f ∈ wire, ∀ e ∈ S.resetFields owner fields, e.1 = f.ident → S.HasType most f.codec e.2 := by
  intro f hf e he hname
  obtain ⟨e', he', hname', heq⟩ := h.exists_of_mem_resetFields hS hf he hname
  rw [heq]
  exact hreset f hf e' he' hname' ((h.wellFormed hS).admits f hf)

end

theorem HasType.reset {most : Nat} {c : Codec} {v : Value} (h : S.HasType most c v) :
    S.Admits c → S.HasType most c (S.reset v) := by
  induction h with
  | int hmin hmax =>
    intro _
    simpa [Layout.reset] using .int hmin hmax
  | bool b =>
    intro _
    simpa [Layout.reset] using .bool b
  | text hlen =>
    intro _
    simpa [Layout.reset] using .text hlen
  | packedBools hlen =>
    intro _
    rw [reset_bools]
    exact .packedBools hlen
  | absent c =>
    intro _
    simpa [Layout.reset] using .absent c
  | present _ ih =>
    intro hc
    cases hc with | optional hc =>
    exact .present (ih hc)
  | list hlen hmost _ ih =>
    intro hc
    cases hc with | list hc =>
    rw [Layout.reset, resetItems_eq_map]
    refine .list (by rwa [List.length_map]) (fun hz => ?_) (List.forall_mem_map.2 fun v hv => ?_)
    · rw [List.length_map]
      exact hmost hz
    · exact ih v hv hc
  | @array c vs _ ih =>
    intro hc
    cases hc with | array _ hc =>
    rw [Layout.reset, resetItems_eq_map, ← List.length_map S.reset]
    exact .array (List.forall_mem_map.2 fun v hv => ih v hv hc)
  | @map k c es hlen hkeys htyped _ ihk ihc =>
    intro hc
    cases hc with | map hk hc =>
    rw [Layout.reset, resetEntries_eq_map]
    refine .map (by rwa [List.length_map]) ?_ (List.forall_mem_map.2 fun e he => ?_)
      (List.forall_mem_map.2 fun e he => ihc e he hc)
    · rw [List.map_map]
      have hsame : es.map (Prod.fst ∘ fun e => (S.reset e.1, S.reset e.2)) = es.map Prod.fst :=
        List.map_congr_left fun e he => reset_of_isKey hk (htyped e he)
      rwa [hsame]
    · exact ihk e he (.of_isKey hk)
  | @record r fields hr hfields _ ih =>
    intro _
    obtain ⟨hmem, -⟩ := mem_of_record? hr
    have hbody := Body.record hmem
    rw [Layout.reset]
    exact .record hr ((names_resetFields S _ fields).trans hfields)
      (hbody.hasType_resetFields hS ih)
  | @variant u v fields hv hfields _ ih =>
    intro _
    obtain ⟨hu, -, hmem, -⟩ := mem_of_variant? hv
    have hbody := Body.variant hu hmem
    rw [Layout.reset]
    exact .variant hv ((names_resetFields S _ fields).trans hfields)
      (hbody.hasType_resetFields hS ih)

/-! ## Ignored fields do not show -/

variable (hH : S.HookFree) (H : Hooks)
include hH

omit hS hH in
theorem isNone_reset (v : Value) : (S.reset v).isNone = v.isNone := by
  cases v <;> simp [reset, Value.isNone]

/-- An object is written as its reset fields are. -/
theorem Body.bytesOf_reset {owner : Owner} {d : Declaration} {front : List UInt8}
    {names : List String} {wire : List Field} (h : S.Body owner d front names wire)
    {fields : List (String × Value)} (hfields : fields.map Prod.fst = names)
    (htyped : ∀ f ∈ wire, ∀ e ∈ fields, e.1 = f.ident → S.HasType maxEmptyItems f.codec e.2)
    (ih : ∀ f ∈ wire, ∀ e ∈ fields, e.1 = f.ident →
      S.bytesOf H f.codec (S.reset e.2) = S.bytesOf H f.codec e.2) (name : String) :
    S.bytesOf H (.declared name) (S.reset (.object owner fields)) =
      S.bytesOf H (.declared name) (.object owner fields) := by
  have hnames := (names_resetFields S owner fields).trans hfields
  have hheld := fun f hf => (h.field?_eq hS hfields (f := f) hf).1
  have hadmits := (h.wellFormed hS).admits
  have hreset := h.hasType_resetFields hS fun f hf e he hname =>
    (htyped f hf e he hname).reset hS
  have hround : ∀ f ∈ wire, S.RoundTrips H .all f.codec (heldBy fields f.ident) := fun f hf =>
    roundTrips_of_hasType hS hH (htyped f hf _ (hheld f hf) rfl) (hadmits f hf)
  have hround' : ∀ f ∈ wire,
      S.RoundTrips H .all f.codec (heldBy (S.resetFields owner fields) f.ident) := fun f hf =>
    roundTrips_of_hasType hS hH (hreset f hf _ (h.field?_eq hS hnames hf).1 rfl) (hadmits f hf)
  rw [Layout.reset, bytesOf_eq (c := .declared name) (h.appends_encode hS hH hfields htyped hround),
    bytesOf_eq (c := .declared name) (h.appends_encode hS hH hnames hreset hround')]
  refine congrArg _ (List.flatMap_congr fun f hf => ?_)
  rw [h.heldBy_resetFields hS hfields hf]
  exact ih f hf _ (hheld f hf) rfl

/-- A value is written as it is with its ignored fields reset. -/
theorem bytesOf_reset {c : Codec} {v : Value} (h : S.HasType maxEmptyItems c v) :
    S.Admits c → S.bytesOf H c (S.reset v) = S.bytesOf H c v := by
  induction h with
  | int | bool | text | absent =>
    intro _
    simp only [reset]
  | packedBools =>
    intro _
    rw [reset_bools]
  | @present c v hv ih =>
    intro hc
    cases hc with | optional hc =>
    by_cases hnone : v.isNone = true
    · cases v with
      | none => simp only [reset]
      | _ => cases hnone
    · have hround := roundTrips_of_hasType (H := H) hS hH hv hc
      have hround' := roundTrips_of_hasType (H := H) hS hH (hv.reset hS hc) hc
      rw [bytesOf_eq (hround.appends_present hnone),
        bytesOf_eq (hround'.appends_present (by rwa [isNone_reset])), ih hc]
  | @list c vs hlen hmost hvs ih =>
    intro hc
    cases hc with | list hc =>
    have hround := fun v hv => roundTrips_of_hasType (H := H) hS hH (hvs v hv) hc
    have hround' := fun v hv => roundTrips_of_hasType (H := H) hS hH ((hvs v hv).reset hS hc) hc
    rw [reset, resetItems_eq_map, bytesOf_eq (appends_list hlen hmost hround),
      bytesOf_eq (appends_list (by rwa [List.length_map]) (by rwa [List.length_map])
        (List.forall_mem_map.2 hround')), List.length_map, List.flatMap_map]
    exact congrArg _ (List.flatMap_congr fun v hv => ih v hv hc)
  | @array c vs hvs ih =>
    intro hc
    cases hc with | array _ hc =>
    have hround := fun v hv => roundTrips_of_hasType (H := H) hS hH (hvs v hv) hc
    have hround' := fun v hv => roundTrips_of_hasType (H := H) hS hH ((hvs v hv).reset hS hc) hc
    have hwritten := bytesOf_eq (appends_array (List.forall_mem_map.2 hround'))
    rw [List.length_map] at hwritten
    rw [reset, resetItems_eq_map, bytesOf_eq (appends_array hround), hwritten, List.flatMap_map]
    exact List.flatMap_congr fun v hv => ih v hv hc
  | @map k c es hlen _ hks hcs ihk ihc =>
    intro hc
    cases hc with | map hk hc =>
    have hk : S.Admits k := .of_isKey hk
    rw [reset, resetEntries_eq_map,
      bytesOf_eq (appends_map hlen (fun e he => roundTrips_of_hasType hS hH (hks e he) hk)
        fun e he => roundTrips_of_hasType hS hH (hcs e he) hc),
      bytesOf_eq (appends_map (by rwa [List.length_map])
        (List.forall_mem_map.2 fun e he => roundTrips_of_hasType hS hH ((hks e he).reset hS hk) hk)
        (List.forall_mem_map.2 fun e he =>
          roundTrips_of_hasType hS hH ((hcs e he).reset hS hc) hc)),
      List.length_map, List.flatMap_map]
    refine congrArg _ (List.flatMap_congr fun e he => ?_)
    rw [entryBytes, entryBytes, ihk e he hk, ihc e he hc]
  | record hr hfields htyped ih =>
    intro _
    have hbody := Body.record (mem_of_record? hr).1
    exact hbody.bytesOf_reset hS hH H hfields htyped (fun f hf e he hname =>
      ih f hf e he hname ((hbody.wellFormed hS).admits f hf)) _
  | variant hv hfields htyped ih =>
    intro _
    obtain ⟨hu, -, hmem, -⟩ := mem_of_variant? hv
    have hbody := Body.variant hu hmem
    exact hbody.bytesOf_reset hS hH H hfields htyped (fun f hf e he hname =>
      ih f hf e he hname ((hbody.wellFormed hS).admits f hf)) _

end

/-- The bytes of one value begin with those of another exactly if the two are the same but for what
their ignored fields hold, and then the bytes are the same. -/
theorem encoded_prefix_iff [Text.CharacterNames] {text : String} (hS : ofText text = .ok S)
    (hH : S.HookFree) (H : Hooks)
    {name : String} {v w : Value} (hv : S.HasType maxEmptyItems (.declared name) v)
    (hw : S.HasType maxEmptyItems (.declared name) w) :
    ∃ s t, S.encoded H v = .ok s ∧ S.encoded H w = .ok t ∧
      (s.bytes.toList <+: t.bytes.toList ↔ S.reset v = S.reset w) ∧
      (S.reset v = S.reset w → s.bytes = t.bytes) := by
  have hwf := wellFormed_of_ofText hS
  have hc : S.Admits (.declared name) := .declared hv.mem_names
  have hroundv := roundTrips_of_hasType (H := H) hwf hH hv hc
  have hroundw := roundTrips_of_hasType (H := H) hwf hH hw hc
  obtain ⟨s, -, hs, -⟩ := hroundv.exists_encoded []
  obtain ⟨t, rest, ht, -, hreadw, -⟩ := hroundw.exists_encoded []
  have hsame : S.reset v = S.reset w → s = t := by
    intro hreset
    have hbytes : S.bytesOf H (.declared name) v = S.bytesOf H (.declared name) w := by
      rw [← bytesOf_reset hwf hH H hv hc, hreset, bytesOf_reset hwf hH H hw hc]
    have hwritev : S.encoded H v = _ := hroundv.writes {}
    have hwritew : S.encoded H w = _ := hroundw.writes {}
    rw [hwritev] at hs
    rw [hwritew, ← hbytes] at ht
    exact Except.ok.inj (hs.symm.trans ht)
  refine ⟨s, t, hs, ht, ⟨fun hprefix => ?_, fun hreset => ?_⟩, fun hreset => ?_⟩
  · -- both are read from the longer bytes
    obtain ⟨tail, htail⟩ := hprefix
    obtain ⟨s', rest', hs', -, hreadv, -⟩ := hroundv.exists_encoded tail
    cases hs.symm.trans hs'
    rw [htail] at hreadv
    rw [List.append_nil] at hreadw
    exact (Prod.mk.inj (Except.ok.inj (hreadv.symm.trans hreadw))).1
  · rw [hsame hreset]
  · rw [hsame hreset]

/-- Records with different ignored fields, in lists. -/
theorem encoded_prefix_iff_of_ignored_items :
    let text := "struct Q \x7b @codec(ignore) n: u16 \x7d struct L \x7b items: list<Q> \x7d"
    let items := fun n : Value =>
      Value.object (.record "L") [("items", .list [.object (.record "Q") [("n", n)]])]
    let v := items (.text "note")
    let w := items (.int 3)
    ∃ S, ofText text = .ok S ∧ S.HookFree ∧ S.HasType maxEmptyItems (.declared "L") v ∧
      S.HasType maxEmptyItems (.declared "L") w ∧
      ∃ s t, S.encoded Hooks.empty v = .ok s ∧ S.encoded Hooks.empty w = .ok t ∧
        (s.bytes.toList <+: t.bytes.toList ↔ S.reset v = S.reset w) ∧
        (S.reset v = S.reset w → s.bytes = t.bytes) := by
  intro text items v w
  obtain ⟨S, hS, h⟩ := exists_of_any_ofText text
    (fun S => S.HookFree &&
      (S.record? "Q").any (fun r => r.name = "Q" ∧
        r.fields.map (fun l => l.field.ident) = ["n"] ∧ r.wireFields.length = 0) &&
      (S.record? "L").any fun r => r.fields.map (fun l => l.field.ident) = ["items"] ∧
        ∀ f ∈ r.wireFields, f.codec = .list (.declared "Q"))
    (by decide +kernel)
  simp only [Bool.and_eq_true, Option.any_eq_true, decide_eq_true_eq] at h
  obtain ⟨⟨hhooks, q, hq, hqname, hqidents, hqwire⟩, r, hr, hidents, hcodec⟩ := h
  have hitem : ∀ n, S.HasType maxEmptyItems (.declared "Q") (.object (.record "Q") [("n", n)]) := by
    intro n
    rw [← hqname]
    refine .record (hqname.symm ▸ hq) hqidents.symm fun f hf => ?_
    rw [List.eq_nil_of_length_eq_zero hqwire] at hf
    cases hf
  have hitems : ∀ n, S.HasType maxEmptyItems (.declared "L") (items n) := by
    intro n
    refine .record_of_single hr hidents hcodec ?_
    refine .list (show 1 ≤ maxLength by decide) (fun _ => show 1 ≤ maxEmptyItems by decide)
      fun x hx => ?_
    obtain rfl := List.mem_singleton.1 hx
    exact hitem n
  exact ⟨S, hS, hhooks, hitems _, hitems _,
    encoded_prefix_iff hS hhooks Hooks.empty (hitems _) (hitems _)⟩

end Layout

end WireSchema
