import WireSchema.Emit.Hook
import WireSchema.Proofs.Wire.RoundTrip
import WireSchema.Proofs.Wire.Unhooked

/-!
# Hooks that undo one another

A declaration has hooks, and nothing in it has. Then each hook meets what the layout without any hooks
makes of the rest: the hook behind encoding meets the buffer with the plain encoding of the stand-in,
and the hook behind decoding meets the plain value of the input that the hook in front of it has left.
So it is enough that plain coding is a round trip and that the hooks undo one another at the places
where they meet.
-/

namespace WireSchema

namespace Layout

variable {S : Layout}

/-! ## Types without hooks -/

theorem ZeroWidth.of_withoutHooks {c : Codec} (h : S.withoutHooks.ZeroWidth c) : S.ZeroWidth c := by
  induction h with
  | empty c => exact .empty c
  | array n _ ih => exact .array n ih
  | record hr _ ih =>
    rw [record?_withoutHooks] at hr
    obtain ⟨r, hr, rfl⟩ := Option.map_eq_some_iff.1 hr
    exact .record (r := r) hr ih

/-- Which values a type has is not a matter of hooks. -/
theorem HasType.withoutHooks {most : Nat} {c : Codec} {v : Value} (h : S.HasType most c v) :
    S.withoutHooks.HasType most c v := by
  induction h with
  | int hmin hmax => exact .int hmin hmax
  | bool b => exact .bool b
  | text hlen => exact .text hlen
  | packedBools hlen => exact .packedBools hlen
  | absent c => exact .absent c
  | present _ ih => exact .present ih
  | list hlen hmost _ ih => exact .list hlen (fun hc => hmost hc.of_withoutHooks) ih
  | array _ ih => exact .array ih
  | map hlen hkeys _ _ ihk ihc => exact .map hlen hkeys ihk ihc
  | @record r fields hr hfields _ ih =>
    have hr' : S.withoutHooks.record? r.name = some r.withoutHooks := by
      rw [record?_withoutHooks, hr, Option.map_some]
    exact .record (r := r.withoutHooks) hr' hfields ih
  | @variant u v fields hv hfields _ ih =>
    have hv' : S.withoutHooks.variant? u.name v.name = some (u.withoutHooks, v) := by
      rw [variant?_withoutHooks, hv, Option.map_some]
    exact .variant (u := u.withoutHooks) hv' hfields ih

theorem ignoredDefault?_withoutHooks (S : Layout) :
    S.withoutHooks.ignoredDefault? = S.ignoredDefault? := by
  funext owner field
  cases owner with
  | record name =>
    simp only [ignoredDefault?, record?_withoutHooks, fieldDefault?_withoutHooks]
    cases S.record? name <;> rfl
  | variant => rfl

mutual
/-- What is reset is a matter of the ignored fields. -/
theorem reset_congr {S S' : Layout} (h : S.ignoredDefault? = S'.ignoredDefault?) :
    ∀ v, S.reset v = S'.reset v
  | .list vs => by rw [reset, reset, resetItems_congr h vs]
  | .tuple vs => by rw [reset, reset, resetItems_congr h vs]
  | .map es => by rw [reset, reset, resetEntries_congr h es]
  | .object owner fields => by rw [reset, reset, resetFields_congr h owner fields]
  | .none | .bool _ | .int _ | .double _ | .text _ | .foreign _ => by simp only [reset]

theorem resetItems_congr {S S' : Layout} (h : S.ignoredDefault? = S'.ignoredDefault?) :
    ∀ vs, S.resetItems vs = S'.resetItems vs
  | [] => by simp only [resetItems]
  | v :: vs => by rw [resetItems, resetItems, reset_congr h v, resetItems_congr h vs]

theorem resetEntries_congr {S S' : Layout} (h : S.ignoredDefault? = S'.ignoredDefault?) :
    ∀ es, S.resetEntries es = S'.resetEntries es
  | [] => by simp only [resetEntries]
  | (k, v) :: es => by
    rw [resetEntries, resetEntries, reset_congr h k, reset_congr h v, resetEntries_congr h es]

theorem resetFields_congr {S S' : Layout} (h : S.ignoredDefault? = S'.ignoredDefault?)
    (owner : Owner) : ∀ fields, S.resetFields owner fields = S'.resetFields owner fields
  | [] => by simp only [resetFields]
  | (name, v) :: fields => by
    rw [resetFields, resetFields, h, reset_congr h v, resetFields_congr h owner fields]
end

/-! ## What is read -/

/-- What is read for fields has their names. -/
theorem names_of_decodeAll {D : String → Read Value} {fields : List Field} {s t : Source}
    {read : List (String × Value)}
    (h : Segment.decodeAll D (Segment.ofFields fields) s = .ok (read, t)) :
    read.map Prod.fst = fields.map Field.ident := by
  rw [Field.decodeAll_eq_ok_iff] at h
  induction fields generalizing s read with
  | nil =>
    cases h
    rfl
  | cons f fs ih =>
    obtain ⟨⟨v, s'⟩, -, h⟩ := exists_of_bind_eq_ok h
    obtain ⟨⟨others, t'⟩, hothers, h⟩ := exists_of_bind_eq_ok h
    cases h
    rw [List.map_cons, List.map_cons, ih hothers]

theorem decodes_of_readBody {D : String → Read Value} {d : Declaration} {s t : Source}
    {read : List (String × Value)} {v : Value} (h : S.readBody B D d s = .ok ((read, v), t)) :
    d.Decodes read v := by
  cases d with
  | record r =>
    obtain ⟨⟨fields, s'⟩, hfields, h⟩ := exists_of_bind_eq_ok h
    cases hcomplete : S.completeFields B fields r.fields with
    | error f => simp [hcomplete] at h
    | ok completed =>
      simp only [hcomplete] at h
      cases h
      exact ⟨⟨completed, rfl⟩, names_of_decodeAll hfields⟩
  | union u =>
    obtain ⟨⟨tag, s'⟩, -, h⟩ := exists_of_bind_eq_ok h
    cases hvariant : u.variantOfTag? tag with
    | none => simp [hvariant] at h
    | some l =>
      simp only [hvariant] at h
      obtain ⟨⟨fields, s''⟩, -, h⟩ := exists_of_bind_eq_ok h
      cases h
      exact ⟨l.name, fields, rfl⟩

/-! ## Writing what is left -/

theorem objects_withoutHooks (S : Layout) (write : Value → Write) :
    S.withoutHooks.objects write = S.objects write := by
  have hknows : S.withoutHooks.knows = S.knows := by
    funext v name
    unfold knows
    split <;> simp only [variant?_withoutHooks, Option.isSome_map]
  rw [objects, objects, hknows]

theorem Body.withoutHooks {owner : Owner} {d : Declaration} {front : List UInt8}
    {names : List String} {wire : List Field} (h : S.Body owner d front names wire) :
    S.withoutHooks.Body owner d.withoutHooks front names wire := by
  cases h with
  | @record r hr => exact .record (r := r.withoutHooks) (List.mem_map_of_mem hr)
  | @variant u v hu hv => exact .variant (u := u.withoutHooks) (List.mem_map_of_mem hu) hv

theorem Body.wire_subset {owner : Owner} {d : Declaration} {front : List UInt8}
    {names : List String} {wire : List Field} (h : S.Body owner d front names wire) :
    wire ⊆ d.wireFields := by
  cases h with
  | record hr => exact List.Subset.refl _
  | variant hu hv => exact fun f hf => List.mem_flatMap.2 ⟨_, hv, hf⟩

section

variable (hS : S.WellFormed) (H : Hooks)
include hS

/-- An object's fields are written in the same way, if what they hold is. -/
theorem Body.encodeAll_withoutHooks {owner : Owner} {d : Declaration} {front : List UInt8}
    {names : List String} {wire : List Field} (h : S.Body owner d front names wire)
    {fields : List (String × Value)} (hfields : fields.map Prod.fst = names)
    {nested nested' : Value → Write}
    (ih : ∀ f ∈ wire, ∀ e ∈ fields, e.1 = f.ident →
      f.codec.encode (S.objects nested') e.2 = f.codec.encode (S.objects nested) e.2) :
    Segment.encodeAll (S.withoutHooks.objects nested')
        (Entity.field? S.withoutHooks (.value (.object owner fields))) (Segment.ofFields wire) =
      Segment.encodeAll (S.objects nested) (Entity.field? S (.value (.object owner fields)))
        (Segment.ofFields wire) := by
  have hfield? : ∀ name ∈ (Segment.ofFields wire).flatMap Segment.idents,
      Entity.field? S.withoutHooks (.value (.object owner fields)) name =
        Entity.field? S (.value (.object owner fields)) name := by
    intro name hname
    rw [Segment.flatMap_idents_ofFields] at hname
    obtain ⟨f, hf, rfl⟩ := List.mem_map.1 hname
    rw [(h.withoutHooks.field?_eq hS.withoutHooks hfields hf).2, (h.field?_eq hS hfields hf).2]
  rw [objects_withoutHooks, Segment.encodeAll_congr_field? hfield?]
  apply Segment.encodeAll_congr
  intro field c w hc hw
  obtain ⟨f, hf, rfl, rfl⟩ := Segment.exists_field_of_single hc
  obtain ⟨w', hmem, hw'⟩ := h.exists_field? hS hfields hf
  cases hw.symm.trans hw'
  exact ih f hf _ hmem rfl

theorem Body.encodeAt_withoutHooks {owner : Owner} {d : Declaration} {front : List UInt8}
    {names : List String} {wire : List Field} (h : S.Body owner d front names wire)
    (hd : d.attributes.hooks = []) {fields : List (String × Value)}
    (hfields : fields.map Prod.fst = names)
    (ih : ∀ f ∈ wire, ∀ e ∈ fields, e.1 = f.ident → ∀ n,
      f.codec.encode (S.objects (S.withoutHooks.encodeAt H n)) e.2 =
        f.codec.encode (S.objects (S.encodeAt H n)) e.2) (n : Nat) :
    S.withoutHooks.encodeAt H n (.object owner fields) = S.encodeAt H n (.object owner fields) := by
  cases n with
  | zero => rfl
  | succ n =>
    funext s
    rw [h.withoutHooks.encodeAt_succ hS.withoutHooks S.hookFree_withoutHooks,
      h.encodeAt_succ_of_hooks_eq_nil hS hd,
      h.encodeAll_withoutHooks hS hfields fun f hf e he hname => ih f hf e he hname n]

/-- Values of a type that leads to no hooks are written as by the layout without hooks. -/
theorem HasType.encodeAt_withoutHooks {most : Nat} {c : Codec} {v : Value}
    (h : S.HasType most c v) : S.ReadsUnhooked c → ∀ n,
      c.encode (S.objects (S.withoutHooks.encodeAt H n)) v =
        c.encode (S.objects (S.encodeAt H n)) v := by
  induction h with
  | int | bool | text | packedBools =>
    intro _ n
    funext s
    simp only [Codec.encode, objects]
  | absent =>
    intro _ n
    funext s
    simp only [Codec.encode, Value.isNone, if_true]
  | present _ ih =>
    intro hc n
    funext s
    simp only [Codec.encode, ih (hc.of_subset (List.Subset.refl _)) n]
  | list _ _ _ ih =>
    intro hc n
    have hall := Write.all_congr fun v hv => ih v hv (hc.of_subset (List.Subset.refl _)) n
    funext s
    simp only [Codec.encode, Value.items?, hall]
  | array _ ih =>
    intro hc n
    have hall := Write.all_congr fun v hv => ih v hv (hc.of_subset (List.Subset.refl _)) n
    funext s
    simp only [Codec.encode, Value.items?, hall]
  | map _ _ _ _ ihk ihc =>
    intro hc n
    have hk := hc.of_subset (List.subset_append_left _ _)
    have hc := hc.of_subset (List.subset_append_right _ _)
    funext s
    simp only [Codec.encode]
    refine congrArg _ (funext (foldlM_congr_mem fun e he s => ?_))
    rw [ihk e he hk n, ihc e he hc n]
  | record hr hfields _ ih =>
    intro hc n
    obtain ⟨hmem, -⟩ := mem_of_record? hr
    have hd := hS.declaration?_record hmem
    exact (Body.record hmem).encodeAt_withoutHooks hS H (hc _ (.named (.head _) hd)) hfields
      (fun f hf e he hname n => ih f hf e he hname (hc.field hd hf) n) n
  | variant hv hfields _ ih =>
    intro hc n
    obtain ⟨hu, -, hv, -⟩ := mem_of_variant? hv
    have hd := hS.declaration?_union hu
    have hbody := Body.variant hu hv
    exact hbody.encodeAt_withoutHooks hS H (hc _ (.named (.head _) hd)) hfields
      (fun f hf e he hname n => ih f hf e he hname (hc.field hd (hbody.wire_subset hf)) n) n

/-- A value of a declared type is an object that its declaration writes. -/
theorem HasType.exists_body {most : Nat} {d : Declaration} (hd : S.Declares d) {v : Value}
    (h : S.HasType most (.declared d.name) v) :
    ∃ owner front names wire fields, v = .object owner fields ∧
      S.Body owner d front names wire ∧ fields.map Prod.fst = names ∧
      ∀ f ∈ wire, ∀ e ∈ fields, e.1 = f.ident → S.HasType most f.codec e.2 := by
  have hdeclared := hS.declaration?_eq_some hd
  generalize hc : Codec.declared d.name = c at h
  cases h with
  | present | absent | int | bool | text | packedBools | list | array | map => cases hc
  | record hr hfields htyped =>
    obtain ⟨hr, -⟩ := mem_of_record? hr
    rw [Codec.declared.inj hc, hS.declaration?_record hr] at hdeclared
    cases hdeclared
    exact ⟨_, _, _, _, _, rfl, .record hr, hfields, htyped⟩
  | variant hv hfields htyped =>
    obtain ⟨hu, -, hv, -⟩ := mem_of_variant? hv
    rw [Codec.declared.inj hc, hS.declaration?_union hu] at hdeclared
    cases hdeclared
    exact ⟨_, _, _, _, _, rfl, .variant hu hv, hfields, htyped⟩

/-! ## Hooks around what is left -/

/-- The code of a declaration writes the plain encoding of an object and then runs its last hook. -/
theorem Body.writeAs_withoutHooks {owner : Owner} {d : Declaration} {front : List UInt8}
    {names : List String} {wire : List Field} (h : S.Body owner d front names wire)
    (hd : ∀ f ∈ wire, S.ReadsUnhooked f.codec) {most : Nat} {fields : List (String × Value)}
    (hfields : fields.map Prod.fst = names)
    (htyped : ∀ f ∈ wire, ∀ e ∈ fields, e.1 = f.ident → S.HasType most f.codec e.2)
    (v : Value) (s : Sink) :
    S.writeAs H (S.encodeAt H ((Value.object owner fields).depth + hookAllowance)) d v
        (.value (.object owner fields)) s =
      S.withoutHooks.encode H (.object owner fields) s >>=
        H.postEncoded d.attributes d.name v (.value (.object owner fields)) := by
  rw [h.writeAs_bind hS, h.withoutHooks.encode hS.withoutHooks S.hookFree_withoutHooks,
    h.encodeAll_withoutHooks hS hfields fun f hf e he hname =>
      (htyped f hf e he hname).encodeAt_withoutHooks hS H (hd f hf) _]

omit hS in
/-- The code of a declaration reads the plain value and then runs its last hook. -/
theorem exists_readAs_eq {type : String} {d : Declaration} {D D' : String → Read Value}
    (hD : ∀ f ∈ d.wireFields, ∀ name ∈ f.codec.declaredNames, D' name = D name) {s t : Source}
    {v : Value} (h : S.withoutHooks.readAs B H D' type d.withoutHooks s = .ok (v, t)) :
    ∃ read, d.Decodes read v ∧
      S.readAs B H D type d s = H.postDecoded d.attributes type read v t := by
  rw [readAs_eq_readBody, readBody_withoutHooks hD] at h
  obtain ⟨⟨⟨read, w⟩, u⟩, hp, h⟩ := exists_of_bind_eq_ok h
  rw [H.postDecoded_of_none d.postDecode_withoutHooks] at h
  cases h
  exact ⟨read, decodes_of_readBody hp, by rw [readAs_eq_readBody, hp]; rfl⟩

end

/-! ## The round trip -/

/-- The hooks of a declaration undo one another. Before encoding, a value of the type takes the place of
each, and behind decoding each is put back, with whatever remains. What is done to a buffer is
undone before it is decoded. Where there is no hook, nothing is done. -/
structure HooksUndo (S : Layout) (H : Hooks) (d : Declaration) (standin : Value → Value) :
    Prop where
  typed : ∀ v, S.HasType maxEmptyItems (.declared d.name) v →
    S.HasType maxEmptyItems (.declared d.name) (standin v)
  opens : ∀ v, S.HasType maxEmptyItems (.declared d.name) v → ∀ s, ∃ t,
    H.preEncoded d.attributes d.name v s = .ok (.value (standin v), t) ∧ t.bytes = s.bytes
  undoes : ∀ v, S.HasType maxEmptyItems (.declared d.name) v → ∀ s, ∃ t u,
    H.postEncoded d.attributes d.name v (.value (standin v)) s = .ok t ∧
      H.preDecoded d.attributes d.name (.ofOrigin { bytes := t.bytes.toList }) = .ok ((), u) ∧
      u.bytes = s.bytes.toList
  closes : ∀ v, S.HasType maxEmptyItems (.declared d.name) v → ∀ read s,
    d.Decodes read (S.reset (standin v)) → ∃ t,
      H.postDecoded d.attributes d.name read (S.reset (standin v)) s = .ok (S.reset v, t) ∧
        t.bytes = s.bytes

section

variable {H : Hooks} {d : Declaration} {standin : Value → Value}

/-- The buffer that the last hook meets holds the plain encoding of the stand-in. -/
theorem HooksUndo.exists_encoded (h : S.HooksUndo H d standin) (hS : S.WellFormed)
    (hd : S.Declares d) (hfields : ∀ f ∈ d.wireFields, S.ReadsUnhooked f.codec) {v : Value}
    (hv : S.HasType maxEmptyItems (.declared d.name) v) {bs : List UInt8}
    (hplain : Write.Appends (S.withoutHooks.encode H (standin v)) bs) :
    ∃ s, s.bytes = bs.toArray ∧
      S.encoded H v = H.postEncoded d.attributes d.name v (.value (standin v)) s := by
  obtain ⟨owner, front, names, wire, fields, rfl, hbody, -⟩ := hv.exists_body hS hd
  obtain ⟨owner', front', names', wire', fields', hstandin, hbody', hnames', htyped'⟩ :=
    (h.typed _ hv).exists_body hS hd
  obtain ⟨s, hs, hbytes⟩ := h.opens _ hv {}
  refine ⟨s.append bs, by simp [Sink.append, hbytes], ?_⟩
  rw [encoded, encode, hbody.codeOf hS]
  simp only [encodeBy, hs]
  rw [hstandin] at hplain ⊢
  have hwrite := hbody'.writeAs_withoutHooks hS H
    (fun f hf => hfields f (hbody'.wire_subset hf)) hnames' htyped' (.object owner fields) s
  rw [hplain s] at hwrite
  exact hwrite

/-- The input that the first hook leaves is decoded to the plain value, which the last hook meets. -/
theorem HooksUndo.exists_decodeFrom (h : S.HooksUndo H d standin) (hS : S.WellFormed)
    (hd : S.Declares d) (hfields : ∀ f ∈ d.wireFields, S.ReadsUnhooked f.codec) {v : Value}
    (hv : S.HasType maxEmptyItems (.declared d.name) v) {bs bs' : List UInt8} {u : Source}
    (hB : S.KeepsBuiltins)
    (hplain : (S.withoutHooks.decodeIn .all H d.name).Takes bs (S.reset (standin v)))
    (hpre : H.preDecoded d.attributes d.name (.ofOrigin { bytes := bs' }) = .ok ((), u))
    (hu : u.bytes = bs) :
    ∃ t, S.decodeFrom H d.name bs' = .ok (S.reset v, t) ∧ t.bytes = [] := by
  have hread := hplain u [] (by rw [hu, List.append_nil])
  rw [decodeIn, declaration?_withoutHooks, hS.declaration?_eq_some hd] at hread
  simp only [Option.map_some, H.preDecoded_of_none d.preDecode_withoutHooks] at hread
  have hbound : S.withoutHooks.depthBound u.bytes = S.depthBound u.bytes := by
    simp only [depthBound, Layout.withoutHooks, List.length_map]
  change S.withoutHooks.readAs .all H
    (S.withoutHooks.decodeAt .all H (S.withoutHooks.depthBound u.bytes)) d.name d.withoutHooks u = _
    at hread
  rw [hbound] at hread
  obtain ⟨read, hdecodes, hread⟩ := exists_readAs_eq H (fun f hf name hname =>
    decodeAt_withoutHooks H (S.depthBound u.bytes) ((hfields f hf).of_mem hname)) hread
  obtain ⟨t, ht, hbytes⟩ := h.closes v hv read { u with bytes := [] } hdecodes
  refine ⟨t, ?_, hbytes⟩
  rw [decodeFrom, decode, decodeIn, hS.declaration?_eq_some hd, hB.builtins_eq]
  simp only [Builtins.calling_all, hpre]
  exact hread.trans ht

/-- A type whose hooks undo one another, and in which there are no hooks, round-trips. What its last
hook of encoding meets is the plain encoding of what the first one puts in place of the value, and
nothing remains. -/
theorem decodeFrom_encoded_of_hooksUndo [Text.CharacterNames] {text : String}
    (hS : ofText text = .ok S) (hB : S.KeepsBuiltins) (hd : S.Declares d)
    (hfields : ∀ f ∈ d.wireFields, S.ReadsUnhooked f.codec) (h : S.HooksUndo H d standin)
    {v : Value} (hv : S.HasType maxEmptyItems (.declared d.name) v) :
    ∃ plain s t u, S.withoutHooks.encoded H (standin v) = .ok plain ∧ s.bytes = plain.bytes ∧
      H.postEncoded d.attributes d.name v (.value (standin v)) s = .ok t ∧
      S.encoded H v = .ok t ∧
      S.decodeFrom H d.name t.bytes.toList = .ok (S.reset v, u) ∧ u.bytes = [] := by
  have hS := wellFormed_of_ofText hS
  have hstandin := (h.typed v hv).withoutHooks
  have hround := roundTrips_of_hasType (H := H) hS.withoutHooks S.hookFree_withoutHooks hstandin
    (.declared hstandin.mem_names)
  obtain ⟨hwrites, hreads, -⟩ := hround
  rw [reset_congr S.ignoredDefault?_withoutHooks] at hreads
  obtain ⟨s, hs, hencoded⟩ := h.exists_encoded hS hd hfields hv hwrites
  obtain ⟨t, u, ht, hu, hbytes⟩ := h.undoes v hv s
  rw [hs, List.toList_toArray] at hbytes
  obtain ⟨u', hdecoded, hrest⟩ := h.exists_decodeFrom hS hd hfields hv hB hreads hu hbytes
  exact ⟨_, s, t, u', hwrites {}, by simp [hs, Sink.append], ht, hencoded.trans ht, hdecoded, hrest⟩

end

end Layout

end WireSchema
