import WireSchema.Proofs.Wire.Soundness

/-!
# Writing what was read

A value that was read can be written again, unless it has a list with more elements without any
bytes than are written. Reading holds such a list to the bytes that happen to follow it. Nothing
else that is read stands in the way of writing, and such a list does so as a value does that is not
of its type.
-/

namespace WireSchema

namespace Write

/-- Writing succeeds only under a condition, and fails by the value that is written. -/
inductive Needs (P : Prop) : Except (Fault × Sink) Sink → Prop
  | done (s : Sink) : P → Needs P (.ok s)
  | refused {f : Fault} (s : Sink) : f.kind = .value → Needs P (.error (f, s))

variable {P Q : Prop}

theorem Needs.mono {x : Except (Fault × Sink) Sink} (h : Needs P x) (hPQ : P → Q) : Needs Q x := by
  cases h with
  | done s hP => exact .done s (hPQ hP)
  | refused s hk => exact .refused s hk

theorem Needs.bind {x : Except (Fault × Sink) Sink} {f : Write} (h : Needs P x)
    (hf : ∀ s, P → Needs Q (f s)) : Needs Q (x >>= f) := by
  cases h with
  | done s hP => exact hf s hP
  | refused s hk => exact .refused s hk

theorem Needs.of_ok {s : Sink} (h : Needs P (.ok s)) : P := by
  cases h with | done _ hP =>
  exact hP

theorem Needs.eq_error {x : Except (Fault × Sink) Sink} (h : Needs P x) (hnot : ¬ P) :
    ∃ f s, x = .error (f, s) ∧ f.kind = .value := by
  cases h with
  | done _ hP => exact absurd hP hnot
  | refused s hk => exact ⟨_, s, rfl, hk⟩

theorem Appends.needs {write : Write} {bs : List UInt8} (h : write.Appends bs) (hP : P) (s : Sink) :
    Needs P (write s) := by
  rw [h s]
  exact .done _ hP

/-- Writing in sequence needs what each part needs. -/
theorem needs_foldlM {α : Type} {P : α → Prop} {write : α → Write} {as : List α}
    (h : ∀ a ∈ as, ∀ s, Needs (P a) (write a s)) (s : Sink) :
    Needs (∀ a ∈ as, P a) (as.foldlM (fun s a => write a s) s) := by
  induction as generalizing s with
  | nil => exact .done s nofun
  | cons a as ih =>
    rw [List.foldlM_cons]
    refine (h a (.head _) s).bind fun s ha => ?_
    refine (ih (fun b hb => h b (.tail _ hb)) s).mono fun has => ?_
    exact List.forall_mem_cons.2 ⟨ha, has⟩

/-- Fields need in segments what they need each on its own, where all slots are filled. -/
theorem needs_encodeAll {O : Objects} {field? : String → Option Value} {fields : List Field}
    (hfields : ∀ f ∈ fields, (field? f.ident).isSome)
    (hslots : ∀ f ∈ fields, ∀ slot, f.codec.slot? = some slot → ∀ w, field? f.ident = some w →
      slot.pack? w ≠ none)
    {s : Sink} (h : Needs P (Field.encodeEach O field? fields s)) :
    Needs P (Segment.encodeAll O field? (Segment.ofFields fields) s) := by
  cases hx : Segment.encodeAll O field? (Segment.ofFields fields) s with
  | ok t =>
    rw [(Field.encodeAll_eq_ok_iff hfields).1 hx] at h
    cases h with
    | done _ hP => exact .done t hP
  | error e =>
    refine .refused e.2 ?_
    have hnot : ∀ w vs, ¬ Field.Refused O field? fields s w vs := by
      rintro w vs ⟨before, f, after, -, slot, rfl, -, hc, hw, hbs, -⟩
      exact hslots f (List.mem_append.2 (.inr (.head _))) slot hc w hw hbs
    have hkind := Field.outcome_of_not_refused hfields hnot
    rw [hx] at hkind
    generalize Field.encodeEach O field? fields s = y at h hkind
    cases h with
    | done t _ => cases hkind
    | refused t hk => exact (Except.error.inj hkind).trans hk

end Write

namespace Layout

variable {S : Layout} {H : Hooks}

/-- Writing a value as it is read needs that it is a value as it is written. -/
def Rewrites (S : Layout) (H : Hooks) (c : Codec) (v : Value) : Prop :=
  ∀ s, Write.Needs (S.HasType maxEmptyItems c v) (c.encode (S.objects (S.encode H)) v s)

theorem RoundTrips.rewrites {c : Codec} {v : Value} (h : S.RoundTrips H .all c v)
    (hv : S.HasType maxEmptyItems c v) : S.Rewrites H c v :=
  h.writes.needs hv

theorem Rewrites.optional {c : Codec} {v : Value} (h : S.Rewrites H c v) :
    S.Rewrites H (.optional c) v := by
  intro s
  by_cases hv : v.isNone = true
  · cases v with
    | none => exact (roundTrips_none c).rewrites (.absent c) s
    | _ => cases hv
  · simp only [Codec.encode, if_neg hv]
    exact (h _).mono .present

theorem rewrites_all {c : Codec} {vs : List Value} (h : ∀ v ∈ vs, S.Rewrites H c v) (s : Sink) :
    Write.Needs (∀ v ∈ vs, S.HasType maxEmptyItems c v)
      (Write.all (c.encode (S.objects (S.encode H))) vs s) :=
  Write.needs_foldlM h s

/-- A list is written only if its elements are, and if it is not too long for what they take up. -/
theorem rewrites_list {c : Codec} {vs : List Value} (hlen : vs.length ≤ maxLength)
    (hround : ∀ v, S.HasType maxEmptyItems c v → S.RoundTrips H .all c v)
    (h : ∀ v ∈ vs, S.Rewrites H c v) : S.Rewrites H (.list c) (.list vs) := by
  intro s
  simp only [Codec.encode, Value.items?, Write.appends_writeCount hlen s]
  change Write.Needs _ (Write.all _ vs _ >>= _)
  have hneeds := rewrites_all h (s.append (countBytes vs.length))
  cases hall : Write.all (c.encode (S.objects (S.encode H))) vs
      (s.append (countBytes vs.length)) with
  | error e =>
    rw [hall] at hneeds
    cases hneeds with | refused _ hk =>
    exact .refused _ hk
  | ok t =>
    rw [hall] at hneeds
    cases hneeds with | done _ htyped =>
    change Write.Needs _ (if _ then _ else _)
    split
    next => exact .refused _ rfl
    next hnot =>
      refine .done t (.list hlen (fun hc => ?_) htyped)
      have hbytes := Write.appends_all fun v hv => (hround v (htyped v hv)).writes
      have hnil := (flatMap_bytesOf_eq_nil fun v hv => hround v (htyped v hv)).2 (.inr hc)
      rw [hnil] at hbytes
      have ht := (hbytes (s.append (countBytes vs.length))).symm.trans hall
      rw [Sink.append_nil] at ht
      cases ht
      omega

theorem rewrites_array {c : Codec} {vs : List Value} (h : ∀ v ∈ vs, S.Rewrites H c v) :
    S.Rewrites H (.array c vs.length) (.list vs) := by
  intro s
  simp only [Codec.encode, Value.items?]
  exact (rewrites_all h s).mono .array

theorem rewrites_map {k c : Codec} {es : List (Value × Value)} (hlen : es.length ≤ maxLength)
    (hkeys : (es.map Prod.fst).Nodup) (hk : ∀ e ∈ es, S.Rewrites H k e.1)
    (hc : ∀ e ∈ es, S.Rewrites H c e.2) : S.Rewrites H (.map k c) (.map es) := by
  intro s
  simp only [Codec.encode, Write.appends_writeCount hlen s]
  have hentry : ∀ e ∈ es, ∀ s, Write.Needs
      (S.HasType maxEmptyItems k e.1 ∧ S.HasType maxEmptyItems c e.2)
      (k.encode (S.objects (S.encode H)) e.1 s >>= c.encode (S.objects (S.encode H)) e.2) := by
    intro e he s
    exact (hk e he s).bind fun s hkey => (hc e he s).mono fun hvalue => ⟨hkey, hvalue⟩
  refine (Write.needs_foldlM hentry _).mono fun h => ?_
  exact .map hlen hkeys (fun e he => (h e he).1) fun e he => (h e he).2

section

variable (hS : S.WellFormed) (hH : S.HookFree)
include hS hH

omit hS hH in
/-- A slot is filled by every value of its type. -/
theorem HasType.pack?_ne_none {most : Nat} {c : Codec} {v : Value} (h : S.HasType most c v)
    {slot : Slot} (hslot : c.slot? = some slot) : slot.pack? v ≠ none := by
  cases h with
  | int hmin hmax =>
    obtain ⟨bs, hbs⟩ := IntCodec.exists_encode? hmin hmax
    rw [(Slot.eq_of_slot?_int hslot).1]
    exact Option.isSome_iff_ne_none.1 (Option.isSome_iff_exists.2 ⟨bs, hbs⟩)
  | bool b =>
    cases hslot
    exact nofun
  | _ => cases hslot

/-- The fields of an object need what each of them needs. -/
theorem Body.needs {owner : Owner} {d : Declaration} {front : List UInt8} {names : List String}
    {wire : List Field} (h : S.Body owner d front names wire) {fields : List (String × Value)}
    (hfields : fields.map Prod.fst = names)
    (htyped : ∀ f ∈ wire, ∀ e ∈ fields, e.1 = f.ident → S.HasType maxLength f.codec e.2)
    (ih : ∀ f ∈ wire, ∀ e ∈ fields, e.1 = f.ident → S.Rewrites H f.codec e.2) (s : Sink) :
    Write.Needs (∀ f ∈ wire, ∀ e ∈ fields, e.1 = f.ident → S.HasType maxEmptyItems f.codec e.2)
      (S.encode H (.object owner fields) s) := by
  have hheld := fun f hf => h.field?_eq hS hfields (f := f) hf
  have heach : ∀ f ∈ wire, ∀ s,
      Write.Needs (S.HasType maxEmptyItems f.codec (heldBy fields f.ident))
        (f.encode (S.objects (S.encode H))
          (Entity.field? S (.value (.object owner fields))) s) := by
    intro f hf s
    rw [Field.encode, (hheld f hf).2]
    exact ih f hf _ (hheld f hf).1 rfl s
  rw [h.encode_eq hS hH H hfields htyped]
  refine (Write.needs_encodeAll (fun f hf => ?_) (fun f hf slot hslot w hw => ?_)
    (Write.needs_foldlM heach _)).mono ?_
  · exact Option.isSome_iff_exists.2 ⟨_, (hheld f hf).2⟩
  · rw [(hheld f hf).2] at hw
    cases hw
    exact (htyped f hf _ (hheld f hf).1 rfl).pack?_ne_none hslot
  · intro hall f hf e he hname
    rw [← heldBy_of_mem (hfields ▸ h.distinct hS) he, hname]
    exact hall f hf

/-- What is read is written only as what can be written. -/
theorem HasType.rewrites {c : Codec} {v : Value} (h : S.HasType maxLength c v) :
    S.Admits c → S.Rewrites H c v := by
  induction h with
  | int hmin hmax => exact fun _ => (roundTrips_int hmin hmax).rewrites (.int hmin hmax)
  | bool b => exact fun _ => (roundTrips_bool b).rewrites (.bool b)
  | text hlen => exact fun _ => (roundTrips_text hlen).rewrites (.text hlen)
  | packedBools hlen => exact fun _ => (roundTrips_packedBools hlen).rewrites (.packedBools hlen)
  | absent c => exact fun _ => (roundTrips_none c).rewrites (.absent c)
  | present _ ih =>
    intro hc
    cases hc with | optional hc =>
    exact (ih hc).optional
  | list hlen _ _ ih =>
    intro hc
    cases hc with | list hc =>
    exact rewrites_list hlen (fun v hv => roundTrips_of_hasType hS hH hv hc) fun v hv => ih v hv hc
  | array _ ih =>
    intro hc
    cases hc with | array _ hc =>
    exact rewrites_array fun v hv => ih v hv hc
  | map hlen hkeys _ _ ihk ihc =>
    intro hc
    cases hc with | map hk hc =>
    exact rewrites_map hlen hkeys (fun e he => ihk e he (.of_isKey hk)) fun e he => ihc e he hc
  | record hr hfields htyped ih =>
    intro _ s
    have hbody := Body.record (mem_of_record? hr).1
    refine (hbody.needs hS hH hfields htyped (fun f hf e he hname =>
      ih f hf e he hname ((hbody.wellFormed hS).admits f hf)) s).mono fun hall => ?_
    exact .record hr hfields hall
  | variant hv hfields htyped ih =>
    intro _ s
    obtain ⟨hu, -, hv', -⟩ := mem_of_variant? hv
    have hbody := Body.variant hu hv'
    refine (hbody.needs hS hH hfields htyped (fun f hf e he hname =>
      ih f hf e he hname ((hbody.wellFormed hS).admits f hf)) s).mono fun hall => ?_
    exact .variant hv hfields hall

end

/-! ## Lists that are read and not written -/

/-- What follows a list makes up for its length, whatever it is. -/
theorem decode_list_of_zeroWidth {c : Codec} {v : Value} (h : S.RoundTrips H B c v)
    (hc : S.ZeroWidth c) {n : Nat} (hn : n ≤ maxLength) {s : Source} {rest : List UInt8}
    (hs : s.bytes = countBytes n ++ rest) (hrest : n ≤ rest.length + maxEmptyItems) :
    (Codec.list c).decode (S.decodeIn B H) s =
      .ok (.list (List.replicate n (S.reset v)), { s with bytes := rest }) := by
  have hnot : ¬ exceeds n maxEmptyItems rest = true := by
    rw [exceeds_iff]
    omega
  have hitems : (Read.times (c.decode (S.decodeIn B H)) n).Takes [] (List.replicate n (S.reset v)) := by
    have hround : ∀ w ∈ List.replicate n v, S.RoundTrips H B c w := by
      intro w hw
      rw [List.eq_of_mem_replicate hw]
      exact h
    have htimes := Read.Takes.times fun w hw => (hround w hw).reads
    have hnil := (flatMap_bytesOf_eq_nil hround).2 (.inr hc)
    rwa [hnil, List.length_replicate, List.map_replicate] at htimes
  simp only [Codec.decode, Read.takes_lift (takes_readCount hn) s rest hs]
  change (if _ then _ else _) = _
  rw [if_neg hnot]
  change (Read.times _ n _ >>= _) = _
  rw [hitems { s with bytes := rest } rest rfl]
  rfl

theorem HasType.of_record (hS : S.WellFormed) {most : Nat} {r : RecordLayout} (hr : r ∈ S.records)
    {fields : List (String × Value)}
    (h : S.HasType most (.declared r.name) (.object (.record r.name) fields)) :
    ∀ f ∈ r.wireFields, ∀ e ∈ fields, e.1 = f.ident → S.HasType most f.codec e.2 := by
  generalize hc : Codec.declared r.name = c at h
  generalize hv : Value.object (.record r.name) fields = v at h
  cases h with
  | record hr' _ htyped =>
    obtain ⟨howner, rfl⟩ := Value.object.inj hv
    rw [← Owner.record.inj howner, hS.record?_eq_some hr] at hr'
    cases hr'
    exact htyped
  | present => cases hc
  | _ => cases hv

/-- Such a list is not written if it is too long. -/
theorem not_hasType_list_of_zeroWidth {c : Codec} (hc : S.ZeroWidth c) {vs : List Value}
    (hlen : maxEmptyItems < vs.length) : ¬ S.HasType maxEmptyItems (.list c) (.list vs) := by
  intro h
  cases h with | list _ hmost _ =>
  exact absurd (hmost hc) (Nat.not_le_of_lt hlen)

/-- A record of one such list is read and not written. -/
theorem not_encoded_of_zeroWidth (hS : S.WellFormed) (hH : S.HookFree) (hB : S.KeepsBuiltins)
    {r : RecordLayout} (hr : r ∈ S.records) {f : Field} (hwire : r.wireFields = [f]) {c : Codec}
    (hf : f.codec = .list c) (hc : S.ZeroWidth c) {v : Value} (h : S.RoundTrips H .all c v) {n : Nat}
    (hn : n ≤ maxLength) (hmost : maxEmptyItems < n) (rest : List UInt8)
    (hrest : n ≤ rest.length + maxEmptyItems) :
    ∃ w t, S.decodeFrom H r.name (countBytes n ++ rest) = .ok (w, t) ∧ t.bytes = rest ∧
      ∃ f s, S.encoded H w = .error (f, s) ∧ f.kind = .value := by
  let items := Value.list (List.replicate n (S.reset v))
  let s : Source := .ofOrigin { bytes := countBytes n ++ rest }
  have hwf := hS.records r hr
  have hread : Segment.decodeAll (S.decodeIn .all H) r.segments s =
      .ok (r.wireFields.map fun f => (f.ident, items), { s with bytes := rest }) := by
    refine Field.decodeAll_eq_ok_iff.2 ?_
    rw [hwire, Field.decodeEach, hf, decode_list_of_zeroWidth h hc hn rfl hrest]
    rfl
  let w := Value.object (.record r.name) (r.fields.map fun l =>
    (l.field.ident, S.completed (fun _ => items) l))
  have hdecode :
      S.decodeFrom H r.name (countBytes n ++ rest) = .ok (w, { s with bytes := rest }) := by
    have hfix := decode_eq_readAs hS hH H (B := .all) (d := .record r) hr s
    rw [decodeFrom, decode, hB.builtins_eq]
    exact hfix.trans (readAs_record hS hH hr r.name hread (fillsIgnored_all r.fields))
  have hnot : ¬ S.HasType maxEmptyItems (.declared r.name) w := by
    intro htyped
    have hf' : f ∈ r.wireFields := hwire ▸ .head _
    obtain ⟨l, hl, hi, rfl⟩ := hwf.mem_wireFields_iff.1 hf'
    have hitems := htyped.of_record hS hr l.field hf' _ (List.mem_map_of_mem hl) rfl
    rw [hf] at hitems
    simp only [completed, hi, Bool.false_eq_true, if_false] at hitems
    exact not_hasType_list_of_zeroWidth hc (by rwa [List.length_replicate]) hitems
  have hname := mem_names_of_record hr
  have hfound := decode_declared_finds hS hH (B := S.builtins) H r.name hname s
  rw [show S.decodeIn S.builtins H r.name s = _ from hdecode] at hfound
  cases hfound with | value _ hw =>
  have hneeds : Write.Needs (S.HasType maxEmptyItems (.declared r.name) w) (S.encoded H w) :=
    hw.hasType.rewrites hS hH (.declared hname) {}
  exact ⟨w, _, hdecode, rfl, hneeds.eq_error hnot⟩

/-! ## What was read from any input -/

/-- What is read from any input is of its type, but for the limit on elements without any bytes. It
can be written and read again exactly if no list in it goes over the limit that writing has. Else
writing fails by the value. -/
theorem encoded_of_decodeFrom [Text.CharacterNames] {text : String} (hS : ofText text = .ok S)
    (hH : S.HookFree) (H : Hooks) {name : String} (hname : name ∈ S.names) {bytes : List UInt8}
    {v : Value} {rest : Source} (h : S.decodeFrom H name bytes = .ok (v, rest)) :
    S.HasType maxLength (.declared name) v ∧
    (S.HasType maxEmptyItems (.declared name) v ↔
      ∃ s t, S.encoded H v = .ok s ∧ S.decodeFrom H name s.bytes.toList = .ok (v, t) ∧
        t.bytes = []) ∧
    (¬ S.HasType maxEmptyItems (.declared name) v →
      ∃ f s, S.encoded H v = .error (f, s) ∧ f.kind = .value) := by
  have hwf := wellFormed_of_ofText hS
  have hfound := decode_declared_finds hwf hH (B := S.builtins) H name hname (.ofOrigin { bytes })
  rw [show S.decodeIn S.builtins H name _ = _ from h] at hfound
  cases hfound with | value _ hv =>
  have hneeds : Write.Needs (S.HasType maxEmptyItems (.declared name) v) (S.encoded H v) :=
    hv.hasType.rewrites hwf hH (.declared hname) {}
  refine ⟨hv.hasType, ⟨fun htyped => ?_, ?_⟩, fun hnot => ?_⟩
  · have hround := roundTrips_of_callable (H := H) hwf hH htyped (.declared hname) hv.callable
    obtain ⟨s, t, hs, -, ht, hrest, -⟩ := hround.exists_encoded []
    rw [List.append_nil, hv.reset] at ht
    exact ⟨s, t, hs, ht, hrest⟩
  · rintro ⟨s, -, hs, -⟩
    rw [hs] at hneeds
    exact hneeds.of_ok
  · exact hneeds.eq_error hnot

/-- A list of one element that takes up no bytes is read, and writing it again decides its type. -/
theorem encoded_of_decodeFrom_of_empty_item :
    let text := "struct M struct L \x7b items: list<M> \x7d"
    ∃ S v rest, ofText text = .ok S ∧ S.HookFree ∧ "L" ∈ S.names ∧
      S.decodeFrom Hooks.empty "L" [1, 0, 0, 0, 0, 0, 0, 0, 5] = .ok (v, rest) ∧
      (S.HasType maxEmptyItems (.declared "L") v ↔
        ∃ s t, S.encoded Hooks.empty v = .ok s ∧
          S.decodeFrom Hooks.empty "L" s.bytes.toList = .ok (v, t) ∧ t.bytes = []) := by
  intro text
  obtain ⟨S, hS, h⟩ := exists_of_any_ofText text
    (fun S => S.HookFree && S.names.contains "L" &&
      (S.decodeFrom Hooks.empty "L" [1, 0, 0, 0, 0, 0, 0, 0, 5]).isOk)
    (by decide +kernel)
  simp only [Bool.and_eq_true, decide_eq_true_eq, List.contains_iff_mem] at h
  obtain ⟨⟨hhooks, hname⟩, hok⟩ := h
  cases hread : S.decodeFrom Hooks.empty "L" [1, 0, 0, 0, 0, 0, 0, 0, 5] with
  | error e =>
    rw [hread] at hok
    cases hok
  | ok p =>
    obtain ⟨v, rest⟩ := p
    have hiff := (encoded_of_decodeFrom hS hhooks Hooks.empty hname hread).2.1
    exact ⟨S, v, rest, hS, hhooks, hname, hread, hiff⟩

/-- One element more than can be written is read, where one byte follows. -/
theorem not_encoded_of_units :
    let text := "struct M struct L \x7b items: list<M> \x7d"
    ∃ S v t, ofText text = .ok S ∧ S.HookFree ∧
      S.decodeFrom Hooks.empty "L" [1, 0, 1, 0, 0, 0, 0, 0, 171] = .ok (v, t) ∧ t.bytes = [171] ∧
      ∃ f s, S.encoded Hooks.empty v = .error (f, s) ∧ f.kind = .value := by
  intro text
  obtain ⟨S, hS, h⟩ := exists_of_any_ofText text
    (fun S => S.HookFree && S.KeepsBuiltins &&
      (S.record? "M").any (fun r => r.name = "M" ∧ r.fields.length = 0 ∧ r.wireFields.length = 0) &&
      (S.record? "L").any (fun r => r.name = "L" ∧
        r.wireFields.map Field.codec = [.list (.declared "M")]))
    (by decide +kernel)
  simp only [Bool.and_eq_true, Option.any_eq_true, decide_eq_true_eq] at h
  obtain ⟨⟨⟨hhooks, hkeeps⟩, r, hr, hrname, hrfields, hrwire⟩, q, hq, hqname, hqwire⟩ := h
  have hwf := wellFormed_of_ofText hS
  have hr' := (mem_of_record? hr).1
  have hwire := List.eq_nil_of_length_eq_zero hrwire
  have hzero : S.ZeroWidth (.declared r.name) :=
    (zeroWidth_record_iff hwf hr').2 fun f hf => absurd (hwire ▸ hf) List.not_mem_nil
  have hunit : S.HasType maxEmptyItems (.declared r.name) (.object (.record r.name) []) := by
    refine .record (hwf.record?_eq_some hr') ?_ fun f hf => absurd (hwire ▸ hf) List.not_mem_nil
    rw [List.eq_nil_of_length_eq_zero hrfields]
    rfl
  have hround :=
    roundTrips_of_hasType (H := Hooks.empty) hwf hhooks hunit (.declared hunit.mem_names)
  obtain ⟨f, hf, hcodec⟩ := List.map_eq_singleton_iff.1 hqwire
  rw [← hrname] at hcodec
  obtain ⟨v, t, hv, ht, hnot⟩ := not_encoded_of_zeroWidth (H := Hooks.empty) hwf hhooks hkeeps
    (mem_of_record? hq).1 hf hcodec hzero hround (n := 65537) (by decide) (by decide) [171]
    (by decide)
  rw [hqname] at hv
  exact ⟨S, v, t, hS, hhooks, hv, ht, hnot⟩

end Layout

end WireSchema
