import WireSchema.Proofs.Layout.Parsed
import WireSchema.Proofs.Wire.Complete
import WireSchema.Proofs.Wire.Depth
import WireSchema.Proofs.Wire.Key
import WireSchema.Proofs.Wire.Takes
import WireSchema.Wire.Object

/-!
# The round trip

Every value of a type is written, and from what is written it is read again, whatever follows, with
its ignored fields reset. The proof is by the derivation that the value is of the type. Along with
it goes that the value takes up no bytes exactly if no value of the type does, for this decides
whether the limits on the number of elements are met on both sides.
-/

namespace WireSchema

namespace Layout

variable (S : Layout) (H : Hooks)

/-- The bytes that a codec writes for a value, if it does. -/
def bytesOf (c : Codec) (v : Value) : List UInt8 :=
  match c.encode (S.objects (S.encode H)) v {} with
  | .ok s => s.bytes.toList
  | .error _ => []

/-- A value is written as its bytes, and taken from them with its ignored fields reset. -/
structure RoundTrips (B : Builtins) (c : Codec) (v : Value) : Prop where
  writes : Write.Appends (c.encode (S.objects (S.encode H)) v) (S.bytesOf H c v)
  reads : (c.decode (S.decodeIn B H)).Takes (S.bytesOf H c v) (S.reset v)
  empty : S.bytesOf H c v = [] ↔ S.ZeroWidth c

variable {S H} in
theorem bytesOf_eq {c : Codec} {v : Value} {bs : List UInt8}
    (h : Write.Appends (c.encode (S.objects (S.encode H)) v) bs) : S.bytesOf H c v = bs := by
  rw [bytesOf, h]
  simp [Sink.append]

variable {S H} in
theorem RoundTrips.of_appends {B : Builtins} {c : Codec} {v : Value} (bs : List UInt8)
    (hwrites : Write.Appends (c.encode (S.objects (S.encode H)) v) bs)
    (hreads : (c.decode (S.decodeIn B H)).Takes bs (S.reset v)) (hempty : bs = [] ↔ S.ZeroWidth c) :
    S.RoundTrips H B c v := by
  obtain rfl := bytesOf_eq hwrites
  exact ⟨hwrites, hreads, hempty⟩

/-! ## Types without declarations -/

variable {S H} {B : Builtins}

theorem not_zeroWidth_of_ne_nil {c : Codec} {bs : List UInt8} (hbs : bs ≠ [])
    (hc : ¬ S.ZeroWidth c) : bs = [] ↔ S.ZeroWidth c :=
  ⟨fun h => absurd h hbs, fun h => absurd h hc⟩

theorem appends_int (O : Objects) {k : IntKind} {n : Int} {bs : List UInt8}
    (h : k.encode? n = some bs) : Write.Appends ((Codec.int k).encode O (.int n)) bs := by
  intro s
  simp only [Codec.encode, writeInt_eq, Value.integer?, Option.bind_some, h]
  rfl

theorem roundTrips_int {k : IntKind} {n : Int} (hmin : k.minValue ≤ n) (hmax : n ≤ k.maxValue) :
    S.RoundTrips H B (.int k) (.int n) := by
  obtain ⟨bs, hbs⟩ := IntKind.exists_encode? hmin hmax
  have hne : bs ≠ [] := by
    have hlen := IntKind.length_of_encode? hbs
    have hpos := k.size_pos
    rintro rfl
    simp at hlen
    omega
  exact .of_appends bs (appends_int _ hbs)
    (Read.takes_lift ((takes_readInt_of_encode? hbs).map Value.int))
    (not_zeroWidth_of_ne_nil hne nofun)

theorem roundTrips_bool (b : Bool) : S.RoundTrips H B .bool (.bool b) := by
  refine .of_appends [if b then 1 else 0] (fun s => rfl) ?_
    (not_zeroWidth_of_ne_nil nofun nofun)
  have htakes := (takes_readBool [if b then 1 else 0] rfl).map Value.bool
  cases b <;> exact Read.takes_lift htakes

theorem appends_string (O : Objects) {t : String} (h : t.utf8ByteSize ≤ maxLength) :
    Write.Appends (Codec.string.encode O (.text t))
      (countBytes t.utf8ByteSize ++ Text.utf8 t.toList) := by
  intro s
  simp only [Codec.encode, writeString, Text.length_utf8_toList, Write.appends_writeCount h s]
  exact congrArg _ (Sink.append_append s _ _)

theorem roundTrips_text {t : String} (h : t.utf8ByteSize ≤ maxLength) :
    S.RoundTrips H B .string (.text t) :=
  .of_appends _ (appends_string _ h) (Read.takes_lift ((takes_readString h).map Value.text))
    (not_zeroWidth_of_ne_nil (countBytes_append_ne_nil h _) nofun)

theorem reset_bools (bs : List Bool) :
    S.reset (.list (bs.map .bool)) = .list (bs.map .bool) := by
  have hbool : S.reset ∘ Value.bool = Value.bool := funext S.reset_bool
  rw [reset, resetItems_eq_map, List.map_map, hbool]

theorem appends_packedBools (O : Objects) {bs : List Bool} (h : bs.length = 8) :
    Write.Appends (Codec.packedBools.encode O (.list (bs.map .bool)))
      [UInt8.ofNat (packBits bs)] := by
  intro s
  have htruthy : (bs.map Value.bool).map Value.truthy = bs := by
    rw [List.map_map]
    exact List.map_id' bs
  simp only [Codec.encode, Value.items?, List.length_map, if_pos h, htruthy]

theorem roundTrips_packedBools {bs : List Bool} (h : bs.length = 8) :
    S.RoundTrips H B .packedBools (.list (bs.map .bool)) := by
  refine .of_appends _ (appends_packedBools _ h) ?_ (not_zeroWidth_of_ne_nil nofun nofun)
  have hreset : S.reset (.list (bs.map .bool)) = packedBoolsOf [UInt8.ofNat (packBits bs)] := by
    rw [packedBoolsOf, List.flatMap_singleton, unpackBits_packBits h, reset_bools]
  rw [hreset]
  exact Read.takes_lift (takes_readPackedBools rfl)

theorem roundTrips_none (c : Codec) : S.RoundTrips H B (.optional c) .none := by
  refine .of_appends [0] (fun s => rfl) ?_ (not_zeroWidth_of_ne_nil nofun nofun)
  rw [reset_none]
  exact Codec.takes_optional_none c _

/-! ## Types made of others -/

theorem RoundTrips.appends_present {c : Codec} {v : Value} (h : S.RoundTrips H B c v)
    (hv : ¬ v.isNone = true) :
    Write.Appends ((Codec.optional c).encode (S.objects (S.encode H)) v) (1 :: S.bytesOf H c v) := by
  intro s
  simp only [Codec.encode, if_neg hv, h.writes _, Sink.append_append]
  rfl

theorem RoundTrips.optional {c : Codec} {v : Value} (h : S.RoundTrips H B c v) :
    S.RoundTrips H B (.optional c) v := by
  by_cases hv : v.isNone = true
  · cases v with
    | none => exact roundTrips_none c
    | _ => cases hv
  · exact .of_appends (1 :: S.bytesOf H c v) (h.appends_present hv)
      (Codec.takes_optional_some h.reads) (not_zeroWidth_of_ne_nil nofun nofun)

theorem flatMap_bytesOf_eq_nil {c : Codec} {vs : List Value}
    (h : ∀ v ∈ vs, S.RoundTrips H B c v) :
    vs.flatMap (S.bytesOf H c) = [] ↔ vs = [] ∨ S.ZeroWidth c := by
  rw [List.flatMap_eq_nil_iff]
  constructor
  · intro hnil
    cases vs with
    | nil => exact .inl rfl
    | cons v vs => exact .inr ((h v (.head _)).empty.1 (hnil v (.head _)))
  · rintro (rfl | hc) v hv
    · cases hv
    · exact (h v hv).empty.2 hc

theorem length_le_length_flatMap {α : Type} {bytes : α → List UInt8} {as : List α}
    (h : ∀ a ∈ as, bytes a ≠ []) : as.length ≤ (as.flatMap bytes).length := by
  induction as with
  | nil => exact Nat.zero_le _
  | cons a as ih =>
    have hpos := List.length_pos_iff.2 (h a (.head _))
    have hrest := ih fun b hb => h b (.tail _ hb)
    rw [List.flatMap_cons, List.length_append, List.length_cons]
    omega

/-- Elements take up bytes each, or are limited in number. -/
theorem length_le_of_roundTrips {c : Codec} {vs : List Value}
    (h : ∀ v ∈ vs, S.RoundTrips H B c v) (hmost : S.ZeroWidth c → vs.length ≤ maxEmptyItems) :
    vs.length ≤ (vs.flatMap (S.bytesOf H c)).length + maxEmptyItems := by
  by_cases hc : S.ZeroWidth c
  · exact Nat.le_trans (hmost hc) (Nat.le_add_left _ _)
  · have hlen := length_le_length_flatMap fun v hv hnil => hc ((h v hv).empty.1 hnil)
    omega

theorem not_zeroWidth_list (c : Codec) : ¬ S.ZeroWidth (.list c) := nofun

theorem appends_list {c : Codec} {vs : List Value} (hlen : vs.length ≤ maxLength)
    (hmost : S.ZeroWidth c → vs.length ≤ maxEmptyItems) (h : ∀ v ∈ vs, S.RoundTrips H B c v) :
    Write.Appends ((Codec.list c).encode (S.objects (S.encode H)) (.list vs))
      (countBytes vs.length ++ vs.flatMap (S.bytesOf H c)) := by
  intro s
  have hcount := length_le_of_roundTrips h hmost
  have hall := Write.appends_all fun v hv => (h v hv).writes
  simp only [Codec.encode, Value.items?, Write.appends_writeCount hlen s]
  change (Write.all _ vs _ >>= _) = _
  rw [hall]
  change (if _ then _ else _) = _
  rw [if_neg (by simp only [Sink.size_append]; omega), Sink.append_append]
  rfl

theorem RoundTrips.list {c : Codec} {vs : List Value} (hlen : vs.length ≤ maxLength)
    (hmost : S.ZeroWidth c → vs.length ≤ maxEmptyItems) (h : ∀ v ∈ vs, S.RoundTrips H B c v) :
    S.RoundTrips H B (.list c) (.list vs) := by
  refine .of_appends _ (appends_list hlen hmost h) ?_ ?_
  · rw [reset, resetItems_eq_map]
    exact Codec.takes_list hlen (Read.Takes.times fun v hv => (h v hv).reads)
      (length_le_of_roundTrips h hmost)
  · exact not_zeroWidth_of_ne_nil (countBytes_append_ne_nil hlen _) (not_zeroWidth_list c)

theorem zeroWidth_array_iff {c : Codec} {n : Nat} :
    S.ZeroWidth (.array c n) ↔ n = 0 ∨ S.ZeroWidth c := by
  constructor
  · intro h
    cases h with
    | empty => exact .inl rfl
    | array _ h => exact .inr h
  · rintro (rfl | h)
    · exact .empty c
    · exact .array n h

theorem appends_array {c : Codec} {vs : List Value} (h : ∀ v ∈ vs, S.RoundTrips H B c v) :
    Write.Appends ((Codec.array c vs.length).encode (S.objects (S.encode H)) (.list vs))
      (vs.flatMap (S.bytesOf H c)) := by
  intro s
  simp only [Codec.encode, Value.items?]
  exact Write.appends_all (fun v hv => (h v hv).writes) s

theorem RoundTrips.array {c : Codec} {vs : List Value} (h : ∀ v ∈ vs, S.RoundTrips H B c v) :
    S.RoundTrips H B (.array c vs.length) (.list vs) := by
  refine .of_appends _ (appends_array h) ?_ ?_
  · rw [reset, resetItems_eq_map]
    exact (Read.Takes.times fun v hv => (h v hv).reads).map Value.list
  · rw [flatMap_bytesOf_eq_nil h, zeroWidth_array_iff, List.length_eq_zero_iff]

/-- What a map's entries are written as, keys and values in turn. -/
def entryBytes (S : Layout) (H : Hooks) (k c : Codec) (e : Value × Value) : List UInt8 :=
  S.bytesOf H k e.1 ++ S.bytesOf H c e.2

theorem takes_entries {most : Nat} {k c : Codec} {es : List (Value × Value)} (hk : k.IsKey)
    (hkeys : (es.map Prod.fst).Nodup) (htyped : ∀ e ∈ es, S.HasType most k e.1)
    (hkey : ∀ e ∈ es, S.RoundTrips H B k e.1) (hvalue : ∀ e ∈ es, S.RoundTrips H B c e.2) :
    (Read.iterate (Codec.readEntry k c (S.decodeIn B H)) es.length []).Takes
      (es.flatMap (S.entryBytes H k c)) (es.map fun e => (S.reset e.1, S.reset e.2)) := by
  refine Read.Takes.iterate (List.map fun e : Value × Value => (S.reset e.1, S.reset e.2)) []
    fun pre e hsplit => ?_
  obtain ⟨post, hes⟩ := hsplit
  rw [List.nil_append] at hes
  subst hes
  have he : e ∈ pre ++ e :: post := List.mem_append.2 (.inr (.head _))
  have hreset := reset_of_isKey hk (htyped e he)
  have hnew : ∀ e' ∈ pre.map fun e => (S.reset e.1, S.reset e.2),
      e'.1.same (S.reset e.1) = false := by
    intro e' he'
    obtain ⟨p, hp, rfl⟩ := List.mem_map.1 he'
    have hp' : p ∈ pre ++ e :: post := List.mem_append.2 (.inl hp)
    dsimp only
    rw [reset_of_isKey hk (htyped p hp'), hreset, ← Bool.not_eq_true]
    intro hsame
    rw [List.map_append, List.nodup_append] at hkeys
    exact hkeys.2.2 _ (List.mem_map_of_mem hp) _ (.head _)
      (eq_of_same hk (htyped p hp') (htyped e he) hsame)
  rw [List.map_append, List.map_singleton, ← Value.insertEntry_of_new hnew]
  refine Codec.takes_readEntry (hkey e he).reads (hvalue e he).reads ?_ _
  rw [hreset]
  exact isKey_of_hasType hk (htyped e he)

theorem appends_map {k c : Codec} {es : List (Value × Value)} (hlen : es.length ≤ maxLength)
    (hkey : ∀ e ∈ es, S.RoundTrips H B k e.1) (hvalue : ∀ e ∈ es, S.RoundTrips H B c e.2) :
    Write.Appends ((Codec.map k c).encode (S.objects (S.encode H)) (.map es))
      (countBytes es.length ++ es.flatMap (S.entryBytes H k c)) := by
  intro s
  have hwrites : Write.Appends (fun s => es.foldlM (fun s e => do
      c.encode (S.objects (S.encode H)) e.2 (← k.encode (S.objects (S.encode H)) e.1 s)) s)
      (es.flatMap (S.entryBytes H k c)) := by
    refine Write.appends_foldlM (fun (e : Value × Value) s => do
      c.encode (S.objects (S.encode H)) e.2 (← k.encode (S.objects (S.encode H)) e.1 s))
      fun e he s => ?_
    dsimp only
    rw [(hkey e he).writes s, entryBytes, ← Sink.append_append]
    exact (hvalue e he).writes _
  simp only [Codec.encode, Write.appends_writeCount hlen s]
  rw [← Sink.append_append]
  exact hwrites _

theorem RoundTrips.map {most : Nat} {k c : Codec} {es : List (Value × Value)} (hk : k.IsKey)
    (hlen : es.length ≤ maxLength) (hkeys : (es.map Prod.fst).Nodup)
    (htyped : ∀ e ∈ es, S.HasType most k e.1) (hkey : ∀ e ∈ es, S.RoundTrips H B k e.1)
    (hvalue : ∀ e ∈ es, S.RoundTrips H B c e.2) : S.RoundTrips H B (.map k c) (.map es) := by
  have hcount : es.length ≤ (es.flatMap (S.entryBytes H k c)).length := by
    refine length_le_length_flatMap fun e he hnil => ?_
    exact not_zeroWidth_of_isKey hk ((hkey e he).empty.1 (List.append_eq_nil_iff.1 hnil).1)
  refine .of_appends _ (appends_map hlen hkey hvalue) ?_ (not_zeroWidth_of_ne_nil ?_ nofun)
  · rw [reset, resetEntries_eq_map]
    exact Codec.takes_map hlen (takes_entries hk hkeys htyped hkey hvalue) hcount
  · exact countBytes_append_ne_nil hlen _

/-! ## Declared types -/

section

variable (hS : S.WellFormed) (hH : S.HookFree)
include hS

theorem zeroWidth_record_iff {r : RecordLayout} (hr : r ∈ S.records) :
    S.ZeroWidth (.declared r.name) ↔ ∀ f ∈ r.wireFields, S.ZeroWidth f.codec := by
  refine ⟨fun h => ?_, .record (hS.record?_eq_some hr)⟩
  generalize hc : Codec.declared r.name = c at h
  cases h with
  | record hr' hfields =>
    rw [← Codec.declared.inj hc, hS.record?_eq_some hr] at hr'
    cases hr'
    exact hfields
  | empty | array => cases hc

theorem not_zeroWidth_union {u : UnionLayout} (hu : u ∈ S.unions) :
    ¬ S.ZeroWidth (.declared u.name) := by
  intro h
  generalize hc : Codec.declared u.name = c at h
  cases h with
  | record hr =>
    rw [← Codec.declared.inj hc, hS.record?_eq_none hu] at hr
    cases hr
  | empty | array => cases hc

/-- The tag of a variant is written in the width of its union. -/
theorem encode?_tag {u : UnionLayout} {v : VariantLayout} (hu : u ∈ S.unions)
    (hv : v ∈ u.variants) : u.width.kind.encode? v.tag = some (u.tagBytes v) := by
  have hunsigned : u.width.kind.signed = false := by
    cases u.width <;> rfl
  have hbound : v.tag ≤ Nat.pow 2 (8 * u.width.kind.size) - 1 := (hS.unions u hu).bounded v hv
  have hpow := pow_two_pos (8 * u.width.kind.size)
  change encodeInt? u.width.kind.size u.width.kind.signed v.tag = _
  refine encodeInt?_eq_some_iff.2 ⟨?_, ?_, ?_⟩
  · simp [minInt, hunsigned]
  · simp only [maxInt, hunsigned, Bool.false_eq_true, if_false]
    omega
  · rw [Int.emod_eq_of_lt (by omega) (by omega), Int.toNat_natCast]
    rfl

/-- A variant is known by its tag. -/
theorem variantOfTag?_tag {u : UnionLayout} {v : VariantLayout} (hu : u ∈ S.unions)
    (hv : v ∈ u.variants) : u.variantOfTag? v.tag = some v := by
  have htags : (u.variants.map fun x => (x.tag : Int)).Nodup := by
    have hmap := (hS.unions u hu).tags.map (f := fun n : Nat => (n : Int)) fun _ _ h =>
      Int.ofNat.inj h
    rwa [List.map_map] at hmap
  exact find?_eq_of_nodup htags hv

theorem tagBytes_ne_nil {u : UnionLayout} {v : VariantLayout} (hu : u ∈ S.unions)
    (hv : v ∈ u.variants) : u.tagBytes v ≠ [] := by
  have hlen := IntKind.length_of_encode? (encode?_tag hS hu hv)
  have hpos := u.width.kind.size_pos
  rw [← List.length_pos_iff]
  omega

include hH

/-- A record is what its fields on the wire are completed to. -/
theorem readAs_record {r : RecordLayout} (hr : r ∈ S.records) {D : String → Read Value}
    (type : String) {g : Field → Value} {s t : Source}
    (h : Segment.decodeAll D r.segments s = .ok (r.wireFields.map fun f => (f.ident, g f), t))
    (hfills : S.fillsIgnored B r.fields = true) :
    S.readAs B H D type (.record r) s =
      .ok (.object (.record r.name)
        (r.fields.map fun l => (l.field.ident, S.completed g l)), t) := by
  have hpost : r.attributes.postDecode = none := (hH.hooks_eq_nil (d := .record r) hr).2.2.2
  simp only [readAs, h, Bind.bind, Except.bind, completeFields_wireFields hS hr g, hfills,
    if_true]
  exact H.postDecoded_of_none hpost _ _ _ _

/-- A union value is its variant, which is known by its tag. -/
theorem readAs_union {u : UnionLayout} {v : VariantLayout} (hu : u ∈ S.unions)
    (hv : v ∈ u.variants) {D : String → Read Value} (type : String)
    {fields : List (String × Value)} {s t t' : Source}
    (htag : Read.lift (readInt u.width.kind) s = .ok ((v.tag : Int), t))
    (h : Segment.decodeAll D v.segments t = .ok (fields, t')) :
    S.readAs B H D type (.union u) s = .ok (.object (.variant u.name v.name) fields, t') := by
  have hpost : u.attributes.postDecode = none := (hH.hooks_eq_nil (d := .union u) hu).2.2.2
  simp only [readAs, htag, Bind.bind, Except.bind, variantOfTag?_tag hS hu hv, h]
  exact H.postDecoded_of_none hpost _ _ _ _

/-- What an object is read from, once its fields on the wire are read from what they are
written as. -/
theorem Body.takes_readAs {owner : Owner} {d : Declaration} {front : List UInt8}
    {names : List String} {wire : List Field} (h : S.Body owner d front names wire)
    {fields : List (String × Value)} (hfields : fields.map Prod.fst = names)
    {D : String → Read Value} {back : List UInt8}
    (hback : (Segment.decodeAll D (Segment.ofFields wire)).Takes back
      (wire.map fun f => (f.ident, S.reset (heldBy fields f.ident))))
    (hfills : S.fillsOf B d = true) (type : String) :
    (S.readAs B H D type d).Takes (front ++ back) (S.reset (.object owner fields)) := by
  intro s rest hs
  rw [List.append_assoc] at hs
  cases h with
  | record hr =>
    rw [readAs_record hS hH hr type (hback s rest hs) hfills, reset, resetFields_record hS hr hfields]
  | variant hu hv =>
    have htag := Read.takes_lift (takes_readInt_of_encode? (encode?_tag hS hu hv)) s _ hs
    rw [readAs_union hS hH hu hv type htag (hback _ rest rfl), reset,
      resetFields_variant hfields (hfields ▸ (Body.variant hu hv).distinct hS)]

theorem Body.appends_encode {most : Nat} {owner : Owner} {d : Declaration} {front : List UInt8}
    {names : List String} {wire : List Field} (h : S.Body owner d front names wire)
    {fields : List (String × Value)} (hfields : fields.map Prod.fst = names)
    (htyped : ∀ f ∈ wire, ∀ e ∈ fields, e.1 = f.ident → S.HasType most f.codec e.2)
    (hround : ∀ f ∈ wire, S.RoundTrips H B f.codec (heldBy fields f.ident)) :
    Write.Appends (S.encode H (.object owner fields))
      (front ++ wire.flatMap fun f => S.bytesOf H f.codec (heldBy fields f.ident)) := by
  intro s
  have hheld := fun f hf => h.field?_eq hS hfields (f := f) hf
  have hsome : ∀ f ∈ wire,
      (Entity.field? S (.value (.object owner fields)) f.ident).isSome := fun f hf =>
    Option.isSome_iff_exists.2 ⟨_, (hheld f hf).2⟩
  have heach : Write.Appends (Field.encodeEach (S.objects (S.encode H))
      (Entity.field? S (.value (.object owner fields))) wire)
      (wire.flatMap fun f => S.bytesOf H f.codec (heldBy fields f.ident)) := by
    refine Field.appends_encodeEach fun f hf s => ?_
    rw [Field.encode, (hheld f hf).2]
    exact (hround f hf).writes s
  rw [← Sink.append_append, ← Field.appends_encodeAll hsome heach (s.append front)]
  exact h.encode_eq hS hH H hfields htyped s

omit hH in
theorem Body.of_callable {owner : Owner} {d : Declaration} {front : List UInt8}
    {names : List String} {wire : List Field} (h : S.Body owner d front names wire)
    {fields : List (String × Value)}
    (hcallable : S.Callable B (.declared d.name) (.object owner fields)) :
    B.calls d.name = true ∧ S.fillsOf B d = true ∧
      ∀ f ∈ wire, ∀ e ∈ fields, e.1 = f.ident → S.Callable B f.codec e.2 := by
  cases h with
  | record hr => exact hcallable.of_record (hS.record?_eq_some hr)
  | variant hu hv =>
    obtain ⟨hcalls, hfields⟩ := hcallable.of_variant (hS.variant?_eq_some hu hv)
    exact ⟨hcalls, rfl, hfields⟩

theorem RoundTrips.object {most : Nat} {owner : Owner} {d : Declaration} {front : List UInt8}
    {names : List String} {wire : List Field} (h : S.Body owner d front names wire)
    {fields : List (String × Value)} (hfields : fields.map Prod.fst = names)
    (htyped : ∀ f ∈ wire, ∀ e ∈ fields, e.1 = f.ident → S.HasType most f.codec e.2)
    (hcalls : B.calls d.name = true) (hfills : S.fillsOf B d = true)
    (ih : ∀ f ∈ wire, ∀ e ∈ fields, e.1 = f.ident → S.RoundTrips H B f.codec e.2) :
    S.RoundTrips H B (.declared d.name) (.object owner fields) := by
  have hround : ∀ f ∈ wire, S.RoundTrips H B f.codec (heldBy fields f.ident) :=
    fun f hf => ih f hf _ (h.field?_eq hS hfields hf).1 rfl
  refine .of_appends _ (h.appends_encode hS hH hfields htyped hround) ?_ ?_
  · intro s rest hs
    have hback := Field.takes_decodeAll (Field.takes_decodeEach fun f hf => (hround f hf).reads)
    simp only [Codec.decode]
    rw [decode_eq_readAs hS hH H h.declares, Builtins.calling, if_pos hcalls]
    exact h.takes_readAs hS hH hfields hback hfills d.name s rest hs
  · have hnil : (wire.flatMap fun f => S.bytesOf H f.codec (heldBy fields f.ident)) = [] ↔
        ∀ f ∈ wire, S.ZeroWidth f.codec := by
      rw [List.flatMap_eq_nil_iff]
      exact forall₂_congr fun f hf => (hround f hf).empty
    cases h with
    | record hr =>
      rw [List.nil_append, hnil]
      exact (zeroWidth_record_iff hS hr).symm
    | variant hu hv =>
      have hne := tagBytes_ne_nil hS hu hv
      exact not_zeroWidth_of_ne_nil (fun happ => hne (List.append_eq_nil_iff.1 happ).1)
        (not_zeroWidth_union hS hu)

/-- Every value of a type round-trips, if nothing in it keeps it from being read. -/
theorem roundTrips_of_callable {c : Codec} {v : Value} (h : S.HasType maxEmptyItems c v) :
    S.Admits c → S.Callable B c v → S.RoundTrips H B c v := by
  induction h with
  | int hmin hmax => exact fun _ _ => roundTrips_int hmin hmax
  | bool b => exact fun _ _ => roundTrips_bool b
  | text hlen => exact fun _ _ => roundTrips_text hlen
  | packedBools hlen => exact fun _ _ => roundTrips_packedBools hlen
  | absent c => exact fun _ _ => roundTrips_none c
  | present _ ih =>
    intro hc hcallable
    cases hc with | optional hc =>
    cases hcallable with
    | absent c => exact roundTrips_none _
    | present hcallable => exact (ih hc hcallable).optional
  | list hlen hmost _ ih =>
    intro hc hcallable
    cases hc with | list hc =>
    cases hcallable with | list hcallable =>
    exact .list hlen hmost fun v hv => ih v hv hc (hcallable v hv)
  | array _ ih =>
    intro hc hcallable
    cases hc with | array _ hc =>
    cases hcallable with | array _ hcallable =>
    exact .array fun v hv => ih v hv hc (hcallable v hv)
  | map hlen hkeys htyped _ ihk ihc =>
    intro hc hcallable
    cases hc with | map hk hc =>
    cases hcallable with | map hcallablek hcallablec =>
    exact .map hk hlen hkeys htyped (fun e he => ihk e he (.of_isKey hk) (hcallablek e he))
      fun e he => ihc e he hc (hcallablec e he)
  | record hr hfields htyped ih =>
    intro _ hcallable
    obtain ⟨hr, -⟩ := mem_of_record? hr
    have hbody := Body.record hr
    obtain ⟨hcalls, hfills, hcallable⟩ := hbody.of_callable hS hcallable
    exact .object hS hH hbody hfields htyped hcalls hfills fun f hf e he hname =>
      ih f hf e he hname ((hbody.wellFormed hS).admits f hf) (hcallable f hf e he hname)
  | variant hv hfields htyped ih =>
    intro _ hcallable
    obtain ⟨hu, -, hv, -⟩ := mem_of_variant? hv
    have hbody := Body.variant hu hv
    obtain ⟨hcalls, hfills, hcallable⟩ := hbody.of_callable hS hcallable
    exact .object hS hH hbody hfields htyped hcalls hfills fun f hf e he hname =>
      ih f hf e he hname ((hbody.wellFormed hS).admits f hf) (hcallable f hf e he hname)

/-- So does every value of a type, if all names of the language are left. -/
theorem roundTrips_of_hasType {c : Codec} {v : Value} (h : S.HasType maxEmptyItems c v)
    (hc : S.Admits c) : S.RoundTrips H .all c v :=
  roundTrips_of_callable hS hH h hc (callable_all h)

theorem roundTrips_of_keepsBuiltins (hB : S.KeepsBuiltins) {c : Codec} {v : Value}
    (h : S.HasType maxEmptyItems c v) (hc : S.Admits c) : S.RoundTrips H S.builtins c v := by
  rw [hB.builtins_eq]
  exact roundTrips_of_hasType hS hH h hc

end

theorem HasType.mem_names {most : Nat} {name : String} {v : Value}
    (h : S.HasType most (.declared name) v) : name ∈ S.names := by
  cases h with
  | record hr => exact mem_names_of_record (mem_of_record? hr).1
  | variant hv => exact mem_names_of_union (mem_of_variant? hv).1

theorem RoundTrips.exists_encoded {name : String} {v : Value}
    (h : S.RoundTrips H B (.declared name) v) (tail : List UInt8) :
    ∃ s t, S.encoded H v = .ok s ∧ s.log = [] ∧
      S.decodeIn B H name (.ofOrigin { bytes := s.bytes.toList ++ tail }) = .ok (S.reset v, t) ∧
      t.bytes = tail ∧ t.log = [] := by
  let bytes := S.bytesOf H (.declared name) v
  let s : Source := .ofOrigin { bytes := bytes ++ tail }
  have hbytes : (Sink.append {} bytes).bytes.toList = bytes := by
    simp [Sink.append]
  refine ⟨_, { s with bytes := tail }, h.writes {}, rfl, ?_, rfl, rfl⟩
  rw [hbytes]
  exact h.reads s tail rfl

/-- What is written is read again from in front of anything, and that is left, if no type takes a name
of the language. -/
theorem decodeFrom_encoded [Text.CharacterNames] {text : String} (hS : ofText text = .ok S)
    (hH : S.HookFree) (hB : S.KeepsBuiltins) (H : Hooks) {name : String} {v : Value}
    (h : S.HasType maxEmptyItems (.declared name) v) (tail : List UInt8) :
    ∃ s t, S.encoded H v = .ok s ∧ s.log = [] ∧
      S.decodeFrom H name (s.bytes.toList ++ tail) = .ok (S.reset v, t) ∧ t.bytes = tail ∧
      t.log = [] :=
  (roundTrips_of_keepsBuiltins (wellFormed_of_ofText hS) hH hB h
    (.declared h.mem_names)).exists_encoded tail

/-- A variant that holds a record, whose only field is ignored and of the wrong type, and a list of
its own kind. -/
theorem decodeFrom_encoded_of_recursive_variant :
    let text := "struct Q \x7b @codec(ignore) n: u16 \x7d " ++
      "@codec(inferred_values) union U \x7b A B \x7b x: u8 q: Q rest: list<U> \x7d \x7d"
    let fields := [("x", .int 7), ("q", .object (.record "Q") [("n", .text "note")]),
      ("rest", .list [.object (.variant "U" "A") []])]
    let v := Value.object (.variant "U" "B") fields
    ∃ S, ofText text = .ok S ∧ S.HookFree ∧ S.KeepsBuiltins ∧
      S.HasType maxEmptyItems (.declared "U") v ∧ ∃ s t, S.encoded Hooks.empty v = .ok s ∧
        S.decodeFrom Hooks.empty "U" (s.bytes.toList ++ [1, 2]) = .ok (S.reset v, t) ∧
        t.bytes = [1, 2] := by
  intro text fields v
  obtain ⟨S, hS, h⟩ := exists_of_any_ofText text
    (fun S => S.HookFree && S.KeepsBuiltins &&
      (S.record? "Q").any (fun r => r.name = "Q" ∧
        r.fields.map (fun f => f.field.ident) = ["n"] ∧ r.wireFields.length = 0) &&
      (S.variant? "U" "A").any (fun uv => uv.1.name = "U" ∧ uv.2.name = "A" ∧
        uv.2.variant.fields.length = 0) &&
      (S.variant? "U" "B").any (fun uv => uv.1.name = "U" ∧ uv.2.name = "B" ∧
        uv.2.variant.fields.map (fun f => (f.ident, f.codec)) =
          [("x", .int .u8), ("q", .declared "Q"), ("rest", .list (.declared "U"))]))
    (by decide +kernel)
  simp only [Bool.and_eq_true, Option.any_eq_true, decide_eq_true_eq] at h
  obtain ⟨⟨⟨⟨hhooks, hbuiltins⟩, r, hr, hrname, hrfields, hwire⟩, ⟨u, a⟩, ha, huname, haname, hafields⟩,
    ⟨u', b⟩, hb, hu'name, hbname, hbfields⟩ := h
  have hq : S.HasType maxEmptyItems (.declared "Q")
      (.object (.record "Q") [("n", .text "note")]) := by
    rw [← hrname]
    refine .record (hrname.symm ▸ hr) hrfields.symm fun f hf => ?_
    rw [List.eq_nil_of_length_eq_zero hwire] at hf
    cases hf
  have hempty : S.HasType maxEmptyItems (.declared "U") (.object (.variant "U" "A") []) := by
    have hnil := List.eq_nil_of_length_eq_zero hafields
    rw [← huname, ← haname] at ha ⊢
    exact .variant ha (by rw [hnil]; rfl) fun f hf => absurd (hnil ▸ hf) List.not_mem_nil
  have hv : S.HasType maxEmptyItems (.declared "U") v := by
    have hidents := congrArg (List.map Prod.fst) hbfields
    rw [List.map_map] at hidents
    rw [← hu'name, ← hbname] at hb
    have hfields : ∀ f ∈ b.variant.fields, ∀ e ∈ fields, e.1 = f.ident →
        S.HasType maxEmptyItems f.codec e.2 := by
      intro f hf e he hname
      have hf := hbfields ▸ List.mem_map_of_mem (f := fun f : Field => (f.ident, f.codec)) hf
      simp only [fields, List.mem_cons, List.not_mem_nil, or_false, Prod.mk.injEq] at hf he
      rcases hf with ⟨hident, hcodec⟩ | ⟨hident, hcodec⟩ | ⟨hident, hcodec⟩ <;>
        rcases he with rfl | rfl | rfl <;> rw [hident] at hname <;> rw [hcodec] <;>
        try exact absurd hname (by decide)
      · exact .int (by decide) (by decide)
      · exact hq
      · exact .list (by decide) (fun _ => by decide) fun v hv => List.mem_singleton.1 hv ▸ hempty
    have hobject : S.HasType maxEmptyItems (.declared u'.name)
      (.object (.variant u'.name b.name) fields) := .variant hb hidents.symm hfields
    rwa [hu'name, hbname] at hobject
  obtain ⟨s, t, hs, -, ht, hrest, -⟩ := decodeFrom_encoded hS hhooks hbuiltins Hooks.empty hv [1, 2]
  exact ⟨S, hS, hhooks, hbuiltins, hv, s, t, hs, ht, hrest⟩

/-- Nothing is read as a type whose class methods cannot be called. -/
theorem decodeFrom_of_not_calls {d : Declaration} {name : String} (hd : S.declaration? name = some d)
    (h : S.builtins.calls d.name = false) (H : Hooks) (bytes : List UInt8) :
    S.decodeFrom H name bytes = .error ⟨.wrongKind, []⟩ := by
  rw [decodeFrom, decode, decodeIn, hd]
  simp only [Builtins.calling, h]
  rfl

/-- What is written of a type behind one that is called `classmethod` cannot be read. -/
theorem not_decoded_behind_classmethod :
    let v := Value.object (.record "B") [("y", .int 1)]
    ∃ S, ofText "struct classmethod \x7b x: u8 \x7d struct B \x7b y: u8 \x7d" = .ok S ∧ S.HookFree ∧
      S.HasType maxEmptyItems (.declared "B") v ∧ ∃ s, S.encoded Hooks.empty v = .ok s ∧
        ∀ tail, S.decodeFrom Hooks.empty "B" (s.bytes.toList ++ tail) = .error ⟨.wrongKind, []⟩ := by
  intro v
  obtain ⟨S, hS, h⟩ := exists_of_any_ofText
    "struct classmethod \x7b x: u8 \x7d struct B \x7b y: u8 \x7d"
    (fun S => S.HookFree && (S.record? "B").any (fun r => r.name = "B" ∧
        r.fields.map (·.field.ident) = ["y"] ∧ ∀ f ∈ r.wireFields, f.codec = .int .u8) &&
      !S.builtins.calls "B" && (S.encoded Hooks.empty v).toOption.isSome)
    (by decide +kernel)
  simp only [Bool.and_eq_true, Bool.not_eq_true', Option.any_eq_true, decide_eq_true_eq,
    Option.isSome_iff_exists] at h
  obtain ⟨⟨⟨hhooks, r, hr, hname, hidents, hcodec⟩, hcalls⟩, s, hs⟩ := h
  have hv : S.HasType maxEmptyItems (.declared "B") v :=
    .record_of_single hr hidents hcodec (.int (by decide) (by decide))
  have hd := (wellFormed_of_ofText hS).declaration?_record (mem_of_record? hr).1
  rw [hname] at hd
  refine ⟨S, hS, hhooks, hv, s, toOption_eq_some_iff.1 hs, fun tail => ?_⟩
  exact decodeFrom_of_not_calls hd (by rwa [Declaration.name, hname]) _ _

end Layout

end WireSchema
