import WireSchema.Proofs.Wire.Soundness

/-!
# What bytes stand for

The format of the wire, said apart from how it is written or read. Several rows of bytes can stand
for the same value: any byte but zero says that something is there, and the value of a key that
comes again replaces the one before. `StandsFor` has one rule for each kind of type, and a union
value stands behind the bytes of its tag, at whatever depth.

The main result is that decoding is sound: what is read is a value of its type with its ignored
fields at their defaults, and the bytes taken from the front of the input stand for it. Else the
input is at fault, or references go on without end, however deep they are followed.
-/

namespace WireSchema

namespace Layout

variable (S : Layout)

/-- Bytes that stand for a value of a type. Ignored fields are not among them. -/
inductive StandsFor : Codec → List UInt8 → Value → Prop
  | int {k : IntKind} {bs : List UInt8} :
    bs.length = k.size → StandsFor (.int k) bs (.int (k.decode bs))
  | bool (b : UInt8) : StandsFor .bool [b] (.bool (b ≠ 0))
  | text {t : String} :
    t.utf8ByteSize ≤ maxLength →
      StandsFor .string (countBytes t.utf8ByteSize ++ Text.utf8 t.toList) (.text t)
  | packedBools (b : UInt8) : StandsFor .packedBools [b] (packedBoolsOf [b])
  | absent (c : Codec) : StandsFor (.optional c) [0] .none
  | present {c : Codec} {b : UInt8} {bs : List UInt8} {v : Value} :
    b ≠ 0 → StandsFor c bs v → StandsFor (.optional c) (b :: bs) v
  | list {c : Codec} {items : List (List UInt8 × Value)} :
    items.length ≤ maxLength → (∀ i ∈ items, StandsFor c i.1 i.2) →
      StandsFor (.list c) (countBytes items.length ++ items.flatMap Prod.fst)
        (.list (items.map Prod.snd))
  | array {c : Codec} {items : List (List UInt8 × Value)} :
    (∀ i ∈ items, StandsFor c i.1 i.2) →
      StandsFor (.array c items.length) (items.flatMap Prod.fst) (.list (items.map Prod.snd))
  | map {k c : Codec} {entries : List ((List UInt8 × Value) × (List UInt8 × Value))} :
    entries.length ≤ maxLength → (∀ e ∈ entries, StandsFor k e.1.1 e.1.2) →
      (∀ e ∈ entries, StandsFor c e.2.1 e.2.2) →
      StandsFor (.map k c) (countBytes entries.length ++ entries.flatMap fun e => e.1.1 ++ e.2.1)
        (.map (entries.foldl (fun es e => Value.insertEntry e.1.2 e.2.2 es) []))
  | record {r : RecordLayout} {bytes : Field → List UInt8} {g : Field → Value} :
    S.record? r.name = some r → (∀ f ∈ r.wireFields, StandsFor f.codec (bytes f) (g f)) →
      StandsFor (.declared r.name) (r.wireFields.flatMap bytes)
        (.object (.record r.name) (r.fields.map fun l => (l.field.ident, S.completed g l)))
  | variant {u : UnionLayout} {v : VariantLayout} {bytes : Field → List UInt8}
      {g : Field → Value} :
    S.variant? u.name v.name = some (u, v) →
      (∀ f ∈ v.variant.fields, StandsFor f.codec (bytes f) (g f)) →
      StandsFor (.declared u.name) (u.tagBytes v ++ v.variant.fields.flatMap bytes)
        (.object (.variant u.name v.name) (v.variant.fields.map fun f => (f.ident, g f)))

end Layout

/-! ## Readers -/

namespace Read

variable {α β ι : Type} {P : List UInt8 → α → Prop}

/-- What is found is in a relation to the bytes that are taken for it. -/
def Interprets (P : List UInt8 → α → Prop) (read : Read α) : Prop :=
  ∀ s a t, read s = .ok (a, t) → ∃ front, s.bytes = front ++ t.bytes ∧ P front a

theorem interprets_lift {read : BytesReader α}
    (h : ∀ bs a rest, read bs = .ok (a, rest) → ∃ front, bs = front ++ rest ∧ P front a) :
    Interprets P (lift read) := by
  intro s a t hs
  rw [lift] at hs
  cases hr : read s.bytes with
  | error f =>
    rw [hr] at hs
    cases hs
  | ok r =>
    rw [hr] at hs
    cases hs
    exact h _ _ _ hr

/-- What is found item by item, with the bytes of each. -/
def Each (P : List UInt8 → α → Prop) (bs : List UInt8) (as : List α) : Prop :=
  ∃ items : List (List UInt8 × α), bs = items.flatMap Prod.fst ∧ as = items.map Prod.snd ∧
    ∀ i ∈ items, P i.1 i.2

theorem Interprets.timesOnto {read : Read α} (h : Interprets P read) (n : Nat) (as : List α) :
    Interprets (fun bs bs' => ∃ more, bs' = as.reverse ++ more ∧ more.length = n ∧ Each P bs more)
      (timesOnto read n as) := by
  induction n generalizing as with
  | zero =>
    intro s bs t hs
    cases hs
    exact ⟨[], rfl, [], (List.append_nil _).symm, rfl, [], rfl, rfl, nofun⟩
  | succ n ih =>
    intro s bs t hs
    rw [Read.timesOnto] at hs
    cases hread : read s with
    | error e =>
      rw [hread] at hs
      cases hs
    | ok r =>
      obtain ⟨front, hfront, hr⟩ := h s r.1 r.2 hread
      rw [hread] at hs
      obtain ⟨back, hback, more, rfl, rfl, items, rfl, rfl, hitems⟩ := ih (r.1 :: as) r.2 bs t hs
      refine ⟨front ++ items.flatMap Prod.fst, ?_, r.1 :: items.map Prod.snd, ?_, rfl,
        (front, r.1) :: items, rfl, rfl, List.forall_mem_cons.2 ⟨hr, hitems⟩⟩
      · rw [hfront, hback, List.append_assoc]
      · rw [List.reverse_cons, List.append_assoc]
        rfl

theorem Interprets.times {read : Read α} (h : Interprets P read) (n : Nat) :
    Interprets (fun bs as => as.length = n ∧ Each P bs as) (times read n) := by
  intro s as t hs
  obtain ⟨front, hfront, more, rfl, hmore⟩ := h.timesOnto n [] s as t hs
  exact ⟨front, hfront, hmore⟩

/-- What is put in by one step after another. -/
theorem Interprets.iterate {step : α → Read α} {put : α → ι → α} {bytes : ι → List UInt8}
    {Q : ι → Prop}
    (h : ∀ a, Interprets (fun bs b => ∃ i, bs = bytes i ∧ b = put a i ∧ Q i) (step a)) (n : Nat)
    (a : α) :
    Interprets (fun bs b => ∃ items : List ι, items.length = n ∧ bs = items.flatMap bytes ∧
      b = items.foldl put a ∧ ∀ i ∈ items, Q i) (iterate step n a) := by
  induction n generalizing a with
  | zero =>
    intro s b t hs
    cases hs
    exact ⟨[], rfl, [], rfl, rfl, rfl, nofun⟩
  | succ n ih =>
    intro s b t hs
    rw [Read.iterate] at hs
    cases hstep : step a s with
    | error e =>
      rw [hstep] at hs
      cases hs
    | ok r =>
      obtain ⟨front, hfront, i, rfl, hput, hi⟩ := h a s r.1 r.2 hstep
      rw [hstep] at hs
      obtain ⟨back, hback, items, rfl, rfl, rfl, hitems⟩ := ih r.1 r.2 b t hs
      refine ⟨bytes i ++ items.flatMap bytes, ?_, i :: items, rfl, rfl, ?_,
        List.forall_mem_cons.2 ⟨hi, hitems⟩⟩
      · rw [hfront, hback, List.append_assoc]
      · rw [List.foldl_cons, hput]

/-- A truth value is a byte. -/
theorem interprets_bool :
    Interprets (fun bs b => ∃ byte : UInt8, bs = [byte] ∧ b = decide (byte ≠ 0))
      (lift readBool) := by
  refine interprets_lift fun bs b rest h => ?_
  obtain ⟨byte, hbs, hb⟩ := exists_of_readBool h
  exact ⟨[byte], hbs, byte, rfl, hb⟩

theorem interprets_readInt (k : IntKind) :
    Interprets (fun bs n => bs.length = k.size ∧ n = k.decode bs) (lift (readInt k)) := by
  refine interprets_lift fun bs n rest h => ?_
  obtain ⟨front, hlen, hn, hbs⟩ := exists_of_readInt h
  exact ⟨front, hbs, hlen, hn⟩

theorem interprets_count :
    Interprets (fun bs n => bs = countBytes n ∧ n ≤ maxLength) (lift readCount) :=
  interprets_lift fun _ n _ h =>
    ⟨countBytes n, eq_append_of_readCount h, rfl, le_maxLength_of_readCount h⟩

end Read

open Read

namespace Layout

variable {S : Layout}

/-! ## Codecs -/

section

variable {D : String → Read Value}
  (hD : ∀ name ∈ S.names, Interprets (S.StandsFor (.declared name)) (D name))

theorem StandsFor.of_each_list {c : Codec} {bs : List UInt8} {vs : List Value}
    (hlen : vs.length ≤ maxLength) (h : Each (S.StandsFor c) bs vs) :
    S.StandsFor (.list c) (countBytes vs.length ++ bs) (.list vs) := by
  obtain ⟨items, rfl, rfl, hitems⟩ := h
  rw [List.length_map] at hlen ⊢
  exact .list hlen hitems

theorem StandsFor.of_each_array {c : Codec} {bs : List UInt8} {vs : List Value}
    (h : Each (S.StandsFor c) bs vs) : S.StandsFor (.array c vs.length) bs (.list vs) := by
  obtain ⟨items, rfl, rfl, hitems⟩ := h
  rw [List.length_map]
  exact .array hitems

theorem interprets_optional {c : Codec} (hc : Interprets (S.StandsFor c) (c.decode D)) :
    Interprets (S.StandsFor (.optional c)) ((Codec.optional c).decode D) := by
  intro s v t h
  obtain ⟨⟨b, s'⟩, hb, h⟩ := exists_of_bind_eq_ok h
  obtain ⟨_, hs, byte, rfl, rfl⟩ := interprets_bool _ _ _ hb
  dsimp only at h
  split at h
  next hbyte =>
    obtain ⟨front, hfront, hv⟩ := hc s' v t h
    refine ⟨byte :: front, ?_, .present (of_decide_eq_true hbyte) hv⟩
    rw [hs, hfront]
    rfl
  next hbyte =>
    cases h
    obtain rfl : byte = 0 := by simpa using hbyte
    exact ⟨[0], hs, .absent c⟩

theorem interprets_list {c : Codec} (hc : Interprets (S.StandsFor c) (c.decode D)) :
    Interprets (S.StandsFor (.list c)) ((Codec.list c).decode D) := by
  intro s v t h
  obtain ⟨⟨n, s'⟩, hn, h⟩ := exists_of_bind_eq_ok h
  obtain ⟨_, hs, rfl, hmax⟩ := interprets_count _ _ _ hn
  dsimp only at h
  split at h
  · cases h
  · obtain ⟨⟨vs, _⟩, hvs, h⟩ := exists_of_bind_eq_ok h
    cases h
    obtain ⟨back, hback, rfl, hitems⟩ := hc.times n _ _ _ hvs
    refine ⟨countBytes vs.length ++ back, ?_, .of_each_list hmax hitems⟩
    rw [hs, hback, List.append_assoc]

/-- One more entry of a map is put in by its key and value. -/
theorem interprets_readEntry {k c : Codec} (hk : Interprets (S.StandsFor k) (k.decode D))
    (hc : Interprets (S.StandsFor c) (c.decode D)) (es : List (Value × Value)) :
    Interprets (fun bs es' => ∃ e : (List UInt8 × Value) × (List UInt8 × Value),
      bs = e.1.1 ++ e.2.1 ∧ es' = Value.insertEntry e.1.2 e.2.2 es ∧
        S.StandsFor k e.1.1 e.1.2 ∧ S.StandsFor c e.2.1 e.2.2) (Codec.readEntry k c D es) := by
  intro s es' t h
  obtain ⟨⟨key, s₁⟩, hkey, h⟩ := exists_of_bind_eq_ok h
  obtain ⟨⟨v, s₂⟩, hv, h⟩ := exists_of_bind_eq_ok h
  dsimp only at h
  split at h
  · cases h
    obtain ⟨front, hfront, hkey⟩ := hk _ _ _ hkey
    obtain ⟨back, hback, hv⟩ := hc _ _ _ hv
    refine ⟨front ++ back, ?_, ⟨(front, key), (back, v)⟩, rfl, rfl, hkey, hv⟩
    rw [hfront, hback, List.append_assoc]
  · cases h

theorem interprets_map {k c : Codec} (hk : Interprets (S.StandsFor k) (k.decode D))
    (hc : Interprets (S.StandsFor c) (c.decode D)) :
    Interprets (S.StandsFor (.map k c)) ((Codec.map k c).decode D) := by
  intro s v t h
  obtain ⟨⟨n, s'⟩, hn, h⟩ := exists_of_bind_eq_ok h
  obtain ⟨_, hs, rfl, hmax⟩ := interprets_count _ _ _ hn
  dsimp only at h
  split at h
  · cases h
  · obtain ⟨⟨es, _⟩, hes, h⟩ := exists_of_bind_eq_ok h
    cases h
    obtain ⟨back, hback, entries, rfl, rfl, rfl, hentries⟩ :=
      Interprets.iterate (interprets_readEntry hk hc) n [] _ _ _ hes
    refine ⟨countBytes entries.length ++ entries.flatMap fun e => e.1.1 ++ e.2.1, ?_,
      .map hmax (fun e he => (hentries e he).1) fun e he => (hentries e he).2⟩
    rw [hs, hback, List.append_assoc]

/-- Fields one behind another, each in its bytes. -/
def FieldsStandFor (S : Layout) (fields : List Field) (bs : List UInt8)
    (read : List (String × Value)) : Prop :=
  ∃ (bytes : Field → List UInt8) (g : Field → Value), bs = fields.flatMap bytes ∧
    read = fields.map (fun f => (f.ident, g f)) ∧
      ∀ f ∈ fields, S.StandsFor f.codec (bytes f) (g f)

include hD

theorem decode_interprets {c : Codec} (hc : S.Admits c) :
    Interprets (S.StandsFor c) (c.decode D) := by
  induction c with
  | int k =>
    refine interprets_lift fun bs v rest h => ?_
    obtain ⟨⟨n, _⟩, hn, h⟩ := exists_of_bind_eq_ok h
    cases h
    obtain ⟨front, hlen, rfl, hbs⟩ := exists_of_readInt hn
    exact ⟨front, hbs, .int hlen⟩
  | bool =>
    refine interprets_lift fun bs v rest h => ?_
    obtain ⟨⟨b, _⟩, hb, h⟩ := exists_of_bind_eq_ok h
    cases h
    obtain ⟨byte, hbs, rfl⟩ := exists_of_readBool hb
    exact ⟨[byte], hbs, .bool byte⟩
  | string =>
    refine interprets_lift fun bs v rest h => ?_
    obtain ⟨⟨t, _⟩, ht, h⟩ := exists_of_bind_eq_ok h
    cases h
    obtain ⟨hlen, count, htakes, hbs⟩ := exists_of_readString ht
    obtain rfl := List.append_cancel_right (eq_append_of_readCount (htakes []))
    exact ⟨_, hbs, .text hlen⟩
  | packedBools =>
    refine interprets_lift fun bs v rest h => ?_
    obtain ⟨front, hfront, rfl, hbs⟩ := exists_of_readPackedBools h
    obtain ⟨byte, rfl⟩ := List.length_eq_one_iff.1 hfront
    exact ⟨[byte], hbs, .packedBools byte⟩
  | optional c ih =>
    cases hc with | optional hc =>
    exact interprets_optional (ih hc)
  | list c ih =>
    cases hc with | list hc =>
    exact interprets_list (ih hc)
  | array c n ih =>
    cases hc with | array _ hc =>
    intro s v t h
    obtain ⟨⟨vs, _⟩, hvs, h⟩ := exists_of_bind_eq_ok h
    cases h
    obtain ⟨front, hfront, rfl, hitems⟩ := (ih hc).times n _ _ _ hvs
    exact ⟨front, hfront, .of_each_array hitems⟩
  | map k c ihk ihc =>
    cases hc with | map hk hc =>
    exact interprets_map (ihk (.of_isKey hk)) (ihc hc)
  | declared name =>
    cases hc with | declared hname =>
    exact hD name hname

theorem decodeEach_interprets {fields : List Field} (h : S.FieldsWellFormed fields) :
    Interprets (S.FieldsStandFor fields) (Field.decodeEach D fields) := by
  induction fields with
  | nil =>
    intro s read t hs
    cases hs
    exact ⟨[], rfl, fun _ => [], fun _ => .none, rfl, rfl, nofun⟩
  | cons f fs ih =>
    intro s read t hs
    have hdistinct := h.distinct
    rw [List.map_cons, List.nodup_cons] at hdistinct
    have hfs : S.FieldsWellFormed fs := ⟨hdistinct.2, fun f hf => h.free f (.tail _ hf),
      fun f hf => h.admits f (.tail _ hf)⟩
    obtain ⟨⟨v, s₁⟩, hv, hs⟩ := exists_of_bind_eq_ok hs
    obtain ⟨⟨others, _⟩, hothers, hs⟩ := exists_of_bind_eq_ok hs
    cases hs
    obtain ⟨front, hfront, hv⟩ := decode_interprets hD (h.admits f (.head _)) _ _ _ hv
    obtain ⟨back, hback, bytes, g, rfl, rfl, hall⟩ := ih hfs _ _ _ hothers
    have hne : ∀ f' ∈ fs, f'.ident ≠ f.ident := fun f' hf' heq =>
      hdistinct.1 (heq ▸ List.mem_map_of_mem hf')
    refine ⟨front ++ fs.flatMap bytes, ?_, fun f' => if f'.ident = f.ident then front else bytes f',
      fun f' => if f'.ident = f.ident then v else g f', ?_, ?_, ?_⟩
    · rw [hfront, hback, List.append_assoc]
    · simp only [List.flatMap_cons, if_true, List.append_cancel_left_eq]
      refine List.flatMap_congr fun f' hf' => ?_
      rw [if_neg (hne f' hf')]
    · simp only [List.map_cons, if_true, List.cons.injEq, true_and]
      refine List.map_congr_left fun f' hf' => ?_
      rw [if_neg (hne f' hf')]
    · intro f' hf'
      rcases List.mem_cons.1 hf' with rfl | hf'
      · simpa using hv
      · simpa [hne f' hf'] using hall f' hf'

theorem decodeAll_interprets {fields : List Field} (h : S.FieldsWellFormed fields) :
    Interprets (S.FieldsStandFor fields) (Segment.decodeAll D (Segment.ofFields fields)) :=
  fun s read t hs => decodeEach_interprets hD h s read t (Field.decodeAll_eq_ok_iff.1 hs)

end

/-! ## Declared types -/

section

variable (hS : S.WellFormed) (hH : S.HookFree) {B : Builtins} (H : Hooks)
include hS hH

theorem readAs_interprets {D : String → Read Value}
    (hD : ∀ name ∈ S.names, Interprets (S.StandsFor (.declared name)) (D name)) {d : Declaration}
    (hd : S.Declares d) (type : String) :
    Interprets (S.StandsFor (.declared d.name)) (S.readAs B H D type d) := by
  intro s w t h
  cases d with
  | record r =>
    have hpost : r.attributes.postDecode = none := (hH.hooks_eq_nil (d := .record r) hd).2.2.2
    obtain ⟨⟨read, s'⟩, hread, h⟩ := exists_of_bind_eq_ok h
    obtain ⟨front, hfront, bytes, g, rfl, rfl, hall⟩ :=
      decodeAll_interprets hD (hS.records r hd).wireFields _ _ _ hread
    dsimp only at h
    rw [completeFields_wireFields hS hd g] at h
    cases hfills : S.fillsIgnored B r.fields with
    | false => simp [hfills] at h
    | true =>
    simp only [hfills, if_true, H.postDecoded_of_none hpost] at h
    cases h
    exact ⟨_, hfront, .record (hS.record?_eq_some hd) hall⟩
  | union u =>
    have hpost : u.attributes.postDecode = none := (hH.hooks_eq_nil (d := .union u) hd).2.2.2
    obtain ⟨⟨tag, s₁⟩, htag, h⟩ := exists_of_bind_eq_ok h
    obtain ⟨front, hfront, hlen, rfl⟩ := interprets_readInt _ _ _ _ htag
    dsimp only at h
    cases hv : u.variantOfTag? (u.width.kind.decode front) with
    | none =>
      rw [hv] at h
      cases h
    | some v =>
      rw [hv] at h
      obtain ⟨⟨read, s₂⟩, hread, h⟩ := exists_of_bind_eq_ok h
      have hmem : v ∈ u.variants := List.mem_of_find?_eq_some hv
      obtain ⟨back, hback, bytes, g, rfl, rfl, hall⟩ :=
        decodeAll_interprets hD ((hS.unions u hd).fields v hmem) _ _ _ hread
      dsimp only at h
      rw [H.postDecoded_of_none hpost] at h
      cases h
      -- the tag that was read is the one of the variant, written in the same width
      have htagged : (v.tag : Int) = u.width.kind.decode front := by
        simpa using List.find?_some hv
      have hencode := encode?_tag hS hd hmem
      rw [htagged, IntKind.encode?_decode hlen] at hencode
      cases hencode
      refine ⟨_, ?_, .variant (hS.variant?_eq_some hd hmem) hall⟩
      rw [hfront, hback, List.append_assoc]

theorem decodeAt_interprets (n : Nat) :
    ∀ name ∈ S.names, Interprets (S.StandsFor (.declared name)) (S.decodeAt B H n name) := by
  induction n with
  | zero => exact fun _ _ _ _ _ h => nomatch h
  | succ n ih =>
    intro name hname s
    obtain ⟨d, hd, rfl, -⟩ := hS.exists_declaration hname
    rw [decodeAt_succ hS hH H hd, Builtins.calling]
    split
    · exact readAs_interprets hS hH H ih hd d.name s
    · intro _ _ h
      cases h

theorem decode_declared_interprets :
    ∀ name ∈ S.names, Interprets (S.StandsFor (.declared name)) (S.decodeIn B H name) := by
  intro name hname s
  rw [decode_eq_decodeAt hS hH H hname (Nat.le_refl _)]
  exact decodeAt_interprets hS hH H _ name hname s

/-- Decoding that goes on without end does so at every depth. -/
theorem decodeAt_endless {name : String} (hname : name ∈ S.names) {s : Source} {h : Halt}
    (hdecode : S.decodeIn B H name s = .error h) (hend : h.fault = .endless) (n : Nat) :
    ∃ h, S.decodeAt B H n name s = .error h ∧ h.fault = .endless := by
  rcases decodeAt_eq_or_endless hS hH H hname (Source.within_refl s) n with heq | hend'
  · have hbound := Nat.le_max_left (S.depthBound s.bytes) n
    rw [decode_eq_decodeAt hS hH H hname hbound, heq _ (Nat.le_max_right _ n)] at hdecode
    exact ⟨h, hdecode, hend⟩
  · exact ⟨_, hend', rfl⟩

end

/-- What is read from any input is a value of its type with its ignored fields at their defaults,
and the bytes taken for it from the front of the input stand for it. If nothing is found, the input
is at fault, or a name of the language is taken, or references go on without end, however deep they
are followed. -/
theorem decodeFrom_sound [Text.CharacterNames] {text : String} (hS : ofText text = .ok S)
    (hH : S.HookFree) (H : Hooks) {name : String} (hname : name ∈ S.names) (bytes : List UInt8) :
    (∃ v rest front, S.decodeFrom H name bytes = .ok (v, rest) ∧ bytes = front ++ rest.bytes ∧
      S.HasType maxLength (.declared name) v ∧ S.reset v = v ∧
      S.StandsFor (.declared name) front v) ∨
    (∃ h, S.decodeFrom H name bytes = .error h ∧ h.fault.ofInput = true) ∨
    (∃ h, S.decodeFrom H name bytes = .error h ∧ ¬ S.KeepsBuiltins ∧ h.fault.kind = .wrongKind) ∨
    (∃ h, S.decodeFrom H name bytes = .error h ∧ h.fault = .endless) ∧
      ∀ n, ∃ h, S.decodeAt S.builtins H n name (.ofOrigin { bytes }) = .error h ∧
        h.fault = .endless := by
  have hwf := wellFormed_of_ofText hS
  have hfound := decode_declared_finds hwf hH (B := S.builtins) H name hname (.ofOrigin { bytes })
  rw [decodeFrom, decode]
  cases hdecode : S.decodeIn S.builtins H name (.ofOrigin { bytes }) with
  | ok r =>
    obtain ⟨v, rest⟩ := r
    obtain ⟨front, hfront, hv⟩ := decode_declared_interprets hwf hH H name hname _ v rest hdecode
    rw [hdecode] at hfound
    cases hfound with | value _ htyped =>
    exact .inl ⟨v, rest, front, rfl, hfront, htyped.hasType, htyped.reset, hv⟩
  | error h =>
    rw [hdecode] at hfound
    right
    cases hfound with
    | halt hkind =>
      rcases hkind with hinput | hend
      · exact .inl ⟨h, rfl, by simpa [Fault.ofInput] using hinput⟩
      · have hend := eq_endless_of_kind hend
        exact .inr (.inr ⟨⟨h, rfl, hend⟩, decodeAt_endless hwf hH H hname hdecode hend⟩)
    | want hnot hkind => exact .inr (.inl ⟨h, rfl, fun hB => hnot hB.builtins_eq, hkind⟩)

/-- A variant that holds a record with an ignored field and a list of its own kind, in front of one
more byte. -/
theorem decodeFrom_sound_of_recursive_variant :
    let text := "struct Q \x7b @codec(ignore) n: u16 \x7d " ++
      "@codec(inferred_values) union U \x7b A B \x7b x: u8 q: Q rest: list<U> \x7d \x7d"
    let bytes := [1, 0, 7, 1, 0, 0, 0, 0, 0, 0, 0, 0, 0, 9]
    ∃ S, ofText text = .ok S ∧ S.HookFree ∧ "U" ∈ S.names ∧
      ∃ v rest front, S.decodeFrom Hooks.empty "U" bytes = .ok (v, rest) ∧
        bytes = front ++ rest.bytes ∧ S.HasType maxLength (.declared "U") v ∧ S.reset v = v ∧
        S.StandsFor (.declared "U") front v := by
  intro text bytes
  obtain ⟨S, hS, h⟩ := exists_of_any_ofText text
    (fun S => S.HookFree && S.names.contains "U" && (S.decodeFrom Hooks.empty "U" bytes).isOk)
    (by decide +kernel)
  simp only [Bool.and_eq_true, decide_eq_true_eq, List.contains_iff_mem] at h
  obtain ⟨⟨hhooks, hname⟩, hok⟩ := h
  refine ⟨S, hS, hhooks, hname, ?_⟩
  rcases decodeFrom_sound hS hhooks Hooks.empty hname bytes with
    hfound | ⟨e, he, -⟩ | ⟨e, he, -⟩ | ⟨⟨e, he, -⟩, -⟩
  · exact hfound
  all_goals
    rw [he] at hok
    cases hok

end Layout

end WireSchema
