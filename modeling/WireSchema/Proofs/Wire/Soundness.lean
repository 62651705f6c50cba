import WireSchema.Proofs.Wire.RoundTrip

/-!
# What is read

Whatever the input, reading finds a value of the type with its ignored fields reset, or it fails by
a fault of the input. The one limit that what is read need not meet is that on the number of
elements without any bytes. It is a property of each reader that it finds such values, kept by the
ways in which readers are made from others, and so it holds at every depth of references.
-/

namespace WireSchema

/-! ## Readers -/

namespace Read

section

variable {α β : Type} {B : Builtins} {P : α → Prop} {Q : β → Prop}

/-- A value with a property is found, or reading stops by the input or never, or for want of a name of
the language. -/
inductive Found (B : Builtins) (P : α → Prop) : Except Halt (α × Source) → Prop
  | value {a : α} (s : Source) : P a → Found B P (.ok (a, s))
  | halt {h : Halt} : h.fault.kind = .input ∨ h.fault.kind = .endless → Found B P (.error h)
  | want {h : Halt} : B ≠ .all → h.fault.kind = .wrongKind → Found B P (.error h)

/-- What a reader finds, wherever it reads, has a property. -/
def Finds (B : Builtins) (P : α → Prop) (read : Read α) : Prop := ∀ s, Found B P (read s)

theorem eq_endless_of_kind {f : Fault} (h : f.kind = .endless) : f = .endless := by
  cases f with
  | endless => rfl
  | _ => cases h

theorem Found.bind {x : Except Halt (α × Source)} {f : α × Source → Except Halt (β × Source)}
    (h : Found B P x) (hf : ∀ a s, P a → Found B Q (f (a, s))) : Found B Q (x >>= f) := by
  cases h with
  | value s ha => exact hf _ s ha
  | halt hk => exact .halt hk
  | want hB hk => exact .want hB hk

theorem Found.mono {P' : α → Prop} {x : Except Halt (α × Source)} (h : Found B P x)
    (hP : ∀ a, P a → P' a) : Found B P' x := by
  cases h with
  | value s ha => exact .value s (hP _ ha)
  | halt hk => exact .halt hk
  | want hB hk => exact .want hB hk

/-- To be found is a matter of the outcome. -/
theorem Found.of_outcome_eq {x y : Except Halt (α × Source)} (hy : Found B P y)
    (h : Read.outcome x = Read.outcome y) : Found B P x := by
  cases hy with
  | value s ha =>
    rw [Read.outcome_eq_ok_iff.1 h]
    exact .value s ha
  | halt hk =>
    cases x with
    | ok r => cases h
    | error h' =>
      simp only [Read.outcome, Except.mapError, Except.error.injEq, Prod.mk.injEq] at h
      exact .halt (h.1 ▸ hk)
  | want hB hk =>
    cases x with
    | ok r => cases h
    | error h' =>
      simp only [Read.outcome, Except.mapError, Except.error.injEq, Prod.mk.injEq] at h
      exact .want hB (h.1 ▸ hk)

theorem finds_lift {read : BytesReader α} (hfails : read.FailsByInput)
    (h : ∀ bs a rest, read bs = .ok (a, rest) → P a) : Finds B P (lift read) := by
  intro s
  rw [lift]
  cases hr : read s.bytes with
  | ok r => exact .value _ (h _ _ _ hr)
  | error f => exact .halt (.inl (hfails _ _ hr))

theorem Finds.timesOnto {read : Read α} (h : Finds B P read) (n : Nat) (as : List α)
    (has : ∀ a ∈ as, P a) :
    Finds B (fun bs => bs.length = as.length + n ∧ ∀ b ∈ bs, P b) (timesOnto read n as) := by
  induction n generalizing as with
  | zero =>
    intro s
    exact .value s ⟨List.length_reverse, fun b hb => has b (List.mem_reverse.1 hb)⟩
  | succ n ih =>
    intro s
    have hfirst := h s
    rw [Read.timesOnto]
    generalize read s = x at hfirst ⊢
    cases hfirst with
    | value s ha =>
      have hrest := ih _ (List.forall_mem_cons.2 ⟨ha, has⟩) s
      rwa [List.length_cons, Nat.add_right_comm] at hrest
    | halt hk => exact .halt hk
    | want hB hk => exact .want hB hk

theorem Finds.times {read : Read α} (h : Finds B P read) (n : Nat) :
    Finds B (fun as => as.length = n ∧ ∀ a ∈ as, P a) (times read n) := by
  have hall := h.timesOnto n [] nofun
  rwa [List.length_nil, Nat.zero_add] at hall

/-- A property that each step carries on. -/
theorem Finds.iterate {P : Nat → α → Prop} {step : α → Read α}
    (h : ∀ i a, P i a → Finds B (P (i + 1)) (step a)) (n : Nat) {i : Nat} {a : α} (ha : P i a) :
    Finds B (P (i + n)) (iterate step n a) := by
  induction n generalizing i a with
  | zero => exact fun s => .value s ha
  | succ n ih =>
    intro s
    have hfirst := h i a ha s
    rw [Read.iterate]
    generalize step a s = x at hfirst ⊢
    cases hfirst with
    | value s hb =>
      have hrest := ih hb s
      rwa [Nat.add_right_comm, Nat.add_assoc] at hrest
    | halt hk => exact .halt hk
    | want hB hk => exact .want hB hk

theorem finds_readCount : Finds B (· ≤ maxLength) (lift readCount) :=
  finds_lift failsByInput_readCount fun _ _ _ h => le_maxLength_of_readCount h

end

end Read

namespace Layout

variable {S : Layout} {B : Builtins}

/-- Values as they are read. -/
structure Canonical (S : Layout) (B : Builtins) (c : Codec) (v : Value) : Prop where
  hasType : S.HasType maxLength c v
  reset : S.reset v = v
  callable : S.Callable B c v

theorem canonical_int {k : IntKind} {n : Int} (hmin : k.minValue ≤ n) (hmax : n ≤ k.maxValue) :
    S.Canonical B (.int k) (.int n) :=
  ⟨.int hmin hmax, S.reset_int n, .int k _⟩

theorem canonical_bool (b : Bool) : S.Canonical B .bool (.bool b) :=
  ⟨.bool b, S.reset_bool b, .bool _⟩

theorem canonical_text {t : String} (h : t.utf8ByteSize ≤ maxLength) :
    S.Canonical B .string (.text t) :=
  ⟨.text h, S.reset_text t, .string _⟩

theorem canonical_packedBools {front : List UInt8} (h : front.length = 1) :
    S.Canonical B .packedBools (packedBoolsOf front) := by
  obtain ⟨b, rfl⟩ := List.length_eq_one_iff.1 h
  rw [packedBoolsOf, List.flatMap_singleton]
  exact ⟨.packedBools (length_unpackBits b), reset_bools _, .packedBools _⟩

theorem Canonical.optional {c : Codec} {v : Value} (h : S.Canonical B c v) :
    S.Canonical B (.optional c) v :=
  ⟨.present h.hasType, h.reset, .present h.callable⟩

theorem canonical_none (c : Codec) : S.Canonical B (.optional c) .none :=
  ⟨.absent c, S.reset_none, .absent c⟩

theorem reset_list_of_canonical {c : Codec} {vs : List Value} (h : ∀ v ∈ vs, S.Canonical B c v) :
    S.reset (.list vs) = .list vs :=
  S.reset_list_eq_self fun v hv => (h v hv).reset

theorem canonical_list {c : Codec} {vs : List Value} (hlen : vs.length ≤ maxLength)
    (h : ∀ v ∈ vs, S.Canonical B c v) : S.Canonical B (.list c) (.list vs) :=
  ⟨.list hlen (fun _ => hlen) fun v hv => (h v hv).hasType, reset_list_of_canonical h,
    .list fun v hv => (h v hv).callable⟩

theorem canonical_array {c : Codec} {vs : List Value} (h : ∀ v ∈ vs, S.Canonical B c v) :
    S.Canonical B (.array c vs.length) (.list vs) :=
  ⟨.array fun v hv => (h v hv).hasType, reset_list_of_canonical h,
    .array _ fun v hv => (h v hv).callable⟩

/-! ## Maps -/

/-- What reading so many entries of a map makes of it. -/
structure EntriesRead (S : Layout) (B : Builtins) (k c : Codec) (n : Nat)
    (es : List (Value × Value)) : Prop where
  length : es.length ≤ n
  distinct : (es.map Prod.fst).Nodup
  keys : ∀ e ∈ es, S.Canonical B k e.1
  values : ∀ e ∈ es, S.Canonical B c e.2

theorem entriesRead_nil (k c : Codec) : S.EntriesRead B k c 0 [] :=
  ⟨Nat.le_refl 0, List.nodup_nil, List.forall_mem_nil _, List.forall_mem_nil _⟩

/-- An entry is put in the place of the one with its key, or behind all others. -/
theorem EntriesRead.insertEntry {k c : Codec} (hk : k.IsKey) {n : Nat}
    {es : List (Value × Value)} (h : S.EntriesRead B k c n es) {key v : Value}
    (hkey : S.Canonical B k key) (hv : S.Canonical B c v) :
    S.EntriesRead B k c (n + 1) (Value.insertEntry key v es) := by
  have hlen := Value.length_insertEntry_le key v es
  refine ⟨Nat.le_trans hlen (Nat.succ_le_succ h.length), ?_, fun e he => ?_, fun e he => ?_⟩
  · rcases Value.keys_insertEntry key v es with hkeys | ⟨hnew, hkeys⟩
    · rw [hkeys]
      exact h.distinct
    · rw [hkeys]
      refine List.nodup_append.2 ⟨h.distinct, List.nodup_singleton key, ?_⟩
      intro key' hmem key'' hmem' heq
      obtain ⟨e, he, rfl⟩ := List.mem_map.1 hmem
      obtain rfl := List.mem_singleton.1 hmem'
      have hother := hnew e he
      rw [heq, same_self_of_isKey hk hkey.hasType] at hother
      cases hother
  · rcases Value.mem_insertEntry he with he | ⟨-, hk' | ⟨e', he', hk'⟩⟩
    · exact h.keys e he
    · exact hk' ▸ hkey
    · exact hk' ▸ h.keys e' he'
  · rcases Value.mem_insertEntry he with he | ⟨hv', -⟩
    · exact h.values e he
    · exact hv' ▸ hv

theorem EntriesRead.canonical {k c : Codec} {n : Nat} {es : List (Value × Value)}
    (h : S.EntriesRead B k c n es) (hn : n ≤ maxLength) : S.Canonical B (.map k c) (.map es) := by
  refine ⟨.map (Nat.le_trans h.length hn) h.distinct (fun e he => (h.keys e he).hasType)
    fun e he => (h.values e he).hasType, ?_, .map (fun e he => (h.keys e he).callable)
    fun e he => (h.values e he).callable⟩
  rw [Layout.reset, resetEntries_eq_map]
  refine congrArg Value.map ((List.map_congr_left fun e he => ?_).trans (List.map_id es))
  rw [(h.keys e he).reset, (h.values e he).reset]
  rfl

/-! ## Fields -/

/-- What is read for fields: their names in order, each with a value of its type. -/
structure FieldsRead (S : Layout) (B : Builtins) (fields : List Field)
    (read : List (String × Value)) : Prop where
  names : read.map Prod.fst = fields.map Field.ident
  values : ∀ f ∈ fields, ∀ e ∈ read, e.1 = f.ident → S.Canonical B f.codec e.2

theorem fieldsRead_nil (S : Layout) (B : Builtins) : S.FieldsRead B [] [] :=
  ⟨rfl, nofun⟩

theorem FieldsRead.cons {f : Field} {fs : List Field} {v : Value} {read : List (String × Value)}
    (h : S.FieldsRead B fs read) (hnew : f.ident ∉ fs.map Field.ident) (hv : S.Canonical B f.codec v) :
    S.FieldsRead B (f :: fs) ((f.ident, v) :: read) := by
  refine ⟨?_, fun g hg e he hname => ?_⟩
  · rw [List.map_cons, List.map_cons, h.names]
  · rcases List.mem_cons.1 hg with rfl | hg
    · rcases List.mem_cons.1 he with rfl | he
      · exact hv
      · refine absurd ?_ hnew
        rw [← hname, ← h.names]
        exact List.mem_map_of_mem he
    · rcases List.mem_cons.1 he with rfl | he
      · refine absurd ?_ hnew
        rw [show f.ident = g.ident from hname]
        exact List.mem_map_of_mem hg
      · exact h.values g hg e he hname

namespace FieldsRead

variable {fields : List Field} {read : List (String × Value)} (h : S.FieldsRead B fields read)
  (hfields : S.FieldsWellFormed fields)
include h hfields

theorem distinct : (read.map Prod.fst).Nodup := h.names ▸ hfields.distinct

theorem eq_map_heldBy : read = fields.map fun f => (f.ident, heldBy read f.ident) := by
  have hread := WireSchema.eq_map_heldBy (h.distinct hfields)
  rwa [h.names, List.map_map] at hread

theorem canonical_heldBy {f : Field} (hf : f ∈ fields) :
    S.Canonical B f.codec (heldBy read f.ident) := by
  have hname : f.ident ∈ read.map Prod.fst := h.names ▸ List.mem_map_of_mem hf
  exact h.values f hf _ (heldBy_mem (h.distinct hfields) hname) rfl

end FieldsRead

/-! ## Codecs -/

section

variable {D : String → Read Value}
  (hD : ∀ name ∈ S.names, (D name).Finds B (S.Canonical B (.declared name)))

/-- One more entry is read. -/
theorem readEntry_finds {k c : Codec} (hk : k.IsKey)
    (hkeys : Read.Finds B (S.Canonical B k) (k.decode D))
    (hvalues : Read.Finds B (S.Canonical B c) (c.decode D)) {n : Nat} {es : List (Value × Value)}
    (h : S.EntriesRead B k c n es) :
    Read.Finds B (S.EntriesRead B k c (n + 1)) (Codec.readEntry k c D es) := by
  intro s
  refine (hkeys s).bind fun key s hkey => ?_
  refine (hvalues s).bind fun v s hv => ?_
  dsimp only
  rw [if_pos (isKey_of_hasType hk hkey.hasType)]
  exact .value s (h.insertEntry hk hkey hv)

include hD

theorem decode_finds {c : Codec} (hc : S.Admits c) : Read.Finds B (S.Canonical B c) (c.decode D) := by
  induction c with
  | int k =>
    refine Read.finds_lift ((failsByInput_readInt k).map Value.int) fun bs v rest h => ?_
    obtain ⟨⟨n, _⟩, hn, h⟩ := exists_of_bind_eq_ok h
    cases h
    exact canonical_int (mem_range_of_readInt hn).1 (mem_range_of_readInt hn).2
  | bool =>
    refine Read.finds_lift (failsByInput_readBool.map Value.bool) fun bs v rest h => ?_
    obtain ⟨⟨b, _⟩, -, h⟩ := exists_of_bind_eq_ok h
    cases h
    exact canonical_bool b
  | string =>
    refine Read.finds_lift (failsByInput_readString.map Value.text) fun bs v rest h => ?_
    obtain ⟨⟨t, _⟩, ht, h⟩ := exists_of_bind_eq_ok h
    cases h
    exact canonical_text (exists_of_readString ht).1
  | packedBools =>
    refine Read.finds_lift failsByInput_readPackedBools fun bs v rest h => ?_
    obtain ⟨front, hfront, rfl, -⟩ := exists_of_readPackedBools h
    exact canonical_packedBools hfront
  | optional c ih =>
    cases hc with | optional hc =>
    intro s
    have hpresent : Read.Finds B (fun _ => True) (Read.lift readBool) :=
      Read.finds_lift failsByInput_readBool fun _ _ _ _ => trivial
    refine (hpresent s).bind fun b s _ => ?_
    cases b with
    | true => exact (ih hc s).mono fun v hv => hv.optional
    | false => exact .value s (canonical_none c)
  | list c ih =>
    cases hc with | list hc =>
    intro s
    refine (Read.finds_readCount s).bind fun n s hn => ?_
    dsimp only
    split
    · exact .halt (.inl rfl)
    · refine ((ih hc).times n s).bind fun vs s hvs => ?_
      exact .value s (canonical_list (hvs.1 ▸ hn) hvs.2)
  | array c n ih =>
    cases hc with | array _ hc =>
    intro s
    refine ((ih hc).times n s).bind fun vs s hvs => ?_
    obtain ⟨rfl, hvs⟩ := hvs
    exact .value s (canonical_array hvs)
  | map k c ihk ihc =>
    cases hc with | map hk hc =>
    intro s
    refine (Read.finds_readCount s).bind fun n s hn => ?_
    dsimp only
    split
    · exact .halt (.inl rfl)
    · have hstep : ∀ i es, S.EntriesRead B k c i es →
          Read.Finds B (S.EntriesRead B k c (i + 1)) (Codec.readEntry k c D es) :=
        fun _ _ => readEntry_finds hk (ihk (.of_isKey hk)) (ihc hc)
      refine (Read.Finds.iterate hstep n (entriesRead_nil k c) s).bind fun es s hes => ?_
      rw [Nat.zero_add] at hes
      exact .value s (hes.canonical hn)
  | declared name =>
    cases hc with | declared hname =>
    exact hD name hname

theorem decodeEach_finds {fields : List Field} (h : S.FieldsWellFormed fields) :
    Read.Finds B (S.FieldsRead B fields) (Field.decodeEach D fields) := by
  induction fields with
  | nil => exact fun s => .value s (fieldsRead_nil S B)
  | cons f fs ih =>
    intro s
    have hdistinct := h.distinct
    rw [List.map_cons, List.nodup_cons] at hdistinct
    have hfs : S.FieldsWellFormed fs := ⟨hdistinct.2, fun f hf => h.free f (.tail _ hf),
      fun f hf => h.admits f (.tail _ hf)⟩
    refine (decode_finds hD (h.admits f (.head _)) s).bind fun v s hv => ?_
    refine (ih hfs s).bind fun read s hread => ?_
    exact .value s (hread.cons hdistinct.1 hv)

theorem decodeAll_finds {fields : List Field} (h : S.FieldsWellFormed fields) :
    Read.Finds B (S.FieldsRead B fields) (Segment.decodeAll D (Segment.ofFields fields)) :=
  fun s => (decodeEach_finds hD h s).of_outcome_eq (Field.outcome_decodeAll D fields s)

end

/-! ## Declared types -/

variable (hS : S.WellFormed) (hH : S.HookFree) (H : Hooks)
include hS

theorem canonical_record {r : RecordLayout} (hr : r ∈ S.records) {read : List (String × Value)}
    (hcalls : B.calls r.name = true) (hfills : S.fillsIgnored B r.fields = true)
    (hread : S.FieldsRead B r.wireFields read) :
    S.Canonical B (.declared r.name) (.object (.record r.name) (r.fields.map fun l =>
      (l.field.ident, S.completed (fun f => heldBy read f.ident) l))) := by
  have hwf := hS.records r hr
  -- an ignored field holds its default, and any other what was read for it
  have hignored : ∀ l ∈ r.fields, l.attributes.ignore = true →
      S.fieldDefault? l.field = some (S.completed (fun f => heldBy read f.ident) l) := by
    intro l hl hi
    obtain ⟨w, hw⟩ := Option.isSome_iff_exists.1 (hwf.default l hl hi)
    rw [completed, if_pos hi, hw, Option.getD_some]
  have hcanonical : ∀ l ∈ r.fields, l.attributes.ignore = false →
      S.Canonical B l.field.codec (S.completed (fun f => heldBy read f.ident) l) := by
    intro l hl hi
    simp only [completed, hi, Bool.false_eq_true, if_false]
    exact hread.canonical_heldBy hwf.wireFields (hwf.mem_wireFields_iff.2 ⟨l, hl, hi, rfl⟩)
  exact ⟨hasType_record hS hr fun l hl hi => (hcanonical l hl hi).hasType,
    reset_record hS hr hignored fun l hl hi => (hcanonical l hl hi).reset,
    .record (hS.record?_eq_some hr) hcalls hfills
      (forall_wireFields hS hr fun l hl hi => (hcanonical l hl hi).callable)⟩

theorem canonical_variant {u : UnionLayout} {v : VariantLayout} (hu : u ∈ S.unions)
    (hv : v ∈ u.variants) {read : List (String × Value)} (hcalls : B.calls u.name = true)
    (hread : S.FieldsRead B v.variant.fields read) :
    S.Canonical B (.declared u.name) (.object (.variant u.name v.name) read) := by
  have hfields := (hS.unions u hu).fields v hv
  have huv := hS.variant?_eq_some hu hv
  refine ⟨.variant huv hread.names fun f hf e he hname => (hread.values f hf e he hname).hasType,
    ?_, .variant huv hcalls fun f hf e he hname => (hread.values f hf e he hname).callable⟩
  rw [Layout.reset, resetFields_variant hread.names (hread.distinct hfields)]
  refine congrArg _ (Eq.trans ?_ (hread.eq_map_heldBy hfields).symm)
  refine List.map_congr_left fun f hf => ?_
  rw [(hread.canonical_heldBy hfields hf).reset]

include hH

theorem readAs_finds {D : String → Read Value}
    (hD : ∀ name ∈ S.names, (D name).Finds B (S.Canonical B (.declared name))) {d : Declaration}
    (hd : S.Declares d) (hcalls : B.calls d.name = true) (type : String) :
    (S.readAs B H D type d).Finds B (S.Canonical B (.declared d.name)) := by
  intro s
  cases d with
  | record r =>
    have hpost : r.attributes.postDecode = none := (hH.hooks_eq_nil (d := .record r) hd).2.2.2
    have hfields := (hS.records r hd).wireFields
    refine (decodeAll_finds hD hfields s).bind fun read s hread => ?_
    dsimp only
    rw [completeFields_of_names hS hd hread.names]
    cases hfills : S.fillsIgnored B r.fields with
    | true =>
      simp only [if_true, H.postDecoded_of_none hpost]
      exact .value s (canonical_record hS hd hcalls hfills hread)
    | false =>
      refine .want (fun hB => ?_) rfl
      rw [hB, fillsIgnored_all] at hfills
      cases hfills
  | union u =>
    have hpost : u.attributes.postDecode = none := (hH.hooks_eq_nil (d := .union u) hd).2.2.2
    have htag : Read.Finds B (fun _ => True) (Read.lift (readInt u.width.kind)) :=
      Read.finds_lift (failsByInput_readInt _) fun _ _ _ _ => trivial
    refine (htag s).bind fun tag s _ => ?_
    dsimp only
    cases hv : u.variantOfTag? tag with
    | none => exact .halt (.inl rfl)
    | some v =>
      have hv : v ∈ u.variants := List.mem_of_find?_eq_some hv
      refine (decodeAll_finds hD ((hS.unions u hd).fields v hv) s).bind fun read s hread => ?_
      dsimp only
      rw [H.postDecoded_of_none hpost]
      exact .value s (canonical_variant hS hd hv hcalls hread)

theorem decodeAt_finds (n : Nat) :
    ∀ name ∈ S.names, (S.decodeAt B H n name).Finds B (S.Canonical B (.declared name)) := by
  induction n with
  | zero => exact fun _ _ _ => .halt (.inr rfl)
  | succ n ih =>
    intro name hname s
    obtain ⟨d, hd, rfl, -⟩ := hS.exists_declaration hname
    rw [decodeAt_succ hS hH H hd, Builtins.calling]
    split
    next hcalls => exact readAs_finds hS hH H ih hd hcalls d.name s
    next hcalls => exact .want (fun hB => hcalls (hB ▸ rfl)) rfl

/-- What is found for a declared type is a value of it with its ignored fields reset. -/
theorem decode_declared_finds :
    ∀ name ∈ S.names, (S.decodeIn B H name).Finds B (S.Canonical B (.declared name)) := by
  intro name hname s
  rw [decode_eq_decodeAt hS hH H hname (Nat.le_refl _)]
  exact decodeAt_finds hS hH H _ name hname s

end Layout

end WireSchema
