import WireSchema.Proofs.Wire.Framing
import WireSchema.Proofs.Wire.Reencoding

/-!
# The limit on elements without any bytes

A list cannot have many more elements than bytes, neither when it is written nor when it is read. No
type is in between: either none of its values that can be written takes up any bytes, or all of them
do. So the limit is met only by lists of the first kind, and by these exactly if they are too long.
Readers hold a list to the bytes that follow its count. These are all that were written for it, and
so what was let through by the writer is let through by any reader. The keys of a map take up bytes,
so that its reader need not allow for anything.
-/

namespace WireSchema

/-! ## How much is written -/

namespace Write

/-- What is written, if anything is, is appended and has so many bytes. -/
def AtLeast (n : Nat) (write : Write) : Prop :=
  ∀ s t, write s = .ok t → ∃ bs, t = s.append bs ∧ n ≤ bs.length

theorem Framed.atLeast {write : Write} (h : write.Framed) : write.AtLeast 0 := by
  intro s t ht
  obtain ⟨bs, f?, h⟩ := h
  rw [h s] at ht
  cases f? with
  | none =>
    cases ht
    exact ⟨bs, rfl, Nat.zero_le _⟩
  | some f => cases ht

theorem atLeast_bytes (bs : List UInt8) : (bytes bs).AtLeast bs.length := by
  intro s t ht
  cases ht
  exact ⟨bs, rfl, Nat.le_refl _⟩

theorem atLeast_fail (n : Nat) (f : Fault) : (fail f).AtLeast n := nofun

theorem AtLeast.bind {m n : Nat} {write next : Write} (h : write.AtLeast m)
    (hnext : next.AtLeast n) : AtLeast (m + n) fun s => write s >>= next := by
  intro s t ht
  obtain ⟨s', hs', ht⟩ := exists_of_bind_eq_ok ht
  obtain ⟨bs, rfl, hbs⟩ := h s s' hs'
  obtain ⟨cs, rfl, hcs⟩ := hnext _ t ht
  refine ⟨bs ++ cs, Sink.append_append s bs cs, ?_⟩
  rw [List.length_append]
  exact Nat.add_le_add hbs hcs

theorem AtLeast.mono {m n : Nat} {write : Write} (h : write.AtLeast n) (hmn : m ≤ n) :
    write.AtLeast m := by
  intro s t ht
  obtain ⟨bs, hbs, hn⟩ := h s t ht
  exact ⟨bs, hbs, Nat.le_trans hmn hn⟩

/-- Writers that append something append as much as there are of them. -/
theorem atLeast_foldlM {α : Type} {write : α → Write} {as : List α}
    (h : ∀ a ∈ as, (write a).AtLeast 1) :
    AtLeast as.length fun s => as.foldlM (fun s a => write a s) s := by
  induction as with
  | nil => exact framed_pure.atLeast
  | cons a as ih =>
    rw [List.length_cons, Nat.add_comm]
    exact (h a (.head _)).bind (ih fun a ha => h a (.tail _ ha))

theorem atLeast_writeInt (k : IntKind) (v : Value) (isAsked : Bool) :
    (writeInt k v isAsked).AtLeast 1 := by
  rw [writeInt_eq]
  split
  next bs hbs =>
    obtain ⟨n, -, hn⟩ := Option.bind_eq_some_iff.1 hbs
    refine (atLeast_bytes bs).mono ?_
    rw [IntKind.length_of_encode? hn]
    exact k.size_pos
  next => exact atLeast_fail _ _

theorem exists_of_writeCount {n : Nat} {s t : Sink} (h : writeCount n s = .ok t) :
    n ≤ maxLength ∧ t = s.append (countBytes n) := by
  have hn : n ≤ maxLength := by
    cases hbs : IntKind.u64.encode? n with
    | some bs =>
      have hmax : (n : Int) ≤ IntKind.u64.maxValue := (encodeInt?_eq_some_iff.1 hbs).2.1
      rw [maxValue_u64] at hmax
      omega
    | none =>
      simp only [writeCount, hbs] at h
      cases h
  refine ⟨hn, ?_⟩
  rw [appends_writeCount hn s] at h
  exact (Except.ok.inj h).symm

theorem atLeast_writeCount (n : Nat) : AtLeast 1 (writeCount n) := by
  intro s t h
  obtain ⟨hn, rfl⟩ := exists_of_writeCount h
  refine ⟨_, rfl, ?_⟩
  rw [length_countBytes hn]
  decide

end Write

/-! ## What is let through -/

/-- The count at the front of some bytes is not found to exceed what is behind it, whatever follows
the bytes. -/
def CountPasses (allowance : Nat) (bs : List UInt8) : Prop :=
  ∀ tail, ∃ n rest, readCount (bs ++ tail) = .ok (n, rest) ∧ exceeds n allowance rest = false

theorem countPasses_append {allowance n : Nat} (hn : n ≤ maxLength) {bs : List UInt8}
    (hlen : n ≤ bs.length + allowance) : CountPasses allowance (countBytes n ++ bs) := by
  intro tail
  refine ⟨n, bs ++ tail, ?_, ?_⟩
  · rw [List.append_assoc]
    exact takes_readCount hn _
  · rw [← Bool.not_eq_true, exceeds_iff, List.length_append]
    omega

open Write

section

variable {S : Layout} {O : Objects} (hO : ∀ v, S.WritesUnhooked v → (O.write v).Framed)
include hO

/-- What a list is written as is let through, whatever it is a list of. -/
theorem Codec.countPasses_list (c : Codec) {v : Value} (hv : S.WritesUnhooked v) {s t : Sink}
    (h : (Codec.list c).encode O v s = .ok t) :
    ∃ bs, t = s.append bs ∧ CountPasses maxEmptyItems bs := by
  simp only [Codec.encode] at h
  cases hitems : v.items? with
  | none =>
    rw [hitems] at h
    cases h
  | some items =>
    rw [hitems] at h
    obtain ⟨s₁, hcount, h⟩ := exists_of_bind_eq_ok h
    obtain ⟨s₂, hall, h⟩ := exists_of_bind_eq_ok h
    obtain ⟨hlen, rfl⟩ := exists_of_writeCount hcount
    have hframed := framed_all fun w hw => c.framed_encode hO (hv.part (.item hitems hw))
    obtain ⟨bs, rfl, -⟩ := hframed.atLeast _ s₂ hall
    split at h
    next => cases h
    next hnot =>
      cases h
      rw [Sink.size_append] at hnot
      refine ⟨countBytes items.length ++ bs, Sink.append_append .., ?_⟩
      exact countPasses_append hlen (by omega)

omit hO in
/-- A key takes up bytes. -/
theorem Codec.IsKey.atLeast_encode {k : Codec} (hk : k.IsKey) (v : Value) :
    AtLeast 1 (k.encode O v) := by
  induction hk with
  | int k => exact atLeast_writeInt _ _ _
  | bool => exact atLeast_bytes [_]
  | string =>
    cases v with
    | text t => exact (atLeast_writeCount _).bind (framed_bytes _).atLeast
    | _ => exact atLeast_fail _ _
  | optional _ ih =>
    simp only [Codec.encode]
    split
    · exact atLeast_bytes [0]
    · exact ((atLeast_bytes [1]).bind ih).mono (by decide)

/-- What a map is written as is let through, whatever it is a map of. -/
theorem Codec.countPasses_map {k : Codec} (hk : k.IsKey) (c : Codec) {v : Value}
    (hv : S.WritesUnhooked v) {s t : Sink} (h : (Codec.map k c).encode O v s = .ok t) :
    ∃ bs, t = s.append bs ∧ CountPasses 0 bs := by
  simp only [Codec.encode] at h
  split at h
  next entries =>
    obtain ⟨s₁, hcount, h⟩ := exists_of_bind_eq_ok h
    obtain ⟨hlen, rfl⟩ := exists_of_writeCount hcount
    have hentry : ∀ e ∈ entries, AtLeast 1 fun s => k.encode O e.1 s >>= c.encode O e.2 :=
      fun e he => (hk.atLeast_encode e.1).bind (c.framed_encode hO (hv.part (.entry he))).atLeast
    obtain ⟨bs, rfl, hbs⟩ := atLeast_foldlM hentry _ t h
    exact ⟨countBytes entries.length ++ bs, Sink.append_append .., countPasses_append hlen hbs⟩
  next =>
    cases hitems : v.items? with
    | none =>
      rw [hitems] at h
      cases h
    | some items =>
      rw [hitems] at h
      obtain ⟨s₁, -, h⟩ := exists_of_bind_eq_ok h
      cases h

end

/-! ## Types of the two kinds -/

namespace Layout

variable (S : Layout) (H : Hooks)

/-- Whatever value of a type is written, nothing is appended. -/
def WritesNothing (c : Codec) : Prop :=
  ∀ v s t, S.HasType maxLength c v → c.encode (S.objects (S.encode H)) v s = .ok t →
    t.bytes = s.bytes

/-- Whatever value of a type is written, something is appended. -/
def WritesSomething (c : Codec) : Prop :=
  ∀ v s t, S.HasType maxLength c v → c.encode (S.objects (S.encode H)) v s = .ok t →
    s.bytes.size < t.bytes.size

variable {S H}

section

variable (hS : S.WellFormed) (hH : S.HookFree) {c : Codec} (hc : S.Admits c)
include hS hH hc

/-- What is written of a type is a value that can be read again. -/
theorem HasType.roundTrips_of_encode {v : Value} (hv : S.HasType maxLength c v) {s t : Sink}
    (ht : c.encode (S.objects (S.encode H)) v s = .ok t) : S.RoundTrips H .all c v := by
  have hneeds := hv.rewrites (H := H) hS hH hc s
  rw [ht] at hneeds
  exact roundTrips_of_hasType hS hH hneeds.of_ok hc

theorem writesNothing_of_zeroWidth (hzero : S.ZeroWidth c) : S.WritesNothing H c := by
  intro v s t hv ht
  have hround := hv.roundTrips_of_encode hS hH hc ht
  rw [hround.writes s, hround.empty.2 hzero, Sink.append_nil] at ht
  rw [Except.ok.inj ht]

theorem writesSomething_of_not_zeroWidth (hzero : ¬ S.ZeroWidth c) : S.WritesSomething H c := by
  intro v s t hv ht
  have hround := hv.roundTrips_of_encode hS hH hc ht
  have hpos := List.length_pos_iff.2 fun hnil => hzero (hround.empty.1 hnil)
  rw [hround.writes s] at ht
  rw [← Except.ok.inj ht, Sink.size_append]
  omega

/-- Where a value can be written, the kind of a type is a matter of its structure. -/
theorem writesNothing_iff_zeroWidth {v : Value} (hv : S.HasType maxLength c v)
    (hround : S.RoundTrips H .all c v) : S.WritesNothing H c ↔ S.ZeroWidth c := by
  refine ⟨fun h => hround.empty.1 ?_, writesNothing_of_zeroWidth hS hH hc⟩
  have hbytes := h v {} _ hv (hround.writes {})
  simpa [Sink.append] using hbytes

end

/-! ## Lists that are too long -/

section

variable {c : Codec} {vs : List Value} (hlen : vs.length ≤ maxLength)
  (hround : ∀ v ∈ vs, S.RoundTrips H .all c v)
include hlen hround

/-- Too many elements without any bytes are found after they have been written. -/
theorem encode_list_of_zeroWidth (hzero : S.ZeroWidth c) (hmost : maxEmptyItems < vs.length)
    (s : Sink) :
    (Codec.list c).encode (S.objects (S.encode H)) (.list vs) s =
      .error (.tooManyEmpty (Codec.list c).name, s.append (countBytes vs.length)) := by
  have hall := Write.appends_all fun v hv => (hround v hv).writes
  rw [(flatMap_bytesOf_eq_nil hround).2 (.inr hzero)] at hall
  simp only [Codec.encode, Value.items?, Write.appends_writeCount hlen s]
  change (Write.all _ vs _ >>= _) = _
  rw [hall, Sink.append_nil]
  change (if _ then _ else _) = _
  rw [if_pos (by omega)]

theorem encode_list_eq_error_iff (s : Sink) {e : Fault × Sink} :
    (Codec.list c).encode (S.objects (S.encode H)) (.list vs) s = .error e ↔
      e = (.tooManyEmpty (Codec.list c).name, s.append (countBytes vs.length)) ∧
        S.ZeroWidth c ∧ maxEmptyItems < vs.length := by
  by_cases h : S.ZeroWidth c ∧ maxEmptyItems < vs.length
  · rw [encode_list_of_zeroWidth hlen hround h.1 h.2 s, Except.error.injEq, eq_comm]
    simp only [h, and_true]
  · have hmost (hzero : S.ZeroWidth c) : vs.length ≤ maxEmptyItems :=
      Nat.le_of_not_lt fun hlt => h ⟨hzero, hlt⟩
    rw [appends_list hlen hmost hround s]
    exact ⟨nofun, fun he => absurd he.2 h⟩

end

/-- The limit is met exactly where it should be. A type of a field is of one of two kinds, and a list
of elements that can be written is refused if it is of the first kind and too long, and otherwise
is written. What is written for a list or a map, of whatever elements, is let through by any
reader. -/
theorem emptyItems_exact [Text.CharacterNames] {text : String} (hS : ofText text = .ok S)
    (hH : S.HookFree) (H : Hooks) :
    ((∀ r ∈ S.records, ∀ l ∈ r.fields, S.Admits l.field.codec) ∧
      ∀ u ∈ S.unions, ∀ v ∈ u.variants, ∀ f ∈ v.variant.fields, S.Admits f.codec) ∧
    ∀ c, S.Admits c →
      (S.WritesNothing H c ∨ S.WritesSomething H c) ∧
      (∀ vs s, vs.length ≤ maxLength →
        (∀ v ∈ vs, S.HasType maxLength c v ∧
          ∃ t, c.encode (S.objects (S.encode H)) v {} = .ok t) →
        ((∃ f t, (Codec.list c).encode (S.objects (S.encode H)) (.list vs) s = .error (f, t) ∧
            f.kind = .value) ↔ S.WritesNothing H c ∧ maxEmptyItems < vs.length) ∧
        ∀ f t, (Codec.list c).encode (S.objects (S.encode H)) (.list vs) s = .error (f, t) →
          f = .tooManyEmpty (Codec.list c).name) ∧
      (∀ v s t, (Codec.list c).encode (S.objects (S.encode H)) v s = .ok t →
        ∃ bs, t = s.append bs ∧ CountPasses maxEmptyItems bs) ∧
      ∀ k v s t, S.Admits (.map k c) →
        (Codec.map k c).encode (S.objects (S.encode H)) v s = .ok t →
          ∃ bs, t = s.append bs ∧ CountPasses 0 bs := by
  have hwf := wellFormed_of_ofText hS
  have hframed : ∀ v, S.WritesUnhooked v → ((S.objects (S.encode H)).write v).Framed :=
    fun _ => framed_encode H
  refine ⟨⟨fun r hr l hl => ?_, fun u hu v hv => ((hwf.unions u hu).fields v hv).admits⟩,
    fun c hc => ⟨?_, fun vs s hlen hvs => ?_, fun v s t ht => ?_, fun k v s t hmap ht => ?_⟩⟩
  · exact (hwf.records r hr).fields.admits _ (List.mem_map_of_mem hl)
  · by_cases hzero : S.ZeroWidth c
    · exact .inl (writesNothing_of_zeroWidth hwf hH hc hzero)
    · exact .inr (writesSomething_of_not_zeroWidth hwf hH hc hzero)
  · have hround : ∀ v ∈ vs, S.RoundTrips H .all c v := by
      intro v hv
      obtain ⟨htyped, t, ht⟩ := hvs v hv
      exact htyped.roundTrips_of_encode hwf hH hc ht
    have herror {e : Fault × Sink} := encode_list_eq_error_iff hlen hround s (e := e)
    refine ⟨⟨?_, fun ⟨hnothing, hmost⟩ => ?_⟩, fun f t ht => (Prod.mk.inj (herror.1 ht).1).1⟩
    · rintro ⟨f, t, ht, -⟩
      obtain ⟨-, hzero, hmost⟩ := herror.1 ht
      exact ⟨writesNothing_of_zeroWidth hwf hH hc hzero, hmost⟩
    · obtain ⟨v, hv⟩ := List.exists_mem_of_length_pos (Nat.zero_lt_of_lt hmost)
      have hzero := (writesNothing_iff_zeroWidth hwf hH hc (hvs v hv).1 (hround v hv)).1 hnothing
      exact ⟨_, _, herror.2 ⟨rfl, hzero, hmost⟩, rfl⟩
  · exact c.countPasses_list hframed (hH.writesUnhooked v) ht
  · cases hmap with | map hk _ =>
    exact Codec.countPasses_map hframed hk c (hH.writesUnhooked v) ht

/-- Units are of the first kind and small numbers are not, so that one list is refused and another,
just as long, is not. -/
theorem emptyItems_exact_of_units :
    let text := "struct M struct L \x7b items: list<M> numbers: list<u8> \x7d"
    ∃ S, ofText text = .ok S ∧ S.HookFree ∧
      (∃ f t, (Codec.list (.declared "M")).encode (S.objects (S.encode Hooks.empty))
        (.list (List.replicate 65537 (.object (.record "M") []))) {} = .error (f, t) ∧
          f.kind = .value) ∧
      ¬ ∃ f t, (Codec.list (.int .u8)).encode (S.objects (S.encode Hooks.empty))
        (.list (List.replicate 65537 (.int 7))) {} = .error (f, t) ∧ f.kind = .value := by
  intro text
  obtain ⟨S, hS, h⟩ := exists_of_any_ofText text
    (fun S => S.HookFree &&
      (S.record? "M").any (fun r => r.name = "M" ∧ r.fields.length = 0 ∧ r.wireFields.length = 0))
    (by decide +kernel)
  simp only [Bool.and_eq_true, Option.any_eq_true, decide_eq_true_eq] at h
  obtain ⟨hhooks, r, hr, hname, hfields, hwire⟩ := h
  have hwf := wellFormed_of_ofText hS
  have hnone : ∀ f ∈ r.wireFields, False := by
    intro f hf
    rw [List.eq_nil_of_length_eq_zero hwire] at hf
    cases hf
  have hunit (most : Nat) : S.HasType most (.declared "M") (.object (.record "M") []) := by
    rw [← hname] at hr ⊢
    refine .record hr ?_ fun f hf => (hnone f hf).elim
    rw [List.eq_nil_of_length_eq_zero hfields]
    rfl
  have hadmits : S.Admits (.declared "M") := .declared (hunit maxLength).mem_names
  have hlen (v : Value) : (List.replicate 65537 v).length ≤ maxLength ∧
      maxEmptyItems < (List.replicate 65537 v).length := by
    rw [List.length_replicate]
    decide
  have hexact := (emptyItems_exact hS hhooks Hooks.empty).2
  refine ⟨S, hS, hhooks, ?_, ?_⟩
  · obtain ⟨-, hlist, -⟩ := hexact (.declared "M") hadmits
    have hzero : S.ZeroWidth (.declared "M") := by
      rw [← hname] at hr ⊢
      exact .record hr fun f hf => (hnone f hf).elim
    have hround := roundTrips_of_hasType (H := Hooks.empty) hwf hhooks (hunit maxEmptyItems) hadmits
    refine (hlist _ {} (hlen _).1 fun v hv => ?_).1.2
      ⟨writesNothing_of_zeroWidth hwf hhooks hadmits hzero, (hlen _).2⟩
    obtain rfl := List.eq_of_mem_replicate hv
    exact ⟨hunit maxLength, _, hround.writes {}⟩
  · obtain ⟨-, hlist, -⟩ := hexact (.int .u8) (.int .u8)
    have hseven : S.HasType maxLength (.int .u8) (.int 7) := .int (by decide) (by decide)
    have hround : S.RoundTrips Hooks.empty .all (.int .u8) (.int 7) :=
      roundTrips_int (by decide) (by decide)
    intro hrefused
    have hnothing := ((hlist _ {} (hlen _).1 fun v hv => ?_).1.1 hrefused).1
    · have hzero := (writesNothing_iff_zeroWidth hwf hhooks (.int .u8) hseven hround).1 hnothing
      cases hzero
    · obtain rfl := List.eq_of_mem_replicate hv
      exact ⟨hseven, _, hround.writes {}⟩

end Layout

end WireSchema
