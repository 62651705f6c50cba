import WireSchema.Proofs.Wire.Packing
import WireSchema.Proofs.Wire.Readers

/-!
# Writing and taking one value after another

What is written for several values is what is written for each, one after another, and from there
they are read again one after another, whatever follows.
-/

namespace WireSchema

/-! ## Writing -/

namespace Write

/-- Writing succeeds and appends these bytes. -/
def Appends (write : Write) (bs : List UInt8) : Prop := ∀ s, write s = .ok (s.append bs)

theorem appends_foldlM {α : Type} (write : α → Write) {bytes : α → List UInt8} {as : List α}
    (h : ∀ a ∈ as, (write a).Appends (bytes a)) :
    Appends (fun s => as.foldlM (fun s a => write a s) s) (as.flatMap bytes) := by
  induction as with
  | nil =>
    intro s
    rw [List.flatMap_nil, Sink.append_nil]
    rfl
  | cons a as ih =>
    intro s
    have hrest := ih fun b hb => h b (.tail _ hb)
    dsimp only
    rw [List.foldlM_cons, h a (.head _) s, List.flatMap_cons, ← Sink.append_append]
    exact hrest _

theorem appends_all {write : Value → Write} {bytes : Value → List UInt8} {vs : List Value}
    (h : ∀ v ∈ vs, (write v).Appends (bytes v)) : (all write vs).Appends (vs.flatMap bytes) :=
  appends_foldlM _ h

theorem appends_writeCount {n : Nat} (h : n ≤ maxLength) :
    (writeCount n).Appends (countBytes n) := by
  intro s
  simp only [writeCount, encode?_count h]
  rfl

end Write

theorem Field.appends_encodeEach {O : Objects} {field? : String → Option Value}
    {bytes : Field → List UInt8} {fields : List Field}
    (h : ∀ f ∈ fields, Write.Appends (f.encode O field?) (bytes f)) :
    Write.Appends (Field.encodeEach O field? fields) (fields.flatMap bytes) :=
  Write.appends_foldlM _ h

@[simp] theorem Sink.size_append (s : Sink) (bs : List UInt8) :
    (s.append bs).bytes.size = s.bytes.size + bs.length := by
  simp [append, ← Array.length_toList]

/-! ## Reading -/

namespace Read

variable {α β : Type}

/-- Whatever follows `front`, the reader takes it and finds `a`. -/
def Takes (read : Read α) (front : List UInt8) (a : α) : Prop :=
  ∀ (s : Source) (rest : List UInt8), s.bytes = front ++ rest →
    read s = .ok (a, { s with bytes := rest })

theorem takes_lift {read : BytesReader α} {front : List UInt8} {a : α}
    (h : read.Takes front a) : (lift read).Takes front a := by
  intro s rest hs
  rw [lift, hs, h rest]

theorem Takes.bind {read : Read α} {front back : List UInt8} {a : α} {b : β}
    (h : read.Takes front a) (next : α → Read β) (hnext : (next a).Takes back b) :
    Takes (fun s => read s >>= fun p => next p.1 p.2) (front ++ back) b := by
  intro s rest hs
  rw [List.append_assoc] at hs
  dsimp only
  rw [h s _ hs]
  exact hnext _ rest rfl

theorem takes_pure (a : α) : Takes (fun s => .ok (a, s)) [] a := by
  intro s rest hs
  rw [List.nil_append] at hs
  rw [← hs]

theorem Takes.map {read : Read α} {front : List UInt8} {a : α} (h : read.Takes front a)
    (f : α → β) : Takes (fun s => read s >>= fun p => .ok (f p.1, p.2)) front (f a) := by
  have hbind := h.bind (fun a s => .ok (f a, s)) (takes_pure (f a))
  rwa [List.append_nil] at hbind

theorem Takes.timesOnto {read : Read β} {bytes : α → List UInt8} {f : α → β} {as : List α}
    (h : ∀ a ∈ as, read.Takes (bytes a) (f a)) (bs : List β) :
    (timesOnto read as.length bs).Takes (as.flatMap bytes) (bs.reverse ++ as.map f) := by
  induction as generalizing bs with
  | nil =>
    intro s rest hs
    rw [List.flatMap_nil, List.nil_append] at hs
    rw [List.map_nil, List.append_nil, ← hs]
    rfl
  | cons a as ih =>
    intro s rest hs
    rw [List.flatMap_cons, List.append_assoc] at hs
    have hrest := ih (fun b hb => h b (.tail _ hb)) (f a :: bs)
    rw [List.length_cons, Read.timesOnto, h a (.head _) s _ hs]
    dsimp only
    rw [hrest _ rest rfl, List.reverse_cons, List.append_assoc]
    rfl

theorem Takes.times {read : Read β} {bytes : α → List UInt8} {f : α → β} {as : List α}
    (h : ∀ a ∈ as, read.Takes (bytes a) (f a)) :
    (times read as.length).Takes (as.flatMap bytes) (as.map f) :=
  Takes.timesOnto h []

/-- What has been read is extended by one item after another. -/
theorem Takes.iterate {step : β → Read β} {bytes : α → List UInt8} (read : List α → β)
    (before : List α) {as : List α}
    (h : ∀ pre a, (∃ post, before ++ as = pre ++ a :: post) →
      (step (read pre)).Takes (bytes a) (read (pre ++ [a]))) :
    (iterate step as.length (read before)).Takes (as.flatMap bytes) (read (before ++ as)) := by
  induction as generalizing before with
  | nil =>
    intro s rest hs
    rw [List.flatMap_nil, List.nil_append] at hs
    rw [List.append_nil, ← hs]
    rfl
  | cons a as ih =>
    intro s rest hs
    rw [List.flatMap_cons, List.append_assoc] at hs
    have hsplit : before ++ a :: as = before ++ [a] ++ as := by simp
    have hrest := ih (before ++ [a]) fun pre b hb => h pre b (hsplit ▸ hb)
    rw [List.length_cons, Read.iterate, h before a ⟨as, rfl⟩ s _ hs]
    dsimp only
    rw [hrest _ rest rfl, hsplit]

/-- A count is not found too large if what follows is long enough. -/
theorem Takes.count {read : Read α} {front : List UInt8} {a : α} (h : read.Takes front a)
    {count allowance : Nat} (hcount : count ≤ front.length + allowance) (f : Fault) :
    Takes (fun s => if exceeds count allowance s.bytes then .error ⟨f, s.log⟩ else read s)
      front a := by
  intro s rest hs
  have hnot : ¬ exceeds count allowance s.bytes = true := by
    rw [exceeds_iff, hs, List.length_append]
    omega
  dsimp only
  rw [if_neg hnot]
  exact h s rest hs

end Read

/-! ## Codecs -/

namespace Codec

theorem takes_optional_none (c : Codec) (D : String → Read Value) :
    ((optional c).decode D).Takes [0] .none := by
  intro s rest hs
  simp only [decode, Read.takes_lift (takes_readBool [0] rfl) s rest hs]
  rfl

theorem takes_optional_some {c : Codec} {D : String → Read Value} {bs : List UInt8} {v : Value}
    (h : (c.decode D).Takes bs v) : ((optional c).decode D).Takes (1 :: bs) v := by
  intro s rest hs
  simp only [decode, Read.takes_lift (takes_readBool [1] rfl) s (bs ++ rest) hs]
  exact h _ rest rfl

theorem takes_list {c : Codec} {D : String → Read Value} {n : Nat} {bs : List UInt8}
    {vs : List Value} (hn : n ≤ maxLength) (h : (Read.times (c.decode D) n).Takes bs vs)
    (hcount : n ≤ bs.length + maxEmptyItems) :
    ((list c).decode D).Takes (countBytes n ++ bs) (.list vs) :=
  (Read.takes_lift (takes_readCount hn)).bind (fun n s =>
    if exceeds n maxEmptyItems s.bytes then .error ⟨.countTooLarge (list c).name n, s.log⟩
    else Read.times (c.decode D) n s >>= fun p => .ok (Value.list p.1, p.2))
    ((h.map Value.list).count hcount _)

/-- One more entry of a map is read. -/
def readEntry (k c : Codec) (D : String → Read Value) (entries : List (Value × Value)) :
    Read (List (Value × Value)) := fun s => do
  let (key, s) ← k.decode D s
  let (value, s) ← c.decode D s
  if key.isKey then return (Value.insertEntry key value entries, s)
  else .error ⟨.wrongKind, s.log⟩

theorem takes_readEntry {k c : Codec} {D : String → Read Value} {front back : List UInt8}
    {key value : Value} (hk : (k.decode D).Takes front key) (hc : (c.decode D).Takes back value)
    (hkey : key.isKey = true) (entries : List (Value × Value)) :
    (readEntry k c D entries).Takes (front ++ back) (Value.insertEntry key value entries) := by
  intro s rest hs
  rw [List.append_assoc] at hs
  simp only [readEntry, hk s _ hs]
  change (c.decode D _ >>= _) = _
  rw [hc _ rest rfl]
  change (if _ then _ else _) = _
  rw [if_pos hkey]
  rfl

theorem takes_map {k c : Codec} {D : String → Read Value} {n : Nat} {bs : List UInt8}
    {es : List (Value × Value)} (hn : n ≤ maxLength)
    (h : (Read.iterate (readEntry k c D) n []).Takes bs es) (hcount : n ≤ bs.length) :
    ((map k c).decode D).Takes (countBytes n ++ bs) (.map es) :=
  (Read.takes_lift (takes_readCount hn)).bind (fun n s =>
    if exceeds n 0 s.bytes then .error ⟨.countTooLarge (map k c).name n, s.log⟩
    else Read.iterate (readEntry k c D) n [] s >>= fun p => .ok (Value.map p.1, p.2))
    ((h.map Value.map).count hcount _)

end Codec

/-! ## Fields -/

theorem Field.takes_decodeEach {declared : String → Read Value} {bytes : Field → List UInt8}
    {g : Field → Value} {fields : List Field}
    (h : ∀ f ∈ fields, (f.codec.decode declared).Takes (bytes f) (g f)) :
    (Field.decodeEach declared fields).Takes (fields.flatMap bytes)
      (fields.map fun f => (f.ident, g f)) := by
  induction fields with
  | nil => exact Read.takes_pure []
  | cons f fs ih =>
    have hrest := ih fun f' hf' => h f' (.tail _ hf')
    rw [List.flatMap_cons]
    exact (h f (.head _)).bind (fun v s => decodeEach declared fs s >>= fun p =>
      .ok ((f.ident, v) :: p.1, p.2)) (hrest.map _)

/-- Fields are taken in segments as each on its own. -/
theorem Field.takes_decodeAll {declared : String → Read Value} {fields : List Field}
    {front : List UInt8} {read : List (String × Value)}
    (h : (Field.decodeEach declared fields).Takes front read) :
    (Segment.decodeAll declared (Segment.ofFields fields)).Takes front read :=
  fun s rest hs => Field.decodeAll_eq_ok_iff.2 (h s rest hs)

theorem Field.appends_encodeAll {O : Objects} {field? : String → Option Value}
    {fields : List Field} (hfields : ∀ f ∈ fields, (field? f.ident).isSome) {bs : List UInt8}
    (h : Write.Appends (Field.encodeEach O field? fields) bs) :
    Write.Appends (Segment.encodeAll O field? (Segment.ofFields fields)) bs :=
  fun s => (Field.encodeAll_eq_ok_iff hfields).2 (h s)

end WireSchema
