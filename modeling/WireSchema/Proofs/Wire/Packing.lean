import Mathlib.Data.List.Chain
import Mathlib.Data.List.DropRight
import WireSchema.Proofs.Wire.Slot
import WireSchema.Wire.Declared

/-!
# Packing does not show

Fields are written and read in segments, each longest run of fields of fixed width at once. The main
statement says that this comes to the same as writing and reading each field by its own codec. It
goes by the fields from the last to the first: a field that joins a run in front of the others is
packed exactly if it can be written on its own, and its bytes come before those of the run.

The kind of a fault is where it shows. A value that is no number is refused by a format, and by a
codec as well, unless it is an object that has a field or variant of the name by which numbers are
asked for their bytes: then the codec asks it, and what answers is of the wrong kind. And a format
shows the values of the whole run in its message where a codec shows its own, so a number that has
too many digits to be shown decides the fault of its neighbours.
-/

namespace WireSchema

/-! ## Runs -/

namespace Sink

@[simp] theorem append_nil (s : Sink) : s.append [] = s := by
  simp [append]

theorem append_append (s : Sink) (bs cs : List UInt8) :
    (s.append bs).append cs = s.append (bs ++ cs) := by
  simp [append, ← Array.toList_inj]

end Sink

namespace Segment

variable {field : String} {c : Codec} {slot : Slot} {gs : List Segment}

theorem cons_of_slot?_eq_none (h : c.slot? = none) : cons field c gs = single field c :: gs := by
  rw [cons, h]

/-- A field with a slot opens a run, or joins the one in front of the segments. -/
theorem exists_cons_of_slot? (field : String) (h : c.slot? = some slot) (gs : List Segment) :
    ∃ fs rest, cons field c gs = packed ((field, slot) :: fs) :: rest ∧
      (gs = packed fs :: rest ∨ fs = [] ∧ gs = rest) := by
  rw [cons, h]
  rcases gs with _ | ⟨_ | _, rest⟩
  · exact ⟨[], [], rfl, .inr ⟨rfl, rfl⟩⟩
  · exact ⟨_, _, rfl, .inl rfl⟩
  · exact ⟨[], _, rfl, .inr ⟨rfl, rfl⟩⟩

/-- Whether a segment is a run. -/
def isPacked : Segment → Bool
  | packed _ => true
  | single _ _ => false

/-- The fields of a segment, each with its slot or else its codec. -/
def members : Segment → List (String × (Slot ⊕ Codec))
  | packed fields => fields.map fun f => (f.1, .inl f.2)
  | single field codec => [(field, .inr codec)]

end Segment

/-- How a field is written: in a slot, or else by its codec. -/
def Field.member (f : Field) : String × (Slot ⊕ Codec) :=
  (f.ident, match f.codec.slot? with
    | some slot => .inl slot
    | none => .inr f.codec)

namespace Segment

/-- The segments cover the fields in order, those with a slot in runs. -/
theorem flatMap_members_ofFields (fields : List Field) :
    (ofFields fields).flatMap members = fields.map Field.member := by
  induction fields with
  | nil => rfl
  | cons f fs ih =>
    rw [ofFields_cons, List.map_cons, ← ih, Field.member]
    cases h : f.codec.slot? with
    | none =>
      rw [cons_of_slot?_eq_none h]
      rfl
    | some slot =>
      obtain ⟨run, rest, hcons, hgs | ⟨rfl, hgs⟩⟩ := exists_cons_of_slot? f.ident h (ofFields fs)
      · rw [hcons, hgs]
        rfl
      · rw [hcons, hgs]
        rfl

/-- A field that is a segment of its own is one of the fields. -/
theorem exists_field_of_single {fields : List Field} {field : String} {c : Codec}
    (h : single field c ∈ ofFields fields) : ∃ f ∈ fields, f.ident = field ∧ f.codec = c := by
  have hmem : (field, .inr c) ∈ fields.map Field.member := by
    rw [← flatMap_members_ofFields]
    exact List.mem_flatMap.2 ⟨_, h, .head _⟩
  obtain ⟨f, hf, hmember⟩ := List.mem_map.1 hmem
  rw [Field.member] at hmember
  split at hmember
  next => cases hmember
  next =>
    cases hmember
    exact ⟨f, hf, rfl, rfl⟩

/-- No run can be prolonged by the next one. -/
theorem isChain_ofFields (fields : List Field) :
    (ofFields fields).IsChain fun g g' => ¬ (g.isPacked ∧ g'.isPacked) := by
  induction fields with
  | nil => exact .nil
  | cons f fs ih =>
    rw [ofFields_cons]
    unfold cons
    split
    next slot _ =>
      split
      next run rest hgs =>
        rw [hgs] at ih
        cases ih with
        | singleton => exact .singleton _
        | cons_cons h hrest => exact .cons_cons h hrest
      next gs hgs =>
        cases hf : ofFields fs with
        | nil => exact .singleton _
        | cons g rest =>
          refine .cons_cons ?_ (hf ▸ ih)
          rintro ⟨-, hg⟩
          cases g with
          | packed run => exact hgs run rest hf
          | single field codec => cases hg
    next =>
      cases hf : ofFields fs with
      | nil => exact .singleton _
      | cons g rest =>
        refine .cons_cons ?_ (hf ▸ ih)
        rintro ⟨hs, -⟩
        cases hs

end Segment

/-! ## Writing -/

/-- What can be told of an attempt to write without the wording of its fault. -/
def Write.outcome (x : Except (Fault × Sink) Sink) : Except FaultKind Sink :=
  x.mapError fun e => e.1.kind

/-- The kind of the fault by which writing fails. -/
def Write.faultKind? : Except (Fault × Sink) Sink → Option FaultKind
  | .ok _ => none
  | .error (f, _) => some f.kind

theorem Write.outcome_eq_error_iff {x : Except (Fault × Sink) Sink} {k : FaultKind} :
    Write.outcome x = .error k ↔ Write.faultKind? x = some k := by
  cases x <;> simp [Write.outcome, Write.faultKind?, Except.mapError]

/-- The kind of a fault of values, whose message shows them. -/
def Value.refusal (vs : List Value) : FaultKind :=
  if areShowable vs then .value else .unfit

theorem Fault.kind_showing (vs : List Value) {f : Fault} (h : f.kind = .value) :
    (showing vs f).kind = Value.refusal vs := by
  rw [showing, Value.refusal]
  split
  · exact h
  · rfl

namespace Segment

variable (O : Objects) (field? : String → Option Value)

theorem encodeAll_cons (g : Segment) (gs : List Segment) (s : Sink) :
    encodeAll O field? (g :: gs) s = (g.encode O field? s).bind (encodeAll O field? gs) := rfl

theorem encodeAll_append (gs hs : List Segment) (s : Sink) :
    encodeAll O field? (gs ++ hs) s = (encodeAll O field? gs s).bind (encodeAll O field? hs) :=
  List.foldlM_append

variable {field? : String → Option Value}

theorem exists_mapM_field? {names : List String} (h : ∀ i ∈ names, (field? i).isSome) :
    ∃ vs, names.mapM field? = some vs := by
  induction names with
  | nil => exact ⟨[], rfl⟩
  | cons i names ih =>
    obtain ⟨v, hv⟩ := Option.isSome_iff_exists.1 (h i (.head _))
    obtain ⟨vs, hvs⟩ := ih fun j hj => h j (.tail _ hj)
    exact ⟨v :: vs, by simp [hv, hvs]⟩

theorem encode_packed {fs : List (String × Slot)} {vs : List Value}
    (h : (fs.map Prod.fst).mapM field? = some vs) (s : Sink) :
    (packed fs).encode O field? s =
      Write.ofExcept (Format.pack (fs.map Prod.snd) vs) s := by
  have hpacked : (fs.mapM fun f => field? f.1) = some vs := by
    rw [← h, List.mapM_map]
    rfl
  rw [encode, hpacked]

/-- A run is packed as a whole. -/
theorem encodeAll_packed_some {fs : List (String × Slot)} {vs : List Value} {bs : List UInt8}
    (h : (fs.map Prod.fst).mapM field? = some vs)
    (hbs : Format.packAll? (fs.map Prod.snd) vs = some bs) (gs : List Segment) (s : Sink) :
    encodeAll O field? (packed fs :: gs) s = encodeAll O field? gs (s.append bs) := by
  rw [encodeAll_cons, encode_packed O h, Format.pack, hbs]
  rfl

/-- Of a run with a value that does not fill its slot, nothing is written. -/
theorem encodeAll_packed_none {fs : List (String × Slot)} {vs : List Value}
    (h : (fs.map Prod.fst).mapM field? = some vs)
    (hbs : Format.packAll? (fs.map Prod.snd) vs = none) (gs : List Segment) (s : Sink) :
    encodeAll O field? (packed fs :: gs) s =
      .error (.showing vs (.notPackable vs (Format.text (fs.map Prod.snd))), s) := by
  rw [encodeAll_cons, encode_packed O h, Format.pack, hbs]
  rfl

/-- A run without fields leaves everything as it is. -/
theorem encodeAll_of_run {fs : List (String × Slot)} {gs rest : List Segment}
    (h : gs = packed fs :: rest ∨ fs = [] ∧ gs = rest) (s : Sink) :
    encodeAll O field? gs s = encodeAll O field? (packed fs :: rest) s := by
  obtain rfl | ⟨rfl, rfl⟩ := h
  · rfl
  · have hnone : Format.packAll? (([] : List (String × Slot)).map Prod.snd) [] = some [] := rfl
    rw [encodeAll_packed_some O rfl hnone, Sink.append_nil]

variable {field : String} {c : Codec} {slot : Slot} {gs : List Segment} {w : Value}

/-- A field with a slot in front of segments: the run it is in, and the values of the others
there. -/
theorem exists_run (field : String) (hc : c.slot? = some slot)
    (h : ∀ i ∈ gs.flatMap idents, (field? i).isSome) :
    ∃ fs rest vs, cons field c gs = packed ((field, slot) :: fs) :: rest ∧
      (fs.map Prod.fst).mapM field? = some vs ∧
      ∀ s, encodeAll O field? gs s = encodeAll O field? (packed fs :: rest) s := by
  obtain ⟨fs, rest, hcons, hrun⟩ := exists_cons_of_slot? field hc gs
  have hfs : ∀ i ∈ fs.map Prod.fst, (field? i).isSome := by
    intro i hi
    obtain rfl | ⟨rfl, -⟩ := hrun
    · exact h i (List.mem_flatMap.2 ⟨_, .head _, hi⟩)
    · cases hi
  obtain ⟨vs, hvs⟩ := exists_mapM_field? hfs
  exact ⟨fs, rest, vs, hcons, hvs, encodeAll_of_run O hrun⟩

/-- A field whose slot is filled is written in front of the others. -/
theorem encodeAll_cons_some (hc : c.slot? = some slot) (hw : field? field = some w)
    {bs : List UInt8} (hbs : slot.pack? w = some bs)
    (h : ∀ i ∈ gs.flatMap idents, (field? i).isSome) (s t : Sink) :
    encodeAll O field? (cons field c gs) s = .ok t ↔
      encodeAll O field? gs (s.append bs) = .ok t := by
  obtain ⟨fs, rest, vs, hcons, hvs, hrun⟩ := exists_run O field hc h
  have hall : (((field, slot) :: fs).map Prod.fst).mapM field? = some (w :: vs) := by
    simp [hw, hvs]
  rw [hcons, hrun]
  cases hrest : Format.packAll? (fs.map Prod.snd) vs with
  | none =>
    have hpack : Format.packAll? (((field, slot) :: fs).map Prod.snd) (w :: vs) = none := by
      rw [List.map_cons, Format.packAll?_cons_some hbs, hrest, Option.map_none]
    rw [encodeAll_packed_none O hvs hrest, encodeAll_packed_none O hall hpack]
    exact ⟨nofun, nofun⟩
  | some more =>
    have hpack : Format.packAll? (((field, slot) :: fs).map Prod.snd) (w :: vs) =
        some (bs ++ more) := by
      rw [List.map_cons, Format.packAll?_cons_some hbs, hrest, Option.map_some]
    rw [encodeAll_packed_some O hvs hrest, Sink.append_append, encodeAll_packed_some O hall hpack]

/-- A field whose slot is not filled has nothing of its run written. -/
theorem encodeAll_cons_none (hc : c.slot? = some slot) (hw : field? field = some w)
    (hbs : slot.pack? w = none) (h : ∀ i ∈ gs.flatMap idents, (field? i).isSome) (s t : Sink) :
    encodeAll O field? (cons field c gs) s ≠ .ok t := by
  obtain ⟨fs, rest, vs, hcons, hvs, -⟩ := exists_run O field hc h
  have hall : (((field, slot) :: fs).map Prod.fst).mapM field? = some (w :: vs) := by
    simp [hw, hvs]
  rw [hcons, encodeAll_packed_none O hall]
  · nofun
  · rw [List.map_cons, Format.packAll?_cons_none hbs]

end Segment

namespace Field

variable (O : Objects) (field? : String → Option Value)

theorem encodeEach_cons (f : Field) (fs : List Field) (s : Sink) :
    encodeEach O field? (f :: fs) s = (f.encode O field? s).bind (encodeEach O field? fs) := rfl

theorem encodeEach_append (fs gs : List Field) (s : Sink) :
    encodeEach O field? (fs ++ gs) s = (encodeEach O field? fs s).bind (encodeEach O field? gs) :=
  List.foldlM_append

variable {O} {field?}

theorem encode_of_slot? {f : Field} {slot : Slot} {w : Value} (hc : f.codec.slot? = some slot)
    (hw : field? f.ident = some w) (hbs : slot.pack? w = none) (s : Sink) :
    f.encode O field? s =
      .error (if O.knows w numberRequest then .wrongKind
        else .showing [w] (.notRepresentable w f.codec.name), s) := by
  rw [encode, hw]
  exact (Codec.encode_of_pack?_eq_none hc hbs O s).2

/-- Fields can be written in segments exactly if each can be on its own, and as the same bytes. -/
theorem encodeAll_eq_ok_iff {fields : List Field} (h : ∀ f ∈ fields, (field? f.ident).isSome)
    {s t : Sink} :
    Segment.encodeAll O field? (Segment.ofFields fields) s = .ok t ↔
      encodeEach O field? fields s = .ok t := by
  induction fields generalizing s with
  | nil => rfl
  | cons f fs ih =>
    obtain ⟨w, hw⟩ := Option.isSome_iff_exists.1 (h f (.head _))
    have hfs : ∀ f ∈ fs, (field? f.ident).isSome := fun g hg => h g (.tail _ hg)
    have hidents : ∀ i ∈ (Segment.ofFields fs).flatMap Segment.idents, (field? i).isSome := by
      intro i hi
      rw [Segment.flatMap_idents_ofFields] at hi
      obtain ⟨g, hg, rfl⟩ := List.mem_map.1 hi
      exact hfs g hg
    have hencode : f.encode O field? s = f.codec.encode O w s := by rw [encode, hw]
    rw [Segment.ofFields_cons, encodeEach_cons]
    cases hc : f.codec.slot? with
    | none =>
      have hsingle : (Segment.single f.ident f.codec).encode O field? s = f.encode O field? s := by
        rw [hencode, Segment.encode, hw]
      rw [Segment.cons_of_slot?_eq_none hc, Segment.encodeAll_cons, hsingle]
      cases f.encode O field? s with
      | error e => exact ⟨nofun, nofun⟩
      | ok u => exact ih hfs
    | some slot =>
      cases hbs : slot.pack? w with
      | some bs =>
        rw [Segment.encodeAll_cons_some O hc hw hbs hidents, ih hfs, hencode,
          Codec.encode_of_pack? hc hbs]
        rfl
      | none =>
        rw [encode_of_slot? hc hw hbs]
        exact ⟨fun hok => absurd hok (Segment.encodeAll_cons_none O hc hw hbs hidents s t), nofun⟩

end Field

/-! ## The run of a field -/

/-- Whether a field can be packed with its neighbours. -/
def Field.isSlotted (f : Field) : Bool := f.codec.slot?.isSome

/-- The longest run of fields that can be packed together and in which a field stands. -/
def Field.runAround (before : List Field) (f : Field) (after : List Field) : List Field :=
  before.rtakeWhile isSlotted ++ f :: after.takeWhile isSlotted

namespace Segment

theorem cons_append_single (field : String) (c : Codec) (gs hs : List Segment) (name : String)
    (d : Codec) :
    cons field c (gs ++ single name d :: hs) = cons field c gs ++ single name d :: hs := by
  cases hc : c.slot? with
  | none => simp only [cons, hc, List.cons_append]
  | some slot =>
    rcases gs with _ | ⟨_ | _, gs⟩ <;> simp only [cons, hc, List.nil_append, List.cons_append]

/-- A field without a slot parts the segments. -/
theorem ofFields_append_cons {f : Field} (hf : f.codec.slot? = none) (before after : List Field) :
    ofFields (before ++ f :: after) =
      ofFields before ++ single f.ident f.codec :: ofFields after := by
  induction before with
  | nil => exact cons_of_slot?_eq_none hf
  | cons g before ih =>
    rw [List.cons_append, ofFields_cons, ih, cons_append_single, ofFields_cons]

/-- Segments end where a run would begin. -/
theorem ofFields_append_rdropWhile (before fs : List Field) :
    ofFields (before.rdropWhile Field.isSlotted ++ fs) =
      ofFields (before.rdropWhile Field.isSlotted) ++ ofFields fs := by
  induction before using List.reverseRecOn with
  | nil => rfl
  | append_singleton before f ih =>
    by_cases hf : f.isSlotted = true
    · rw [List.rdropWhile_concat_pos _ _ _ hf]
      exact ih
    · have hnone : f.codec.slot? = none := by
        rw [Field.isSlotted, Option.not_isSome_iff_eq_none] at hf
        exact hf
      rw [List.rdropWhile_concat_neg _ _ _ hf, List.append_assoc, List.singleton_append,
        ofFields_append_cons hnone, ofFields_append_cons hnone, List.append_assoc]
      rfl

/-- Fields with slots are one run, where no such field follows. -/
theorem exists_run_of_isSlotted {f : Field} {run back : List Field}
    (hrun : ∀ g ∈ f :: run, g.isSlotted = true) (hback : back.dropWhile Field.isSlotted = back) :
    ∃ fs, ofFields (f :: run ++ back) = packed fs :: ofFields back ∧
      fs.map Prod.fst = (f :: run).map Field.ident ∧
      ∀ g ∈ f :: run, ∀ slot, g.codec.slot? = some slot → (g.ident, slot) ∈ fs := by
  induction run generalizing f with
  | nil =>
    obtain ⟨slot, hslot⟩ := Option.isSome_iff_exists.1 (hrun f (.head _))
    refine ⟨[(f.ident, slot)], ?_, rfl, ?_⟩
    · rw [List.singleton_append, ofFields_cons, cons, hslot]
      cases back with
      | nil => rfl
      | cons g back =>
        have hg : g.codec.slot? = none := by
          by_contra hsome
          have hslotted : g.isSlotted = true := Option.isSome_iff_ne_none.2 hsome
          rw [List.dropWhile_cons_of_pos hslotted] at hback
          have hlen := List.length_dropWhile_le Field.isSlotted back
          rw [hback, List.length_cons] at hlen
          omega
        rw [ofFields_cons, cons_of_slot?_eq_none hg]
    · intro g hg slot' hslot'
      rw [List.mem_singleton.1 hg] at hslot' ⊢
      rw [Option.some.inj (hslot.symm.trans hslot')]
      exact .head _
  | cons g run ih =>
    obtain ⟨slot, hslot⟩ := Option.isSome_iff_exists.1 (hrun f (.head _))
    obtain ⟨fs, hfs, hnames, hmem⟩ := ih fun h hh => hrun h (.tail _ hh)
    refine ⟨(f.ident, slot) :: fs, ?_, ?_, fun h hh slot' hslot' => ?_⟩
    · rw [List.cons_append, ofFields_cons, hfs, cons, hslot]
    · rw [List.map_cons, hnames]
      rfl
    · obtain rfl | hh := List.mem_cons.1 hh
      · rw [Option.some.inj (hslot.symm.trans hslot')]
        exact .head _
      · exact .tail _ (hmem h hh slot' hslot')

/-- The segments around a field with a slot: its run is one of them. -/
theorem exists_run_of_slot? {f : Field} {slot : Slot} (hf : f.codec.slot? = some slot)
    (before after : List Field) :
    ∃ fs, ofFields (before ++ f :: after) =
        ofFields (before.rdropWhile Field.isSlotted) ++
          packed fs :: ofFields (after.dropWhile Field.isSlotted) ∧
      fs.map Prod.fst = (Field.runAround before f after).map Field.ident ∧
      (f.ident, slot) ∈ fs := by
  have hmid : f ∈ Field.runAround before f after :=
    List.mem_append.2 (.inr (.head _))
  have hslotted : ∀ g ∈ Field.runAround before f after, g.isSlotted = true := by
    intro g hg
    obtain hg | hg := List.mem_append.1 hg
    · exact List.mem_rtakeWhile_imp hg
    · obtain rfl | hg := List.mem_cons.1 hg
      · exact Option.isSome_iff_exists.2 ⟨slot, hf⟩
      · exact List.mem_takeWhile_imp hg
  have hparts : before ++ f :: after = before.rdropWhile Field.isSlotted ++
      (Field.runAround before f after ++ after.dropWhile Field.isSlotted) := by
    rw [Field.runAround, List.append_assoc, ← List.append_assoc, List.rdropWhile_append_rtakeWhile,
      List.cons_append, List.takeWhile_append_dropWhile]
  rw [hparts, ofFields_append_rdropWhile]
  cases hcons : Field.runAround before f after with
  | nil =>
    rw [hcons] at hmid
    cases hmid
  | cons g run =>
    rw [hcons] at hslotted hmid
    obtain ⟨fs, hfs, hnames, hmem⟩ :=
      exists_run_of_isSlotted hslotted (List.dropWhile_idempotent Field.isSlotted after)
    exact ⟨fs, by rw [hfs], hnames, hmem f hmid slot hf⟩

end Segment

namespace Format

/-- A slot that is not filled stands in the way of its whole format. -/
theorem packAll?_eq_none_of_mem {field? : String → Option Value} {fs : List (String × Slot)}
    {vs : List Value} (hvs : (fs.map Prod.fst).mapM field? = some vs) {i : String} {slot : Slot}
    (hmem : (i, slot) ∈ fs) {w : Value} (hw : field? i = some w) (hbs : slot.pack? w = none) :
    packAll? (fs.map Prod.snd) vs = none := by
  induction fs generalizing vs with
  | nil => cases hmem
  | cons g fs ih =>
    rw [List.map_cons, List.mapM_cons] at hvs
    obtain ⟨v, hv, hvs⟩ := Option.bind_eq_some_iff.1 hvs
    obtain ⟨rest, hrest, hvs⟩ := Option.bind_eq_some_iff.1 hvs
    cases hvs
    rw [List.map_cons]
    cases hmem with
    | head =>
      rw [hw] at hv
      cases hv
      exact packAll?_cons_none hbs
    | tail _ hmem =>
      cases hg : g.2.pack? v with
      | none => exact packAll?_cons_none hg
      | some bs => rw [packAll?_cons_some hg, ih hrest hmem, Option.map_none]

end Format

/-! ## The kind of a fault -/

namespace Field

variable (O : Objects) (field? : String → Option Value)

/-- The first of the fields that cannot be written on its own is one with a slot: the value that does
not fill it, and the values of its run. -/
def Refused (fields : List Field) (s : Sink) (w : Value) (vs : List Value) : Prop :=
  ∃ before f after t slot, fields = before ++ f :: after ∧
    encodeEach O field? before s = .ok t ∧ f.codec.slot? = some slot ∧
      field? f.ident = some w ∧ slot.pack? w = none ∧
        ((runAround before f after).map ident).mapM field? = some vs

variable {O} {field?} {fields : List Field} {s : Sink}

/-- Writing each field on its own stops at the first one that cannot be written. -/
theorem exists_of_encodeEach_error {e : Fault × Sink} (h : encodeEach O field? fields s = .error e) :
    ∃ before f after t, fields = before ++ f :: after ∧ encodeEach O field? before s = .ok t ∧
      f.encode O field? t = .error e := by
  induction fields generalizing s with
  | nil => cases h
  | cons f fs ih =>
    rw [encodeEach_cons] at h
    cases hf : f.encode O field? s with
    | error e' =>
      rw [hf] at h
      cases h
      exact ⟨[], f, fs, s, rfl, rfl, hf⟩
    | ok u =>
      rw [hf] at h
      obtain ⟨before, g, after, t, rfl, ht, hg⟩ := ih h
      refine ⟨f :: before, g, after, t, rfl, ?_, hg⟩
      rw [encodeEach_cons, hf]
      exact ht

/-- Writing fails where a slot is not filled: on its own by the value that is to fill it, and in
segments by all the values of the run. -/
theorem outcome_of_refused (h : ∀ f ∈ fields, (field? f.ident).isSome) {w : Value}
    {vs : List Value} (hrefused : Refused O field? fields s w vs) :
    Write.outcome (Segment.encodeAll O field? (Segment.ofFields fields) s) =
        .error (Value.refusal vs) ∧
      Write.outcome (encodeEach O field? fields s) =
        .error (if O.knows w numberRequest then .wrongKind else Value.refusal [w]) := by
  obtain ⟨before, f, after, t, slot, rfl, ht, hc, hw, hbs, hvs⟩ := hrefused
  constructor
  · obtain ⟨fs, hsegments, hnames, hmem⟩ := Segment.exists_run_of_slot? hc before after
    rw [← hnames] at hvs
    -- what stands before the run is written, for it is written on its own
    obtain ⟨u, hu⟩ : ∃ u, encodeEach O field? (before.rdropWhile isSlotted) s = .ok u := by
      have hparts : before.rdropWhile isSlotted ++ before.rtakeWhile isSlotted = before :=
        List.rdropWhile_append_rtakeWhile
      rw [← hparts, encodeEach_append] at ht
      cases hu : encodeEach O field? (before.rdropWhile isSlotted) s with
      | ok u => exact ⟨u, rfl⟩
      | error e =>
        rw [hu] at ht
        cases ht
    have hfront : ∀ g ∈ before.rdropWhile isSlotted, (field? g.ident).isSome := fun g hg =>
      h g (List.mem_append_left _ ((List.rdropWhile_prefix _ _).subset hg))
    rw [hsegments, Segment.encodeAll_append, (encodeAll_eq_ok_iff hfront).2 hu]
    change Write.outcome (Segment.encodeAll O field? (.packed fs :: _) u) = _
    rw [Segment.encodeAll_packed_none O hvs (Format.packAll?_eq_none_of_mem hvs hmem hw hbs)]
    exact congrArg Except.error (Fault.kind_showing vs rfl)
  · rw [encodeEach_append, ht]
    change Write.outcome (encodeEach O field? (f :: after) t) = _
    rw [encodeEach_cons, encode_of_slot? hc hw hbs]
    change Except.error (Fault.kind (if _ then _ else _)) = _
    split
    · rfl
    · exact congrArg Except.error (Fault.kind_showing [w] rfl)

/-- Everywhere else writing comes to the same. -/
theorem outcome_of_not_refused (h : ∀ f ∈ fields, (field? f.ident).isSome)
    (hnot : ∀ w vs, ¬ Refused O field? fields s w vs) :
    Write.outcome (Segment.encodeAll O field? (Segment.ofFields fields) s) =
      Write.outcome (encodeEach O field? fields s) := by
  cases hx : encodeEach O field? fields s with
  | ok t => rw [(encodeAll_eq_ok_iff h).2 hx]
  | error e =>
    obtain ⟨before, f, after, t, rfl, ht, hf⟩ := exists_of_encodeEach_error hx
    obtain ⟨w, hw⟩ := Option.isSome_iff_exists.1 (h f (List.mem_append.2 (.inr (.head _))))
    have hencode : f.encode O field? t = f.codec.encode O w t := by rw [encode, hw]
    cases hc : f.codec.slot? with
    | none =>
      have hfront : ∀ g ∈ before, (field? g.ident).isSome := fun g hg =>
        h g (List.mem_append_left _ hg)
      have hsingle : (Segment.single f.ident f.codec).encode O field? t = .error e := by
        rw [Segment.encode, hw, ← hf, hencode]
      rw [Segment.ofFields_append_cons hc, Segment.encodeAll_append,
        (encodeAll_eq_ok_iff hfront).2 ht]
      change Write.outcome (Segment.encodeAll O field? (.single _ _ :: _) t) = _
      rw [Segment.encodeAll_cons, hsingle]
      rfl
    | some slot =>
      cases hbs : slot.pack? w with
      | some bs =>
        rw [hencode, Codec.encode_of_pack? hc hbs] at hf
        cases hf
      | none =>
        have hrun : ∀ i ∈ (runAround before f after).map ident, (field? i).isSome := by
          intro i hi
          obtain ⟨g, hg, rfl⟩ := List.mem_map.1 hi
          refine h g ?_
          obtain hg | hg := List.mem_append.1 hg
          · exact List.mem_append_left _ ((List.rtakeWhile_suffix _ _).subset hg)
          · refine List.mem_append_right _ ?_
            obtain rfl | hg := List.mem_cons.1 hg
            · exact .head _
            · exact .tail _ ((List.takeWhile_prefix _).subset hg)
        obtain ⟨vs, hvs⟩ := Segment.exists_mapM_field? hrun
        exact absurd ⟨before, f, after, t, slot, rfl, ht, hc, hw, hbs, hvs⟩ (hnot w vs)

end Field

/-! ## Reading -/

/-- What can be told of an attempt to read without the wording of its fault. -/
def Read.outcome {α : Type} (x : Except Halt α) : Except (FaultKind × List Event) α :=
  x.mapError fun h => (h.fault.kind, h.log)

theorem Read.outcome_eq_ok_iff {α : Type} {x : Except Halt α} {a : α} :
    Read.outcome x = .ok a ↔ x = .ok a := by
  cases x <;> simp [Read.outcome, Except.mapError]

theorem Read.outcome_bind {α β : Type} {x y : Except Halt α} {f g : α → Except Halt β}
    (h : Read.outcome x = Read.outcome y) (hfg : ∀ a, Read.outcome (f a) = Read.outcome (g a)) :
    Read.outcome (x.bind f) = Read.outcome (y.bind g) := by
  cases x with
  | ok a =>
    rw [Read.outcome_eq_ok_iff.1 h.symm]
    exact hfg a
  | error e =>
    cases y with
    | ok a => cases h
    | error e' =>
      simp only [outcome, Except.mapError, Except.error.injEq] at h
      simp only [outcome, Except.bind, Except.mapError, h]

namespace Segment

variable (declared : String → Read Value)

/-- The values of a field and then of others. -/
def consRead (field : String) (x : Except Halt (Value × Source))
    (others : Read (List (String × Value))) : Except Halt (List (String × Value) × Source) :=
  x.bind fun (v, s) => (others s).bind fun (vs, s) => .ok ((field, v) :: vs, s)

theorem decodeAll_single (field : String) (c : Codec) (gs : List Segment) (s : Source) :
    decodeAll declared (single field c :: gs) s =
      consRead field (c.decode declared s) (decodeAll declared gs) := by
  simp only [decodeAll, decode, consRead]
  cases c.decode declared s <;> rfl

/-- A run is read as a whole. -/
theorem decodeAll_packed (fs : List (String × Slot)) (gs : List Segment) (s : Source) :
    decodeAll declared (packed fs :: gs) s =
      if s.bytes.length < Format.size (fs.map Prod.snd) then
        .error ⟨.shortInput (Format.text (fs.map Prod.snd)) (Format.size (fs.map Prod.snd))
          s.bytes.length, s.log⟩
      else
        (decodeAll declared gs
            { s with bytes := s.bytes.drop (Format.size (fs.map Prod.snd)) }).bind
          fun (vs, t) => .ok ((fs.map Prod.fst).zip (Format.unpackAll (fs.map Prod.snd)
            (s.bytes.take (Format.size (fs.map Prod.snd)))) ++ vs, t) := by
  simp only [decodeAll, decode, Read.lift, Format.unpack_size]
  by_cases h : s.bytes.length < Format.size (fs.map Prod.snd)
  · rw [if_pos h, if_pos h]
    rfl
  · rw [if_neg h, if_neg h]
    rfl

theorem decodeAll_of_run {fs : List (String × Slot)} {gs rest : List Segment}
    (h : gs = packed fs :: rest ∨ fs = [] ∧ gs = rest) (s : Source) :
    decodeAll declared gs s = decodeAll declared (packed fs :: rest) s := by
  obtain rfl | ⟨rfl, rfl⟩ := h
  · rfl
  · rw [decodeAll_packed]
    cases h : decodeAll declared gs s <;> simp [h, Except.bind]

variable {c : Codec} {slot : Slot}

/-- A field with a slot is read in front of the others. -/
theorem outcome_decodeAll_cons (field : String) (c : Codec) (gs : List Segment) (s : Source) :
    Read.outcome (decodeAll declared (cons field c gs) s) =
      Read.outcome (consRead field (c.decode declared s) (decodeAll declared gs)) := by
  cases hc : c.slot? with
  | none => rw [cons_of_slot?_eq_none hc, decodeAll_single]
  | some slot =>
    obtain ⟨fs, rest, hcons, hrun⟩ := exists_cons_of_slot? field hc gs
    have hsize : Format.size (((field, slot) :: fs).map Prod.snd) =
        slot.size + Format.size (fs.map Prod.snd) := rfl
    rw [hcons, decodeAll_packed, Codec.decode_of_slot? hc, hsize]
    by_cases hslot : s.bytes.length < slot.size
    · rw [if_pos hslot, if_pos (by omega)]
      rfl
    rw [if_neg hslot, consRead]
    change _ = Read.outcome ((decodeAll declared gs
      { s with bytes := s.bytes.drop slot.size }).bind _)
    rw [decodeAll_of_run declared hrun, decodeAll_packed]
    simp only [List.length_drop, List.drop_drop]
    by_cases hall : s.bytes.length < slot.size + Format.size (fs.map Prod.snd)
    · rw [if_pos hall, if_pos (by omega)]
      rfl
    rw [if_neg hall, if_neg (by omega)]
    have htake : Format.unpackAll (((field, slot) :: fs).map Prod.snd)
        (s.bytes.take (slot.size + Format.size (fs.map Prod.snd))) =
          slot.unpack (s.bytes.take slot.size) ::
            Format.unpackAll (fs.map Prod.snd)
              ((s.bytes.drop slot.size).take (Format.size (fs.map Prod.snd))) :=
      Format.unpackAll_cons_take slot (fs.map Prod.snd) s.bytes
    rw [htake]
    cases decodeAll declared rest
      { s with bytes := s.bytes.drop (slot.size + Format.size (fs.map Prod.snd)) } <;> rfl

end Segment

namespace Field

theorem decodeEach_cons (declared : String → Read Value) (f : Field) (fs : List Field)
    (s : Source) :
    decodeEach declared (f :: fs) s =
      Segment.consRead f.ident (f.codec.decode declared s) (decodeEach declared fs) := rfl

/-- Fields are read in segments as each on its own. -/
theorem outcome_decodeAll (declared : String → Read Value) (fields : List Field) (s : Source) :
    Read.outcome (Segment.decodeAll declared (Segment.ofFields fields) s) =
      Read.outcome (decodeEach declared fields s) := by
  induction fields generalizing s with
  | nil => rfl
  | cons f fs ih =>
    rw [Segment.ofFields_cons, Segment.outcome_decodeAll_cons, decodeEach_cons]
    exact Read.outcome_bind rfl fun r => Read.outcome_bind (ih r.2) fun _ => rfl

theorem decodeAll_eq_ok_iff {declared : String → Read Value} {fields : List Field} {s : Source}
    {r : List (String × Value) × Source} :
    Segment.decodeAll declared (Segment.ofFields fields) s = .ok r ↔
      decodeEach declared fields s = .ok r := by
  rw [← Read.outcome_eq_ok_iff, ← Read.outcome_eq_ok_iff, outcome_decodeAll]

/-- Packing does not show but in the kind of a fault. Fields written in segments and each on its own:
where a slot is not filled, it may be another value that decides how writing fails. -/
theorem segments_agree_with_fields (O : Objects) (field? : String → Option Value)
    (declared : String → Read Value) (fields : List Field)
    (h : ∀ f ∈ fields, (field? f.ident).isSome) :
    (∀ s t, Segment.encodeAll O field? (Segment.ofFields fields) s = .ok t ↔
      encodeEach O field? fields s = .ok t) ∧
    (∀ s, (∀ w vs, ¬ Refused O field? fields s w vs) →
      Write.outcome (Segment.encodeAll O field? (Segment.ofFields fields) s) =
        Write.outcome (encodeEach O field? fields s)) ∧
    (∀ s w vs, Refused O field? fields s w vs →
      Write.outcome (Segment.encodeAll O field? (Segment.ofFields fields) s) =
          .error (Value.refusal vs) ∧
        Write.outcome (encodeEach O field? fields s) =
          .error (if O.knows w numberRequest then .wrongKind else Value.refusal [w])) ∧
    (∀ s, Read.outcome (Segment.decodeAll declared (Segment.ofFields fields) s) =
      Read.outcome (decodeEach declared fields s)) ∧
    (Segment.ofFields fields).flatMap Segment.members = fields.map member ∧
    (Segment.ofFields fields).IsChain (fun g g' => ¬ (g.isPacked ∧ g'.isPacked)) ∧
    ∀ run, Segment.packed run ∈ Segment.ofFields fields →
      ∀ vs bs, Format.pack (run.map Prod.snd) vs = .ok bs →
        bs.length = Format.size (run.map Prod.snd) := by
  refine ⟨fun s t => encodeAll_eq_ok_iff h, fun s => outcome_of_not_refused h,
    fun s w vs => outcome_of_refused h, outcome_decodeAll declared fields,
    Segment.flatMap_members_ofFields fields, Segment.isChain_ofFields fields, ?_⟩
  intro run _ vs bs hbs
  exact Format.length_of_pack hbs

/-- A number, a truth value and a number that does not fit, all in one run: nothing of it is
written, and each field on its own fails as well. -/
theorem segments_agree_with_fields_of_large_number :
    let fields : List Field := [⟨some "a", 0, .named "u8", [], .start⟩,
      ⟨some "b", 1, .named "bool", [], .start⟩, ⟨some "c", 2, .named "u16", [], .start⟩]
    let field? := fun name => (Value.object (.record "R")
      [("a", .bool true), ("b", .text "x"), ("c", .int 65536)]).field? name
    (∀ f ∈ fields, (field? f.ident).isSome) ∧
      Segment.ofFields fields = [.packed [("a", .u8), ("b", .flag), ("c", .u16)]] ∧
      Write.outcome (Segment.encodeAll Objects.none field? (Segment.ofFields fields) {}) =
        .error .value ∧
      Write.outcome (encodeEach Objects.none field? fields {}) = .error .value := by
  intro fields field?
  have hall : ∀ f ∈ fields, (field? f.ident).isSome := by decide
  have hrefused : Refused Objects.none field? fields {} (.int 65536)
      [.bool true, .text "x", .int 65536] :=
    ⟨fields.take 2, ⟨some "c", 2, .named "u16", [], .start⟩, [], ⟨#[1, 1], []⟩, .u16, rfl, rfl, rfl,
      rfl, rfl, rfl⟩
  obtain ⟨hsegments, hfields⟩ := (segments_agree_with_fields Objects.none field?
    (fun _ => Read.fail .noSuchMember) fields hall).2.2.1 _ _ _ hrefused
  have hrun : Value.refusal [.bool true, .text "x", .int 65536] = .value := by decide +kernel
  have hvalue : Value.refusal [.int 65536] = .value := by decide +kernel
  rw [hrun] at hsegments
  rw [if_neg (by decide), hvalue] at hfields
  exact ⟨hall, by decide, hsegments, hfields⟩

/-- Packing shows where an object that has a field by the name of the request stands in for a
number. -/
theorem segments_differ_from_fields_in_fault :
    ∃ S r, Layout.ofText "struct N \x7b to_bytes: u8 \x7d struct H \x7b a: u8 \x7d" = .ok S ∧
      S.record? "H" = some r ∧
      let O := S.objects (S.encode Hooks.empty)
      let field? := fun name => (Value.object (.record "H")
        [("a", .object (.record "N") [("to_bytes", .int 1)])]).field? name
      Write.outcome (Segment.encodeAll O field? r.segments {}) = .error .value ∧
        Write.outcome (encodeEach O field? r.wireFields {}) = .error .wrongKind := by
  obtain ⟨S, hS, h⟩ := Layout.exists_of_any_ofText
    "struct N \x7b to_bytes: u8 \x7d struct H \x7b a: u8 \x7d"
    (fun S => (S.record? "H").any fun r =>
      let O := S.objects (S.encode Hooks.empty)
      let field? := fun name => (Value.object (.record "H")
        [("a", .object (.record "N") [("to_bytes", .int 1)])]).field? name
      Write.faultKind? (Segment.encodeAll O field? r.segments {}) = some .value ∧
        Write.faultKind? (encodeEach O field? r.wireFields {}) = some .wrongKind)
    (by decide +kernel)
  obtain ⟨r, hr, hkinds⟩ := Option.any_eq_true _ _ |>.1 h
  obtain ⟨hsegments, hfields⟩ := of_decide_eq_true hkinds
  exact ⟨S, r, hS, hr, Write.outcome_eq_error_iff.2 hsegments, Write.outcome_eq_error_iff.2 hfields⟩

end Field

end WireSchema
