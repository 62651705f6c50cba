import WireSchema.Proofs.Layout.WellFormed
import WireSchema.Proofs.Wire.Packing

/-!
# How values are written

An object is written as what stands in front of its fields and then the fields on the wire, be it a
record or a union value. What is nested in a value of a type is less deep than the value, so the
depth of a value is enough to write it, and objects are written by one equation that mentions no
depth.
-/

namespace WireSchema

namespace Value

/-! ## Depths -/

theorem le_depthItems (d : Nat) (vs : List Value) : d ≤ depthItems d vs := by
  induction vs generalizing d with
  | nil => simp [depthItems]
  | cons v vs ih =>
    rw [depthItems]
    exact Nat.le_trans (Nat.le_max_left d v.depth) (ih _)

theorem depth_le_depthItems {v : Value} {vs : List Value} (h : v ∈ vs) (d : Nat) :
    v.depth ≤ depthItems d vs := by
  induction vs generalizing d with
  | nil => cases h
  | cons w vs ih =>
    rw [depthItems]
    rcases List.mem_cons.1 h with rfl | h
    · exact Nat.le_trans (Nat.le_max_right d v.depth) (le_depthItems _ vs)
    · exact ih h _

theorem le_depthEntries (d : Nat) (es : List (Value × Value)) : d ≤ depthEntries d es := by
  induction es generalizing d with
  | nil => simp [depthEntries]
  | cons e es ih =>
    rw [depthEntries]
    exact Nat.le_trans (by omega) (ih _)

theorem depth_le_depthEntries {e : Value × Value} {es : List (Value × Value)} (h : e ∈ es)
    (d : Nat) : e.1.depth ≤ depthEntries d es ∧ e.2.depth ≤ depthEntries d es := by
  induction es generalizing d with
  | nil => cases h
  | cons e' es ih =>
    rw [depthEntries]
    rcases List.mem_cons.1 h with rfl | h
    · have hle := le_depthEntries (max (max d e.1.depth) e.2.depth) es
      exact ⟨by omega, by omega⟩
    · exact ih h _

theorem le_depthFields (d : Nat) (fs : List (String × Value)) : d ≤ depthFields d fs := by
  induction fs generalizing d with
  | nil => simp [depthFields]
  | cons f fs ih =>
    rw [depthFields]
    exact Nat.le_trans (by omega) (ih _)

theorem depth_le_depthFields {f : String × Value} {fs : List (String × Value)} (h : f ∈ fs)
    (d : Nat) : f.2.depth ≤ depthFields d fs := by
  induction fs generalizing d with
  | nil => cases h
  | cons g fs ih =>
    rw [depthFields]
    rcases List.mem_cons.1 h with rfl | h
    · exact Nat.le_trans (Nat.le_max_right d _) (le_depthFields _ fs)
    · exact ih h _

end Value

/-! ## Writers that do the same -/

theorem foldlM_congr_mem {α : Type} {f g : Sink → α → Except (Fault × Sink) Sink} {as : List α}
    (h : ∀ a ∈ as, ∀ s, f s a = g s a) (s : Sink) : as.foldlM f s = as.foldlM g s := by
  induction as generalizing s with
  | nil => rfl
  | cons a as ih =>
    rw [List.foldlM_cons, List.foldlM_cons, h a (.head _)]
    exact congrArg _ (funext (ih fun b hb => h b (.tail _ hb)))

theorem Write.all_congr {write write' : Value → Write} {vs : List Value}
    (h : ∀ v ∈ vs, write v = write' v) : Write.all write vs = Write.all write' vs :=
  funext (foldlM_congr_mem fun v hv => congrFun (h v hv))

theorem Segment.encodeAll_congr {O O' : Objects} {field? : String → Option Value}
    {gs : List Segment}
    (h : ∀ field c w, single field c ∈ gs → field? field = some w → c.encode O w = c.encode O' w) :
    encodeAll O field? gs = encodeAll O' field? gs := by
  funext s
  induction gs generalizing s with
  | nil => rfl
  | cons g gs ih =>
    have hfirst : g.encode O field? s = g.encode O' field? s := by
      cases g with
      | packed fields => rfl
      | single field c =>
        simp only [encode]
        cases hw : field? field with
        | none => rfl
        | some w => exact congrFun (h field c w (.head _) hw) s
    rw [encodeAll_cons, encodeAll_cons, hfirst]
    exact congrArg _ (funext (ih fun field c w hc => h field c w (.tail _ hc)))

theorem mapM_congr_mem {α β : Type} {f g : α → Option β} {as : List α}
    (h : ∀ a ∈ as, f a = g a) : as.mapM f = as.mapM g := by
  induction as with
  | nil => rfl
  | cons a as ih =>
    rw [List.mapM_cons, List.mapM_cons, h a (.head _), ih fun b hb => h b (.tail _ hb)]

theorem Segment.encodeAll_congr_field? {O : Objects} {field? field?' : String → Option Value}
    {gs : List Segment} (h : ∀ name ∈ gs.flatMap idents, field? name = field?' name) :
    encodeAll O field? gs = encodeAll O field?' gs := by
  funext s
  induction gs generalizing s with
  | nil => rfl
  | cons g gs ih =>
    have hfirst : g.encode O field? s = g.encode O field?' s := by
      cases g with
      | packed fields =>
        have hvalues : (fields.mapM fun f => field? f.1) = fields.mapM fun f => field?' f.1 :=
          mapM_congr_mem fun f hf =>
            h f.1 (List.mem_append.2 (.inl (List.mem_map_of_mem hf)))
        simp only [encode, hvalues]
      | single field c => simp only [encode, h field (.head _)]
    have hrest := ih fun name hname => h name (List.mem_append.2 (.inr hname))
    rw [encodeAll_cons, encodeAll_cons, hfirst]
    exact congrArg _ (funext hrest)

/-! ## Objects -/

/-- What the value of an object with the given fields holds by the name of one of them. -/
theorem Entity.exists_field? (S : Layout) (owner : Owner) {fields : List (String × Value)}
    {names : List String} (hfields : fields.map Prod.fst = names) (hnames : names.Nodup)
    {name : String} (hname : name ∈ names) (hfree : name ≠ "__class__") :
    ∃ w, (name, w) ∈ fields ∧ Entity.field? S (.value (.object owner fields)) name = some w := by
  subst hfields
  obtain ⟨e, he, rfl⟩ := List.mem_map.1 hname
  refine ⟨e.2, he, ?_⟩
  have htrait : Entity.trait? S (.value (.object owner fields)) e.1 = some (.value e.2) := by
    simp only [trait?, if_neg hfree, ownTrait?, objectTrait?, find?_eq_of_nodup hnames he]
  simp only [field?, member?, htrait]
  rfl

namespace Layout

variable (S : Layout)

/-- The declaration by which an owner's objects are written, the bytes in front of their fields, the
names of all fields and the fields on the wire. -/
inductive Body : Owner → Declaration → List UInt8 → List String → List Field → Prop
  | record {r : RecordLayout} : r ∈ S.records →
    Body (.record r.name) (.record r) [] (r.fields.map (·.field.ident)) r.wireFields
  | variant {u : UnionLayout} {v : VariantLayout} : u ∈ S.unions → v ∈ u.variants →
    Body (.variant u.name v.name) (.union u) (u.tagBytes v) (v.variant.fields.map Field.ident)
      v.variant.fields

variable {S} (hS : S.WellFormed)
include hS

section

variable {owner : Owner} {d : Declaration} {front : List UInt8} {names : List String}
  {wire : List Field}

omit hS in
theorem Body.declares (h : S.Body owner d front names wire) : S.Declares d := by
  cases h with
  | record hr => exact hr
  | variant hu _ => exact hu

theorem Body.wellFormed (h : S.Body owner d front names wire) : S.FieldsWellFormed wire := by
  cases h with
  | record hr => exact (hS.records _ hr).wireFields
  | variant hu hv => exact (hS.unions _ hu).fields _ hv

theorem Body.codeOf (h : S.Body owner d front names wire) (fields : List (String × Value)) :
    S.codeOf (.object owner fields) = .ok d := by
  cases h with
  | record hr => simp only [Layout.codeOf, declarationOf?, hS.record?_eq_some hr, Option.map_some]
  | variant hu _ => simp only [Layout.codeOf, declarationOf?, hS.union?_eq_some hu, Option.map_some]

theorem Body.distinct (h : S.Body owner d front names wire) : names.Nodup := by
  cases h with
  | record hr =>
    have hd := (hS.records _ hr).fields.distinct
    rwa [List.map_map] at hd
  | variant hu hv => exact ((hS.unions _ hu).fields _ hv).distinct

theorem Body.mem_names (h : S.Body owner d front names wire) {f : Field} (hf : f ∈ wire) :
    f.ident ∈ names := by
  cases h with
  | record hr =>
    have hmem := List.mem_map_of_mem (f := Field.ident)
      ((hS.records _ hr).mem_fields_of_mem_wireFields hf)
    rwa [List.map_map] at hmem
  | variant hu hv => exact List.mem_map_of_mem hf

/-- What an object with all its fields holds by the name of a field on the wire. -/
theorem Body.exists_field? (h : S.Body owner d front names wire)
    {fields : List (String × Value)} (hfields : fields.map Prod.fst = names) {f : Field}
    (hf : f ∈ wire) :
    ∃ w, (f.ident, w) ∈ fields ∧
      Entity.field? S (.value (.object owner fields)) f.ident = some w :=
  Entity.exists_field? S owner hfields (h.distinct hS) (h.mem_names hS hf)
    ((h.wellFormed hS).free f hf)

/-- An object is written as what stands in front of its fields and then the fields on the wire, before
the hook behind it runs. -/
theorem Body.writeAs_bind (h : S.Body owner d front names wire) (H : Hooks)
    (nested : Value → Write) (v : Value) (fields : List (String × Value)) (s : Sink) :
    S.writeAs H nested d v (.value (.object owner fields)) s =
      Segment.encodeAll (S.objects nested) (Entity.field? S (.value (.object owner fields)))
          (Segment.ofFields wire) (s.append front) >>=
        H.postEncoded d.attributes d.name v (.value (.object owner fields)) := by
  cases h with
  | record hr =>
    rw [Sink.append_nil]
    rfl
  | variant hu hv =>
    simp only [Layout.writeAs, hS.variant?_eq_some hu hv]
    rfl

/-- No hook runs where the declaration has none. -/
theorem Body.encodeAt_succ_of_hooks_eq_nil (h : S.Body owner d front names wire)
    (hd : d.attributes.hooks = []) (H : Hooks) (n : Nat) (fields : List (String × Value))
    (s : Sink) :
    S.encodeAt H (n + 1) (.object owner fields) s =
      Segment.encodeAll (S.objects (S.encodeAt H n))
        (Entity.field? S (.value (.object owner fields))) (Segment.ofFields wire)
        (s.append front) := by
  obtain ⟨hpre, hpost, -, -⟩ := TypeAttributes.hooks_eq_nil_iff.1 hd
  rw [Layout.encodeAt, h.codeOf hS]
  simp only [H.preEncoded_of_none hpre]
  change S.writeAs H _ d _ _ s = _
  rw [h.writeAs_bind hS]
  simp only [funext (H.postEncoded_of_none hpost d.name _ _)]
  exact bind_pure _

variable (hH : S.HookFree) (H : Hooks)
include hH

theorem Body.writeAs (h : S.Body owner d front names wire) (nested : Value → Write)
    (fields : List (String × Value)) (s : Sink) :
    S.writeAs H nested d (.object owner fields) (.value (.object owner fields)) s =
      Segment.encodeAll (S.objects nested) (Entity.field? S (.value (.object owner fields)))
        (Segment.ofFields wire) (s.append front) := by
  rw [h.writeAs_bind hS]
  simp only [funext (H.postEncoded_of_none (hH.hooks_eq_nil h.declares).2.1 d.name _ _)]
  exact bind_pure _

theorem Body.encodeAt_succ (h : S.Body owner d front names wire) (n : Nat)
    (fields : List (String × Value)) (s : Sink) :
    S.encodeAt H (n + 1) (.object owner fields) s =
      Segment.encodeAll (S.objects (S.encodeAt H n))
        (Entity.field? S (.value (.object owner fields))) (Segment.ofFields wire)
        (s.append front) :=
  h.encodeAt_succ_of_hooks_eq_nil hS (hH _ h.declares.attributes_mem) H n fields s

theorem Body.encode (h : S.Body owner d front names wire) (fields : List (String × Value))
    (s : Sink) :
    S.encode H (.object owner fields) s =
      Segment.encodeAll
        (S.objects (S.encodeAt H ((Value.object owner fields).depth + hookAllowance)))
        (Entity.field? S (.value (.object owner fields))) (Segment.ofFields wire)
        (s.append front) := by
  rw [Layout.encode, h.codeOf hS]
  simp only [Layout.encodeBy, H.preEncoded_of_none (hH.hooks_eq_nil h.declares).1]
  exact h.writeAs hS hH H _ fields s

omit hH in
/-- If the depth is enough for each field on its own, it is enough for all of them. -/
theorem Body.encodeAll_eq (h : S.Body owner d front names wire)
    {fields : List (String × Value)} (hfields : fields.map Prod.fst = names) {n : Nat}
    (hn : Value.depthFields 0 fields ≤ n)
    (ih : ∀ f ∈ wire, ∀ e ∈ fields, e.1 = f.ident → ∀ n, e.2.depth ≤ n →
      f.codec.encode (S.objects (S.encodeAt H n)) e.2 =
        f.codec.encode (S.objects (S.encode H)) e.2) :
    Segment.encodeAll (S.objects (S.encodeAt H n)) (Entity.field? S (.value (.object owner fields)))
        (Segment.ofFields wire) =
      Segment.encodeAll (S.objects (S.encode H)) (Entity.field? S (.value (.object owner fields)))
        (Segment.ofFields wire) := by
  apply Segment.encodeAll_congr
  intro field c w hc hw
  obtain ⟨f, hf, rfl, rfl⟩ := Segment.exists_field_of_single hc
  obtain ⟨w', hmem, hw'⟩ := h.exists_field? hS hfields hf
  cases hw.symm.trans hw'
  exact ih f hf _ hmem rfl n (Nat.le_trans (Value.depth_le_depthFields hmem 0) hn)

theorem Body.encodeAt_eq (h : S.Body owner d front names wire)
    {fields : List (String × Value)} (hfields : fields.map Prod.fst = names)
    (ih : ∀ f ∈ wire, ∀ e ∈ fields, e.1 = f.ident → ∀ n, e.2.depth ≤ n →
      f.codec.encode (S.objects (S.encodeAt H n)) e.2 =
        f.codec.encode (S.objects (S.encode H)) e.2)
    {n : Nat} (hn : (Value.object owner fields).depth ≤ n) :
    S.encodeAt H n (.object owner fields) = S.encode H (.object owner fields) := by
  rw [Value.depth] at hn
  obtain ⟨n, rfl⟩ : ∃ k, n = k + 1 := ⟨n - 1, by omega⟩
  funext s
  have hdepth : Value.depthFields 0 fields ≤
      (Value.object owner fields).depth + hookAllowance := by
    rw [Value.depth]
    omega
  rw [h.encodeAt_succ hS hH H, h.encode hS hH H, h.encodeAll_eq hS H hfields (by omega) ih,
    h.encodeAll_eq hS H hfields hdepth ih]

end

variable (hH : S.HookFree) (H : Hooks)
include hH

omit hS hH in
/-- If the depth is enough for each element on its own, it is enough for all of them. -/
theorem all_encodeAt_eq {c : Codec} {vs : List Value}
    (ih : ∀ v ∈ vs, ∀ n, v.depth ≤ n →
      c.encode (S.objects (S.encodeAt H n)) v = c.encode (S.objects (S.encode H)) v)
    {n : Nat} (hn : Value.depthItems 0 vs ≤ n) :
    Write.all (c.encode (S.objects (S.encodeAt H n))) vs =
      Write.all (c.encode (S.objects (S.encode H))) vs :=
  Write.all_congr fun v hv => ih v hv n (Nat.le_trans (Value.depth_le_depthItems hv 0) hn)

/-- The depth of a value is enough to write it. -/
theorem HasType.encode_eq {most : Nat} {c : Codec} {v : Value} (h : S.HasType most c v) :
    ∀ n, v.depth ≤ n →
      c.encode (S.objects (S.encodeAt H n)) v = c.encode (S.objects (S.encode H)) v := by
  induction h with
  | int | bool | text | packedBools => exact fun _ _ => rfl
  | absent c => exact fun _ _ => rfl
  | @present c v _ ih =>
    intro n hn
    funext s
    simp only [Codec.encode, ih n hn]
  | @list c vs _ _ _ ih =>
    intro n hn
    rw [Value.depth] at hn
    funext s
    simp only [Codec.encode, Value.items?, all_encodeAt_eq H ih hn]
  | @array c vs _ ih =>
    intro n hn
    rw [Value.depth] at hn
    funext s
    simp only [Codec.encode, Value.items?, all_encodeAt_eq H ih hn]
  | @map k c es _ _ _ _ ihk ihc =>
    intro n hn
    rw [Value.depth] at hn
    have hdepth : ∀ e ∈ es, e.1.depth ≤ n ∧ e.2.depth ≤ n := fun e he =>
      ⟨Nat.le_trans (Value.depth_le_depthEntries he 0).1 hn,
        Nat.le_trans (Value.depth_le_depthEntries he 0).2 hn⟩
    funext s
    simp only [Codec.encode]
    refine congrArg _ (funext (foldlM_congr_mem fun e he s => ?_))
    rw [ihk e he n (hdepth e he).1, ihc e he n (hdepth e he).2]
  | @record r fields hr hfields _ ih =>
    intro n hn
    obtain ⟨hr, -⟩ := mem_of_record? hr
    exact (Body.record hr).encodeAt_eq hS hH H hfields ih hn
  | @variant u v fields hv hfields _ ih =>
    intro n hn
    obtain ⟨hu, -, hv, -⟩ := mem_of_variant? hv
    exact (Body.variant hu hv).encodeAt_eq hS hH H hfields ih hn

/-- An object is written with the objects in it written in the same way. -/
theorem Body.encode_eq {owner : Owner} {d : Declaration} {front : List UInt8}
    {names : List String} {wire : List Field} (h : S.Body owner d front names wire) {most : Nat}
    {fields : List (String × Value)} (hfields : fields.map Prod.fst = names)
    (htyped : ∀ f ∈ wire, ∀ e ∈ fields, e.1 = f.ident → S.HasType most f.codec e.2) (s : Sink) :
    S.encode H (.object owner fields) s =
      Segment.encodeAll (S.objects (S.encode H))
        (Entity.field? S (.value (.object owner fields))) (Segment.ofFields wire)
        (s.append front) := by
  have hdepth : Value.depthFields 0 fields ≤
      (Value.object owner fields).depth + hookAllowance := by
    rw [Value.depth]
    omega
  rw [h.encode hS hH H, h.encodeAll_eq hS H hfields hdepth fun f hf e he hname =>
    (htyped f hf e he hname).encode_eq hS hH H]

end Layout

end WireSchema
