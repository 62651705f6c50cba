import WireSchema.Proofs.Wire.Offering
import WireSchema.Proofs.Wire.Takes
import WireSchema.Wire.Stream

/-!
# Writing only appends

Whatever value is offered to whatever codec, and whether it can be written or not: what is appended,
and the fault if there is one, is a matter of the value alone. What was written before stays in
front of it and is not looked at. This is kept by the ways in which writers are made from others,
and so it holds at every depth of objects. Only a hook can look at what was written before.
-/

namespace WireSchema

namespace Write

/-- Some bytes are appended, and then writing fails if there is a fault. -/
def ending (bs : List UInt8) (f? : Option Fault) : Write := fun s =>
  match f? with
  | none => .ok (s.append bs)
  | some f => .error (f, s.append bs)

/-- What is appended, and how writing ends, does not depend on what was written before. -/
def Framed (write : Write) : Prop := ∃ bs f?, ∀ s, write s = ending bs f? s

theorem ending_append (bs cs : List UInt8) (f? : Option Fault) (s : Sink) :
    ending cs f? (s.append bs) = ending (bs ++ cs) f? s := by
  cases f? <;> simp only [ending, Sink.append_append]

theorem framed_bytes (bs : List UInt8) : Framed (bytes bs) := ⟨bs, none, fun _ => rfl⟩

theorem framed_fail (f : Fault) : Framed (fail f) := by
  refine ⟨[], some f, fun s => ?_⟩
  rw [ending, Sink.append_nil]
  rfl

theorem framed_pure : Framed fun s => .ok s := by
  refine ⟨[], none, fun s => ?_⟩
  rw [ending, Sink.append_nil]

theorem framed_ofExcept (x : Except Fault (List UInt8)) : Framed (ofExcept x) := by
  cases x with
  | ok bs => exact framed_bytes bs
  | error f => exact framed_fail f

theorem Framed.bind {write next : Write} (h : write.Framed) (hnext : next.Framed) :
    Framed fun s => write s >>= next := by
  obtain ⟨bs, f?, h⟩ := h
  cases f? with
  | some f =>
    refine ⟨bs, some f, fun s => ?_⟩
    dsimp only
    rw [h s]
    rfl
  | none =>
    obtain ⟨cs, f?, hnext⟩ := hnext
    refine ⟨bs ++ cs, f?, fun s => ?_⟩
    rw [← ending_append, ← hnext]
    dsimp only
    rw [h s]
    rfl

theorem framed_foldlM {α : Type} {write : α → Write} {as : List α}
    (h : ∀ a ∈ as, (write a).Framed) : Framed fun s => as.foldlM (fun s a => write a s) s := by
  induction as with
  | nil => exact framed_pure
  | cons a as ih => exact (h a (.head _)).bind (ih fun a ha => h a (.tail _ ha))

theorem framed_all {write : Value → Write} {vs : List Value} (h : ∀ v ∈ vs, (write v).Framed) :
    (all write vs).Framed :=
  framed_foldlM h

theorem framed_writeInt (k : IntKind) (v : Value) (isAsked : Bool) :
    (writeInt k v isAsked).Framed := by
  rw [writeInt_eq]
  split
  · exact framed_bytes _
  · exact framed_fail _

theorem framed_writeCount (n : Nat) : (writeCount n).Framed := by
  unfold writeCount
  split
  · exact framed_bytes _
  · exact framed_fail _

theorem framed_writeString (v : Value) (isAsked : Bool) : (writeString v isAsked).Framed := by
  unfold writeString
  cases v with
  | text t => exact (framed_writeCount _).bind (framed_bytes _)
  | _ => exact framed_fail _

/-- A guard on how much was written since it was set. -/
theorem Framed.guard {write : Write} (h : write.Framed) (allowance n : Nat) (f : Fault) :
    Framed fun s => write s >>= fun t =>
      if t.bytes.size + allowance < n + s.bytes.size then .error (f, t) else .ok t := by
  obtain ⟨bs, f?, h⟩ := h
  cases f? with
  | some f =>
    refine ⟨bs, some f, fun s => ?_⟩
    dsimp only
    rw [h s]
    rfl
  | none =>
    by_cases hlen : bs.length + allowance < n
    · refine ⟨bs, some f, fun s => ?_⟩
      dsimp only
      rw [h s]
      change (if _ then _ else _) = _
      rw [if_pos (by rw [Sink.size_append]; omega)]
      rfl
    · refine ⟨bs, none, fun s => ?_⟩
      dsimp only
      rw [h s]
      change (if _ then _ else _) = _
      rw [if_neg (by rw [Sink.size_append]; omega)]
      rfl

end Write

open Write

section

variable {O : Objects}

theorem Codec.framed_of_offers (c : Codec) {v : Value}
    (h : ∀ w, c.Offers v w → (O.write w).Framed) : (c.encode O v).Framed := by
  induction c generalizing v with
  | int k => exact framed_writeInt _ _ _
  | bool => exact framed_bytes _
  | string => exact framed_writeString _ _
  | packedBools =>
    simp only [encode]
    cases v.items? with
    | none => exact framed_fail _
    | some items =>
      dsimp only
      split
      · exact framed_bytes _
      · exact framed_fail _
  | optional c ih =>
    simp only [encode]
    split
    · exact framed_bytes _
    · exact (framed_bytes [1]).bind (ih fun w hw => h w (.optional hw))
  | list c ih =>
    simp only [encode]
    cases hitems : v.items? with
    | none => exact framed_fail _
    | some items =>
      have hall := framed_all fun x hx => ih fun w hw => h w (.list hitems hx hw)
      exact (framed_writeCount _).bind (hall.guard _ _ _)
  | array c n ih =>
    simp only [encode]
    cases hitems : v.items? with
    | none => exact framed_fail _
    | some items =>
      dsimp only
      split
      · exact framed_all fun x hx => ih fun w hw => h w (.array hitems hx hw)
      · exact framed_fail _
  | map k c ihk ihc =>
    simp only [encode]
    split
    next entries =>
      refine (framed_writeCount _).bind (framed_foldlM fun e he => ?_)
      exact (ihk fun w hw => h w (.key he hw)).bind (ihc fun w hw => h w (.value he hw))
    next =>
      cases v.items? with
      | none => exact framed_fail _
      | some items => exact (framed_writeCount _).bind (framed_fail _)
  | declared name => exact h v .declared

theorem Codec.framed_encode {S : Layout} (hO : ∀ v, S.WritesUnhooked v → (O.write v).Framed)
    (c : Codec) {v : Value} (hv : S.WritesUnhooked v) : (c.encode O v).Framed :=
  c.framed_of_offers fun w hw => hO w (hv.offers hw)

theorem Segment.framed_encode (g : Segment) {field? : String → Option Value}
    (h : ∀ w, Offers field? [g] w → (O.write w).Framed) : Framed (g.encode O field?) := by
  cases g with
  | packed fields =>
    cases hvs : fields.mapM fun f => field? f.1 with
    | some vs =>
      have hencode : (packed fields).encode O field? =
          ofExcept (Format.pack (fields.map Prod.snd) vs) := by
        funext s
        simp only [encode, hvs]
      exact hencode ▸ framed_ofExcept _
    | none =>
      have hencode : (packed fields).encode O field? = fail .noSuchMember := by
        funext s
        simp only [encode, hvs, fail]
      exact hencode ▸ framed_fail _
  | single field codec =>
    cases hx : field? field with
    | some x =>
      have hencode : (single field codec).encode O field? = codec.encode O x := by
        funext s
        simp only [encode, hx]
      exact hencode ▸ codec.framed_of_offers fun w hw => h w ⟨_, _, x, .head _, hx, hw⟩
    | none =>
      have hencode : (single field codec).encode O field? = fail .noSuchMember := by
        funext s
        simp only [encode, hx, fail]
      exact hencode ▸ framed_fail _

theorem Segment.framed_encodeAll {gs : List Segment} {field? : String → Option Value}
    (h : ∀ w, Offers field? gs w → (O.write w).Framed) : (encodeAll O field? gs).Framed := by
  refine framed_foldlM fun g hg => g.framed_encode ?_
  rintro w ⟨field, codec, x, hmem, hx, hw⟩
  obtain rfl := List.mem_singleton.1 hmem
  exact h w ⟨field, codec, x, hg, hx, hw⟩

end

namespace Layout

variable {S : Layout} (H : Hooks)

/-- What a value is written as by the code of a declaration. -/
theorem framed_writeAs {nested : Value → Write} {d : Declaration} {v : Value}
    (hpost : d.attributes.postEncode = none)
    (hnested : ∀ w, S.Hands d v w → (nested w).Framed) :
    (S.writeAs H nested d v (.value v)).Framed := by
  have hdone : Framed (H.postEncoded d.attributes d.name v (.value v)) := by
    have h : H.postEncoded d.attributes d.name v (.value v) = fun s => .ok s :=
      funext (H.postEncoded_of_none hpost d.name v _)
    exact h ▸ framed_pure
  have hfields : (Segment.encodeAll (S.objects nested) (Entity.field? S (.value v))
      (S.segmentsOf d v)).Framed := Segment.framed_encodeAll hnested
  cases d with
  | record r => exact hfields.bind hdone
  | union u =>
    cases v with
    | object owner fields =>
      cases owner with
      | record name => exact framed_fail .noSuchMember
      | variant union name =>
        cases hv : S.variant? union name with
        | none =>
          have h : S.writeAs H nested (.union u) (.object (.variant union name) fields)
              (.value (.object (.variant union name) fields)) = fail .noSuchMember := by
            funext s
            simp only [writeAs, hv, fail]
          exact h ▸ framed_fail _
        | some p =>
          let v := Value.object (.variant union name) fields
          have h : S.writeAs H nested (.union u) v (.value v) =
              fun s => bytes (p.1.tagBytes p.2) s >>= fun s =>
                Segment.encodeAll (S.objects nested) (Entity.field? S (.value v)) p.2.segments s
                  >>= H.postEncoded u.attributes u.name v (.value v) := by
            funext s
            simp only [writeAs, v, hv]
            rfl
          simp only [segmentsOf, hv] at hfields
          exact h ▸ (framed_bytes _).bind (hfields.bind hdone)
    | _ => exact framed_fail .noSuchMember

theorem framed_encodeAt (n : Nat) {v : Value} (hv : S.RunsNoHooks v) :
    (S.encodeAt H n v).Framed := by
  induction n generalizing v with
  | zero => exact framed_fail _
  | succ n ih =>
    cases hd : S.codeOf v with
    | ok d =>
      obtain ⟨hpre, hpost⟩ := hv.hooks_eq_none hd
      have h : S.encodeAt H (n + 1) v = S.writeAs H (S.encodeAt H n) d v (.value v) := by
        funext s
        rw [encodeAt, hd]
        simp only [H.preEncoded_of_none hpre]
        rfl
      exact h ▸ framed_writeAs H hpost fun w hw => ih (hv.passes ⟨d, hd, hw⟩)
    | error f =>
      have h : S.encodeAt H (n + 1) v = fail f := by
        funext s
        rw [encodeAt, hd]
        rfl
      exact h ▸ framed_fail f

/-- By the code of a declaration without hooks, whatever the value is. -/
theorem framed_encodeBy {d : Declaration} (hpre : d.attributes.preEncode = none)
    (hpost : d.attributes.postEncode = none) {v : Value}
    (hv : ∀ w, S.Hands d v w → S.RunsNoHooks w) : (S.encodeBy H d v).Framed := by
  have h : S.encodeBy H d v =
      S.writeAs H (S.encodeAt H (v.depth + hookAllowance)) d v (.value v) := by
    funext s
    simp only [encodeBy, H.preEncoded_of_none hpre]
    rfl
  exact h ▸ framed_writeAs H hpost fun w hw => framed_encodeAt H _ (hv w hw)

theorem RunsNoHooks.framed_encode {v : Value} (hv : S.RunsNoHooks v) : (S.encode H v).Framed := by
  cases hd : S.codeOf v with
  | ok d =>
    obtain ⟨hpre, hpost⟩ := hv.hooks_eq_none hd
    have h : S.encode H v = S.encodeBy H d v := by
      funext s
      rw [encode, hd]
    exact h ▸ framed_encodeBy H hpre hpost fun w hw => hv.passes ⟨d, hd, hw⟩
  | error f =>
    have h : S.encode H v = fail f := by
      funext s
      rw [encode, hd]
      rfl
    exact h ▸ framed_fail f

/-- Without hooks, encoding only appends. -/
theorem framed_encode {v : Value} (hv : S.WritesUnhooked v) : (S.encode H v).Framed :=
  hv.runsNoHooks.framed_encode H

end Layout

namespace Stream

/-- The stream with more bytes behind. -/
def extend (t : Stream) (bs : List UInt8) : Stream := { t with buffer := t.buffer ++ bs }

variable {S : Layout} (H : Hooks) (codec? : Option Codec) {v : Value} (hv : S.WritesUnhooked v)
include hv

theorem framed_writer : (writer S H codec? v).Framed := by
  unfold writer
  cases codec? with
  | some c => exact c.framed_encode (fun _ => Layout.framed_encode H) hv
  | none =>
    cases v with
    | object owner fields => exact Layout.framed_encode H hv
    | _ => exact framed_fail _

/-- What encoding a value appends to a stream, and the fault if there is one, are the same for every
stream. -/
theorem exists_encode_eq :
    ∃ bs f?, ∀ t : Stream, t.encode S H codec? v = (t.extend bs, f?, []) := by
  obtain ⟨bs, f?, h⟩ := framed_writer H codec? hv
  refine ⟨bs, f?, fun t => ?_⟩
  rw [Stream.encode, h]
  cases f? <;> rfl

end Stream

end WireSchema
