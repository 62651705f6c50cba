import WireSchema.Proofs.Wire.Unhooked

/-!
# What is written in the course of what

Codecs look into a value only as far as they are told by their own type, and what they come to that
is of a declared type is offered to the code of its own. So hooks run only around the objects that
are reached in this way, whatever else is in a value. In particular none run if no part of it is an
object of a declaration that has any.
-/

namespace WireSchema

/-- In the course of writing a value by a codec, `w` is offered as an object of a declared type. -/
inductive Codec.Offers : Codec → Value → Value → Prop
  | declared {name : String} {v : Value} : Offers (.declared name) v v
  | optional {c : Codec} {v w : Value} : Offers c v w → Offers (.optional c) v w
  | list {c : Codec} {v x w : Value} {items : List Value} :
    v.items? = some items → x ∈ items → Offers c x w → Offers (.list c) v w
  | array {c : Codec} {n : Nat} {v x w : Value} {items : List Value} :
    v.items? = some items → x ∈ items → Offers c x w → Offers (.array c n) v w
  | key {k c : Codec} {entries : List (Value × Value)} {e : Value × Value} {w : Value} :
    e ∈ entries → Offers k e.1 w → Offers (.map k c) (.map entries) w
  | value {k c : Codec} {entries : List (Value × Value)} {e : Value × Value} {w : Value} :
    e ∈ entries → Offers c e.2 w → Offers (.map k c) (.map entries) w

/-- In the course of writing the fields of these segments. -/
def Segment.Offers (field? : String → Option Value) (gs : List Segment) (w : Value) : Prop :=
  ∃ field codec x, single field codec ∈ gs ∧ field? field = some x ∧ codec.Offers x w

namespace Layout

variable (S : Layout)

/-- The segments that the code of a declaration writes for a value. -/
def segmentsOf (d : Declaration) (v : Value) : List Segment :=
  match d, v with
  | .record r, _ => r.segments
  | .union _, .object (.variant union name) _ =>
    match S.variant? union name with
    | some (_, l) => l.segments
    | none => []
  | .union _, _ => []

/-- In the course of writing `v` by the code of a declaration, `w` is offered. -/
def Hands (d : Declaration) (v w : Value) : Prop :=
  Segment.Offers (Entity.field? S (.value v)) (S.segmentsOf d v) w

/-- In the course of writing `v` by the code of its own type. -/
def Passes (v w : Value) : Prop := ∃ d, S.codeOf v = .ok d ∧ S.Hands d v w

/-- Writing a value by the code of its own type runs no hooks. -/
def RunsNoHooks (v : Value) : Prop :=
  ∀ w, Relation.ReflTransGen S.Passes v w → ∀ d, S.codeOf w = .ok d →
    d.attributes.preEncode = none ∧ d.attributes.postEncode = none

variable {S}

theorem RunsNoHooks.passes {v w : Value} (h : S.RunsNoHooks v) (hw : S.Passes v w) :
    S.RunsNoHooks w :=
  fun u hu => h u (.head hw hu)

theorem RunsNoHooks.hooks_eq_none {v : Value} (h : S.RunsNoHooks v) {d : Declaration}
    (hd : S.codeOf v = .ok d) :
    d.attributes.preEncode = none ∧ d.attributes.postEncode = none :=
  h v .refl d hd

/-- What is offered is a part. -/
theorem WritesUnhooked.offers {c : Codec} {v w : Value} (hv : S.WritesUnhooked v)
    (h : c.Offers v w) : S.WritesUnhooked w := by
  induction h with
  | declared => exact hv
  | optional _ ih => exact ih hv
  | list hitems hx _ ih | array hitems hx _ ih => exact ih (hv.part (.item hitems hx))
  | key he _ ih => exact ih (hv.part (.item rfl (List.mem_map_of_mem he)))
  | value he _ ih => exact ih (hv.part (.entry he))

theorem WritesUnhooked.passes {v w : Value} (hv : S.WritesUnhooked v) (h : S.Passes v w) :
    S.WritesUnhooked w := by
  obtain ⟨d, hd, field, codec, x, -, hx, hw⟩ := h
  obtain ⟨owner, fields, rfl, -⟩ := exists_of_codeOf hd
  exact (hv.part (.field hx)).offers hw

/-- No hooks run for a value without parts that have any. -/
theorem WritesUnhooked.runsNoHooks {v : Value} (hv : S.WritesUnhooked v) : S.RunsNoHooks v := by
  intro w hw d hd
  have hunhooked : S.WritesUnhooked w := by
    clear hd
    induction hw with
    | refl => exact hv
    | tail _ h ih => exact ih.passes h
  obtain ⟨hpre, hpost, -⟩ := hunhooked.hooks_eq_nil hd
  exact ⟨hpre, hpost⟩

theorem HookFree.runsNoHooks (hH : S.HookFree) (v : Value) : S.RunsNoHooks v :=
  (hH.writesUnhooked v).runsNoHooks

end Layout

end WireSchema
