import WireSchema.Proofs.Wire.Framing

/-!
# The same behind anything

What a value is written as from nothing is what is written for it behind anything else, and what was
there before stays in front. That includes what a value leaves that cannot be written, however deep
in it the fault is found.
-/

namespace WireSchema

/-- What has been written from nothing, behind what has been written before. -/
def Sink.behind (s t : Sink) : Sink := ⟨s.bytes ++ t.bytes, s.log ++ t.log⟩

/-- Writing comes to the same behind anything, be it that it succeeds or fails. -/
def Write.SameBehind (write : Write) : Prop :=
  ∀ s, write s = match write {} with
    | .ok t => .ok (s.behind t)
    | .error (f, t) => .error (f, s.behind t)

theorem Sink.append_eq_behind (s : Sink) (bs : List UInt8) :
    s.append bs = s.behind (append {} bs) := by
  simp [append, behind, ← Array.toList_inj]

theorem Write.Framed.sameBehind {write : Write} (h : write.Framed) : write.SameBehind := by
  obtain ⟨bs, f?, h⟩ := h
  intro s
  rw [h s, h {}]
  cases f? <;> simp only [ending, Sink.append_eq_behind s bs]

namespace Layout

/-- Encoding only appends, and what it appends is not a matter of what is there. This holds of every
codec and of the code of every declaration, for values of any kind, as long as no hooks run; and in
a layout without hooks none ever do. -/
theorem encode_sameBehind (S : Layout) (H : Hooks) :
    (∀ (c : Codec) (v : Value), (∀ w, c.Offers v w → S.RunsNoHooks w) →
      (c.encode (S.objects (S.encode H)) v).SameBehind) ∧
    (∀ v, S.RunsNoHooks v → (S.encode H v).SameBehind) ∧
    (∀ (d : Declaration) (v : Value), d.attributes.preEncode = none →
      d.attributes.postEncode = none → (∀ w, S.Hands d v w → S.RunsNoHooks w) →
      (S.encodeBy H d v).SameBehind) ∧
    (∀ (gs : List Segment) (v : Value),
      (∀ w, Segment.Offers (Entity.field? S (.value v)) gs w → S.RunsNoHooks w) →
      (Segment.encodeAll (S.objects (S.encode H)) (Entity.field? S (.value v)) gs).SameBehind) ∧
    (S.HookFree → ∀ v, S.RunsNoHooks v) := by
  have hencode : ∀ v, S.RunsNoHooks v → (S.encode H v).Framed := fun v hv => hv.framed_encode H
  refine ⟨fun c v hv => ?_, fun v hv => (hencode v hv).sameBehind,
    fun d v hpre hpost hv => (framed_encodeBy H hpre hpost hv).sameBehind, fun gs v hv => ?_,
    HookFree.runsNoHooks⟩
  · exact (c.framed_of_offers fun w hw => hencode w (hv w hw)).sameBehind
  · exact (Segment.framed_encodeAll fun w hw => hencode w (hv w hw)).sameBehind

/-- A record that holds two others, the second of which is none but a number. What is written until
then stays, behind the byte that was there. -/
theorem encode_sameBehind_of_wrong_item :
    let text := "struct R \x7b xs: list<R> \x7d"
    let empty := Value.object (.record "R") [("xs", .list [])]
    let v := Value.object (.record "R") [("xs", .list [empty, .int 5])]
    ∃ S f t, ofText text = .ok S ∧ S.RunsNoHooks v ∧ S.encode Hooks.empty v {} = .error (f, t) ∧
      t.bytes.toList = [2, 0, 0, 0, 0, 0, 0, 0, 0, 0, 0, 0, 0, 0, 0, 0] ∧
      S.encode Hooks.empty v ⟨#[7], []⟩ = .error (f, Sink.behind ⟨#[7], []⟩ t) := by
  intro text empty v
  obtain ⟨S, hS, h⟩ := exists_of_any_ofText text
    (fun S => S.HookFree && match S.encode Hooks.empty v {} with
      | .ok _ => false
      | .error (_, t) => t.bytes.toList = [2, 0, 0, 0, 0, 0, 0, 0, 0, 0, 0, 0, 0, 0, 0, 0])
    (by decide +kernel)
  obtain ⟨hhooks, hbytes⟩ := Bool.and_eq_true_iff.1 h
  have hv : S.RunsNoHooks v := HookFree.runsNoHooks (of_decide_eq_true hhooks) v
  have hbehind := (encode_sameBehind S Hooks.empty).2.1 v hv ⟨#[7], []⟩
  cases hencode : S.encode Hooks.empty v {} with
  | ok t =>
    rw [hencode] at hbytes
    cases hbytes
  | error e =>
    obtain ⟨f, t⟩ := e
    rw [hencode] at hbytes hbehind
    exact ⟨S, f, t, hS, hv, hencode, of_decide_eq_true hbytes, hbehind⟩

end Layout

end WireSchema
