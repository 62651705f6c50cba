import WireSchema.Proofs.Wire.Framing
import WireSchema.Proofs.Wire.Stream

/-!
# Writing that fails halfway

A value that cannot be written is found out only where the part of it is reached that cannot be.
What stands in front of that part has been written by then and stays in the buffer, and what is
written later comes behind it. Nothing else changes: the cursor stays where it is, what is left is
the same in every stream, and whatever is done with the stream later comes to the same, as long as
only values are taken that were there before.

The last of these is shown for two streams side by side, where one has more bytes behind. It rests
on the cursor being somewhere in the buffer, which every request keeps up, and on what is read not
depending on what follows.
-/

namespace WireSchema

open Layout

/-- Types with no types inside. -/
def Codec.isPlain : Codec → Bool
  | int _ | bool | string | packedBools => true
  | _ => false

theorem writeInt_eq_of_error {k : IntKind} {v : Value} {isAsked : Bool} {s t : Sink} {f : Fault}
    (h : writeInt k v isAsked s = .error (f, t)) : t = s := by
  rw [writeInt_eq] at h
  cases hbytes : v.integer?.bind k.encode? with
  | some bs =>
    rw [hbytes] at h
    cases h
  | none =>
    rw [hbytes] at h
    cases h
    rfl

theorem writeCount_eq_of_error {n : Nat} {s t : Sink} {f : Fault}
    (h : writeCount n s = .error (f, t)) : t = s := by
  cases hbytes : IntKind.u64.encode? n with
  | some bs =>
    rw [writeCount, hbytes] at h
    cases h
  | none =>
    rw [writeCount, hbytes] at h
    cases h
    rfl

/-- Of a value of such a type, nothing is written unless all is. -/
theorem Codec.eq_of_encode_error {c : Codec} (hc : c.isPlain = true) {O : Objects} {v : Value}
    {s t : Sink} {f : Fault} (h : c.encode O v s = .error (f, t)) : t = s := by
  cases c with
  | int k => exact writeInt_eq_of_error h
  | bool => cases h
  | string =>
    simp only [encode, writeString] at h
    cases v with
    | text x =>
      dsimp only at h
      cases hcount : writeCount (Text.utf8 x.toList).length s with
      | ok s' =>
        rw [hcount] at h
        cases h
      | error e =>
        rw [hcount] at h
        cases h
        exact writeCount_eq_of_error hcount
    | _ =>
      cases h
      rfl
  | packedBools =>
    simp only [encode] at h
    cases hitems : v.items? with
    | none =>
      rw [hitems] at h
      cases h
      rfl
    | some items =>
      simp only [hitems] at h
      split at h
      · cases h
      · cases h
        rfl
  | _ => cases hc

namespace Stream

/-! ## What a stream is asked for -/

inductive Request where
  | encode (codec? : Option Codec) (value : Value)
  | next (codec : Codec)
  | reset
deriving Repr

/-- Whether the buffer stays as it is in any case. -/
def Request.isReading : Request → Bool
  | encode _ _ => false
  | next _ | reset => true

/-- Whether no hooks are met. -/
def Request.Unhooked (S : Layout) : Request → Prop
  | encode _ v => S.WritesUnhooked v
  | next c => S.ReadsUnhooked c
  | reset => True

section

variable (S : Layout) (H : Hooks)

/-- The stream afterwards, and what comes of it: a value, nothing, or a fault. -/
def answer (t : Stream) : Request → Stream × Except Fault (Option Value)
  | .encode codec? v =>
    match t.encode S H codec? v with
    | (u, none, _) => (u, .ok none)
    | (u, some f, _) => (u, .error f)
  | .next c =>
    match t.next S H c with
    | (u, x, _) => (u, x.map some)
  | .reset => (t.reset, .ok none)

/-- One request after another, whether they fail or not. -/
def run : Stream → List Request → Stream × List (Except Fault (Option Value))
  | t, [] => (t, [])
  | t, r :: rs =>
    let (u, x) := t.answer S H r
    let (w, xs) := run u rs
    (w, x :: xs)

end

/-! ## More bytes behind -/

theorem extend_nil (t : Stream) : t.extend [] = t := by
  simp [extend]

theorem extend_append (t : Stream) (bs cs : List UInt8) :
    (t.extend bs).extend cs = t.extend (bs ++ cs) := by
  simp [extend, ← Array.toList_inj]

theorem toList_extend (t : Stream) (bs : List UInt8) :
    (t.extend bs).buffer.toList = t.buffer.toList ++ bs := by
  simp [extend]

theorem size_extend (t : Stream) (bs : List UInt8) :
    (t.extend bs).buffer.size = t.buffer.size + bs.length := by
  rw [← Array.length_toList, toList_extend, List.length_append, Array.length_toList]

/-- The cursor is somewhere in the buffer. -/
structure Bounded (t : Stream) : Prop where
  nonneg : 0 ≤ t.cursor
  le_size : t.cursor ≤ t.buffer.size

theorem bounded_ofBytes (bs : List UInt8) : (ofBytes bs).Bounded :=
  ⟨Int.le_refl 0, Int.natCast_nonneg _⟩

theorem bounded_reset (t : Stream) : t.reset.Bounded :=
  ⟨Int.le_refl 0, Int.natCast_nonneg _⟩

theorem Bounded.extend {t : Stream} (h : t.Bounded) (bs : List UInt8) : (t.extend bs).Bounded := by
  refine ⟨h.nonneg, h.le_size.trans ?_⟩
  rw [size_extend]
  omega

theorem Bounded.remaining_eq {t : Stream} (h : t.Bounded) :
    t.remaining = t.buffer.toList.drop t.cursor.toNat := by
  rw [remaining, if_neg (not_lt.2 h.nonneg)]

/-- What remained stays in front. -/
theorem Bounded.remaining_extend {t : Stream} (h : t.Bounded) (bs : List UInt8) :
    (t.extend bs).remaining = t.remaining ++ bs := by
  have hle : t.cursor.toNat ≤ t.buffer.toList.length := by
    have hsize := h.le_size
    rw [Array.length_toList]
    omega
  rw [(h.extend bs).remaining_eq, h.remaining_eq, toList_extend]
  exact List.drop_append_of_le_length hle

/-! ## Side by side -/

variable {S : Layout} {H : Hooks}

/-- What comes of encoding is the same for every stream. -/
theorem exists_answer_encode_eq (codec? : Option Codec) {v : Value} (hv : S.WritesUnhooked v) :
    ∃ bs x, ∀ t : Stream, t.answer S H (.encode codec? v) = (t.extend bs, x) := by
  obtain ⟨bs, f?, h⟩ := exists_encode_eq H codec? hv
  cases f? with
  | none => exact ⟨bs, .ok none, fun t => by rw [Stream.answer, h t]⟩
  | some f => exact ⟨bs, .error f, fun t => by rw [Stream.answer, h t]⟩

section

variable (hS : S.WellFormed)
include hS

/-- A value is taken from within the buffer. -/
theorem Bounded.next {t u : Stream} {c : Codec} (hc : S.ReadsUnhooked c) {v : Value}
    {log : List Event} (h : t.next S H c = (u, .ok v, log)) : u.Bounded := by
  obtain ⟨s, hs, rfl⟩ := History.exists_of_next h
  rw [← decode_withoutHooks H hc] at hs
  have hle := History.length_le_size_of_decode hS.withoutHooks S.hookFree_withoutHooks hs
  refine ⟨?_, ?_⟩
  · dsimp only
    omega
  · dsimp only
    omega

/-- A value that is taken is taken from a longer stream as well. -/
theorem Bounded.next_extend {t u : Stream} (ht : t.Bounded) {c : Codec} (hc : S.ReadsUnhooked c)
    {v : Value} {log : List Event} (h : t.next S H c = (u, .ok v, log)) (bs : List UInt8) :
    ∃ log, (t.extend bs).next S H c = (u.extend bs, .ok v, log) := by
  obtain ⟨s, hs, rfl⟩ := History.exists_of_next h
  rw [← decode_withoutHooks H hc] at hs
  have hprolonged := decode_prolonged hS.withoutHooks S.hookFree_withoutHooks hs
    (u := .ofOrigin { bytes := (t.extend bs).remaining }) (ht.remaining_extend bs)
  rw [decode_withoutHooks H hc] at hprolonged
  have hcursor : ((t.extend bs).buffer.size : Int) - ((s.bytes ++ bs).length : Int) =
      t.buffer.size - (s.bytes.length : Int) := by
    rw [size_extend, List.length_append]
    omega
  refine ⟨[], ?_⟩
  rw [Stream.next, show c.decode (S.decode H) _ = _ from hprolonged]
  dsimp only
  rw [hcursor]
  rfl

theorem Bounded.answer {t : Stream} (ht : t.Bounded) {r : Request} (hr : r.Unhooked S) :
    (t.answer S H r).1.Bounded := by
  cases r with
  | encode codec? v =>
    obtain ⟨bs, x, h⟩ := exists_answer_encode_eq (H := H) codec? hr
    rw [h t]
    exact ht.extend bs
  | next c =>
    rw [Stream.answer]
    cases h : t.next S H c with
    | mk u x =>
      obtain ⟨x, log⟩ := x
      cases x with
      | ok v => exact .next hS hr h
      | error f =>
        obtain ⟨rfl, -⟩ := History.next_eq_of_error h
        exact ht
  | reset => exact bounded_reset t

theorem Bounded.run {t : Stream} (ht : t.Bounded) {rs : List Request}
    (hrs : ∀ r ∈ rs, r.Unhooked S) : (t.run S H rs).1.Bounded := by
  induction rs generalizing t with
  | nil => exact ht
  | cons r rs ih =>
    exact ih (ht.answer hS (hrs r (.head _))) fun r hr => hrs r (.tail _ hr)

/-- What is read without a fault is read from a longer stream as well. -/
theorem Bounded.answer_extend {t : Stream} (ht : t.Bounded) {r : Request} (hr : r.Unhooked S)
    (hreading : r.isReading = true) (hok : (t.answer S H r).2.isOk = true) (bs : List UInt8) :
    (t.extend bs).answer S H r = ((t.answer S H r).1.extend bs, (t.answer S H r).2) := by
  cases r with
  | encode codec? v => cases hreading
  | next c =>
    simp only [Stream.answer] at hok ⊢
    cases h : t.next S H c with
    | mk u x =>
      obtain ⟨x, log⟩ := x
      cases x with
      | ok v =>
        obtain ⟨log, hextended⟩ := ht.next_extend hS hr h bs
        rw [hextended]
      | error f =>
        rw [h] at hok
        cases hok
  | reset => rfl

/-- Requests come to the same with more bytes behind, as long as only what was there before is read:
what is written comes behind these bytes. -/
theorem Bounded.exists_run_extend {t : Stream} (ht : t.Bounded) {rs : List Request}
    (hrs : ∀ r ∈ rs, r.Unhooked S)
    (hok : ∀ x ∈ (t.run S H (rs.filter Request.isReading)).2, x.isOk = true) :
    ∃ written outcomes, ∀ bs, (t.extend bs).run S H rs =
      ((t.run S H (rs.filter Request.isReading)).1.extend (bs ++ written), outcomes) := by
  induction rs generalizing t with
  | nil => exact ⟨[], [], fun bs => by rw [List.append_nil]; rfl⟩
  | cons r rs ih =>
    have hhead := hrs r (.head _)
    have hrest : ∀ r ∈ rs, r.Unhooked S := fun r hr => hrs r (.tail _ hr)
    cases hr : r.isReading with
    | true =>
      rw [List.filter_cons_of_pos hr] at hok ⊢
      have hfirst : (t.answer S H r).2.isOk = true := hok _ (.head _)
      obtain ⟨written, outcomes, hrun⟩ :=
        ih (ht.answer hS hhead) hrest fun x hx => hok x (.tail _ hx)
      refine ⟨written, (t.answer S H r).2 :: outcomes, fun bs => ?_⟩
      simp only [Stream.run, ht.answer_extend hS hhead hr hfirst bs, hrun bs]
    | false =>
      rw [List.filter_cons_of_neg (by rw [hr]; exact Bool.false_ne_true)] at hok ⊢
      cases r with
      | encode codec? v =>
        obtain ⟨front, x, hanswer⟩ := exists_answer_encode_eq (H := H) codec? hhead
        obtain ⟨written, outcomes, hrun⟩ := ih ht hrest hok
        refine ⟨front ++ written, x :: outcomes, fun bs => ?_⟩
        simp only [Stream.run, hanswer, extend_append, hrun, List.append_assoc]
      | _ => cases hr

end

/-! ## What is left behind -/

/-- Whether a value is written at once or not at all. -/
def isWhole : Option Codec → Value → Bool
  | some c, _ => c.isPlain
  | none, .object _ _ => false
  | none, _ => true

theorem eq_of_writer_error {codec? : Option Codec} {v : Value} (hv : isWhole codec? v = true)
    {s t : Sink} {f : Fault} (h : writer S H codec? v s = .error (f, t)) : t = s := by
  cases codec? with
  | some c => exact Codec.eq_of_encode_error hv h
  | none =>
    cases v with
    | object owner fields => cases hv
    | _ =>
      cases h
      rfl

theorem eq_of_encode_error {codec? : Option Codec} {v : Value} (hv : isWhole codec? v = true)
    {t u : Stream} {f : Fault} {log : List Event}
    (h : t.encode S H codec? v = (u, some f, log)) : u = t := by
  rw [Stream.encode] at h
  cases hwriter : writer S H codec? v { bytes := t.buffer } with
  | ok s =>
    rw [hwriter] at h
    cases h
  | error e =>
    obtain ⟨g, s⟩ := e
    rw [hwriter] at h
    cases eq_of_writer_error hv hwriter
    cases h
    rfl

/-- A value that cannot be written leaves the cursor where it is, and leaves the same bytes in every
stream. Later requests come to the same as without it, as long as only values are taken that were
there before: what they write stands behind the bytes left. -/
theorem extend_of_encode_error [Text.CharacterNames] {text : String}
    (hS : Layout.ofText text = .ok S) {H : Hooks}
    {bs : List UInt8} {before : List Request} (hbefore : ∀ r ∈ before, r.Unhooked S)
    {t u : Stream} (ht : ((ofBytes bs).run S H before).1 = t) {codec? : Option Codec} {v : Value}
    (hv : S.WritesUnhooked v) {f : Fault} {log : List Event}
    (h : t.encode S H codec? v = (u, some f, log)) :
    ∃ left, u = t.extend left ∧ (isWhole codec? v = true → left = []) ∧
      (∀ w : Stream, w.encode S H codec? v = (w.extend left, some f, [])) ∧
      (∀ codec? v, S.WritesUnhooked v → ∃ written f?, ∀ w : Stream,
        w.encode S H codec? v = (w.extend written, f?, [])) ∧
      ∀ after : List Request, (∀ r ∈ after, r.Unhooked S) →
        (∀ x ∈ (t.run S H (after.filter Request.isReading)).2, x.isOk = true) →
          ∃ written outcomes,
            let w := (t.run S H (after.filter Request.isReading)).1
            t.run S H after = (w.extend written, outcomes) ∧
              u.run S H after = (w.extend (left ++ written), outcomes) := by
  have hwf := wellFormed_of_ofText hS
  have hbounded : t.Bounded := ht ▸ (bounded_ofBytes bs).run hwf hbefore
  obtain ⟨left, f?, hencode⟩ := exists_encode_eq H codec? hv
  obtain ⟨rfl, rfl⟩ : u = t.extend left ∧ f? = some f := by
    cases (hencode t).symm.trans h
    exact ⟨rfl, rfl⟩
  refine ⟨left, rfl, fun hwhole => ?_, hencode, fun c v hv => exists_encode_eq H c hv,
    fun after hafter hok => ?_⟩
  · have hsize := size_extend t left
    rw [eq_of_encode_error hwhole h] at hsize
    exact List.eq_nil_of_length_eq_zero (by omega)
  · obtain ⟨written, outcomes, hrun⟩ := hbounded.exists_run_extend hwf hafter hok
    have hwithout := hrun []
    rw [extend_nil] at hwithout
    exact ⟨written, outcomes, hwithout, hrun left⟩

/-- Behind the number 7, the second of two numbers cannot be written, so that their count and the
first of them are left. The number 9 comes behind them, and 7 is still taken first. -/
theorem extend_of_encode_error_of_large_number :
    let byte := Codec.int .u8
    let t : Stream := ⟨#[7], 0⟩
    let u : Stream := ⟨#[7, 2, 0, 0, 0, 0, 0, 0, 0, 1], 0⟩
    let before := [Request.encode (some byte) (.int 7)]
    let after := [Request.encode (some byte) (.int 9), .next byte]
    ∃ S, Layout.ofText "struct M" = .ok S ∧ (∀ r ∈ before ++ after, r.Unhooked S) ∧
      ((ofBytes []).run S Hooks.empty before).1 = t ∧
      t.encode S Hooks.empty (some (.list byte)) (.list [.int 1, .int 300]) =
        (u, some (.notRepresentable (.int 300) "u8"), []) ∧
      ∃ left written outcomes, u = t.extend left ∧
        t.run S Hooks.empty after = (Stream.extend ⟨#[7], 1⟩ written, outcomes) ∧
        u.run S Hooks.empty after = (Stream.extend ⟨#[7], 1⟩ (left ++ written), outcomes) := by
  intro byte t u before after
  obtain ⟨S, hS, hhooks⟩ := exists_of_any_ofText "struct M"
    (fun S => S.HookFree) (by decide +kernel)
  have hhooks : S.HookFree := of_decide_eq_true hhooks
  have hshown : Value.areShowable [.int 300] = true := by decide +kernel
  have hunhooked : ∀ r ∈ before ++ after, r.Unhooked S := by
    intro r _
    cases r with
    | encode codec? v => exact hhooks.writesUnhooked v
    | next c => exact hhooks.readsUnhooked c
    | reset => trivial
  have hfail : t.encode S Hooks.empty (some (.list byte)) (.list [.int 1, .int 300]) =
      (u, some (.notRepresentable (.int 300) "u8"), []) := by
    rw [← Fault.showing_of_areShowable hshown (.notRepresentable _ _)]
    rfl
  have hbefore : ((ofBytes []).run S Hooks.empty before).1 = t := rfl
  obtain ⟨left, hleft, -, -, -, hafter⟩ := extend_of_encode_error hS
    (fun r hr => hunhooked r (List.mem_append.2 (.inl hr))) hbefore (hhooks.writesUnhooked _) hfail
  obtain ⟨written, outcomes, hwithout, hwith⟩ := hafter after
    (fun r hr => hunhooked r (List.mem_append.2 (.inr hr))) (by
      intro x hx
      cases List.mem_singleton.1 hx
      rfl)
  exact ⟨S, hS, hunhooked, hbefore, hfail, left, written, outcomes, hleft, hwithout, hwith⟩

/-- A stream is not what it was, and a number is taken from it where there was none. -/
theorem encode_error_leaves_count :
    let byte := Codec.int .u8
    let t : Stream := ofBytes []
    let u : Stream := ⟨#[2, 0, 0, 0, 0, 0, 0, 0, 1], 0⟩
    ∃ S, Layout.ofText "struct M" = .ok S ∧ S.HookFree ∧
      t.encode S Hooks.empty (some (.list byte)) (.list [.int 1, .int 300]) =
        (u, some (.notRepresentable (.int 300) "u8"), []) ∧
      u ≠ t ∧ (t.answer S Hooks.empty (.next byte)).2.isOk = false ∧
      (u.answer S Hooks.empty (.next byte)).2.toOption = some (some (.int 2)) := by
  intro byte t u
  obtain ⟨S, hS, hhooks⟩ := exists_of_any_ofText "struct M"
    (fun S => S.HookFree) (by decide +kernel)
  have hshown : Value.areShowable [.int 300] = true := by decide +kernel
  refine ⟨S, hS, of_decide_eq_true hhooks, ?_, by decide, rfl, rfl⟩
  rw [← Fault.showing_of_areShowable hshown (.notRepresentable _ _)]
  rfl

end Stream

end WireSchema
