import Mathlib.Logic.Relation
import WireSchema.Proofs.Wire.Soundness
import WireSchema.Wire.Stream

/-!
# First in, first out

Beside a stream stands what was written to it and what was taken from it since the last reset, each
value with its codec. The buffer is what the values written are written as, one behind the other. As
long as values are taken by the codecs of those written, they are the values written, and the cursor
stands at the end of the last one.

A value without any bytes can be taken before it is written. So the invariant also speaks of values
taken that nothing written answers to yet, which must all be found in no bytes.
-/

namespace WireSchema

open Read Layout

namespace Layout

variable {S : Layout} (hS : S.WellFormed) (hH : S.HookFree) {H : Hooks} {B : Builtins}
include hS hH

/-- Reading leaves the end of its input. -/
theorem suffix_of_decode {c : Codec} {s t : Source} {v : Value}
    (h : c.decode (S.decodeIn B H) s = .ok (v, t)) : t.bytes <:+ s.bytes := by
  have hfollows :=
    codec_follows_self hS hH (B := B) H (steady_within s fun _ => False) c s s s.within_refl
  obtain ⟨t', -, ht'⟩ := hfollows.eq_of_ok h
  exact ht'.2.1

/-- What is found is found in front of any bytes. -/
theorem decode_prolonged {c : Codec} {s t u : Source} {v : Value}
    (h : c.decode (S.decodeIn B H) s = .ok (v, t)) {tail : List UInt8}
    (hu : u.bytes = s.bytes ++ tail) :
    c.decode (S.decodeIn B H) u = .ok (v, { u with bytes := t.bytes ++ tail }) := by
  have hprolonged : u.ProlongedBy tail s u := by
    rw [Source.ProlongedBy, ← hu]
  obtain ⟨u', hu', rfl⟩ :=
    (codec_follows_self hS hH H (steady_prolongedBy u tail) c s u hprolonged).eq_of_ok h
  exact hu'

/-- What is found where nothing is left is found in no bytes anywhere. -/
theorem takes_nil_of_decode {c : Codec} {s t : Source} {v : Value}
    (hs : s.bytes = []) (h : c.decode (S.decodeIn B H) s = .ok (v, t)) :
    (c.decode (S.decodeIn B H)).Takes [] v := by
  intro u rest hu
  have ht : t.bytes = [] := by
    have hsuffix := suffix_of_decode hS hH h
    rw [hs] at hsuffix
    exact List.suffix_nil.1 hsuffix
  rw [decode_prolonged hS hH h (hs.symm ▸ hu), ht]
  rfl

omit hS hH in
/-- What is found in no bytes is the only value that is written. -/
theorem RoundTrips.eq_of_takes_nil {c : Codec} {v w : Value} (h : S.RoundTrips H B c v)
    (hw : (c.decode (S.decodeIn B H)).Takes [] w) : w = S.reset v ∧ S.bytesOf H c v = [] := by
  let s : Source := .ofOrigin { bytes := S.bytesOf H c v }
  have hfound := (hw s s.bytes rfl).symm.trans (h.reads s [] (List.append_nil _).symm)
  have hpair := Except.ok.inj hfound
  exact ⟨congrArg Prod.fst hpair, congrArg (fun p => p.2.bytes) hpair⟩

end Layout

namespace Stream

/-- A stream with what was written to it, and what was taken from it since the last reset. -/
structure History where
  stream : Stream
  written : List (Codec × Value)
  taken : List (Codec × Value)

/-- The codec that a value is written by, where none is needed for a declared type. -/
inductive WrittenBy : Option Codec → Codec → Prop
  | given (c : Codec) : WrittenBy (some c) c
  | own (name : String) : WrittenBy none (.declared name)

namespace History

/-- Nothing is written or taken yet. -/
def start : History := ⟨.ofBytes [], [], []⟩

variable (S : Layout) (H : Hooks)

/-- What happens to a stream: a value of a type is written, a value is taken, none can be, or the
cursor goes back to where it was first. -/
inductive Step : History → History → Prop
  | encode {h : History} {codec? : Option Codec} {c : Codec} {v : Value} {t : Stream}
    {log : List Event} : WrittenBy codec? c → S.Admits c → S.HasType maxEmptyItems c v →
    h.stream.encode S H codec? v = (t, none, log) → Step h ⟨t, h.written ++ [(c, v)], h.taken⟩
  | next {h : History} {c : Codec} {v : Value} {t : Stream} {log : List Event} : S.Admits c →
    h.stream.next S H c = (t, .ok v, log) → Step h ⟨t, h.written, h.taken ++ [(c, v)]⟩
  | fail {h : History} {c : Codec} {f : Fault} {t : Stream} {log : List Event} : S.Admits c →
    h.stream.next S H c = (t, .error f, log) → Step h ⟨t, h.written, h.taken⟩
  | reset {h : History} : Step h ⟨h.stream.reset, h.written, []⟩

/-- What values are written as, one behind the other. -/
def encodings (values : List (Codec × Value)) : List UInt8 :=
  values.flatMap fun p => S.bytesOf H p.1 p.2

theorem encodings_append (ps qs : List (Codec × Value)) :
    encodings S H (ps ++ qs) = encodings S H ps ++ encodings S H qs :=
  List.flatMap_append

theorem encodings_cons (p : Codec × Value) (ps : List (Codec × Value)) :
    encodings S H (p :: ps) = S.bytesOf H p.1 p.2 ++ encodings S H ps :=
  List.flatMap_cons

theorem encodings_singleton (p : Codec × Value) : encodings S H [p] = S.bytesOf H p.1 p.2 := by
  rw [encodings_cons]
  exact List.append_nil _

variable {S H}

/-- As far as values are both written and taken, they have the same codecs. -/
def CodecsAgree (h : History) : Prop :=
  h.taken.map Prod.fst <+: h.written.map Prod.fst ∨ h.written.map Prod.fst <+: h.taken.map Prod.fst

/-- A value as it is taken once it is written. -/
def asRead (S : Layout) (p : Codec × Value) : Codec × Value := (p.1, S.reset p.2)

theorem map_fst_asRead (ps : List (Codec × Value)) :
    (ps.map (asRead S)).map Prod.fst = ps.map Prod.fst :=
  List.map_map

/-- The values at the front were written and taken, and the cursor stands behind them. Either some
more were written, or some more were taken, which are found in no bytes. -/
inductive InOrder (S : Layout) (H : Hooks) : History → Prop
  | behind {t : Stream} (front rest : List (Codec × Value)) :
    t.cursor = (encodings S H front).length → InOrder S H ⟨t, front ++ rest, front.map (asRead S)⟩
  | ahead {t : Stream} (front more : List (Codec × Value)) :
    t.cursor = (encodings S H front).length →
    (∀ p ∈ more, (p.1.decode (S.decodeIn S.builtins H)).Takes [] p.2) →
    InOrder S H ⟨t, front, front.map (asRead S) ++ more⟩

/-- What holds of a stream at any time. -/
structure Orderly (S : Layout) (H : Hooks) (h : History) : Prop where
  buffer : h.stream.buffer.toList = encodings S H h.written
  roundTrips : ∀ p ∈ h.written, S.RoundTrips H S.builtins p.1 p.2
  nonneg : 0 ≤ h.stream.cursor
  le_size : h.stream.cursor ≤ h.stream.buffer.size
  inOrder : h.CodecsAgree → h.InOrder S H

theorem orderly_start : start.Orderly S H :=
  ⟨rfl, nofun, Int.le_refl 0, Int.le_refl 0, fun _ => .behind [] [] rfl⟩

theorem Orderly.reset {h : History} (hh : h.Orderly S H) :
    Orderly S H ⟨h.stream.reset, h.written, []⟩ :=
  ⟨hh.buffer, hh.roundTrips, Int.le_refl 0, Int.natCast_nonneg _, fun _ => .behind [] _ rfl⟩

/-! ## Writing -/

theorem encode_eq {t : Stream} {codec? : Option Codec} {c : Codec} {v : Value}
    (hc : WrittenBy codec? c) (hv : S.HasType maxEmptyItems c v)
    (hround : S.RoundTrips H S.builtins c v) :
    t.encode S H codec? v = ({ t with buffer := t.buffer ++ S.bytesOf H c v }, none, []) := by
  have hwriter : writer S H codec? v = c.encode (S.objects (S.encode H)) v := by
    cases hc with
    | given c => rfl
    | own name => cases hv <;> rfl
  rw [Stream.encode, hwriter, hround.writes]
  rfl

/-- If codecs agree with one more value written, they did before. -/
theorem CodecsAgree.of_written {t t' : Stream} {written taken : List (Codec × Value)}
    {p : Codec × Value} (h : CodecsAgree ⟨t, written ++ [p], taken⟩) :
    CodecsAgree ⟨t', written, taken⟩ := by
  simp only [CodecsAgree, List.map_append, List.map_singleton] at h ⊢
  rcases h with h | h
  · rcases List.prefix_concat_iff.1 h with h | h
    · exact .inr (h ▸ List.prefix_append _ _)
    · exact .inl h
  · exact .inr ((List.prefix_append _ _).trans h)

theorem InOrder.encode {t t' : Stream} {written taken : List (Codec × Value)} {p : Codec × Value}
    (h : InOrder S H ⟨t, written, taken⟩) (hp : S.RoundTrips H S.builtins p.1 p.2)
    (hagree : CodecsAgree ⟨t', written ++ [p], taken⟩) (hcursor : t'.cursor = t.cursor) :
    InOrder S H ⟨t', written ++ [p], taken⟩ := by
  cases h with
  | behind front rest hend =>
    rw [List.append_assoc]
    exact .behind front (rest ++ [p]) (hcursor.trans hend)
  | ahead _ more hend hmore =>
    cases more with
    | nil =>
      rw [List.append_nil]
      exact .behind written [p] (hcursor.trans hend)
    | cons q more =>
      have hcodec : q.1 = p.1 := by
        simp only [CodecsAgree, List.map_append, map_fst_asRead, List.map_cons, List.map_nil,
          List.prefix_append_right_inj, List.cons_prefix_cons] at hagree
        rcases hagree with ⟨hcodec, -⟩ | ⟨hcodec, -⟩
        · exact hcodec
        · exact hcodec.symm
      obtain ⟨hvalue, hnil⟩ := hp.eq_of_takes_nil (hcodec ▸ hmore q (.head _))
      have hq : q = asRead S p := Prod.ext hcodec hvalue
      have htaken : written.map (asRead S) ++ q :: more =
          (written ++ [p]).map (asRead S) ++ more := by
        rw [hq, List.map_append, List.append_assoc]
        rfl
      rw [htaken]
      refine .ahead (written ++ [p]) more ?_ fun q' hq' => hmore q' (.tail _ hq')
      rw [encodings_append, encodings_singleton, hnil, List.append_nil, hcursor, hend]

/-- A value taken before it is written is what is written then. -/
theorem Orderly.encode {h : History} (hh : h.Orderly S H) {c : Codec} {v : Value}
    (hround : S.RoundTrips H S.builtins c v) :
    Orderly S H ⟨{ h.stream with buffer := h.stream.buffer ++ S.bytesOf H c v },
      h.written ++ [(c, v)], h.taken⟩ := by
  refine ⟨?_, ?_, hh.nonneg, ?_, fun hagree => ?_⟩
  · rw [encodings_append, encodings_singleton, ← hh.buffer]
    simp
  · intro p hp
    rcases List.mem_append.1 hp with hp | hp
    · exact hh.roundTrips p hp
    · rw [List.mem_singleton.1 hp]
      exact hround
  · have hle := hh.le_size
    rw [← Array.length_toList] at hle ⊢
    simp only [Array.toList_appendList, List.length_append]
    omega
  · exact (hh.inOrder hagree.of_written).encode hround hagree rfl

/-! ## Taking -/

theorem remaining_eq {t : Stream} {front rest : List UInt8}
    (hbuffer : t.buffer.toList = front ++ rest)
    (hcursor : t.cursor = front.length) : t.remaining = rest := by
  rw [remaining, hbuffer, hcursor, if_neg (by omega), Int.toNat_natCast, List.drop_left]

theorem remaining_suffix (t : Stream) : t.remaining <:+ t.buffer.toList :=
  List.drop_suffix _ _

/-- What taking a value comes to, if it succeeds. -/
theorem exists_of_next {t t' : Stream} {c : Codec} {v : Value} {log : List Event}
    (h : t.next S H c = (t', .ok v, log)) :
    ∃ s, c.decode (S.decodeIn S.builtins H) (.ofOrigin { bytes := t.remaining }) = .ok (v, s) ∧
      t' = { t with cursor := t.buffer.size - (s.bytes.length : Int) } := by
  rw [next] at h
  split at h
  next v' s hs =>
    cases h
    exact ⟨s, hs, rfl⟩
  next => cases h

/-- If codecs agree with one more value taken, they did before. -/
theorem CodecsAgree.of_taken {t t' : Stream} {written taken : List (Codec × Value)}
    {p : Codec × Value} (h : CodecsAgree ⟨t, written, taken ++ [p]⟩) :
    CodecsAgree ⟨t', written, taken⟩ := by
  simp only [CodecsAgree, List.map_append, List.map_singleton] at h ⊢
  rcases h with h | h
  · exact .inl ((List.prefix_append _ _).trans h)
  · rcases List.prefix_concat_iff.1 h with h | h
    · exact .inl (h ▸ List.prefix_append _ _)
    · exact .inr h

section

variable (hS : S.WellFormed) (hH : S.HookFree) (hB : S.KeepsBuiltins)
include hS hH

/-- No more is left behind a value than there was. -/
theorem length_le_size_of_decode {B : Builtins} {t : Stream} {c : Codec} {v : Value} {s : Source}
    (hs : c.decode (S.decodeIn B H) (.ofOrigin { bytes := t.remaining }) = .ok (v, s)) :
    s.bytes.length ≤ t.buffer.size := by
  have hsuffix := (suffix_of_decode hS hH hs).length_le
  rw [← Array.length_toList]
  exact Nat.le_trans hsuffix (remaining_suffix t).length_le

/-- Where nothing is left, what is taken is found in no bytes. -/
theorem InOrder.next_ahead {t : Stream} {written more : List (Codec × Value)} {c : Codec}
    {v : Value} {s : Source} (hend : t.cursor = (encodings S H written).length)
    (hmore : ∀ p ∈ more, (p.1.decode (S.decodeIn S.builtins H)).Takes [] p.2)
    (hbuffer : t.buffer.toList = encodings S H written)
    (hs : c.decode (S.decodeIn S.builtins H) (.ofOrigin { bytes := t.remaining }) = .ok (v, s)) :
    InOrder S H ⟨{ t with cursor := t.buffer.size - (s.bytes.length : Int) }, written,
      written.map (asRead S) ++ more ++ [(c, v)]⟩ := by
  have hremaining : t.remaining = [] :=
    remaining_eq (hbuffer.trans (List.append_nil _).symm) hend
  have hrest : s.bytes = [] := by
    have hsuffix := suffix_of_decode hS hH hs
    rw [Source.ofOrigin, View.ofOrigin, hremaining] at hsuffix
    exact List.suffix_nil.1 hsuffix
  rw [List.append_assoc]
  refine .ahead written (more ++ [(c, v)]) ?_ fun p hp => ?_
  · rw [hrest, ← Array.length_toList, hbuffer]
    exact Int.sub_zero _
  · rcases List.mem_append.1 hp with hp | hp
    · exact hmore p hp
    · rw [List.mem_singleton.1 hp]
      exact takes_nil_of_decode hS hH hremaining hs

omit hS hH in
/-- Else it is the value written next, and the cursor moves behind it. -/
theorem InOrder.next_behind {t : Stream} {front rest : List (Codec × Value)} {p : Codec × Value}
    {v : Value} {s : Source} (hend : t.cursor = (encodings S H front).length)
    (hp : S.RoundTrips H S.builtins p.1 p.2)
    (hbuffer : t.buffer.toList = encodings S H (front ++ p :: rest))
    (hs : p.1.decode (S.decodeIn S.builtins H) (.ofOrigin { bytes := t.remaining }) = .ok (v, s)) :
    InOrder S H ⟨{ t with cursor := t.buffer.size - (s.bytes.length : Int) }, front ++ p :: rest,
      front.map (asRead S) ++ [(p.1, v)]⟩ := by
  rw [encodings_append] at hbuffer
  have hremaining : t.remaining = S.bytesOf H p.1 p.2 ++ encodings S H rest := by
    rw [remaining_eq hbuffer hend, encodings_cons]
  rw [hp.reads (.ofOrigin { bytes := t.remaining }) _ hremaining] at hs
  cases hs
  have hwritten : front ++ p :: rest = front ++ [p] ++ rest := by
    rw [List.append_assoc]
    rfl
  have htaken : front.map (asRead S) ++ [(p.1, S.reset p.2)] = (front ++ [p]).map (asRead S) := by
    rw [List.map_append]
    rfl
  rw [hwritten, htaken]
  refine .behind (front ++ [p]) rest ?_
  rw [← Array.length_toList, hbuffer, encodings_append, encodings_singleton, encodings_cons]
  simp only [List.length_append]
  omega

theorem InOrder.next {t t' : Stream} {written taken : List (Codec × Value)} {c : Codec} {v : Value}
    {log : List Event} (h : InOrder S H ⟨t, written, taken⟩)
    (hround : ∀ p ∈ written, S.RoundTrips H S.builtins p.1 p.2)
    (hbuffer : t.buffer.toList = encodings S H written)
    (hagree : CodecsAgree ⟨t', written, taken ++ [(c, v)]⟩)
    (hnext : t.next S H c = (t', .ok v, log)) :
    InOrder S H ⟨t', written, taken ++ [(c, v)]⟩ := by
  obtain ⟨s, hs, rfl⟩ := exists_of_next hnext
  cases h with
  | ahead _ more hend hmore => exact .next_ahead hS hH hend hmore hbuffer hs
  | behind front rest hend =>
    cases rest with
    | nil =>
      rw [List.append_nil] at hbuffer ⊢
      have hin : InOrder S H ⟨{ t with cursor := t.buffer.size - (s.bytes.length : Int) }, front,
          front.map (asRead S) ++ [] ++ [(c, v)]⟩ := .next_ahead hS hH hend nofun hbuffer hs
      rwa [List.append_nil] at hin
    | cons p rest =>
      have hcodec : c = p.1 := by
        simp only [CodecsAgree, List.map_append, map_fst_asRead, List.map_cons, List.map_nil,
          List.prefix_append_right_inj, List.cons_prefix_cons] at hagree
        rcases hagree with ⟨hcodec, -⟩ | ⟨hcodec, -⟩
        · exact hcodec
        · exact hcodec.symm
      subst hcodec
      exact .next_behind hend (hround p (List.mem_append.2 (.inr (.head _)))) hbuffer hs

/-- A value that is taken moves the cursor no further than to the end. -/
theorem Orderly.next {h : History} (hh : h.Orderly S H) {c : Codec} {v : Value} {t : Stream}
    {log : List Event} (hnext : h.stream.next S H c = (t, .ok v, log)) :
    Orderly S H ⟨t, h.written, h.taken ++ [(c, v)]⟩ := by
  obtain ⟨s, hs, rfl⟩ := exists_of_next hnext
  have hle := length_le_size_of_decode hS hH hs
  refine ⟨hh.buffer, hh.roundTrips, ?_, ?_, fun hagree => ?_⟩
  · dsimp only
    omega
  · dsimp only
    omega
  · exact (hh.inOrder hagree.of_taken).next hS hH hh.roundTrips hh.buffer hagree hnext

omit hS hH in
theorem next_eq_of_error {t t' : Stream} {c : Codec} {f : Fault} {log : List Event}
    (h : t.next S H c = (t', .error f, log)) :
    t' = t ∧ ∃ e, c.decode (S.decodeIn S.builtins H) (.ofOrigin { bytes := t.remaining }) = .error e ∧
      e.fault = f := by
  rw [Stream.next] at h
  split at h
  next => cases h
  next e he =>
    cases h
    exact ⟨rfl, e, he, rfl⟩

include hB in
/-- One step keeps a stream orderly. -/
theorem Step.orderly {h h' : History} (hstep : Step S H h h') (hh : h.Orderly S H) :
    h'.Orderly S H := by
  cases hstep with
  | encode hwritten hc hv hencode =>
    have hround := roundTrips_of_keepsBuiltins (H := H) hS hH hB hv hc
    rw [encode_eq hwritten hv hround] at hencode
    cases hencode
    exact hh.encode hround
  | next _ hnext => exact hh.next hS hH hnext
  | fail _ hnext =>
    obtain ⟨rfl, -⟩ := next_eq_of_error hnext
    exact hh
  | reset => exact hh.reset

include hB in
/-- A stream is orderly after any run. -/
theorem orderly_of_run {h : History} (hrun : Relation.ReflTransGen (Step S H) start h) :
    h.Orderly S H := by
  induction hrun with
  | refl => exact orderly_start
  | tail _ hstep ih => exact hstep.orderly hS hH hB ih

end

/-- What was taken by the codecs of what was written. -/
theorem InOrder.of_codecs {h : History} (hin : h.InOrder S H)
    (hfront : h.taken.map Prod.fst <+: h.written.map Prod.fst) :
    h.taken = (h.written.take h.taken.length).map (asRead S) ∧
      h.stream.cursor = (encodings S H (h.written.take h.taken.length)).length := by
  cases hin with
  | behind front rest hend =>
    dsimp only
    rw [List.length_map, List.take_left]
    exact ⟨rfl, hend⟩
  | ahead written more hend =>
    have hnil : more = [] := by
      have hlen := hfront.length_le
      simp only [List.length_map, List.length_append] at hlen
      exact List.length_eq_zero_iff.1 (by omega)
    subst hnil
    dsimp only
    rw [List.append_nil, List.length_map, List.take_length]
    exact ⟨rfl, hend⟩

/-- The value written next is the one that is taken. -/
theorem InOrder.exists_next {t : Stream} {written taken : List (Codec × Value)}
    (hin : InOrder S H ⟨t, written, taken⟩) (hfront : taken.map Prod.fst <+: written.map Prod.fst)
    (hround : ∀ p ∈ written, S.RoundTrips H S.builtins p.1 p.2)
    (hbuffer : t.buffer.toList = encodings S H written) {p : Codec × Value}
    (hp : written[taken.length]? = some p) :
    ∃ t' log, t.next S H p.1 = (t', .ok (S.reset p.2), log) := by
  obtain ⟨-, hcursor⟩ := hin.of_codecs hfront
  have hmem := List.mem_of_getElem? hp
  have hwritten : written = written.take taken.length ++ p :: written.drop (taken.length + 1) := by
    obtain ⟨hlt, rfl⟩ := List.getElem?_eq_some_iff.1 hp
    rw [List.getElem_cons_drop, List.take_append_drop]
  have hsplit : t.buffer.toList = encodings S H (written.take taken.length) ++
      (S.bytesOf H p.1 p.2 ++ encodings S H (written.drop (taken.length + 1))) := by
    rw [← encodings_cons, ← encodings_append, ← hwritten, hbuffer]
  have hread := (hround p hmem).reads (.ofOrigin { bytes := t.remaining }) _
    (remaining_eq hsplit hcursor)
  exact ⟨_, _, by rw [Stream.next, show p.1.decode (S.decode H) _ = _ from hread]⟩

/-- A stream is first in, first out, if no type takes a name of the language. -/
theorem first_in_first_out [Text.CharacterNames] {text : String} (hS : Layout.ofText text = .ok S)
    (hH : S.HookFree) (hB : S.KeepsBuiltins) (H : Hooks) {h : History}
    (hrun : Relation.ReflTransGen (Step S H) start h) :
    h.stream.buffer.toList = encodings S H h.written ∧
      (∀ p ∈ h.written, ∃ s, p.1.encode (S.objects (S.encode H)) p.2 {} = .ok s ∧
        s.bytes.toList = S.bytesOf H p.1 p.2) ∧
      0 ≤ h.stream.cursor ∧ h.stream.cursor ≤ h.stream.buffer.size ∧
      (∀ c t f log, S.Admits c → h.stream.next S H c = (t, .error f, log) →
        t = h.stream ∧ (f.ofInput = true ∨ f = .endless)) ∧
      (h.taken.map Prod.fst <+: h.written.map Prod.fst →
        h.taken = (h.written.take h.taken.length).map (asRead S) ∧
          h.stream.cursor = (encodings S H (h.written.take h.taken.length)).length ∧
          ∀ p, h.written[h.taken.length]? = some p →
            ∃ t log, h.stream.next S H p.1 = (t, .ok (S.reset p.2), log)) := by
  have hwf := wellFormed_of_ofText hS
  have hh := orderly_of_run hwf hH hB hrun
  refine ⟨hh.buffer, fun p hp => ⟨_, (hh.roundTrips p hp).writes {}, ?_⟩, hh.nonneg, hh.le_size,
    fun c t f log hc hnext => ?_, fun hfront => ?_⟩
  · simp [Sink.append]
  · obtain ⟨rfl, e, he, rfl⟩ := next_eq_of_error hnext
    refine ⟨rfl, ?_⟩
    have hfound := decode_finds (decode_declared_finds hwf hH (B := S.builtins) H) hc
      (.ofOrigin { bytes := h.stream.remaining })
    rw [he] at hfound
    cases hfound with
    | halt hkind =>
      rcases hkind with hinput | hendless
      · exact .inl (decide_eq_true hinput)
      · exact .inr (eq_endless_of_kind hendless)
    | want hnot _ => exact absurd hB.builtins_eq hnot
  · have hin := hh.inOrder (.inl hfront)
    obtain ⟨htaken, hcursor⟩ := hin.of_codecs hfront
    exact ⟨htaken, hcursor, fun p hp => hin.exists_next hfront hh.roundTrips hh.buffer hp⟩

/-- An empty array is taken before it is written, and then a number behind it. -/
theorem first_in_first_out_of_empty_array :
    let empty := Codec.array (.int .u8) 0
    let values : List (Codec × Value) := [(empty, .list []), (.int .u8, .int 7)]
    let h : History := ⟨⟨#[7], 1⟩, values, values⟩
    ∃ S, Layout.ofText "struct M" = .ok S ∧ S.HookFree ∧ S.KeepsBuiltins ∧
      Relation.ReflTransGen (Step S Hooks.empty) start h ∧
      h.taken = (h.written.take h.taken.length).map (asRead S) ∧
      h.stream.cursor = (encodings S Hooks.empty (h.written.take h.taken.length)).length := by
  intro empty values h
  obtain ⟨S, hS, h'⟩ := exists_of_any_ofText "struct M"
    (fun S => S.HookFree && S.KeepsBuiltins) (by decide +kernel)
  simp only [Bool.and_eq_true, decide_eq_true_eq] at h'
  obtain ⟨hhooks, hkeeps⟩ := h'
  have hempty : S.Admits empty := .array 0 (.int .u8)
  have hlist : ∀ v ∈ ([] : List Value), S.HasType maxEmptyItems (.int .u8) v :=
    List.forall_mem_nil _
  have hnumber : S.HasType maxEmptyItems (.int .u8) (.int 7) := .int (by decide) (by decide)
  let first : List (Codec × Value) := [(empty, .list [])]
  have hearly : Step S Hooks.empty start ⟨.ofBytes [], [], first⟩ := .next hempty rfl
  have hfirst : Step S Hooks.empty ⟨.ofBytes [], [], first⟩ ⟨.ofBytes [], first, first⟩ :=
    .encode (.given empty) hempty (.array hlist) rfl
  have hsecond : Step S Hooks.empty ⟨.ofBytes [], first, first⟩ ⟨⟨#[7], 0⟩, values, first⟩ :=
    .encode (.given (.int .u8)) (.int .u8) hnumber rfl
  have hlast : Step S Hooks.empty ⟨⟨#[7], 0⟩, values, first⟩ h := .next (.int .u8) rfl
  have hrun := (((Relation.ReflTransGen.refl.tail hearly).tail hfirst).tail hsecond).tail hlast
  have hfifo :=
    (first_in_first_out hS hhooks hkeeps Hooks.empty hrun).2.2.2.2.2 (List.prefix_refl _)
  exact ⟨S, hS, hhooks, hkeeps, hrun, hfifo.1, hfifo.2.1⟩

end History

end Stream

end WireSchema
