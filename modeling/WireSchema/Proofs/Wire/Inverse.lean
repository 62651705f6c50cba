import WireSchema.Proofs.Emit.Capturing
import WireSchema.Proofs.Wire.Hooked
import WireSchema.Wire.Checksum
import WireSchema.Wire.HookFunctions

/-!
# Hooks that are called

Hooks in an emitted module undo one another if the functions do that are meant by them, and if the
paths of the hooks come to these functions. For a path in a module of the caller's this is a matter of
its first name, which must not be captured, and of its end.
-/

namespace WireSchema

namespace Run

variable {α β : Type}

theorem bind_eq_of_ok {x : Run α} {f : α → Run β} {s t : Sink} {a : α} (h : x s = (.ok a, t)) :
    (x >>= f) s = f a t := by
  change StateT.bind x (ExceptT.bindCont f) s = _
  rw [StateT.bind, h]
  rfl

theorem bind_eq_of_error {x : Run α} {f : α → Run β} {s t : Sink} {e : Fault}
    (h : x s = (.error e, t)) : (x >>= f) s = (.error e, t) := by
  change StateT.bind x (ExceptT.bindCont f) s = _
  rw [StateT.bind, h]
  rfl

/-- A run that comes to something and leaves everything as it was. -/
def Observes (x : Run α) : Prop := ∀ s, ∃ a, x s = (.ok a, s)

theorem Observes.pure (a : α) : Observes (Pure.pure a) := fun _ => ⟨a, rfl⟩

theorem Observes.bind {x : Run α} {f : α → Run β} (hx : x.Observes) (hf : ∀ a, (f a).Observes) :
    (x >>= f).Observes := by
  intro s
  obtain ⟨a, ha⟩ := hx s
  obtain ⟨b, hb⟩ := hf a s
  exact ⟨b, (bind_eq_of_ok ha).trans hb⟩

theorem on_eq_of_ok {x : Run α} {s t : Sink} {a : α} (h : x s = (.ok a, t)) :
    x.on s = .ok (a, t) := by
  rw [on, h]

theorem read_eq_of_ok {x : Run α} {s : Source} {t : Sink} {a : α}
    (h : x { log := s.log } = (.ok a, t)) : x.read s = .ok (a, { s with log := t.log }) := by
  rw [read, h]

end Run

namespace Entity

theorem observes_bytes? (e : Entity) : e.bytes?.Observes := by
  cases e with
  | buffer => exact fun s => ⟨some s.bytes.toList, rfl⟩
  | _ => exact .pure _

/-- Bytes of any kind are input. -/
theorem exists_view?_eq (kind : BytesKind) (bs : List UInt8) (s : Sink) : ∃ view,
    (bytes kind bs).view? s = (.ok (some view), s) ∧ view.bytes = bs := by
  cases kind <;> exact ⟨_, rfl, rfl⟩

theorem observes_items? (S : Layout) (e : Entity) : (e.items? S).Observes := by
  refine e.observes_bytes?.bind fun bs? => ?_
  split <;> exact .pure _

theorem observes_changedItems? (S : Layout) (items : List Value) (name : String) (arg : Entity) :
    (changedItems? S items name arg).Observes := by
  refine (arg.observes_items? S).bind fun items? => ?_
  split <;> exact .pure _

end Entity

namespace Surroundings

variable {E : Surroundings} {S : Layout} {scene : Scene} {data : Entity} {path : String}

/-- Whether a hook changes the value that is encoded can be told without any change. -/
theorem observes_changed? (v : Value) (home path : String) (args : List Entity) :
    (changed? S v home path args).Observes := by
  unfold changed?
  split
  · dsimp only
    split
    · exact (Entity.observes_changedItems? S _ _ _).bind fun _ => .pure _
    · exact .pure _
    · exact .pure _
  · exact .pure _

theorem exists_find_eq {args : List Entity} {s t : Sink} {result : Entity}
    (h : E.call S scene data path args s = (.ok result, t)) : ∃ e,
      E.find S scene data path s = (.ok e, s) ∧
        E.runAt S hookAllowance e args s = (.ok result, t) := by
  rw [call] at h
  cases hpath : E.denotation S scene data path with
  | error f =>
    have hfind : E.find S scene data path s = (.error f, s) := by rw [find, hpath]; rfl
    rw [Run.bind_eq_of_error hfind] at h
    cases h
  | ok e =>
    have hfind : E.find S scene data path s = (.ok e, s) := by rw [find, hpath]; rfl
    rw [Run.bind_eq_of_ok hfind] at h
    exact ⟨e, hfind, h⟩

/-- What is not only mentioned is run. -/
theorem exists_visit_eq (hpath : isMention path = false) {v : Value} {args : List Entity} {s t : Sink}
    {result : Entity} (h : E.call S scene data path args s = (.ok result, t)) :
    ∃ u, E.visit S (E.runAt S hookAllowance) scene path data v args s = (.ok result, u) ∧
      u.bytes = t.bytes := by
  obtain ⟨e, hfind, hrun⟩ := exists_find_eq h
  obtain ⟨w?, hchanged⟩ := observes_changed? (S := S) v (scene.home S) path args s
  rw [visit, Run.bind_eq_of_ok hfind, hpath, if_neg Bool.false_ne_true, Run.bind_eq_of_ok hchanged,
    Run.bind_eq_of_ok hrun]
  cases w? with
  | none => exact ⟨t, rfl, rfl⟩
  | some w => exact ⟨_, rfl, rfl⟩

theorem exists_enterWith_eq {type : String} {s t : Sink} {kind : BytesKind} {bs : List UInt8}
    (h : E.call S (.entering type) data path [data] s = (.ok (.bytes kind bs), t)) : ∃ view,
      E.enterWith S (E.runAt S hookAllowance) path type data s = (.ok view, t) ∧
        view.bytes = bs := by
  obtain ⟨e, hfind, hrun⟩ := exists_find_eq h
  obtain ⟨view, hview, hbytes⟩ := Entity.exists_view?_eq kind bs t
  refine ⟨view, ?_, hbytes⟩
  rw [enterWith, Run.bind_eq_of_ok hfind, Run.bind_eq_of_ok hrun]
  exact Run.bind_eq_of_ok hview

theorem exists_leaveWith_eq {type : String} {read : List (String × Value)} {v w : Value}
    {s t : Sink} {kind : BytesKind} {rest : List UInt8}
    (h : E.call S (.leaving type read v) data path [.value v, data] s =
      (.ok (.tuple [.value w, .bytes kind rest]), t)) : ∃ view,
        E.leaveWith S (E.runAt S hookAllowance) path type data read v s = (.ok (w, view), t) ∧
          view.bytes = rest := by
  obtain ⟨e, hfind, hrun⟩ := exists_find_eq h
  obtain ⟨view, hview, hbytes⟩ := Entity.exists_view?_eq kind rest t
  refine ⟨view, ?_, hbytes⟩
  rw [leaveWith, Run.bind_eq_of_ok hfind, Run.bind_eq_of_ok hrun]
  exact Run.bind_eq_of_ok hview

/-! ## Hooks in modules -/

variable {d : Declaration}

theorem home_of_stages {hook : HookKind} (h : scene.Stages S d hook) : scene.home S = d.name := by
  cases h with
  | opening | closing => rfl
  | entering htype | leaving htype => rw [Scene.home, htype]; rfl

theorem runAt_hookAllowance (e : Entity) (args : List Entity) :
    E.runAt S hookAllowance e args = E.step S (E.runAt S (hookAllowance - 1)) e args := rfl

theorem call_eq_of_callback {f : Callback}
    (hpath : E.denotation S scene data path = .ok (.function f.name))
    (hf : E.callbacks.find? (·.name = f.name) = some f) (args : List Entity) (s : Sink) :
    E.call S scene data path args s =
      f.run args { s with log := s.log ++ [.ran f.name] } := by
  have hfind : E.find S scene data path s = (.ok (.function f.name), s) := by rw [find, hpath]; rfl
  have hnote : Run.log (.ran f.name) s = (.ok (), { s with log := s.log ++ [.ran f.name] }) := rfl
  rw [call, Run.bind_eq_of_ok hfind, runAt_hookAllowance, step, Run.bind_eq_of_ok hnote, hf]

/-- The path of a hook in a module of the caller's comes to the callback that is found there, unless
something else captures the first name of the module. -/
theorem call_eq_of_not_captures {hook : HookKind} {runtime home member first name : String}
    {names : List String} {e : Entity} {f : Callback} (hd : S.Declares d)
    (hscene : scene.Stages S d hook) (hpath : hook.path? d.attributes = some path)
    (hsplit : splitHookPath path = (some home, member))
    (hparts : dottedParts (hookExpression path) = first :: names)
    (hhome : (dottedParts home).head? = some first) (hfree : ¬ S.Captures runtime d hook first)
    (hkeyword : first ∉ keywords) (hheader : first ∉ ["annotations", "dataclass"])
    (hmodule : E.modules.find? (·.1 = first) = some (name, e))
    (hwalk : e.walk S (names.map (privateName d.name)) = .ok (.function f.name))
    (hf : E.callbacks.find? (·.name = f.name) = some f) (data : Entity) (args : List Entity)
    (s : Sink) :
    E.call S scene data path args s =
      f.run args { s with log := s.log ++ [.ran f.name] } := by
  refine call_eq_of_callback ?_ hf args s
  have hfront := Layout.front_of_not_captures E hscene data hfree hkeyword hheader
    ⟨home, hd.mem_hookModules hpath hsplit, hhome⟩
  rw [hmodule] at hfront
  unfold denotation
  rw [pathNames, home_of_stages hscene, hparts, List.map_cons]
  dsimp only
  rw [hfront]
  exact hwalk

/-! ## Hooks at their places -/

variable {F : HookFunctions}

theorem Realizes.exists_preEncoded (hE : E.Realizes S d F) {v : Value}
    (hv : S.HasType maxEmptyItems (.declared d.name) v) (s : Sink) : ∃ t,
      (E.hooks S).preEncoded d.attributes d.name v s = .ok (.value (F.preEncode v), t) ∧
        t.bytes = s.bytes := by
  have h := hE.preEncode v hv
  rw [Hooks.preEncoded, Hooks.standin]
  cases hpre : d.attributes.preEncode with
  | none =>
    simp only [hpre] at h
    exact ⟨s, by rw [h]; rfl, rfl⟩
  | some path =>
    simp only [hpre] at h
    obtain ⟨hpath, h⟩ := h
    obtain ⟨t, ht, hbytes⟩ := h s
    obtain ⟨u, hu, hsame⟩ := exists_visit_eq hpath ht
    exact ⟨u, Run.on_eq_of_ok hu, hsame.trans hbytes⟩

theorem Realizes.exists_postEncoded (hE : E.Realizes S d F) {v : Value}
    (hv : S.HasType maxEmptyItems (.declared d.name) v) (s : Sink) : ∃ t,
      (E.hooks S).postEncoded d.attributes d.name v (.value (F.preEncode v)) s = .ok t ∧
        t.bytes.toList = F.postEncode s.bytes.toList := by
  have h := hE.postEncode v hv
  rw [Hooks.postEncoded, Hooks.finish]
  cases hpost : d.attributes.postEncode with
  | none =>
    simp only [hpost] at h
    exact ⟨s, rfl, (h _).symm⟩
  | some path =>
    simp only [hpost] at h
    obtain ⟨hpath, h⟩ := h
    obtain ⟨result, t, ht, hbytes⟩ := h s
    obtain ⟨u, hu, hsame⟩ := exists_visit_eq hpath ht
    have hdiscard : (E.hooks S).postEncode path d.name v
        (d.attributes.preEncode.map fun _ => .value (F.preEncode v)) s = (.ok (), u) :=
      Run.bind_eq_of_ok hu
    exact ⟨u, by rw [Run.on_eq_of_ok hdiscard]; rfl, by rw [hsame, hbytes]⟩

theorem Realizes.exists_preDecoded (hE : E.Realizes S d F) {bs : List UInt8} {s : Source}
    (hbs : F.preDecode s.bytes = some bs) : ∃ t,
      (E.hooks S).preDecoded d.attributes d.name s = .ok ((), t) ∧ t.bytes = bs := by
  have h := hE.preDecode s.toView bs hbs
  rw [Hooks.preDecoded, Hooks.openInput]
  cases hpre : d.attributes.preDecode with
  | none =>
    simp only [hpre] at h
    exact ⟨s, rfl, h.symm⟩
  | some path =>
    simp only [hpre] at h
    obtain ⟨kind, t, ht⟩ := h { log := s.log }
    obtain ⟨view, hview, hbytes⟩ := exists_enterWith_eq ht
    have hread : ((E.hooks S).preDecode path d.name s.toView).read s =
        .ok (view, { s with log := t.log }) := Run.read_eq_of_ok hview
    exact ⟨_, by simp only [hread]; rfl, hbytes⟩

theorem Realizes.exists_postDecoded (hE : E.Realizes S d F) {read : List (String × Value)}
    {v w : Value} {rest : List UInt8} {s : Source} (hread : d.Decodes read v)
    (hw : F.postDecode v s.bytes = some (w, rest)) : ∃ t,
      (E.hooks S).postDecoded d.attributes d.name read v s = .ok (w, t) ∧ t.bytes = rest := by
  have h := hE.postDecode read v w s.toView rest hread hw
  rw [Hooks.postDecoded, Hooks.close]
  cases hpost : d.attributes.postDecode with
  | none =>
    simp only [hpost] at h
    obtain ⟨rfl, rfl⟩ := h
    exact ⟨s, rfl, rfl⟩
  | some path =>
    simp only [hpost] at h
    obtain ⟨kind, t, ht⟩ := h { log := s.log }
    obtain ⟨view, hview, hbytes⟩ := exists_leaveWith_eq ht
    have hread : ((E.hooks S).postDecode path d.name read v s.toView).read s =
        .ok ((w, view), { s with log := t.log }) := Run.read_eq_of_ok hview
    exact ⟨_, by simp only [hread]; rfl, hbytes⟩

/-- Where the paths of hooks come to functions that undo one another, the hooks do. -/
theorem Realizes.hooksUndo (hE : E.Realizes S d F) (hF : F.Inverse S d.name) :
    S.HooksUndo (E.hooks S) d F.preEncode where
  typed := hF.typed
  opens _ hv s := hE.exists_preEncoded hv s
  undoes v hv s := by
    obtain ⟨t, ht, hbytes⟩ := hE.exists_postEncoded hv s
    obtain ⟨u, hu, hback⟩ := hE.exists_preDecoded (s := .ofOrigin { bytes := t.bytes.toList })
      (hbytes ▸ hF.preDecode_postEncode s.bytes.toList)
    exact ⟨t, u, ht, hu, hback⟩
  closes v hv _ s hread := hE.exists_postDecoded hread (hF.postDecode_preEncode v hv s.bytes)

end Surroundings

namespace Layout

variable {S : Layout}

/-- A type whose hooks are called and undo one another, and in which there are no hooks, round-trips.
What its last hook of encoding meets is the plain encoding of what the first one puts in place of the
value, with the tag of that if it is of a union, and nothing remains. -/
theorem decodeFrom_encoded_of_inverse [Text.CharacterNames] {text : String}
    (hS : ofText text = .ok S) (hB : S.KeepsBuiltins) {d : Declaration} (hd : S.Declares d)
    (hfields : ∀ f ∈ d.wireFields, S.ReadsUnhooked f.codec) {E : Surroundings} {F : HookFunctions}
    (hE : E.Realizes S d F) (hF : F.Inverse S d.name) {v : Value}
    (hv : S.HasType maxEmptyItems (.declared d.name) v) :
    ∃ plain s t, S.withoutHooks.encoded (E.hooks S) (F.preEncode v) = .ok plain ∧
      S.encoded (E.hooks S) v = .ok s ∧ s.bytes.toList = F.postEncode plain.bytes.toList ∧
      S.decodeFrom (E.hooks S) d.name s.bytes.toList = .ok (S.reset v, t) ∧ t.bytes = [] := by
  obtain ⟨plain, u, s, t, hplain, hu, hpost, hs, hdecoded, hrest⟩ :=
    decodeFrom_encoded_of_hooksUndo hS hB hd hfields (hE.hooksUndo hF) hv
  obtain ⟨s', hs', hbytes⟩ := hE.exists_postEncoded hv u
  cases hpost.symm.trans hs'
  exact ⟨plain, s, t, hplain, hs, hu ▸ hbytes, hdecoded, hrest⟩

/-! ## Exchanging variants -/

/-- A union value with the fields that it has, as the other of two variants. -/
def exchanged (one other : String) : Value → Value
  | .object (.variant union name) fields =>
    .object (.variant union (if name = one then other else one)) fields
  | v => v

/-- Two variants are exchanged, and a checksum is put behind the encoding. -/
def exchange (one other : String) : HookFunctions where
  preEncode := exchanged one other
  postEncode bs := bs ++ [Checksum.sum bs]
  preDecode := Checksum.verify
  postDecode v rest := some (exchanged one other v, rest)

def exchangeCallback (one other : String) : HookKind → Callback
  | .preEncode => .onObject "exchange" fun v => .ok (exchanged one other v)
  | .postEncode => Checksum.appendCallback
  | .preDecode => Checksum.checkCallback
  | .postDecode => .onDecoded "restore" fun v data => .ok (some (exchanged one other v, data))

/-- A module with these callbacks. -/
def exchangeModule (one other : String) : Surroundings where
  modules := [("hooks", .module (HookKind.all.map fun hook =>
    ((exchangeCallback one other hook).name, .function (exchangeCallback one other hook).name)))]
  names := []
  callbacks := HookKind.all.map (exchangeCallback one other)

section

variable {u : UnionLayout} {one other : String} {faces : List (String × Codec)}

/-- Two variants with the same fields have the same values, but for the variant. -/
theorem HasType.exchanged (hS : S.WellFormed) (hu : u ∈ S.unions) (hne : one ≠ other)
    (hnames : u.variants.map VariantLayout.name = [one, other])
    (hfaces : ∀ v ∈ u.variants, v.variant.fields.map (fun f => (f.ident, f.codec)) = faces)
    {most : Nat} {w : Value} (hw : S.HasType most (.declared u.name) w) :
    S.HasType most (.declared u.name) (exchanged one other w) ∧
      exchanged one other (S.reset (exchanged one other w)) = S.reset w := by
  have hname : ∀ name, (∃ v ∈ u.variants, v.name = name) ↔ name = one ∨ name = other := by
    intro name
    have hmem : name ∈ u.variants.map VariantLayout.name ↔ name = one ∨ name = other := by
      simp [hnames]
    rwa [List.mem_map] at hmem
  obtain ⟨owner, front, names, wire, fields, rfl, hbody, hidents, htyped⟩ :=
    hw.exists_body (d := .union u) hS hu
  cases hbody with
  | @variant _ v _ hv =>
    obtain ⟨v', hv', hname'⟩ := (hname (if v.name = one then other else one)).2 (by
      split
      · exact .inr rfl
      · exact .inl rfl)
    have hface := (hfaces v' hv').trans (hfaces v hv).symm
    constructor
    · rw [Layout.exchanged, ← hname']
      have hidents' := congrArg (List.map Prod.fst) hface
      rw [List.map_map, List.map_map] at hidents'
      refine .variant (hS.variant?_eq_some hu hv') (hidents.trans hidents'.symm) fun f hf e he hn => ?_
      have hmem := List.mem_map_of_mem (f := fun f : Field => (f.ident, f.codec)) hf
      rw [hface] at hmem
      obtain ⟨g, hg, hgf⟩ := List.mem_map.1 hmem
      obtain ⟨hident, hcodec⟩ := Prod.mk.inj hgf
      rw [← hcodec]
      exact htyped g hg e he (hn.trans hident.symm)
    · have hback : (if (if v.name = one then other else one) = one then other else one) = v.name := by
        rcases (hname v.name).1 ⟨v, hv, rfl⟩ with h | h <;> simp [h, hne.symm]
      simp only [Layout.exchanged, Layout.reset, resetFields_eq_map, ignoredDefault?,
        Option.getD_none, hback]

/-- Exchanging is undone by exchanging, and the checksum by checking it. -/
theorem inverse_exchange (hS : S.WellFormed) (hu : u ∈ S.unions) (hne : one ≠ other)
    (hnames : u.variants.map VariantLayout.name = [one, other])
    (hfaces : ∀ v ∈ u.variants, v.variant.fields.map (fun f => (f.ident, f.codec)) = faces) :
    (exchange one other).Inverse S u.name where
  typed _ hv := (hv.exchanged hS hu hne hnames hfaces).1
  preDecode_postEncode := Checksum.verify_append_sum
  postDecode_preEncode v hv rest := by
    rw [← (hv.exchanged hS hu hne hnames hfaces).2]
    rfl

end

variable {d : Declaration} {one other : String}

theorem name_exchangeCallback_mem (one other : String) (hook : HookKind) :
    (exchangeCallback one other hook).name ∈
      ["exchange", "append_checksum", "check_checksum", "restore"] := by
  have hhook : hook ∈ HookKind.all := by cases hook <;> decide
  exact List.mem_map_of_mem (f := fun hook => (exchangeCallback one other hook).name) hhook

theorem call_exchangeModule (hd : S.Declares d) (hnames : "hooks" ∉ S.names) {hook : HookKind}
    (hpath : hook.path? d.attributes = some ("hooks:" ++ (exchangeCallback one other hook).name))
    {scene : Scene} (hscene : scene.Stages S d hook) (data : Entity) (args : List Entity)
    (s : Sink) :
    let f := exchangeCallback one other hook
    (exchangeModule one other).call S scene data ("hooks:" ++ f.name) args s =
      f.run args { s with log := s.log ++ [.ran f.name] } := by
  intro f
  have hparameters : "hooks" ∉ hook.parameters := by cases hook <;> decide
  have hfree : ¬ S.Captures "" d hook "hooks" := by
    rw [captures_iff_of_head? (by decide)]
    simp only [hnames, hparameters, or_false]
    decide
  have hsplit : ∀ name ∈ ["exchange", "append_checksum", "check_checksum", "restore"],
      splitHookPath ("hooks:" ++ name) = (some "hooks", name) ∧
        dottedParts (hookExpression ("hooks:" ++ name)) = ["hooks", name] ∧
          name.toList.head? ≠ some '_' := by
    decide
  obtain ⟨hsplit, hparts, hhead⟩ := hsplit f.name (name_exchangeCallback_mem one other hook)
  refine Surroundings.call_eq_of_not_captures hd hscene hpath hsplit hparts (by decide) hfree
    (by decide) (by decide) rfl ?_ (by cases hook <;> rfl) data args s
  rw [List.map_singleton, privateName_of_head? hhead]
  cases hook <;> rfl

theorem isMention_exchangeCallback (one other : String) (hook : HookKind) :
    isMention ("hooks:" ++ (exchangeCallback one other hook).name) = false := by
  have hall : ∀ name ∈ ["exchange", "append_checksum", "check_checksum", "restore"],
      isMention ("hooks:" ++ name) = false := by
    decide
  exact hall _ (name_exchangeCallback_mem one other hook)

/-- The callbacks do what is meant by them. -/
theorem realizes_exchangeModule (hS : S.WellFormed) (hd : S.Declares d) (hnames : "hooks" ∉ S.names)
    (hpaths : ∀ hook : HookKind,
      hook.path? d.attributes = some ("hooks:" ++ (exchangeCallback one other hook).name)) :
    (exchangeModule one other).Realizes S d (exchange one other) where
  preEncode v _ := by
    have hpath : d.attributes.preEncode = _ := hpaths .preEncode
    simp only [hpath]
    refine ⟨isMention_exchangeCallback one other _, fun s => ⟨_,
      (call_exchangeModule hd hnames (hpaths _) (.opening ?_) _ _ s).trans rfl, rfl⟩⟩
    rw [hpath, Option.isSome_some]
  postEncode v _ := by
    have hpath : d.attributes.postEncode = _ := hpaths .postEncode
    simp only [hpath]
    refine ⟨isMention_exchangeCallback one other _, fun s => ⟨.nothing, _,
      (call_exchangeModule hd hnames (hpaths _) (.closing ?_) _ _ s).trans rfl, Array.toList_push⟩⟩
    rw [Option.isSome_map]
    exact id
  preDecode view bs hbs := by
    have hpath : d.attributes.preDecode = _ := hpaths .preDecode
    have hrun : ∀ t, Checksum.checkCallback.run [.ofView view] t =
        (.ok ((Checksum.verify view.bytes).elim .nothing (Entity.ofView view).derived), t) :=
      fun _ => rfl
    have hverify : Checksum.verify view.bytes = some bs := hbs
    simp only [hverify] at hrun
    simp only [hpath]
    exact fun s => ⟨.view view.origin, _, (call_exchangeModule hd hnames (hpaths _)
      (.entering (hS.declaration?_eq_some hd)) _ _ s).trans (hrun _)⟩
  postDecode read v w view rest hread hw := by
    have hpath : d.attributes.postDecode = _ := hpaths .postDecode
    cases hw
    simp only [hpath]
    exact fun s => ⟨.view view.origin, _, (call_exchangeModule hd hnames (hpaths _)
      (.leaving (hS.declaration?_eq_some hd) hread) _ _ s).trans rfl⟩

/-- A union with all four hooks, whose values are encoded as the other variant. -/
theorem decodeFrom_encoded_of_exchange :
    let text := "@codec(pre_enc_func = \"hooks:exchange\", " ++
      "post_enc_func = \"hooks:append_checksum\", pre_dec_func = \"hooks:check_checksum\", " ++
      "post_dec_func = \"hooks:restore\", inferred_values) " ++
      "union U \x7b A \x7b x: u8 \x7d B \x7b x: u8 \x7d \x7d"
    let v := Value.object (.variant "U" "A") [("x", .int 7)]
    let E := exchangeModule "A" "B"
    ∃ S d, ofText text = .ok S ∧ S.KeepsBuiltins ∧ S.Declares d ∧
      (∀ f ∈ d.wireFields, S.ReadsUnhooked f.codec) ∧ E.Realizes S d (exchange "A" "B") ∧
      (exchange "A" "B").Inverse S d.name ∧ S.HasType maxEmptyItems (.declared d.name) v ∧
      exchanged "A" "B" v = .object (.variant "U" "B") [("x", .int 7)] ∧
      ∃ s t, S.encoded (E.hooks S) v = .ok s ∧ s.bytes = #[1, 0, 7, 8] ∧
        S.decodeFrom (E.hooks S) d.name s.bytes.toList = .ok (S.reset v, t) ∧ t.bytes = [] := by
  intro text v E
  obtain ⟨S, hS, h⟩ := exists_of_any_ofText text
    (fun S => S.KeepsBuiltins && !S.names.contains "hooks" &&
      (S.union? "U").any (fun u => u.name = "U" ∧
        (∀ hook ∈ HookKind.all, hook.path? u.attributes =
          some ("hooks:" ++ (exchangeCallback "A" "B" hook).name)) ∧
        u.variants.map VariantLayout.name = ["A", "B"] ∧
        ∀ v ∈ u.variants, v.variant.fields.map (fun f => (f.ident, f.codec)) = [("x", .int .u8)]) &&
      (S.encoded (E.hooks S) v).toOption.any (·.bytes = #[1, 0, 7, 8]))
    (by decide +kernel)
  simp only [Bool.and_eq_true, Option.any_eq_true, decide_eq_true_eq, Bool.not_eq_true'] at h
  obtain ⟨⟨⟨hbuiltins, hhooks⟩, u, hu, hname, hpaths, hnames, hfaces⟩, s, hs, hbytes⟩ := h
  have hhooks : "hooks" ∉ S.names := by
    rw [← List.contains_iff_mem, hhooks]
    exact Bool.false_ne_true
  have hwf := wellFormed_of_ofText hS
  have hd : S.Declares (.union u) := (mem_of_union? hu).1
  have hcodec : ∀ v ∈ u.variants, ∀ f ∈ v.variant.fields, f.codec = .int .u8 := by
    intro v hv f hf
    have hmem := List.mem_map_of_mem (f := fun f : Field => (f.ident, f.codec)) hf
    rw [hfaces v hv, List.mem_singleton] at hmem
    exact (Prod.mk.inj hmem).2
  have hunhooked : ∀ f ∈ (Declaration.union u).wireFields, S.ReadsUnhooked f.codec := by
    intro f hf d hleads
    obtain ⟨v, hv, hf⟩ := List.mem_flatMap.1 hf
    rw [hcodec v hv f hf] at hleads
    exact absurd rfl hleads.declaredNames_ne_nil
  have hrealizes : E.Realizes S (.union u) (exchange "A" "B") :=
    realizes_exchangeModule hwf hd hhooks fun hook => hpaths hook (by cases hook <;> decide)
  have hinverse : (exchange "A" "B").Inverse S u.name :=
    inverse_exchange hwf hd (by decide) hnames hfaces
  have hv : S.HasType maxEmptyItems (.declared u.name) v := by
    have hmem : "A" ∈ u.variants.map VariantLayout.name := hnames ▸ .head _
    obtain ⟨a, ha, hA⟩ := List.mem_map.1 hmem
    have hvariant := hwf.variant?_eq_some hd ha
    rw [hname, hA] at hvariant
    rw [hname]
    exact .variant_of_single hvariant (hfaces a ha) (.int (by decide) (by decide))
  obtain ⟨_, t, r, -, ht, -, hdecoded, hrest⟩ :=
    decodeFrom_encoded_of_inverse hS hbuiltins hd hunhooked hrealizes hinverse hv
  rw [ht] at hs
  cases hs
  exact ⟨S, .union u, hS, hbuiltins, hd, hunhooked, hrealizes, hinverse, hv, rfl, s, r, ht, hbytes,
    hdecoded, hrest⟩

/-- A checksum is put behind the encoding, and checked before decoding. -/
def checksum : HookFunctions where
  preEncode v := v
  postEncode bs := bs ++ [Checksum.sum bs]
  preDecode := Checksum.verify
  postDecode v rest := some (v, rest)

theorem inverse_checksum (S : Layout) (type : String) : checksum.Inverse S type where
  typed _ hv := hv
  preDecode_postEncode := Checksum.verify_append_sum
  postDecode_preEncode _ _ _ := rfl

/-- With a line feed behind its path, the hook that should put the checksum there is not called. -/
theorem not_undone_of_line_feed :
    let text := "@codec(post_enc_func = \"hooks:append_checksum\\n\", " ++
      "pre_dec_func = \"hooks:check_checksum\") struct A \x7b x: u8 \x7d"
    let v := Value.object (.record "A") [("x", .int 1)]
    let E := exchangeModule "" ""
    ∃ S r, ofText text = .ok S ∧ S.KeepsBuiltins ∧ S.record? "A" = some r ∧
      r.attributes.postEncode = some "hooks:append_checksum\n" ∧
      checksum.Inverse S r.name ∧ S.HasType maxEmptyItems (.declared "A") v ∧
      ∃ s, S.encoded (E.hooks S) v = .ok s ∧ s.bytes = #[1] ∧
        ∀ found, S.decodeFrom (E.hooks S) "A" s.bytes.toList ≠ .ok found := by
  intro text v E
  obtain ⟨S, hS, h⟩ := exists_of_any_ofText text
    (fun S => S.KeepsBuiltins && (S.record? "A").any (fun r =>
        r.attributes.postEncode = some "hooks:append_checksum\n" ∧
        r.fields.map (·.field.ident) = ["x"] ∧ ∀ f ∈ r.wireFields, f.codec = .int .u8) &&
      (S.encoded (E.hooks S) v).toOption.any (·.bytes = #[1]) &&
      (S.decodeFrom (E.hooks S) "A" [1]).toOption.isNone)
    (by decide +kernel)
  simp only [Bool.and_eq_true, Option.any_eq_true, decide_eq_true_eq, Option.isNone_iff_eq_none] at h
  obtain ⟨⟨⟨hbuiltins, r, hr, hpath, hidents, hcodec⟩, s, hs, hbytes⟩, hrejected⟩ := h
  have hv : S.HasType maxEmptyItems (.declared "A") v :=
    .record_of_single hr hidents hcodec (.int (by decide) (by decide))
  refine ⟨S, r, hS, hbuiltins, hr, hpath, inverse_checksum S r.name, hv, s,
    toOption_eq_some_iff.1 hs, hbytes, fun found hfound => ?_⟩
  rw [hbytes] at hfound
  rw [toOption_eq_some_iff.2 hfound] at hrejected
  cases hrejected

end Layout

end WireSchema
