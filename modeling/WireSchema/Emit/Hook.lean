import WireSchema.Emit.Binding
import WireSchema.Wire.Scope

/-!
# Hooks in emitted modules

Which methods of an emitted module call hooks, and what the names in these calls mean. A name is
looked up among the names of the method, then as that of the class whose code it is, and then among
the names at the top of the module, of which the one that is bound last counts. All modules of hooks
are imported before the runtime is, and before there are classes and codecs.
-/

namespace WireSchema

/-! ## Calls -/

def Statement.hook? : Statement → Option String
  | replaceSelf hook | finishBuffer hook | openInput hook => some hook
  | returnObject _ hook | returnValue hook => hook
  | _ => none

/-- The names at the top of the module that a statement refers to apart from its hook. -/
def Statement.ownReferences : Statement → List String
  | replaceSelf _ | finishBuffer _ => []
  | openInput _ => ["apply_pre_decode"]
  | returnObject fields hook => fields.flatMap (fun f => f.2.references) ++ returned hook
  | returnValue hook => returned hook
  | s => s.references
where
  returned : Option String → List String
    | some _ => ["apply_post_decode"]
    | none => []

theorem Statement.mem_references_iff {s : Statement} {name : String} : name ∈ s.references ↔
    name ∈ s.ownReferences ∨ ∃ e, s.hook? = some e ∧ name = firstPart e := by
  cases s with
  | returnObject fields hook | returnValue hook =>
    cases hook <;> simp [references, references.returned, ownReferences, ownReferences.returned,
      hook?, or_assoc]
  | _ => simp [references, ownReferences, hook?]

def Method.hooks (f : Method) : List String := f.body.filterMap Statement.hook?

def Module.ownReferences (m : Module) : List String :=
  m.outerReferences ++ m.methods.flatMap fun f => f.body.flatMap Statement.ownReferences

namespace Declaration

variable (table : CodecTable)

def encodeMethod : Declaration → Method
  | record r => .ofEncode (r.encodeBody table)
  | union u => .ofEncode u.encodeBody

def decodeMethod : Declaration → Method
  | record r => .ofDecode (r.decodeBody table)
  | union u => .ofDecode u.decodeBody

def hookMethod (d : Declaration) : HookKind → Method
  | .preEncode | .postEncode => d.encodeMethod table
  | .preDecode | .postDecode => d.decodeMethod table

end Declaration

/-! ## Meanings of names -/

/-- What a name in a method of an emitted module means. -/
inductive Meaning where
  /-- A parameter or a local of the method. -/
  | own
  /-- The class whose code it is. -/
  | ownClass
  /-- What was imported for a hook, by the name that the import has bound. -/
  | hookModule (name : String)
  /-- Anything else that is bound at the top of the module. -/
  | top
  /-- What the module does not bind. -/
  | outer
deriving DecidableEq, Repr

/-- The locals of a method that a statement assigns. A name that counts the elements of a list is
known in the list only. -/
def Statement.assigned : Statement → List String
  | returnObject .. => []
  | s => s.locals

/-- The names of a method. What it assigns anywhere belongs to it from its start. -/
def Method.scope (f : Method) : List String :=
  f.parameters ++ f.body.flatMap Statement.assigned

namespace Module

variable (m : Module)

def earlierNames : List String :=
  ["annotations", "dataclass"] ++ if isLocal m.runtime then ["sys", "Path"] else []

def laterNames : List String :=
  (if isLocal m.runtime then ["_runtime_path", "_added_to_path"] else []) ++ runtimeNames ++
    m.classNames ++ m.codecs.map Prod.fst

def topNames : List (String × Meaning) :=
  m.earlierNames.map (·, .top) ++
    (m.hookModules.map firstPart).map (fun name => (name, .hookModule name)) ++
      m.laterNames.map (·, .top)

def meaning (home : String) (f : Method) (name : String) : Meaning :=
  let name := privateName home name
  if name ∈ f.scope then .own
  else if name = "__class__" then .ownClass
  else (m.topNames.reverse.lookup name).getD .outer

end Module

/-! ## Runs -/

/-- The fields that were read and the value made of them, when a declared type was decoded. -/
def Declaration.Decodes (read : List (String × Value)) (v : Value) : Declaration → Prop
  | record r => (∃ fields, v = .object (.record r.name) fields) ∧
    read.map Prod.fst = r.wireFields.map Field.ident
  | union u => ∃ name fields, v = .object (.variant u.name name) fields

/-- The scenes in which a hook of a declaration runs. -/
inductive Scene.Stages (S : Layout) (d : Declaration) : HookKind → Scene → Prop
  | opening {v : Value} : d.attributes.preEncode.isSome = true →
    Stages S d .preEncode (.opening d.name v)
  | closing {v : Value} {standin? : Option Entity} :
    (standin?.isSome = true → d.attributes.preEncode.isSome = true) →
      Stages S d .postEncode (.closing d.name v standin?)
  | entering {type : String} : S.declaration? type = some d →
    Stages S d .preDecode (.entering type)
  | leaving {type : String} {read : List (String × Value)} {v : Value} :
    S.declaration? type = some d → d.Decodes read v → Stages S d .postDecode (.leaving type read v)

end WireSchema
