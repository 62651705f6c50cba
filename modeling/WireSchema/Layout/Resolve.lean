import WireSchema.Layout.Attributes
import WireSchema.Layout.Fault
import WireSchema.Text.Escape

/-!
# Resolving annotation blocks

Each kind of declaration has a vocabulary: the keys it understands, what an argument with such a
key sets, and how settings are merged. All blocks must carry the one known name. Then a block is
the merger of its arguments, and a declaration the merger of its blocks.
-/

namespace WireSchema

def blockName : String := "codec"

def maxOrderNo : Nat := Nat.pow 2 64 - 1

def maxVariantValue : Nat := Nat.pow 2 128 - 1

/-- The four places at which a hook can run. -/
inductive HookKind where
  | preEncode | postEncode | preDecode | postDecode
deriving DecidableEq, Repr

namespace HookKind

def all : List HookKind := [preEncode, postEncode, preDecode, postDecode]

def key : HookKind → String
  | preEncode => "pre_enc_func"
  | postEncode => "post_enc_func"
  | preDecode => "pre_dec_func"
  | postDecode => "post_dec_func"

/-- The attributes that give only this hook. -/
def attributes (path : String) : HookKind → TypeAttributes
  | preEncode => { preEncode := some path }
  | postEncode => { postEncode := some path }
  | preDecode => { preDecode := some path }
  | postDecode => { postDecode := some path }

end HookKind

/-- An argument in its proper form: a key with a value, or a bare key that is a flag. -/
def checkForm (keys flags : List String) : Argument → Resolved (String × Option Literal)
  | .bare _ l => unresolved .bareLiteral l
  | .flag key l =>
    if flags.contains key then pure (key, none)
    else if keys.contains key then unresolved (.lacksValue key) l
    else unresolved .unknownKey l
  | .keyed key value l _ =>
    if flags.contains key then unresolved (.takesNoValue key) l
    else if keys.contains key then pure (key, some value)
    else unresolved .unknownKey l

/-- A string. One that is no text has the fault of a text that does not do. -/
def expectString (fault : String → LayoutFault) (a : Argument) : Resolved String :=
  match a.value? with
  | some (.string s) => pure s
  | some (.codePoints points) => unresolved (fault (Text.shownPoints points)) a.valueLocation
  | _ => unresolved .expectedString a.valueLocation

def expectNumber (max : Nat) (a : Argument) : Resolved Nat :=
  match a.value? with
  | some (.integer n) => if n ≤ max then pure n else unresolved .numberTooLarge a.valueLocation
  | _ => unresolved .expectedNumber a.valueLocation

/-- What the blocks on one kind of declaration can say. An argument is read together with the
location of its block. -/
structure Vocabulary (α : Type) where
  empty : α
  merge : α → α → α
  argument : Location → Argument → Resolved α

namespace Vocabulary

variable {α : Type} (V : Vocabulary α)

def resolveBlock (b : AnnotationBlock) : Resolved α :=
  b.arguments.foldlM (fun acc a => return V.merge acc (← V.argument b.location a)) V.empty

/-- Names are checked first, so that an unknown block anywhere is reported before any argument. -/
def checkNames : List AnnotationBlock → Resolved Unit
  | [] => pure ()
  | b :: bs =>
    if b.name = blockName then checkNames bs else unresolved (.unknownBlock b.name) b.location

def resolve (blocks : List AnnotationBlock) : Resolved α := do
  checkNames blocks
  blocks.foldlM (fun acc b => return V.merge acc (← V.resolveBlock b)) V.empty

end Vocabulary

namespace FieldAttributes

def argument (_ : Location) (a : Argument) : Resolved FieldAttributes := do
  let (key, _) ← checkForm ["order_no"] ["ignore"] a
  if key = "order_no" then return { orderNo := some (← expectNumber maxOrderNo a) }
  else return { ignore := true }

def vocabulary : Vocabulary FieldAttributes := ⟨empty, merge, argument⟩

def resolve (blocks : List AnnotationBlock) : Resolved FieldAttributes :=
  vocabulary.resolve blocks

end FieldAttributes

namespace VariantAttributes

def argument (_ : Location) (a : Argument) : Resolved VariantAttributes := do
  let _ ← checkForm ["value"] [] a
  return { value := some (← expectNumber maxVariantValue a) }

def vocabulary : Vocabulary VariantAttributes := ⟨empty, merge, argument⟩

def resolve (blocks : List AnnotationBlock) : Resolved VariantAttributes :=
  vocabulary.resolve blocks

end VariantAttributes

namespace TypeAttributes

def argument (block : Location) (a : Argument) : Resolved TypeAttributes := do
  let (key, _) ← checkForm (HookKind.all.map HookKind.key ++ ["encoding_type"])
    ["inferred_values"] a
  match HookKind.all.find? (·.key = key) with
  | some hook => do
    let path ← expectString .invalidHookPath a
    if isHookPath path then return hook.attributes path
    else unresolved (.invalidHookPath path) a.valueLocation
  | none =>
    if key = "encoding_type" then do
      let name ← expectString (fun _ => .unknownWidth) a
      match TagWidth.ofName? name with
      | some w =>
        return { unionOptions := some { width? := some w }, unionLocation := some block }
      | none => unresolved .unknownWidth a.valueLocation
    else
      return { unionOptions := some { inferred := true }, unionLocation := some block }

def vocabulary : Vocabulary TypeAttributes := ⟨empty, merge, argument⟩

def resolve (blocks : List AnnotationBlock) : Resolved TypeAttributes :=
  vocabulary.resolve blocks

end TypeAttributes

end WireSchema
