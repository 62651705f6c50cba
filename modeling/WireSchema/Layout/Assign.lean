import WireSchema.Layout.Resolve

/-!
# Attributes argument by argument

What the arguments of blocks say without regard to the blocks. Each argument is assigned over what
those in front of it have said, so the last value given for a key counts, and a flag counts wherever
it is. Only the location of union options depends on the blocks.
-/

namespace WireSchema

namespace Argument

def text? (key : String) : Argument → Option String
  | keyed k (.string s) _ _ => if k = key then some s else none
  | _ => none

def number? (key : String) : Argument → Option Int
  | keyed k (.integer n) _ _ => if k = key then some n else none
  | _ => none

def isFlag (key : String) : Argument → Bool
  | flag k _ => k = key
  | _ => false

/-- Whether an option is set that only a union has. -/
def isUnionOption (x : Argument) : Bool :=
  (x.text? "encoding_type").isSome || x.isFlag "inferred_values"

end Argument

def AnnotationBlock.join (blocks : List AnnotationBlock) (l : Location) : AnnotationBlock :=
  ⟨blockName, blocks.flatMap arguments, l⟩

namespace FieldAttributes

def assign (a : FieldAttributes) (x : Argument) : Resolved FieldAttributes := do
  let (key, _) ← checkForm ["order_no"] ["ignore"] x
  if key = "order_no" then return { a with orderNo := some (← expectNumber maxOrderNo x) }
  else return { a with ignore := true }

def ofBlock (b : AnnotationBlock) : Resolved FieldAttributes := b.arguments.foldlM assign empty

end FieldAttributes

namespace VariantAttributes

def assign (a : VariantAttributes) (x : Argument) : Resolved VariantAttributes := do
  let _ ← checkForm ["value"] [] x
  return { a with value := some (← expectNumber maxVariantValue x) }

def ofBlock (b : AnnotationBlock) : Resolved VariantAttributes := b.arguments.foldlM assign empty

end VariantAttributes

namespace HookKind

def path? (a : TypeAttributes) : HookKind → Option String
  | preEncode => a.preEncode
  | postEncode => a.postEncode
  | preDecode => a.preDecode
  | postDecode => a.postDecode

def assign (path : String) (a : TypeAttributes) : HookKind → TypeAttributes
  | preEncode => { a with preEncode := some path }
  | postEncode => { a with postEncode := some path }
  | preDecode => { a with preDecode := some path }
  | postDecode => { a with postDecode := some path }

end HookKind

namespace TypeAttributes

def assign (a : TypeAttributes) (x : Argument) : Resolved TypeAttributes := do
  let options := a.unionOptions.getD .empty
  let (key, _) ← checkForm (HookKind.all.map HookKind.key ++ ["encoding_type"])
    ["inferred_values"] x
  match HookKind.all.find? (·.key = key) with
  | some hook => do
    let path ← expectString .invalidHookPath x
    if isHookPath path then return hook.assign path a
    else unresolved (.invalidHookPath path) x.valueLocation
  | none =>
    if key = "encoding_type" then do
      let name ← expectString (fun _ => .unknownWidth) x
      match TagWidth.ofName? name with
      | some w => return { a with unionOptions := some (options.merge { width? := some w }) }
      | none => unresolved .unknownWidth x.valueLocation
    else
      return { a with unionOptions := some (options.merge { inferred := true }) }

def place (l? : Option Location) (a : TypeAttributes) : TypeAttributes :=
  { a with unionLocation := l? }

/-- A block with options that only a union has leaves its location. -/
def ofBlock (b : AnnotationBlock) : Resolved TypeAttributes := do
  let a ← b.arguments.foldlM assign empty
  return a.place (if a.unionOptions.isSome then some b.location else none)

/-- The location of the first block that sets an option only a union has. -/
def optionLocation? (blocks : List AnnotationBlock) : Option Location :=
  (blocks.find? fun b => b.arguments.any Argument.isUnionOption).map AnnotationBlock.location

end TypeAttributes

/-! What attributes tell of the arguments that they come from: the last value that is given for each
key, and whether each flag is given at all. -/

structure FieldAttributes.Tells (xs : List Argument) (a : FieldAttributes) : Prop where
  orderNo : a.orderNo = (xs.filterMap (Argument.number? "order_no")).getLast?
  ignore : a.ignore = xs.any (Argument.isFlag "ignore")

structure VariantAttributes.Tells (xs : List Argument) (a : VariantAttributes) : Prop where
  value : a.value = (xs.filterMap (Argument.number? "value")).getLast?

structure TypeAttributes.Tells (xs : List Argument) (a : TypeAttributes) : Prop where
  hooks : ∀ hook : HookKind, hook.path? a = (xs.filterMap (Argument.text? hook.key)).getLast?
  options : a.unionOptions.isSome = xs.any Argument.isUnionOption
  width : (a.unionOptions.bind UnionOptions.width?).map TagWidth.name =
    (xs.filterMap (Argument.text? "encoding_type")).getLast?
  inferred : a.unionOptions.any UnionOptions.inferred =
    xs.any (Argument.isFlag "inferred_values")

end WireSchema
