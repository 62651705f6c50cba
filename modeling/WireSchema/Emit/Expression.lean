import WireSchema.Wire.Segment

/-!
# Emitted expressions

Types, codecs and defaults as the expressions that stand for them in an emitted module.
-/

namespace WireSchema

/-- The name of a primitive's codec in an emitted module: its own name in capitals. -/
def Primitive.codecName (p : Primitive) : String := p.name.toUpper

def Primitive.hint : Primitive → String
  | .bool => "bool"
  | .int _ => "int"
  | .string => "str"

namespace TypeExpr

mutual
def hint : TypeExpr → String
  | named name =>
    match Primitive.ofName? name with
    | some p => p.hint
    | none => name
  | applied name args =>
    match hints args with
    | [t] =>
      if name = "optional" then t ++ " | None"
      else if name = "list" then "list[" ++ t ++ "]"
      else name
    | [k, v] => if name = "map" then "dict[" ++ k ++ ", " ++ v ++ "]" else name
    | _ => name
  | array element _ => "list[" ++ hint element ++ "]"

def hints : List TypeExpr → List String
  | [] => []
  | t :: ts => hint t :: hints ts
end

end TypeExpr

namespace Codec

def expression : Codec → String
  | int k => (Primitive.int k).codecName
  | bool => Primitive.bool.codecName
  | string => Primitive.string.codecName
  | packedBools => "PACKED_BOOLS"
  | optional c => "OptionalCodec(" ++ c.expression ++ ")"
  | list c => "ListCodec(" ++ c.expression ++ ")"
  | array c n => "ArrayCodec(" ++ c.expression ++ ", " ++ toString n ++ ")"
  | map k v => "MapCodec(" ++ k.expression ++ ", " ++ v.expression ++ ")"
  | declared name => "TypeCodec(" ++ name ++ ")"

def expressionNames : Codec → List String
  | int k => [(Primitive.int k).codecName]
  | bool => [Primitive.bool.codecName]
  | string => [Primitive.string.codecName]
  | packedBools => ["PACKED_BOOLS"]
  | optional c => "OptionalCodec" :: c.expressionNames
  | list c => "ListCodec" :: c.expressionNames
  | array c _ => "ArrayCodec" :: c.expressionNames
  | map k v => "MapCodec" :: k.expressionNames ++ v.expressionNames
  | declared name => ["TypeCodec", name]

def defaultExpression : Codec → String
  | int _ => "0"
  | bool => "False"
  | string => "\"\""
  | packedBools => "[False for _ in range(8)]"
  | optional _ => "None"
  | list _ => "[]"
  | array c n => "[" ++ c.defaultExpression ++ " for _ in range(" ++ toString n ++ ")]"
  | map _ _ => "\x7b\x7d"
  | declared name => name ++ ".default()"

def defaultNames : Codec → List String
  | array c _ => c.defaultNames
  | declared name => [name]
  | _ => []

/-- The codec of a field without an entry of its own among a module's codecs: that of a
primitive. -/
def primitive? : Codec → Option Primitive
  | int k => some (.int k)
  | bool => some .bool
  | string => some .string
  | _ => none

end Codec

end WireSchema
