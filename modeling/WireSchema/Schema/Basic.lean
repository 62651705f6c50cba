import WireSchema.Text.Location

/-!
# Schemas

What the text of a schema says: records and unions in source order, the types of their fields, and
the annotation blocks attached to them. Every part that a diagnostic can point at carries its
location. Nothing is resolved yet; a discriminant, for instance, is still the text as written.
-/

namespace WireSchema

/-- A type as written: a name, a name applied to types in angle brackets, or a fixed array. -/
inductive TypeExpr where
  | named (name : String)
  | applied (name : String) (args : List TypeExpr)
  | array (element : TypeExpr) (size : Nat)
deriving BEq, Repr, Inhabited

namespace TypeExpr

def head : TypeExpr → String
  | named name => name
  | applied name _ => name
  | array _ _ => "array"

def args : TypeExpr → List TypeExpr
  | named _ => []
  | applied _ args => args
  | array element _ => [element]

def size? : TypeExpr → Option Nat
  | array _ size => some size
  | _ => none

/-! The text of a type writes arrays behind their element. The word `array` alone has none, since
it names no element; applied to types it shows that it lacks a size. -/

mutual
def text? : TypeExpr → Option String
  | named name => if name = "array" then none else some name
  | applied name args =>
    if name = "array" then (firstText? args).map (· ++ "[None]")
    else (textList? args).map fun ts => name ++ "<" ++ ", ".intercalate ts ++ ">"
  | array element size => (text? element).map fun t => t ++ "[" ++ toString size ++ "]"

def textList? : List TypeExpr → Option (List String)
  | [] => some []
  | t :: ts =>
    match text? t, textList? ts with
    | some s, some ss => some (s :: ss)
    | _, _ => none

def firstText? : List TypeExpr → Option String
  | [] => none
  | t :: _ => text? t
end

def text (t : TypeExpr) : String := t.text?.getD ""

end TypeExpr

/-- A value written inside an annotation block. -/
inductive Literal where
  | string (text : String)
  /-- A string that is no text, as there are surrogates among its code points. -/
  | codePoints (points : List Nat)
  | integer (n : Nat)
  | name (text : String)
deriving DecidableEq, Repr, Inhabited

/-- An argument of an annotation block: `key = value`, a bare key, or a bare value. -/
inductive Argument where
  | keyed (key : String) (value : Literal) (location valueLocation : Location)
  | flag (key : String) (location : Location)
  | bare (value : Literal) (location : Location)
deriving DecidableEq, Repr, Inhabited

namespace Argument

def location : Argument → Location
  | keyed _ _ l _ => l
  | flag _ l => l
  | bare _ l => l

def valueLocation : Argument → Location
  | keyed _ _ _ l => l
  | flag _ l => l
  | bare _ l => l

def value? : Argument → Option Literal
  | keyed _ v _ _ => some v
  | flag _ _ => none
  | bare v _ => some v

end Argument

/-- A block such as `@codec(order_no = 1)`, located at the sign before its name. -/
structure AnnotationBlock where
  name : String
  arguments : List Argument
  location : Location
deriving DecidableEq, Repr, Inhabited

/-- How the fields of a record or variant are declared. -/
inductive Shape where
  | named
  | tuple
  | unit
deriving DecidableEq, Repr, Inhabited

structure Field where
  name : Option String
  index : Nat
  type : TypeExpr
  annotations : List AnnotationBlock
  location : Location
deriving BEq, Repr, Inhabited

/-- The name a field goes by; a field without a name of its own is known by its position. -/
def Field.ident (f : Field) : String :=
  match f.name with
  | some name => name
  | none => "f" ++ toString f.index

structure Record where
  name : String
  shape : Shape
  fields : List Field
  annotations : List AnnotationBlock
  location : Location
deriving BEq, Repr, Inhabited

structure Variant where
  name : String
  shape : Shape
  fields : List Field
  discriminant : Option String
  annotations : List AnnotationBlock
  location : Location
deriving BEq, Repr, Inhabited

structure Union where
  name : String
  variants : List Variant
  annotations : List AnnotationBlock
  location : Location
deriving BEq, Repr, Inhabited

structure Schema where
  records : List Record
  unions : List Union
deriving BEq, Repr, Inhabited

end WireSchema
