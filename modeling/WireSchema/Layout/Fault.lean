import WireSchema.Layout.TagWidth
import WireSchema.Schema.Fault

/-!
# What can be wrong with a layout

The causes for which a well-formed schema has no layout, their wording, and the diagnostics that
join them with the causes for which a text is no schema.
-/

namespace WireSchema

inductive LayoutFault where
  | unknownBlock (name : String)
  | bareLiteral
  | unknownKey
  | takesNoValue (key : String)
  | lacksValue (key : String)
  | expectedString
  | expectedNumber
  | numberTooLarge
  | invalidHookPath (path : String)
  | unknownWidth
  | unionOptionOnRecord
  | annotatedVariantField
  | ignoredWithoutDefault (field type : String)
  | sharedOrder (first second : String) (orderNo : Int)
  | discriminantTooLarge
  /-- More digits than a number can be read from. -/
  | discriminantTooLong
  | discriminantNotDecimal
  | discriminantNotInteger
  | noTag
  | sharedTag (value : Int)
  | tagTooLarge (value : Int) (width : TagWidth)
deriving DecidableEq, Repr

def LayoutFault.message : LayoutFault → String
  | unknownBlock name => "Unknown annotation @" ++ name
  | bareLiteral => "Unexpected attribute literal"
  | unknownKey => "Unknown attribute name"
  | takesNoValue key => key ++ " does not take a value"
  | lacksValue key => "Expected " ++ key ++ " = <value>"
  | expectedString => "Expected a string."
  | expectedNumber => "Expected a number."
  | numberTooLarge => "Invalid integer"
  | invalidHookPath path => "Invalid hook path '" ++ path ++ "'"
  | unknownWidth => "Unknown encoding type."
  | unionOptionOnRecord => "Union option supplied to annotation on struct."
  | annotatedVariantField => "Field annotations are only supported on struct fields"
  | ignoredWithoutDefault field type =>
    "Ignored field " ++ field ++ " has type " ++ type ++ ", which has no default value"
  | sharedOrder first second orderNo =>
    "Fields " ++ first ++ " and " ++ second ++ " share order_no " ++ toString orderNo
  | discriminantTooLarge => "Integer literal does not fit in 128 bits"
  | discriminantTooLong => ""
  | discriminantNotDecimal => "Unsupported expression. Base 10 integer literals only."
  | discriminantNotInteger => "Unsupported expression. Integer literals only."
  | noTag => "No discriminant or value provided"
  | sharedTag value => "2 or more variants share the value " ++ toString value
  | tagTooLarge value width => "Value " ++ toString value ++ " too large for " ++ width.name

/-- Whether the wording says anything. Only then is there a diagnostic. -/
def LayoutFault.isWorded : LayoutFault → Bool
  | discriminantTooLong => false
  | _ => true

/-- A cause with the place it is reported at. -/
structure LayoutError where
  fault : LayoutFault
  location : Location
deriving DecidableEq, Repr

abbrev Resolved := Except LayoutError

def unresolved {α : Type} (fault : LayoutFault) (l : Location) : Resolved α :=
  .error ⟨fault, l⟩

/-- Why a text has no layout: it is no schema, or its schema cannot be resolved. -/
inductive Rejection where
  | reading (why : SchemaRejection)
  | resolving (why : LayoutError)
deriving DecidableEq, Repr

namespace Rejection

def diagnostic? : Rejection → Option (String × Location)
  | reading (.invalid fault l) => some (fault.message, l)
  | reading _ => none
  | resolving e => if e.fault.isWorded then some (e.fault.message, e.location) else none

end Rejection

end WireSchema
