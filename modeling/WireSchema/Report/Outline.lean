import WireSchema.Layout.Basic
import WireSchema.Report.Document

/-!
# Outlines

Schemas, attributes and layouts as structured documents, one member for each part.
-/

namespace WireSchema

open Document

def Location.outline (l : Location) : Document :=
  object [("line", number l.line), ("column", number l.column)]

mutual
def TypeExpr.outline : TypeExpr → Document
  | .named name => object [("name", Document.text name), ("args", list []), ("size", null)]
  | .applied name args =>
    object [("name", Document.text name), ("args", list (TypeExpr.outlines args)), ("size", null)]
  | .array element size =>
    object [("name", Document.text "array"), ("args", list [element.outline]), ("size", ofNat size)]

def TypeExpr.outlines : List TypeExpr → List Document
  | [] => []
  | t :: ts => t.outline :: TypeExpr.outlines ts
end

/-- The kind of a value, and the value. -/
def Literal.outline : Literal → String × Document
  | .string s => ("string", text s)
  | .codePoints points => ("string", text (Text.shownPoints points))
  | .integer n => ("integer", ofNat n)
  | .name s => ("name", text s)

def Argument.outline : Argument → Document
  | .keyed key value l vl => object
    [("name", text key), ("value", value.outline.2), ("kind", text value.outline.1),
      ("location", l.outline), ("value_location", vl.outline)]
  | .flag key l => object
    [("name", text key), ("value", null), ("kind", text "flag"), ("location", l.outline),
      ("value_location", null)]
  | .bare value l => object
    [("name", null), ("value", value.outline.2), ("kind", text value.outline.1),
      ("location", l.outline), ("value_location", l.outline)]

def AnnotationBlock.outline (b : AnnotationBlock) : Document := object
  [("name", text b.name), ("arguments", list (b.arguments.map Argument.outline)),
    ("location", b.location.outline)]

private def blocksOutline (bs : List AnnotationBlock) : Document :=
  list (bs.map AnnotationBlock.outline)

def Shape.outline : Shape → Document
  | .named => text "named"
  | .tuple => text "tuple"
  | .unit => text "unit"

def Field.outline (f : Field) : Document := object
  [("name", ofOption text f.name), ("index", ofNat f.index), ("type", f.type.outline),
    ("annotations", blocksOutline f.annotations), ("location", f.location.outline)]

private def fieldsOutline (fs : List Field) : Document :=
  list (fs.map Field.outline)

def Record.outline (r : Record) : Document := object
  [("name", text r.name), ("shape", r.shape.outline), ("fields", fieldsOutline r.fields),
    ("annotations", blocksOutline r.annotations), ("location", r.location.outline)]

def Variant.outline (v : Variant) : Document := object
  [("name", text v.name), ("shape", v.shape.outline), ("fields", fieldsOutline v.fields),
    ("discriminant", ofOption text v.discriminant), ("annotations", blocksOutline v.annotations),
    ("location", v.location.outline)]

def Union.outline (u : Union) : Document := object
  [("name", text u.name), ("variants", list (u.variants.map Variant.outline)),
    ("annotations", blocksOutline u.annotations), ("location", u.location.outline)]

def Schema.outline (s : Schema) : Document := object
  [("records", list (s.records.map Record.outline)),
    ("unions", list (s.unions.map Union.outline))]

def FieldAttributes.outline (a : FieldAttributes) : Document := object
  [("order_no", ofOption number a.orderNo), ("ignore", bool a.ignore)]

def VariantAttributes.outline (a : VariantAttributes) : Document := object
  [("value", ofOption number a.value)]

def UnionOptions.outline (o : UnionOptions) : Document := object
  [("encoding_type", ofOption (text ∘ TagWidth.name) o.width?),
    ("inferred_values", bool o.inferred)]

def TypeAttributes.outline (a : TypeAttributes) : Document := object
  [("pre_enc_func", ofOption text a.preEncode), ("post_enc_func", ofOption text a.postEncode),
    ("pre_dec_func", ofOption text a.preDecode), ("post_dec_func", ofOption text a.postDecode),
    ("union_options", ofOption UnionOptions.outline a.unionOptions),
    ("union_location", ofOption Location.outline a.unionLocation)]

def FieldLayout.outline (f : FieldLayout) : Document := object
  [("field", f.field.outline), ("attributes", f.attributes.outline)]

def RecordLayout.outline (r : RecordLayout) : Document := object
  [("record", r.record.outline), ("attributes", r.attributes.outline),
    ("fields", list (r.fields.map FieldLayout.outline)),
    ("order", list (r.order.map FieldLayout.outline)), ("has_default", bool r.hasDefault)]

def VariantLayout.outline (v : VariantLayout) : Document := object
  [("variant", v.variant.outline), ("attributes", v.attributes.outline), ("tag", ofNat v.tag)]

def UnionLayout.outline (u : UnionLayout) : Document := object
  [("union", u.union.outline), ("attributes", u.attributes.outline),
    ("encoding_type", text u.width.name), ("variants", list (u.variants.map VariantLayout.outline))]

def Layout.outline (layout : Layout) : Document := object
  [("records", list (layout.records.map RecordLayout.outline)),
    ("unions", list (layout.unions.map UnionLayout.outline))]

/-! ## Types in words

For each record and each variant of a union, every field with its type as text and whether the type
has a default. -/

private def fieldTypes (known : List String) (fs : List Field) : Document :=
  list (fs.map fun f =>
    list [text f.ident, text f.type.text, bool (f.type.hasDefault known)])

def Schema.typesOutline (s : Schema) : Document :=
  let known := defaultable s.records
  object
    [("defaultable", list ((known.mergeSort (· ≤ ·)).map text)),
      ("records", list (s.records.map fun r => list [text r.name, fieldTypes known r.fields])),
      ("unions", list (s.unions.map fun u =>
        list [text u.name,
          list (u.variants.map fun v => list [text v.name, fieldTypes known v.fields])]))]

end WireSchema
