import WireSchema.Schema.Basic

/-!
# Schemas without places

A schema with every location set to the start of the text. Two texts spell the same declarations if
they agree after this, wherever the declarations stand.
-/

namespace WireSchema

def Argument.unplaced : Argument → Argument
  | keyed key value _ _ => keyed key value .start .start
  | flag key _ => flag key .start
  | bare value _ => bare value .start

def AnnotationBlock.unplaced (b : AnnotationBlock) : AnnotationBlock :=
  { b with arguments := b.arguments.map Argument.unplaced, location := .start }

def Field.unplaced (f : Field) : Field :=
  { f with annotations := f.annotations.map AnnotationBlock.unplaced, location := .start }

def Record.unplaced (r : Record) : Record :=
  { r with
    fields := r.fields.map Field.unplaced
    annotations := r.annotations.map AnnotationBlock.unplaced
    location := .start }

def Variant.unplaced (v : Variant) : Variant :=
  { v with
    fields := v.fields.map Field.unplaced
    annotations := v.annotations.map AnnotationBlock.unplaced
    location := .start }

def Union.unplaced (u : Union) : Union :=
  { u with
    variants := u.variants.map Variant.unplaced
    annotations := u.annotations.map AnnotationBlock.unplaced
    location := .start }

def Schema.unplaced (s : Schema) : Schema :=
  ⟨s.records.map Record.unplaced, s.unions.map Union.unplaced⟩

end WireSchema
