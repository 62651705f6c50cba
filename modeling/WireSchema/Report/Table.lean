import WireSchema.Layout.Basic

/-!
# Tables

A table has a title, a row of column heads, and rows of cells. A column is as wide as its widest
cell, with two blanks behind it. The title is filled with blanks up to the width of the table, and a
longer one is broken into several lines: between words if it can be, and inside a word only if the
word alone is too long for a line.
-/

namespace WireSchema

structure Column where
  head : String
  alignRight : Bool := false
deriving DecidableEq, Repr

structure Table where
  title : String
  columns : List Column
  rows : List (List String)
deriving DecidableEq, Repr

namespace Table

private def blanks (n : Nat) : String := String.ofList (List.replicate n ' ')

/-- A text filled with blanks up to a width. -/
def pad (alignRight : Bool) (width : Nat) (s : String) : String :=
  if alignRight then blanks (width - s.length) ++ s else s ++ blanks (width - s.length)

/-- The width of each column, given its head and its cells. -/
def widths (t : Table) : List Nat :=
  t.columns.mapIdx fun i c =>
    (t.rows.map fun r => (r.getD i "").length).foldl max c.head.length

def width (t : Table) : Nat := t.widths.foldr (fun w n => w + 2 + n) 0

def rowText (t : Table) (cells : List String) : String :=
  String.join ((t.columns.zip (t.widths.zip cells)).map fun (c, w, cell) =>
    pad c.alignRight w cell ++ blanks 2)

/-! ## Breaking a title -/

/-- A text cut into words, each with the blanks behind it. -/
def splitWords : List Char → List (List Char)
  | [] => []
  | c :: cs =>
    match splitWords cs with
    | (d :: ds) :: ws => if c = ' ' ∧ d ≠ ' ' then [c] :: (d :: ds) :: ws else (c :: d :: ds) :: ws
    | ws => [c] :: ws

/-- A text cut into pieces of a width, but for the last. -/
def chopUpTo (width : Nat) : Nat → List Char → List (List Char)
  | 0, cs => [cs]
  | n + 1, cs => if cs.length ≤ width then [cs] else cs.take width :: chopUpTo width n (cs.drop width)

def chop (width : Nat) (cs : List Char) : List (List Char) := chopUpTo width cs.length cs

/-- The lines made of words, given the line begun. -/
def fillLines (width : Nat) : List Char → List (List Char) → List (List Char)
  | line, [] => [line]
  | line, word :: words =>
    let length := (word.takeWhile (· ≠ ' ')).length
    if length ≤ width - line.length then fillLines width (line ++ word) words
    else
      let begun := if line.isEmpty then [] else [line]
      if length ≤ width then begun ++ fillLines width word words
      else
        let pieces := chop width word
        begun ++ pieces.dropLast ++ fillLines width (pieces.getLastD []) words

def titleLines (width : Nat) (title : String) : List String :=
  (fillLines width [] (splitWords title.toList)).map fun cs =>
    pad false width (String.ofList (cs.take width))

def lines (t : Table) : List String :=
  titleLines t.width t.title ++ t.rowText (t.columns.map Column.head) :: t.rows.map t.rowText

end Table

/-! ## The tables of a layout -/

def RecordLayout.table (r : RecordLayout) : Table where
  title := r.name
  columns := [⟨"#", true⟩, ⟨"Field", false⟩, ⟨"Type", false⟩, ⟨"Order No", true⟩, ⟨"Wire", false⟩]
  rows := r.order.mapIdx fun i f =>
    [toString i, f.field.ident, f.field.type.text, (f.attributes.orderNo.map toString).getD "",
      if f.attributes.ignore then "ignored" else ""]

/-- A field in words: its type, and in front of it its name if it has one of its own. -/
def Field.words (f : Field) : String :=
  match f.name with
  | some name => name ++ ": " ++ f.type.text
  | none => f.type.text

def UnionLayout.table (u : UnionLayout) : Table where
  title := u.name ++ " (" ++ u.width.name ++ " tag)"
  columns := [⟨"Variant", false⟩, ⟨"Tag", true⟩, ⟨"Fields", false⟩]
  rows := u.variants.map fun v =>
    [v.name, toString v.tag, ", ".intercalate (v.variant.fields.map Field.words)]

private def titled (head : String) (tables : List Table) : List String :=
  if tables.isEmpty then [] else head :: tables.flatMap Table.lines ++ [""]

/-- The tables of all records and then of all unions, an empty line behind each kind. -/
def Layout.tableLines (S : Layout) : List String :=
  titled "Structs" (S.records.map RecordLayout.table)
    ++ titled "Unions" (S.unions.map UnionLayout.table)

end WireSchema
