import WireSchema.Text.Segments

/-!
# Paths

A path is a chain of names with slashes between them, from the root if a slash stands in front.
Empty names and single dots say nothing and are left out of a path's normal form; a chain of no
names at all is shown as a dot. Two slashes in front are kept, as they may mean another root; more
than two mean the same as one.
-/

namespace WireSchema.Command

structure Path where
  /-- The slashes in front. -/
  root : String
  names : List String
deriving DecidableEq, Repr

namespace Path

def ofString (s : String) : Path where
  root :=
    match (s.toList.takeWhile (· = '/')).length with
    | 0 => ""
    | 2 => "//"
    | _ => "/"
  names := ((Text.segments '/' s.toList).map String.ofList).filter fun n => n ≠ "" ∧ n ≠ "."

def join (p q : Path) : Path :=
  if q.root = "" then ⟨p.root, p.names ++ q.names⟩ else q

def text (p : Path) : String :=
  if p.root = "" ∧ p.names.isEmpty then "." else p.root ++ "/".intercalate p.names

end Path

end WireSchema.Command
