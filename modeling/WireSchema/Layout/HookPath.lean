import WireSchema.Schema.Token
import WireSchema.Text.Segments

/-!
# Hook paths

A hook is named by a dotted name, or by the dotted name of a module, a colon, and a dotted name in
it. A line feed at the very end of a path is tolerated and kept.
-/

namespace WireSchema

def isIdentifier : List Char → Bool
  | [] => false
  | c :: cs => isNameStart c && cs.all isNameChar

def isDotted (cs : List Char) : Bool :=
  (Text.segments '.' cs).all isIdentifier

/-- The text without a line feed at its end. -/
def withoutFinalNewline (cs : List Char) : List Char :=
  if cs.getLast? = some '\n' then cs.dropLast else cs

def isHookPath (path : String) : Bool :=
  match Text.segments ':' (withoutFinalNewline path.toList) with
  | [member] => isDotted member
  | [home, member] => isDotted home && isDotted member
  | _ => false

/-- The module of a path and the rest, if the path names a module. -/
def splitHookPath (path : String) : Option String × String :=
  let cs := path.toList
  if cs.contains ':' then
    (some (.ofList (cs.takeWhile (· ≠ ':'))), .ofList ((cs.dropWhile (· ≠ ':')).drop 1))
  else (none, path)

def hookExpression (path : String) : String :=
  match splitHookPath path with
  | (some home, member) => home ++ "." ++ member
  | (none, member) => member

def firstPart (expression : String) : String :=
  .ofList (expression.toList.takeWhile (· ≠ '.'))

end WireSchema
