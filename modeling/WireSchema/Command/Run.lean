import WireSchema.Command.Disk
import WireSchema.Command.Invocation
import WireSchema.Report.Outline
import WireSchema.Report.Table
import WireSchema.Report.Trace

/-!
# Running a task

A task reads at most one schema, writes files and prints. A schema that has no layout is reported
with its path and the place of the fault, and nothing is written.
-/

namespace WireSchema.Command

/-- What a task does once its input is read. -/
structure Response where
  exitCode : Nat
  output : String := ""
  errors : String := ""
deriving DecidableEq, Repr

/-- What stops a task without a diagnostic. -/
inductive Failure where
  | file (why : FileFault)
  | schema (why : Rejection)
deriving DecidableEq, Repr

def unifyNewlines : List Char → List Char
  | [] => []
  | c :: cs =>
    if c = '\r' then
      match cs with
      | '\n' :: rest => '\n' :: unifyNewlines rest
      | rest => '\n' :: unifyNewlines rest
    else c :: unifyNewlines cs

/-- The layout of the schema in a file, given the file's text; or the diagnostic. -/
def load [Text.CharacterNames] (path text : String) : Except Failure (Response ⊕ Layout) :=
  match Layout.ofText (.ofList (unifyNewlines text.toList)) with
  | .ok layout => .ok (.inr layout)
  | .error why =>
    match why.diagnostic? with
    | some (message, l) =>
      .ok (.inl
        { exitCode := 1, errors := path ++ ":" ++ l.text ++ ": error: " ++ message ++ "\n" })
    | none => .error (.schema why)

def inspectText (layout : Layout) (structured : Bool) : String :=
  if structured then layout.outline.render ++ "\n"
  else String.join (layout.tableLines.map (· ++ "\n"))

def runtimeFolder (output name : String) : Path := (Path.ofString output).join (Path.ofString name)

def runtimeNotice (folder : Path) : String :=
  "Generated Python runtime in " ++ folder.text ++ "\n"

def runtimeFiles : List String := ["__init__.py", "serialization.py", "primitives.py", "coder.py"]

def onLayout [Text.CharacterNames] (disk : Disk) (input : String)
    (next : Layout → Disk × Except Failure Response) :
    Disk × Except Failure Response :=
  match disk.read input with
  | .error why => (disk, .error (.file why))
  | .ok text =>
    match load input text with
    | .error why => (disk, .error why)
    | .ok (.inl response) => (disk, .ok response)
    | .ok (.inr layout) => next layout

/-- Runs a task on a disk, given the texts of the runtime's files. What was written before a failure
stays. -/
def Task.run [Text.CharacterNames] (disk : Disk) (runtimeTexts : List (String × String)) :
    Task → Disk × Except Failure Response
  | .emit input output runtime => onLayout disk input fun layout =>
    match disk.write output (layout.moduleText runtime) with
    | .ok disk => (disk, .ok { exitCode := 0 })
    | .error why => (disk, .error (.file why))
  | .layRuntime output name =>
    let path := runtimeFolder output name
    match disk.layOut path runtimeTexts with
    | (disk, none) => (disk, .ok { exitCode := 0, output := runtimeNotice path })
    | (disk, some why) => (disk, .error (.file why))
  | .inspect input structured => onLayout disk input fun layout =>
    (disk, .ok { exitCode := 0, output := inspectText layout structured })

def misuseCode : Nat := 2

end WireSchema.Command
