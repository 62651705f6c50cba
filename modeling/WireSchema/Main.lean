import WireSchema.Command.Run

/-!
# The program

Reads the arguments, the schema and the installed files of the runtime, which lie in a folder beside
the program, and writes what the task asks for.
-/

namespace WireSchema.Program

open Command

def usage : String :=
  "Usage: bytecoding [-v] gen -i INPUT -o OUTPUT [--runtime-import [NAME]]\n"
    ++ "       bytecoding [-v] runtime [-o FOLDER] [--name NAME]\n"
    ++ "       bytecoding [-v] info -i INPUT [--json]\n"

def report (response : Response) : IO UInt32 := do
  IO.print response.output
  IO.eprint response.errors
  return UInt32.ofNat response.exitCode

/-- Loads a schema and goes on with its layout. -/
def withLayout (verbose : Bool) (input : String) (next : Layout → IO UInt32) : IO UInt32 := do
  match load input (← IO.FS.readFile input) with
  | .ok (.inr layout) =>
    if verbose then
      for line in layout.trace do IO.eprintln line
    next layout
  | .ok (.inl response) => report response
  | .error (.schema (.reading .malformedString)) =>
    IO.eprintln "malformed escape in a string literal"
    return 1
  | .error _ => return 1

def perform (verbose : Bool) : Task → IO UInt32
  | .emit input output runtime => withLayout verbose input fun layout => do
    IO.FS.writeFile output (layout.moduleText runtime)
    return 0
  | .inspect input structured => withLayout verbose input fun layout =>
    report { exitCode := 0, output := inspectText layout structured }
  | .layRuntime output name => do
    let source := (← IO.appDir) / "runtime"
    let folder := (runtimeFolder output name).text
    IO.FS.createDirAll folder
    for file in runtimeFiles do
      IO.FS.writeFile (folder ++ "/" ++ file) (← IO.FS.readFile (source / file))
    report { exitCode := 0, output := runtimeNotice (runtimeFolder output name) }

def run (args : List String) : IO UInt32 := do
  match Invocation.ofArguments args with
  | .misuse =>
    IO.eprint usage
    return UInt32.ofNat misuseCode
  | .help =>
    IO.print usage
    return 0
  | .run verbose task => perform verbose task

end WireSchema.Program

def main (args : List String) : IO UInt32 := WireSchema.Program.run args
