import WireSchema.Command.Arguments
import WireSchema.Emit.Text

/-!
# Invocations

What the program is asked to do. It has three commands: emitting a module, laying out the runtime
beside emitted modules, and showing the layout of a schema.
-/

namespace WireSchema.Command

inductive Task where
  | emit (input output runtime : String)
  | layRuntime (output name : String)
  | inspect (input : String) (structured : Bool)
deriving DecidableEq, Repr

inductive Invocation where
  /-- The arguments ask for nothing that the program does. -/
  | misuse
  | help
  | run (verbose : Bool) (task : Task)
deriving DecidableEq, Repr

private def helpOption : OptionSpec := ⟨"help", none, .flag⟩

private def inputOption : OptionSpec := ⟨"input", some 'i', .valued⟩

private def outputOption : OptionSpec := ⟨"output", some 'o', .valued⟩

def programOptions : List OptionSpec := [⟨"verbose", some 'v', .flag⟩, helpOption]

/-- The runtime as a package that is installed, instead of a folder beside the module. -/
def installedRuntime : String := "bytecoding.runtime"

def commandOptions? (command : String) : Option (List OptionSpec) :=
  match command with
  | "gen" =>
    some [inputOption, outputOption, ⟨"runtime-import", none, .optional installedRuntime⟩,
      helpOption]
  | "runtime" => some [outputOption, ⟨"name", none, .valued⟩, helpOption]
  | "info" => some [inputOption, ⟨"json", none, .flag⟩, helpOption]
  | _ => none

def task? (command : String) (settings : Settings) : Option Task :=
  match command with
  | "gen" =>
    match setting? settings "input", setting? settings "output" with
    | some input, some output =>
      some (.emit input output ((setting? settings "runtime-import").getD defaultRuntime))
    | _, _ => none
  | "runtime" =>
    some (.layRuntime ((setting? settings "output").getD ".")
      ((setting? settings "name").getD defaultRuntime))
  | "info" =>
    (setting? settings "input").map fun input => .inspect input (isSet settings "json")
  | _ => none

/-- What a command's arguments ask for. Help is given whatever else is missing. -/
def ofCommand (verbose : Bool) (command : String) (args : List String) : Invocation :=
  match commandOptions? command with
  | none => .misuse
  | some specs =>
    match arguments? specs true args with
    | none => .misuse
    | some (settings, others) =>
      if isSet settings "help" then .help
      else
        match task? command settings, others with
        | some task, [] => .run verbose task
        | _, _ => .misuse

/-- What arguments ask for behind `--`, where one that looks like an option should name a command.
It names none, but it can still ask for help. -/
def ofUnnamed (args : List String) : Invocation :=
  match arguments? programOptions false args with
  | some (settings, _) => if isSet settings "help" then .help else .misuse
  | none => .misuse

def Invocation.ofArguments (args : List String) : Invocation :=
  match arguments? programOptions false args with
  | none => .misuse
  | some (settings, others) =>
    if isSet settings "help" then .help
    else
      match others with
      | [] => .misuse
      | command :: args =>
        if looksLikeOption command then ofUnnamed others
        else ofCommand (isSet settings "verbose") command args

end WireSchema.Command
