/-!
# Command-line arguments

Options have a long name and perhaps a letter. A value follows its option as the next argument, even
if that looks like an option, or is attached to it: behind an equals sign to a long name, directly
to a letter. Letters of flags can be joined. An option whose value may be omitted does not take a
next argument that looks like an option. A bare `--` ends the options.
-/

namespace WireSchema.Command

inductive OptionKind where
  | flag
  | valued
  /-- The value may be omitted, and then it is this one. -/
  | optional (omitted : String)
deriving DecidableEq, Repr

structure OptionSpec where
  name : String
  letter : Option Char
  kind : OptionKind
deriving DecidableEq, Repr

abbrev Settings := List (String × String)

def setting? (settings : Settings) (name : String) : Option String :=
  (settings.reverse.find? (·.1 = name)).map Prod.snd

def isSet (settings : Settings) (name : String) : Bool := (setting? settings name).isSome

def looksLikeOption (arg : String) : Bool :=
  match arg.toList with
  | '-' :: _ :: _ => true
  | _ => false

/-- The value of an option from the arguments behind it, and the arguments left; none if the value
is missing. -/
def takeValue? (kind : OptionKind) (args : List String) : Option (String × List String) :=
  match kind, args with
  | .flag, args => some ("", args)
  | .valued, [] => none
  | .valued, v :: rest => some (v, rest)
  | .optional omitted, [] => some (omitted, [])
  | .optional omitted, v :: rest =>
    if looksLikeOption v then some (omitted, v :: rest) else some (v, rest)

def takeLong? (specs : List OptionSpec) (cs : List Char) (args : List String) :
    Option (Settings × List String) :=
  let name := String.ofList (cs.takeWhile (· ≠ '='))
  let attached := (cs.dropWhile (· ≠ '=')).tail?
  match specs.find? (·.name = name), attached with
  | none, _ => none
  | some spec, none => (takeValue? spec.kind args).map fun r => ([(name, r.1)], r.2)
  | some spec, some v =>
    if spec.kind = .flag then none
    else (takeValue? spec.kind (String.ofList v :: args)).map fun r => ([(name, r.1)], r.2)

def takeLetters? (specs : List OptionSpec) (args : List String) :
    List Char → Option (Settings × List String)
  | [] => some ([], args)
  | c :: cs =>
    match specs.find? (·.letter = some c) with
    | none => none
    | some spec =>
      if spec.kind = .flag then
        (takeLetters? specs args cs).map fun r => ((spec.name, "") :: r.1, r.2)
      else
        let args := if cs.isEmpty then args else String.ofList cs :: args
        (takeValue? spec.kind args).map fun r => ([(spec.name, r.1)], r.2)

/-- The settings and the other arguments; none if an option is unknown or misused. Unless options
may stand behind other arguments, the first of those ends them. -/
def readArguments? (specs : List OptionSpec) (mixed : Bool) :
    Nat → List String → Option (Settings × List String)
  | 0, args => some ([], args)
  | _, [] => some ([], [])
  | n + 1, arg :: args =>
    if arg = "--" then some ([], args)
    else if looksLikeOption arg then
      let taken := match arg.toList with
        | '-' :: '-' :: cs => takeLong? specs cs args
        | _ :: cs => takeLetters? specs args cs
        | [] => none
      match taken with
      | none => none
      | some (settings, rest) =>
        (readArguments? specs mixed n rest).map fun r => (settings ++ r.1, r.2)
    else if mixed then (readArguments? specs mixed n args).map fun r => (r.1, arg :: r.2)
    else some ([], arg :: args)

def arguments? (specs : List OptionSpec) (mixed : Bool) (args : List String) :
    Option (Settings × List String) :=
  readArguments? specs mixed (args.foldr (fun arg n => arg.length + 1 + n) 0) args

end WireSchema.Command
