import WireSchema.Command.Path

/-!
# Disks

A disk is a list of folders and a list of files, each by the names that lead to it from the root.
What lies above a folder or a file is a folder too. A path leads from the root or from a working
folder, one name after another, and each name but the last has to lead to a folder that is there.
Files are read and written and folders are made as a file system does it, faults included.
-/

namespace WireSchema.Command

inductive FileFault where
  | notFound
  | isFolder
  | notFolder
  | occupied
  | tooLong
  /-- No file can have such a path. -/
  | unusable
deriving DecidableEq, Repr

structure Disk where
  /-- The working folder, where paths start that do not start at the root. -/
  home : List String
  folders : List (List String)
  files : List (List String × String)
deriving DecidableEq, Repr

namespace Disk

/-- The most bytes that a name can have. -/
def maxNameSize : Nat := 255

/-- The most bytes that a path can have. -/
def maxPathSize : Nat := 4095

variable (d : Disk)

def isFile (names : List String) : Bool := d.files.any (·.1 = names)

def isFolder (names : List String) : Bool :=
  (d.home :: d.folders).any (names.isPrefixOf ·) ||
    d.files.any fun f => names.isPrefixOf f.1 && names.length < f.1.length

/-! ## Where paths lead -/

/-- Where a path starts, and the names in it. -/
def start (path : String) : Except FileFault (List String × List String) :=
  if path.toList.contains '\x00' then .error .unusable
  else if maxPathSize < path.utf8ByteSize then .error .tooLong
  else
    match (Text.segments '/' path.toList).map String.ofList with
    | [""] => .error .notFound
    | "" :: names => .ok ([], names)
    | names => .ok (d.home, names)

/-- One step from a folder. An empty name and a single dot stay in it, and nothing is above the
root. -/
def step (reached : List String) (name : String) : Except FileFault (List String) :=
  if name = "" ∨ name = "." then .ok reached
  else if name = ".." then .ok reached.dropLast
  else if maxNameSize < name.utf8ByteSize then .error .tooLong
  else .ok (reached ++ [name])

/-- Why no step leads on from here, if none does. -/
def impasse? (reached : List String) : Option FileFault :=
  if d.isFolder reached then none
  else some (if d.isFile reached then .notFolder else .notFound)

/-- Where names lead. All but the last step must be through folders that are there. -/
def walk : List String → List String → Except FileFault (List String)
  | reached, [] => .ok reached
  | reached, name :: names =>
    match d.impasse? reached with
    | some why => .error why
    | none => do walk (← step reached name) names

/-! ## Files -/

def read (path : String) : Except FileFault String := do
  let (start, names) ← d.start path
  let names ← d.walk start names
  match d.files.find? (·.1 = names) with
  | some f => return f.2
  | none => throw (if d.isFolder names then .isFolder else .notFound)

def put (names : List String) (text : String) : Disk :=
  if d.isFile names then
    { d with files := d.files.map fun f => if f.1 = names then (names, text) else f }
  else { d with files := d.files ++ [(names, text)] }

/-- Whether a path can only be that of a folder: it ends in dots or in a slash. -/
def endsInFolder (names : List String) : Bool :=
  match names.getLast? with
  | some name => name = "" || name = "." || name = ".."
  | none => true

def write (path text : String) : Except FileFault Disk := do
  let (start, names) ← d.start path
  if endsInFolder names then
    let named := (names.reverse.dropWhile (· = "")).reverse
    let reached ← d.walk start named.dropLast
    throw ((d.impasse? reached).getD .isFolder)
  else
    let names ← d.walk start names
    if d.isFolder names then throw .isFolder else return d.put names text

/-! ## Folders -/

def makeFolder (start names : List String) : Except FileFault Disk := do
  match names.getLast? with
  | none | some ".." =>
    let reached ← d.walk start names.dropLast
    throw ((d.impasse? reached).getD .occupied)
  | some _ =>
    let reached ← d.walk start names
    if d.isFile reached || d.isFolder reached then throw .occupied
    else return { d with folders := d.folders ++ [reached] }

/-- A folder that could not be made will do if it is there. -/
def settle (start names : List String) (made : Except FileFault Disk) : Except FileFault Disk :=
  match made, d.walk start names with
  | .error why, .ok reached => if d.isFolder reached then .ok d else .error why
  | made, _ => made

/-- Makes a folder, and those above it that are missing. Its names are given the last one first. -/
def makeFolders (d : Disk) (start : List String) : List String → Except FileFault Disk
  | [] => .ok d
  | name :: above =>
    let names := (name :: above).reverse
    match d.makeFolder start names with
    | .error .notFound => do
      let d ← d.makeFolders start above
      d.settle start names (d.makeFolder start names)
    | made => d.settle start names made

/-- Writes files into a folder up to the first that cannot be written. -/
def writeAll (d : Disk) (folder : String) : List (String × String) → Disk × Option FileFault
  | [] => (d, none)
  | (name, text) :: files =>
    match d.write (folder ++ "/" ++ name) text with
    | .ok d => d.writeAll folder files
    | .error why => (d, some why)

/-- Writes files into a folder, which is made if it is not there. -/
def layOut (path : Path) (files : List (String × String)) : Disk × Option FileFault :=
  let made := do
    let (start, _) ← d.start path.text
    d.makeFolders start path.names.reverse
  match made with
  | .ok d => d.writeAll path.text files
  | .error why => (d, some why)

/-- The files in the working folder of `new` that are not in `old`, as seen from there. -/
def added (old new : Disk) : List (List String × String) :=
  new.files.filterMap fun f =>
    if new.home.isPrefixOf f.1 && !old.isFile f.1 then some (f.1.drop new.home.length, f.2)
    else none

end Disk

end WireSchema.Command
