import WireSchema.Text.Quoted
import WireSchema.Wire.Double

/-!
# Values

What is encoded and decoded. A value need not fit the type it is encoded as: any kind of value may
be offered for any type, and encoding says what is wrong. Two equalities matter. Equality proper
tells all values apart. `Value.same` is the looser one by which map keys are looked up and decoded
values are compared with those encoded: numbers of different kinds can be the same, true and false
being one and zero, and maps do not depend on the order of their entries.
-/

namespace WireSchema

/-- What a structured value is an instance of. -/
inductive Owner where
  | record (name : String)
  | variant (union name : String)
deriving DecidableEq, Repr, Inhabited

def Owner.text : Owner → String
  | .record name => name
  | .variant union name => union ++ "." ++ name

/-- Something that is no data but stands where a value is expected. It is known by how it is shown and
by the requests it takes, none of which it can meet there. -/
structure Foreign where
  text : String
  requests : List String
deriving DecidableEq, Repr, Inhabited

inductive Value where
  | none
  | bool (b : Bool)
  | int (n : Int)
  | double (d : Double)
  | text (s : String)
  | list (items : List Value)
  /-- Items that stand in a row and are not written, but can be gone through. -/
  | tuple (items : List Value)
  | map (entries : List (Value × Value))
  | object (owner : Owner) (fields : List (String × Value))
  | foreign (t : Foreign)
deriving BEq, Repr, Inhabited

namespace Value

/-- The integer that a number of either kind stands for. -/
def integer? : Value → Option Int
  | bool b => some (if b then 1 else 0)
  | int n => some n
  | _ => Option.none

/-- Everything but nothing, zero and what is empty. -/
def truthy : Value → Bool
  | none => false
  | bool b => b
  | int n => n ≠ 0
  | double d => !d.isZero
  | text s => !s.isEmpty
  | list xs | tuple xs => !xs.isEmpty
  | map es => !es.isEmpty
  | object _ _ | foreign _ => true

/-- The items of a value that can be gone through: the characters of a text, the keys of a map. -/
def items? : Value → Option (List Value)
  | text s => some (s.toList.map fun c => text (String.singleton c))
  | list xs | tuple xs => some xs
  | map es => some (es.map Prod.fst)
  | _ => Option.none

def field? (name : String) : Value → Option Value
  | object _ fields => (fields.find? (·.1 = name)).map Prod.snd
  | _ => Option.none

def fieldAt? (v : Value) (names : List String) : Option Value :=
  names.foldlM (fun v name => v.field? name) v

def withFieldAt (v : Value) (names : List String) (w : Value) : Value :=
  match v, names with
  | _, [] => w
  | object owner fields, name :: names =>
    object owner (fields.map fun f =>
      if f.1 = name then (f.1, f.2.withFieldAt names w) else f)
  | v, _ :: _ => v
termination_by names.length

mutual
/-- A value with the first part that is equal to `old` replaced, if there is one. -/
def replaced? (old new : Value) (v : Value) : Option Value :=
  if v == old then some new
  else
    match v with
    | list xs => (replacedItems? old new xs).map list
    | tuple xs => (replacedItems? old new xs).map tuple
    | map es => (replacedEntries? old new es).map map
    | object owner fs => (replacedFields? old new fs).map (object owner)
    | _ => Option.none

def replacedItems? (old new : Value) : List Value → Option (List Value)
  | [] => Option.none
  | v :: vs =>
    match replaced? old new v with
    | some w => some (w :: vs)
    | Option.none => (replacedItems? old new vs).map (v :: ·)

def replacedEntries? (old new : Value) : List (Value × Value) → Option (List (Value × Value))
  | [] => Option.none
  | (k, v) :: es =>
    match replaced? old new v with
    | some w => some ((k, w) :: es)
    | Option.none => (replacedEntries? old new es).map ((k, v) :: ·)

def replacedFields? (old new : Value) : List (String × Value) → Option (List (String × Value))
  | [] => Option.none
  | (name, v) :: fs =>
    match replaced? old new v with
    | some w => some ((name, w) :: fs)
    | Option.none => (replacedFields? old new fs).map ((name, v) :: ·)
end

def knows (v : Value) (name : String) : Bool :=
  match v with
  | foreign t => t.requests.contains name
  | v => (v.field? name).isSome

mutual
def isKey : Value → Bool
  | list _ | map _ | object _ _ => false
  | tuple items => areKeys items
  | _ => true

def areKeys : List Value → Bool
  | [] => true
  | v :: vs => v.isKey && areKeys vs
end

def kind : Value → String
  | none => "NoneType"
  | bool _ => "bool"
  | int _ => "int"
  | double _ => "float"
  | text _ => "str"
  | list _ => "list"
  | tuple _ => "tuple"
  | map _ => "dict"
  | object owner _ => owner.text
  | foreign _ => "object"

mutual
def depth : Value → Nat
  | list xs | tuple xs => depthItems 0 xs
  | map es => depthEntries 0 es
  | object _ fs => depthFields 0 fs + 1
  | _ => 0

def depthItems : Nat → List Value → Nat
  | d, [] => d
  | d, v :: vs => depthItems (max d v.depth) vs

def depthEntries : Nat → List (Value × Value) → Nat
  | d, [] => d
  | d, (k, v) :: es => depthEntries (max (max d k.depth) v.depth) es

def depthFields : Nat → List (String × Value) → Nat
  | d, [] => d
  | d, (_, v) :: fs => depthFields (max d v.depth) fs
end

def isNone : Value → Bool
  | none => true
  | _ => false

def sameInt (n : Int) : Value → Bool
  | double d => d.equalsInt n
  | v => v.integer? = some n

mutual
def same : Value → Value → Bool
  | none, v => v.isNone
  | bool b, v => sameInt (if b then 1 else 0) v
  | int n, v => sameInt n v
  | double d, v =>
    match v with
    | double e => d.equals e
    | v => v.integer?.any d.equalsInt
  | text s, v =>
    match v with
    | text t => s = t
    | _ => false
  | list xs, v =>
    match v with
    | list ys => sameItems xs ys
    | _ => false
  | tuple xs, v =>
    match v with
    | tuple ys => sameItems xs ys
    | _ => false
  | map es, v =>
    match v with
    | map fs => es.length = fs.length && sameEntries es fs
    | _ => false
  | object o fs, v =>
    match v with
    | object p gs => o = p && sameFields fs gs
    | _ => false
  | foreign t, v =>
    match v with
    | foreign u => t = u
    | _ => false

def sameItems : List Value → List Value → Bool
  | [], ys => ys.isEmpty
  | x :: xs, ys =>
    match ys with
    | [] => false
    | y :: ys => same x y && sameItems xs ys

def sameEntries : List (Value × Value) → List (Value × Value) → Bool
  | [], _ => true
  | (k, v) :: es, fs =>
    (match fs.find? fun e => same k e.1 with
      | some e => same v e.2
      | Option.none => false) && sameEntries es fs

def sameFields : List (String × Value) → List (String × Value) → Bool
  | [], gs => gs.isEmpty
  | (name, v) :: fs, gs =>
    match gs with
    | [] => false
    | g :: gs => name = g.1 && same v g.2 && sameFields fs gs
end

/-- A map's entries with one more. The value of a key already there is replaced, and the entry
keeps its place and its key. -/
def insertEntry (k v : Value) : List (Value × Value) → List (Value × Value)
  | [] => [(k, v)]
  | e :: es => if e.1.same k then (e.1, v) :: es else e :: insertEntry k v es

/-! ## Values in messages -/

def inParentheses (items : List String) : String :=
  "(" ++ ", ".intercalate items ++ (if items.length = 1 then ",)" else ")")

mutual
def repr : Value → String
  | none => "None"
  | bool b => if b then "True" else "False"
  | int n => toString n
  | double d => d.text
  | text s => Text.quoted s
  | list xs => "[" ++ ", ".intercalate (reprItems xs) ++ "]"
  | tuple xs => inParentheses (reprItems xs)
  | map es => "\x7b" ++ ", ".intercalate (reprEntries es) ++ "\x7d"
  | object owner fs => owner.text ++ "(" ++ ", ".intercalate (reprFields fs) ++ ")"
  | foreign t => t.text

def reprItems : List Value → List String
  | [] => []
  | v :: vs => repr v :: reprItems vs

def reprEntries : List (Value × Value) → List String
  | [] => []
  | (k, v) :: es => (repr k ++ ": " ++ repr v) :: reprEntries es

def reprFields : List (String × Value) → List String
  | [] => []
  | (name, v) :: fs => (name ++ "=" ++ repr v) :: reprFields fs
end

mutual
/-- Whether a value can be shown: numbers of too many digits cannot. -/
def isShowable : Value → Bool
  | int n => Text.isShowable n
  | list xs | tuple xs => areShowable xs
  | map es => areShowableEntries es
  | object _ fs => areShowableFields fs
  | _ => true

def areShowable : List Value → Bool
  | [] => true
  | v :: vs => v.isShowable && areShowable vs

def areShowableEntries : List (Value × Value) → Bool
  | [] => true
  | (k, v) :: es => k.isShowable && v.isShowable && areShowableEntries es

def areShowableFields : List (String × Value) → Bool
  | [] => true
  | (_, v) :: fs => v.isShowable && areShowableFields fs
end

def shown : Value → String
  | text s => s
  | v => v.repr

/-- Several values at once. -/
def reprTuple (vs : List Value) : String := inParentheses (vs.map repr)

end Value

end WireSchema
