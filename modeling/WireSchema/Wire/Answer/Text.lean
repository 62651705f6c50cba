import WireSchema.Text.Padding
import WireSchema.Text.Template
import WireSchema.Wire.Answer.Directives
import WireSchema.Wire.Callback
import WireSchema.Wire.Member

/-!
# What texts answer

A text can be a template, whose slots are filled with what it is asked with. A slot asks that for
members and items, and lays out what it finds. Slots are filled from left to right, and the first one
that fails decides how the text does.
-/

namespace WireSchema

/-- What the slots of a template are filled from. -/
inductive Supply where
  /-- Things by their numbers. -/
  | numbered (things : List Entity)
  /-- A thing that is asked for items by name. -/
  | named (source : Entity)

/-- How the slots of a template are numbered: by themselves or one after the other, but not both. -/
structure Numbering where
  next : Nat := 0
  isAutomatic : Option Bool := none

namespace Entity

def item (e : Entity) (key : List Char) : Except Fault Entity :=
  match e, Text.index? key with
  | _, none => .error .unfit
  | tuple items, some (some n) => found items n
  | value (.map entries), some index =>
    let key : Value := index.elim (.text (.ofList key)) fun n => .int n
    match entries.find? fun entry => entry.1.same key with
    | some entry => .ok (value entry.2)
    | none => .error .noSuchKey
  | value (.list items), some (some n) => found (items.map value) n
  | value (.text t), some (some n) => found (t.toList.map fun c => ofText (.singleton c)) n
  | bytes _ bs, some (some n) => found (bs.map fun b => ofInt b.toNat) n
  | other "mappingproxy" _, _ => .error .noSuchKey
  | _, _ => .error .wrongKind
where
  found (items : List Entity) (n : Nat) : Except Fault Entity :=
    match items[n]? with
    | some e => .ok e
    | none => .error .noSuchIndex

def shown : Entity → Except Fault String
  | value (.text s) => .ok s
  | e => e.told

def layOutInteger (n : Int) (p : Text.Padding) : Except Fault (List Char) :=
  match p.ofInteger? n with
  | none => .error .unfit
  | some cs => if p.isOfCharacter && (n < 0 || 0x10ffff < n) then .error .outOfRange else .ok cs

/-- An entity laid out. Only numbers and texts can be, and anything can be left as it is. -/
def layOut (e : Entity) (layout : List Char) : Except Fault (List Char) :=
  if layout.isEmpty then e.shown.map String.toList
  else
    match e with
    | value (.text t) => padded fun p => orUnfit (p.ofText? t.toList)
    | value (.double d) => padded fun p => .ok (p.fillUp '>' [] d.text.toList)
    | value v =>
      match v.integer? with
      | some n => padded (layOutInteger n)
      | none => .error .wrongKind
    | _ => .error .wrongKind
where
  orUnfit : Option (List Char) → Except Fault (List Char)
    | some cs => .ok cs
    | none => .error .unfit
  /-- Laid out without its width first, to see whether it can be. -/
  padded (put : Text.Padding → Except Fault (List Char)) : Except Fault (List Char) := do
    let p ← match Text.padding? layout with
      | some p => pure p
      | none => throw .unfit
    let _ ← put { p with width := 0 }
    if maxLaidOut < p.width then throw .noRoom
    put p

end Entity

namespace Supply

variable (S : Layout) (supply : Supply)

/-- What a slot's target starts with. -/
def start (head : List Char) (numbering : Numbering) : Except Fault (Entity × Numbering) := do
  let isAutomatic := head.isEmpty
  match if isAutomatic then some (some numbering.next) else Text.index? head with
  | none => throw .unfit
  | some none =>
    match supply with
    | numbered _ => throw .noSuchKey
    | named source => return (← source.item head, numbering)
  | some (some n) =>
    if numbering.isAutomatic = some !isAutomatic then throw .unfit
    match supply with
    | named _ => throw .unfit
    | numbered things =>
      match things[n]? with
      | some e => return (e, ⟨if isAutomatic then n + 1 else numbering.next, some isAutomatic⟩)
      | none => throw .noSuchIndex

def follow : Nat → Entity → List Char → Except Fault Entity
  | 0, e, _ | _, e, [] => .ok e
  | n + 1, e, cs =>
    match Text.targetStep? cs with
    | some (.member name, rest) => do follow n (← e.ask S name) rest
    | some (.item key, rest) => do follow n (← e.item key) rest
    | none => .error .unfit

def target (cs : List Char) (numbering : Numbering) : Except Fault (Entity × Numbering) := do
  let (head, steps) := Text.targetHead cs
  let (e, numbering) ← supply.start head numbering
  return (← follow S steps.length e steps, numbering)

def converted (e : Entity) : Option Char → Except Fault Entity
  | none => .ok e
  | some 's' => e.shown.map .ofText
  | some 'r' | some 'a' => e.told.map .ofText
  | some _ => .error .unfit

/-- The slots of a template filled, so many at most, where `expand` fills those of layouts. -/
def fillSlots (expand : List Char → Numbering → Except Fault (List Char × Numbering)) :
    Nat → List Char → Numbering → Except Fault (List Char × Numbering)
  | 0, _, numbering => .ok ([], numbering)
  | n + 1, cs, numbering =>
    match Text.literal? cs with
    | none => .error .unfit
    | some (literal, none) => .ok (literal, numbering)
    | some (literal, some rest) =>
      match Text.slot? rest with
      | none => .error .unfit
      | some (slot, rest) => do
        let (e, numbering) ← supply.target S slot.target numbering
        let e ← converted e slot.conversion
        let (layout, numbering) ←
          if slot.layout.contains '\x7b' then expand slot.layout numbering
          else pure (slot.layout, numbering)
        let cs ← e.layOut layout
        let (others, numbering) ← fillSlots expand n rest numbering
        return (literal ++ cs ++ others, numbering)

/-- A template with its slots filled. The layouts of slots can have slots, but not again. -/
def fill (cs : List Char) : Except Fault (List Char) := do
  let inner (layout : List Char) (numbering : Numbering) :=
    supply.fillSlots S (fun _ _ => .error .unfit) (layout.length + 1) layout numbering
  return (← supply.fillSlots S inner (cs.length + 1) cs {}).1

end Supply

def Filling.ofText (e : Entity) : Filling where
  isMapping := e.isOf "bytearray" || e.isOf "memoryview" || e.isOf "bytes"
  write _ c :=
    if c = 's' then e.shown.map String.toList
    else if c = 'a' || c = 'r' then e.told.map String.toList
    else .error (if "diouxXeEfFgGc".toList.contains c then .wrongKind else .unfit)

def answerOfText (S : Layout) (t : String) (name : String) (args : List Entity) :
    Run Entity := do
  match name, ← args.mapM settled with
  | "format", args => text ((Supply.numbered args).fill S t.toList)
  | "format_map", [arg] => text ((Supply.named arg).fill S t.toList)
  | "__mod__", [arg] => text ((Filling.ofText arg).fill t.toList)
  | "__rmod__", [_] => return .undecided
  | "translate", [arg] =>
    match ← arg.bytes? with
    | some bs => return .ofText (.ofList (t.toList.map (mapped bs)))
    | none => if t.isEmpty then return .ofText t else throw .wrongKind
  | "join", [arg] => if (← arg.bytes?) = some [] then return .ofText "" else throw .wrongKind
  | _, _ => throw .wrongKind
where
  /-- The buffer as the bytes that it holds. -/
  settled (e : Entity) : Run Entity := do
    match e, ← e.bytes? with
    | .buffer, some bs => return .bytes .array bs
    | e, _ => return e
  text (result : Except Fault (List Char)) : Run Entity := do
    return .ofText (.ofList (← Run.ofExcept result))
  mapped (bs : List UInt8) (c : Char) : Char :=
    (bs[c.toNat]?).elim c fun b => Char.ofNat b.toNat

end WireSchema
