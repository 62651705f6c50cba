import WireSchema.Layout.HookPath
import WireSchema.Wire.Entity

/-!
# Hooks

What runs around the coding of a declared type. Before encoding, a hook can put something else in
place of the value given; after encoding, it can change the whole buffer. Before decoding, it sees
all remaining input and can change or refuse it; after decoding, it can change or refuse the value
and what remains.

A hook is known by its path only. What the four places come to is a parameter of all coding, so that
it does not matter here how a path is looked up and run.
-/

namespace WireSchema

/-- What is done while values are coded: it can change the buffer, log something and fail. What was
written and logged before a failure stays. -/
abbrev Run := ExceptT Fault (StateM Sink)

namespace Run

variable {α : Type}

def log (e : Event) : Run Unit := modify fun s => { s with log := s.log ++ [e] }

def ofExcept (x : Except Fault α) : Run α := fun s => (x, s)

def ofWrite (write : Write) : Run Unit := fun s =>
  match write s with
  | .ok s => (.ok (), s)
  | .error (f, s) => (.error f, s)

def ofRead (read : Read α) (view : View) : Run (α × View) := fun s =>
  match read ⟨view, s.log⟩ with
  | .ok (a, t) => (.ok (a, t.toView), { s with log := t.log })
  | .error h => (.error h.fault, { s with log := h.log })

def on (x : Run α) (s : Sink) : Except (Fault × Sink) (α × Sink) :=
  match x s with
  | (.ok a, s) => .ok (a, s)
  | (.error f, s) => .error (f, s)

/-- The same where there is no buffer, with what was logged before in front. -/
def read (x : Run α) : Read α := fun s =>
  match x { log := s.log } with
  | (.ok a, t) => .ok (a, { s with log := t.log })
  | (.error f, t) => .error ⟨f, t.log⟩

@[simp] theorem on_pure (a : α) (s : Sink) : (pure a : Run α).on s = .ok (a, s) := rfl

@[simp] theorem read_pure (a : α) (s : Source) : (pure a : Run α).read s = .ok (a, s) := rfl

end Run

/-- What the hooks of a layout come to. Each place tells the path of its hook and what is known where
the hook runs: the declaration whose code it is, and the type that was asked for. -/
structure Hooks where
  /-- What is encoded in place of a value. -/
  preEncode (path home : String) (v : Value) : Run Entity
  /-- What is done to the buffer once `v` is in it, or what took its place. -/
  postEncode (path home : String) (v : Value) (standin? : Option Entity) : Run Unit
  /-- The input to decode a type from. -/
  preDecode (path type : String) (view : View) : Run View
  /-- What is decoded in place of `v`, and what remains, given the fields that were read. -/
  postDecode (path type : String) (read : List (String × Value)) (v : Value) (view : View) :
    Run (Value × View)

namespace Hooks

/-- No path names a hook. -/
def empty : Hooks where
  preEncode _ _ _ := throw .unboundName
  postEncode _ _ _ _ := throw .unboundName
  preDecode _ _ _ := throw .unboundName
  postDecode _ _ _ _ _ := throw .unboundName

variable (H : Hooks) (a : TypeAttributes)

/-- What to encode in place of `v`. -/
def standin (home : String) (v : Value) : Run Entity :=
  match a.preEncode with
  | none => pure (.value v)
  | some path => H.preEncode path home v

/-- What is done to the buffer once `w` was encoded in place of `v`. -/
def finish (home : String) (v : Value) (w : Entity) : Run Unit :=
  match a.postEncode with
  | none => pure ()
  | some path => H.postEncode path home v (a.preEncode.map fun _ => w)

def openInput (type : String) (view : View) : Run View :=
  match a.preDecode with
  | none => pure view
  | some path => H.preDecode path type view

/-- The value in place of `v` and what remains in place of `view`. -/
def close (type : String) (read : List (String × Value)) (v : Value) (view : View) :
    Run (Value × View) :=
  match a.postDecode with
  | none => pure (v, view)
  | some path => H.postDecode path type read v view

def preEncoded (home : String) (v : Value) (s : Sink) : Except (Fault × Sink) (Entity × Sink) :=
  (H.standin a home v).on s

def postEncoded (home : String) (v : Value) (w : Entity) : Write := fun s => do
  let ((), s) ← (H.finish a home v w).on s
  return s

def preDecoded (type : String) : Read Unit := fun s => do
  let (view, s) ← (H.openInput a type s.toView).read s
  return ((), { s with toView := view })

def postDecoded (type : String) (read : List (String × Value)) (v : Value) : Read Value :=
  fun s => do
    let ((w, view), s) ← (H.close a type read v s.toView).read s
    return (w, { s with toView := view })

variable {a}

theorem preEncoded_of_none (h : a.preEncode = none) (home : String) (v : Value) (s : Sink) :
    H.preEncoded a home v s = .ok (.value v, s) := by
  simp [preEncoded, standin, h]

theorem postEncoded_of_none (h : a.postEncode = none) (home : String) (v : Value) (w : Entity)
    (s : Sink) : H.postEncoded a home v w s = .ok s := by
  simp only [postEncoded, finish, h]
  rfl

theorem preDecoded_of_none (h : a.preDecode = none) (type : String) (s : Source) :
    H.preDecoded a type s = .ok ((), s) := by
  simp only [preDecoded, openInput, h]
  rfl

theorem postDecoded_of_none (h : a.postDecode = none) (type : String)
    (read : List (String × Value)) (v : Value) (s : Source) :
    H.postDecoded a type read v s = .ok (v, s) := by
  simp only [postDecoded, close, h]
  rfl

end Hooks

end WireSchema
