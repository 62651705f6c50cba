import WireSchema.Schema.Basic

/-!
# Primitive types

The types a schema can use without declaring them. Integers have a width in bytes and are signed or
not; the two pointer-sized kinds always take eight bytes. A generic type is applied to a fixed
number of types, and the keys of a map are primitive.
-/

namespace WireSchema

inductive IntKind where
  | u8 | u16 | u32 | u64 | u128
  | i8 | i16 | i32 | i64 | i128
  | usize | isize
deriving DecidableEq, Repr, Inhabited

namespace IntKind

def all : List IntKind :=
  [u8, u16, u32, u64, u128, i8, i16, i32, i64, i128, usize, isize]

def name : IntKind → String
  | u8 => "u8"
  | u16 => "u16"
  | u32 => "u32"
  | u64 => "u64"
  | u128 => "u128"
  | i8 => "i8"
  | i16 => "i16"
  | i32 => "i32"
  | i64 => "i64"
  | i128 => "i128"
  | usize => "usize"
  | isize => "isize"

def size : IntKind → Nat
  | u8 | i8 => 1
  | u16 | i16 => 2
  | u32 | i32 => 4
  | u64 | i64 | usize | isize => 8
  | u128 | i128 => 16

def signed : IntKind → Bool
  | u8 | u16 | u32 | u64 | u128 | usize => false
  | i8 | i16 | i32 | i64 | i128 | isize => true

def ofName? (s : String) : Option IntKind :=
  all.find? (·.name = s)

theorem name_of_ofName? {s : String} {k : IntKind} (h : ofName? s = some k) : k.name = s := by
  simpa using List.find?_some h

end IntKind

inductive Primitive where
  | bool
  | int (kind : IntKind)
  | string
deriving DecidableEq, Repr, Inhabited

namespace Primitive

def all : List Primitive := [bool, string] ++ IntKind.all.map int

def name : Primitive → String
  | bool => "bool"
  | int k => k.name
  | string => "string"

def ofName? (s : String) : Option Primitive :=
  if s = "bool" then some bool
  else if s = "string" then some string
  else (IntKind.ofName? s).map int

theorem ofName?_name (p : Primitive) : ofName? p.name = some p := by
  rcases p with _ | k | _
  · rfl
  · cases k <;> decide
  · rfl

theorem name_of_ofName? {s : String} {p : Primitive} (h : ofName? s = some p) : p.name = s := by
  unfold ofName? at h
  split at h
  next hs => cases h; exact hs.symm
  next =>
    split at h
    next hs => cases h; exact hs.symm
    next =>
      obtain ⟨k, hk, rfl⟩ := Option.map_eq_some_iff.1 h
      exact IntKind.name_of_ofName? hk

end Primitive

def isPrimitiveName (s : String) : Bool :=
  (Primitive.ofName? s).isSome

def genericArity? (s : String) : Option Nat :=
  if s = "optional" ∨ s = "list" then some 1
  else if s = "map" then some 2
  else none

def TypeExpr.primitive? : TypeExpr → Option Primitive
  | .named name => Primitive.ofName? name
  | _ => none

end WireSchema
