import WireSchema.Schema.Primitive

/-!
# Tag widths

The unsigned integer kinds that can hold the tag of a union.
-/

namespace WireSchema

inductive TagWidth where
  | u8 | u16 | u32 | u64 | u128
deriving DecidableEq, Repr

namespace TagWidth

instance : Inhabited TagWidth := ⟨u16⟩

def all : List TagWidth := [u8, u16, u32, u64, u128]

def kind : TagWidth → IntKind
  | u8 => .u8
  | u16 => .u16
  | u32 => .u32
  | u64 => .u64
  | u128 => .u128

def name (w : TagWidth) : String := w.kind.name

def size (w : TagWidth) : Nat := w.kind.size

def maxValue (w : TagWidth) : Nat := Nat.pow 2 (8 * w.size) - 1

def ofName? (s : String) : Option TagWidth := all.find? (·.name = s)

end TagWidth

end WireSchema
