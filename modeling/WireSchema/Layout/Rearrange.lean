import WireSchema.Layout.Resolve
import WireSchema.Schema.Reader

/-!
# Rearranging records

A record with its fields declared in another order and with other order numbers, in the same order
of size. Where each field has a name and a number, nothing of this shows on the wire.
-/

namespace WireSchema

def Argument.orderNo? : Argument → Option Nat
  | keyed key (.integer n) _ _ => if key = "order_no" then some n else none
  | _ => none

def Argument.renumber (g : Nat → Nat) : Argument → Argument
  | keyed key (.integer n) l vl => keyed key (.integer (if key = "order_no" then g n else n)) l vl
  | a => a

def AnnotationBlock.renumber (g : Nat → Nat) (b : AnnotationBlock) : AnnotationBlock :=
  { b with arguments := b.arguments.map (Argument.renumber g) }

namespace Field

/-- All order numbers in the blocks of a field. The last is the one that counts. -/
def orderNumbers (f : Field) : List Nat :=
  f.annotations.flatMap fun b => b.arguments.filterMap Argument.orderNo?

def renumber (g : Nat → Nat) (f : Field) : Field :=
  { f with annotations := f.annotations.map (AnnotationBlock.renumber g) }

/-- A field that position does not matter to. -/
def IsNumbered (f : Field) : Prop := f.name.isSome ∧ f.orderNumbers ≠ []

instance (f : Field) : Decidable f.IsNumbered := inferInstanceAs (Decidable (_ ∧ _))

end Field

/-- A renumbering keeps the order of the numbers in use, and keeps them small enough. -/
structure Renumbering (used : List Nat) (g : Nat → Nat) : Prop where
  increasing : ∀ m ∈ used, ∀ n ∈ used, m < n → g m < g n
  bounded : ∀ n ∈ used, g n ≤ maxOrderNo

/-- The same fields, declared in another order and numbered otherwise. -/
def Record.Rearranged (r r' : Record) : Prop :=
  ∃ (g : Nat → Nat) (fields : List Field),
    Renumbering (r.fields.flatMap Field.orderNumbers) g ∧ fields.Perm r.fields ∧
      r' = { r with fields := Reader.numbered (fields.map (Field.renumber g)) }

end WireSchema
