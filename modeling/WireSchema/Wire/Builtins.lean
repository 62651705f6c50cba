import WireSchema.Layout.Basic
import WireSchema.Schema.Rename
import WireSchema.Wire.Codec

/-!
# Names of the language

Emitted classes use two names of the language: `classmethod`, while they are made, for all methods
that are called without an object, and `range`, when the default of an array is evaluated. Nothing
keeps a type or the module of a hook from taking these names. The classes behind that of a type named
`classmethod` have no class methods that can be called then, and no array has a default.
-/

namespace WireSchema

/-- What is left to the classes of a module of the names of the language. -/
structure Builtins where
  /-- Whether the class methods of a type can be called. -/
  calls (type : String) : Bool
  /-- Whether the elements of an array can be counted. -/
  ranges : Bool

namespace Builtins

/-- What is left by types, in the order of their classes, and by other names. -/
def ofNames (types others : List String) : Builtins where
  calls type := !(types.takeWhile (· ≠ type)).contains "classmethod"
  ranges := !(types ++ others).contains "range"

def all : Builtins := ⟨fun _ => true, true⟩

def calling {α : Type} (B : Builtins) (type : String) (read : Read α) : Read α := fun s =>
  if B.calls type then read s else .error ⟨.wrongKind, s.log⟩

theorem calling_all {α : Type} (type : String) (read : Read α) : all.calling type read = read := rfl

theorem ofNames_eq_all {types others : List String} (htypes : "classmethod" ∉ types)
    (hrange : "range" ∉ types ++ others) : ofNames types others = all := by
  have hcalls : ∀ type, (!(types.takeWhile (· ≠ type)).contains "classmethod") = true := by
    intro type
    have hfront : "classmethod" ∉ types.takeWhile (· ≠ type) := fun h =>
      htypes ((List.takeWhile_sublist _).subset h)
    simpa using hfront
  have hranges : (!(types ++ others).contains "range") = true := by simpa using hrange
  rw [ofNames, hranges, funext hcalls, all]

end Builtins

/-- Names of the language are neither given to types nor taken from them. -/
def Renaming.KeepsBuiltins (ρ : Renaming) (types : List String) : Prop :=
  ∀ type ∈ types, (ρ.type type = "classmethod" ↔ type = "classmethod") ∧
    (ρ.type type = "range" ↔ type = "range")

/-- Whether the default of a type can be evaluated, given for which declared types it can. -/
def Codec.fills (B : Builtins) (declared : String → Bool) : Codec → Bool
  | .packedBools => B.ranges
  | .array c n => B.ranges && (n = 0 || c.fills B declared)
  | .declared name => declared name
  | _ => true

namespace Layout

variable (S : Layout)

/-- What the types and the modules of the hooks leave of the names of the language. -/
def builtins : Builtins := .ofNames S.names S.hookNames

/-- No type and no module of a hook takes a name of the language. -/
def KeepsBuiltins : Prop :=
  ∀ name ∈ S.names ++ S.hookNames, name ≠ "classmethod" ∧ name ≠ "range"

instance : Decidable S.KeepsBuiltins :=
  inferInstanceAs (Decidable (∀ name ∈ S.names ++ S.hookNames, _))

theorem KeepsBuiltins.builtins_eq {S : Layout} (h : S.KeepsBuiltins) : S.builtins = .all := by
  refine Builtins.ofNames_eq_all (fun hmem => ?_) fun hmem => (h _ hmem).2 rfl
  exact (h _ (List.mem_append.2 (.inl hmem))).1 rfl

end Layout

end WireSchema
