import WireSchema.Emit.Binding
import WireSchema.Layout.Candidate
import WireSchema.Layout.Defaultable
import WireSchema.Layout.Dotted
import WireSchema.Layout.Pieces
import WireSchema.Layout.Rearrange
import WireSchema.Main
import WireSchema.Proofs.Layout.Parsed
import WireSchema.Proofs.Emit.Evaluation
import WireSchema.Proofs.Wire.Ending
import WireSchema.Proofs.Wire.Framing
import WireSchema.Proofs.Wire.Reencoding
import WireSchema.Proofs.Wire.Shortest
import WireSchema.Proofs.Wire.Stream
import WireSchema.Schema.Grammar
import WireSchema.Schema.Grow
import WireSchema.Schema.Unplaced
import WireSchema.Schema.WellFormed
import WireSchema.Wire.Bare
import WireSchema.Wire.Call
import WireSchema.Wire.Checksum
import WireSchema.Wire.Grounded
import WireSchema.Wire.Rename
import WireSchema.Wire.Stream
import WireSchema.Wire.Typed
import WireSchema.Proofs.Wire.Interrupted
import WireSchema.Proofs.Wire.Meaning
import WireSchema.Proofs.Wire.Trailing
import WireSchema.Proofs.Wire.Injective
import WireSchema.Proofs.Schema.Gap
import WireSchema.Proofs.Schema.Nesting
import WireSchema.Proofs.Schema.Reads
import WireSchema.Proofs.Schema.Parsing
import WireSchema.Proofs.Schema.Placing
import WireSchema.Proofs.Schema.Exact
import WireSchema.Emit.Evaluation
import WireSchema.Proofs.Wire.Unhooked
import WireSchema.Proofs.Wire.Inverse
import WireSchema.Proofs.Wire.Makeable
import WireSchema.Proofs.Wire.Rearranged
import WireSchema.Proofs.Wire.Grown
import WireSchema.Proofs.Wire.Renamed
import WireSchema.Proofs.Layout.Assigning
import WireSchema.Proofs.Layout.Permuting
import WireSchema.Proofs.Layout.Pinning
import WireSchema.Emit.Render
import WireSchema.Proofs.Emit.Names
import WireSchema.Proofs.Emit.Rendering
import WireSchema.Proofs.Emit.Hygiene
import WireSchema.Proofs.Layout.Derivation
import WireSchema.Layout.Assign
import WireSchema.Proofs.Layout.Joining
import WireSchema.Proofs.Layout.Sorting
import WireSchema.Proofs.Wire.Guard
import WireSchema.Emit.Hook
import WireSchema.Emit.Mirror
import WireSchema.Emit.Demand
import WireSchema.Proofs.Emit.Hooking
import WireSchema.Proofs.Emit.Capturing
import WireSchema.Proofs.Schema.Naming
import WireSchema.Proofs.Emit.Covering
import WireSchema.Schema.Mark
import WireSchema.Proofs.Text.Places
import WireSchema.Proofs.Schema.Marking
import WireSchema.Proofs.Schema.Twin
import WireSchema.Proofs.Schema.Parallel
import WireSchema.Proofs.Schema.Completing
import WireSchema.Proofs.Layout.Blaming
import WireSchema.Proofs.Schema.Refusing
import WireSchema.Proofs.Layout.Pointing
import WireSchema.Proofs.Layout.Answering
import WireSchema.Schema.Retype
import WireSchema.Proofs.Text.Strict
import WireSchema.Proofs.Wire.Numbers
import WireSchema.Proofs.Wire.Texts
import WireSchema.Proofs.Wire.Offering
import WireSchema.Proofs.Wire.Behind
import WireSchema.Proofs.Layout.Literals
import WireSchema.Proofs.Schema.Printing
import WireSchema.Proofs.Schema.Exchanging
import WireSchema.Proofs.Schema.Retyping
