import MiniC.Main
import MiniC.Proofs.Annotations
import MiniC.Proofs.Arithmetic.Wrapping
import MiniC.Proofs.Calls
import MiniC.Proofs.Casts.Widening
import MiniC.Proofs.Constants
import MiniC.Proofs.Containment
import MiniC.Proofs.Containment.Layers
import MiniC.Proofs.Copies
import MiniC.Proofs.Culprits
import MiniC.Proofs.Inference
import MiniC.Proofs.Initializers
import MiniC.Proofs.Isolation
import MiniC.Proofs.Jumps
import MiniC.Proofs.Kinds
import MiniC.Proofs.Lexing.Driver.Ending
import MiniC.Proofs.Lexing.Interning
import MiniC.Proofs.Numerals
import MiniC.Proofs.Outlines
import MiniC.Proofs.Ownership
import MiniC.Proofs.Parsing.Groups
import MiniC.Proofs.Parsing.Kept
import MiniC.Proofs.Parsing.Transparency
import MiniC.Proofs.Places
import MiniC.Proofs.Precedence
import MiniC.Proofs.Ranges
import MiniC.Proofs.Resolution
import MiniC.Proofs.Returns
import MiniC.Proofs.Rows
import MiniC.Proofs.Scopes
import MiniC.Proofs.Scoping
import MiniC.Proofs.Shapes
import MiniC.Proofs.Sizes
import MiniC.Proofs.Strings
import MiniC.Proofs.Switches
import MiniC.Proofs.Truth
import MiniC.Proofs.Types.Canonical
import MiniC.Proofs.Types.Views
import MiniC.Proofs.Updates
