import SeededArt.Engine
import SeededArt.Lint.Checks
import SeededArt.Proofs.Grammar.Soundness
import SeededArt.Proofs.Synthesis.Expansion
import SeededArt.Proofs.Synthesis.Termination
import SeededArt.Proofs.Synthesis.CheckedDepth
import SeededArt.Proofs.Numbers.Exact
import SeededArt.Proofs.Sampling.Exact
import SeededArt.Proofs.Synthesis.Language
import SeededArt.Proofs.Expr.Cut
import SeededArt.Proofs.Expr.Reading
import SeededArt.Proofs.Decimal.Literal
import SeededArt.Proofs.Numbers.Nearest
import SeededArt.Proofs.Numbers.Shift
import SeededArt.Proofs.Numbers.Unpacked
import SeededArt.Proofs.Numbers.Packing
import SeededArt.Proofs.Numbers.Double
import SeededArt.Proofs.Synthesis.RoundTrip
import SeededArt.Proofs.Decimal.Numeral
import SeededArt.Proofs.Expr.Form
import SeededArt.Proofs.Expr.Slices
import SeededArt.Proofs.Expr.Language
import SeededArt.Proofs.Render.Typing
import SeededArt.Proofs.Synthesis.Drawable
import SeededArt.Proofs.Random.Strays
import SeededArt.Proofs.Synthesis.Recursion
import SeededArt.Proofs.Synthesis.Writing
import SeededArt.Proofs.Grammar.Acceptance
import SeededArt.Proofs.Grammar.Calls
import SeededArt.Proofs.Grammar.Builder
import SeededArt.Proofs.Grammar.Reachability
import SeededArt.Proofs.Grammar.Rebuilding
import SeededArt.Proofs.Lint.Unreachable
import SeededArt.Proofs.Lint.ZeroWeights
import SeededArt.Proofs.Registry.Loading
import SeededArt.Proofs.Render.Pool
import SeededArt.Proofs.Lint.Functions
import SeededArt.Proofs.Grammar.Reordering
import SeededArt.Proofs.Engine.Generation
import SeededArt.Proofs.Engine.Software
import SeededArt.Proofs.Grammar.Describing
import SeededArt.Proofs.Engine.Pooling
import SeededArt.Proofs.Registry.History
import SeededArt.Proofs.Registry.Table
import SeededArt.Proofs.Except
import SeededArt.Proofs.Render.Compiling
import SeededArt.Proofs.Render.Channels
import SeededArt.Proofs.Render.Faults
import SeededArt.Proofs.Text.Occurrences
import SeededArt.Proofs.Shader.Placeholder
import SeededArt.Proofs.Shader.Definitions
import SeededArt.Proofs.Lint.KnownFunctions
import SeededArt.Proofs.Document.Framing
import SeededArt.Proofs.Random.Period
import SeededArt.Proofs.Shader.Substitution
import SeededArt.Proofs.Grammar.Search
import SeededArt.Proofs.Grammar.Recording
import SeededArt.Proofs.Sampling.Inverse
import SeededArt.Proofs.Render.Strict
import SeededArt.Proofs.Random.Seed
import SeededArt.Proofs.Text.Words
import SeededArt.Proofs.Shader.Heads
import SeededArt.Proofs.Random.Counting
import SeededArt.Proofs.Synthesis.Decay
import SeededArt.Proofs.Synthesis.Counting
import SeededArt.Proofs.Decimal.Neighbourhood
import SeededArt.Proofs.Decimal.Notation
import SeededArt.Proofs.Decimal.Shortest
import SeededArt.Proofs.Decimal.Conversion
import SeededArt.Proofs.Synthesis.Constants
