import Grove.Text.Blank
import Grove.Sorting
import Grove.Table
import Grove.Slab
import Grove.Number.Integer
import Grove.Number.Binary
import Grove.Number.Shortest
import Grove.Number.Floating
import Grove.Type
import Grove.Value
import Grove.Error
import Grove.Type.Catalog
import Grove.Store
import Grove.Signature
import Grove.Node
import Grove.Node.Name
import Grove.Catalog
import Grove.Forest
import Grove.Forest.Surgery
import Grove.Forest.Plot
import Grove.Shape
import Grove.Term
import Grove.Tree
import Grove.Registry
import Grove.Layout
import Grove.Reader
import Grove.Run
import Grove.Evaluation
import Grove.Toml
import Grove.Toml.Table
import Grove.Text.Scan
import Grove.Toml.Scalar
import Grove.Toml.Reader
import Grove.Toml.Writer
import Grove.Document
import Grove.Random
import Grove.Random.XorShift
import Grove.Literals
import Grove.Settings
import Grove.Generation
import Grove.Selection
import Grove.Mutation
import Grove.Crossover
import Grove.Fitness
import Grove.Simulation
import Grove.Breeding
import Grove.Proofs.Result
import Grove.Proofs.Exec
import Grove.Proofs.Typing
import Grove.Proofs.TypedExec
import Grove.Proofs.Operands
import Grove.Proofs.Preservation
import Grove.Proofs.Denotation
import Grove.Proofs.Planting
import Grove.Proofs.Grammar
import Grove.Proofs.Text
import Grove.Proofs.Decimal
import Grove.Proofs.Literal
import Grove.Proofs.Naming
import Grove.Proofs.Catalog
import Grove.Proofs.Spelling
import Grove.Proofs.Resolution
import Grove.Proofs.Lines
import Grove.Proofs.Activation
import Grove.Proofs.Soundness
import Grove.Proofs.Standard
import Grove.Proofs.Loading
import Grove.Proofs.RoundTrip
import Grove.Proofs.TypeSafety
import Grove.Proofs.ReturnType
import Grove.Proofs.Calls
import Grove.Proofs.Congruence
import Grove.Proofs.Moves
import Grove.Proofs.Limits
import Grove.Proofs.Cuts
import Grove.Proofs.Truncation
import Grove.Proofs.Outcomes
import Grove.Proofs.Termination
import Grove.Proofs.Precedence
import Grove.Proofs.Atomicity
import Grove.Proofs.Descent
import Grove.Proofs.Arena
import Grove.Proofs.Growing
import Grove.Proofs.Footprint
import Grove.Proofs.Isolation
import Grove.Proofs.Validity
import Grove.Proofs.Transplant
import Grove.Proofs.Swapping
import Grove.Proofs.Regrowing
import Grove.Proofs.Drawing
import Grove.Proofs.Generating
import Grove.Proofs.InPlace
import Grove.Proofs.Sprouting
import Grove.Proofs.Selecting
import Grove.Proofs.Fullness
import Grove.Proofs.Mutating
import Grove.Proofs.Evolution
import Grove.Proofs.Exchange
import Grove.Proofs.Leaps
import Grove.Proofs.Callable
import Grove.Proofs.Scanning
import Grove.Proofs.Quoting
import Grove.Proofs.Tables
import Grove.Proofs.Documents
import Grove.Proofs.Sorted
import Grove.Proofs.Lockstep
import Grove.Proofs.Pairing
import Grove.Proofs.Isomorphism
import Grove.Proofs.Structure
import Grove.Proofs.Defaults
import Grove.Proofs.Generations
import Grove.Proofs.Relevance
import Grove.Proofs.Binding
import Grove.Proofs.Inventory
import Grove.Proofs.Elitism
import Grove.Proofs.Trading
import Grove.Proofs.Visiting
import Grove.Proofs.Ascent
import Grove.Proofs.Meaning
import Grove.Proofs.Rounds
import Grove.Proofs.Slotting
import Grove.Proofs.Measuring
import Grove.Proofs.Connectors
import Grove.Proofs.Moving
import Grove.Proofs.Joining
import Grove.Proofs.Plots
import Grove.Proofs.Rebuilding
import Grove.Proofs.Persistence
import Grove.Proofs.Refusing
import Grove.Proofs.Declaring
import Grove.Proofs.Identity
import Grove.Proofs.Consistency
import Grove.Proofs.Agreement
import Grove.Proofs.Rounding
import Grove.Proofs.Shortest
import Grove.Proofs.Floating
import Grove.Proofs.Legibility
import Grove.Proofs.Requests
import Grove.Proofs.Renaming
import Grove.Proofs.Indexing
import Grove.Proofs.Aliasing
import Grove.Proofs.Variables
import Grove.Proofs.Uniformity
import Grove.Proofs.FloatRounding
import Grove.Proofs.FloatSums
import Grove.Proofs.Ranges
import Grove.Proofs.FloatZeros
import Grove.Proofs.Penalties
import Grove.Proofs.Scoring
