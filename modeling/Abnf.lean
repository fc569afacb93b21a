import Abnf.Source
import Abnf.Engine
import Abnf.Compile
import Abnf.Listing
import Abnf.Cache
import Abnf.GrammarFile
import Abnf.CommandLine
import Abnf.Main
import Abnf.Proofs.Layout
import Abnf.Proofs.Forest
import Abnf.Proofs.Engine.Run
import Abnf.Proofs.Engine.Realization
import Abnf.Proofs.Engine.Descent
import Abnf.Proofs.Engine.Matching
import Abnf.Proofs.Engine.Locality
import Abnf.Proofs.Engine.Evaluation
import Abnf.Proofs.Engine.Records
import Abnf.Proofs.Engine.Derivation
import Abnf.Proofs.Engine.Outline
import Abnf.Proofs.Metagrammar.Descent
import Abnf.Proofs.Metagrammar.Notes
import Abnf.Proofs.Metagrammar.Proper
import Abnf.Proofs.Metagrammar.Lookahead
import Abnf.Proofs.Metagrammar.Acceptance
import Abnf.Proofs.Metagrammar.Totality
import Abnf.Proofs.Metagrammar.Promises
import Abnf.Proofs.Metagrammar.Localization
import Abnf.Proofs.Metagrammar.Shape
import Abnf.Proofs.Metagrammar.Reading
import Abnf.Proofs.Metagrammar.Postorder
import Abnf.Proofs.Metagrammar.Extensions
import Abnf.Proofs.Analysis.Classes
import Abnf.Proofs.Analysis.Phrases
import Abnf.Proofs.Analysis.Recursion
import Abnf.Proofs.Canonical.Syntax
import Abnf.Proofs.Canonical.Text
import Abnf.Proofs.Canonical.Scanning
import Abnf.Proofs.Canonical.Words
import Abnf.Proofs.Canonical.Spelling
import Abnf.Proofs.Canonical.Leaves
import Abnf.Proofs.Canonical.Elements
import Abnf.Proofs.Canonical.Lines
import Abnf.Proofs.Canonical.RoundTrip
import Abnf.Proofs.Compile
import Abnf.Proofs.Canonical.Compile
import Abnf.Proofs.Strictness
import Abnf.Proofs.Catalog
import Abnf.Proofs.LineEnds.Bytes
import Abnf.Proofs.LineEnds.Recognition
import Abnf.Proofs.LineEnds.Reading
import Abnf.Proofs.LineEnds.Compile
import Abnf.Proofs.Meaning
import Abnf.Proofs.Translation.Tables
import Abnf.Proofs.Engine.Reentry
import Abnf.Proofs.Safety
import Abnf.Proofs.Engine.Adequacy
import Abnf.Proofs.Engine.Simplification
import Abnf.Proofs.Analysis.Groups
import Abnf.Proofs.Analysis.Equations
import Abnf.Proofs.Analysis.Simplification
import Abnf.Proofs.Analysis.Views
import Abnf.Proofs.Analysis.Fixpoint
import Abnf.Proofs.Analysis.Edges
import Abnf.Proofs.Analysis.Renaming
import Abnf.Proofs.ReducedTables
import Abnf.Proofs.Nullability
import Abnf.Proofs.Classification
import Abnf.Proofs.Reordering
import Abnf.Proofs.Soundness
import Abnf.Proofs.Cache.Wire
import Abnf.Proofs.Cache.Validity
import Abnf.Proofs.Cache.RoundTrip
import Abnf.Proofs.Cache.Framing
import Abnf.Proofs.Cache.Groups
import Abnf.Proofs.Listing.Tokens
import Abnf.Proofs.Listing.Reading
import Abnf.Proofs.Listing.Lines
import Abnf.Proofs.Listing.RoundTrip
import Abnf.Proofs.Cache.Loading
import Abnf.Proofs.Analysis.Cycles
import Abnf.Proofs.Analysis.Passes
import Abnf.Proofs.Analysis.Expansions
import Abnf.Proofs.Analysis.Memory
import Abnf.Proofs.Analysis.Scan
import Abnf.Proofs.Analysis.Grouping
import Abnf.Proofs.Analysis.Flags
import Abnf.Proofs.Analysis.Descent
import Abnf.Proofs.Engine.Observation
import Abnf.Proofs.Engine.Unrolling
import Abnf.Proofs.Analysis.Ways
import Abnf.Proofs.Analysis.Nesting
import Abnf.Proofs.Nesting
import Abnf.Proofs.Termination
import Abnf.Proofs.Engine.Traversal
import Abnf.Proofs.Files
import Abnf.Proofs.CommandLine
