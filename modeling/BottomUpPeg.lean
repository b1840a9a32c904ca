import BottomUpPeg.Grammar.Notice
import BottomUpPeg.Sample.Generate
import BottomUpPeg.Sample.Grammars
import BottomUpPeg.Tree.Extract
import BottomUpPeg.Proofs.Linking
import BottomUpPeg.Proofs.FlagTable
import BottomUpPeg.Proofs.Condensation
import BottomUpPeg.Proofs.Components
import BottomUpPeg.Proofs.Layering
import BottomUpPeg.Proofs.LayerTable
import BottomUpPeg.Proofs.Lawful
import BottomUpPeg.Proofs.Derivation
import BottomUpPeg.Proofs.Commit
import BottomUpPeg.Proofs.Rounds
import BottomUpPeg.Proofs.Validity
import BottomUpPeg.Proofs.Descent
import BottomUpPeg.Proofs.Strata
import BottomUpPeg.Proofs.Ranking
import BottomUpPeg.Proofs.Settling
import BottomUpPeg.Proofs.Emptiness
import BottomUpPeg.Proofs.Agreement
import BottomUpPeg.Proofs.Growth
import BottomUpPeg.Proofs.Canonicity
import BottomUpPeg.Proofs.Arithmetic
import BottomUpPeg.Proofs.Pacing
import BottomUpPeg.Proofs.Sums
import BottomUpPeg.Proofs.Choices
import BottomUpPeg.Proofs.Vacancy
import BottomUpPeg.Proofs.Triggers
import BottomUpPeg.Proofs.Nesting
import BottomUpPeg.Proofs.Variation
import BottomUpPeg.Proofs.Restless
import BottomUpPeg.Proofs.Termination
import BottomUpPeg.Proofs.Interchange
import BottomUpPeg.Proofs.Elevation
import BottomUpPeg.Proofs.Postorder
import BottomUpPeg.Proofs.Resolution
import BottomUpPeg.Proofs.Faithful
import BottomUpPeg.Proofs.Spelling
import BottomUpPeg.Proofs.Lexemes
import BottomUpPeg.Proofs.Reading
import BottomUpPeg.Proofs.Interning
import BottomUpPeg.Proofs.FlagSoundness
import BottomUpPeg.Proofs.LeastFlags
import BottomUpPeg.Proofs.Anatomy
import BottomUpPeg.Proofs.Greedy
import BottomUpPeg.Proofs.CharRuns
import BottomUpPeg.Proofs.WordLists
import BottomUpPeg.Proofs.Products
import BottomUpPeg.Proofs.FixedPoint
import BottomUpPeg.Proofs.Consistency
import BottomUpPeg.Proofs.Stratification
import BottomUpPeg.Proofs.DescentRuns
import BottomUpPeg.Proofs.Cutting
import BottomUpPeg.Proofs.Installing
import BottomUpPeg.Proofs.Circuits
import BottomUpPeg.Proofs.Literals
import BottomUpPeg.Proofs.Cutoff
import BottomUpPeg.Proofs.LevelOrder
import BottomUpPeg.Proofs.Climbing
import BottomUpPeg.Proofs.Aliases
import BottomUpPeg.Proofs.Naming
import BottomUpPeg.Proofs.Sharing
import BottomUpPeg.Proofs.Selection
import BottomUpPeg.Proofs.Coverage
import BottomUpPeg.Proofs.Attempts
import BottomUpPeg.Proofs.Placement
import BottomUpPeg.Proofs.Occurrences
import BottomUpPeg.Proofs.Recurrence
import BottomUpPeg.Proofs.Sampling
import BottomUpPeg.Proofs.Generation
import BottomUpPeg.Proofs.Unions
import BottomUpPeg.Proofs.Slicing
