import TreePattern.Automaton.Basic
import TreePattern.Automaton.Builder
import TreePattern.Automaton.Closure
import TreePattern.Automaton.GrowingArray
import TreePattern.Automaton.Path
import TreePattern.Automaton.Run
import TreePattern.Automaton.StateSet
import TreePattern.Automaton.Subset
import TreePattern.Automaton.Table
import TreePattern.Condition.Basic
import TreePattern.Condition.Literal
import TreePattern.Condition.NodeTest
import TreePattern.Failure
import TreePattern.Matching.Derivation
import TreePattern.Matching.Ordered
import TreePattern.Matching.Step
import TreePattern.Matching.Traversal
import TreePattern.Number.Binary64
import TreePattern.Number.Shortest
import TreePattern.Pattern.Basic
import TreePattern.Pattern.Compile
import TreePattern.Pattern.Words
import TreePattern.Proofs.Automaton.Acceptance
import TreePattern.Proofs.Automaton.Closure
import TreePattern.Proofs.Automaton.SubsetLanguage
import TreePattern.Proofs.Automaton.SubsetRows
import TreePattern.Proofs.Automaton.SubsetStates
import TreePattern.Proofs.Condition.Lawful
import TreePattern.Proofs.Matching.Accepted
import TreePattern.Proofs.Matching.Chains
import TreePattern.Proofs.Matching.Derivations
import TreePattern.Proofs.Matching.RecordOrder
import TreePattern.Proofs.Matching.Recorded
import TreePattern.Proofs.Matching.Retracing
import TreePattern.Proofs.Matching.Visits
import TreePattern.Proofs.Pattern.Compilation
import TreePattern.Proofs.Pattern.Fits
import TreePattern.Proofs.Pattern.Growth
import TreePattern.Proofs.Pattern.Labelling
import TreePattern.Proofs.Pattern.Profile
import TreePattern.Proofs.Tree.Built
import TreePattern.Proofs.Tree.Frontier
import TreePattern.Proofs.Tree.Preorder
import TreePattern.Proofs.Tree.Span
import TreePattern.Proofs.Tree.Standing
import TreePattern.RuleSet
import TreePattern.Settings.Basic
import TreePattern.Settings.Reading
import TreePattern.Settings.Wrapped
import TreePattern.Text.Quoted
import TreePattern.Text.Render
import TreePattern.Text.Unprintable
import TreePattern.Toml.Document
import TreePattern.Toml.Lexeme
import TreePattern.Toml.Reader
import TreePattern.Toml.Scalar
import TreePattern.Toml.Value
import TreePattern.Tree.Basic
import TreePattern.Tree.Builder
import TreePattern.Tree.Cut
import TreePattern.Tree.Drawing
import TreePattern.Tree.Walk
import TreePattern.Proofs.Matching.Ambiguity
import TreePattern.Proofs.Matching.AlongCuts
import TreePattern.Proofs.Automaton.SubsetTotal
import TreePattern.Proofs.Automaton.Unambiguous
import TreePattern.Proofs.Matching.Completeness
import TreePattern.Proofs.RuleSet.Rules
import TreePattern.Proofs.RuleSet.Priority
import TreePattern.Proofs.RuleSet.Strictness
import TreePattern.Proofs.Pattern.Loops
import TreePattern.Proofs.Pattern.Separation
import TreePattern.Proofs.Pattern.Alternatives
import TreePattern.Proofs.Matching.Renaming
import TreePattern.Proofs.Matching.SideBySide
import TreePattern.Proofs.Tree.Wrapping
import TreePattern.Proofs.Matching.Transparency
import TreePattern.Proofs.Tree.Buildable
import TreePattern.Proofs.Tree.Arena
import TreePattern.Proofs.Tree.Program
import TreePattern.Proofs.Matching.Positions
import TreePattern.Proofs.Tree.OpenNodes
import TreePattern.Proofs.Tree.Pruning
import TreePattern.Proofs.Tree.Iteration
import TreePattern.Proofs.Automaton.Worklist
import TreePattern.Proofs.Automaton.Accessible
import TreePattern.Proofs.Automaton.Idempotence
import TreePattern.Proofs.Automaton.LeastClosed
import TreePattern.Proofs.Automaton.Routes
import TreePattern.Proofs.Automaton.SubsetFailure
import TreePattern.Proofs.Automaton.FirstMatch
import TreePattern.Proofs.Tree.LastDescendants
import TreePattern.Proofs.Pattern.Locality
import TreePattern.Proofs.Matching.Lookups
import TreePattern.Proofs.Text.Quoting
import TreePattern.Proofs.Tree.Lines
import TreePattern.Proofs.Automaton.FiniteSets
import TreePattern.Proofs.Automaton.CallLog
