import UntypedLambda.Main
import UntypedLambda.Session.Completion
import UntypedLambda.Proofs.Nameless
import UntypedLambda.Proofs.Nameless.Confluence
import UntypedLambda.Proofs.Term.Labels
import UntypedLambda.Proofs.Term.Reading
import UntypedLambda.Proofs.Term.Scope
import UntypedLambda.Proofs.Reduction.Derivation
import UntypedLambda.Proofs.Reduction.Results
import UntypedLambda.Proofs.Reduction.Soundness
import UntypedLambda.Proofs.Reduction.Faithful
import UntypedLambda.Proofs.Parser.Resolution
import UntypedLambda.Proofs.Expansion.Splicing
import UntypedLambda.Proofs.Reduction.FreeNames
import UntypedLambda.Proofs.Session.Reachable
import UntypedLambda.Proofs.Session.Faithful
import UntypedLambda.Proofs.Term.Named
import UntypedLambda.Proofs.Parser.Grammar
import UntypedLambda.Proofs.Parser.Acceptance
import UntypedLambda.Proofs.Parser.Lifetime
import UntypedLambda.Proofs.Parser.SingleTerm
import UntypedLambda.Proofs.Token.Pieces
import UntypedLambda.Proofs.Term.Printing
import UntypedLambda.Proofs.Parser.Lines
import UntypedLambda.Proofs.Session.Lines
import UntypedLambda.Proofs.Expansion.Unfolding
import UntypedLambda.Proofs.Expansion.Dependency
import UntypedLambda.Proofs.Expansion.Branches
import UntypedLambda.Proofs.Parser.Provenance
import UntypedLambda.Proofs.Session.Changes
import UntypedLambda.Proofs.Session.Prepared
import UntypedLambda.Proofs.Session.Mirror
import UntypedLambda.Proofs.Session.Staleness
import UntypedLambda.Proofs.Reduction.Renumbering
import UntypedLambda.Proofs.Parser.Renumbering
import UntypedLambda.Proofs.Session.Renumbering
import UntypedLambda.Proofs.Session.Noninterference
import UntypedLambda.Proofs.Log
import UntypedLambda.Proofs.Log.History
import UntypedLambda.Proofs.Parser.Statements
import UntypedLambda.Proofs.Session.TermStatements
import UntypedLambda.Proofs.Parser.Bindings
import UntypedLambda.Proofs.Session.BindingStatements
import UntypedLambda.Proofs.Term.Fold
import UntypedLambda.Proofs.Term.Fingerprint
import UntypedLambda.Proofs.Log.Notes
import UntypedLambda.Proofs.Log.Levels
import UntypedLambda.Proofs.Session.Transcript
import UntypedLambda.Proofs.Session.Verbosity
import UntypedLambda.Proofs.Reduction.Counting
import UntypedLambda.Proofs.Session.Statistics
import UntypedLambda.Proofs.Session.Environment
import UntypedLambda.Proofs.Session.Parents
import UntypedLambda.Proofs.Token.Places
import UntypedLambda.Proofs.Token.Segments
import UntypedLambda.Proofs.Parser.Errors
import UntypedLambda.Proofs.Log.Quotes
import UntypedLambda.Proofs.Session.Quotes
import UntypedLambda.Proofs.Nameless.Evaluation
import UntypedLambda.Proofs.Nameless.Numerals
import UntypedLambda.Proofs.Nameless.Selection
import UntypedLambda.Proofs.Reduction.Evaluation
import UntypedLambda.Proofs.Session.Meanings
import UntypedLambda.Proofs.Session.Arithmetic
import UntypedLambda.Proofs.Session.Selection
import UntypedLambda.Proofs.Bound
import UntypedLambda.Proofs.Nameless.Normalization
import UntypedLambda.Proofs.Expansion.Supply
import UntypedLambda.Proofs.Reduction.FreeRenaming
import UntypedLambda.Proofs.Reduction.Occurrences
import UntypedLambda.Proofs.Session.OwnName
import UntypedLambda.Proofs.Session.Heights
import UntypedLambda.Proofs.Term.NameChoice
import UntypedLambda.Proofs.Session.Aliases
import UntypedLambda.Proofs.Parser.Cursor
import UntypedLambda.Proofs.Parser.Descent
import UntypedLambda.Proofs.Parser.Calls
import UntypedLambda.Proofs.Parser.Prefixes
import UntypedLambda.Proofs.Log.Marks
import UntypedLambda.Proofs.Reduction.Blocks
import UntypedLambda.Proofs.Session.Settings
import UntypedLambda.Proofs.Session.Course
import UntypedLambda.Proofs.Term.Owners
import UntypedLambda.Proofs.Session.Completion
import UntypedLambda.Proofs.Parser.Loop
import UntypedLambda.Proofs.Expansion.Stopping
import UntypedLambda.Proofs.Term.PostOrder
import UntypedLambda.Proofs.Term.Traversal
import UntypedLambda.Parser.Word
import UntypedLambda.Proofs.Parser.Weight
import UntypedLambda.Proofs.Parser.Word
import UntypedLambda.Proofs.Text.Bytes
import UntypedLambda.Proofs.Session.Scanning
