import Frontend.Main
import Frontend.Source.Cursor
import Frontend.Proofs.Types.Principal
import Frontend.Proofs.Types.Consistency
import Frontend.Proofs.Grammar.Safety
import Frontend.Proofs.Source.Place
import Frontend.Proofs.Token.Standing
import Frontend.Proofs.Grammar.Leaves
import Frontend.Proofs.Scope.Steps
import Frontend.Proofs.Analysis.Pointing
import Frontend.Proofs.Analysis.Totality
import Frontend.Proofs.Syntax.Layout
import Frontend.Proofs.Syntax.Family
import Frontend.Proofs.Grammar.WellFormed
import Frontend.Proofs.Scope.Order
import Frontend.Proofs.Analysis.Stages
import Frontend.Proofs.Analysis.Identity
import Frontend.Proofs.Types.Representatives
import Frontend.Proofs.Scope.Nesting
import Frontend.Proofs.Token.Cover
import Frontend.Proofs.Token.Printing
import Frontend.Proofs.Grammar.Parallel
import Frontend.Proofs.Scope.Resemblance
import Frontend.Proofs.Scope.Renaming
import Frontend.Proofs.Types.Renaming
import Frontend.Proofs.Analysis.Renaming
import Frontend.Proofs.Token.Joining
import Frontend.Proofs.Syntax.Shape
import Frontend.Proofs.Grammar.Joining
import Frontend.Proofs.Scope.Continuing
import Frontend.Proofs.Analysis.Joining
import Frontend.Proofs.Analysis.Finishing
import Frontend.Proofs.Types.Specialization
import Frontend.Proofs.Analysis.Mismatch
import Frontend.Proofs.Analysis.Sharing
import Frontend.Proofs.Syntax.Reaching
import Frontend.Proofs.Grammar.Around
import Frontend.Proofs.Grammar.Viable
import Frontend.Proofs.Types.Leaving
import Frontend.Proofs.Types.Balance
import Frontend.Proofs.Analysis.Stack
import Frontend.Proofs.Analysis.Blame
import Frontend.Proofs.Scope.Balance
import Frontend.Proofs.Analysis.Scoping
import Frontend.Proofs.Grammar.Ending
import Frontend.Proofs.Grammar.Returns
import Frontend.Proofs.Token.Lexemes
import Frontend.Proofs.Token.Breaks
import Frontend.Proofs.Token.Pattern
import Frontend.Proofs.Token.Munch
import Frontend.Proofs.Token.Following
import Frontend.Proofs.Token.Spacing
import Frontend.Proofs.Source.Lines
import Frontend.Proofs.Types.Canonical
import Frontend.Proofs.CommandLine.Caret
import Frontend.Proofs.Text.Nested
import Frontend.Proofs.Syntax.Dumping
import Frontend.Proofs.Syntax.Spelling
import Frontend.Proofs.Syntax.Reading
import Frontend.Proofs.Grammar.Unambiguous
