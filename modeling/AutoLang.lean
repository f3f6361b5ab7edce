import AutoLang.CommandLine.Simulate
import AutoLang.Main
import AutoLang.Proofs.C.Preservation
import AutoLang.Proofs.C.Reading
import AutoLang.Proofs.Eval.Compound
import AutoLang.Proofs.Eval.Leaving
import AutoLang.Proofs.Parse.Content
import AutoLang.Proofs.Parse.Lines
import AutoLang.Proofs.Parse.RoundTrip
import AutoLang.Proofs.Parse.Spans
import AutoLang.Proofs.Scope.Consistency
import AutoLang.Proofs.Token.Nesting
import AutoLang.Tree.Equal
import AutoLang.Tree.Outline
import AutoLang.Proofs.Parse.Alike
import AutoLang.Proofs.Parse.Agreeing
import AutoLang.Proofs.Token.Lookahead
import AutoLang.Proofs.Token.Moves
import AutoLang.Proofs.Token.Gaps
import AutoLang.Proofs.Parse.Significant
import AutoLang.Proofs.Parse.BlankLines
import AutoLang.Proofs.C.Bodies
import AutoLang.Proofs.C.Scopes
import AutoLang.Proofs.C.Declarations
import AutoLang.Proofs.C.Typing
import AutoLang.Proofs.Eval.Operations
import AutoLang.Proofs.Eval.Pieces
import AutoLang.Proofs.Token.Places
import AutoLang.Proofs.Token.Halting
import AutoLang.Proofs.Parse.ErrorLines
import AutoLang.Proofs.Eval.Blocks
import AutoLang.Proofs.Eval.Breaks
import AutoLang.Proofs.Token.Numbers
import AutoLang.Proofs.Parse.Integers
import AutoLang.Proofs.Decimal.Doubles
import AutoLang.Proofs.Decimal.Nearest
import AutoLang.Proofs.Decimal.Scientific
import AutoLang.Proofs.Parse.Decimals
import AutoLang.Proofs.Decimal.Integers
import AutoLang.Proofs.Value.Equality
import AutoLang.Proofs.C.Supported
import AutoLang.Proofs.Token.Written
import AutoLang.Proofs.C.Constants
import AutoLang.Proofs.Parse.Nodes
import AutoLang.Proofs.C.Strings
import AutoLang.Proofs.Decimal.Significant
import AutoLang.Proofs.Decimal.Spelling
import AutoLang.Proofs.Decimal.Reread
import AutoLang.Proofs.C.Doubles
import AutoLang.Proofs.Value.Containers
import AutoLang.Proofs.Value.Operators
import AutoLang.Proofs.Diagnostic.Queue
import AutoLang.Proofs.Parse.Reports
import AutoLang.Proofs.Text.Lines
import AutoLang.Proofs.Parse.Labels
import AutoLang.Proofs.C.Known
import AutoLang.Proofs.C.Wording
import AutoLang.Proofs.C.Layout
import AutoLang.Proofs.C.Indentation
import AutoLang.Proofs.C.Declarators
import AutoLang.Proofs.C.Blocks
import AutoLang.Proofs.C.Statements
import AutoLang.Proofs.C.Headers
import AutoLang.Proofs.CommandLine.Names
import AutoLang.Proofs.CommandLine.Files
import AutoLang.Proofs.CommandLine.Outputs
import AutoLang.Proofs.CommandLine.Targets
import AutoLang.Proofs.CommandLine.OutputNames
import AutoLang.Proofs.CommandLine.Includes
import AutoLang.Proofs.CommandLine.Options
import AutoLang.Proofs.Decimal.Printed
import AutoLang.Proofs.Eval.Rounds
