import JsonnetSyntax.Position
import JsonnetSyntax.Span
import JsonnetSyntax.Cursor
import JsonnetSyntax.Token.Kind
import JsonnetSyntax.Token.Basic
import JsonnetSyntax.Fault
import JsonnetSyntax.Diagnostic
import JsonnetSyntax.Lexical.Interruption
import JsonnetSyntax.Lexical.Numeral
import JsonnetSyntax.Lexical.Quoted
import JsonnetSyntax.Lexical.Comment
import JsonnetSyntax.Lexical.SymbolRun
import JsonnetSyntax.Lexical.Block
import JsonnetSyntax.Lexical.Piece
import JsonnetSyntax.Lexical.Tokens
import JsonnetSyntax.Decimal.Basic
import JsonnetSyntax.Decimal.Shortest
import JsonnetSyntax.Decimal.Format
import JsonnetSyntax.Json.Basic
import JsonnetSyntax.Json.Printer
import JsonnetSyntax.Operator
import JsonnetSyntax.Expr.Shape
import JsonnetSyntax.Expr.Basic
import JsonnetSyntax.Expr.Dump
import JsonnetSyntax.Expr.Survey
import JsonnetSyntax.Grammar.Stream
import JsonnetSyntax.Grammar.Rule
import JsonnetSyntax.Grammar.Items
import JsonnetSyntax.Grammar.Comprehension
import JsonnetSyntax.Grammar.Binding
import JsonnetSyntax.Grammar.Object
import JsonnetSyntax.Grammar.KeywordForm
import JsonnetSyntax.Grammar.Operand
import JsonnetSyntax.Grammar.Level
import JsonnetSyntax.Grammar.Session
import JsonnetSyntax.Proofs.Grammar.Reads
import JsonnetSyntax.Proofs.Lexical.Lossless
import JsonnetSyntax.Proofs.Lexical.Locations
import JsonnetSyntax.Proofs.Lexical.Locality
import JsonnetSyntax.Proofs.Lexical.Parts
import JsonnetSyntax.Proofs.Lexical.TextBlocks
import JsonnetSyntax.Proofs.Grammar.Productions
import JsonnetSyntax.Proofs.Expr.Places
import JsonnetSyntax.Proofs.Expr.Print
import JsonnetSyntax.Proofs.Expr.WellFormed
import JsonnetSyntax.Proofs.Grammar.AcceptedTrees
import JsonnetSyntax.Proofs.Grammar.Faithful
import JsonnetSyntax.Proofs.Grammar.Reread
import JsonnetSyntax.Proofs.Grammar.RoundTrip
import JsonnetSyntax.Proofs.Grammar.Climbing
import JsonnetSyntax.Proofs.Grammar.Placement
import JsonnetSyntax.Proofs.Grammar.Ranges
import JsonnetSyntax.Proofs.Grammar.Relocation
import JsonnetSyntax.Proofs.Grammar.Slices
import JsonnetSyntax.Proofs.Lexical.Spacing
import JsonnetSyntax.Proofs.Grammar.InStep
import JsonnetSyntax.Proofs.Grammar.Counting
import JsonnetSyntax.Proofs.Grammar.Layout
import JsonnetSyntax.Proofs.Grammar.Lookahead
import JsonnetSyntax.Proofs.Grammar.Failures
import JsonnetSyntax.Proofs.Grammar.Nesting
import JsonnetSyntax.Proofs.Grammar.OpenOperators
import JsonnetSyntax.Proofs.Grammar.Totality
import JsonnetSyntax.Lexical.Scanner
import JsonnetSyntax.Proofs.Lexical.ScanSteps
import JsonnetSyntax.Proofs.Lexical.Scanning
import JsonnetSyntax.Proofs.Lexical.CrashFree
import JsonnetSyntax.Proofs.Lexical.QuotedStrings
import JsonnetSyntax.Proofs.Lexical.Operators
import JsonnetSyntax.Proofs.Lexical.FirstFault
import JsonnetSyntax.Proofs.Lexical.NormalForm
import JsonnetSyntax.Proofs.Grammar.NumberLiterals
import JsonnetSyntax.Proofs.Grammar.FaultPlaces
import JsonnetSyntax.Proofs.Diagnostic.Excerpt
import JsonnetSyntax.Proofs.Diagnostic.MarkedText
import JsonnetSyntax.Proofs.Grammar.Declarations
import JsonnetSyntax.Proofs.Grammar.DistinctNames
import JsonnetSyntax.Proofs.Grammar.Extent
import JsonnetSyntax.Proofs.Grammar.Refitting
import JsonnetSyntax.Proofs.Grammar.ElementLists
import JsonnetSyntax.Proofs.Diagnostic.SpanText
import JsonnetSyntax.Proofs.Expr.LosslessDump
import JsonnetSyntax.Proofs.Grammar.ParameterLists
import JsonnetSyntax.Proofs.Lexical.CursorCalls
import JsonnetSyntax.Proofs.Diagnostic.ReportedFile
