import Abacus.Binary64.Basic
import Abacus.Binary64.Rounding
import Abacus.Binary64.Arithmetic
import Abacus.Binary64.Decimal
import Abacus.Binary64.Circular
import Abacus.Text
import Abacus.Text.Cursor
import Abacus.Numeral
import Abacus.Position
import Abacus.Operator
import Abacus.Shape
import Abacus.Error
import Abacus.Token
import Abacus.Token.Lexer
import Abacus.Expr
import Abacus.Expr.Parser
import Abacus.Matrix
import Abacus.Fraction
import Abacus.Value
import Abacus.Value.Arithmetic
import Abacus.Builtin
import Abacus.Literal.Scan
import Abacus.Literal.Kind
import Abacus.Statement
import Abacus.Environment
import Abacus.Environment.Substitution
import Abacus.Postfix
import Abacus.Evaluation.Tree
import Abacus.Evaluation.Text
import Abacus.Session
import Abacus.Console
import Abacus.CommandLine
import Abacus.Main
import Abacus.Proofs.Outcome
import Abacus.Proofs.Numeral
import Abacus.Proofs.Binary64.ReadingBack
import Abacus.Proofs.Expr.Grammar
import Abacus.Proofs.Expr.Soundness
import Abacus.Proofs.Token.Cuts
import Abacus.Proofs.Expr.Completeness
import Abacus.Proofs.Literal.Scanning
import Abacus.Proofs.Literal.Agreement
import Abacus.Proofs.Postfix.Postorder
import Abacus.Proofs.Value.Positions
import Abacus.Proofs.Value.Spelling
import Abacus.Proofs.Environment.Substitution
import Abacus.Proofs.Environment.Inlining
import Abacus.Proofs.Evaluation.Routes
import Abacus.Proofs.Expr.Positions
import Abacus.Proofs.Expr.Limits
import Abacus.Proofs.Expr.Printing
import Abacus.Proofs.Expr.Listing
import Abacus.Proofs.Evaluation.Positions
import Abacus.Proofs.Evaluation.Quotes
import Abacus.Proofs.Session.Statements
import Abacus.Proofs.Text.Lines
import Abacus.Proofs.Session.Invariant
import Abacus.Proofs.Evaluation.Causes
import Abacus.Proofs.Evaluation.Tokens
import Abacus.Proofs.Evaluation.Variables
import Abacus.Proofs.Evaluation.Blanks
import Abacus.Proofs.Session.Relocation
import Abacus.Proofs.Token.Places
import Abacus.Proofs.Session.Places
import Abacus.Proofs.Evaluation.Rendering
import Abacus.Proofs.Session.Strictness
import Abacus.Proofs.Session.Commuting
import Abacus.Proofs.Session.Expansion
import Abacus.Proofs.Session.Messages
import Abacus.Proofs.Console.Drivers
import Abacus.Proofs.Session.Comments
import Abacus.Proofs.Console.Prompt
import Abacus.Proofs.Binary64.Nearest
import Abacus.Proofs.Fraction.Operations
import Abacus.Proofs.Fraction.LowestTerms
import Abacus.Proofs.Binary64.Integers
import Abacus.Proofs.Fraction.ExactArithmetic
import Abacus.Proofs.Fraction.CanonicalForm
import Abacus.Proofs.Value.Pointwise
import Abacus.Proofs.Evaluation.ZeroDivisors
import Abacus.Proofs.Expr.Enclosures
import Abacus.Proofs.Expr.ExactLimits
import Abacus.Proofs.Matrix.Transpose
import Abacus.Proofs.Matrix.Associativity
import Abacus.Proofs.Session.Steps
import Abacus.Proofs.Value.Steps
import Abacus.Proofs.Expr.Bounds
import Abacus.Proofs.Postfix.Readability
import Abacus.Proofs.Postfix.Acceptance
import Abacus.Proofs.Environment.OnePass
import Abacus.Proofs.Token.Lossless
import Abacus.Proofs.Session.Shapes
import Abacus.Proofs.Literal.Bytewise
import Abacus.Proofs.Value.Closeness
import Abacus.Proofs.Literal.Brackets
import Abacus.Proofs.Literal.Tracking
import Abacus.Proofs.Literal.Discipline
