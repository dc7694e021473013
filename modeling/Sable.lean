import Sable.Binary64
import Sable.Builtin
import Sable.Command
import Sable.Decimal
import Sable.Evaluation
import Sable.Fields
import Sable.Main
import Sable.Operator
import Sable.ParameterList
import Sable.ParseError
import Sable.Prelude
import Sable.Program
import Sable.Program.Lowering
import Sable.Program.TypeRule
import Sable.Program.Typing
import Sable.Program.Validation
import Sable.Reader
import Sable.Reader.Body
import Sable.Reader.Expr
import Sable.Reader.Type
import Sable.RuntimeError
import Sable.Scope
import Sable.Span
import Sable.Token
import Sable.Token.Label
import Sable.Token.Scan
import Sable.Tree
import Sable.Tree.Dump
import Sable.Ty
import Sable.Ty.Assignable
import Sable.Ty.Inference
import Sable.Ty.Substitution
import Sable.Ty.Text
import Sable.TypeError
import Sable.Value
import Sable.Proofs.Evaluation.Keys
import Sable.Proofs.Evaluation.Mirrors
import Sable.Proofs.Evaluation.Outcomes
import Sable.Proofs.Evaluation.Rekey
import Sable.Proofs.Evaluation.Resolved
import Sable.Proofs.Evaluation.Runs
import Sable.Proofs.Evaluation.Within
import Sable.Proofs.Lowering.Layout
import Sable.Proofs.Lowering.Program
import Sable.Proofs.Lowering.Scopes
import Sable.Proofs.Lowering.Spelled
import Sable.Proofs.Lowering.Types
import Sable.Proofs.Meaning.Assignable
import Sable.Proofs.Meaning.Holds
import Sable.Proofs.Meaning.Steady
import Sable.Proofs.Meaning.Substitution
import Sable.Proofs.Program.Parts
import Sable.Proofs.Program.Scoped
import Sable.Proofs.Soundness.Conditions
import Sable.Proofs.Soundness.Core
import Sable.Proofs.Soundness.Environment
import Sable.Proofs.Soundness.Expressions
import Sable.Proofs.Soundness.Functions
import Sable.Proofs.Soundness.Program
import Sable.Proofs.Soundness.Regular
import Sable.Proofs.Soundness.Prelude
import Sable.Proofs.Soundness.Builtins
import Sable.Proofs.Token.Pieces
import Sable.Proofs.Tree.Core
import Sable.Proofs.Tree.Moved
import Sable.Proofs.Ty.Alike
import Sable.Proofs.Ty.Capture
import Sable.Proofs.Ty.Closed
import Sable.Proofs.Ty.Every
import Sable.Proofs.Ty.Fits
import Sable.Proofs.Ty.Inferred
import Sable.Proofs.Ty.Transitivity
import Sable.Proofs.Ty.Written
import Sable.Proofs.Typing.Asks
import Sable.Proofs.Typing.Follows
import Sable.Proofs.Typing.Plain
import Sable.Proofs.Typing.Queries
import Sable.Proofs.Typing.Rules
import Sable.Proofs.Typing.Scopes
import Sable.Proofs.Typing.Valid
import Sable.Proofs.Typing.Validity
import Sable.Proofs.Typing.Variables
import Sable.Proofs.Typing.WellFormed
import Sable.Proofs.Prelude.Read
import Sable.Proofs.Prelude.Text
import Sable.Proofs.Reader.MovedBodies
import Sable.Proofs.Reader.MovedExpressions
import Sable.Proofs.Reader.Moves
import Sable.Proofs.Reader.Program
import Sable.Proofs.Reader.Spelled
import Sable.Proofs.Evaluation.ValuesBehind
import Sable.Proofs.Lowering.Behind
import Sable.Proofs.Typing.Behind
import Sable.Proofs.Evaluation.Behind
import Sable.Proofs.Prelude.Conservative
import Sable.Proofs.Lowering.Allocation
import Sable.Proofs.Token.Munch
import Sable.Proofs.Reader.Held
import Sable.Proofs.Tree.Held
import Sable.Proofs.Tree.Printed
import Sable.Proofs.Ty.Instances
import Sable.Proofs.Ty.Rebound
import Sable.Proofs.Prelude.Declared
import Sable.Proofs.Evaluation.Ends
import Sable.Proofs.Soundness.Arity
import Sable.Proofs.Evaluation.Cursors
import Sable.Proofs.Meaning.Inhabits
import Sable.Proofs.Soundness.Honours
import Sable.Proofs.Reader.Spares
import Sable.Proofs.Reader.Balanced
import Sable.Proofs.Reader.Recovery
import Sable.Proofs.Ty.Merged
import Sable.Proofs.Ty.Mentions
import Sable.Proofs.Ty.Recovered
import Sable.Proofs.Fields
import Sable.Proofs.Ty.Replaced
import Sable.Proofs.Lowering.Kept
import Sable.Proofs.Lowering.Reached
import Sable.Proofs.Lowering.Instantiated
import Sable.Proofs.Token.Lines
import Sable.Proofs.Typing.Answers
import Sable.Proofs.Tree.Items
import Sable.Proofs.Reader.Stretches
import Sable.Proofs.Reader.Nested
import Sable.Proofs.Lowering.InPlace
import Sable.Proofs.Number.Parts
import Sable.Proofs.Number.Decimal
import Sable.Proofs.Number.Text
import Sable.Proofs.Legible
import Sable.Proofs.Value.Text
import Sable.Proofs.Ty.Legible
import Sable.Proofs.Ty.Neat
import Sable.Proofs.Lowering.Stored
import Sable.Proofs.Typing.Neat
import Sable.Proofs.Tree.Sexp
import Sable.Proofs.Tree.Forms
import Sable.Proofs.Tree.Outline
import Sable.Proofs.Tree.ReadBack
import Sable.Proofs.Tree.Faithful
import Sable.Proofs.Reader.Named
import Sable.Proofs.Reader.Faithful
import Sable.Proofs.Ty.Composed
import Sable.Proofs.Reader.InStep
import Sable.Proofs.Reader.InStepExpressions
import Sable.Proofs.Reader.Rounds
import Sable.Proofs.Reader.Progress
import Sable.Proofs.Value.Quotient
