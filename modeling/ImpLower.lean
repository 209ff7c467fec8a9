import ImpLower.Code.Draft
import ImpLower.Code.Listing
import ImpLower.Literal.Fold
import ImpLower.Literal.Text
import ImpLower.Machine.Run
import ImpLower.Program
import ImpLower.Proofs.Success
import ImpLower.Recorder
import ImpLower.Scope.Command
import ImpLower.Proofs.Induction
import ImpLower.Proofs.Scope.Frames
import ImpLower.Proofs.Typing.Rules
import ImpLower.Proofs.Typing.Inversion
import ImpLower.Proofs.Typing.Statements
import ImpLower.Proofs.Typed.Annotation
import ImpLower.Proofs.Typing.Soundness
import ImpLower.Proofs.Typed.Derivation
import ImpLower.Proofs.Typing.Completeness
import ImpLower.Proofs.Typing.Declarations
import ImpLower.Proofs.Typing.Acceptance
import ImpLower.Proofs.Code.Layout
import ImpLower.Proofs.Lower.Focus
import ImpLower.Proofs.Lower.Expr
import ImpLower.Proofs.Lower.Growth
import ImpLower.Proofs.Lower.Stmt
import ImpLower.Proofs.Lower.Decl
import ImpLower.Proofs.Program.History
import ImpLower.Proofs.Machine.Execution
import ImpLower.Proofs.Semantics.Evaluator
import ImpLower.Proofs.Semantics.Values
import ImpLower.Proofs.Semantics.Agreement
import ImpLower.Proofs.Semantics.Following
import ImpLower.Proofs.Semantics.Offsets
import ImpLower.Proofs.Semantics.Expressions
import ImpLower.Proofs.Code.Counters
import ImpLower.Proofs.Semantics.Blocks
import ImpLower.Proofs.Semantics.Cases
import ImpLower.Proofs.Semantics.Statements
import ImpLower.Proofs.Semantics.Calls
import ImpLower.Proofs.Semantics.Programs
import ImpLower.Proofs.Semantics.Sessions
import ImpLower.Proofs.Program.Correctness
import ImpLower.Proofs.Scope.Exits
import ImpLower.Proofs.Lower.Confinement
import ImpLower.Proofs.Scope.Restoration
import ImpLower.Proofs.Code.Numbering
import ImpLower.Proofs.Code.Judgement
import ImpLower.Proofs.Code.Labels
import ImpLower.Proofs.Code.Certificate
import ImpLower.Proofs.Code.Validity
import ImpLower.Proofs.Lower.Ledgers
import ImpLower.Proofs.Lower.Certification.Expr
import ImpLower.Proofs.Lower.Certification.Stmt
import ImpLower.Proofs.Lower.Certification.Decl
import ImpLower.Proofs.Program.Validity
import ImpLower.Proofs.Machine.Extension
import ImpLower.Proofs.Program.Extension
import ImpLower.Proofs.Recorder
import ImpLower.Proofs.Lower.Parallel
import ImpLower.Proofs.Lower.Recording
import ImpLower.Proofs.Program.Refusal
import ImpLower.Proofs.Code.Drafting
import ImpLower.Proofs.Code.Permanence
import ImpLower.Proofs.Code.Clashes
import ImpLower.Proofs.Machine.Outcomes
import ImpLower.Proofs.Machine.Calls
import ImpLower.Proofs.Machine.ControlFlow
import ImpLower.Proofs.Machine.Nesting
import ImpLower.Proofs.Machine.Residue
import ImpLower.Proofs.Machine.Limits
import ImpLower.Proofs.Typed.Untabled
import ImpLower.Proofs.Semantics.Switches
import ImpLower.Proofs.Program.JumpTables
import ImpLower.Proofs.Semantics.Folding
import ImpLower.Proofs.Program.Constants
import ImpLower.Proofs.Lower.Straight
import ImpLower.Proofs.Code.Shape
import ImpLower.Proofs.Lower.Endings
import ImpLower.Proofs.Lower.Pruning
import ImpLower.Proofs.Program.Returns
import ImpLower.Proofs.Semantics.RowMajor
import ImpLower.Proofs.Machine.Locations
import ImpLower.Proofs.Semantics.Histories
import ImpLower.Proofs.Semantics.Accesses
import ImpLower.Proofs.Program.Arrays
import ImpLower.Proofs.Program.GlobalArrays
import ImpLower.Proofs.Program.LocalArrays
import ImpLower.Proofs.Literal.Residues
import ImpLower.Proofs.Literal.Arithmetic
import ImpLower.Proofs.Scope.Events
import ImpLower.Proofs.Scope.Journal
import ImpLower.Proofs.Scope.Containment
import ImpLower.Proofs.Scope.Runs
