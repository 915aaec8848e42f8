import CoContextual.Table
import CoContextual.Fault
import CoContextual.Position
import CoContextual.Token
import CoContextual.Primitive
import CoContextual.NodeId
import CoContextual.Ty.Basic
import CoContextual.Ty.Printer
import CoContextual.TypeExpr
import CoContextual.Substitution.Basic
import CoContextual.Substitution.Apply
import CoContextual.Ty.Polymorphism
import CoContextual.Diagnostic
import CoContextual.Unify.Basic
import CoContextual.Unify.Unifier
import CoContextual.Requirements
import CoContextual.Bindings
import CoContextual.Discharge
import CoContextual.Derivation.Basic
import CoContextual.Derivation.Statement
import CoContextual.Inference.Basic
import CoContextual.Inference.Expression
import CoContextual.Inference.Statement
import CoContextual.Typer
import CoContextual.Family
import CoContextual.Proofs.Optional
import CoContextual.Proofs.Position
import CoContextual.Proofs.Ty.Shape
import CoContextual.Proofs.Ty.Rename
import CoContextual.Proofs.Ty.Substitute
import CoContextual.Proofs.Ty.Text
import CoContextual.Proofs.Ty.Outline
import CoContextual.Proofs.Substitution.Lookup
import CoContextual.Proofs.Substitution.Acyclic
import CoContextual.Proofs.Substitution.Resolved
import CoContextual.Proofs.Substitution.Alike
import CoContextual.Proofs.Unify.Course
import CoContextual.Proofs.Unify.Depth
import CoContextual.Proofs.Unify.Solution
import CoContextual.Proofs.Unify.Soundness
import CoContextual.Proofs.Unify.Built
import CoContextual.Proofs.Unify.Outlined
import CoContextual.Proofs.Unify.Completeness
import CoContextual.Proofs.Unify.Equal
import CoContextual.Proofs.Unify.Invalid
import CoContextual.Proofs.Unify.Sides
import CoContextual.Proofs.Unify.Locality
import CoContextual.Proofs.Unify.Independence
import CoContextual.Proofs.Unify.Trace
import CoContextual.Proofs.Unify.Alike
import CoContextual.Proofs.Unify.Rigid
import CoContextual.Proofs.Supply
import CoContextual.Proofs.Substitution.Origins
import CoContextual.Proofs.Expression.Session
import CoContextual.Proofs.Expression.Rules
import CoContextual.Proofs.Expression.Inferred
import CoContextual.Proofs.Expression.Identities
import CoContextual.Proofs.Expression.Pool
import CoContextual.Proofs.Expression.Ledger
import CoContextual.Proofs.Requirements
import CoContextual.Proofs.Ty.Instance
import CoContextual.Proofs.Discharge.Link
import CoContextual.Proofs.Discharge.Alike
import CoContextual.Proofs.Typing.Judgement
import CoContextual.Proofs.Typing.Soundness
import CoContextual.Proofs.Typing.Completeness
import CoContextual.Proofs.Typing.Agreement
import CoContextual.Proofs.Typing.Definite
import CoContextual.Proofs.Discharge.Outcome
import CoContextual.Proofs.Discharge.Generalization
import CoContextual.Proofs.Uses.Apart
import CoContextual.Proofs.Uses.Raised
import CoContextual.Proofs.Uses.Anchored
import CoContextual.Proofs.Discharge.Stores
import CoContextual.Proofs.IdPool
import CoContextual.Proofs.Expression.Failures
import CoContextual.Proofs.Expression.Line
import CoContextual.Proofs.Expression.Calls
import CoContextual.Proofs.Expression.Runs
import CoContextual.Proofs.Renumbering.Types
import CoContextual.Proofs.Renumbering.Stores
import CoContextual.Proofs.Renumbering.Derivations
import CoContextual.Proofs.Renumbering.Draws
import CoContextual.Proofs.Renumbering.Rules
import CoContextual.Proofs.Renumbering.Scripts
import CoContextual.Proofs.Statement.Ascription
import CoContextual.Proofs.Statement.Reading
import CoContextual.Proofs.Derivation.Relocation
import CoContextual.Proofs.Unify.Renamed
import CoContextual.Proofs.Ty.Generalize
import CoContextual.Proofs.Ty.Commutation
import CoContextual.Proofs.Derivation.Lookup
import CoContextual.Proofs.Tracing
import CoContextual.Proofs.Family.NestedCalls
import CoContextual.Proofs.Family.SumChain
import CoContextual.Proofs.IdPool.Pinned
import CoContextual.Proofs.Position.Order
import CoContextual.Proofs.Substitution.Visited
import CoContextual.Proofs.Uses.Apart
