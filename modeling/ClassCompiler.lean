import ClassCompiler.Main
import ClassCompiler.Files.Store
import ClassCompiler.Tree.Subterms
import ClassCompiler.Machine.Session
import ClassCompiler.Proofs.Outcome
import ClassCompiler.Proofs.Typing.Clean
import ClassCompiler.Proofs.Typing.Known
import ClassCompiler.Proofs.Typing.Settled
import ClassCompiler.Proofs.Tree.Written
import ClassCompiler.Proofs.Code.Descriptor
import ClassCompiler.Proofs.Code.Flow
import ClassCompiler.Proofs.Compile.Layout
import ClassCompiler.Proofs.Compile.Labels
import ClassCompiler.Proofs.Compile.Accepted
import ClassCompiler.Proofs.Compile.Methods
import ClassCompiler.Proofs.Compile.Spans
import ClassCompiler.Proofs.Compile.Total
import ClassCompiler.Proofs.Stack.Depth
import ClassCompiler.Proofs.Stack.Methods
import ClassCompiler.Proofs.Stack.Slots
import ClassCompiler.Proofs.Stack.Underflow
import ClassCompiler.Proofs.Stack.Need
import ClassCompiler.Proofs.Stack.Limits
import ClassCompiler.Proofs.Code.Native
import ClassCompiler.Proofs.Code.Placed
import ClassCompiler.Proofs.Machine.Moves
import ClassCompiler.Proofs.Scalar.Meaning
import ClassCompiler.Proofs.Scalar.Typed
import ClassCompiler.Proofs.Scalar.Held
import ClassCompiler.Proofs.Scalar.Expr
import ClassCompiler.Proofs.Scalar.Stmt
import ClassCompiler.Proofs.Machine.Defaults
import ClassCompiler.Proofs.Scalar.Program
import ClassCompiler.Proofs.Tree.Ancestors
import ClassCompiler.Proofs.Machine.Hierarchy
import ClassCompiler.Proofs.Machine.Links
import ClassCompiler.Proofs.Boxing.Runs
import ClassCompiler.Proofs.Typing.Agreement
import ClassCompiler.Proofs.Typing.Alike
import ClassCompiler.Proofs.Typing.Recheck
import ClassCompiler.Proofs.Typing.Accepted
import ClassCompiler.Proofs.Typing.Retyped
import ClassCompiler.Proofs.Typing.Fading
import ClassCompiler.Proofs.Typing.Absorbed
import ClassCompiler.Proofs.Typing.Undeclared
import ClassCompiler.Proofs.Code.Relabel
import ClassCompiler.Proofs.Compile.Relabel
import ClassCompiler.Proofs.Machine.Relabel
import ClassCompiler.Proofs.Machine.ClassOrder
import ClassCompiler.Proofs.Machine.Registered
import ClassCompiler.Proofs.Build.Keys
import ClassCompiler.Proofs.Build.Renders
import ClassCompiler.Proofs.Build.Cached
import ClassCompiler.Proofs.Build.Gates
import ClassCompiler.Proofs.Machine.Hidden
import ClassCompiler.Proofs.Machine.Passage
import ClassCompiler.Proofs.Machine.Ends
import ClassCompiler.Proofs.Lists.Assignments
import ClassCompiler.Proofs.Lists.Copies
import ClassCompiler.Proofs.Typing.Nulls
import ClassCompiler.Proofs.Lists.Nulls
import ClassCompiler.Proofs.Machine.Sessions
import ClassCompiler.Proofs.Machine.Labels
import ClassCompiler.Proofs.Stack.Allocation
import ClassCompiler.Proofs.Machine.Entry
import ClassCompiler.Proofs.Machine.Arity
import ClassCompiler.Proofs.Lists.Foreach
import ClassCompiler.Proofs.Lists.Places
import ClassCompiler.Proofs.Lists.Stores
import ClassCompiler.Proofs.Lists.Targets
import ClassCompiler.Proofs.Tree.Parents
import ClassCompiler.Proofs.Typing.Subtyping
import ClassCompiler.Proofs.Tree.TypeText
import ClassCompiler.Proofs.Compile.Fields
import ClassCompiler.Proofs.Machine.Construction
import ClassCompiler.Proofs.Machine.Fields
import ClassCompiler.Proofs.Typing.Declarations
import ClassCompiler.Proofs.Typing.Visits
import ClassCompiler.Proofs.Tree.TypeGrammar
import ClassCompiler.Proofs.Tree.Encoding
import ClassCompiler.Proofs.Tree.Printed
import ClassCompiler.Proofs.Compile.Signatures
import ClassCompiler.Proofs.Soundness.Runs
