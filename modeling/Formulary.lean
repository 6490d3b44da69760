import Formulary.Main
import Formulary.Callable.Stock
import Formulary.Proofs.NameMap
import Formulary.Proofs.Term.Evaluation
import Formulary.Proofs.Callable
import Formulary.Proofs.Meaning.Exact
import Formulary.Proofs.Meaning.Term
import Formulary.Proofs.Meaning.Canonical
import Formulary.Proofs.Term.Canonical
import Formulary.Proofs.Dependency
import Formulary.Proofs.Entry.Build
import Formulary.Proofs.Registry.Step
import Formulary.Proofs.Registry.Acyclic
import Formulary.Proofs.Registry.History
import Formulary.Proofs.Registry.Current
import Formulary.Proofs.PhysicalUnit
import Formulary.Proofs.Meaning.Quantity
import Formulary.Proofs.Meaning.Resolution
import Formulary.Proofs.Meaning.Compilation
import Formulary.Proofs.Expr.Grammar
import Formulary.Proofs.Expr.Reading
import Formulary.Proofs.Exact.Decimal
import Formulary.Proofs.Expr.Writing
import Formulary.Proofs.Expr.Acceptance
import Formulary.Proofs.Term.Depth
import Formulary.Proofs.Term.Printing
import Formulary.Proofs.Term.Grouping
import Formulary.Proofs.Meaning.Layout
import Formulary.Proofs.Term.Layout
import Formulary.Proofs.Meaning.Printing
import Formulary.Proofs.Entry.Canonical
import Formulary.Proofs.Meaning.Faithful
import Formulary.Proofs.Entry.Agreement
import Formulary.Proofs.Registry.Deletion
import Formulary.Proofs.Registry.Integrity
import Formulary.Proofs.Registry.Snapshot
import Formulary.Proofs.Registry.Safety
import Formulary.Proofs.Registry.Defaults
import Formulary.Proofs.Registry.Symbols
import Formulary.Proofs.Registry.Elementwise
import Formulary.Proofs.Registry.Lookup
import Formulary.Proofs.Registry.Transactions
import Formulary.Proofs.Meaning.Constructors
import Formulary.Proofs.PhysicalUnit.Group
import Formulary.Proofs.PhysicalUnit.Written
import Formulary.Proofs.PhysicalUnit.Root
import Formulary.Proofs.Entry.Reduced
import Formulary.Proofs.Key.Acceptance
import Formulary.Proofs.Entry.BareReference
import Formulary.Proofs.Term.Folding
import Formulary.Proofs.Exact.Text
import Formulary.Proofs.Dependency.Counting
import Formulary.Proofs.Term.Termination
