import LoxLang.Main
import LoxLang.Tree.Dump
import LoxLang.Proofs.Run.Control
import LoxLang.Proofs.Run.Output
import LoxLang.Proofs.Scope.Resolution
import LoxLang.Proofs.Lexical.Refinement
import LoxLang.Proofs.Grammar.Acceptance
import LoxLang.Proofs.Safety.Branches
import LoxLang.Proofs.Scope.Violations
import LoxLang.Proofs.Token.Cutting
import LoxLang.Proofs.Grammar.Interactive
import LoxLang.Proofs.Grammar.Roundtrip
import LoxLang.Proofs.Renaming.Runs
import LoxLang.Proofs.Session.Joining
import LoxLang.Proofs.Session.Rejection
import LoxLang.Proofs.Grammar.Position
import LoxLang.Proofs.Session.Evaluating
import LoxLang.Proofs.Safety.Receivers
import LoxLang.Proofs.Safety.Super
import LoxLang.Proofs.Grammar.Cascades
import LoxLang.Proofs.Grammar.Joining
import LoxLang.Proofs.Safety.Construction
import LoxLang.Proofs.Grammar.Impossible
import LoxLang.Proofs.Token.Lines
import LoxLang.Proofs.Safety.Activations
import LoxLang.Proofs.Safety.MethodTables
import LoxLang.Proofs.Loops.For
import LoxLang.Proofs.Token.Spacing
import LoxLang.Proofs.Store.Addressing
import LoxLang.Proofs.Number.Patterns
import LoxLang.Proofs.Number.Rounding
import LoxLang.Proofs.Number.Bracket
import LoxLang.Proofs.Number.Shortest
import LoxLang.Proofs.Number.Integers
import LoxLang.Proofs.Number.Reading
import LoxLang.Proofs.Scope.Stack
import LoxLang.Proofs.Scope.Meeting
import LoxLang.Proofs.Scope.Discipline
import LoxLang.Proofs.Grammar.Layout
import LoxLang.Proofs.Grammar.Genuine
import LoxLang.Proofs.Grammar.Forms
import LoxLang.Proofs.Grammar.PrefixForm
import LoxLang.Proofs.Diagnostics.Grammar
import LoxLang.Proofs.Diagnostics.Scope
import LoxLang.Proofs.Diagnostics.Order
import LoxLang.Proofs.Identity.Marks
import LoxLang.Proofs.Identity.Reader
import LoxLang.Proofs.Identity.Reading
import LoxLang.Proofs.Identity.Resolving
import LoxLang.Proofs.Identity.Ledger
import LoxLang.Proofs.Store.Tree
import LoxLang.Proofs.Safety.Passes
import LoxLang.Proofs.Safety.Heap
