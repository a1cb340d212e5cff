import LoxLang.Eval
import LoxLang.Scope
import LoxLang.Tree.Label
import LoxLang.Tree.Read

/-!
# Sessions

A `Session` runs any number of sources, one after the other, on one machine, so later ones see the
globals of earlier ones. A source with a lexical, grammatical or scope error is rejected before any
of it runs. Otherwise its sites are numbered, resolved and linked with their distances, and it runs.
The numbers go on from source to source: no two sites of a session share one.
-/

namespace LoxLang

/-- What came of a run: it was rejected, it ran to its end and may have a value to show, or it
failed on the way. -/
inductive Ending
  | rejected (diagnostics : List Diagnostic)
  | finished (value : Option String)
  | failed (fault : Fault)

/-- What one run of a session printed and what came of it. -/
structure Outcome where
  printed : ByteArray
  ending : Ending

namespace Outcome

/-- What the user is told. -/
def diagnostics (o : Outcome) : List Diagnostic :=
  match o.ending with
  | .rejected ds => ds
  | .finished _ => []
  | .failed fault => fault.diagnostic?.toList

/-- Whether the source was rejected. -/
def isRejected (o : Outcome) : Bool := o.ending matches .rejected _

/-- Whether the run failed. -/
def isFailed (o : Outcome) : Bool := o.ending matches .failed _

/-- Whether the source ran to its end. -/
def isOk (o : Outcome) : Bool := !o.isRejected && !o.isFailed

/-- The value to show. -/
def value? (o : Outcome) : Option String :=
  match o.ending with
  | .finished value => value
  | _ => none

end Outcome

/-- The expression with the distances of its sites. -/
def Expr.link (e : Expr Nat) (b : Bindings) : Expr (Option Nat) := e.map b.distance?

/-- The line with the distances of its sites. -/
def Line.link (line : Line Nat) (b : Bindings) : Line (Option Nat) := line.map b.distance?

/-- How a source is read: as a whole program, or as a line whose last expression may be shown. -/
inductive Style
  | program
  | interactive
deriving DecidableEq

/-- Reads tokens in a style. A program is a line without an expression at its end. -/
def Style.read (style : Style) (tokens : List Token) :
    Except (List GrammarError) (Line Unit) :=
  match style with
  | .program => (Stmt.readAll tokens).map (⟨·, none⟩)
  | .interactive => Line.read tokens

/-- Reads a source, with its sites numbered from `next` on. Lexical errors stand before errors of
grammar, and either rejects it. -/
def Style.readSource (style : Style) (next : Nat) (source : String) :
    Except (List Diagnostic) (Line Nat × Nat) :=
  let items := Item.scan source
  let lexical := (items.filterMap Item.error?).map LexicalError.diagnostic
  match style.read (items.filterMap Item.token?) with
  | .error es => .error (lexical ++ es.map GrammarError.diagnostic)
  | .ok line => if lexical.isEmpty then .ok (line.label next) else .error lexical

/-- A machine, and the first number that no site of the session has. -/
structure Session where
  machine : Machine
  nextSite : Nat

namespace Session

/-- A session at its start. -/
def start (clock : Nat → Float) (room : Option Nat) : Session := ⟨.start clock room, 0⟩

/-- Runs a line on the machine. -/
def perform (s : Session) (fuel : Nat) (code : Line (Option Nat)) : Outcome × Session :=
  let ⟨machine, next⟩ := s
  match Run.line fuel code { machine with printed := .empty } with
  | .ok value m => (⟨m.printed, .finished (value.map Value.text)⟩, ⟨m, next⟩)
  | .error fault m => (⟨m.printed, .failed fault⟩, ⟨m, next⟩)

/-- Runs a source. -/
def step (s : Session) (fuel : Nat) (style : Style) (source : String) : Outcome × Session :=
  match style.readSource s.nextSite source with
  | .error ds => (⟨.empty, .rejected ds⟩, s)
  | .ok (line, next) =>
    let s := { s with nextSite := next }
    match line.bindings with
    | .error es => (⟨.empty, .rejected (es.map ScopeError.diagnostic)⟩, s)
    | .ok bindings => s.perform fuel (line.link bindings)

/-- Runs sources in order. -/
def steps (s : Session) (fuel : Nat) : List (Style × String) → List Outcome × Session
  | [] => ([], s)
  | (style, source) :: rest =>
    let (outcome, s) := s.step fuel style source
    let (outcomes, s) := s.steps fuel rest
    (outcome :: outcomes, s)

end Session

/-- What came of evaluating a source that holds a single expression. -/
inductive Evaluation
  | rejected (lexical : List LexicalError) (grammar : List GrammarError)
  | unresolved (errors : List ScopeError)
  | evaluated (value : Value) (printed : ByteArray)
  | failed (fault : Fault) (printed : ByteArray)

/-- Evaluates a source that holds a single expression on a machine. -/
def Evaluation.ofSource (m : Machine) (fuel : Nat) (source : String) : Evaluation :=
  let items := Item.scan source
  let lexical := items.filterMap Item.error?
  match Expr.read (items.filterMap Item.token?) with
  | .error es => rejected lexical es
  | .ok e =>
    if !lexical.isEmpty then rejected lexical []
    else
      let e := (e.label 0).1
      match e.bindings with
      | .error es => unresolved es
      | .ok bindings =>
        match Run.evaluate fuel (e.link bindings) m with
        | .ok v m => evaluated v m.printed
        | .error fault m => failed fault m.printed

/-- Fuel for programs that are run rather than reasoned about. No run uses it up in a lifetime. -/
def ampleFuel : Nat := Nat.pow 10 18

end LoxLang
