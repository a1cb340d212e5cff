import LoxLang.Diagnostic
import LoxLang.Table
import LoxLang.Tree

/-!
# Scopes and bindings

Resolving walks once through a tree. It keeps the scopes that are open, from the innermost out, and
what kind of body and of class the walk is in. For every site whose name is declared in an open
scope it records the distance: how many scopes lie between the site and the one that declares the
name. A site whose name is in no open scope refers to a global, and globals are not tracked.

Violations of the rules of scope do not end the walk. The bindings are only handed out when there
are none (`Stmt.bindings`, `Line.bindings`, `Expr.bindings`).
-/

namespace LoxLang

/-- How a tree violates the rules of scope. -/
inductive ScopeCause
  | topLevelReturn
  | initializerValue
  | thisOutsideClass
  | superOutsideClass
  | superWithoutSuperclass
  | ownSuperclass
  | declaredTwice
  | readInInitializer
deriving DecidableEq

/-- The message of a violation. -/
def ScopeCause.message : ScopeCause → String
  | topLevelReturn => "Can't return from top-level code."
  | initializerValue => "Can't return a value from an initializer."
  | thisOutsideClass => "Can't use 'this' outside of a class."
  | superOutsideClass => "Can't use 'super' outside of a class."
  | superWithoutSuperclass => "Can't use 'super' in a class with no superclass."
  | ownSuperclass => "A class can't inherit from itself."
  | declaredTwice => "Already a variable with this name in this scope."
  | readInInitializer => "Can't read local variable in its own initializer."

/-- A violation and the token it shows at. -/
structure ScopeError where
  token : Token
  cause : ScopeCause
deriving DecidableEq

/-- What the user is told about a violation. -/
def ScopeError.diagnostic (e : ScopeError) : Diagnostic := .scope e.token e.cause.message

/-- The innermost body a walk is in. -/
inductive BodyKind
  | topLevel
  | function
  | method
  | initializer
deriving DecidableEq

/-- The innermost class a walk is in. -/
inductive ClassKind
  | outside
  | base
  | derived
deriving DecidableEq

/-- The distances of sites, by the numbers of the sites. -/
abbrev Bindings := List (Nat × Nat)

/-- What a walk through a tree knows: the open scopes from the innermost out, each with its names
and whether they are ready to be read; the body and the class it is in; the violations and the
bindings so far, the latest first. -/
structure Walk where
  scopes : List (Table Bool)
  body : BodyKind
  cls : ClassKind
  errors : List ScopeError
  bindings : Bindings

namespace Walk

/-- The start of a walk, where no scope is open. -/
def start : Walk := ⟨[], .topLevel, .outside, [], []⟩

/-- Reports a violation. -/
def report (w : Walk) (token : Token) (cause : ScopeCause) : Walk :=
  { w with errors := ⟨token, cause⟩ :: w.errors }

/-- Opens a scope. -/
def openScope (w : Walk) : Walk := { w with scopes := .empty :: w.scopes }

/-- Closes the innermost scope. -/
def closeScope (w : Walk) : Walk := { w with scopes := w.scopes.tail }

/-- Puts a name into the innermost scope. -/
def enter (w : Walk) (name : String) (ready : Bool) : Walk :=
  match w.scopes with
  | [] => w
  | scope :: outer => { w with scopes := scope.insert name ready :: outer }

/-- Declares a name that is not ready to be read. Where the innermost scope has the name already,
the entry stays and the violation is reported. -/
def declare (w : Walk) (name : Token) : Walk :=
  match w.scopes with
  | [] => w
  | scope :: _ =>
    if scope.contains name.lexeme then w.report name .declaredTwice
    else w.enter name.lexeme false

/-- Makes a name of the innermost scope ready. -/
def define (w : Walk) (name : Token) : Walk := w.enter name.lexeme true

/-- Declares a name that is ready at once. -/
def introduce (w : Walk) (name : Token) : Walk := (w.declare name).define name

/-- How far out the innermost scope with the given name is. -/
def distance? (w : Walk) (name : String) : Option Nat :=
  w.scopes.findIdx? (·.contains name)

/-- Records the distance of a site, if a scope has its name. -/
def bind (w : Walk) (site : Site Nat) : Walk :=
  match w.distance? site.name.lexeme with
  | some d => { w with bindings := (site.mark, d) :: w.bindings }
  | none => w

/-- Whether the innermost scope has a name that is not ready. -/
def isUnready (w : Walk) (name : String) : Bool :=
  match w.scopes with
  | [] => false
  | scope :: _ => scope.find? name = some false

/-- A variable is read. -/
def read (w : Walk) (site : Site Nat) : Walk :=
  let w := if w.isUnready site.name.lexeme then w.report site.name .readInInitializer else w
  w.bind site

/-- The receiver is read. -/
def readThis (w : Walk) (site : Site Nat) : Walk :=
  match w.cls with
  | .outside => w.report site.name .thisOutsideClass
  | _ => w.bind site

/-- The superclass is read. -/
def readSuper (w : Walk) (site : Site Nat) : Walk :=
  let w := match w.cls with
    | .outside => w.report site.name .superOutsideClass
    | .base => w.report site.name .superWithoutSuperclass
    | .derived => w
  w.bind site

/-- Enters a body: a scope for parameters and statements. -/
def enterBody (w : Walk) (kind : BodyKind) (params : List Token) : Walk :=
  params.foldl introduce { w with body := kind }.openScope

/-- Leaves a body for the one around it. -/
def leaveBody (w : Walk) (around : BodyKind) : Walk :=
  { w.closeScope with body := around }

/-- A `return` with or without a value. -/
def checkReturn (w : Walk) (keyword : Token) (hasValue : Bool) : Walk :=
  let w := if w.body = .topLevel then w.report keyword .topLevelReturn else w
  if hasValue ∧ w.body = .initializer then w.report keyword .initializerValue else w

/-- Enters a class: its name, its superclass and the scopes of `super` and `this`. -/
def enterClass (w : Walk) (name : Token) (superclass : Option (Site Nat)) : Walk :=
  let w := { w with cls := .base }.introduce name
  let w := match superclass with
    | none => w
    | some s =>
      let w := if s.name.lexeme = name.lexeme then w.report s.name .ownSuperclass else w
      ({ w with cls := .derived }.read s).openScope.enter superName true
  w.openScope.enter thisName true

/-- Leaves a class for the one around it. -/
def leaveClass (w : Walk) (derived : Bool) (around : ClassKind) : Walk :=
  let w := w.closeScope
  let w := if derived then w.closeScope else w
  { w with cls := around }

end Walk

/-- The kind of body a method of the given name has. -/
def BodyKind.ofMethod (name : Token) : BodyKind :=
  if name.lexeme = initName then .initializer else .method

mutual

/-- Resolves an expression. -/
def Expr.resolve : Expr Nat → Walk → Walk
  | .literal _, w => w
  | .group e, w => e.resolve w
  | .unary _ e, w => e.resolve w
  | .binary _ a b, w => b.resolve (a.resolve w)
  | .logical _ a b, w => b.resolve (a.resolve w)
  | .ref s, w => w.read s
  | .assign s e, w => (e.resolve w).bind s
  | .call e _ args, w => Expr.resolveAll args (e.resolve w)
  | .get e _, w => e.resolve w
  | .set e _ v, w => e.resolve (v.resolve w)
  | .this s, w => w.readThis s
  | .super s _, w => w.readSuper s
  | .lambda params body, w =>
    (Stmt.resolveAll body (w.enterBody .function params)).leaveBody w.body

/-- Resolves expressions in order. -/
def Expr.resolveAll : List (Expr Nat) → Walk → Walk
  | [], w => w
  | e :: es, w => Expr.resolveAll es (e.resolve w)

/-- Resolves a statement. A variable is ready behind its initializer, a function and a class are
ready inside their own bodies. -/
def Stmt.resolve : Stmt Nat → Walk → Walk
  | .expression e, w => e.resolve w
  | .print e, w => e.resolve w
  | .var name none, w => w.introduce name
  | .var name (some e), w => (e.resolve (w.declare name)).define name
  | .block body, w => (Stmt.resolveAll body w.openScope).closeScope
  | .cond e yes none, w => yes.resolve (e.resolve w)
  | .cond e yes (some no), w => no.resolve (yes.resolve (e.resolve w))
  | .loop e body, w => body.resolve (e.resolve w)
  | .function name params body, w =>
    (Stmt.resolveAll body ((w.introduce name).enterBody .function params)).leaveBody w.body
  | .ret keyword none, w => w.checkReturn keyword false
  | .ret keyword (some e), w => e.resolve (w.checkReturn keyword true)
  | .classDecl name superclass methods, w =>
    (Method.resolveAll methods (w.enterClass name superclass)).leaveClass superclass.isSome w.cls

/-- Resolves statements in order. -/
def Stmt.resolveAll : List (Stmt Nat) → Walk → Walk
  | [], w => w
  | s :: ss, w => Stmt.resolveAll ss (s.resolve w)

/-- Resolves the methods of a class in order. -/
def Method.resolveAll : List (Method Nat) → Walk → Walk
  | [], w => w
  | .mk name params body :: ms, w =>
    Method.resolveAll ms
      ((Stmt.resolveAll body (w.enterBody (.ofMethod name) params)).leaveBody w.body)

end

/-- Resolves a line: its statements, then the expression at its end. -/
def Line.resolve (line : Line Nat) (w : Walk) : Walk :=
  let w := Stmt.resolveAll line.statements w
  match line.trailing with
  | none => w
  | some e => e.resolve w

/-- What a finished walk comes to: the bindings, or the violations in the order of the walk. -/
def Walk.finish (w : Walk) : Except (List ScopeError) Bindings :=
  if w.errors.isEmpty then .ok w.bindings else .error w.errors.reverse

/-- The bindings of a program. -/
def Stmt.bindings (ss : List (Stmt Nat)) : Except (List ScopeError) Bindings :=
  (Stmt.resolveAll ss .start).finish

/-- The bindings of a line. -/
def Line.bindings (line : Line Nat) : Except (List ScopeError) Bindings :=
  (line.resolve .start).finish

/-- The bindings of an expression on its own. -/
def Expr.bindings (e : Expr Nat) : Except (List ScopeError) Bindings := (e.resolve .start).finish

/-- The distance recorded for the site with the given number. -/
def Bindings.distance? (b : Bindings) (site : Nat) : Option Nat := b.lookup site

end LoxLang
