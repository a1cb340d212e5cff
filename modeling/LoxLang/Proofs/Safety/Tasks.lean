import LoxLang.Proofs.Run.Step
import LoxLang.Proofs.Safety.Accepted

/-!
# Tasks, and the log of a session

A run of an expression or a statement begins runs of its parts, of what it calls and of the bodies
of functions, each from the machine that the parts before it have left (`Task.Begins`). A `Log` says
which lines a session runs and which tasks it comes to. That tells where functions, bound methods
and classes come from: each is made by a task of its own kind (`Log.Creates`, `Log.Binds`,
`Log.Declares`), and so is a function value known by how it was made (`Log.Made`).
-/

namespace LoxLang

/-- What may be run: a node of a tree, the arguments of a call, or one of the steps of a call. -/
inductive Task
  | run (node : Node (Option Nat))
  | arguments (es : List (Expr (Option Nat)))
  | call (f : Value) (paren : Token) (args : List Value)
  | apply (callee : Callee) (args : List Value)
  | invoke (r : Routine) (args : List Value)

/-- On fuel `n + 1`, running the first task from the first machine begins to run the second one, on
fuel `n` from the second machine. -/
inductive Task.Begins (n : Nat) : Task → Machine → Task → Machine → Prop
  | group {e : Expr (Option Nat)} {m : Machine} :
      Begins n (.run (.expr (.group e))) m (.run (.expr e)) m
  | unary {op : Token} {e : Expr (Option Nat)} {m : Machine} :
      Begins n (.run (.expr (.unary op e))) m (.run (.expr e)) m
  | binaryLeft {op : Token} {a b : Expr (Option Nat)} {m : Machine} :
      Begins n (.run (.expr (.binary op a b))) m (.run (.expr a)) m
  | binaryRight {op : Token} {a b : Expr (Option Nat)} {m m' : Machine} {x : Value} :
      Run.evaluate n a m = .ok x m' →
      Begins n (.run (.expr (.binary op a b))) m (.run (.expr b)) m'
  | logicalLeft {op : Token} {a b : Expr (Option Nat)} {m : Machine} :
      Begins n (.run (.expr (.logical op a b))) m (.run (.expr a)) m
  | logicalRight {op : Token} {a b : Expr (Option Nat)} {m m' : Machine} {x : Value} :
      Run.evaluate n a m = .ok x m' → ¬ x.isTruthy = (op.kind = .kwOr) →
      Begins n (.run (.expr (.logical op a b))) m (.run (.expr b)) m'
  | assign {site : Site (Option Nat)} {e : Expr (Option Nat)} {m : Machine} :
      Begins n (.run (.expr (.assign site e))) m (.run (.expr e)) m
  | callee {f : Expr (Option Nat)} {paren : Token} {args : List (Expr (Option Nat))}
      {m : Machine} : Begins n (.run (.expr (.call f paren args))) m (.run (.expr f)) m
  | arguments {f : Expr (Option Nat)} {paren : Token} {args : List (Expr (Option Nat))}
      {m m' : Machine} {callee : Value} : Run.evaluate n f m = .ok callee m' →
      Begins n (.run (.expr (.call f paren args))) m (.arguments args) m'
  | call {f : Expr (Option Nat)} {paren : Token} {args : List (Expr (Option Nat))}
      {m m' m'' : Machine} {callee : Value} {values : List Value} :
      Run.evaluate n f m = .ok callee m' → Run.evaluateAll n args m' = .ok values m'' →
      Begins n (.run (.expr (.call f paren args))) m (.call callee paren values) m''
  | get {e : Expr (Option Nat)} {name : Token} {m : Machine} :
      Begins n (.run (.expr (.get e name))) m (.run (.expr e)) m
  | setObject {e e' : Expr (Option Nat)} {name : Token} {m : Machine} :
      Begins n (.run (.expr (.set e name e'))) m (.run (.expr e)) m
  | setValue {e e' : Expr (Option Nat)} {name : Token} {m m' : Machine} {o : Object} :
      Run.evaluate n e m = .ok (.object o) m' →
      Begins n (.run (.expr (.set e name e'))) m (.run (.expr e')) m'
  | argument {e : Expr (Option Nat)} {es : List (Expr (Option Nat))} {m : Machine} :
      Begins n (.arguments (e :: es)) m (.run (.expr e)) m
  | moreArguments {e : Expr (Option Nat)} {es : List (Expr (Option Nat))} {m m' : Machine}
      {v : Value} : Run.evaluate n e m = .ok v m' →
      Begins n (.arguments (e :: es)) m (.arguments es) m'
  | apply {f : Value} {paren : Token} {args : List Value} {m : Machine} {callee : Callee} :
      f.callee? = some callee → args.length = callee.arity → m.depth < Machine.mostCalls →
      Begins n (.call f paren args) m (.apply callee args) { m with depth := m.depth + 1 }
  | routine {r : Routine} {args : List Value} {m : Machine} :
      Begins n (.apply (.routine r) args) m (.invoke r args) m
  | initializer {c : Class} {args : List Value} {m m' m'' : Machine} {o : Object}
      {method bound : Routine} : Run.newObject c m = .ok o m' →
      c.method? initName = some method → Run.bindMethod method o m' = .ok bound m'' →
      Begins n (.apply (.construct c) args) m (.invoke bound args) m''
  | body {r : Routine} {args : List Value} {m m' : Machine} {frame : Nat} :
      Run.createFrame ((r.params.zip args).foldl (fun t p => t.insert p.1 p.2) .empty) r.frame m =
        .ok frame m' →
      Begins n (.invoke r args) m (.run (.stmts r.body)) { m' with frame := frame }
  | statement {s : Code} {ss : List Code} {m : Machine} :
      Begins n (.run (.stmts (s :: ss))) m (.run (.stmt s)) m
  | moreStatements {s : Code} {ss : List Code} {m m' : Machine} :
      Run.execute n s m = .ok .proceed m' →
      Begins n (.run (.stmts (s :: ss))) m (.run (.stmts ss)) m'
  | expression {e : Expr (Option Nat)} {m : Machine} :
      Begins n (.run (.stmt (.expression e))) m (.run (.expr e)) m
  | print {e : Expr (Option Nat)} {m : Machine} :
      Begins n (.run (.stmt (.print e))) m (.run (.expr e)) m
  | var {name : Token} {e : Expr (Option Nat)} {m : Machine} :
      Begins n (.run (.stmt (.var name (some e)))) m (.run (.expr e)) m
  | block {body : List Code} {m m' : Machine} {frame : Nat} :
      Run.createFrame .empty m.frame m = .ok frame m' →
      Begins n (.run (.stmt (.block body))) m (.run (.stmts body)) { m' with frame := frame }
  | condTest {test : Expr (Option Nat)} {yes : Code} {no : Option Code} {m : Machine} :
      Begins n (.run (.stmt (.cond test yes no))) m (.run (.expr test)) m
  | condYes {test : Expr (Option Nat)} {yes : Code} {no : Option Code} {m m' : Machine}
      {v : Value} : Run.evaluate n test m = .ok v m' → v.isTruthy →
      Begins n (.run (.stmt (.cond test yes no))) m (.run (.stmt yes)) m'
  | condNo {test : Expr (Option Nat)} {yes no : Code} {m m' : Machine} {v : Value} :
      Run.evaluate n test m = .ok v m' → ¬ v.isTruthy →
      Begins n (.run (.stmt (.cond test yes (some no)))) m (.run (.stmt no)) m'
  | loopTest {test : Expr (Option Nat)} {body : Code} {m : Machine} :
      Begins n (.run (.stmt (.loop test body))) m (.run (.expr test)) m
  | loopBody {test : Expr (Option Nat)} {body : Code} {m m' : Machine} {v : Value} :
      Run.evaluate n test m = .ok v m' → v.isTruthy →
      Begins n (.run (.stmt (.loop test body))) m (.run (.stmt body)) m'
  | loopAgain {test : Expr (Option Nat)} {body : Code} {m m' m'' : Machine} {v : Value} :
      Run.evaluate n test m = .ok v m' → v.isTruthy → Run.execute n body m' = .ok .proceed m'' →
      Begins n (.run (.stmt (.loop test body))) m (.run (.stmt (.loop test body))) m''
  | ret {keyword : Token} {e : Expr (Option Nat)} {m : Machine} :
      Begins n (.run (.stmt (.ret keyword (some e)))) m (.run (.expr e)) m

/-! ## Logs -/

/-- What is known of a session: the lines that it runs, and the tasks that it reaches, each with the
fuel and the machine from which it is run. -/
structure Log where
  runs : Line (Option Nat) → Prop
  reaches : Nat → Task → Machine → Prop

namespace Log

/-- The lines of the log are accepted, and from each task it goes on to those that the task
begins. -/
structure Lawful (L : Log) : Prop where
  accepted : ∀ line, L.runs line → line.Accepted
  begins : ∀ {n : Nat} {t t' : Task} {m m' : Machine}, L.reaches (n + 1) t m →
    Task.Begins n t m t' m' → L.reaches n t' m'

variable (L : Log)

/-- The session creates a function of this identity where the code declares or writes one. -/
inductive Creates : Nat → Routine → Prop
  | lambda {n : Nat} {params : List Token} {body : List Code} {m : Machine} :
      L.reaches (n + 1) (.run (.expr (.lambda params body))) m →
      Creates m.identities ⟨none, params.map Token.lexeme, body, m.frame, false⟩
  | function {n : Nat} {name : Token} {params : List Token} {body : List Code} {m : Machine} :
      L.reaches (n + 1) (.run (.stmt (.function name params body))) m →
      Creates m.identities ⟨some name.lexeme, params.map Token.lexeme, body, m.frame, false⟩

/-- In the machine, the session binds a method to a receiver: it has found the method as a property
of an instance or of a superclass, or as the initializer of a class with a new instance. -/
inductive Binds : Machine → Routine → Object → Prop
  | property {n : Nat} {e : Expr (Option Nat)} {name : Token} {m m' : Machine} {v : Value}
      {r : Routine} {o : Object} : L.reaches (n + 1) (.run (.expr (.get e name))) m →
      Run.evaluate n e m = .ok v m' → Run.getProperty v name m' = Run.methodValue r o m' →
      Binds m' r o
  | super {n : Nat} {site : Site (Option Nat)} {method : Token} {m : Machine} {r : Routine}
      {o : Object} : L.reaches (n + 1) (.run (.expr (.super site method))) m →
      Run.superMethod site method m = Run.methodValue r o m → Binds m r o
  | initializer {n : Nat} {c : Class} {args : List Value} {m m' : Machine} {r : Routine}
      {o : Object} : L.reaches (n + 1) (.apply (.construct c) args) m →
      Run.newObject c m = .ok o m' → c.method? initName = some r → Binds m' r o

/-- In the machine, the session declares a class, whose superclass is what its clause reads. -/
inductive Declares : Machine → Class → Prop
  | base {n : Nat} {name : Token} {methods : List (Method (Option Nat))} {m : Machine} :
      L.reaches (n + 1) (.run (.stmt (.classDecl name none methods))) m →
      Declares m ⟨m.identities, name.lexeme, none, Run.methodTable methods m.frame⟩
  | derived {n : Nat} {name : Token} {site : Site (Option Nat)}
      {methods : List (Method (Option Nat))} {m : Machine} {above : Class} :
      L.reaches (n + 1) (.run (.stmt (.classDecl name (some site) methods))) m →
      Run.lookUp site m = .ok (.cls above) m →
      Declares m ⟨m.identities, name.lexeme, some above, Run.methodTable methods m.nextFrame⟩

/-- How a function value is made: it is created as a function, or it is a method bound in a frame of
its own. -/
inductive Made : Nat → Routine → Prop
  | created {identity : Nat} {r : Routine} : L.Creates identity r → Made identity r
  | bound {identity : Nat} {m : Machine} {r : Routine} {o : Object} : L.Binds m r o →
      Made identity { r with frame := m.nextFrame }

end Log

end LoxLang
