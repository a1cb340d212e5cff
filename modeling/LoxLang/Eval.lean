import LoxLang.Machine

/-!
# Evaluation

`evaluate` computes the value of an expression and `execute` runs a statement. A `return` travels
out to the call as a `Flow`, not as a fault. Programs need not end, so all of this runs on fuel: the
depth of nested steps is bounded by it, and a run whose fuel is used up says so.
-/

namespace LoxLang

/-- How a statement ends. -/
inductive Flow
  | proceed
  | returned (value : Value)

namespace Run

/-- The receiver an initializer was bound to. -/
def receiver (frame : Nat) : Run Value := do
  return ((← get).store.get? frame thisName).getD .nil

mutual

/-- Evaluates an expression. Operands are evaluated from left to right. -/
def evaluate : Nat → Expr (Option Nat) → Run Value
  | 0, _ => outOfFuel
  | n + 1, e => do
    match e with
    | .literal v => return .ofLiteral v
    | .group e => evaluate n e
    | .unary op e =>
      let v ← evaluate n e
      check op (v.unary op.kind)
    | .binary op a b =>
      let x ← evaluate n a
      let y ← evaluate n b
      check op (Value.binary op.kind x y)
    | .logical op a b =>
      let x ← evaluate n a
      if x.isTruthy = (op.kind = .kwOr) then return x else evaluate n b
    | .ref site => lookUp site
    | .this site => lookUp site
    | .assign site e =>
      let v ← evaluate n e
      assign site v
      return v
    | .call f paren args =>
      let callee ← evaluate n f
      let values ← evaluateAll n args
      call n callee paren values
    | .get e name =>
      let v ← evaluate n e
      getProperty v name
    | .set e name e' =>
      match ← evaluate n e with
      | .object o =>
        let v ← evaluate n e'
        setField o name.lexeme v
        return v
      | _ => fail name .noFields
    | .super site method => superMethod site method
    | .lambda params body => newFunction none params body

/-- Evaluates expressions in order. -/
def evaluateAll : Nat → List (Expr (Option Nat)) → Run (List Value)
  | 0, _ => outOfFuel
  | _ + 1, [] => return []
  | n + 1, e :: es => do
    let v ← evaluate n e
    let vs ← evaluateAll n es
    return v :: vs

/-- Calls a value with arguments. The number of arguments is checked before the number of calls in
progress. -/
def call : Nat → Value → Token → List Value → Run Value
  | 0, _, _, _ => outOfFuel
  | n + 1, f, paren, args => do
    match f.callee? with
    | none => fail paren .notCallable
    | some callee =>
      if args.length ≠ callee.arity then fail paren (.arity callee.arity args.length)
      else if Machine.mostCalls ≤ (← get).depth then fail paren .stackOverflow
      else inCall (apply n callee args)

/-- Runs what is called. An instance is made first and then handed to the initializer, if the class
has one. -/
def apply : Nat → Callee → List Value → Run Value
  | 0, _, _ => outOfFuel
  | n + 1, callee, args => do
    match callee with
    | .clock => readClock
    | .routine r => invoke n r args
    | .construct c =>
      let o ← newObject c
      match c.method? initName with
      | none => return .object o
      | some method =>
        let bound ← bindMethod method o
        let _ ← invoke n bound args
        return .object o

/-- Runs the body of a function in a frame with its parameters. An initializer returns its receiver
whatever its body returns. -/
def invoke : Nat → Routine → List Value → Run Value
  | 0, _, _ => outOfFuel
  | n + 1, r, args => do
    let names := (r.params.zip args).foldl (fun t p => t.insert p.1 p.2) Table.empty
    let frame ← createFrame names r.frame
    let flow ← inFrame frame (executeAll n r.body)
    if r.isInit then receiver r.frame
    else match flow with
      | .returned v => return v
      | .proceed => return .nil

/-- Executes statements in order up to the first that returns. -/
def executeAll : Nat → List Code → Run Flow
  | 0, _ => outOfFuel
  | _ + 1, [] => return .proceed
  | n + 1, s :: ss => do
    match ← execute n s with
    | .proceed => executeAll n ss
    | .returned v => return .returned v

/-- Executes a statement. -/
def execute : Nat → Code → Run Flow
  | 0, _ => outOfFuel
  | n + 1, s => do
    match s with
    | .expression e =>
      let _ ← evaluate n e
      return .proceed
    | .print e =>
      let v ← evaluate n e
      printLine v.text
      return .proceed
    | .var name none =>
      define name.lexeme .nil
      return .proceed
    | .var name (some e) =>
      let v ← evaluate n e
      define name.lexeme v
      return .proceed
    | .block body =>
      let frame ← createFrame .empty (← get).frame
      inFrame frame (executeAll n body)
    | .cond test yes no =>
      let v ← evaluate n test
      if v.isTruthy then execute n yes
      else match no with
        | some no => execute n no
        | none => return .proceed
    | .loop test body =>
      let v ← evaluate n test
      if v.isTruthy then
        match ← execute n body with
        | .proceed => execute n s
        | .returned v => return .returned v
      else return .proceed
    | .function name params body =>
      let f ← newFunction (some name.lexeme) params body
      define name.lexeme f
      return .proceed
    | .ret _ none => return .returned .nil
    | .ret _ (some e) => return .returned (← evaluate n e)
    | .classDecl name superclass methods =>
      declareClass name superclass methods
      return .proceed

end

/-- Runs a line: its statements in the current frame, then the expression at its end. A `return`
outside of functions ends the statements. -/
def line (n : Nat) (code : Line (Option Nat)) : Run (Option Value) := do
  let _ ← executeAll n code.statements
  match code.trailing with
  | none => return none
  | some e => return some (← evaluate n e)

end Run

end LoxLang
