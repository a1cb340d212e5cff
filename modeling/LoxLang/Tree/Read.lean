import LoxLang.Tree
import LoxLang.Tree.Read.Cursor

/-!
# Reading trees

The grammar of Lox as readings: `assignment` reads an expression, `statement` a statement and
`declaration` a declaration or statement. Binary operators are read by precedence: `operators level`
reads operands joined by operators of that level or a tighter one, all of them left-associative. An
error inside a declaration is recorded and reading resumes behind it, so several are reported.

`Stmt.readAll` reads a program, `Line.read` a line of an interactive session and `Expr.read` a
single expression. The readings call each other under a fuel that these three compute from the
number of tokens: between two tokens only a few calls are nested.
-/

namespace LoxLang

/-- The most parameters of a function and the most arguments of a call. -/
def mostArguments : Nat := 255

/-- The precedence of a binary operator; larger binds tighter. -/
def Kind.level? : Kind → Option Nat
  | .kwOr => some 0
  | .kwAnd => some 1
  | .bangEqual | .equalEqual => some 2
  | .greater | .greaterEqual | .less | .lessEqual => some 3
  | .minus | .plus => some 4
  | .slash | .star => some 5
  | _ => none

/-- Two operands joined by an operator; `or` and `and` may leave out the second. -/
def Expr.join {σ : Type} (op : Token) (left right : Expr σ) : Expr σ :=
  match op.kind with
  | .kwOr | .kwAnd => .logical op left right
  | _ => .binary op left right

/-- The statement a `for` loop stands for: `step` runs behind the body in a block of their own, and
`init` once in a scope around the whole loop. -/
def Stmt.forLoop {σ : Type} (init : Option (Stmt σ)) (test step : Option (Expr σ))
    (body : Stmt σ) : Stmt σ :=
  let body := match step with
    | some e => .block [body, .expression e]
    | none => body
  let loop := .loop (test.getD (.literal .true)) body
  match init with
  | some s => .block [s, loop]
  | none => loop

namespace Reading

/-- The result of a reading, or nothing where the given kind of token stands in front. -/
@[inline] def unlessAt {α : Type} (kind : Kind) (r : Reading α) : Reading (Option α) := do
  if (← peek).kind = kind then return none else some <$> r

/-- The rest of a list of parameters, of which `count` are read. -/
def parameters : Nat → Nat → Reading (List Token)
  | 0, _ => outOfFuel
  | n + 1, count => do
    if mostArguments ≤ count then note .tooManyParameters
    let p ← expect .identifier .parameterName
    if ← accept .comma then return p :: (← parameters n (count + 1)) else return [p]

mutual

/-- An expression: an assignment, or operators and their operands. -/
def assignment : Nat → Reading (Expr Unit)
  | 0 => outOfFuel
  | n + 1 => do
    let e ← operators n 0
    let equals ← peek
    if equals.kind = .equal then
      advance
      let value ← assignment n
      match e with
      | .ref s => return .assign s value
      | .get object name => return .set object name value
      | _ => throw (.error ⟨equals, .assignmentTarget⟩)
    else return e

/-- Operands joined by operators of the given level or a tighter one. -/
def operators : Nat → Nat → Reading (Expr Unit)
  | 0, _ => outOfFuel
  | n + 1, level => do
    let left ← unary n
    operatorsAfter n level left

/-- The operators and operands that follow a first operand. -/
def operatorsAfter : Nat → Nat → Expr Unit → Reading (Expr Unit)
  | 0, _, _ => outOfFuel
  | n + 1, level, left => do
    let op ← peek
    match op.kind.level? with
    | none => return left
    | some l =>
      if level ≤ l then
        advance
        let right ← operators n (l + 1)
        operatorsAfter n level (.join op left right)
      else return left

/-- An operand with the unary operators in front of it. -/
def unary : Nat → Reading (Expr Unit)
  | 0 => outOfFuel
  | n + 1 => do
    let op ← peek
    match op.kind with
    | .bang | .minus =>
      advance
      return .unary op (← unary n)
    | _ =>
      let e ← primary n
      suffixes n e

/-- The calls and properties behind an operand. -/
def suffixes : Nat → Expr Unit → Reading (Expr Unit)
  | 0, _ => outOfFuel
  | n + 1, e => do
    match (← peek).kind with
    | .leftParen =>
      advance
      let args ← unlessAt .rightParen (arguments n 0)
      let paren ← expect .rightParen .argumentsEnd
      suffixes n (.call e paren (args.getD []))
    | .dot =>
      advance
      let name ← expect .identifier .propertyName
      suffixes n (.get e name)
    | _ => return e

/-- The rest of a list of arguments, of which `count` are read. -/
def arguments : Nat → Nat → Reading (List (Expr Unit))
  | 0, _ => outOfFuel
  | n + 1, count => do
    if mostArguments ≤ count then note .tooManyArguments
    let e ← assignment n
    if ← accept .comma then return e :: (← arguments n (count + 1)) else return [e]

/-- An operand without operators around it. -/
def primary : Nat → Reading (Expr Unit)
  | 0 => outOfFuel
  | n + 1 => do
    let t ← peek
    match t.kind with
    | .kwFalse => advance; return .literal .false
    | .kwTrue => advance; return .literal .true
    | .kwNil => advance; return .literal .nil
    | .number value => advance; return .literal (.number value)
    | .string contents => advance; return .literal (.string contents)
    | .kwSuper =>
      advance
      let _ ← expect .dot .superDot
      let method ← expect .identifier .superMethod
      return .super ⟨(), t⟩ method
    | .kwThis => advance; return .this ⟨(), t⟩
    | .identifier => advance; return .ref ⟨(), t⟩
    | .kwFun =>
      advance
      let _ ← expect .leftParen .funParen
      let (params, body) ← routine n .function
      return .lambda params body
    | .leftParen =>
      advance
      let e ← assignment n
      let _ ← expect .rightParen .groupEnd
      return .group e
    | _ => fail .expression

/-- Parameters and body, behind the opening parenthesis. -/
def routine : Nat → Role → Reading (List Token × List (Stmt Unit))
  | 0, _ => outOfFuel
  | n + 1, role => do
    let params ← unlessAt .rightParen (parameters n 0)
    let _ ← expect .rightParen .parametersEnd
    let _ ← expect .leftBrace (.routineBrace role)
    let body ← block n
    return (params.getD [], body)

/-- The statements of a block, behind the opening brace and through the closing one. -/
def block : Nat → Reading (List (Stmt Unit))
  | 0 => outOfFuel
  | n + 1 => do
    match (← peek).kind with
    | .rightBrace => advance; return []
    | .eof => fail .blockEnd
    | _ =>
      let s ← declaration n
      let ss ← block n
      return s.toList ++ ss

/-- A declaration or statement, or nothing where an error had to be recorded. -/
def declaration : Nat → Reading (Option (Stmt Unit))
  | 0 => outOfFuel
  | n + 1 => fun c =>
    match declared n c with
    | .ok s c => .ok (some s) c
    | .error (.error e) c => .ok none (c.resume e)
    | .error .outOfFuel c => .error .outOfFuel c

/-- A declaration or statement. -/
def declared : Nat → Reading (Stmt Unit)
  | 0 => outOfFuel
  | n + 1 => do
    match (← peek).kind with
    | .kwClass => advance; classDeclared n
    | .kwFun =>
      if (← get).peekSecond.kind = .identifier then
        advance
        let (name, params, body) ← named n .function
        return .function name params body
      else statement n
    | .kwVar => advance; variableDeclared n
    | _ => statement n

/-- A class, behind its keyword. -/
def classDeclared : Nat → Reading (Stmt Unit)
  | 0 => outOfFuel
  | n + 1 => do
    let name ← expect .identifier .className
    let superclass ←
      if ← accept .less then some <$> expect .identifier .superclassName else pure none
    let _ ← expect .leftBrace .classBrace
    let methods ← methods n
    let _ ← expect .rightBrace .classEnd
    return .classDecl name (superclass.map (⟨(), ·⟩)) methods

/-- The methods in the body of a class. -/
def methods : Nat → Reading (List (Method Unit))
  | 0 => outOfFuel
  | n + 1 => do
    match (← peek).kind with
    | .rightBrace | .eof => return []
    | _ =>
      let (name, params, body) ← named n .method
      return .mk name params body :: (← methods n)

/-- A name, and then parameters and body in parentheses and braces. -/
def named : Nat → Role → Reading (Token × List Token × List (Stmt Unit))
  | 0, _ => outOfFuel
  | n + 1, role => do
    let name ← expect .identifier (.routineName role)
    let _ ← expect .leftParen (.routineParen role)
    let (params, body) ← routine n role
    return (name, params, body)

/-- A variable, behind its keyword. -/
def variableDeclared : Nat → Reading (Stmt Unit)
  | 0 => outOfFuel
  | n + 1 => do
    let name ← expect .identifier .variableName
    let init ← if ← accept .equal then some <$> assignment n else pure none
    let _ ← expect .semicolon .variableEnd
    return .var name init

/-- An expression and a semicolon. -/
def expressionStatement : Nat → Reading (Stmt Unit)
  | 0 => outOfFuel
  | n + 1 => do
    let e ← assignment n
    let _ ← expect .semicolon .expressionEnd
    return .expression e

/-- A `for` loop, behind its keyword. -/
def forStatement : Nat → Reading (Stmt Unit)
  | 0 => outOfFuel
  | n + 1 => do
    let _ ← expect .leftParen .forParen
    let init ← match (← peek).kind with
      | .semicolon => advance; pure none
      | .kwVar => advance; some <$> variableDeclared n
      | _ => some <$> expressionStatement n
    let test ← unlessAt .semicolon (assignment n)
    let _ ← expect .semicolon .forCondition
    let step ← unlessAt .rightParen (assignment n)
    let _ ← expect .rightParen .forEnd
    let body ← statement n
    return .forLoop init test step body

/-- A statement. -/
def statement : Nat → Reading (Stmt Unit)
  | 0 => outOfFuel
  | n + 1 => do
    let t ← peek
    match t.kind with
    | .kwFor => advance; forStatement n
    | .kwIf =>
      advance
      let _ ← expect .leftParen .ifParen
      let test ← assignment n
      let _ ← expect .rightParen .ifEnd
      let yes ← statement n
      let no ← if ← accept .kwElse then some <$> statement n else pure none
      return .cond test yes no
    | .kwWhile =>
      advance
      let _ ← expect .leftParen .whileParen
      let test ← assignment n
      let _ ← expect .rightParen .whileEnd
      let body ← statement n
      return .loop test body
    | .kwReturn =>
      advance
      let value ← unlessAt .semicolon (assignment n)
      let _ ← expect .semicolon .returnEnd
      return .ret t value
    | .leftBrace => advance; return .block (← block n)
    | .kwPrint =>
      advance
      let e ← assignment n
      let _ ← expect .semicolon .printEnd
      return .print e
    | _ => expressionStatement n

end

/-- The declarations and statements up to the end. -/
def program : Nat → Reading (List (Stmt Unit))
  | 0 => outOfFuel
  | n + 1 => do
    if (← get).rest.isEmpty then return []
    let s ← declaration n
    let ss ← program n
    return s.toList ++ ss

/-- Whether a statement or a declaration stands in front, and no expression. The word `fun` opens a
declaration only in front of a name. -/
def atStatement (c : Cursor) : Bool :=
  match c.peek.kind with
  | .kwFun => c.peekSecond.kind = .identifier
  | .leftBrace => true
  | kind => kind.opensStatement

/-- An expression that ends the input and in which no error is recorded. Where there is none, the
cursor does not move. -/
def trailing? (n : Nat) : Reading (Option (Expr Unit)) := fun c =>
  match assignment n c with
  | .ok e c' =>
    if c'.rest.isEmpty ∧ c'.errors.length = c.errors.length then .ok (some e) c' else .ok none c
  | .error (.error _) _ => .ok none c
  | .error .outOfFuel c' => .error .outOfFuel c'

/-- The declarations and statements of a line, and the expression at its end. -/
def line : Nat → Reading (Line Unit)
  | 0 => outOfFuel
  | n + 1 => do
    let c ← get
    if c.rest.isEmpty then return ⟨[], none⟩
    let e ← if atStatement c then pure none else trailing? n
    match e with
    | some e => return ⟨[], some e⟩
    | none =>
      let s ← declaration n
      let more ← line n
      return ⟨s.toList ++ more.statements, more.trailing⟩

/-- Enough fuel to read the given tokens: a few nested calls for each. -/
def fuelFor (tokens : List Token) : Nat := 16 * (tokens.length + 1)

/-- What a reading of all tokens comes to: its result if no error is recorded, else the errors in
the order in which they were met. -/
def run {α : Type} (r : Nat → Reading α) (tokens : List Token) :
    Except (List GrammarError) α :=
  match r (fuelFor tokens) (.start tokens) with
  | .ok a c => if c.errors.isEmpty then .ok a else .error c.errors.reverse
  | .error (.error e) c => .error (e :: c.errors).reverse
  | .error .outOfFuel c => .error c.errors.reverse

end Reading

/-- Reads a program. -/
def Stmt.readAll (tokens : List Token) : Except (List GrammarError) (List (Stmt Unit)) :=
  Reading.run Reading.program tokens

/-- Reads a line of an interactive session: each construct that does not open a statement is first
taken for an expression that ends the line. -/
def Line.read (tokens : List Token) : Except (List GrammarError) (Line Unit) :=
  Reading.run Reading.line tokens

/-- Reads one expression that makes up the whole input. An error that stops the reading counts
before the errors recorded on the way. -/
def Expr.read (tokens : List Token) : Except (List GrammarError) (Expr Unit) :=
  match Reading.assignment (Reading.fuelFor tokens) (.start tokens) with
  | .ok e c =>
    if c.rest.isEmpty then
      match c.errors.getLast? with
      | none => .ok e
      | some e => .error [e]
    else .error [⟨c.peek, .extraInput⟩]
  | .error (.error e) _ => .error [e]
  | .error .outOfFuel c => .error c.errors

end LoxLang
