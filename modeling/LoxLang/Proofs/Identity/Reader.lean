import LoxLang.Session

/-!
# Numbering sites while reading

A reading returns trees without numbers, and the sites of a whole tree are numbered afterwards. The
numbers can also be drawn on the way, each where its site is put into a tree: this is a `Drawing`,
which keeps the next number beside the cursor. Drawings put trees together as readings do, step by
step. They draw more numbers than there are sites in the end:

- A variable that turns out to be the target of an assignment has drawn a number, and the assignment
  draws one of its own.
- A declaration in which there is an error is thrown away with its numbers.
- An expression that is taken for the end of a line and does not reach it is thrown away. The cursor
  goes back, and what is read once more draws new numbers.

No number is ever given back. The numbers are natural numbers, and those of a counter of 64 bits as
long as fewer than 2 ^ 64 have been drawn.
-/

namespace LoxLang

/-- A step of reading that may draw numbers: it moves the cursor, counts the next number up, and
returns a result or stops. -/
abbrev Drawing (α : Type) := EStateM Stop (Cursor × Nat) α

namespace Drawing

variable {α : Type}

/-! ## Steps -/

/-- A reading, in which no number is drawn. -/
def lift (r : Reading α) : Drawing α := fun s =>
  match r s.1 with
  | .ok a c => .ok a (c, s.2)
  | .error stop c => .error stop (c, s.2)

/-- A site with the next number. -/
def fresh (name : Token) : Drawing (Site Nat) := fun s => .ok ⟨s.2, name⟩ (s.1, s.2 + 1)

/-- Stops because the fuel is used up. -/
def outOfFuel : Drawing α := lift Reading.outOfFuel

/-- The token in front. -/
def peek : Drawing Token := lift Reading.peek

/-- Goes one token further. -/
def advance : Drawing Unit := lift Reading.advance

/-- Stops with an error at the token in front. -/
def fail (cause : GrammarCause) : Drawing α := lift (Reading.fail cause)

/-- Records an error at the token in front and goes on. -/
def note (cause : GrammarCause) : Drawing Unit := lift (Reading.note cause)

/-- Reads a token of the given kind, which has to stand in front. -/
def expect (kind : Kind) (cause : GrammarCause) : Drawing Token := lift (Reading.expect kind cause)

/-- Reads a token of the given kind if it stands in front, and says whether it did. -/
def accept (kind : Kind) : Drawing Bool := lift (Reading.accept kind)

/-- What is drawn, or nothing where the given kind of token stands in front. -/
def unlessAt (kind : Kind) (r : Drawing α) : Drawing (Option α) := do
  if (← peek).kind = kind then return none else some <$> r

/-- A drawing whose error is recorded and skipped over. The numbers that were drawn are gone. -/
def recovered (r : Drawing α) : Drawing (Option α) := fun s =>
  match r s with
  | .ok a s => .ok (some a) s
  | .error (.error e) (c, n) => .ok none (c.resume e, n)
  | .error .outOfFuel s => .error .outOfFuel s

/-- A drawing that counts only if it reads everything without an error. Where it does not, the
cursor goes back, and the numbers that were drawn are gone. -/
def attempted (r : Drawing α) : Drawing (Option α) := fun s =>
  match r s with
  | .ok a (c, n) =>
    if c.rest.isEmpty ∧ c.errors.length = s.1.errors.length then .ok (some a) (c, n)
    else .ok none (s.1, n)
  | .error (.error _) (_, n) => .ok none (s.1, n)
  | .error .outOfFuel s => .error .outOfFuel s

/-! ## Trees -/

mutual

/-- An expression: an assignment, or operators and their operands. -/
def assignment : Nat → Drawing (Expr Nat)
  | 0 => outOfFuel
  | n + 1 => do
    let e ← operators n 0
    let equals ← peek
    if equals.kind = .equal then
      advance
      let value ← assignment n
      match e with
      | .ref s => return .assign (← fresh s.name) value
      | .get object name => return .set object name value
      | _ => throw (.error ⟨equals, .assignmentTarget⟩)
    else return e

/-- Operands joined by operators of the given level or a tighter one. -/
def operators : Nat → Nat → Drawing (Expr Nat)
  | 0, _ => outOfFuel
  | n + 1, level => do
    let left ← unary n
    operatorsAfter n level left

/-- The operators and operands that follow a first operand. -/
def operatorsAfter : Nat → Nat → Expr Nat → Drawing (Expr Nat)
  | 0, _, _ => outOfFuel
  | n + 1, level, left => do
    let op ← peek
    match op.kind.level? with
    | none => return left
    | some l =>
      if level ≤ l then
        advance
        let right ← operators n (l + 1)
        operatorsAfter n level (.join op left right)
      else return left

/-- An operand with the unary operators in front of it. -/
def unary : Nat → Drawing (Expr Nat)
  | 0 => outOfFuel
  | n + 1 => do
    let op ← peek
    match op.kind with
    | .bang | .minus =>
      advance
      return .unary op (← unary n)
    | _ =>
      let e ← primary n
      suffixes n e

/-- The calls and properties behind an operand. -/
def suffixes : Nat → Expr Nat → Drawing (Expr Nat)
  | 0, _ => outOfFuel
  | n + 1, e => do
    match (← peek).kind with
    | .leftParen =>
      advance
      let args ← unlessAt .rightParen (arguments n 0)
      let paren ← expect .rightParen .argumentsEnd
      suffixes n (.call e paren (args.getD []))
    | .dot =>
      advance
      let name ← expect .identifier .propertyName
      suffixes n (.get e name)
    | _ => return e

/-- The rest of a list of arguments, of which `count` are read. -/
def arguments : Nat → Nat → Drawing (List (Expr Nat))
  | 0, _ => outOfFuel
  | n + 1, count => do
    if mostArguments ≤ count then note .tooManyArguments
    let e ← assignment n
    if ← accept .comma then return e :: (← arguments n (count + 1)) else return [e]

/-- An operand without operators around it. -/
def primary : Nat → Drawing (Expr Nat)
  | 0 => outOfFuel
  | n + 1 => do
    let t ← peek
    match t.kind with
    | .kwFalse => advance; return .literal .false
    | .kwTrue => advance; return .literal .true
    | .kwNil => advance; return .literal .nil
    | .number value => advance; return .literal (.number value)
    | .string contents => advance; return .literal (.string contents)
    | .kwSuper =>
      advance
      let _ ← expect .dot .superDot
      let method ← expect .identifier .superMethod
      return .super (← fresh t) method
    | .kwThis => advance; return .this (← fresh t)
    | .identifier => advance; return .ref (← fresh t)
    | .kwFun =>
      advance
      let _ ← expect .leftParen .funParen
      let (params, body) ← routine n .function
      return .lambda params body
    | .leftParen =>
      advance
      let e ← assignment n
      let _ ← expect .rightParen .groupEnd
      return .group e
    | _ => fail .expression

/-- Parameters and body, behind the opening parenthesis. -/
def routine : Nat → Role → Drawing (List Token × List (Stmt Nat))
  | 0, _ => outOfFuel
  | n + 1, role => do
    let params ← lift (Reading.unlessAt .rightParen (Reading.parameters n 0))
    let _ ← expect .rightParen .parametersEnd
    let _ ← expect .leftBrace (.routineBrace role)
    let body ← block n
    return (params.getD [], body)

/-- The statements of a block, behind the opening brace and through the closing one. -/
def block : Nat → Drawing (List (Stmt Nat))
  | 0 => outOfFuel
  | n + 1 => do
    match (← peek).kind with
    | .rightBrace => advance; return []
    | .eof => fail .blockEnd
    | _ =>
      let s ← declaration n
      let ss ← block n
      return s.toList ++ ss

/-- A declaration or statement, or nothing where an error had to be recorded. -/
def declaration : Nat → Drawing (Option (Stmt Nat))
  | 0 => outOfFuel
  | n + 1 => recovered (declared n)

/-- A declaration or statement. -/
def declared : Nat → Drawing (Stmt Nat)
  | 0 => outOfFuel
  | n + 1 => do
    match (← peek).kind with
    | .kwClass => advance; classDeclared n
    | .kwFun =>
      if (← get).1.peekSecond.kind = .identifier then
        advance
        let (name, params, body) ← named n .function
        return .function name params body
      else statement n
    | .kwVar => advance; variableDeclared n
    | _ => statement n

/-- A class, behind its keyword. -/
def classDeclared : Nat → Drawing (Stmt Nat)
  | 0 => outOfFuel
  | n + 1 => do
    let name ← expect .identifier .className
    let superclass ←
      if ← accept .less then some <$> (expect .identifier .superclassName >>= fresh) else pure none
    let _ ← expect .leftBrace .classBrace
    let methods ← methods n
    let _ ← expect .rightBrace .classEnd
    return .classDecl name superclass methods

/-- The methods in the body of a class. -/
def methods : Nat → Drawing (List (Method Nat))
  | 0 => outOfFuel
  | n + 1 => do
    match (← peek).kind with
    | .rightBrace | .eof => return []
    | _ =>
      let (name, params, body) ← named n .method
      return .mk name params body :: (← methods n)

/-- A name, and then parameters and body in parentheses and braces. -/
def named : Nat → Role → Drawing (Token × List Token × List (Stmt Nat))
  | 0, _ => outOfFuel
  | n + 1, role => do
    let name ← expect .identifier (.routineName role)
    let _ ← expect .leftParen (.routineParen role)
    let (params, body) ← routine n role
    return (name, params, body)

/-- A variable, behind its keyword. -/
def variableDeclared : Nat → Drawing (Stmt Nat)
  | 0 => outOfFuel
  | n + 1 => do
    let name ← expect .identifier .variableName
    let init ← if ← accept .equal then some <$> assignment n else pure none
    let _ ← expect .semicolon .variableEnd
    return .var name init

/-- An expression and a semicolon. -/
def expressionStatement : Nat → Drawing (Stmt Nat)
  | 0 => outOfFuel
  | n + 1 => do
    let e ← assignment n
    let _ ← expect .semicolon .expressionEnd
    return .expression e

/-- A `for` loop, behind its keyword. -/
def forStatement : Nat → Drawing (Stmt Nat)
  | 0 => outOfFuel
  | n + 1 => do
    let _ ← expect .leftParen .forParen
    let init ← match (← peek).kind with
      | .semicolon => advance; pure none
      | .kwVar => advance; some <$> variableDeclared n
      | _ => some <$> expressionStatement n
    let test ← unlessAt .semicolon (assignment n)
    let _ ← expect .semicolon .forCondition
    let step ← unlessAt .rightParen (assignment n)
    let _ ← expect .rightParen .forEnd
    let body ← statement n
    return .forLoop init test step body

/-- A statement. -/
def statement : Nat → Drawing (Stmt Nat)
  | 0 => outOfFuel
  | n + 1 => do
    let t ← peek
    match t.kind with
    | .kwFor => advance; forStatement n
    | .kwIf =>
      advance
      let _ ← expect .leftParen .ifParen
      let test ← assignment n
      let _ ← expect .rightParen .ifEnd
      let yes ← statement n
      let no ← if ← accept .kwElse then some <$> statement n else pure none
      return .cond test yes no
    | .kwWhile =>
      advance
      let _ ← expect .leftParen .whileParen
      let test ← assignment n
      let _ ← expect .rightParen .whileEnd
      let body ← statement n
      return .loop test body
    | .kwReturn =>
      advance
      let value ← unlessAt .semicolon (assignment n)
      let _ ← expect .semicolon .returnEnd
      return .ret t value
    | .leftBrace => advance; return .block (← block n)
    | .kwPrint =>
      advance
      let e ← assignment n
      let _ ← expect .semicolon .printEnd
      return .print e
    | _ => expressionStatement n

end

/-- The declarations and statements up to the end. -/
def program : Nat → Drawing (List (Stmt Nat))
  | 0 => outOfFuel
  | n + 1 => do
    if (← get).1.rest.isEmpty then return []
    let s ← declaration n
    let ss ← program n
    return s.toList ++ ss

/-- The declarations and statements of a line, and the expression at its end. -/
def line : Nat → Drawing (Line Nat)
  | 0 => outOfFuel
  | n + 1 => do
    let c := (← get).1
    if c.rest.isEmpty then return ⟨[], none⟩
    let e ← if Reading.atStatement c then pure none else attempted (assignment n)
    match e with
    | some e => return ⟨[], some e⟩
    | none =>
      let s ← declaration n
      let more ← line n
      return ⟨s.toList ++ more.statements, more.trailing⟩

/-- What a drawing from all tokens comes to, and the number that is the next one then. -/
def run (r : Nat → Drawing α) (tokens : List Token) (next : Nat) :
    Except (List GrammarError) α × Nat :=
  match r (Reading.fuelFor tokens) (.start tokens, next) with
  | .ok a (c, n) => (if c.errors.isEmpty then .ok a else .error c.errors.reverse, n)
  | .error (.error e) (c, n) => (.error (e :: c.errors).reverse, n)
  | .error .outOfFuel (c, n) => (.error c.errors.reverse, n)

end Drawing

/-- Reads tokens in a style and draws numbers on the way, from `next` on. -/
def Style.draw (style : Style) (tokens : List Token) (next : Nat) :
    Except (List GrammarError) (Line Nat) × Nat :=
  match style with
  | .program =>
    let (statements, next) := Drawing.run Drawing.program tokens next
    (statements.map (⟨·, none⟩), next)
  | .interactive => Drawing.run Drawing.line tokens next

end LoxLang
