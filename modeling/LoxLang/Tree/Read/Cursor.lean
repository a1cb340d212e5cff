import LoxLang.Diagnostic

/-!
# Reading tokens

A `Cursor` is what a reader of tokens knows: the tokens up to the end mark that are still to be
read, the end mark, and the errors recorded so far. A `Reading` moves a cursor forward and either
returns a result or stops. A stop keeps the cursor, so that reading can go on behind an error:
`Cursor.resume` records the error and skips to where a declaration may begin. Nothing behind the
first end mark is ever looked at.
-/

namespace LoxLang

/-- What a body of parameters and statements belongs to. -/
inductive Role
  | function
  | method
deriving DecidableEq

/-- The word for a role. -/
def Role.text : Role → String
  | function => "function"
  | method => "method"

/-- What is wrong with a token where it stands. -/
inductive GrammarCause
  | className
  | superclassName
  | classBrace
  | classEnd
  | routineName (role : Role)
  | routineParen (role : Role)
  | routineBrace (role : Role)
  | tooManyParameters
  | parameterName
  | parametersEnd
  | variableName
  | variableEnd
  | forParen
  | forCondition
  | forEnd
  | printEnd
  | expressionEnd
  | ifParen
  | ifEnd
  | whileParen
  | whileEnd
  | returnEnd
  | blockEnd
  | assignmentTarget
  | propertyName
  | tooManyArguments
  | argumentsEnd
  | superDot
  | superMethod
  | funParen
  | groupEnd
  | expression
  | extraInput
deriving DecidableEq

/-- The message of a grammar error. -/
def GrammarCause.message : GrammarCause → String
  | className => "Expect class name."
  | superclassName => "Expect superclass name."
  | classBrace => "Expect '\x7b' before class body."
  | classEnd => "Expect '\x7d' after class body."
  | routineName role => "Expect " ++ role.text ++ " name."
  | routineParen role => "Expect '(' after " ++ role.text ++ " name."
  | routineBrace role => "Expect '\x7b' before " ++ role.text ++ " body."
  | tooManyParameters => "Can't have more than 255 parameters."
  | parameterName => "Expect parameter name."
  | parametersEnd => "Expect ')' after parameters."
  | variableName => "Expect variable name."
  | variableEnd => "Expect ';' after variable declaration."
  | forParen => "Expect '(' after 'for'."
  | forCondition => "Expect ';' after loop condition."
  | forEnd => "Expect ')' after for clauses."
  | printEnd => "Expect ';' after value."
  | expressionEnd => "Expect ';' after expression."
  | ifParen => "Expect '(' after 'if'."
  | ifEnd => "Expect ')' after if condition."
  | whileParen => "Expect '(' after 'while'."
  | whileEnd => "Expect ')' after condition."
  | returnEnd => "Expect ';' after return value."
  | blockEnd => "Expect '\x7d' after block."
  | assignmentTarget => "Invalid assignment target."
  | propertyName => "Expect property name after '.'."
  | tooManyArguments => "Can't have more than 255 arguments."
  | argumentsEnd => "Expect ')' after arguments."
  | superDot => "Expect '.' after 'super'."
  | superMethod => "Expect superclass method name."
  | funParen => "Expect '(' after 'fun'."
  | groupEnd => "Expect ')' after expression."
  | expression => "Expect expression."
  | extraInput => "Expect end of expression."

/-- A grammar error and the token it was noticed at. -/
structure GrammarError where
  token : Token
  cause : GrammarCause
deriving DecidableEq

/-- What the user is told about a grammar error. -/
def GrammarError.diagnostic (e : GrammarError) : Diagnostic := .grammar e.token e.cause.message

/-- Where a reader stands: the tokens in front of the end mark that are not read yet, the end mark,
and the errors recorded so far, the latest first. -/
structure Cursor where
  rest : List Token
  endMark : Token
  errors : List GrammarError

namespace Cursor

/-- A reader at the start of the tokens. The first end mark counts; where there is none, one is
taken to stand on the line of the last token. -/
def start (tokens : List Token) : Cursor :=
  { rest := tokens.takeWhile (!·.isEnd)
    endMark := (tokens.find? (·.isEnd)).getD
      (.endMark ((tokens.getLast?.map Token.line).getD 1))
    errors := [] }

/-- The token in front of the reader; at the end, the end mark. -/
def peek (c : Cursor) : Token := c.rest.headD c.endMark

/-- The token behind the one in front. -/
def peekSecond (c : Cursor) : Token := c.rest.tail.headD c.endMark

/-- The reader one token further on; it stays at the end mark. -/
def advance (c : Cursor) : Cursor := { c with rest := c.rest.tail }

/-- The cursor with one more error recorded. -/
def record (c : Cursor) (e : GrammarError) : Cursor := { c with errors := e :: c.errors }

end Cursor

/-- Whether a word of this kind may open a declaration or a statement. -/
def Kind.opensStatement : Kind → Bool
  | .kwClass | .kwFun | .kwVar | .kwFor | .kwIf | .kwWhile | .kwPrint | .kwReturn => true
  | _ => false

/-- The tokens from the next place on where a declaration may begin: behind a semicolon, or in
front of a word that opens a statement. `last` is the token skipped before them. -/
def skipFrom (last : Token) : List Token → List Token
  | [] => []
  | t :: ts =>
    if last.kind = .semicolon ∨ t.kind.opensStatement then t :: ts else skipFrom t ts

/-- Skips the token in front and then up to where a declaration may begin. -/
def skipFaulty : List Token → List Token
  | [] => []
  | t :: ts => skipFrom t ts

/-- Records an error and skips to where a declaration may begin. -/
def Cursor.resume (c : Cursor) (e : GrammarError) : Cursor :=
  { c with rest := skipFaulty c.rest, errors := e :: c.errors }

/-- Why a reading ends without a result. -/
inductive Stop
  | error (error : GrammarError)
  | outOfFuel
deriving DecidableEq

/-- A step of reading: it moves the cursor and returns a result or stops. -/
abbrev Reading (α : Type) := EStateM Stop Cursor α

namespace Reading

variable {α : Type}

/-- Stops because the fuel is used up. -/
def outOfFuel : Reading α := throw .outOfFuel

/-- The token in front. -/
def peek : Reading Token := return (← get).peek

/-- Goes one token further. -/
def advance : Reading Unit := modify Cursor.advance

/-- Stops with an error at the token in front. -/
def fail (cause : GrammarCause) : Reading α := do throw (.error ⟨← peek, cause⟩)

/-- Records an error at the token in front and goes on. -/
def note (cause : GrammarCause) : Reading Unit := modify fun c => c.record ⟨c.peek, cause⟩

/-- Reads a token of the given kind, which has to stand in front. -/
def expect (kind : Kind) (cause : GrammarCause) : Reading Token := do
  let t ← peek
  if t.kind = kind then advance; return t else fail cause

/-- Reads a token of the given kind if it stands in front, and says whether it did. -/
def accept (kind : Kind) : Reading Bool := do
  if (← peek).kind = kind then advance; return true else return false

end Reading

end LoxLang
