import LoxLang.Token.Scan

/-!
# Diagnostics

A `Diagnostic` is what a user is told about a fault: a lexical fault by its line, a fault of grammar
or scope by the token it was noticed at, a fault of the running program by its line. `text` is the
form in which it is printed.
-/

namespace LoxLang

/-- A message for the user and where it belongs. -/
inductive Diagnostic
  | lexical (line : Nat) (message : String)
  | grammar (token : Token) (message : String)
  | scope (token : Token) (message : String)
  | runtime (line : Nat) (message : String)
  | output (message : String)
deriving DecidableEq

/-- How a message names the token it was noticed at. -/
def Token.place (t : Token) : String :=
  if t.isEnd then " at end" else " at '" ++ t.lexeme ++ "'"

namespace Diagnostic

/-- The message alone. -/
def message : Diagnostic → String
  | lexical _ m | grammar _ m | scope _ m | runtime _ m | output m => m

/-- The line the message belongs to. -/
def line? : Diagnostic → Option Nat
  | lexical line _ | runtime line _ => some line
  | grammar token _ | scope token _ => some token.line
  | output _ => none

/-- The text of a static fault. -/
def staticText (line : Nat) (place message : String) : String :=
  "[line " ++ toString line ++ "] Error" ++ place ++ ": " ++ message

/-- The printed form. -/
def text : Diagnostic → String
  | lexical line m => staticText line "" m
  | grammar token m | scope token m => staticText token.line token.place m
  | runtime line m => m ++ "\n[line " ++ toString line ++ "]"
  | output m => m

end Diagnostic

/-- What the user is told about a lexical error. -/
def LexicalError.diagnostic (e : LexicalError) : Diagnostic := .lexical e.line e.cause.message

end LoxLang
