import LoxLang.Number.Text
import LoxLang.Text.Quoted
import LoxLang.Tree

/-!
# Dumps of trees

A dump writes a tree as nested lists. A token is written as its lexeme, an at sign and its line; the
text of a mark follows the token of its site. Every node appears, and only strings are quoted.
-/

namespace LoxLang

open Text

/-- A token in a dump. -/
def Token.located (t : Token) : String := t.lexeme ++ "@" ++ toString t.line

/-- A constant in a dump. -/
def Literal.dump : Literal → String
  | .number value => Binary64.print value
  | .string contents => quoted contents
  | .true => "true"
  | .false => "false"
  | .nil => "nil"

variable {σ : Type}

/-- A site in a dump. -/
def Site.dump (mark : σ → String) (s : Site σ) : String := s.name.located ++ mark s.mark

/-- Parameters in a dump. -/
def dumpParams (params : List Token) : String := parens (params.map Token.located)

mutual

/-- The dump of an expression. -/
def Expr.dump (mark : σ → String) : Expr σ → String
  | .literal v => v.dump
  | .group e => parens ["group", e.dump mark]
  | .unary op e => parens ["unary", op.located, e.dump mark]
  | .binary op l r => parens ["binary", op.located, l.dump mark, r.dump mark]
  | .logical op l r => parens ["logical", op.located, l.dump mark, r.dump mark]
  | .ref s => parens ["var", s.dump mark]
  | .assign s e => parens ["assign", s.dump mark, e.dump mark]
  | .call e paren args => parens ("call" :: paren.located :: e.dump mark :: Expr.dumpAll mark args)
  | .get e name => parens ["get", name.located, e.dump mark]
  | .set e name v => parens ["set", name.located, e.dump mark, v.dump mark]
  | .this s => parens [s.dump mark]
  | .super s m => parens [s.dump mark, m.located]
  | .lambda params body => parens ("lambda" :: dumpParams params :: Stmt.dumpAll mark body)

/-- The dumps of a list of expressions. -/
def Expr.dumpAll (mark : σ → String) : List (Expr σ) → List String
  | [] => []
  | e :: es => e.dump mark :: Expr.dumpAll mark es

/-- The dump of a statement. -/
def Stmt.dump (mark : σ → String) : Stmt σ → String
  | .expression e => parens ["expr", e.dump mark]
  | .print e => parens ["print", e.dump mark]
  | .var name none => parens ["let", name.located]
  | .var name (some e) => parens ["let", name.located, e.dump mark]
  | .block body => parens ("block" :: Stmt.dumpAll mark body)
  | .cond e yes none => parens ["if", e.dump mark, yes.dump mark]
  | .cond e yes (some no) => parens ["if", e.dump mark, yes.dump mark, no.dump mark]
  | .loop e body => parens ["while", e.dump mark, body.dump mark]
  | .function name params body =>
    parens ("fun" :: name.located :: dumpParams params :: Stmt.dumpAll mark body)
  | .ret keyword none => parens [keyword.located]
  | .ret keyword (some e) => parens [keyword.located, e.dump mark]
  | .classDecl name none methods => parens ("class" :: name.located :: Method.dumpAll mark methods)
  | .classDecl name (some s) methods =>
    parens ("class" :: name.located :: "<" :: parens ["var", s.dump mark] ::
      Method.dumpAll mark methods)

/-- The dumps of a list of statements. -/
def Stmt.dumpAll (mark : σ → String) : List (Stmt σ) → List String
  | [] => []
  | s :: ss => s.dump mark :: Stmt.dumpAll mark ss

/-- The dumps of the methods of a class. -/
def Method.dumpAll (mark : σ → String) : List (Method σ) → List String
  | [] => []
  | .mk name params body :: ms =>
    parens ("method" :: name.located :: dumpParams params :: Stmt.dumpAll mark body) ::
      Method.dumpAll mark ms

end

end LoxLang
