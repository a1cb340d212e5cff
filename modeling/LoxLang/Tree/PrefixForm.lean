import LoxLang.Number.Text
import LoxLang.Text.Quoted
import LoxLang.Tree

/-!
# Prefix form of expressions

The prefix form of an expression puts every operator in front of its operands and every node but
names and constants in parentheses. Strings stand unquoted, and of a function only the parameters
are shown.
-/

namespace LoxLang

open Text

/-- A constant in prefix form. -/
def Literal.prefixForm : Literal → String
  | .number value => Binary64.print value
  | .string contents => contents
  | .true => "true"
  | .false => "false"
  | .nil => "nil"

variable {σ : Type}

mutual

/-- The prefix form of an expression. -/
def Expr.prefixForm : Expr σ → String
  | .literal v => v.prefixForm
  | .group e => parens ["group", e.prefixForm]
  | .unary op e => parens [op.lexeme, e.prefixForm]
  | .binary op l r => parens [op.lexeme, l.prefixForm, r.prefixForm]
  | .logical op l r => parens [op.lexeme, l.prefixForm, r.prefixForm]
  | .ref s => s.name.lexeme
  | .assign s e => parens ["=", s.name.lexeme, e.prefixForm]
  | .call e _ args => parens ("call" :: e.prefixForm :: Expr.prefixForms args)
  | .get e name => parens [".", e.prefixForm, name.lexeme]
  | .set e name v => parens ["=", parens [".", e.prefixForm, name.lexeme], v.prefixForm]
  | .this _ => "this"
  | .super _ m => parens ["super", m.lexeme]
  | .lambda params _ => parens ["fun", parens (params.map Token.lexeme)]

/-- The prefix forms of a list of expressions. -/
def Expr.prefixForms : List (Expr σ) → List String
  | [] => []
  | e :: es => e.prefixForm :: Expr.prefixForms es

end

end LoxLang
