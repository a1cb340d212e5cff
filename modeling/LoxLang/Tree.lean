import LoxLang.Token

/-!
# Trees

Expressions and statements. A tree has a *site* wherever a name, `this` or `super` is looked up in a
scope; each site bears a mark of type `σ`. Trees are read with bare sites (`Unit`), labelled with
numbers that tell sites apart, and linked with the distance of the scope that binds the name, so
the type of the marks says how far a tree has come. There is no statement for `for` loops: they are
read as blocks and `while` loops.
-/

namespace LoxLang

/-- A constant of the source. -/
inductive Literal
  | number (value : Float)
  | string (contents : String)
  | true
  | false
  | nil
deriving DecidableEq

/-- A place where a name is looked up in a scope, marked with `mark`. For `this` and `super` the
name is the keyword. -/
structure Site (σ : Type) where
  mark : σ
  name : Token
deriving DecidableEq

mutual

/-- Expressions over sites with marks of type `σ`. -/
inductive Expr (σ : Type)
  | literal (value : Literal)
  | group (inner : Expr σ)
  | unary (op : Token) (operand : Expr σ)
  | binary (op : Token) (left right : Expr σ)
  | logical (op : Token) (left right : Expr σ)
  | ref (site : Site σ)
  | assign (target : Site σ) (value : Expr σ)
  | call (callee : Expr σ) (paren : Token) (args : List (Expr σ))
  | get (object : Expr σ) (name : Token)
  | set (object : Expr σ) (name : Token) (value : Expr σ)
  | this (site : Site σ)
  | super (site : Site σ) (method : Token)
  | lambda (params : List Token) (body : List (Stmt σ))

/-- Statements over sites with marks of type `σ`. -/
inductive Stmt (σ : Type)
  | expression (value : Expr σ)
  | print (value : Expr σ)
  | var (name : Token) (init : Option (Expr σ))
  | block (body : List (Stmt σ))
  | cond (test : Expr σ) (yes : Stmt σ) (no : Option (Stmt σ))
  | loop (test : Expr σ) (body : Stmt σ)
  | function (name : Token) (params : List Token) (body : List (Stmt σ))
  | ret (keyword : Token) (value : Option (Expr σ))
  | classDecl (name : Token) (superclass : Option (Site σ)) (methods : List (Method σ))

/-- A method in the body of a class. -/
inductive Method (σ : Type)
  | mk (name : Token) (params : List Token) (body : List (Stmt σ))

end

/-- What one line of an interactive session holds: statements, and possibly an expression at the
end whose value is shown. -/
structure Line (σ : Type) where
  statements : List (Stmt σ)
  trailing : Option (Expr σ)

/-- The name under which methods see their receiver. -/
def thisName : String := "this"

/-- The name under which the methods of a derived class see the superclass. -/
def superName : String := "super"

/-- The name of the method that runs on construction. -/
def initName : String := "init"

end LoxLang
