import LoxLang.Number.Text
import LoxLang.Table
import LoxLang.Tree

/-!
# Values

What an expression evaluates to. Functions, classes and instances have an identity: two of them are
equal only if they are one and the same. What never changes about them stands in the value itself,
so a class carries its methods and its superclass; only the fields of an instance are kept
elsewhere, at its address.
-/

namespace LoxLang

/-- A statement ready to run: each site is marked with the distance of the frame that holds its
name, or with nothing if the name is global. -/
abbrev Code := Stmt (Option Nat)

/-- A function or method: parameters, body and the frame it was created in. -/
structure Routine where
  name : Option String
  params : List String
  body : List Code
  frame : Nat
  isInit : Bool

/-- A class with its methods and superclass. -/
structure Class where
  identity : Nat
  name : String
  superclass : Option Class
  methods : Table Routine

/-- The method of a name: the class's own, or else its superclass's. -/
def Class.method? : Class → String → Option Routine
  | ⟨_, _, none, methods⟩, name => methods.find? name
  | ⟨_, _, some above, methods⟩, name =>
    match methods.find? name with
    | some m => some m
    | none => above.method? name

/-- An instance of a class; its fields are kept at its address. -/
structure Object where
  address : Nat
  cls : Class

/-- The values of a program. `clock` is the one function that is built in. -/
inductive Value
  | nil
  | bool (b : Bool)
  | number (n : Float)
  | string (s : String)
  | clock
  | function (identity : Nat) (routine : Routine)
  | cls (c : Class)
  | object (o : Object)

/-- The types of values as far as a program can tell them apart. -/
inductive ValueType
  | nil
  | boolean
  | number
  | string
  | function
  | cls
  | object
deriving DecidableEq

namespace Value

/-- The type of a value. -/
def type : Value → ValueType
  | nil => .nil
  | bool _ => .boolean
  | number _ => .number
  | string _ => .string
  | clock | function _ _ => .function
  | cls _ => .cls
  | object _ => .object

/-- Every value counts as true but `nil` and `false`. -/
def isTruthy : Value → Bool
  | nil | bool false => false
  | _ => true

/-- Equality of values. Values of different types differ. -/
def equals : Value → Value → Bool
  | nil, nil => true
  | bool a, bool b => a = b
  | number a, number b => a == b
  | string a, string b => a = b
  | clock, clock => true
  | function a _, function b _ => a = b
  | cls a, cls b => a.identity = b.identity
  | object a, object b => a.address = b.address
  | _, _ => false

/-- The printed form of a value. -/
def text : Value → String
  | nil => "nil"
  | bool true => "true"
  | bool false => "false"
  | number n => Binary64.print n
  | string s => s
  | clock => "<native fn>"
  | function _ ⟨some name, _, _, _, _⟩ => "<fn " ++ name ++ ">"
  | function _ ⟨none, _, _, _, _⟩ => "<fn>"
  | cls c => c.name
  | object o => o.cls.name ++ " instance"

/-- The value of a constant. -/
def ofLiteral : Literal → Value
  | .number n => number n
  | .string s => string s
  | .true => bool true
  | .false => bool false
  | .nil => nil

end Value

/-- The name of a type of values. -/
def ValueType.name : ValueType → String
  | nil => "nil"
  | boolean => "boolean"
  | number => "number"
  | string => "string"
  | function => "function"
  | cls => "class"
  | object => "instance"

/-- What can be called. -/
inductive Callee
  | clock
  | routine (r : Routine)
  | construct (c : Class)

/-- What a call of a value calls, if it can be called. -/
def Value.callee? : Value → Option Callee
  | .clock => some .clock
  | .function _ r => some (.routine r)
  | .cls c => some (.construct c)
  | _ => none

/-- How many arguments a call takes. A class takes those of its initializer. -/
def Callee.arity : Callee → Nat
  | clock => 0
  | routine r => r.params.length
  | construct c => match c.method? initName with
    | some r => r.params.length
    | none => 0

/-- Why a program fails while it runs. -/
inductive RuntimeCause
  | undefinedVariable (name : String)
  | undefinedProperty (name : String)
  | operandNumber
  | operandsNumbers
  | operandsAddable
  | divisionByZero
  | notUnary
  | notBinary
  | notCallable
  | arity (expected got : Nat)
  | stackOverflow
  | noProperties
  | noFields
  | superclassNotClass
  | superOutsideClass
  | thisOutsideClass
deriving DecidableEq

/-- The message of a failure. -/
def RuntimeCause.message : RuntimeCause → String
  | undefinedVariable name => "Undefined variable '" ++ name ++ "'."
  | undefinedProperty name => "Undefined property '" ++ name ++ "'."
  | operandNumber => "Operand must be a number."
  | operandsNumbers => "Operands must be numbers."
  | operandsAddable => "Operands must be two numbers or two strings."
  | divisionByZero => "Division by zero."
  | notUnary => "Invalid unary operator."
  | notBinary => "Invalid binary operator."
  | notCallable => "Can only call functions and classes."
  | arity expected got =>
    "Expected " ++ toString expected ++ " arguments but got " ++ toString got ++ "."
  | stackOverflow => "Stack overflow."
  | noProperties => "Only instances have properties."
  | noFields => "Only instances have fields."
  | superclassNotClass => "Superclass must be a class."
  | superOutsideClass => "Can't use 'super' outside of a class."
  | thisOutsideClass => "Can't use 'this' outside of a class."

namespace Value

/-- A unary operator applied to a value. -/
def unary (op : Kind) (v : Value) : Except RuntimeCause Value :=
  match op, v with
  | .minus, number n => .ok (number (-n))
  | .minus, _ => .error .operandNumber
  | .bang, v => .ok (bool !v.isTruthy)
  | _, _ => .error .notUnary

/-- An operator other than `+`, `==` and `!=` applied to two numbers. -/
def arithmetic (op : Kind) (a b : Float) : Except RuntimeCause Value :=
  match op with
  | .minus => .ok (number (a - b))
  | .star => .ok (number (a * b))
  | .slash => if b == 0 then .error .divisionByZero else .ok (number (a / b))
  | .greater => .ok (bool (b < a))
  | .greaterEqual => .ok (bool (b ≤ a))
  | .less => .ok (bool (a < b))
  | .lessEqual => .ok (bool (a ≤ b))
  | _ => .error .notBinary

/-- The sum of two values. Where a string takes part, the texts are put together. -/
def add : Value → Value → Except RuntimeCause Value
  | number a, number b => .ok (number (a + b))
  | number a, string b => .ok (string (Binary64.print a ++ b))
  | string a, number b => .ok (string (a ++ Binary64.print b))
  | string a, string b => .ok (string (a ++ b))
  | _, _ => .error .operandsAddable

/-- A binary operator applied to two values. -/
def binary (op : Kind) (a b : Value) : Except RuntimeCause Value :=
  match op, a, b with
  | .equalEqual, a, b => .ok (bool (a.equals b))
  | .bangEqual, a, b => .ok (bool !a.equals b)
  | .plus, a, b => a.add b
  | op, number a, number b => arithmetic op a b
  | _, _, _ => .error .operandsNumbers

end Value

end LoxLang
