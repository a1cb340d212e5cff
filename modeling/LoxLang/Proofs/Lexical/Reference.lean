import LoxLang.Proofs.Lexical.Links
import LoxLang.Session

/-!
# The reference interpreter

Programs can be run without distances and without chains of frames. Each time a scope is entered it
is activated anew: a block that runs, a call, a method that is bound and a derived class that is
declared each get an `Activation` with cells of their own. An activation comes with its *display*,
the activations of all the scopes around it, so the cell of a name is found in one step: in the
activation that the display has at the level with which the site is linked, or among the globals. A
function is created in an activation, and its calls are activated inside that one.

The values are those of the machine, with code that is linked by the text; a routine keeps the
number of its activation where the machine keeps that of a frame.
-/

namespace LoxLang

namespace Lexical

/-- An activation of a scope: the activations of the scopes around it, from the outermost in and
itself the last, and its cells. -/
structure Activation where
  display : List Nat
  cells : Table Value

/-- The state of a program that runs by the text. -/
structure State where
  activations : Array Activation
  objects : Array (Table Value)
  identities : Nat
  current : Nat
  depth : Nat
  printed : ByteArray
  room : Option Nat
  clock : Nat → Float
  ticks : Nat

namespace State

/-- The activation that holds the globals. It stands outside of all scopes. -/
def globals : Nat := 0

/-- The state at the start, where only the clock has a name. -/
def start (clock : Nat → Float) (room : Option Nat) : State :=
  { activations := #[⟨[], .single "clock" .clock⟩]
    objects := #[]
    identities := 0
    current := globals
    depth := 0
    printed := .empty
    room := room
    clock := clock
    ticks := 0 }

/-- The activations of the scopes around an activation. -/
def display (s : State) (activation : Nat) : List Nat :=
  match s.activations[activation]? with
  | some a => a.display
  | none => []

/-- The current activation of the scope at a level. -/
def scopeAt? (s : State) (level : Nat) : Option Nat := (s.display s.current)[level]?

/-- The value in the cell of a name. -/
def cell? (s : State) (activation : Nat) (name : String) : Option Value :=
  s.activations[activation]?.bind (·.cells.find? name)

/-- Puts a value into the cell of a name. -/
def setCell (s : State) (activation : Nat) (name : String) (value : Value) : State :=
  { s with
    activations := s.activations.modify activation fun a =>
      { a with cells := a.cells.insert name value } }

/-- Activates a scope inside an activation. -/
def activate (s : State) (cells : Table Value) (around : Nat) : State :=
  { s with
    activations := s.activations.push ⟨s.display around ++ [s.activations.size], cells⟩ }

/-- The value a site reads. -/
def value? (s : State) (site : Site (Option Nat)) : Option Value :=
  match site.mark with
  | some level => (s.scopeAt? level).bind (s.cell? · site.name.lexeme)
  | none => s.cell? globals site.name.lexeme

/-- The activation in which an assignment at a site finds the cell. -/
def target? (s : State) (site : Site (Option Nat)) : Option Nat :=
  match site.mark with
  | some level => s.scopeAt? level
  | none => if (s.cell? globals site.name.lexeme).isSome then some globals else none

/-- Prints the bytes that fit. -/
def write (s : State) (bytes : ByteArray) : State :=
  match s.room with
  | none => { s with printed := s.printed ++ bytes }
  | some r =>
    { s with printed := s.printed ++ bytes.extract 0 r, room := some (r - bytes.size) }

/-- Whether the bytes fit into the output. -/
def fits (s : State) (bytes : ByteArray) : Bool :=
  match s.room with
  | none => true
  | some r => bytes.size ≤ r

end State

/-- A step of a program that runs by the text. -/
abbrev Run (α : Type) := EStateM Fault State α

variable {α : Type}

/-- Fails because the fuel is used up. -/
def outOfFuel : Run α := throw .outOfFuel

/-- Fails at a token. -/
def fail (token : Token) (cause : RuntimeCause) : Run α := throw (.runtime token.line cause)

/-- The result of an operation, or its failure at a token. -/
def check (token : Token) : Except RuntimeCause α → Run α
  | .ok a => pure a
  | .error cause => fail token cause

/-- Activates a scope inside an activation. -/
def activate (cells : Table Value) (around : Nat) : Run Nat :=
  modifyGet fun s => (s.activations.size, s.activate cells around)

/-- Runs in another activation and comes back to the current one. -/
def inside (activation : Nat) (r : Run α) : Run α := fun s =>
  match r { s with current := activation } with
  | .ok a s' => .ok a { s' with current := s.current }
  | .error e s' => .error e { s' with current := s.current }

/-- Runs with one more call in progress. -/
def inCall (r : Run α) : Run α := fun s =>
  match r { s with depth := s.depth + 1 } with
  | .ok a s' => .ok a { s' with depth := s'.depth - 1 }
  | .error e s' => .error e { s' with depth := s'.depth - 1 }

/-- A number that no function or class has yet. -/
def newIdentity : Run Nat :=
  modifyGet fun s => (s.identities, { s with identities := s.identities + 1 })

/-- Puts a value into a cell of the current activation. -/
def define (name : String) (value : Value) : Run Unit :=
  modify fun s => s.setCell s.current name value

/-- The value in the cell of the name at a site. -/
def lookUp (site : Site (Option Nat)) : Run Value := fun s =>
  match s.value? site with
  | some v => .ok v s
  | none => .error (.runtime site.name.line (.undefinedVariable site.name.lexeme)) s

/-- Puts a new value into the cell of the name at a site. -/
def assign (site : Site (Option Nat)) (value : Value) : Run Unit := fun s =>
  match s.target? site with
  | some a => .ok () (s.setCell a site.name.lexeme value)
  | none => .error (.runtime site.name.line (.undefinedVariable site.name.lexeme)) s

/-- Prints a line. -/
def printLine (text : String) : Run Unit := fun s =>
  let bytes := (text ++ "\n").toUTF8
  if s.fits bytes then .ok () (s.write bytes) else .error .outputFull (s.write bytes)

/-- The next reading of the clock. -/
def readClock : Run Value :=
  modifyGet fun s => (.number (s.clock s.ticks), { s with ticks := s.ticks + 1 })

/-- A function created in the current activation. -/
def newFunction (name : Option String) (params : List Token) (body : List Code) : Run Value := do
  let identity ← newIdentity
  let activation := (← get).current
  return .function identity ⟨name, params.map Token.lexeme, body, activation, false⟩

/-- An instance without fields. -/
def newObject (c : Class) : Run Object :=
  modifyGet fun s => (⟨s.objects.size, c⟩, { s with objects := s.objects.push .empty })

/-- A method bound to its receiver. -/
def bindMethod (method : Routine) (receiver : Object) : Run Routine := do
  let activation ← activate (.single thisName (.object receiver)) method.frame
  return { method with frame := activation }

/-- A bound method as a value. -/
def methodValue (method : Routine) (receiver : Object) : Run Value := do
  let bound ← bindMethod method receiver
  return .function (← newIdentity) bound

/-- A property of a value: a field of an instance, or else a method of its class. -/
def getProperty (v : Value) (name : Token) : Run Value := do
  match v with
  | .object o =>
    let s ← get
    match s.objects[o.address]?.bind (·.find? name.lexeme) with
    | some field => return field
    | none => match o.cls.method? name.lexeme with
      | some method => methodValue method o
      | none => fail name (.undefinedProperty name.lexeme)
  | _ => fail name .noProperties

/-- Gives a field of an instance a value. -/
def setField (o : Object) (name : String) (value : Value) : Run Unit :=
  modify fun s => { s with objects := s.objects.modify o.address (·.insert name value) }

/-- The method of a superclass bound to the receiver. The scope of the receiver is the one directly
inside that of the superclass. -/
def superMethod (site : Site (Option Nat)) (method : Token) : Run Value := do
  match site.mark with
  | none => fail site.name .superOutsideClass
  | some level =>
    let s ← get
    match (s.scopeAt? level).bind (s.cell? · superName) with
    | some (.cls c) =>
      match (s.scopeAt? (level + 1)).bind (s.cell? · thisName) with
      | some (.object o) =>
        match c.method? method.lexeme with
        | some found => methodValue found o
        | none => fail method (.undefinedProperty method.lexeme)
      | _ => fail site.name .thisOutsideClass
    | _ => fail site.name .superclassNotClass

/-- The class a superclass clause names. -/
def superclassOf : Option (Site (Option Nat)) → Run (Option Class)
  | none => pure none
  | some site => do
    match ← lookUp site with
    | .cls c => return some c
    | _ => fail site.name .superclassNotClass

/-- The activation the methods of a class are created in. -/
def methodScope : Option Class → Run Nat
  | none => return (← get).current
  | some c => do activate (.single superName (.cls c)) (← get).current

/-- Declares a class in the current activation. -/
def declareClass (name : Token) (superclass : Option (Site (Option Nat)))
    (methods : List (Method (Option Nat))) : Run Unit := do
  let above ← superclassOf superclass
  let activation ← methodScope above
  let identity ← newIdentity
  define name.lexeme (.cls ⟨identity, name.lexeme, above, Run.methodTable methods activation⟩)

/-- The receiver an initializer was bound to. -/
def receiver (activation : Nat) : Run Value := do
  return ((← get).cell? activation thisName).getD .nil

mutual

/-- Evaluates an expression. -/
def evaluate : Nat → Expr (Option Nat) → Run Value
  | 0, _ => outOfFuel
  | n + 1, e => do
    match e with
    | .literal v => return .ofLiteral v
    | .group e => evaluate n e
    | .unary op e =>
      let v ← evaluate n e
      check op (v.unary op.kind)
    | .binary op a b =>
      let x ← evaluate n a
      let y ← evaluate n b
      check op (Value.binary op.kind x y)
    | .logical op a b =>
      let x ← evaluate n a
      if x.isTruthy = (op.kind = .kwOr) then return x else evaluate n b
    | .ref site => lookUp site
    | .this site => lookUp site
    | .assign site e =>
      let v ← evaluate n e
      assign site v
      return v
    | .call f paren args =>
      let callee ← evaluate n f
      let values ← evaluateAll n args
      call n callee paren values
    | .get e name =>
      let v ← evaluate n e
      getProperty v name
    | .set e name e' =>
      match ← evaluate n e with
      | .object o =>
        let v ← evaluate n e'
        setField o name.lexeme v
        return v
      | _ => fail name .noFields
    | .super site method => superMethod site method
    | .lambda params body => newFunction none params body

/-- Evaluates expressions in order. -/
def evaluateAll : Nat → List (Expr (Option Nat)) → Run (List Value)
  | 0, _ => outOfFuel
  | _ + 1, [] => return []
  | n + 1, e :: es => do
    let v ← evaluate n e
    let vs ← evaluateAll n es
    return v :: vs

/-- Calls a value with arguments. -/
def call : Nat → Value → Token → List Value → Run Value
  | 0, _, _, _ => outOfFuel
  | n + 1, f, paren, args => do
    match f.callee? with
    | none => fail paren .notCallable
    | some callee =>
      if args.length ≠ callee.arity then fail paren (.arity callee.arity args.length)
      else if Machine.mostCalls ≤ (← get).depth then fail paren .stackOverflow
      else inCall (apply n callee args)

/-- Runs what is called. -/
def apply : Nat → Callee → List Value → Run Value
  | 0, _, _ => outOfFuel
  | n + 1, callee, args => do
    match callee with
    | .clock => readClock
    | .routine r => invoke n r args
    | .construct c =>
      let o ← newObject c
      match c.method? initName with
      | none => return .object o
      | some method =>
        let bound ← bindMethod method o
        let _ ← invoke n bound args
        return .object o

/-- Runs the body of a function in a new activation inside the one it was created in. -/
def invoke : Nat → Routine → List Value → Run Value
  | 0, _, _ => outOfFuel
  | n + 1, r, args => do
    let cells := (r.params.zip args).foldl (fun t p => t.insert p.1 p.2) Table.empty
    let activation ← activate cells r.frame
    let flow ← inside activation (executeAll n r.body)
    if r.isInit then receiver r.frame
    else match flow with
      | .returned v => return v
      | .proceed => return .nil

/-- Executes statements in order up to the first that returns. -/
def executeAll : Nat → List Code → Run Flow
  | 0, _ => outOfFuel
  | _ + 1, [] => return .proceed
  | n + 1, s :: ss => do
    match ← execute n s with
    | .proceed => executeAll n ss
    | .returned v => return .returned v

/-- Executes a statement. -/
def execute : Nat → Code → Run Flow
  | 0, _ => outOfFuel
  | n + 1, s => do
    match s with
    | .expression e =>
      let _ ← evaluate n e
      return .proceed
    | .print e =>
      let v ← evaluate n e
      printLine v.text
      return .proceed
    | .var name none =>
      define name.lexeme .nil
      return .proceed
    | .var name (some e) =>
      let v ← evaluate n e
      define name.lexeme v
      return .proceed
    | .block body =>
      let activation ← activate .empty (← get).current
      inside activation (executeAll n body)
    | .cond test yes no =>
      let v ← evaluate n test
      if v.isTruthy then execute n yes
      else match no with
        | some no => execute n no
        | none => return .proceed
    | .loop test body =>
      let v ← evaluate n test
      if v.isTruthy then
        match ← execute n body with
        | .proceed => execute n s
        | .returned v => return .returned v
      else return .proceed
    | .function name params body =>
      let f ← newFunction (some name.lexeme) params body
      define name.lexeme f
      return .proceed
    | .ret _ none => return .returned .nil
    | .ret _ (some e) => return .returned (← evaluate n e)
    | .classDecl name superclass methods =>
      declareClass name superclass methods
      return .proceed

end

/-- Runs a line: its statements, then the expression at its end. -/
def line (n : Nat) (code : Line (Option Nat)) : Run (Option Value) := do
  let _ ← executeAll n code.statements
  match code.trailing with
  | none => return none
  | some e => return some (← evaluate n e)

/-- A session that runs its sources by the text. -/
structure Session where
  state : State
  nextSite : Nat

namespace Session

/-- A session at its start. -/
def start (clock : Nat → Float) (room : Option Nat) : Session := ⟨.start clock room, 0⟩

/-- Runs a line. -/
def perform (s : Session) (fuel : Nat) (code : Line (Option Nat)) : Outcome × Session :=
  match line fuel code { s.state with printed := .empty } with
  | .ok value state => (⟨state.printed, .finished (value.map Value.text)⟩, ⟨state, s.nextSite⟩)
  | .error fault state => (⟨state.printed, .failed fault⟩, ⟨state, s.nextSite⟩)

/-- Runs a source. What resolving finds decides only whether the source is rejected. -/
def step (s : Session) (fuel : Nat) (style : Style) (source : String) : Outcome × Session :=
  match style.readSource s.nextSite source with
  | .error ds => (⟨.empty, .rejected ds⟩, s)
  | .ok (line, next) =>
    let s := { s with nextSite := next }
    match line.bindings with
    | .error es => (⟨.empty, .rejected (es.map ScopeError.diagnostic)⟩, s)
    | .ok _ => s.perform fuel line.linkByText

/-- Runs sources in order. -/
def steps (s : Session) (fuel : Nat) : List (Style × String) → List Outcome × Session
  | [] => ([], s)
  | (style, source) :: rest =>
    let (outcome, s) := s.step fuel style source
    let (outcomes, s) := s.steps fuel rest
    (outcome :: outcomes, s)

end Session

end Lexical

end LoxLang
