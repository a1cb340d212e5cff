import LoxLang.Diagnostic
import LoxLang.Store
import LoxLang.Value

/-!
# The machine

The state of a running program: the store of frames, the fields of instances, the current frame, how
many calls are in progress, and what has been printed. A `Run` is a step of the machine that returns
a result or fails with a `Fault`; either way the state it has reached is kept.

The output may have room for a limited number of bytes. A write takes the bytes that fit, and it
fails if any are left over. The clock is a sequence of readings fixed from outside.
-/

namespace LoxLang

/-- Why a run ends early. -/
inductive Fault
  | runtime (line : Nat) (cause : RuntimeCause)
  | outputFull
  | outOfFuel
deriving DecidableEq

/-- What the user is told about a fault. A run that used up its fuel is not the program's fault. -/
def Fault.diagnostic? : Fault → Option Diagnostic
  | runtime line cause => some (.runtime line cause.message)
  | outputFull => some (.output "sink full")
  | outOfFuel => none

/-- The state of a running program. -/
structure Machine where
  store : Store Value
  objects : Array (Table Value)
  identities : Nat
  frame : Nat
  depth : Nat
  printed : ByteArray
  room : Option Nat
  clock : Nat → Float
  ticks : Nat

namespace Machine

/-- The outermost frame. -/
def globalFrame : Nat := 0

/-- The most calls that may be in progress. -/
def mostCalls : Nat := 1024

/-- A machine at the start, where only the clock has a name. -/
def start (clock : Nat → Float) (room : Option Nat) : Machine :=
  { store := (Store.empty.create (.single "clock" .clock) none).2
    objects := #[]
    identities := 0
    frame := globalFrame
    depth := 0
    printed := .empty
    room := room
    clock := clock
    ticks := 0 }

/-- Prints the bytes that fit. -/
def write (m : Machine) (bytes : ByteArray) : Machine :=
  match m.room with
  | none => { m with printed := m.printed ++ bytes }
  | some r =>
    { m with printed := m.printed ++ bytes.extract 0 r, room := some (r - bytes.size) }

/-- Whether the bytes fit into the output. -/
def fits (m : Machine) (bytes : ByteArray) : Bool :=
  match m.room with
  | none => true
  | some r => bytes.size ≤ r

end Machine

/-- A step of the machine. -/
abbrev Run (α : Type) := EStateM Fault Machine α

namespace Run

variable {α : Type}

/-- Fails because the fuel is used up. -/
def outOfFuel : Run α := throw .outOfFuel

/-- Fails at a token. -/
def fail (token : Token) (cause : RuntimeCause) : Run α := throw (.runtime token.line cause)

/-- The result of an operation, or its failure at a token. -/
def check (token : Token) : Except RuntimeCause α → Run α
  | .ok a => pure a
  | .error cause => fail token cause

/-- Creates a frame. -/
def createFrame (names : Table Value) (parent : Nat) : Run Nat :=
  modifyGet fun m =>
    let (frame, store) := m.store.create names (some parent)
    (frame, { m with store := store })

/-- Runs in another frame and comes back to the current one. -/
@[inline] def inFrame (frame : Nat) (r : Run α) : Run α := fun m =>
  let around := m.frame
  match r { m with frame := frame } with
  | .ok a m => .ok a { m with frame := around }
  | .error e m => .error e { m with frame := around }

/-- Runs with one more call in progress. -/
@[inline] def inCall (r : Run α) : Run α := fun m =>
  match r { m with depth := m.depth + 1 } with
  | .ok a m => .ok a { m with depth := m.depth - 1 }
  | .error e m => .error e { m with depth := m.depth - 1 }

/-- A number that no function or class has yet. -/
def newIdentity : Run Nat :=
  modifyGet fun m => (m.identities, { m with identities := m.identities + 1 })

/-- Gives a name a value in the current frame. -/
def define (name : String) (value : Value) : Run Unit :=
  modify fun m => { m with store := m.store.define m.frame name value }

/-- The value of a name at a site: at its distance, or else among the globals. -/
def lookUp (site : Site (Option Nat)) : Run Value := do
  let m ← get
  let name := site.name.lexeme
  let value := match site.mark with
    | some d => m.store.readAt? d m.frame name
    | none => m.store.read? Machine.globalFrame name
  match value with
  | some v => return v
  | none => fail site.name (.undefinedVariable name)

/-- Gives the name at a site a new value, where `lookUp` would find the old one. -/
def assign (site : Site (Option Nat)) (value : Value) : Run Unit := fun m =>
  let name := site.name.lexeme
  -- the machine lets go of its store, so that the store is changed in place
  let store := m.store
  let m := { m with store := .empty }
  let changed := match site.mark with
    | some d => store.writeAt? d m.frame name value
    | none => store.assign? Machine.globalFrame name value
  match changed with
  | some store => .ok () { m with store }
  | none => .error (.runtime site.name.line (.undefinedVariable name)) { m with store }

/-- Prints a line. -/
def printLine (text : String) : Run Unit := fun m =>
  let bytes := (text ++ "\n").toUTF8
  if m.fits bytes then .ok () (m.write bytes) else .error .outputFull (m.write bytes)

/-- The next reading of the clock. -/
def readClock : Run Value :=
  modifyGet fun m => (.number (m.clock m.ticks), { m with ticks := m.ticks + 1 })

/-- A function created in the current frame. -/
def newFunction (name : Option String) (params : List Token) (body : List Code) : Run Value := do
  let identity ← newIdentity
  let frame := (← get).frame
  return .function identity ⟨name, params.map Token.lexeme, body, frame, false⟩

/-- An instance without fields. -/
def newObject (c : Class) : Run Object :=
  modifyGet fun m => (⟨m.objects.size, c⟩, { m with objects := m.objects.push .empty })

/-- A method bound to its receiver, which it finds in a frame of its own. -/
def bindMethod (method : Routine) (receiver : Object) : Run Routine := do
  let frame ← createFrame (.single thisName (.object receiver)) method.frame
  return { method with frame := frame }

/-- A bound method as a value. -/
def methodValue (method : Routine) (receiver : Object) : Run Value := do
  let bound ← bindMethod method receiver
  return .function (← newIdentity) bound

/-- A property of a value: a field of an instance, or else a method of its class. -/
def getProperty (v : Value) (name : Token) : Run Value := do
  match v with
  | .object o =>
    let m ← get
    match m.objects[o.address]?.bind (·.find? name.lexeme) with
    | some field => return field
    | none => match o.cls.method? name.lexeme with
      | some method => methodValue method o
      | none => fail name (.undefinedProperty name.lexeme)
  | _ => fail name .noProperties

/-- Gives a field of an instance a value. -/
def setField (o : Object) (name : String) (value : Value) : Run Unit :=
  modify fun m => { m with objects := m.objects.modify o.address (·.insert name value) }

/-- The method of a superclass bound to the receiver. The receiver's frame is the one inside the
frame of the superclass. -/
def superMethod (site : Site (Option Nat)) (method : Token) : Run Value := do
  match site.mark with
  | none => fail site.name .superOutsideClass
  | some d =>
    let m ← get
    match m.store.readAt? d m.frame superName with
    | some (.cls c) =>
      let receiver := if d = 0 then none else m.store.readAt? (d - 1) m.frame thisName
      match receiver with
      | some (.object o) =>
        match c.method? method.lexeme with
        | some found => methodValue found o
        | none => fail method (.undefinedProperty method.lexeme)
      | _ => fail site.name .thisOutsideClass
    | _ => fail site.name .superclassNotClass

/-- The methods of a class, which close over the given frame; of two with one name the later
counts. -/
def methodTable (methods : List (Method (Option Nat))) (frame : Nat) : Table Routine :=
  methods.foldl (fun table => fun
    | .mk name params body =>
      table.insert name.lexeme
        ⟨some name.lexeme, params.map Token.lexeme, body, frame, name.lexeme = initName⟩) .empty

/-- Declares a class in the current frame. The methods of a derived class close over a frame with
the superclass. -/
def declareClass (name : Token) (superclass : Option (Site (Option Nat)))
    (methods : List (Method (Option Nat))) : Run Unit := do
  let above ← match superclass with
    | none => pure none
    | some site => do
      match ← lookUp site with
      | .cls c => pure (some c)
      | _ => fail site.name .superclassNotClass
  let current := (← get).frame
  let frame ← match above with
    | none => pure current
    | some c => createFrame (.single superName (.cls c)) current
  let identity ← newIdentity
  define name.lexeme (.cls ⟨identity, name.lexeme, above, methodTable methods frame⟩)

end Run

end LoxLang
