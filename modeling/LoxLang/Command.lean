import LoxLang.Session
import LoxLang.Text.Blank
import LoxLang.Text.Utf8
import LoxLang.Token.Listing
import LoxLang.Tree.PrefixForm

/-!
# The command line

An `Invocation` is what the arguments of the command ask for: to list the tokens of a source, to
show or to evaluate a single expression, to run a program, or to run lines interactively. The source
comes from a file or from standard input. `Invocation.report` gives everything the command does: its
output, its messages and its exit code.
-/

namespace LoxLang

open Text

/-- What a command does. -/
inductive Action
  | tokenize (asRecords : Bool)
  | parse
  | evaluate
  | run
  | repl
deriving DecidableEq, Repr

/-- What the arguments of a command ask for. -/
structure Invocation where
  action : Action
  file : Option String
  log : Bool
deriving DecidableEq, Repr

/-- The action of a subcommand; `records` says that records are asked for. -/
def Action.ofName? (name : String) (records : Bool) : Option Action :=
  match name, records with
  | "tokenize", records => some (.tokenize records)
  | "parse", false => some .parse
  | "evaluate", false => some .evaluate
  | "run", false => some .run
  | "repl", false => some .repl
  | _, _ => none

/-- The invocation the arguments stand for. Options may stand anywhere; the first other argument is
the subcommand, and at most one file may follow it. -/
def Invocation.ofArgs? (args : List String) : Option Invocation :=
  let log := args.contains "--log"
  let records := args.contains "--json"
  match args.filter fun a => a ≠ "--log" ∧ a ≠ "--json" with
  | [name] => (Action.ofName? name records).map (⟨·, none, log⟩)
  | [name, file] =>
    match Action.ofName? name records with
    | none | some .repl => none
    | some action => if file.startsWith "--" then none else some ⟨action, some file, log⟩
  | _ => none

/-- What a command finds when it starts: files and standard input. -/
structure Surroundings where
  file? : String → Option ByteArray
  stdin : ByteArray

/-- What a command leaves behind. -/
structure Report where
  code : Nat
  stdout : ByteArray
  stderr : String
  log : Bool

/-- The exit code for lexical, grammatical and scope errors. -/
def rejectedCode : Nat := 65

/-- The exit code for programs that fail. -/
def failedCode : Nat := 70

/-- The exit code for sources that cannot be read. -/
def unreadableCode : Nat := 1

/-- Why a source cannot be read. -/
inductive Unreadable
  | noFile (name : String)
  | fileNotUtf8 (name : String) (fault : Utf8Fault)
  | stdinNotUtf8
  | lineNotUtf8

namespace Unreadable

/-- A character of a file name in a message. -/
def nameChar (c : Char) : List Char :=
  if c = '"' then ['\\', '"']
  else if c = '\\' then ['\\', '\\']
  else if c = '\n' then ['\\', 'n']
  else if c = '\r' then ['\\', 'r']
  else if c = '\t' then ['\\', 't']
  else if c = '\x00' then ['\\', '0']
  else if c.toNat < 32 ∨ c.toNat = 127 then
    ['\\', 'u', '{'] ++ Nat.toDigits 16 c.toNat ++ ['}']
  else [c]

/-- A file name in a message. -/
def quotedName (name : String) : String :=
  "\"" ++ String.ofList (name.toList.flatMap nameChar) ++ "\""

/-- What could not be done. -/
def what : Unreadable → String
  | noFile name => "Failed to open file " ++ quotedName name
  | fileNotUtf8 name _ => quotedName name ++ " is not valid UTF-8"
  | stdinNotUtf8 => "Failed to read stdin"
  | lineNotUtf8 => "Failed to read from stdin"

/-- Why it could not be done. -/
def why : Unreadable → String
  | noFile _ => "No such file or directory (os error 2)"
  | fileNotUtf8 _ fault => fault.message
  | stdinNotUtf8 | lineNotUtf8 => "stream did not contain valid UTF-8"

/-- The message for the user. -/
def message (u : Unreadable) : String :=
  "Error: " ++ u.what ++ "\n\nCaused by:\n    " ++ u.why ++ "\n"

end Unreadable

/-- The text a command works on. -/
def Surroundings.source (w : Surroundings) : Option String → Except Unreadable String
  | none => (decode w.stdin).mapError fun _ => .stdinNotUtf8
  | some name =>
    match w.file? name with
    | none => .error (.noFile name)
    | some bytes => (decode bytes).mapError (.fileNotUtf8 name)

/-- Messages for the user, a line each. -/
def reportText (ds : List Diagnostic) : String := String.join (ds.map fun d => d.text ++ "\n")

namespace Report

/-- A report without output. -/
def silent (code : Nat) (stderr : String) : Report := ⟨code, .empty, stderr, false⟩

/-- A report without messages. -/
def clean (stdout : String) : Report := ⟨0, stdout.toUTF8, "", false⟩

/-- The exit code when errors count. -/
def codeFor (errors : List LexicalError) : Nat := if errors.isEmpty then 0 else rejectedCode

/-- Lists the tokens of a source. -/
def tokenize (asRecords : Bool) (source : String) : Report :=
  let items := Item.scan source
  let tokens := items.filterMap Item.token?
  let errors := items.filterMap Item.error?
  let listing :=
    if asRecords then Token.listedAll tokens ++ "\n"
    else String.join (tokens.map fun t => t.listed ++ "\n")
  ⟨codeFor errors, listing.toUTF8, reportText (errors.map LexicalError.diagnostic), false⟩

/-- The report for a source that does not hold a single expression. -/
def rejected (lexical : List LexicalError) (grammar : List GrammarError) : Report :=
  silent rejectedCode <| reportText <|
    lexical.map LexicalError.diagnostic ++ grammar.map GrammarError.diagnostic

/-- Shows the single expression of a source in prefix form. -/
def parse (source : String) : Report :=
  let items := Item.scan source
  let lexical := items.filterMap Item.error?
  match Expr.read (items.filterMap Item.token?) with
  | .error es => rejected lexical es
  | .ok e => if lexical.isEmpty then clean (e.prefixForm ++ "\n") else rejected lexical []

/-- Evaluates the single expression of a source. -/
def evaluate (clock : Nat → Float) (fuel : Nat) (source : String) : Report :=
  match Evaluation.ofSource (.start clock none) fuel source with
  | .rejected lexical grammar => rejected lexical grammar
  | .unresolved es => silent rejectedCode (reportText (es.map ScopeError.diagnostic))
  | .evaluated v printed => ⟨0, printed ++ (v.text ++ "\n").toUTF8, "", false⟩
  | .failed fault printed =>
    ⟨failedCode, printed, reportText fault.diagnostic?.toList, false⟩

/-- Runs a program. -/
def run (clock : Nat → Float) (fuel : Nat) (source : String) : Report :=
  let outcome := ((Session.start clock none).step fuel .program source).1
  let code :=
    if outcome.isRejected then rejectedCode else if outcome.isFailed then failedCode else 0
  ⟨code, outcome.printed, reportText outcome.diagnostics, false⟩

end Report

/-- The lines of the input. A line ends with a line feed, which a carriage return may precede; the
last one may also end with the input. `line` holds what is read of the current line, the latest
byte first. -/
def inputLines (line : List UInt8) : List UInt8 → List (List UInt8)
  | [] => if line.isEmpty then [] else [line.reverse]
  | b :: bs =>
    if b = 10 then
      (match line with
        | 13 :: line => line.reverse
        | line => line.reverse) :: inputLines [] bs
    else inputLines (b :: line) bs

/-- The prompt in front of each line of an interactive session. -/
def prompt : String := "> "

/-- What one line of an interactive session prints, tells the user and leaves behind. -/
def Session.interact (s : Session) (fuel : Nat) (line : String) : ByteArray × String × Session :=
  if line.toList.all isBlank then (.empty, "", s)
  else
    let (outcome, s) := s.step fuel .interactive line
    let shown := match outcome.value? with
      | some value => (value ++ "\n").toUTF8
      | none => .empty
    (outcome.printed ++ shown, reportText outcome.diagnostics, s)

/-- An interactive session over the given lines, behind what was printed and told before. -/
def Report.interactive (fuel : Nat) (s : Session) (stdout : ByteArray) (stderr : String) :
    List (List UInt8) → Report
  | [] => ⟨0, stdout ++ (prompt ++ "\n").toUTF8, stderr, false⟩
  | bytes :: rest =>
    let stdout := stdout ++ prompt.toUTF8
    match decode ⟨bytes.toArray⟩ with
    | .error _ => ⟨unreadableCode, stdout, stderr ++ Unreadable.lineNotUtf8.message, false⟩
    | .ok line =>
      let (printed, told, s) := s.interact fuel line
      Report.interactive fuel s (stdout ++ printed) (stderr ++ told) rest

/-- Everything a command does. -/
def Invocation.report (i : Invocation) (clock : Nat → Float) (fuel : Nat) (w : Surroundings) :
    Report :=
  let report : Report :=
    match i.action with
    | .repl =>
      .interactive fuel (.start clock none) .empty "" (inputLines [] w.stdin.toList)
    | action =>
      match w.source i.file with
      | .error u => .silent unreadableCode u.message
      | .ok source =>
        match action with
        | .tokenize asRecords => .tokenize asRecords source
        | .parse => .parse source
        | .evaluate => .evaluate clock fuel source
        | .run | .repl => .run clock fuel source
  { report with log := i.log }

end LoxLang
