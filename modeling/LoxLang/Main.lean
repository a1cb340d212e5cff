import Std.Time.DateTime.Timestamp
import LoxLang.Command

/-!
# The program

The command line itself: it reads the file or standard input, asks `Invocation.report` what the
command does, and does it. An interactive session goes on line by line instead, so that each line is
answered before the next is read.
-/

namespace LoxLang.Program

/-- Readings of the clock in seconds, from the given millisecond on; a thousand of them take a
millisecond. -/
def clockFrom (milliseconds : Nat) (reading : Nat) : Float :=
  Float.ofNat (milliseconds + reading / 1000) / 1000

/-- What a command finds: the one file it names, or else standard input. -/
def surroundings (file : Option String) : IO Surroundings := do
  match file with
  | none => return ⟨fun _ => none, ← (← IO.getStdin).readBinToEnd⟩
  | some name =>
    try
      let bytes ← IO.FS.readBinFile name
      return ⟨fun _ => some bytes, .empty⟩
    catch _ => return ⟨fun _ => none, .empty⟩

/-- Writes what a command printed and what it tells the user. -/
def deliver (stdout : ByteArray) (stderr : String) : IO Unit := do
  let out ← IO.getStdout
  out.write stdout
  out.flush
  IO.eprint stderr

/-- Reads on to the end of a line, whose bytes so far are given; the line feed is kept. -/
partial def readLine (input : IO.FS.Stream) (line : ByteArray) : IO ByteArray := do
  let next ← input.read 1
  if next.isEmpty then return line
  let line := line ++ next
  if next.toList = [10] then return line else readLine input line

/-- Answers the lines of an interactive session; returns the exit code. -/
partial def answerLines (input : IO.FS.Stream) (s : Session) : IO Nat := do
  deliver prompt.toUTF8 ""
  let bytes ← readLine input .empty
  match inputLines [] bytes.toList with
  | [] =>
    deliver "\n".toUTF8 ""
    return 0
  | line :: _ =>
    match Text.decode ⟨line.toArray⟩ with
    | .error _ =>
      deliver .empty Unreadable.lineNotUtf8.message
      return unreadableCode
    | .ok text =>
      let (printed, told, s) := s.interact ampleFuel text
      deliver printed told
      answerLines input s

/-- Runs the command the arguments ask for; returns the exit code. -/
def run (args : List String) : IO Nat := do
  match Invocation.ofArgs? args with
  | none =>
    IO.eprintln "usage: (tokenize [--json] | parse | evaluate | run) [FILE] | repl"
    return 2
  | some i =>
    if i.log then IO.FS.writeFile "app.log" ""
    let now ← Std.Time.Timestamp.now
    let clock := clockFrom now.toMillisecondsSinceUnixEpoch.toInt.toNat
    if i.action = .repl then answerLines (← IO.getStdin) (.start clock none)
    else
      let report := i.report clock ampleFuel (← surroundings i.file)
      deliver report.stdout report.stderr
      return report.code

end LoxLang.Program

/-- Runs the command and exits with its code. -/
def main (args : List String) : IO UInt32 := return .ofNat (← LoxLang.Program.run args)
