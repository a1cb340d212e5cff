import LoxLang.Number.Binary64
import LoxLang.Token

/-!
# Cutting a source into tokens

`cut` splits a source into consecutive pieces: tokens, blanks (white space and comments), stray
characters that begin no token, and a string that is never closed. `front` says what stands at the
front of a source and how far it reaches: a piece takes that many characters and cutting goes on
with the rest, so no character is lost (`flatMap_text_cut`). `items` then gives every token and
every error the line on which its piece ends and closes with the end mark.
-/

namespace LoxLang

/-- Why a piece of source is no token. -/
inductive LexicalCause
  | unexpected (c : Char)
  | unterminatedString
deriving DecidableEq

/-- The message of a lexical error. -/
def LexicalCause.message : LexicalCause → String
  | .unexpected c => "Unexpected character: " ++ c.toString
  | .unterminatedString => "Unterminated string."

/-- A lexical error and the line on which its piece ends. -/
structure LexicalError where
  line : Nat
  cause : LexicalCause
deriving DecidableEq

/-- What a piece of source is. -/
inductive Shape
  | token (kind : Kind)
  | blank
  | fault (cause : LexicalCause)
deriving DecidableEq

/-- A stretch of source. -/
structure Piece where
  shape : Shape
  text : List Char
deriving DecidableEq

namespace Piece

/-- White space. -/
def isSpace (c : Char) : Bool := c = ' ' ∨ c = '\r' ∨ c = '\t' ∨ c = '\n'

/-- A character that begins a word. -/
def isWordStart (c : Char) : Bool := c.isAlpha ∨ c = '_'

/-- A character that continues a word. -/
def isWordPart (c : Char) : Bool := c.isAlphanum ∨ c = '_'

/-- The kinds of tokens of one character that begin no longer token. -/
def single? : Char → Option Kind
  | '(' => some .leftParen
  | ')' => some .rightParen
  | '{' => some .leftBrace
  | '}' => some .rightBrace
  | ',' => some .comma
  | '.' => some .dot
  | '-' => some .minus
  | '+' => some .plus
  | ';' => some .semicolon
  | '*' => some .star
  | _ => none

/-- The kinds of an operator character alone and followed by an equals sign. -/
def operator? : Char → Option (Kind × Kind)
  | '!' => some (.bang, .bangEqual)
  | '=' => some (.equal, .equalEqual)
  | '<' => some (.less, .lessEqual)
  | '>' => some (.greater, .greaterEqual)
  | _ => none

/-- How far a block comment reaches after its opening: through the first closing, or to the end of
the source. -/
def commentLength (seen : Nat) : List Char → Nat
  | '*' :: '/' :: _ => seen + 2
  | _ :: cs => commentLength (seen + 1) cs
  | [] => seen

/-- The number written by a run of digits. -/
def natOfDigits (digits : List Char) : Nat :=
  digits.foldl (fun n c => 10 * n + (c.toNat - '0'.toNat)) 0

/-- The fraction digits behind the whole part of a numeral: a point counts only in front of a
digit. -/
def fraction : List Char → List Char
  | '.' :: cs => cs.takeWhile Char.isDigit
  | _ => []

/-- The numeral at the front of a source: its value, and the characters behind the first digit. -/
def numeral (c : Char) (cs : List Char) : Float × Nat :=
  let whole := cs.takeWhile Char.isDigit
  let places := fraction (cs.dropWhile Char.isDigit)
  (Binary64.ofDecimal (natOfDigits (c :: whole ++ places)) places.length,
    if places.isEmpty then whole.length else whole.length + 1 + places.length)

/-- What stands at the front of the source `c :: cs`, and how many characters of `cs` belong to
it. The longest token wins. -/
def front (c : Char) (cs : List Char) : Shape × Nat :=
  if isSpace c then (.blank, 0)
  else if let some kind := single? c then (.token kind, 0)
  else if let some (alone, withEqual) := operator? c then
    if cs.head? = some '=' then (.token withEqual, 1) else (.token alone, 0)
  else if c = '/' then
    match cs with
    | '/' :: rest => (.blank, 1 + (rest.takeWhile (· ≠ '\n')).length)
    | '*' :: rest => (.blank, 1 + commentLength 0 rest)
    | _ => (.token .slash, 0)
  else if c = '"' then
    let contents := cs.takeWhile (· ≠ '"')
    if contents.length < cs.length then
      (.token (.string (String.ofList contents)), contents.length + 1)
    else (.fault .unterminatedString, contents.length)
  else if c.isDigit then
    let (value, more) := numeral c cs
    (.token (.number value), more)
  else if isWordStart c then
    let more := cs.takeWhile isWordPart
    (.token (Kind.ofWord (String.ofList (c :: more))), more.length)
  else (.fault (.unexpected c), 0)

/-- The pieces of a source, in order. -/
def cut : List Char → List Piece
  | [] => []
  | c :: cs =>
    let (shape, more) := front c cs
    ⟨shape, c :: cs.take more⟩ :: cut (cs.drop more)
termination_by cs => cs.length
decreasing_by simp only [List.length_drop, List.length_cons]; omega

/-- The pieces of a source put together are the source. -/
theorem flatMap_text_cut (source : List Char) : (cut source).flatMap text = source := by
  fun_induction cut source with
  | case1 => rfl
  | case2 c cs shape more _ ih => simp [ih]

end Piece

/-- A token of a source or an error in it. -/
inductive Item
  | token (token : Token)
  | error (error : LexicalError)
deriving DecidableEq

/-- The item a piece that ends on the given line gives rise to; blanks give none. -/
def Piece.item? (line : Nat) (p : Piece) : Option Item :=
  match p.shape with
  | .token kind => some (.token ⟨kind, String.ofList p.text, line⟩)
  | .blank => none
  | .fault cause => some (.error ⟨line, cause⟩)

/-- The items of consecutive pieces, the first of which begins on the given line. -/
def Piece.items (line : Nat) : List Piece → List Item
  | [] => [.token (.endMark line)]
  | p :: ps =>
    let line := line + p.text.count '\n'
    (p.item? line).toList ++ Piece.items line ps

namespace Item

/-- The items of a source in order, the end mark last. -/
def scan (source : String) : List Item := Piece.items 1 (Piece.cut source.toList)

/-- The token an item is. -/
def token? : Item → Option Token
  | .token t => some t
  | .error _ => none

/-- The error an item is. -/
def error? : Item → Option LexicalError
  | .token _ => none
  | .error e => some e

end Item

/-- The tokens of a source, the end mark last. -/
def Token.scan (source : String) : List Token := (Item.scan source).filterMap Item.token?

/-- The lexical errors of a source. -/
def LexicalError.scan (source : String) : List LexicalError :=
  (Item.scan source).filterMap Item.error?

end LoxLang
