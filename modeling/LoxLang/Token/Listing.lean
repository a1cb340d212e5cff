import LoxLang.Number.Text
import LoxLang.Text.Quoted
import LoxLang.Token

/-!
# Listings of tokens

`Token.listed` is the line a token takes in a listing: its kind, its lexeme and its literal value.
`Token.listedAll` is the same for a whole list as an indented array of records.
-/

namespace LoxLang.Token

open Text

/-- The literal value in a listing. -/
def literalText (t : Token) : String :=
  match t.kind with
  | .string contents => contents
  | .number value => Binary64.printPoint value
  | _ => "null"

/-- The line of a token in a listing. -/
def listed (t : Token) : String := spaced [t.kind.name, t.lexeme, t.literalText]

/-- The kind of a token as the value of a field; a literal is a record of its own. -/
def kindField (t : Token) : String :=
  let record (value : String) :=
    "\x7b\n      " ++ quoted t.kind.name ++ ": " ++ value ++ "\n    \x7d"
  match t.kind with
  | .string contents => record (quoted contents)
  | .number value => record ((Binary64.printExponent? value).getD "null")
  | kind => quoted kind.name

/-- A token as a record of three fields. -/
def record (t : Token) : String :=
  "  \x7b\n    \"token_type\": " ++ t.kindField ++ ",\n    \"lexeme\": " ++ quoted t.lexeme ++
    ",\n    \"line\": " ++ toString t.line ++ "\n  \x7d"

/-- The tokens as an indented array. -/
def listedAll (tokens : List Token) : String :=
  if tokens.isEmpty then "[]"
  else "[\n" ++ ",\n".intercalate (tokens.map record) ++ "\n]"

end LoxLang.Token
