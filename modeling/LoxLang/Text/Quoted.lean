/-!
# Quoted text

`quoted` writes a text between double quotes as data files do: a quote, a backslash and the control
characters below the space are escaped, everything else stands as it is.
-/

namespace LoxLang.Text

/-- A hexadecimal digit, in lower case. -/
def hexDigit (n : Nat) : Char := Nat.digitChar (n % 16)

/-- How a character is written inside quotes. -/
def escaped (c : Char) : List Char :=
  if c = '"' then ['\\', '"']
  else if c = '\\' then ['\\', '\\']
  else if c = '\x08' then ['\\', 'b']
  else if c = '\x0c' then ['\\', 'f']
  else if c = '\n' then ['\\', 'n']
  else if c = '\r' then ['\\', 'r']
  else if c = '\t' then ['\\', 't']
  else if c.toNat < 32 then ['\\', 'u', '0', '0', hexDigit (c.toNat / 16), hexDigit c.toNat]
  else [c]

/-- The text between quotes. -/
def quoted (s : String) : String := "\"" ++ String.ofList (s.toList.flatMap escaped) ++ "\""

/-- The items separated by single spaces. -/
def spaced (items : List String) : String := " ".intercalate items

/-- The items separated by single spaces and put in parentheses. -/
def parens (items : List String) : String := "(" ++ spaced items ++ ")"

end LoxLang.Text
