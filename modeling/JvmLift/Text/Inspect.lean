import JvmLift.Text.Printable

namespace JvmLift.Text

-- Lower-case hexadecimal digits without padding.
def hex (n : Nat) : String :=
  String.ofList (Nat.toDigits 16 n)

-- Hexadecimal digits, padded with zeros on the left up to a width.
def hexPadded (width n : Nat) : String :=
  let digits := Nat.toDigits 16 n
  String.ofList (List.replicate (width - digits.length) '0' ++ digits)

-- A character inside a text quoted for a diagnostic.
def inspectChar (c : Char) : String :=
  if c = '\x00' then "\\0"
  else if c = '\t' then "\\t"
  else if c = '\r' then "\\r"
  else if c = '\n' then "\\n"
  else if c = '\\' then "\\\\"
  else if c = '"' then "\\\""
  else if isPrintable c then c.toString
  else "\\u\x7b" ++ hex c.toNat ++ "\x7d"

-- A text quoted for a diagnostic: everything unprintable is written as an escape.
def inspect (text : String) : String :=
  "\"" ++ String.join (text.toList.map inspectChar) ++ "\""

-- The elements of a list, each written already, in brackets.
def inspectList (elements : List String) : String :=
  "[" ++ ", ".intercalate elements ++ "]"

end JvmLift.Text
