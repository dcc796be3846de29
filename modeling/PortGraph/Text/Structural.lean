/-!
# Structural texts

The one-line notation in which values show their parts: `Name { field: value, ... }` for records,
`Name(value, ...)` for tagged values, `[...]` for lists and `{key: value, ...}` for mappings.
The parts are texts already; this module only joins and quotes them.
-/

namespace PortGraph.Text

/-- The parts, separated by a comma and a blank. -/
def commaSeparated (parts : List String) : String :=
  String.intercalate ", " parts

/-- A record with named fields. -/
def record (name : String) (fields : List (String × String)) : String :=
  let parts := fields.map fun (field, value) => field ++ ": " ++ value
  name ++ " \x7b " ++ commaSeparated parts ++ " \x7d"

/-- A tagged value with unnamed parts. -/
def tagged (name : String) (parts : List String) : String :=
  name ++ "(" ++ commaSeparated parts ++ ")"

/-- A list of values. -/
def list (parts : List String) : String :=
  "[" ++ commaSeparated parts ++ "]"

/-- A mapping from keys to values. -/
def mapping (pairs : List (String × String)) : String :=
  "\x7b" ++ commaSeparated (pairs.map fun (key, value) => key ++ ": " ++ value) ++ "\x7d"

/-- A value that may be missing. -/
def optional : Option String → String
  | none => "None"
  | some value => tagged "Some" [value]

/-- One character of a quoted text. Quotes and backslashes are escaped, control characters have a
short escape or are written by their code in hexadecimal. Texts are expected to be ASCII; any other
character stands for itself. -/
def quotedChar (c : Char) : String :=
  if c = '"' then "\\\""
  else if c = '\\' then "\\\\"
  else if c = '\n' then "\\n"
  else if c = '\r' then "\\r"
  else if c = '\t' then "\\t"
  else if c.toNat = 0 then "\\0"
  else if c.toNat < 32 ∨ c.toNat = 127 then
    "\\u\x7b" ++ String.ofList (Nat.toDigits 16 c.toNat) ++ "\x7d"
  else c.toString

/-- A text between double quotes. -/
def quoted (s : String) : String :=
  "\"" ++ String.join (s.toList.map quotedChar) ++ "\""

end PortGraph.Text
