import JsonnetSyntax.Json.Basic

/-!
# Writing JSON

`Json.compact` writes a value on one line without blanks.  `Json.pretty` writes every item and every
field on a line of its own, indented by two blanks a level; empty arrays and objects stay on one
line.
-/

namespace JsonnetSyntax.Json

/-- A digit of a base up to sixteen. -/
def hexDigit (n : Nat) : Char := Nat.digitChar n

/-- A character inside a string: quotes, backslashes and control characters are escaped. -/
def escape (c : Char) : String :=
  match c with
  | '\x22' => "\\\""
  | '\x5c' => "\\\\"
  | '\x08' => "\\b"
  | '\t' => "\\t"
  | '\n' => "\\n"
  | '\x0c' => "\\f"
  | '\r' => "\\r"
  | c =>
    if c.toNat < 0x20 then
      "\\u00" ++ String.ofList [hexDigit (c.toNat / 16), hexDigit (c.toNat % 16)]
    else String.ofList [c]

/-- Appends a string in quotes to `out`. -/
def writeString (out : String) (value : String) : String :=
  (value.toList.foldl (fun out c => out ++ escape c) (out ++ "\"")) ++ "\""

mutual

/-- Appends a value on one line to `out`. -/
def writeCompact (out : String) : Json → String
  | .null => out ++ "null"
  | .bool value => out ++ (if value then "true" else "false")
  | .number literal => out ++ literal
  | .string value => writeString out value
  | .array items => writeCompactItems (out ++ "[") true items ++ "]"
  | .object fields => writeCompactFields (out ++ "\x7b") true fields ++ "\x7d"

/-- Appends the items of an array, with commas between them. -/
def writeCompactItems (out : String) (first : Bool) : List Json → String
  | [] => out
  | item :: items =>
    writeCompactItems (writeCompact (if first then out else out ++ ",") item) false items

/-- Appends the fields of an object, with commas between them. -/
def writeCompactFields (out : String) (first : Bool) : List (String × Json) → String
  | [] => out
  | (key, value) :: fields =>
    writeCompactFields
      (writeCompact (writeString (if first then out else out ++ ",") key ++ ":") value) false fields

end

/-- Appends a line feed and the indent of a level. -/
def newLine (out : String) (level : Nat) : String := (out ++ "\n").pushn ' ' (2 * level)

mutual

/-- Appends a value to `out`, its items and fields on lines of their own. -/
def writePretty (out : String) (level : Nat) : Json → String
  | .null => out ++ "null"
  | .bool value => out ++ (if value then "true" else "false")
  | .number literal => out ++ literal
  | .string value => writeString out value
  | .array [] => out ++ "[]"
  | .array (item :: items) =>
    newLine (writePrettyItems (writePretty (newLine (out ++ "[") (level + 1)) (level + 1) item)
      (level + 1) items) level ++ "]"
  | .object [] => out ++ "\x7b\x7d"
  | .object ((key, value) :: fields) =>
    newLine (writePrettyFields
      (writePretty (writeString (newLine (out ++ "\x7b") (level + 1)) key ++ ": ") (level + 1)
        value)
      (level + 1) fields) level ++ "\x7d"

/-- Appends further items, each behind a comma on a line of its own. -/
def writePrettyItems (out : String) (level : Nat) : List Json → String
  | [] => out
  | item :: items =>
    writePrettyItems (writePretty (newLine (out ++ ",") level) level item) level items

/-- Appends further fields, each behind a comma on a line of its own. -/
def writePrettyFields (out : String) (level : Nat) : List (String × Json) → String
  | [] => out
  | (key, value) :: fields =>
    writePrettyFields
      (writePretty (writeString (newLine (out ++ ",") level) key ++ ": ") level value) level fields

end

/-- A value on one line. -/
def compact (value : Json) : String := writeCompact "" value

/-- A value with its items and fields on lines of their own. -/
def pretty (value : Json) : String := writePretty "" 0 value

end JsonnetSyntax.Json
