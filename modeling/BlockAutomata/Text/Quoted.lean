/-
  Quoted text, as it appears in descriptions of values.

  A quote and a backslash get a backslash in front; tab, line feed, carriage return and the null
  character are written by letter; every other character that does not show is written by its number
  in hexadecimal.
-/
import BlockAutomata.Text.Visible

namespace BlockAutomata.Text

private def hexDigits (n : Nat) : String := String.ofList (Nat.toDigits 16 n)

/-- How a character is written inside quotes. -/
def quotedChar (c : Char) : String :=
  if c = '"' then "\\\""
  else if c = '\\' then "\\\\"
  else if c = '\t' then "\\t"
  else if c = '\n' then "\\n"
  else if c = '\r' then "\\r"
  else if c.toNat = 0 then "\\0"
  else if shows c then c.toString
  else "\\u\x7b" ++ hexDigits c.toNat ++ "\x7d"

/-- The text in quotes. -/
def quoted (s : String) : String := "\"" ++ String.join (s.toList.map quotedChar) ++ "\""

/-- A list of channel names. -/
def channelNames (names : List String) : String :=
  "[" ++ ", ".intercalate (names.map fun n => "StateName(" ++ quoted n ++ ")") ++ "]"

/-- A value described by its kind and its fields. -/
def described (kind : String) (fields : List (String × String)) : String :=
  kind ++ " \x7b " ++ ", ".intercalate (fields.map fun f => f.1 ++ ": " ++ f.2) ++ " \x7d"

end BlockAutomata.Text
