import CampaignControl.Binary64.Shortest
import CampaignControl.Json.Basic

/-!
# Writing JSON

`Json.pretty` writes a value over several lines, two blanks for each level, and `Json.compact`
on one line. Both write the characters in front of a text that follows, so that writing a
container is writing its parts from the last to the first.
-/

namespace CampaignControl
namespace Json

/-- A binary64 number has at least one place after the point, and an exponent below -5 or above
15 is written as such. -/
def numberLayout : Binary64.Layout :=
  { positional := fun e => -5 ≤ e && e ≤ 15, wholeEnd := true }

/-- The characters of a number. -/
def Number.text : Number → List Char
  | .whole n => (if n < 0 then ['-'] else []) ++ Nat.toDigits 10 n.natAbs
  | .binary x => x.text numberLayout

/-- A lower-case hexadecimal digit. -/
def hexDigit (n : Nat) : Char := Nat.digitChar n

/-- A character within a string: only the quote, the backslash and the characters below
U+0020 are escaped. -/
def escaped (c : Char) : List Char :=
  if c = '"' then ['\\', '"']
  else if c = '\\' then ['\\', '\\']
  else if c = '\x08' then ['\\', 'b']
  else if c = '\x0c' then ['\\', 'f']
  else if c = '\n' then ['\\', 'n']
  else if c = '\r' then ['\\', 'r']
  else if c = '\t' then ['\\', 't']
  else if c.toNat < 0x20 then
    ['\\', 'u', '0', '0', hexDigit (c.toNat / 16), hexDigit (c.toNat % 16)]
  else [c]

/-- A string in quotes, in front of `rest`. -/
def writeString (s : String) (rest : List Char) : List Char :=
  '"' :: s.toList.foldr (fun c acc => escaped c ++ acc) ('"' :: rest)

/-- How deep the value stands that is being written, or `none` on a single line. -/
abbrev Level := Option Nat

/-- The end of a line and the blanks that start the next one. -/
def newLine (level : Level) (rest : List Char) : List Char :=
  match level with
  | none => rest
  | some n => '\n' :: (List.replicate (2 * n) ' ' ++ rest)

/-- What stands between the name and the value of a field. -/
def colon (level : Level) (rest : List Char) : List Char :=
  match level with
  | none => ':' :: rest
  | some _ => ':' :: ' ' :: rest

mutual

/-- A value in front of `rest`. -/
def write (level : Level) : Json → List Char → List Char
  | .null, rest => 'n' :: 'u' :: 'l' :: 'l' :: rest
  | .bool true, rest => 't' :: 'r' :: 'u' :: 'e' :: rest
  | .bool false, rest => 'f' :: 'a' :: 'l' :: 's' :: 'e' :: rest
  | .number n, rest => n.text ++ rest
  | .string s, rest => writeString s rest
  | .array [], rest => '[' :: ']' :: rest
  | .array (j :: js), rest =>
    let inner := level.map (· + 1)
    '[' :: newLine inner (write inner j (writeItems inner js (newLine level (']' :: rest))))
  | .object [], rest => '{' :: '}' :: rest
  | .object ((k, j) :: fs), rest =>
    let inner := level.map (· + 1)
    '{' :: newLine inner (writeString k (colon level
      (write inner j (writeFields inner fs (newLine level ('}' :: rest))))))
termination_by structural j => j

/-- The items of an array after the first, each behind a comma. -/
def writeItems (level : Level) : List Json → List Char → List Char
  | [], rest => rest
  | j :: js, rest => ',' :: newLine level (write level j (writeItems level js rest))
termination_by structural js => js

/-- The fields of an object after the first, each behind a comma. -/
def writeFields (level : Level) : List (String × Json) → List Char → List Char
  | [], rest => rest
  | (k, j) :: fs, rest =>
    ',' :: newLine level (writeString k (colon level (write level j (writeFields level fs rest))))
termination_by structural fs => fs

end

/-- The value on lines of its own, two blanks for each level. -/
def pretty (j : Json) : String := String.ofList (write (some 0) j [])

/-- The value on a single line. -/
def compact (j : Json) : String := String.ofList (write none j [])

end Json
end CampaignControl
