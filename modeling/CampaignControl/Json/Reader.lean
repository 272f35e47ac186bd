import CampaignControl.Json.Literal

/-!
# Reading JSON

`Json.read` reads one value with blanks around it. A text that is refused is either `truncated`,
when it ends where more was needed, or `malformed`. Values may be nested in at most
`maxDepth` containers. Of several fields with one name the last one counts.

The readers take the characters that are left and answer what they read and what is left
after it. Their `fuel` bounds the number of steps; `Json.read` gives two for each character and
a few more, which is never too little, because at least every second step takes a character.
-/

namespace CampaignControl
namespace Json

/-- Why a text is not a JSON document. -/
inductive Fault where
  /-- The text ends inside a value, or before one. -/
  | truncated
  /-- What stands there cannot stand there. -/
  | malformed
  deriving DecidableEq, Repr, Inhabited

/-- What a reader answers: what it read and the characters left. -/
abbrev Reading (α : Type) := Except Fault (α × List Char)

/-- How deep containers may be nested. -/
def maxDepth : Nat := 127

/-- The four blanks of JSON. -/
def isBlank (c : Char) : Bool := c = ' ' || c = '\t' || c = '\n' || c = '\r'

def skipBlanks (cs : List Char) : List Char := cs.dropWhile isBlank

/-- The fault at this place: the text has ended, or it goes on with the wrong character. -/
def faultAt : List Char → Fault
  | [] => .truncated
  | _ :: _ => .malformed

/-- Takes the given characters. -/
def expect : List Char → List Char → Reading Unit
  | [], cs => .ok ((), cs)
  | e :: es, cs =>
    match cs with
    | [] => .error .truncated
    | c :: rest => if c = e then expect es rest else .error .malformed

/-! ## Numbers -/

/-- The exponent of a number, if one stands here. -/
def exponentPart (cs : List Char) : Reading (Option (Bool × List Char)) :=
  match cs with
  | c :: rest =>
    if c = 'e' || c = 'E' then
      let (negative, rest) := match rest with
        | '+' :: rest => (false, rest)
        | '-' :: rest => (true, rest)
        | rest => (false, rest)
      let digits := rest.takeWhile Char.isDigit
      if digits.isEmpty then .error (faultAt rest)
      else .ok (some (negative, digits), rest.dropWhile Char.isDigit)
    else .ok (none, cs)
  | [] => .ok (none, cs)

/-- The digits after the point of a number, if a point stands here. -/
def fractionPart (cs : List Char) : Reading (Option (List Char)) :=
  match cs with
  | '.' :: rest =>
    let digits := rest.takeWhile Char.isDigit
    if digits.isEmpty then .error (faultAt rest)
    else .ok (some digits, rest.dropWhile Char.isDigit)
  | cs => .ok (none, cs)

/-- The digits before the point: a single zero, or digits that do not start with zero. -/
def wholePart (cs : List Char) : Reading (List Char) :=
  let digits := cs.takeWhile Char.isDigit
  if digits.isEmpty then .error (faultAt cs)
  else if 1 < digits.length ∧ digits.head? = some '0' then .error .malformed
  else .ok (digits, cs.dropWhile Char.isDigit)

/-- A number without its sign. -/
def numberBody (negative : Bool) (cs : List Char) : Except Fault (Number × List Char) := do
  let (whole, cs) ← wholePart cs
  let (fraction, cs) ← fractionPart cs
  let (exponent, cs) ← exponentPart cs
  match Literal.number { negative, whole, fraction, exponent } with
  | some n => .ok (n, cs)
  | none => .error .malformed

/-! ## Strings -/

/-- The value of a hexadecimal digit. -/
def hexDigit? (c : Char) : Option Nat :=
  if '0' ≤ c ∧ c ≤ '9' then some (c.toNat - '0'.toNat)
  else if 'a' ≤ c ∧ c ≤ 'f' then some (c.toNat - 'a'.toNat + 10)
  else if 'A' ≤ c ∧ c ≤ 'F' then some (c.toNat - 'A'.toNat + 10)
  else none

/-- The number of bytes that the characters take in UTF-8. -/
def byteCount (cs : List Char) : Nat := cs.foldl (fun n c => n + c.utf8Size) 0

/-- Four hexadecimal digits. The text counts as truncated when fewer than four bytes are
left, whatever they are. -/
def hexUnit (cs : List Char) : Reading Nat :=
  let fault : Fault := if byteCount cs < 4 then .truncated else .malformed
  match cs with
  | a :: b :: c :: d :: rest =>
    match hexDigit? a, hexDigit? b, hexDigit? c, hexDigit? d with
    | some a, some b, some c, some d => .ok (((a * 16 + b) * 16 + c) * 16 + d, rest)
    | _, _, _, _ => .error fault
  | _ => .error fault

/-- The character of a `\u` escape, whose first four digits are read here; a leading
surrogate needs a second escape with a trailing one. -/
def unicodeEscape (cs : List Char) : Except Fault (Char × List Char) := do
  let (unit, cs) ← hexUnit cs
  if 0xDC00 ≤ unit ∧ unit ≤ 0xDFFF then .error .malformed
  else if unit < 0xD800 ∨ 0xDBFF < unit then .ok (Char.ofNat unit, cs)
  else
    let ((), cs) ← expect ['\\', 'u'] cs
    let (trail, cs) ← hexUnit cs
    if trail < 0xDC00 ∨ 0xDFFF < trail then .error .malformed
    else .ok (Char.ofNat ((unit - 0xD800) * 0x400 + (trail - 0xDC00) + 0x10000), cs)

/-- The character of an escape, after the backslash. -/
def escape : List Char → Reading Char
  | [] => .error .truncated
  | '"' :: cs => .ok ('"', cs)
  | '\\' :: cs => .ok ('\\', cs)
  | '/' :: cs => .ok ('/', cs)
  | 'b' :: cs => .ok ('\x08', cs)
  | 'f' :: cs => .ok ('\x0c', cs)
  | 'n' :: cs => .ok ('\n', cs)
  | 'r' :: cs => .ok ('\r', cs)
  | 't' :: cs => .ok ('\t', cs)
  | 'u' :: cs => unicodeEscape cs
  | _ :: _ => .error .malformed

/-- The rest of a string, up to and with its closing quote; `acc` holds what was read before,
the last character first. -/
def stringBody : Nat → List Char → List Char → Reading String
  | 0, _, _ => .error .truncated
  | _ + 1, _, [] => .error .truncated
  | fuel + 1, acc, c :: cs =>
    if c = '"' then .ok (String.ofList acc.reverse, cs)
    else if c = '\\' then
      match escape cs with
      | .ok (e, cs) => stringBody fuel (e :: acc) cs
      | .error fault => .error fault
    else if c.toNat < 0x20 then .error .malformed
    else stringBody fuel (c :: acc) cs

/-! ## Values -/

/-- The name of a field and its colon; the blanks before the name are already taken. -/
def fieldName (fuel : Nat) : List Char → Except Fault (String × List Char)
  | '"' :: cs => do
    let (name, cs) ← stringBody fuel [] cs
    let ((), cs) ← expect [':'] (skipBlanks cs)
    .ok (name, cs)
  | cs => .error (faultAt cs)

mutual

/-- A value, in which containers may be nested `depth` deep. -/
def value : Nat → Nat → List Char → Except Fault (Json × List Char)
  | 0, _, _ => .error .truncated
  | fuel + 1, depth, cs =>
    match skipBlanks cs with
    | 'n' :: cs => do let ((), cs) ← expect ['u', 'l', 'l'] cs; .ok (.null, cs)
    | 't' :: cs => do let ((), cs) ← expect ['r', 'u', 'e'] cs; .ok (.bool true, cs)
    | 'f' :: cs => do let ((), cs) ← expect ['a', 'l', 's', 'e'] cs; .ok (.bool false, cs)
    | '-' :: cs => do let (n, cs) ← numberBody true cs; .ok (.number n, cs)
    | '"' :: cs => do let (s, cs) ← stringBody fuel [] cs; .ok (.string s, cs)
    | '[' :: cs =>
      match depth with
      | 0 => .error .malformed
      | depth + 1 =>
        match skipBlanks cs with
        | ']' :: cs => .ok (.array [], cs)
        | cs => items fuel depth [] cs
    | '{' :: cs =>
      match depth with
      | 0 => .error .malformed
      | depth + 1 =>
        match skipBlanks cs with
        | '}' :: cs => .ok (.object [], cs)
        | cs => fields fuel depth [] cs
    | c :: cs =>
      if c.isDigit then do let (n, cs) ← numberBody false (c :: cs); .ok (.number n, cs)
      else .error .malformed
    | [] => .error .truncated

/-- An item of an array and all that follows it in the array; `acc` holds the items before it,
the last one first. -/
def items : Nat → Nat → List Json → List Char → Reading Json
  | 0, _, _, _ => .error .truncated
  | fuel + 1, depth, acc, cs =>
    match value fuel depth cs with
    | .error fault => .error fault
    | .ok (item, cs) =>
      match skipBlanks cs with
      | ']' :: cs => .ok (.array (item :: acc).reverse, cs)
      | ',' :: cs =>
        match skipBlanks cs with
        | ']' :: _ => .error .malformed
        | cs => items fuel depth (item :: acc) cs
      | cs => .error (faultAt cs)

/-- A field of an object and all that follows it in the object; `acc` holds the fields before
it. -/
def fields : Nat → Nat → List (String × Json) → List Char → Reading Json
  | 0, _, _, _ => .error .truncated
  | fuel + 1, depth, acc, cs =>
    match fieldName fuel (skipBlanks cs) with
    | .error fault => .error fault
    | .ok (name, cs) =>
      match value fuel depth cs with
      | .error fault => .error fault
      | .ok (item, cs) =>
        let acc := Keyed.insert name item acc
        match skipBlanks cs with
        | '}' :: cs => .ok (.object acc, cs)
        | ',' :: cs => fields fuel depth acc cs
        | cs => .error (faultAt cs)

end

/-- The value that a text of JSON denotes. -/
def read (text : String) : Except Fault Json := do
  let cs := text.toList
  let (j, rest) ← value (2 * cs.length + 4) maxDepth cs
  match skipBlanks rest with
  | [] => .ok j
  | _ :: _ => .error .malformed

end Json
end CampaignControl
