import CampaignControl.Time.Instant

/-!
# The text of a point in time

`Timestamp.text` writes a timestamp in the form of RFC 3339, in Coordinated Universal Time with
`Z`, and with as many places after the second as are needed out of 0, 3, 6 and 9. A year
outside of 0 to 9999 has a sign. A leap second is the second after the one that it follows, which is
another's name except at the end of a minute.

`Instant.read?` takes any offset and is lenient in other ways: numbers may lack their leading
zeros, blanks may stand between the parts, the `T` may be lower case or a blank, places beyond
the ninth are dropped, and the offset may be `UTC`, may lack its colon, or may have U+2212 as
its sign.
-/

namespace CampaignControl
namespace Timestamp

/-! ## Writing -/

/-- At least so many digits, with zeros in front. -/
def padded (width n : Nat) : List Char :=
  let digits := Nat.toDigits 10 n
  List.replicate (width - digits.length) '0' ++ digits

/-- The year, with a sign when it has not four digits. -/
def yearText (year : Int) : List Char :=
  if 0 ≤ year ∧ year ≤ 9999 then padded 4 year.toNat
  else (if year < 0 then '-' else '+') :: padded 4 year.natAbs

/-- The places after the second. -/
def placesText (nano : Nat) : List Char :=
  if nano = 0 then []
  else if nano % 1_000_000 = 0 then '.' :: padded 3 (nano / 1_000_000)
  else if nano % 1_000 = 0 then '.' :: padded 6 (nano / 1_000)
  else '.' :: padded 9 nano

/-- The characters of a timestamp. At the end of a minute, a leap second is its second 60. -/
def chars (t : Timestamp) : List Char :=
  let date := t.date
  let ofDay := t.secondOfDay
  let (second, nano) :=
    if t.inLeapSecond then (ofDay % 60 + 1, t.nano - 1_000_000_000) else (ofDay % 60, t.nano)
  yearText date.year ++ '-' :: padded 2 date.month ++ '-' :: padded 2 date.day ++
    'T' :: padded 2 (ofDay / 3600) ++ ':' :: padded 2 (ofDay / 60 % 60) ++
    ':' :: padded 2 second ++ placesText nano ++ ['Z']

/-- The text of a timestamp. -/
def text (t : Timestamp) : String := String.ofList t.chars

end Timestamp

/-! ## Blanks -/

/-- Whether a character has the White_Space property. -/
def isBlank (c : Char) : Bool :=
  let n := c.toNat
  (0x09 ≤ n && n ≤ 0x0D) || n = 0x20 || n = 0x85 || n = 0xA0 || n = 0x1680 ||
    (0x2000 ≤ n && n ≤ 0x200A) || n = 0x2028 || n = 0x2029 || n = 0x202F || n = 0x205F ||
    n = 0x3000

/-- The text without the blanks in front of it. -/
def trimStart (cs : List Char) : List Char := cs.dropWhile isBlank

/-- The text without the blanks at its ends. -/
def trim (cs : List Char) : List Char := (trimStart (trimStart cs).reverse).reverse

/-! ## Reading -/

namespace Instant

/-- A number of at least one and at most so many digits. -/
def readNumber (most : Nat) (cs : List Char) : Option (Nat × List Char) :=
  let digits := (cs.take most).takeWhile Char.isDigit
  if digits.isEmpty then none
  else some (digits.foldl (fun n c => 10 * n + (c.toNat - '0'.toNat)) 0, cs.drop digits.length)

/-- A year: up to four digits, or a sign and any number of them. -/
def readYear : List Char → Option (Int × List Char)
  | '-' :: cs => (readNumber cs.length cs).map fun (n, cs) => (-(n : Int), cs)
  | '+' :: cs => (readNumber cs.length cs).map fun (n, cs) => ((n : Int), cs)
  | cs => (readNumber 4 cs).map fun (n, cs) => ((n : Int), cs)

/-- The character that has to stand here, after blanks. -/
def readMark (mark : Char) (cs : List Char) : Option (List Char) :=
  match trimStart cs with
  | c :: rest => if c = mark then some rest else none
  | [] => none

/-- The nanoseconds after the second, if a point stands here. -/
def readPlaces : List Char → Option (Nat × List Char)
  | '.' :: cs => do
    let (n, rest) ← readNumber 9 cs
    some (n * Nat.pow 10 (9 - (cs.length - rest.length)), rest.dropWhile Char.isDigit)
  | cs => some (0, cs)

/-- The two digits that stand here. -/
def readPair : List Char → Option (Nat × List Char)
  | a :: b :: rest =>
    if a.isDigit && b.isDigit then
      some (10 * (a.toNat - '0'.toNat) + (b.toNat - '0'.toNat), rest)
    else none
  | _ => none

/-- The offset from Coordinated Universal Time in seconds. -/
def readOffset (cs : List Char) : Option (Int × List Char) :=
  match cs with
  | a :: b :: c :: rest =>
    if a.toUpper = 'U' ∧ b.toUpper = 'T' ∧ c.toUpper = 'C' then some (0, rest) else signed cs
  | cs => signed cs
where
  /-- `Z`, or a sign, hours and minutes. -/
  signed : List Char → Option (Int × List Char)
    | [] => none
    | c :: rest =>
      if c = 'Z' ∨ c = 'z' then some (0, rest)
      else if c = '+' then hours rest
      else if c = '-' ∨ c = '\u2212' then (hours rest).map fun (n, rest) => (-n, rest)
      else none
  /-- Two digits for the hours and two for the minutes, with colons or blanks between. -/
  hours (cs : List Char) : Option (Int × List Char) := do
    let (h, cs) ← readPair cs
    let (m, cs) ← readPair (cs.dropWhile fun c => c = ':' || isBlank c)
    if m < 60 then some ((h * 3600 + m * 60 : Nat), cs) else none

/-- The instant that a text denotes. -/
def read? (text : String) : Option Instant := do
  let (year, cs) ← readYear (trimStart text.toList)
  let (month, cs) ← readNumber 2 (trimStart (← readMark '-' cs))
  let (day, cs) ← readNumber 2 (trimStart (← readMark '-' cs))
  let cs ← match cs with
    | c :: rest => if c = 'T' ∨ c = 't' ∨ c = ' ' then some rest else none
    | [] => none
  let (hour, cs) ← readNumber 2 (trimStart cs)
  let (minute, cs) ← readNumber 2 (trimStart (← readMark ':' cs))
  let (second, cs) ← readNumber 2 (trimStart (← readMark ':' cs))
  let (nano, cs) ← readPlaces cs
  let (offset, cs) ← readOffset (trimStart cs)
  let date : Date := { year, month, day }
  let leap := second = 60
  let second := if leap then 59 else second
  let local? := at? (date.number * 86400 + (hour * 3600 + minute * 60 + second : Nat)) 0
  if date.Exists ∧ hour < 24 ∧ minute < 60 ∧ second < 60 ∧ -86400 < offset ∧ offset < 86400 ∧
      (trimStart cs).isEmpty then do
    let here ← local?
    at? (here.second - offset) (if leap then nano + 1_000_000_000 else nano)
  else none

end Instant
end CampaignControl
