/-!
# Object identities

A `Uid` is a number that is written as 32 hexadecimal digits in groups of 8, 4, 4, 4 and 12.
`Uid.read?` also takes the digits without hyphens, in braces, or behind `urn:uuid:`, and digits
of either case.

`Uid.issued n` is the identity that a store gives to the `n`-th object it creates; different
numbers give different identities.
-/

namespace CampaignControl

/-- The identity of an object. -/
structure Uid where
  value : Nat
  deriving DecidableEq, Repr, Inhabited

namespace Uid

/-- The identity that is all zeros. -/
def nil : Uid := ⟨0⟩

/-- The identity with this number in a store's own sequence. -/
def issued (n : Nat) : Uid := ⟨0x00000000000070008000000000000000 + n⟩

theorem issued_inj {m n : Nat} : issued m = issued n ↔ m = n := by simp [issued]

/-- The 32 hexadecimal digits. -/
def digits (uid : Uid) : List Char :=
  let written := Nat.toDigits 16 uid.value
  List.replicate (32 - written.length) '0' ++ written

/-- The digits in groups, with hyphens between. -/
def text (uid : Uid) : String :=
  let ds := uid.digits
  let group (start size : Nat) := (ds.drop start).take size
  String.ofList (group 0 8 ++ '-' :: group 8 4 ++ '-' :: group 12 4 ++ '-' :: group 16 4 ++
    '-' :: ds.drop 20)

/-- The value of a hexadecimal digit. -/
def digit? (c : Char) : Option Nat :=
  if '0' ≤ c ∧ c ≤ '9' then some (c.toNat - '0'.toNat)
  else if 'a' ≤ c ∧ c ≤ 'f' then some (c.toNat - 'a'.toNat + 10)
  else if 'A' ≤ c ∧ c ≤ 'F' then some (c.toNat - 'A'.toNat + 10)
  else none

/-- The identity with these digits. -/
def ofDigits? (cs : List Char) : Option Uid :=
  if cs.length = 32 then
    (cs.mapM digit?).map fun ds => ⟨ds.foldl (fun n d => 16 * n + d) 0⟩
  else none

/-- The identity with digits in groups of 8, 4, 4, 4 and 12. -/
def ofGroups? (cs : List Char) : Option Uid :=
  if cs.length = 36 ∧ [8, 13, 18, 23].all (fun i => cs[i]? = some '-') then
    ofDigits? (cs.filter (· ≠ '-'))
  else none

/-- The identity that a text denotes. -/
def read? (text : String) : Option Uid :=
  match text.toList with
  | '\x7b' :: cs => if cs.getLast? = some '\x7d' then ofGroups? cs.dropLast else none
  | 'u' :: 'r' :: 'n' :: ':' :: 'u' :: 'u' :: 'i' :: 'd' :: ':' :: cs => ofGroups? cs
  | cs => if cs.length = 32 then ofDigits? cs else ofGroups? cs

end Uid
end CampaignControl
