import CampaignControl.Binary64
import CampaignControl.Keyed

/-!
# JSON values

A JSON value with numbers that are either whole and exact or binary64, and with objects as
keyed lists (`Keyed`). Every operation of this library that builds an object leaves its keys in
ascending order, so equal objects are equal lists; `Json.Canonical` says this of a value all the
way down.
-/

namespace CampaignControl

/-- A JSON number. A value that is read from text is `whole` exactly when it is written without
fraction and exponent, is not `-0`, and lies between `-2 ^ 63` and `2 ^ 64 - 1`. -/
inductive Json.Number where
  | whole (value : Int)
  | binary (value : Binary64)
  deriving DecidableEq, Repr, Inhabited

/-- A JSON value. -/
inductive Json where
  | null
  | bool (value : Bool)
  | number (value : Json.Number)
  | string (value : String)
  | array (items : List Json)
  | object (fields : List (String × Json))
  deriving Repr, Inhabited

namespace Json

mutual

/-- Decides equality of values. -/
def decEq : (a b : Json) → Decidable (a = b)
  | .null, .null => isTrue rfl
  | .bool a, .bool b =>
    if h : a = b then isTrue (h ▸ rfl) else isFalse fun e => h (Json.bool.inj e)
  | .number a, .number b =>
    if h : a = b then isTrue (h ▸ rfl) else isFalse fun e => h (Json.number.inj e)
  | .string a, .string b =>
    if h : a = b then isTrue (h ▸ rfl) else isFalse fun e => h (Json.string.inj e)
  | .array a, .array b =>
    match decEqItems a b with
    | isTrue h => isTrue (h ▸ rfl)
    | isFalse h => isFalse fun e => h (Json.array.inj e)
  | .object a, .object b =>
    match decEqFields a b with
    | isTrue h => isTrue (h ▸ rfl)
    | isFalse h => isFalse fun e => h (Json.object.inj e)
  | .null, .bool _ | .null, .number _ | .null, .string _ | .null, .array _ | .null, .object _
  | .bool _, .null | .bool _, .number _ | .bool _, .string _ | .bool _, .array _
  | .bool _, .object _ | .number _, .null | .number _, .bool _ | .number _, .string _
  | .number _, .array _ | .number _, .object _ | .string _, .null | .string _, .bool _
  | .string _, .number _ | .string _, .array _ | .string _, .object _ | .array _, .null
  | .array _, .bool _ | .array _, .number _ | .array _, .string _ | .array _, .object _
  | .object _, .null | .object _, .bool _ | .object _, .number _ | .object _, .string _
  | .object _, .array _ => isFalse nofun

/-- Decides equality of the items of two arrays. -/
def decEqItems : (a b : List Json) → Decidable (a = b)
  | [], [] => isTrue rfl
  | [], _ :: _ | _ :: _, [] => isFalse nofun
  | a :: as, b :: bs =>
    match decEq a b, decEqItems as bs with
    | isTrue h, isTrue h' => isTrue (h ▸ h' ▸ rfl)
    | isFalse h, _ => isFalse fun e => h (List.cons.inj e).1
    | _, isFalse h => isFalse fun e => h (List.cons.inj e).2

/-- Decides equality of the fields of two objects. -/
def decEqFields : (a b : List (String × Json)) → Decidable (a = b)
  | [], [] => isTrue rfl
  | [], _ :: _ | _ :: _, [] => isFalse nofun
  | (k, a) :: as, (l, b) :: bs =>
    if hk : k = l then
      match decEq a b, decEqFields as bs with
      | isTrue h, isTrue h' => isTrue (hk ▸ h ▸ h' ▸ rfl)
      | isFalse h, _ => isFalse fun e => h (Prod.mk.inj (List.cons.inj e).1).2
      | _, isFalse h => isFalse fun e => h (List.cons.inj e).2
    else isFalse fun e => hk (Prod.mk.inj (List.cons.inj e).1).1

end

instance : DecidableEq Json := decEq

mutual

/-- Every object, at any depth, has its keys in strictly ascending order. -/
def Canonical : Json → Prop
  | .array items => CanonicalItems items
  | .object fields => Keyed.Ascending fields ∧ CanonicalFields fields
  | _ => True
termination_by structural j => j

/-- Every item is canonical. -/
def CanonicalItems : List Json → Prop
  | [] => True
  | j :: rest => j.Canonical ∧ CanonicalItems rest
termination_by structural items => items

/-- The value of every field is canonical. -/
def CanonicalFields : List (String × Json) → Prop
  | [] => True
  | (_, j) :: rest => j.Canonical ∧ CanonicalFields rest
termination_by structural fields => fields

end

mutual

/-- The greatest number of containers on a path from the value to a leaf. -/
def depth : Json → Nat
  | .array items => depthItems items + 1
  | .object fields => depthFields fields + 1
  | _ => 0
termination_by structural j => j

/-- The greatest depth of an item. -/
def depthItems : List Json → Nat
  | [] => 0
  | j :: rest => max j.depth (depthItems rest)
termination_by structural items => items

/-- The greatest depth of a field's value. -/
def depthFields : List (String × Json) → Nat
  | [] => 0
  | (_, j) :: rest => max j.depth (depthFields rest)
termination_by structural fields => fields

end

/-- Equality of the numbers denoted: whole numbers by value, binary64 values by value with the
two zeros equal. A whole number differs from every binary64 value. -/
def Number.same : Number → Number → Bool
  | .whole a, .whole b => a == b
  | .binary a, .binary b => a.equal b
  | _, _ => false

mutual

/-- Equality of documents: as values, except that the two binary64 zeros are equal. -/
def same : Json → Json → Bool
  | .null, .null => true
  | .bool a, .bool b => a == b
  | .number a, .number b => a.same b
  | .string a, .string b => a == b
  | .array a, .array b => sameItems a b
  | .object a, .object b => sameFields a b
  | _, _ => false
termination_by structural a => a

/-- Equality of the items of two arrays, one by one. -/
def sameItems : List Json → List Json → Bool
  | [], [] => true
  | a :: as, b :: bs => a.same b && sameItems as bs
  | _, _ => false
termination_by structural a => a

/-- Equality of the fields of two objects, one by one. -/
def sameFields : List (String × Json) → List (String × Json) → Bool
  | [], [] => true
  | (k, a) :: as, (l, b) :: bs => k == l && a.same b && sameFields as bs
  | _, _ => false
termination_by structural a => a

end

theorem Number.same_self (n : Number) : n.same n = true := by
  cases n <;> simp [Number.same, Binary64.equal]

mutual

theorem same_self : (j : Json) → j.same j = true
  | .null => rfl
  | .bool _ => by simp [same]
  | .number n => n.same_self
  | .string _ => by simp [same]
  | .array items => sameItems_self items
  | .object fields => sameFields_self fields

theorem sameItems_self : (items : List Json) → sameItems items items = true
  | [] => rfl
  | j :: rest => by simp [sameItems, same_self j, sameItems_self rest]

theorem sameFields_self : (fields : List (String × Json)) → sameFields fields fields = true
  | [] => rfl
  | (_, j) :: rest => by simp [sameFields, same_self j, sameFields_self rest]

end

/-- A natural number as a JSON number. -/
def ofNat (n : Nat) : Json := .number (.whole n)

/-- An integer as a JSON number. -/
def ofInt (n : Int) : Json := .number (.whole n)

/-- A list of strings as an array. -/
def ofStrings (items : List String) : Json := .array (items.map .string)

/-- An optional value, with `null` for its absence. -/
def ofOption {α : Type} (write : α → Json) : Option α → Json
  | none => .null
  | some a => write a

/-- Replaces the fields of an object with those of another that they share, and adds the rest. -/
def overlay (fields layer : List (String × Json)) : List (String × Json) :=
  layer.foldl (fun acc e => Keyed.insert e.1 e.2 acc) fields

mutual

/-- Lays a value over another one: an object over an object field by field, and any other value
in its place. -/
def refine (base : Json) : Json → Json
  | .object layer =>
    match base with
    | .object fields => .object (refineFields fields layer)
    | _ => .object layer
  | j => j
termination_by structural layer => layer

/-- Lays each field over the one of its name. -/
def refineFields (fields : List (String × Json)) : List (String × Json) → List (String × Json)
  | [] => fields
  | (k, j) :: rest =>
    let value := match Keyed.find? k fields with
      | none => j
      | some old => refine old j
    refineFields (Keyed.insert k value fields) rest
termination_by structural layer => layer

end

end Json
end CampaignControl
