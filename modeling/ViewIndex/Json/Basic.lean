import ViewIndex.Binary64

/-!
# JSON values

Documents, emitted keys and emitted values are JSON. Integers and floating-point numbers are kept
apart, since `1` and `1.0` are printed differently. The members of an object are a list of pairs;
values that were read or built by `Json.ofMembers` have them in ascending order of their names, each
name once.
-/

namespace ViewIndex

namespace Json

/-- A JSON number: an integer between `-2 ^ 63` and `2 ^ 64 - 1`, or a finite floating-point
number. -/
inductive Number where
  | int (i : Int)
  | real (x : Binary64)
deriving DecidableEq, Repr

end Json

inductive Json where
  | null
  | bool (b : Bool)
  | number (n : Json.Number)
  | text (s : String)
  | array (items : List Json)
  | object (members : List (String × Json))
deriving Repr, Inhabited

namespace Json

mutual

/-- Whether two values are one and the same, bit patterns of numbers included. -/
def decEq : (a b : Json) → Decidable (a = b)
  | .null, .null => isTrue rfl
  | .bool a, .bool b => decidable_of_iff (a = b) (by simp)
  | .number a, .number b => decidable_of_iff (a = b) (by simp)
  | .text a, .text b => decidable_of_iff (a = b) (by simp)
  | .array a, .array b =>
      have := decEqItems a b
      decidable_of_iff (a = b) (by simp)
  | .object a, .object b =>
      have := decEqMembers a b
      decidable_of_iff (a = b) (by simp)
  | .null, .bool _ | .null, .number _ | .null, .text _ | .null, .array _ | .null, .object _
  | .bool _, .null | .bool _, .number _ | .bool _, .text _ | .bool _, .array _ | .bool _, .object _
  | .number _, .null | .number _, .bool _ | .number _, .text _ | .number _, .array _
  | .number _, .object _ | .text _, .null | .text _, .bool _ | .text _, .number _
  | .text _, .array _ | .text _, .object _ | .array _, .null | .array _, .bool _
  | .array _, .number _ | .array _, .text _ | .array _, .object _ | .object _, .null
  | .object _, .bool _ | .object _, .number _ | .object _, .text _ | .object _, .array _ =>
      isFalse (by simp)

def decEqItems : (a b : List Json) → Decidable (a = b)
  | [], [] => isTrue rfl
  | [], _ :: _ => isFalse (by simp)
  | _ :: _, [] => isFalse (by simp)
  | x :: xs, y :: ys =>
      have := decEq x y
      have := decEqItems xs ys
      decidable_of_iff (x = y ∧ xs = ys) (by simp)

def decEqMembers : (a b : List (String × Json)) → Decidable (a = b)
  | [], [] => isTrue rfl
  | [], _ :: _ => isFalse (by simp)
  | _ :: _, [] => isFalse (by simp)
  | (m, x) :: xs, (n, y) :: ys =>
      have := decEq x y
      have := decEqMembers xs ys
      decidable_of_iff ((m = n ∧ x = y) ∧ xs = ys) (by simp)

end

instance : DecidableEq Json := decEq

/-- Numbers are the same value when both are integers and equal, or both are floating-point numbers
and equal. Those are finite, so only the two zeros are equal with different patterns. -/
def Number.same : Number → Number → Bool
  | .int a, .int b => a == b
  | .real a, .real b => a.unsignedZero == b.unsignedZero
  | _, _ => false

mutual

/-- Equality as values: structural, with numbers compared by `Number.same`. -/
def same : Json → Json → Bool
  | .null, .null => true
  | .bool a, .bool b => a == b
  | .number a, .number b => a.same b
  | .text a, .text b => a == b
  | .array a, .array b => sameItems a b
  | .object a, .object b => sameMembers a b
  | _, _ => false

def sameItems : List Json → List Json → Bool
  | [], [] => true
  | x :: xs, y :: ys => same x y && sameItems xs ys
  | _, _ => false

def sameMembers : List (String × Json) → List (String × Json) → Bool
  | [], [] => true
  | (m, x) :: xs, (n, y) :: ys => m == n && same x y && sameMembers xs ys
  | _, _ => false

end

def nat (n : Nat) : Json := .number (.int n)

/-- A floating-point number as a value; what is not finite has no JSON form and becomes null. -/
def float (x : Float) : Json :=
  let pattern := Binary64.ofFloat x
  if pattern.isFinite then .number (.real pattern) else .null

/-- Puts a member at its place by name, replacing an earlier one of that name. -/
def insertMember (name : String) (value : Json) : List (String × Json) → List (String × Json)
  | [] => [(name, value)]
  | (other, old) :: rest =>
      if name < other then (name, value) :: (other, old) :: rest
      else if name = other then (name, value) :: rest
      else (other, old) :: insertMember name value rest

/-- The object with the given members: in ascending order of names, of equal names the last. -/
def ofMembers (members : List (String × Json)) : Json :=
  .object (members.foldl (fun sorted (name, value) => insertMember name value sorted) [])

/-- A member of an object; values of other kinds have none. -/
def field? (name : String) : Json → Option Json
  | .object members => members.lookup name
  | _ => none

def asText? : Json → Option String
  | .text s => some s
  | _ => none

def asArray? : Json → Option (List Json)
  | .array items => some items
  | _ => none

def asBool? : Json → Option Bool
  | .bool b => some b
  | _ => none

/-- The number to compute with, integers being rounded to the nearest floating-point number. -/
def asFloat? : Json → Option Float
  | .number (.int i) => some (Binary64.ofInt i).toFloat
  | .number (.real x) => some x.toFloat
  | _ => none

/-- A nonnegative integer. -/
def asNat? : Json → Option Nat
  | .number (.int i) => if 0 ≤ i then some i.toNat else none
  | _ => none

/-- An integer that fits 64 bits with a sign. -/
def asInt64? : Json → Option Int
  | .number (.int i) => if i < 0x8000000000000000 then some i else none
  | _ => none

def isNull : Json → Bool
  | .null => true
  | _ => false

end Json

end ViewIndex
