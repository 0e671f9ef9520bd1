import ViewIndex.Json.Basic

/-!
# Keys

A key is a tuple of components, and components are the JSON values that can be ordered: everything
but objects. `Key.collate` is the order in which a view lists its entries. Keys arise from JSON by
`Key.ofJson` and are shown as JSON by `Key.toJson`.
-/

namespace ViewIndex

/-- Why a key cannot be encoded or decoded. -/
inductive KeyError where
  /-- A component is of a kind that has no place in the order. -/
  | unsupportedKind (kind : String)
  /-- A number at some depth is infinite or NaN. -/
  | nonFiniteNumber
  /-- The bytes are not the encoding of a key. -/
  | malformed
deriving DecidableEq, Repr

def KeyError.message : KeyError → String
  | .unsupportedKind kind => s!"key component of kind '{kind}' is not orderable"
  | .nonFiniteNumber => "non-finite numbers cannot be used as key components"
  | .malformed => "malformed encoded key"

/-- One component of a key. -/
inductive KeyPart where
  | null
  | bool (b : Bool)
  | number (x : Binary64)
  | text (s : String)
  | array (items : List KeyPart)
deriving Repr, Inhabited

abbrev Key := List KeyPart

namespace KeyPart

/-- Components of different kinds are ordered by kind: null, false, true, numbers, text, arrays. -/
def rank : KeyPart → Nat
  | .null => 0
  | .bool false => 1
  | .bool true => 2
  | .number _ => 3
  | .text _ => 4
  | .array _ => 5

mutual

/-- The order of components: by kind; numbers by value, the two zeros being one; text by code
points; arrays like keys. -/
def collate : KeyPart → KeyPart → Ordering
  | .number x, .number y => x.unsignedZero.totalCompare y.unsignedZero
  | .text s, .text t => compare s t
  | .array a, .array b => collateItems a b
  | a, b => compare a.rank b.rank

/-- Item by item; when one list runs out first, it comes first. -/
def collateItems : List KeyPart → List KeyPart → Ordering
  | [], [] => .eq
  | [], _ :: _ => .lt
  | _ :: _, [] => .gt
  | a :: as, b :: bs => (collate a b).then (collateItems as bs)

end

mutual

/-- The component that a JSON value gives. -/
def ofJson : Json → Except KeyError KeyPart
  | .null => .ok .null
  | .bool b => .ok (.bool b)
  | .number (.int i) => .ok (.number (Binary64.ofInt i))
  | .number (.real x) => if x.isFinite then .ok (.number x) else .error .nonFiniteNumber
  | .text s => .ok (.text s)
  | .array items => (ofJsonItems items).map .array
  | .object _ => .error (.unsupportedKind "object")

/-- The components that a list of JSON values gives; the first that gives none decides the
error. -/
def ofJsonItems : List Json → Except KeyError (List KeyPart)
  | [] => .ok []
  | item :: rest => do
      let part ← ofJson item
      let parts ← ofJsonItems rest
      return part :: parts

end

/-- Whole numbers below this bound in magnitude are shown as integers. -/
def integerBound : Nat := 9000000000000000

/-- A number as JSON: an integer if it is whole and not too large, null if it is not finite. -/
def numberToJson (x : Binary64) : Json :=
  match x.toInt? with
  | some i => if i.natAbs < integerBound then .number (.int i) else .number (.real x)
  | none => if x.isFinite then .number (.real x) else .null

mutual

def toJson : KeyPart → Json
  | .null => .null
  | .bool b => .bool b
  | .number x => numberToJson x
  | .text s => .text s
  | .array items => .array (toJsonItems items)

def toJsonItems : List KeyPart → List Json
  | [] => []
  | part :: rest => toJson part :: toJsonItems rest

end

mutual

/-- Whether every number at any depth is finite. -/
def isFinite : KeyPart → Bool
  | .number x => x.isFinite
  | .array items => allFinite items
  | _ => true

def allFinite : List KeyPart → Bool
  | [] => true
  | part :: rest => part.isFinite && allFinite rest

end

end KeyPart

namespace Key

/-- The order of keys: component by component, a key before its proper extensions. -/
def collate (a b : Key) : Ordering := KeyPart.collateItems a b

/-- The key that a JSON value gives: the items of an array are its components, and any other value
is a key of one component. -/
def ofJson : Json → Except KeyError Key
  | .array items => KeyPart.ofJsonItems items
  | value => (KeyPart.ofJson value).map fun part => [part]

def toJson (key : Key) : Json := .array (KeyPart.toJsonItems key)

end Key

end ViewIndex
