import ViewIndex.Json.Basic

/-!
# Reducers and aggregates

A reducer turns the value of each entry into an aggregate and combines aggregates. Three reducers
are built in; others are given by their three functions on JSON. That `combine` is associative with
`identity` as its unit is left to whoever supplies a reducer.
-/

namespace ViewIndex

structure CustomReducer where
  name : String
  /-- The aggregate of one value. -/
  leaf : Json → Json
  /-- The aggregate of two aggregates, the first belonging to the earlier entries. -/
  combine : Json → Json → Json
  identity : Json

/-- How the values of a view are summed up. -/
inductive Reducer where
  | count
  | sum
  /-- Sum, number, extremes and sum of squares of the numeric values. -/
  | stats
  | custom (functions : CustomReducer)

/-- What is kept of the numeric values by `Reducer.stats`. -/
structure Summary where
  sum : Float
  count : Nat
  least : Float
  greatest : Float
  sumOfSquares : Float

/-- The aggregate of some entries. -/
inductive Aggregate where
  | count (n : Nat)
  | sum (x : Float)
  | stats (s : Summary)
  | custom (value : Json)

/-- The lesser of two numbers. A NaN gives way to the other number, and of two equal numbers the
second is taken. -/
def lesser (x y : Float) : Float :=
  if y.isNaN then x else if x < y then x else y

/-- The greater of two numbers. A NaN gives way to the other number, and of two equal numbers the
second is taken. -/
def greater (x y : Float) : Float :=
  if y.isNaN then x else if y < x then x else y

namespace Summary

def empty : Summary where
  sum := 0.0
  count := 0
  least := 1.0 / 0.0
  greatest := -1.0 / 0.0
  sumOfSquares := 0.0

def single (x : Float) : Summary where
  sum := x
  count := 1
  least := x
  greatest := x
  sumOfSquares := x * x

def merge (a b : Summary) : Summary where
  sum := a.sum + b.sum
  count := a.count + b.count
  least := lesser a.least b.least
  greatest := greater a.greatest b.greatest
  sumOfSquares := a.sumOfSquares + b.sumOfSquares

/-- Without a numeric value the extremes are null and the sums are the integer zero. -/
def toJson (s : Summary) : Json :=
  if s.count = 0 then
    .ofMembers [("sum", .nat 0), ("count", .nat 0), ("min", .null), ("max", .null),
      ("sumsqr", .nat 0)]
  else
    .ofMembers [("sum", .float s.sum), ("count", .nat s.count), ("min", .float s.least),
      ("max", .float s.greatest), ("sumsqr", .float s.sumOfSquares)]

end Summary

namespace Aggregate

/-- The number of entries, if that is what was reduced. -/
def asCount? : Aggregate → Option Nat
  | .count n => some n
  | _ => none

def toJson : Aggregate → Json
  | .count n => .nat n
  | .sum x => .float x
  | .stats s => s.toJson
  | .custom value => value

/-- Whether two numbers are equal or differ by no more than a billionth of the larger one, numbers
below one counting as one. -/
def close (x y : Float) : Bool :=
  x == y || (x - y).abs ≤ 1e-9 * greater (greater x.abs y.abs) 1.0

/-- Whether two aggregates agree up to rounding. Floating-point sums depend on the order in which
they were added, so they are compared by `close`; everything else has to be equal. -/
def approxEq : Aggregate → Aggregate → Bool
  | .count m, .count n => m == n
  | .sum x, .sum y => close x y
  | .stats a, .stats b =>
      a.count == b.count && close a.sum b.sum && close a.sumOfSquares b.sumOfSquares &&
        a.least == b.least && a.greatest == b.greatest
  | .custom a, .custom b => a.same b
  | _, _ => false

end Aggregate

namespace Reducer

def name : Reducer → String
  | .count => "_count"
  | .sum => "_sum"
  | .stats => "_stats"
  | .custom functions => functions.name

def identity : Reducer → Aggregate
  | .count => .count 0
  | .sum => .sum 0.0
  | .stats => .stats .empty
  | .custom functions => .custom functions.identity

/-- The aggregate of one entry. Values that are not numbers add nothing to sums. -/
def leaf (r : Reducer) (value : Json) : Aggregate :=
  match r with
  | .count => .count 1
  | .sum => .sum (value.asFloat?.getD 0.0)
  | .stats => .stats ((value.asFloat?.map Summary.single).getD .empty)
  | .custom functions => .custom (functions.leaf value)

/-- The aggregate of the entries of both, the first being the earlier ones. Aggregates of another
reducer count as none at all. -/
def combine (r : Reducer) (a b : Aggregate) : Aggregate :=
  match r, a, b with
  | .count, .count m, .count n => .count (m + n)
  | .sum, .sum x, .sum y => .sum (x + y)
  | .stats, .stats a, .stats b => .stats (a.merge b)
  | .custom functions, .custom a, .custom b => .custom (functions.combine a b)
  | r, _, _ => r.identity

/-- The aggregate of values one after the other. -/
def reduceValues (r : Reducer) (values : List Json) : Aggregate :=
  values.foldl (fun total value => r.combine total (r.leaf value)) r.identity

def describe (r : Reducer) : String := s!"Reducer({r.name})"

end Reducer

end ViewIndex
