import ViewIndex.Query.Answer

/-!
# Statistics of answers

The answers to a piece of content are counted round by round: how often each choice was selected,
which choices were selected together, and how many answers selected none. The numbers come from one
grouped query to the view of answers by content, round and choices.

Lists of counts may have any length here. On a machine there is room for no more than the memory
holds, and never for `2 ^ 60` counts or more: asked for so many choices, the program stops instead
of answering.
-/

namespace ViewIndex

/-- What an answer selected. -/
inductive Selection where
  | abstention
  | choices (indexes : List Nat)
  /-- Indexes out of range, or no list of indexes at all. -/
  | ignored
deriving DecidableEq, Repr

/-- The selection that a value stands for, if only indexes below `bound` are in range. -/
def Selection.ofJson (bound : Nat) : Json → Selection
  | .null => .abstention
  | .array items =>
      match items.mapM Json.asNat? with
      | some [] => .abstention
      | some indexes => if indexes.all (· < bound) then .choices indexes else .ignored
      | none => .ignored
  | _ => .ignored

/-- How many answers selected exactly these choices. -/
structure Combination where
  choices : List Nat
  count : Nat
deriving DecidableEq, Repr

structure RoundStatistics where
  /-- For each choice, how many answers selected it. -/
  choiceCounts : List Nat
  combinations : List Combination := []
  abstentions : Nat := 0
deriving DecidableEq, Repr

/-- Adds to the count of a choice; a list that is too short is filled up with zeros. -/
def addToChoice (count : Nat) : (choice : Nat) → List Nat → List Nat
  | 0, [] => [count]
  | 0, n :: rest => (n + count) :: rest
  | choice + 1, [] => 0 :: addToChoice count choice []
  | choice + 1, n :: rest => n :: addToChoice count choice rest

/-- Takes in a number of answers of one selection. -/
def RoundStatistics.add (round : RoundStatistics) (selection : Selection) (count : Nat) :
    RoundStatistics :=
  match selection with
  | .abstention => { round with abstentions := round.abstentions + count }
  | .choices indexes =>
      { round with
        choiceCounts :=
          indexes.foldl (fun counts choice => addToChoice count choice counts) round.choiceCounts
        combinations := round.combinations ++ [⟨indexes, count⟩] }
  | .ignored => round

structure AnswerStatistics where
  contentId : String
  rounds : Std.ExtTreeMap Int RoundStatistics
  stale : Bool

namespace AnswerStatistics

/-- When the number of choices is not known, indexes have to be below this bound. -/
def maxChoices : Nat := 1024

/-- The query that counts the answers by round and selection. -/
def options (contentId : String) : QueryOptions where
  reduce := some true
  groupLevel := some 3
  leading := some (.array [.text contentId])

/-- The round of a row; one that is no integer counts as zero. -/
def roundOf (row : ViewRow) : Int := ((row.key.asArray?.bind (·[1]?)).bind Json.asInt64?).getD 0

/-- What the answers of a row selected. -/
def selectionOf (bound : Nat) (row : ViewRow) : Selection :=
  .ofJson bound ((row.key.asArray?.bind (·[2]?)).getD .null)

/-- Takes a row into the statistics of its round. -/
def addRow (choiceCount : Option Nat) (rounds : Std.ExtTreeMap Int RoundStatistics)
    (row : ViewRow) : Std.ExtTreeMap Int RoundStatistics :=
  let round := rounds.getD (roundOf row) ⟨List.replicate (choiceCount.getD 0) 0, [], 0⟩
  let selection := selectionOf (choiceCount.getD maxChoices) row
  rounds.insert (roundOf row) (round.add selection (row.value.asNat?.getD 0))

/-- The statistics that the rows of the counting query give. With the number of choices known, every
choice has a count. -/
def ofResult (contentId : String) (choiceCount : Option Nat) (result : ViewResult) :
    AnswerStatistics where
  contentId := contentId
  rounds := result.rows.foldl (addRow choiceCount) ∅
  stale := result.stale

end AnswerStatistics

def Combination.toJson (combination : Combination) : Json :=
  .object [("selectedChoiceIndexes", .array (combination.choices.map .nat)),
    ("count", .nat combination.count)]

/-- The statistics of a numbered round. -/
def RoundStatistics.toJson (number : Int) (round : RoundStatistics) : Json :=
  .object [("round", .number (.int number)),
    ("independentCounts", .array (round.choiceCounts.map .nat)),
    ("combinatedCounts", .array (round.combinations.map Combination.toJson)),
    ("abstentionCount", .nat round.abstentions)]

def AnswerStatistics.toJson (statistics : AnswerStatistics) : Json :=
  .object [("contentId", .text statistics.contentId),
    ("roundStatistics", .array (statistics.rounds.toList.map fun (number, round) =>
      round.toJson number)),
    ("stale", .bool statistics.stale)]

end ViewIndex
