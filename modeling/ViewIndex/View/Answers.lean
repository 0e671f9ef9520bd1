import ViewIndex.View.Basic

/-!
# The views of answers

Eight views list the documents of type `Answer` by different fields. Each emits one entry a
document, whose value holds the revision; a missing field is emitted as null.
-/

namespace ViewIndex.View

/-- The type of the documents in these views. -/
def answerType : String := "Answer"

/-- The value that every view of answers emits. -/
def revisionValue (doc : Document) : Json := .object [("_rev", .text doc.revision)]

/-- The view that lists answers by the given fields. -/
def byFields (name : String) (fields : List String) : View where
  name := name
  docType := some answerType
  map doc := .emitted [⟨fields.map doc.field, revisionValue doc⟩]

def counted (view : View) : View := { view with reducer := some .count }

def byId : View where
  name := "by_id"
  docType := some answerType
  reducer := some .count
  map doc := .emitted [⟨[.text doc.id], revisionValue doc⟩]

def byContent : View := counted (byFields "by_contentid" ["contentId"])

def byBodyAndSubject : View :=
  counted (byFields "by_contentid_round_body_subject"
    ["contentId", "round", "abstention", "body", "subject", "successfulFreeTextAnswer"])

def byChoices : View :=
  counted (byFields "by_contentid_round_selectedchoiceindexes"
    ["contentId", "round", "selectedChoiceIndexes"])

def byCreationTime : View :=
  byFields "by_contentid_creationtimestamp" ["contentId", "creationTimestamp"]

def byCreatorAndRound : View :=
  byFields "by_contentid_creatorid_round" ["contentId", "creatorId", "round"]

def byRoom : View := counted (byFields "by_roomid" ["roomId"])

def byCreatorAndRoom : View := byFields "by_creatorid_roomid" ["creatorId", "roomId"]

def answers : List View :=
  [byId, byContent, byBodyAndSubject, byChoices, byCreationTime, byCreatorAndRound, byRoom,
    byCreatorAndRoom]

end ViewIndex.View
