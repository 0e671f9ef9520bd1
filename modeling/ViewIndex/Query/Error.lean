import ViewIndex.Key.Basic

/-!
# Why a query is turned down

A query names a view and options. It is turned down before anything is read if the view is unknown,
if the options contradict each other or the view, or if a key cannot be encoded.
-/

namespace ViewIndex

/-- A contradiction among the options of a query, or between them and the view. -/
inductive OptionsFault where
  /-- Rows are to be reduced, but the view has no reducer. -/
  | noReducer
  /-- Rows are to be grouped, but not to be reduced. -/
  | groupsNotReduced
  /-- The entries are selected in more than one way. -/
  | severalSelectors
  /-- Several keys are to be reduced to one row. -/
  | keysNotGrouped
  /-- A query for several keys cannot be continued. -/
  | keysContinued
deriving DecidableEq, Repr

def OptionsFault.message : OptionsFault → String
  | .noReducer => "reduce=true on a view without a reduce function"
  | .groupsNotReduced => "group/group_level require reduce=true"
  | .severalSelectors => "key, keys, prefix and startkey/endkey are mutually exclusive"
  | .keysNotGrouped => "multi-key reduce queries must use group or group_level"
  | .keysContinued => "continuation is not supported with keys"

inductive QueryError where
  | unknownView (name : String)
  | options (fault : OptionsFault)
  | key (cause : KeyError)
deriving DecidableEq, Repr

def QueryError.message : QueryError → String
  | .unknownView name => s!"unknown view '{name}'"
  | .options fault => "invalid query options: " ++ fault.message
  | .key cause => "query key could not be encoded: " ++ cause.message

end ViewIndex
