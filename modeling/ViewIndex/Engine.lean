import ViewIndex.Indexer.Background
import ViewIndex.Query.Statistics
import ViewIndex.Report
import ViewIndex.Storage.Volume
import ViewIndex.View.Answers

/-!
# Engines

An engine keeps the views of one feed: it registers them, keeps their indexers running and answers
queries from what they have published. Views are stored on the volume of the engine, which outlives
it. Two views may be stored in one directory, and what one of them does to it the other one finds.
-/

namespace ViewIndex

structure Engine (φ : Type) where
  feed : φ
  config : Config
  /-- Where views are stored. -/
  volume : Volume := {}
  indexers : Std.ExtTreeMap String Indexer := ∅

/-- Why a view is not registered. -/
inductive RegisterError where
  | duplicate (name : String)
  | storage (cause : StorageError)
deriving DecidableEq, Repr

def RegisterError.message : RegisterError → String
  | .duplicate name => s!"view '{name}' is already registered"
  | .storage _ => ""

namespace Engine

variable {φ : Type} [ChangeFeed φ]

/-- Puts an indexer back after it has changed. -/
def put (engine : Engine φ) (ix : Indexer) : Engine φ :=
  { engine with indexers := engine.indexers.insert ix.view.name ix }

/-! ## Directories of views -/

/-- The directory in which a view is stored, as it is now. -/
def directory? (engine : Engine φ) (view : String) : Option Directory :=
  (engine.config.viewDir view).bind engine.volume.directoryAt?

/-- Puts back the directory in which a view is stored. -/
def putDirectory (engine : Engine φ) (view : String) (directory : Directory) : Engine φ :=
  { engine with
    volume := ((engine.config.viewDir view).map (engine.volume.putAt · directory)).getD
      engine.volume }

/-- An indexer that sees its directory as it is now. -/
def refreshed (engine : Engine φ) (ix : Indexer) : Indexer :=
  match ix.checkpoint, engine.directory? ix.view.name with
  | some checkpoint, some directory =>
      { ix with checkpoint := some (checkpoint.withDirectory directory) }
  | _, _ => ix

/-- Opens the stored state of a view, if the settings name a directory for views. The directory is
made if need be. -/
def openStored (engine : Engine φ) (view : View) :
    Except StorageError (Option Storage.Checkpoint) × Volume :=
  match engine.config.viewDir view.name with
  | none => (.ok none, engine.volume)
  | some path =>
      let (directory, volume) := engine.volume.openFolder path
      let signature := view.signature
      let epoch := ChangeFeed.epoch engine.feed
      match directory.bind (Storage.Checkpoint.openIn · signature epoch) with
      | .ok checkpoint => (.ok (some checkpoint), volume.putAt path checkpoint.directory)
      | .error e => (.error e, volume)

/-! ## Views -/

/-- Adds a view under a name of its own. Nothing is indexed yet. If it fails, directories that were
made stay. -/
def register (engine : Engine φ) (view : View) : Except RegisterError Unit × Engine φ :=
  if engine.indexers.contains view.name then (.error (.duplicate view.name), engine)
  else
    let (stored, volume) := engine.openStored view
    let engine := { engine with volume }
    match stored with
    | .ok checkpoint => (.ok (), engine.put (.create view engine.config checkpoint))
    | .error e => (.error (.storage e), engine)

def viewNames (engine : Engine φ) : List String := engine.indexers.keys

def indexer (engine : Engine φ) (view : String) : Except QueryError Indexer :=
  match engine.indexers[view]? with
  | some ix => .ok ix
  | none => .error (.unknownView view)

/-- Keeps what an indexer leaves behind. -/
def keep (engine : Engine φ) (ix : Indexer) (feed : φ) : Engine φ :=
  let engine := { engine.put ix with feed }
  match ix.checkpoint with
  | some checkpoint => engine.putDirectory ix.view.name checkpoint.directory
  | none => engine

/-- Lets one indexer do something, and keeps what it leaves behind. -/
def act {α : Type} (engine : Engine φ) (ix : Indexer)
    (work : Indexer → φ → Outcome φ α) : Except IndexerError α × Engine φ :=
  let outcome := work (engine.refreshed ix) engine.feed
  (outcome.result, engine.keep outcome.indexer outcome.feed)

/-- Lets every indexer catch up. If some fail, the first of their errors is reported. -/
def catchUpAll (engine : Engine φ) (now : Nat) : Except IndexerError Unit × Engine φ :=
  engine.indexers.values.foldl (fun (result, engine) ix =>
    let (next, engine) := engine.act ix (·.catchUp · now)
    (result *> next, engine)) (.ok (), engine)

def mapIndexers (engine : Engine φ) (change : Indexer → Indexer) : Engine φ :=
  { engine with indexers := engine.indexers.map fun _ ix => change ix }

def start (engine : Engine φ) : Engine φ := engine.mapIndexers fun ix => { ix with running := true }

/-- Does what there is to do in the background for all views. -/
def run (engine : Engine φ) (now : Nat) : Engine φ :=
  engine.indexers.values.foldl (fun engine ix =>
    let (ix, feed) := (engine.refreshed ix).run engine.feed now
    engine.keep ix feed) engine

/-- Stops all indexers and waits until those in the background have ended. -/
def shutdown (engine : Engine φ) (now : Nat) : Engine φ :=
  (engine.mapIndexers Indexer.stop).run now

/-- The statistics of all views in ascending order of their names. -/
def stats (engine : Engine φ) : List ViewStats :=
  engine.indexers.values.map fun ix => ix.stats engine.feed

/-- Answers a query from the published state of a view. -/
def query (engine : Engine φ) (view : String) (options : QueryOptions) :
    Except QueryError ViewResult := do
  let ix ← engine.indexer view
  let result ← ix.store.current.query ix.view.reducer options
  return { result with stale := engine.config.staleThreshold < ix.lag engine.feed }

def answerStatistics (engine : Engine φ) (contentId : String) (choiceCount : Option Nat) :
    Except QueryError AnswerStatistics := do
  let result ← engine.query View.byChoices.name (AnswerStatistics.options contentId)
  return .ofResult contentId choiceCount result

end Engine

end ViewIndex
