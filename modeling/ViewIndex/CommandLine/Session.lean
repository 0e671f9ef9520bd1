import ViewIndex.CommandLine.Arguments
import ViewIndex.CommandLine.Documents
import ViewIndex.Config.Reading
import ViewIndex.Engine
import ViewIndex.Feed.Memory

/-!
# Sessions

A session carries out one call of the program: it reads settings and documents, brings the views of
answers up to date and prints what was asked for. What it needs of the disk is given to it as a
`Disk`, so that a session can be run on any. It also depends on the build: one that checks
arithmetic stops with a sum that does not fit into a word, where one for release goes on with what
is left of it.
-/

namespace ViewIndex.CommandLine

/-- What is found under the name of a file. -/
inductive FileText where
  | text (s : String)
  | missing
  /-- There is something, but it cannot be read as text. -/
  | unreadable
deriving DecidableEq, Repr

/-- What a session asks of the disk. -/
structure Disk (m : Type → Type) where
  readText : String → m FileText
  /-- What stands in a directory, which is created if need be; nothing if that fails. -/
  openDirectory : String → m (Option Directory)
  saveDirectory : String → Directory → m Unit

inductive Failure where
  | config
  | documents (cause : DocumentsError)
  /-- The value of an option for a key is not JSON. -/
  | keyNotJson (option : String)
  | query (cause : QueryError)
  /-- A query took a sum that does not fit into a word. -/
  | overflow
  /-- The disk does not give what is asked of it. -/
  | disk
deriving DecidableEq, Repr

def Failure.message : Failure → String
  | .config => "Failed to parse config"
  | .documents cause => cause.message
  | .keyNotJson option => s!"--{option} is not valid JSON"
  | .query cause => cause.message
  | .overflow | .disk => ""

/-- What a session comes to. -/
structure Outcome where
  /-- Zero for success, one for a failure, two for unusable arguments and 101 if the program is
  stopped. -/
  exitCode : Nat
  output : String := ""
  /-- The report for people to read, if it was asked for. -/
  report : Option String := none
  message : Option String := none
deriving DecidableEq, Repr

def Failure.outcome : Failure → Outcome
  | .overflow => { exitCode := 101 }
  | failure => { exitCode := 1, message := some failure.message }

/-- The settings of a call: those of the file, changed by the arguments. -/
def configOf (arguments : Arguments) (file : Config) : Config :=
  { file with
    batchSize := arguments.batchSize.getD file.batchSize
    partitions := arguments.partitions.getD file.partitions
    stateDir := arguments.persist.or file.stateDir }

/-- The settings in a file; a file that does not exist stands for the defaults. -/
def configOfFile : FileText → Except Failure Config
  | .text s =>
      match Config.ofText? s with
      | some config => .ok config
      | none => .error .config
  | .missing => .ok {}
  | .unreadable => .error .disk

/-- The id of a document: the text in `_id`, or in `id` if there is no `_id`. -/
def documentId? (doc : Json) : Option String :=
  ((doc.field? "_id").or (doc.field? "id")).bind Json.asText?

/-- A store with the given documents in order; those without an id are left out. The epoch is the
hash of the file, so that the same file gives the same feed. -/
def loadStore (partitions : Nat) (text : String) (docs : List Json) : MemoryStore :=
  docs.foldl (fun store doc =>
    match documentId? doc with
    | some id => (store.put id doc).1
    | none => store) (.empty partitions (XXH3.hash text.toByteArray))

/-- The value of an option for a key. -/
def keyOption (option : String) : Option String → Except Failure (Option Json)
  | none => .ok none
  | some text =>
      match Json.parse? text with
      | some value => .ok (some value)
      | none => .error (.keyNotJson option)

/-- The options of the query that the arguments ask for. -/
def queryOptions (arguments : Arguments) : Except Failure QueryOptions := do
  return {
    reduce := arguments.reduce
    groupLevel := arguments.groupLevel
    limit := arguments.limit
    skip := arguments.skip.getD 0
    descending := arguments.descending
    key := ← keyOption "key" arguments.key
    startKey := ← keyOption "startkey" arguments.startKey
    endKey := ← keyOption "endkey" arguments.endKey
    leading := ← keyOption "prefix" arguments.leading }

/-- Whether a query stops a build that checks arithmetic. The arguments name no list of keys, so
that one range is read at most. -/
def overflows {φ : Type} (engine : Engine φ) (view : String) (options : QueryOptions) : Bool :=
  match engine.indexer view with
  | .ok ix => ix.store.current.overflows ix.view.reducer options
  | .error _ => false

/-- The values that the arguments ask for, in the order in which they are printed. -/
def results {φ : Type} [ChangeFeed φ] (engine : Engine φ) (arguments : Arguments)
    (checked : Bool) : Except Failure (List Json) := do
  let rows ← arguments.view.mapM fun view => do
    let options ← queryOptions arguments
    if checked && overflows engine view options then throw .overflow
    return (← (engine.query view options).mapError .query).toJson
  let answers ← arguments.answerStats.mapM fun contentId => do
    let statistics ← (engine.answerStatistics contentId arguments.choices).mapError .query
    return statistics.toJson
  let stats := if arguments.stats then some (.array (engine.stats.map ViewStats.toJson)) else none
  return rows.toList ++ answers.toList ++ stats.toList

section

variable {m : Type → Type} [Monad m]

def loadConfig (disk : Disk m) (arguments : Arguments) : ExceptT Failure m Config := do
  let file ← match arguments.config with
    | some name => MonadExcept.ofExcept (configOfFile (← disk.readText name))
    | none => pure {}
  return configOf arguments file

def loadDocuments (disk : Disk m) (arguments : Arguments) (config : Config) :
    ExceptT Failure m MemoryStore := do
  match ← disk.readText arguments.docs with
  | .text s =>
      let docs ← MonadExcept.ofExcept ((readDocuments s).mapError Failure.documents)
      return loadStore config.partitions s docs
  | _ => throw .disk

/-- Saves the directory in which a view is stored, if it is stored. -/
def saveView {φ : Type} (disk : Disk m) (engine : Engine φ) (view : String) :
    ExceptT Failure m Unit := do
  if let some path := engine.config.viewDir view then
    if let some directory := engine.volume.directoryAt? path then
      disk.saveDirectory path directory

/-- Takes in the directory in which a view is stored, if the settings name one. -/
def loadView {φ : Type} (disk : Disk m) (engine : Engine φ) (view : String) :
    ExceptT Failure m (Engine φ) := do
  match engine.config.viewDir view with
  | none => return engine
  | some path =>
      match ← disk.openDirectory path with
      | some directory =>
          return { engine with volume := engine.volume.install path directory }
      | none => throw .disk

/-- An engine with the views of answers. They are registered one after the other, and what that
changes in the directory of one is saved before the next. -/
def openViews (disk : Disk m) (config : Config) (store : MemoryStore) :
    ExceptT Failure m (Engine MemoryStore) :=
  View.answers.foldlM (fun engine view => do
    let engine ← loadView disk engine view.name
    match engine.register view with
    | (.ok (), engine) =>
        saveView disk engine view.name
        return engine
    | (.error _, _) => throw .disk) { feed := store, config }

/-- Carries a call out at a time. What the views have stored is saved also if the query fails. -/
def session (disk : Disk m) (arguments : Arguments) (residentBytes now : Nat) (checked : Bool) :
    ExceptT Failure m Outcome := do
  let config ← loadConfig disk arguments
  let store ← loadDocuments disk arguments config
  let engine := (← openViews disk config store).start.run now
  let values := results engine arguments checked
  let ended := engine.shutdown now
  for view in ended.viewNames do
    saveView disk ended view
  let values ← MonadExcept.ofExcept values
  let report : EngineReport := ⟨engine.stats, residentBytes⟩
  return {
    exitCode := 0
    output := String.join (values.map fun value => value.pretty ++ "\n")
    report := if arguments.stats then some report.render else none }

/-- Runs the program with a list of arguments, in a build that checks arithmetic or in one that does
not. -/
def run (disk : Disk m) (arguments : List String) (residentBytes now : Nat)
    (checked : Bool := true) : m Outcome := do
  match Arguments.ofList? arguments with
  | none => return { exitCode := 2 }
  | some arguments =>
      match ← session disk arguments residentBytes now checked with
      | .ok outcome => return outcome
      | .error failure => return failure.outcome

end

end ViewIndex.CommandLine
