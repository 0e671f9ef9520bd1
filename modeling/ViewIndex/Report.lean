import ViewIndex.Decimal.Layout
import ViewIndex.Indexer.Stats

/-!
# Reports

The statistics of all views in a box for people to read. Texts are padded by the number of their
characters.
-/

namespace ViewIndex

/-- The statistics of all views and the memory of the process. -/
structure EngineReport where
  views : List ViewStats := []
  residentBytes : Nat := 0

namespace Report

/-- Fills a text up with blanks at its end. -/
def padEnd (width : Nat) (s : String) : String :=
  s ++ String.ofList (List.replicate (width - s.length) ' ')

/-- Fills a text up with blanks at its start. -/
def padStart (width : Nat) (s : String) : String :=
  String.ofList (List.replicate (width - s.length) ' ') ++ s

/-- The units of amounts of memory, the largest first. -/
def units : List (Nat × String) := [(1 <<< 30, "GB"), (1 <<< 20, "MB"), (1 <<< 10, "KB")]

/-- An amount of memory in the largest unit that it reaches. The amount is rounded to a
floating-point number before it is divided. -/
def memory (bytes : Nat) : String :=
  match units.find? fun (size, _) => size ≤ bytes with
  | some (size, unit) =>
      let amount := (Binary64.ofInt bytes).wholeMagnitude?.getD bytes
      Decimal.hundredths amount size ++ " " ++ unit
  | none => toString bytes ++ " B"

/-- The size of a page of memory in bytes. -/
def pageSize : Nat := 4096

/-- The memory of a process, from the line in which the system counts its pages: the second number
is that of the pages in memory. Without such a number it is zero. -/
def residentBytes (counts : String) : Nat :=
  let fields := (counts.splitToList Char.isWhitespace).filter (!·.isEmpty)
  ((fields[1]?.bind String.toNat?).map (· * pageSize)).getD 0

/-- A count at the end of a field of ten characters. -/
def count (n : Nat) : String := padStart 10 (toString n)

/-- Two counts with their labels on one line. -/
def countLine (label : String) (n : Nat) (label2 : String) (n2 : Nat) : String :=
  "║   " ++ label ++ count n ++ "  " ++ label2 ++ count n2 ++ "        ║\n"

end Report

open Report in
def ViewStats.render (stats : ViewStats) : String :=
  "║ " ++ padEnd 48 stats.view ++ " ║\n" ++
    "║   state: " ++ padEnd 12 stats.state.name ++ " lag: " ++ count stats.lag ++
    "              ║\n" ++
    countLine "entries:  " stats.entries "docs:    " stats.documents ++
    countLine "events:   " stats.eventsApplied "batches: " stats.batches ++
    countLine "map err:  " stats.mapErrors "enc err: " stats.encodingErrors ++
    countLine "drift:    " stats.arityDrift "rebuild: " stats.rebuilds

def EngineReport.render (report : EngineReport) : String :=
  "╔══════════════════════════════════════════════════╗\n" ++
    "║           docview View Report                    ║\n" ++
    "╠══════════════════════════════════════════════════╣\n" ++
    "║ Process RSS: " ++ Report.padStart 35 (Report.memory report.residentBytes) ++ " ║\n" ++
    String.join (report.views.map fun view =>
      "╠──────────────────────────────────────────────────╣\n" ++ view.render) ++
    "╚══════════════════════════════════════════════════╝\n"

end ViewIndex
