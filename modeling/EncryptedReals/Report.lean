import EncryptedReals.Grid

/-!
# Reports

A report is the table of the completed runs of a grid.  A benchmark that fails leaves no row; only an
invalid grid is an error.
-/

namespace EncryptedReals

/-- **The rows of completed benchmarks** in the order they ran. -/
structure Report where
  rows : List BenchmarkRecord := []

namespace Report

/-- The names of the columns. -/
def header : String :=
  "ring_dimension | count | concurrent | upper_bound | error_ratio | elapsed_time"

def isEmpty (r : Report) : Bool :=
  r.rows.isEmpty

/-- Appends a row. -/
def push (r : Report) (row : BenchmarkRecord) : Report :=
  ⟨r.rows ++ [row]⟩

/-- The lines of a report: the header and one line for each row. -/
def lines (r : Report) : List String :=
  header :: r.rows.map BenchmarkRecord.describe

/-- **A report as text.** -/
def describe (r : Report) : String :=
  String.join (r.lines.map (· ++ "\n"))

/-- **Runs every benchmark of a grid in order.** -/
def run {m : Type → Type} [Monad m] (host : Host m) (g : Grid) : m (Except SetupFailure Report) :=
  match g.validate with
  | .error cause => pure (.error cause)
  | .ok () => do
    let report ← g.benchmarks.foldlM (fun report b => do
      match ← b.run host with
      | .completed row => pure (report.push row)
      | _ => pure report) ({} : Report)
    return .ok report

end Report

end EncryptedReals
