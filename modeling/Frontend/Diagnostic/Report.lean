import Frontend.Diagnostic.Basic

/-!
# Reports

A report collects the diagnostics of a run in the order in which they were
found. It keeps them all, but shows only as many as its limit allows and then
says how many are left out.
-/

namespace Frontend

/-- The diagnostics of a run, and how many of them are shown. -/
structure Report where
  diagnostics : Array Diagnostic := #[]
  limit : Nat
  deriving DecidableEq, Repr

namespace Report

/-- The limit of a report that asks for none. -/
def defaultLimit : Nat := 10

/-- A report without diagnostics. -/
def empty (limit : Nat) : Report :=
  { limit }

/-- Add a diagnostic. -/
def push (report : Report) (diagnostic : Diagnostic) : Report :=
  { report with diagnostics := report.diagnostics.push diagnostic }

/-- Add diagnostics in order. -/
def append (report : Report) (diagnostics : Array Diagnostic) : Report :=
  { report with diagnostics := report.diagnostics ++ diagnostics }

/-- Nothing was found. -/
def isEmpty (report : Report) : Bool :=
  report.diagnostics.isEmpty

/-- The number of diagnostics found. -/
def size (report : Report) : Nat :=
  report.diagnostics.size

/-- The diagnostics that are shown. -/
def shown (report : Report) : List Diagnostic :=
  report.diagnostics.toList.take report.limit

/-- The number of diagnostics that are left out. -/
def omitted (report : Report) : Nat :=
  report.diagnostics.size - report.limit

/-- The closing line, if diagnostics are left out. -/
def omission? (report : Report) : Option String :=
  if report.omitted = 0 then
    none
  else
    some s!"... and {report.omitted} more errors"

/-- The lines of the report. -/
def lines (report : Report) : List String :=
  report.shown.map Diagnostic.text ++ report.omission?.toList

end Report

end Frontend
