import FlowBasic.Program
import FlowBasic.Report

namespace FlowBasic

structure Options where
  requireValid : Bool
  firstLine : UInt64
  separator : String
deriving DecidableEq

namespace Options

def standard : Options := ⟨true, 1, Program.separator⟩

/-- Writes a program for invalid graphs too. -/
def lenient : Options := { standard with requireValid := false }

end Options

/-- The errors for which a graph was refused. -/
structure InvalidGraph where
  errors : List Finding
deriving DecidableEq

def InvalidGraph.message (e : InvalidGraph) : String :=
  "graph is invalid (" ++ Decimal.text e.errors.length ++ " errors)"

structure Compiled where
  program : Program
  report : Report
deriving DecidableEq

def Options.accept (o : Options) (report : Report) : Except InvalidGraph Unit :=
  if report.valid || !o.requireValid then .ok () else .error ⟨report.errors⟩

/-- Compiles a routine on its own, with every callee unknown. -/
def compileRoutine (o : Options) (name : String) (r : Routine) : Except InvalidGraph RoutineCode := do
  o.accept (r.report none name)
  return r.generate none o.firstLine.toNat name

def compileRoutines (o : Options) (rs : Table Routine) : Except InvalidGraph Compiled := do
  let report := Report.ofRoutines rs
  o.accept report
  return { program := .assemble (Program.partsOf rs o.firstLine.toNat) o.separator, report }

end FlowBasic
