import FlowBasic.Project
import FlowBasic.Synthesis
import FlowBasic.Traversal

namespace FlowBasic

/-- A routine as far as it is written. -/
structure Draft where
  listing : Listing
  offers : Offers
  diagnostics : List Diagnostic

namespace Routine

def header (r : Routine) (name : String) : String :=
  "Function " ++ name ++ "(" ++
    Site.commaList (r.args.entries.map fun a => a.1 ++ " " ++ a.2.name) ++ ") " ++ r.returns.name

def variablesOf (r : Routine) (t : ValueType) : List String :=
  (r.vars.entries.filter (·.2 = t)).map Prod.fst

/-- One line declares all variables of a type. -/
def declarationLines (r : Routine) : List String :=
  [ValueType.uint64, .string].filterMap fun t =>
    let names := r.variablesOf t
    if names.isEmpty then none else some ("DIM " ++ Site.commaList names ++ " AS " ++ t.name)

def firstDraft (r : Routine) (firstLine : Nat) (name : String) : Draft :=
  { listing := r.declarationLines.foldl Listing.pushPreamble (.empty (r.header name) firstLine)
    offers := []
    diagnostics := (r.variablesOf .any).map .untypedVariable }

/-- Writes the next node. -/
def extend (r : Routine) (scope : Scope) (d : Draft) (id : NodeId) : Draft :=
  match r.nodes.get? id with
  | none => d
  | some n =>
    let s := Site.synthesize ⟨id, r, scope, d.offers⟩ n.payload
    { listing := d.listing.pushNode id s.statements
      offers := (id, s.outputs) :: d.offers
      diagnostics := d.diagnostics ++ s.missing.map (.missingConnection id) }

def draft (r : Routine) (scope : Scope) (firstLine : Nat) (name : String) : Draft :=
  r.traversal.order.foldl (r.extend scope) (r.firstDraft firstLine name)

end Routine

/-- The code of one routine. -/
structure RoutineCode where
  name : String
  code : String
  diagnostics : List Diagnostic
deriving DecidableEq

/-- The numbered listing of a routine whose process nodes call the routines in scope. -/
def Routine.generate (r : Routine) (scope : Scope) (firstLine : Nat) (name : String) : RoutineCode :=
  let d := r.draft scope firstLine name
  { name, code := d.listing.code, diagnostics := d.diagnostics ++ d.listing.unresolved }

structure Program where
  code : String
  parts : List RoutineCode
deriving DecidableEq

namespace Program

def assemble (parts : List RoutineCode) (separator : String) : Program :=
  { code := String.intercalate separator (parts.map (·.code)), parts }

/-- The diagnostics of all parts, each with the name of its routine. -/
def diagnostics (p : Program) : List (String × Diagnostic) :=
  p.parts.flatMap fun c => c.diagnostics.map fun d => (c.name, d)

def separator : String := "\n\n"

def partsOf (rs : Table Routine) (firstLine : Nat) : List RoutineCode :=
  rs.entries.map fun e => e.2.generate (some rs) firstLine e.1

def ofRoutines (rs : Table Routine) : Program := assemble (partsOf rs 1) separator

end Program

end FlowBasic
