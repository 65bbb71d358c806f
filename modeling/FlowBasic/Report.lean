import FlowBasic.Layout
import FlowBasic.Reach
import FlowBasic.Traversal

namespace FlowBasic

inductive Severity where
  | error
  | warning
deriving DecidableEq

def Severity.name : Severity → String
  | error => "error"
  | warning => "warning"

inductive Fault where
  | missingConnection
  | invalidPath
  | conflictingLinks
  | incompatibleLink (reason : LinkFault)
  | unknownReference (name : String)
  | cycle
deriving DecidableEq

namespace Fault

def message : Fault → String
  | missingConnection => "required port is not connected"
  | invalidPath => "path leads to a missing node"
  | conflictingLinks => "port has more than one link"
  | incompatibleLink reason => reason.message
  | unknownReference name => "'" ++ name ++ "' is not declared"
  | cycle => "node is part of a cycle"

def severity : Fault → Severity
  | cycle => .warning
  | _ => .error

end Fault

/-- A fault of a routine, at a node or port where it has a place. -/
structure Finding where
  routine : String
  node : Option NodeId
  port : Option Nat
  fault : Fault
deriving DecidableEq

namespace Finding

def severity (f : Finding) : Severity := f.fault.severity

def isError (f : Finding) : Bool := f.severity = .error

def onPort (routine : String) (e : Endpoint) (fault : Fault) : Finding :=
  ⟨routine, some e.node, some e.port.toNat, fault⟩

def text (f : Finding) : String :=
  f.routine ++
    (f.node.elim "" fun n => ", node " ++ Decimal.text n.toNat) ++
    (f.port.elim "" fun p => ", port " ++ Decimal.text p) ++
    ": " ++ f.fault.message

end Finding

structure Report where
  findings : List Finding
deriving DecidableEq

namespace Report

def errors (r : Report) : List Finding := r.findings.filter Finding.isError

def warnings (r : Report) : List Finding := r.findings.filter (fun f => !f.isError)

def valid (r : Report) : Bool := !r.findings.any Finding.isError

end Report

/-- Ports that an earlier link has taken, and those already reported. -/
structure Occupied where
  flowSources : List Endpoint
  valueSinks : List Endpoint
  reported : List Endpoint

/-- The output port of a flow link and the input port of a value link, which it has for itself. -/
def Link.exclusive (l : Link) : Endpoint := if l.isFlow then l.source else l.sink

namespace Occupied

def holds (o : Occupied) (l : Link) : Bool :=
  if l.isFlow then o.flowSources.contains l.source else o.valueSinks.contains l.sink

def add (o : Occupied) (l : Link) : Occupied :=
  if l.isFlow then { o with flowSources := l.source :: o.flowSources }
  else { o with valueSinks := l.sink :: o.valueSinks }

/-- The ports that more than one link takes, each when this is first seen. -/
def conflicts (o : Occupied) : List Link → List Endpoint
  | [] => []
  | l :: ls =>
    if o.holds l && !o.reported.contains l.exclusive then
      l.exclusive :: conflicts { o.add l with reported := l.exclusive :: o.reported } ls
    else conflicts (o.add l) ls

end Occupied

namespace Routine

/-- The name that a payload uses without its being declared. -/
def undeclared? (r : Routine) (scope : Scope) : Payload → Option String
  | .argument name => if r.args.contains name then none else some name
  | .fetch name => if r.vars.contains name then none else some name
  | .assign name _ => if r.vars.contains name then none else some name
  | .process name => scope.bind fun known => if known.contains name then none else some name
  | _ => none

def endpointFindings (r : Routine) (name : String) : List Finding :=
  r.danglingLinks.flatMap fun l =>
    (if r.nodes.contains l.sink.node then [] else [.onPort name l.source .invalidPath]) ++
    (if r.nodes.contains l.source.node then [] else [.onPort name l.sink .invalidPath])

def conflictFindings (r : Routine) (name : String) : List Finding :=
  (Occupied.conflicts ⟨[], [], []⟩ r.links).map fun e => .onPort name e .conflictingLinks

def linkFindings (r : Routine) (scope : Scope) (name : String) : List Finding :=
  (r.links.filter fun l => !r.dangles l).filterMap fun l =>
    match r.checkLink scope l with
    | .ok () => none
    | .error f =>
      let place := match f with
        | .missingPort e => e
        | _ => l.sink
      some (.onPort name place (.incompatibleLink f))

def referenceFindings (r : Routine) (scope : Scope) (name : String) : List Finding :=
  r.nodes.entries.filterMap fun e =>
    (r.undeclared? scope e.2.payload).map fun used => ⟨name, some e.1, none, .unknownReference used⟩

/-- The required ports of a node without a link, inputs first. -/
def unconnected (r : Routine) (scope : Scope) (id : NodeId) (p : Payload) : List Nat :=
  let layout := r.layout scope p
  (layout.requiredInputs.filter fun port => !r.links.any (·.enters id port)) ++
    (layout.requiredOutputs.filter fun port => !r.links.any (·.leaves id port))

def connectionFindings (r : Routine) (scope : Scope) (name : String) : List Finding :=
  match r.start? with
  | none => [⟨name, none, none, .invalidPath⟩]
  | some start =>
    let reached := reachable r.links start
    (r.nodes.entries.filter fun e => reached.contains e.1).flatMap fun e =>
      (r.unconnected scope e.1 e.2.payload).map fun port =>
        ⟨name, some e.1, some port, .missingConnection⟩

def cycleFindings (r : Routine) (name : String) : List Finding :=
  r.traversal.backEdges.map fun e => ⟨name, some e.sink, none, .cycle⟩

def report (r : Routine) (scope : Scope) (name : String) : Report :=
  ⟨r.endpointFindings name ++ r.conflictFindings name ++ r.linkFindings scope name ++
    r.referenceFindings scope name ++ r.connectionFindings scope name ++ r.cycleFindings name⟩

end Routine

/-- The findings of all routines, one routine after the other. -/
def Report.ofRoutines (rs : Table Routine) : Report :=
  ⟨rs.entries.flatMap fun e => (e.2.report (some rs) e.1).findings⟩

end FlowBasic
