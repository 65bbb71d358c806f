import FlowBasic.Node.Map

namespace FlowBasic

/-- A routine marked as a process is called by other routines only. -/
structure Routine where
  isProcess : Bool
  args : Table ValueType
  vars : Table ValueType
  returns : ValueType
  nodes : NodeMap
  links : List Link
deriving DecidableEq

namespace Routine

/-- A new routine returns zero at once. -/
def fresh (isProcess : Bool) : Routine :=
  { isProcess
    args := .empty
    vars := .empty
    returns := .uint64
    nodes := NodeMap.ofList
      [(0, Node.start.placed 16 16),
       (1, (Node.ofPayload "End" (.returnLiteral (.number 0))).placed 256 16)]
    links := [⟨⟨0, 0⟩, ⟨1, 0⟩, .flow⟩] }

/-- The start node of lowest id. -/
def start? (r : Routine) : Option NodeId :=
  (r.nodes.entries.find? (fun e => e.2.payload = .start)).map Prod.fst

/-- Whether an end of the link is not a node of the graph. -/
def dangles (r : Routine) (l : Link) : Bool :=
  !r.nodes.contains l.source.node || !r.nodes.contains l.sink.node

def danglingLinks (r : Routine) : List Link := r.links.filter r.dangles

end Routine

/-- The routines that a process node may call, where they are known. -/
abbrev Scope := Option (Table Routine)

def Scope.callee? (s : Scope) (name : String) : Option Routine :=
  s.bind (·.get? name)

end FlowBasic
