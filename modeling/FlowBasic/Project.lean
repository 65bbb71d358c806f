import FlowBasic.Layout
import FlowBasic.Link.Edit
import FlowBasic.Node.Edit
import FlowBasic.RoutineName

namespace FlowBasic

inductive EditError where
  | node (e : NodeError)
  | link (e : LinkFault)
  | duplicate (e : DuplicateLink)
  | routineExists (name : String)
  | routineNotFound (name : String)
  | routineReserved (name : String)
  | invalidName (text : String)
deriving DecidableEq

namespace EditError

def message : EditError → String
  | node e => e.message
  | link e => e.message
  | duplicate e => e.message
  | routineExists name => "function '" ++ name ++ "' already exists"
  | routineNotFound name => "function '" ++ name ++ "' not found"
  | routineReserved name => "function '" ++ name ++ "' is reserved"
  | invalidName text => "invalid function name '" ++ text ++ "'"

end EditError

def RoutineName.normalize (isProcess : Bool) (text : String) : Except EditError String :=
  match normalize? isProcess (trimmed text) with
  | some name => .ok name
  | none => .error (.invalidName (String.ofList (trimmed text)))

namespace Routine

def updateNodes (r : Routine) (e : NodeEdit) : Except EditError (Routine × NodeId) :=
  match e.apply r.nodes with
  | .ok (nodes, id) => .ok ({ r with nodes }, id)
  | .error e => .error (.node e)

/-- A link is added only when it fits the ports at its ends. -/
def updateLinks (r : Routine) (scope : Scope) (e : LinkEdit) : Except EditError Routine := do
  if let .add l := e then
    if let .error f := r.checkLink scope l then
      throw (.link f)
  match e.apply r.links with
  | .ok links => return { r with links }
  | .error e => throw (.duplicate e)

/-- Deletes a node and the links that touch it. -/
def removeNode (r : Routine) (id : NodeId) : Except EditError Routine :=
  match (NodeEdit.delete id).apply r.nodes with
  | .ok (nodes, _) =>
    .ok { r with nodes, links := (LinkEdit.removeRelated id).applyD r.links }
  | .error e => .error (.node e)

/-- Turns the calls of one routine into calls of another. -/
def redirect (old new : String) (r : Routine) : Routine :=
  { r with nodes := r.nodes.map fun n =>
      if n.payload.callee? = some old then { n with payload := .process new } else n }

/-- The process nodes that call a routine, by ascending id. -/
def callSites (r : Routine) (name : String) : List NodeId :=
  (r.nodes.entries.filter (fun e => e.2.payload.callee? = some name)).map Prod.fst

end Routine

structure Project where
  name : String
  routines : Table Routine
deriving DecidableEq

namespace Project

/-- The entry points, which every new project has and which keep their names. -/
def reserved : List String := ["Initialize", "InitializePrivate"]

def fresh (name : String) : Project :=
  { name, routines := Table.ofList (reserved.map fun k => (k, Routine.fresh false)) }

def defaultName : String := "Initial Project"

def isReserved (name : String) : Bool := reserved.contains name

def scope (p : Project) : Scope := some p.routines

def routine (p : Project) (name : String) : Except EditError Routine :=
  match p.routines.get? name with
  | some r => .ok r
  | none => .error (.routineNotFound name)

def setRoutine (p : Project) (name : String) (r : Routine) : Project :=
  { p with routines := p.routines.insert name r }

def addRoutine (p : Project) (text : String) (isProcess : Bool) :
    Except EditError (Project × String) := do
  let name ← RoutineName.normalize isProcess text
  if p.routines.contains name then throw (.routineExists name)
  return (p.setRoutine name (.fresh isProcess), name)

/-- Renames a routine in place, with every call of it. -/
def renameRoutine (p : Project) (old text : String) : Except EditError (Project × String) := do
  if isReserved old then throw (.routineReserved old)
  let r ← p.routine old
  let new ← RoutineName.normalize r.isProcess text
  if p.routines.contains new then throw (.routineExists new)
  return ({ p with routines := (p.routines.rename old new).map (Routine.redirect old new) }, new)

def deleteRoutine (p : Project) (name : String) : Except EditError (Project × Routine) := do
  if isReserved name then throw (.routineReserved name)
  let r ← p.routine name
  return ({ p with routines := p.routines.erase name }, r)

/-- The routines that call a routine, each with its calling nodes. -/
def callersOf (p : Project) (name : String) : List (String × List NodeId) :=
  (p.routines.entries.map fun e => (e.1, e.2.callSites name)).filter fun c => !c.2.isEmpty

def declareArgument (p : Project) (function name : String) (t : ValueType) :
    Except EditError Project := do
  let r ← p.routine function
  return p.setRoutine function { r with args := r.args.insert name t }

def declareVariable (p : Project) (function name : String) (t : ValueType) :
    Except EditError Project := do
  let r ← p.routine function
  return p.setRoutine function { r with vars := r.vars.insert name t }

def updateNodes (p : Project) (function : String) (e : NodeEdit) :
    Except EditError (Project × NodeId) := do
  let r ← p.routine function
  let (r, id) ← r.updateNodes e
  return (p.setRoutine function r, id)

/-- Links are checked against the routines of the project. -/
def updateLinks (p : Project) (function : String) (e : LinkEdit) : Except EditError Project := do
  let r ← p.routine function
  let r ← r.updateLinks p.scope e
  return p.setRoutine function r

/-- Links are checked with every callee unknown. -/
def updateLinksAlone (p : Project) (function : String) (e : LinkEdit) : Except EditError Project := do
  let r ← p.routine function
  let r ← r.updateLinks none e
  return p.setRoutine function r

def addNode (p : Project) (function name : String) (payload : Payload) (position : Position) :
    Except EditError (Project × NodeId) :=
  p.updateNodes function (.add { Node.ofPayload name payload with position })

def removeNode (p : Project) (function : String) (id : NodeId) : Except EditError Project := do
  let r ← p.routine function
  let r ← r.removeNode id
  return p.setRoutine function r

/-- The routines of another project that a merge brings in, in their order. -/
def taken (p q : Project) (overwrite : Bool) : List (String × Routine) :=
  q.routines.entries.filter fun e => overwrite || !p.routines.contains e.1

/-- Takes over the routines of another project; those there are stay unless overwritten. -/
def merge (p q : Project) (overwrite : Bool) : Project × List String :=
  let new := p.taken q overwrite
  ({ p with routines := new.foldl (fun t e => t.insert e.1 e.2) p.routines }, new.map Prod.fst)

end Project

end FlowBasic
