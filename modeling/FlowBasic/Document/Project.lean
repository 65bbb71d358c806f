import FlowBasic.Compile
import FlowBasic.Document.Node
import FlowBasic.Json.Parse

namespace FlowBasic

namespace Routine

def declarationsJson (t : Table ValueType) : Json :=
  .ofFields (t.entries.map fun d => (d.1, .ofFields [("type", d.2.toJson)]))

def declaration? (m : Mode) (v : Json) : Option ValueType := do
  let [type] ← v.fields? ["type"] | none
  required (ValueType.ofJson? m.inner) type

def toJson (r : Routine) : Json :=
  .ofFields
    [("isProcess", .bool r.isProcess),
     ("args", declarationsJson r.args),
     ("vars", declarationsJson r.vars),
     ("return", r.returns.toJson),
     ("nodes", r.nodes.toJson),
     ("links", .array (r.links.map Link.toJson))]

def ofJson? (m : Mode) (v : Json) : Option Routine := do
  let [isProcess, args, vars, returns, nodes, links] ←
    v.fields? ["isProcess", "args", "vars", "return", "nodes", "links"] | none
  let declarations := Json.table? (declaration? m.inner.inner)
  return {
    isProcess := ← optional false Json.bool? isProcess
    args := ← optional .empty declarations args
    vars := ← optional .empty declarations vars
    returns := ← required (ValueType.ofJson? m.inner) returns
    nodes := ← optional .empty (NodeMap.ofJson? m.inner) nodes
    links := ← optional [] (Link.listOfJson? m.inner) links }

end Routine

namespace Project

def toJson (p : Project) : Json :=
  .ofFields
    [("name", .ofString p.name),
     ("functions", .ofFields (p.routines.entries.map fun e => (e.1, e.2.toJson)))]

def ofJson? (m : Mode) (v : Json) : Option Project := do
  let [name, routines] ← v.fields? ["name", "functions"] | none
  return ⟨← required Json.text? name,
    ← required (Json.table? (Routine.ofJson? m.inner.inner)) routines⟩

/-- Reads a project document. -/
def parse? (text : String) : Option Project := do
  let v ← Json.parse? text
  ofJson? .document v

/-- Writes a project document. -/
def render (p : Project) : String := p.toJson.prettyText

end Project

namespace Options

def toJson (o : Options) : Json :=
  .ofFields
    [("requireValid", .bool o.requireValid), ("firstLine", .ofNat o.firstLine.toNat),
     ("functionSeparator", .ofString o.separator)]

/-- What is left out is as in the standard options. -/
def ofJson? (v : Json) : Option Options := do
  let [requireValid, firstLine, separator] ←
    v.fields? ["requireValid", "firstLine", "functionSeparator"] | none
  return {
    requireValid := ← optional standard.requireValid Json.bool? requireValid
    firstLine := ← optional standard.firstLine Slot.number? firstLine
    separator := ← optional standard.separator Json.text? separator }

def parse? (text : String) : Option Options := do
  let v ← Json.parse? text
  ofJson? v

end Options

end FlowBasic
