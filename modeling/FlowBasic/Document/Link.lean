import FlowBasic.Document.Value
import FlowBasic.Link.Edit

namespace FlowBasic

/-- Node ids and ports are numbers of 32 bits. -/
def word? (v : Json) : Option UInt32 := (v.natural? UInt32.size).map Nat.toUInt32

def wordJson (n : UInt32) : Json := .ofNat n.toNat

namespace Connector

def toJson : Connector → Json
  | flow => .ofFields [("type", .ofString "flow")]
  | value t => .ofFields [("type", .ofString "value"), ("valueType", t.toJson)]

def ofJson? (m : Mode) (v : Json) : Option Connector := do
  let (tag, rest) ← m.tagged? ["flow", "value"] v
  match tag with
  | "flow" => bare flow rest
  | _ =>
    let [type] ← rest.fields? ["valueType"] | none
    return value (← required (ValueType.ofJson? .held) type)

end Connector

namespace Endpoint

/-- The port has its own name at either end of a link. -/
def toJson (portName : String) (e : Endpoint) : Json :=
  .ofFields [("id", wordJson e.node), (portName, wordJson e.port)]

def ofJson? (portName : String) (v : Json) : Option Endpoint := do
  let [id, port] ← v.fields? ["id", portName] | none
  return ⟨← required word? id, ← required word? port⟩

end Endpoint

namespace Link

def toJson (l : Link) : Json :=
  .ofFields
    [("from", l.source.toJson "output"), ("to", l.sink.toJson "input"), ("type", l.connector.toJson)]

def ofJson? (m : Mode) (v : Json) : Option Link := do
  let [source, sink, connector] ← v.fields? ["from", "to", "type"] | none
  return ⟨← required (Endpoint.ofJson? "output") source,
    ← required (Endpoint.ofJson? "input") sink,
    ← required (Connector.ofJson? m.inner) connector⟩

def listOfJson? (m : Mode) (v : Json) : Option (List Link) := do
  let items ← v.items?
  items.mapM (ofJson? m.inner)

end Link

/-- The name of an edit and its data, with how the data are read. In an array the name is a text. In an
object the data may come first, and are then held back. -/
def editParts? (m : Mode) (v : Json) : Option (String × Json × Mode) :=
  match v with
  | .array [name, data] => do return (← name.text?, data, m.inner)
  | .object _ => do
    let fields ← v.named?
    match fields.filter fun f => f.1 = "action" || f.1 = "data" with
    | [("action", name), ("data", data)] => return (← m.inner.name? name, data, m.inner)
    | [("data", data), ("action", name)] =>
      guard (m.inner.allows data)
      return (← m.inner.name? name, data, .held)
    | _ => none
  | _ => none

namespace LinkEdit

def ofJson? (m : Mode) (v : Json) : Option LinkEdit := do
  let (name, data, m) ← editParts? m v
  match name with
  | "add" => (Link.ofJson? m data).map add
  | "remove" => (Link.ofJson? m data).map remove
  | "remove related" =>
    let [id] ← data.objectFields? ["nodeId"] | none
    return removeRelated (← required word? id)
  | _ => none

end LinkEdit

end FlowBasic
