import FlowBasic.Document.Link
import FlowBasic.Node.Edit

namespace FlowBasic

namespace Call

def toJson (c : Call) : Json :=
  .ofFields
    [("name", .ofString c.builtin.name),
     ("args", .ofFields (c.args.entries.map fun a => (a.1, a.2.toJson))),
     ("return", c.returns.toJson),
     ("asProcess", .bool c.asProcess)]

def ofJson? (m : Mode) (v : Json) : Option Call := do
  let [name, args, returns, asProcess] ← v.fields? ["name", "args", "return", "asProcess"] | none
  return {
    builtin := ← required (m.inner.oneOf? Builtin.all Builtin.name) name
    args := ← required (Json.table? (TypedSlot.ofJson? m.inner.inner)) args
    returns := ← required (ValueType.ofJson? m.inner) returns
    asProcess := ← optional false Json.bool? asProcess }

end Call

namespace Ending

def toJson : Ending → Json
  | abort => .ofFields [("type", .ofString "panic")]
  | result t v =>
    .ofFields
      [("type", .ofString "return"), ("returnType", t.toJson), ("value", Slot.toJson Literal.toJson v)]

def ofJson? (m : Mode) (v : Json) : Option Ending := do
  let (tag, rest) ← m.tagged? ["panic", "return"] v
  match tag with
  | "panic" => bare abort rest
  | _ =>
    let [type, value] ← rest.fields? ["returnType", "value"] | none
    return result (← required (ValueType.ofJson? .held) type)
      (← optional none (Slot.ofJson? Literal.ofJson?) value)

end Ending

namespace Branch

def toJson : Branch → Json
  | ifThen => .ofFields [("type", .ofString "if")]
  | ifElse => .ofFields [("type", .ofString "if-else")]

def ofJson? (m : Mode) (v : Json) : Option Branch := do
  let (tag, rest) ← m.tagged? ["if", "if-else"] v
  match tag with
  | "if" => bare ifThen rest
  | _ => bare ifElse rest

end Branch

/-- A record of a name only. -/
def nameRecord? (v : Json) : Option String := do
  let [name] ← v.fields? ["name"] | none
  required Json.text? name

def nameRecord (name : String) : Json := .ofFields [("name", .ofString name)]

namespace Payload

/-- The tags of payloads in their fixed order. -/
def tags : List String :=
  ["start", "argument", "function", "operation", "condition", "process", "let", "variable", "goto", "end",
    "control"]

def toJson (p : Payload) : Json :=
  let fields : List (String × Json) := match p with
    | start => []
    | argument name => [("name", .ofString name)]
    | call c => [("function", c.toJson)]
    | operation o => [("operation", o.toJson)]
    | condition c => [("condition", c.toJson)]
    | process name => [("process", nameRecord name)]
    | assign name v => [("let", .ofFields [("name", .ofString name), ("in", v.toJson)])]
    | fetch name => [("variable", nameRecord name)]
    | jump => []
    | ending e => [("end", e.toJson)]
    | branch b => [("control", b.toJson)]
  .ofFields (("type", .ofString p.kind) :: fields)

def assignment? (v : Json) : Option Payload := do
  let [name, content] ← v.fields? ["name", "in"] | none
  return assign (← required Json.text? name) (← required (TypedSlot.ofJson? .held) content)

/-- A payload whose only field has the given name. -/
def single? (field : String) (read : Json → Option Payload) (v : Json) : Option Payload := do
  let [content] ← v.fields? [field] | none
  required read content

def ofJson? (m : Mode) (v : Json) : Option Payload := do
  let (tag, rest) ← m.tagged? tags v
  match tag with
  | "start" => bare start rest
  | "argument" => single? "name" (fun v => v.text?.map argument) rest
  | "function" => single? "function" (fun v => (Call.ofJson? .held v).map call) rest
  | "operation" => single? "operation" (fun v => (Operation.ofJson? .held v).map operation) rest
  | "condition" => single? "condition" (fun v => (Condition.ofJson? .held v).map condition) rest
  | "process" => single? "process" (fun v => (nameRecord? v).map process) rest
  | "let" => single? "let" assignment? rest
  | "variable" => single? "variable" (fun v => (nameRecord? v).map fetch) rest
  | "goto" => bare jump rest
  | "end" => single? "end" (fun v => (Ending.ofJson? .held v).map ending) rest
  | _ => single? "control" (fun v => (Branch.ofJson? .held v).map branch) rest

end Payload

namespace Position

def toJson (p : Position) : Json := .ofFields [("x", .ofDouble p.x), ("y", .ofDouble p.y)]

def ofJson? (v : Json) : Option Position := do
  let [x, y] ← v.fields? ["x", "y"] | none
  return ⟨← required Json.double? x, ← required Json.double? y⟩

end Position

namespace Node

def toJson (n : Node) : Json :=
  .ofFields
    [("name", .ofString n.name), ("edit", .bool n.edit), ("locked", .bool n.locked),
     ("position", n.position.toJson), ("data", n.payload.toJson)]

def ofJson? (m : Mode) (v : Json) : Option Node := do
  let [name, edit, locked, position, data] ←
    v.fields? ["name", "edit", "locked", "position", "data"] | none
  return {
    name := ← required Json.text? name
    edit := ← optional false Json.bool? edit
    locked := ← optional false Json.bool? locked
    position := ← optional .origin Position.ofJson? position
    payload := ← required (Payload.ofJson? m.inner) data }

end Node

namespace NodeMap

/-- The id that a key stands for: its digits, written as they are. -/
def idOfKey? (k : Quoted) : Option NodeId := do
  let (digits, rest) := Numeral.takeDigits (← k.plain?)
  guard (rest.isEmpty && Numeral.isWhole digits && Decimal.value digits < UInt32.size)
  return (Decimal.value digits).toUInt32

def toJson (m : NodeMap) : Json :=
  .ofFields (m.entries.map fun e => (Decimal.text e.1.toNat, e.2.toJson))

def ofJson? (m : Mode) : Json → Option NodeMap
  | .object fields => do
    let entries ← fields.mapM fun f => do return (← idOfKey? f.1, ← Node.ofJson? m.inner f.2)
    return ofList entries
  | _ => none

end NodeMap

namespace NodeEdit

def ofJson? (m : Mode) (v : Json) : Option NodeEdit := do
  let (name, data, m) ← editParts? m v
  match name with
  | "add node" => (Node.ofJson? m data).map add
  | "update node position" =>
    let [id, position] ← data.objectFields? ["id", "position"] | none
    return move (← required word? id) (← required Position.ofJson? position)
  | "update node edit mode" =>
    let [id, edit] ← data.objectFields? ["id", "edit"] | none
    return setEdit (← required word? id) (← required Json.bool? edit)
  | "edit node" =>
    let [id, payload] ← data.objectFields? ["id", "newData"] | none
    return replace (← required word? id) (← required (Payload.ofJson? m.inner) payload)
  | "edit arg value" =>
    let [id, slot, value] ← data.objectFields? ["id", "arg", "valueSet"] | none
    return setLiteral (← required word? id) (← required Json.text? slot)
      (← optional none (Slot.ofJson? Literal.ofJson?) value)
  | "delete node" =>
    let [id] ← data.objectFields? ["id"] | none
    return delete (← required word? id)
  | _ => none

end NodeEdit

end FlowBasic
