import FlowBasic.Node.Map

namespace FlowBasic

inductive NodeError where
  | notFound (id : NodeId)
  | idsExhausted (last : NodeId)
  | locked (id : NodeId)
  | slotMismatch (id : NodeId) (slot : String) (expected : ValueType)
  | unknownSlot (id : NodeId) (slot : String)
deriving DecidableEq

namespace NodeError

def message : NodeError → String
  | notFound id => "node " ++ Decimal.text id.toNat ++ " not found"
  | idsExhausted last => "no node id left after " ++ Decimal.text last.toNat
  | locked id => "node " ++ Decimal.text id.toNat ++ " is locked and cannot be deleted"
  | slotMismatch id slot expected =>
    "literal for '" ++ slot ++ "' on node " ++ Decimal.text id.toNat ++ " must be " ++ expected.name
  | unknownSlot id slot => "node " ++ Decimal.text id.toNat ++ " has no literal slot '" ++ slot ++ "'"

end NodeError

inductive NodeEdit where
  | add (n : Node)
  | move (id : NodeId) (position : Position)
  | setEdit (id : NodeId) (edit : Bool)
  | replace (id : NodeId) (payload : Payload)
  | setLiteral (id : NodeId) (slot : String) (value : Option Literal)
  | delete (id : NodeId)
deriving DecidableEq

namespace NodeMap

def find (m : NodeMap) (id : NodeId) : Except NodeError Node :=
  match m.get? id with
  | some n => .ok n
  | none => .error (.notFound id)

/-- One more than the largest id, and one for the empty map. -/
def next (m : NodeMap) : Except NodeError NodeId :=
  let last := m.maxId?.getD 0
  if last.toNat + 1 < UInt32.size then .ok (last + 1) else .error (.idsExhausted last)

end NodeMap

namespace Payload

/-- Sets the literal of one slot; payloads without slots take any literal and stay as they are. -/
def setLiteral (id : NodeId) (slot : String) (v : Option Literal) : Payload → Except NodeError Payload
  | call c =>
    match c.args.get? slot with
    | none => .error (.unknownSlot id slot)
    | some s =>
      match s.assign? v with
      | none => .error (.slotMismatch id slot s.type)
      | some t => .ok (call { c with args := c.args.insert slot t })
  | operation o =>
    match Side.ofName? slot with
    | none => .error (.unknownSlot id slot)
    | some side =>
      match o.assign? side v with
      | none => .error (.slotMismatch id slot o.type)
      | some p => .ok (operation p)
  | condition c =>
    match Side.ofName? slot with
    | none => .error (.unknownSlot id slot)
    | some side =>
      match c.assign? side v with
      | none => .error (.slotMismatch id slot c.type)
      | some d => .ok (condition d)
  | p => .ok p

end Payload

namespace NodeEdit

def apply (m : NodeMap) : NodeEdit → Except NodeError (NodeMap × NodeId)
  | add n => do
    let id ← m.next
    return (m.insert id n, id)
  | move id position => do
    let n ← m.find id
    return (m.insert id { n with position }, id)
  | setEdit id edit => do
    let n ← m.find id
    return (m.insert id { n with edit }, id)
  | replace id payload => do
    let n ← m.find id
    return (m.insert id { n with payload }, id)
  | setLiteral id slot v => do
    let n ← m.find id
    let payload ← n.payload.setLiteral id slot v
    return (m.insert id { n with payload }, id)
  | delete id => do
    let n ← m.find id
    if n.locked then .error (.locked id) else return (m.erase id, id)

/-- A refused edit leaves the map as it is. -/
def applyD (m : NodeMap) (e : NodeEdit) : NodeMap :=
  match e.apply m with
  | .ok r => r.1
  | .error _ => m

end NodeEdit

end FlowBasic
