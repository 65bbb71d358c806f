import FlowBasic.Value

namespace FlowBasic

abbrev NodeId := UInt32

abbrev Port := UInt32

/-- What passes through a port or along a link. -/
inductive Connector where
  | flow
  | value (type : ValueType)
deriving DecidableEq

namespace Connector

def isFlow : Connector → Bool
  | flow => true
  | value _ => false

def compatible : Connector → Connector → Bool
  | flow, flow => true
  | value a, value b => a.compatible b
  | _, _ => false

def text : Connector → String
  | flow => "flow"
  | value t => t.name ++ " value"

theorem compatible_comm (a b : Connector) : compatible a b = compatible b a := by
  cases a <;> cases b <;> simp [compatible, ValueType.compatible_comm]

end Connector

structure Endpoint where
  node : NodeId
  port : Port
deriving DecidableEq

def Endpoint.text (e : Endpoint) : String :=
  Decimal.text e.node.toNat ++ ":" ++ Decimal.text e.port.toNat

/-- Leaves its source by an output port and enters its sink by an input port. -/
structure Link where
  source : Endpoint
  sink : Endpoint
  connector : Connector
deriving DecidableEq

namespace Link

def isFlow (l : Link) : Bool := l.connector.isFlow

def touches (l : Link) (id : NodeId) : Bool := l.source.node = id || l.sink.node = id

/-- Whether a link leaves the given output port; ports of a layout are plain numbers. -/
def leaves (l : Link) (id : NodeId) (port : Nat) : Bool :=
  l.source.node = id && l.source.port.toNat = port

def enters (l : Link) (id : NodeId) (port : Nat) : Bool :=
  l.sink.node = id && l.sink.port.toNat = port

def text (l : Link) : String :=
  l.source.text ++ " -> " ++ l.sink.text ++ " (" ++ l.connector.text ++ ")"

end Link

end FlowBasic
