import FlowBasic.Routine

namespace FlowBasic

structure PortSpec where
  port : Nat
  connector : Connector
  required : Bool
deriving DecidableEq

namespace PortSpec

def flow (port : Nat) : PortSpec := ⟨port, .flow, false⟩

def value (port : Nat) (t : ValueType) : PortSpec := ⟨port, .value t, false⟩

def needed (s : PortSpec) : PortSpec := { s with required := true }

end PortSpec

/-- The listed ports come first; `anyInput` and `anyOutput` stand for all others. -/
structure Layout where
  inputs : List PortSpec
  outputs : List PortSpec
  anyInput : Option Connector := none
  anyOutput : Option Connector := none
deriving DecidableEq

namespace Layout

def input? (l : Layout) (port : Nat) : Option Connector :=
  ((l.inputs.find? (fun s => s.port = port)).map PortSpec.connector).or l.anyInput

def output? (l : Layout) (port : Nat) : Option Connector :=
  ((l.outputs.find? (fun s => s.port = port)).map PortSpec.connector).or l.anyOutput

def requiredInputs (l : Layout) : List Nat := (l.inputs.filter PortSpec.required).map PortSpec.port

def requiredOutputs (l : Layout) : List Nat := (l.outputs.filter PortSpec.required).map PortSpec.port

/-- Consecutive value ports. -/
def valuePorts (base : Nat) : List ValueType → List PortSpec
  | [] => []
  | t :: ts => .value base t :: valuePorts (base + 1) ts

/-- The arguments of a call have consecutive ports; one that holds a literal has none. -/
def slotPorts (base : Nat) : List TypedSlot → List PortSpec
  | [] => []
  | s :: ss =>
    let rest := slotPorts (base + 1) ss
    if s.isUnset then (PortSpec.value base s.type).needed :: rest else rest

/-- An operand has a port only when it holds no literal. -/
def operandPort (port : Nat) (t : ValueType) : Option Literal → List PortSpec
  | none => [(PortSpec.value port t).needed]
  | some _ => []

end Layout

namespace Routine

def layout (r : Routine) (scope : Scope) : Payload → Layout
  | .start => { inputs := [], outputs := .flow 0 :: Layout.valuePorts 1 r.args.values }
  | .argument name => { inputs := [], outputs := [.value 0 ((r.args.get? name).getD .any)] }
  | .fetch name =>
    let t := (r.vars.get? name).getD .any
    { inputs := [], outputs := [.value 0 t], anyOutput := some (.value t) }
  | .assign _ v =>
    { inputs := .flow 0 :: (if v.isUnset then [(PortSpec.value 2 v.type).needed] else [])
      outputs := [.flow 1] }
  | .ending .abort => { inputs := [.flow 0], outputs := [] }
  | .ending (.result t v) =>
    { inputs := [.flow 0, { PortSpec.value 1 t with required := v.isNone }], outputs := [] }
  | .operation o =>
    { inputs := Layout.operandPort 0 o.type (o.operand? .left) ++
        (if o.isUnary then [] else Layout.operandPort 1 o.type (o.operand? .right))
      outputs := [.value 1 o.type] }
  | .condition c =>
    { inputs := Layout.operandPort 0 c.type (c.operand? .left) ++
        Layout.operandPort 1 c.type (c.operand? .right)
      outputs := [.value 1 .uint64] }
  | .branch _ =>
    { inputs := [.flow 0, (PortSpec.value 1 .uint64).needed]
      outputs := [(PortSpec.flow 2).needed, .flow 3] }
  | .jump => { inputs := [.flow 0], outputs := [(PortSpec.flow 1).needed] }
  | .call c =>
    { inputs := (if c.asProcess then [.flow 0] else []) ++ Layout.slotPorts c.argBase c.args.values
      outputs := (if c.asProcess then [.flow 1] else []) ++ [.value c.resultPort c.returns] }
  | .process name =>
    match scope.callee? name with
    | some callee =>
      { inputs := .flow 0 :: (Layout.valuePorts 2 callee.args.values).map PortSpec.needed
        outputs := [.flow 1, .value (2 + callee.args.size) callee.returns] }
    | none =>
      { inputs := [.flow 0], outputs := [.flow 1]
        anyInput := some (.value .any), anyOutput := some (.value .any) }

end Routine

/-- Why a link does not fit the ports at its ends. -/
inductive LinkFault where
  | missingNode (id : NodeId)
  | missingPort (e : Endpoint)
  | incompatible (source sink : Connector)
deriving DecidableEq

def LinkFault.message : LinkFault → String
  | missingNode id => "node " ++ Decimal.text id.toNat ++ " not found"
  | missingPort e =>
    "port " ++ Decimal.text e.port.toNat ++ " of node " ++ Decimal.text e.node.toNat ++ " does not exist"
  | incompatible source sink => "cannot link " ++ source.text ++ " output to " ++ sink.text ++ " input"

namespace Routine

def outputAt (r : Routine) (scope : Scope) (n : Node) (e : Endpoint) : Except LinkFault Connector :=
  match (r.layout scope n.payload).output? e.port.toNat with
  | some c => .ok c
  | none => .error (.missingPort e)

def inputAt (r : Routine) (scope : Scope) (n : Node) (e : Endpoint) : Except LinkFault Connector :=
  match (r.layout scope n.payload).input? e.port.toNat with
  | some c => .ok c
  | none => .error (.missingPort e)

def nodeAt (r : Routine) (id : NodeId) : Except LinkFault Node :=
  match r.nodes.get? id with
  | some n => .ok n
  | none => .error (.missingNode id)

/-- A link fits when both its ports exist and link, output and input agree in pairs. -/
def checkLink (r : Routine) (scope : Scope) (l : Link) : Except LinkFault Unit := do
  let source ← r.nodeAt l.source.node
  let sink ← r.nodeAt l.sink.node
  let output ← r.outputAt scope source l.source
  let input ← r.inputAt scope sink l.sink
  if output.compatible input && l.connector.compatible output && l.connector.compatible input then
    return ()
  else
    .error (.incompatible output input)

end Routine

end FlowBasic
