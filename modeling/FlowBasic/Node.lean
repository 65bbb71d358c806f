import FlowBasic.Builtin
import FlowBasic.Link
import FlowBasic.Operation
import FlowBasic.Table

namespace FlowBasic

/-- A call of a built-in; its arguments need not be those of the catalog. -/
structure Call where
  builtin : Builtin
  args : Table TypedSlot
  returns : ValueType
  asProcess : Bool
deriving DecidableEq

namespace Call

/-- A fresh call, its arguments unset. -/
def ofBuiltin (b : Builtin) : Call :=
  let s := b.signature
  { builtin := b
    args := Table.ofList (s.args.map fun a => (a.1, TypedSlot.unset a.2))
    returns := s.returns
    asProcess := s.asProcess }

/-- A call that is a statement has its two flow ports first. -/
def argBase (c : Call) : Nat := if c.asProcess then 2 else 0

def resultPort (c : Call) : Nat := c.argBase + c.args.size

end Call

inductive Ending where
  | abort
  | result (type : ValueType) (value : Option Literal)
deriving DecidableEq

inductive Branch where
  | ifThen
  | ifElse
deriving DecidableEq

inductive Payload where
  | start
  | argument (name : String)
  | call (c : Call)
  | operation (o : Operation)
  | condition (c : Condition)
  | process (name : String)
  | assign (name : String) (value : TypedSlot)
  | fetch (name : String)
  | jump
  | ending (e : Ending)
  | branch (b : Branch)
deriving DecidableEq

namespace Payload

def kind : Payload → String
  | start => "start"
  | argument _ => "argument"
  | call _ => "function"
  | operation _ => "operation"
  | condition _ => "condition"
  | process _ => "process"
  | assign .. => "let"
  | fetch _ => "variable"
  | jump => "goto"
  | ending _ => "end"
  | branch _ => "control"

def ofBuiltin (b : Builtin) : Payload := call (Call.ofBuiltin b)

def returnLiteral (v : Literal) : Payload := ending (.result v.type (some v))

def returnLinked (t : ValueType) : Payload := ending (.result t none)

/-- The routine that a process node calls. -/
def callee? : Payload → Option String
  | process name => some name
  | _ => none

end Payload

structure Position where
  x : Float
  y : Float
deriving DecidableEq

def Position.origin : Position := ⟨0, 0⟩

structure Node where
  name : String
  edit : Bool
  locked : Bool
  position : Position
  payload : Payload
deriving DecidableEq

namespace Node

def ofPayload (name : String) (p : Payload) : Node :=
  { name, edit := false, locked := false, position := .origin, payload := p }

def start : Node := { ofPayload "Start" .start with locked := true }

def placed (n : Node) (x y : Float) : Node := { n with position := ⟨x, y⟩ }

end Node

end FlowBasic
