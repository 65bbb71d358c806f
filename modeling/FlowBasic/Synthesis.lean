import FlowBasic.Listing
import FlowBasic.Routine

namespace FlowBasic

/-- An expression is compound when an operand has to stand in parentheses. -/
structure Expression where
  text : String
  compound : Bool
deriving DecidableEq

namespace Expression

def atom (text : String) : Expression := ⟨text, false⟩

def asOperand (e : Expression) : String := if e.compound then "(" ++ e.text ++ ")" else e.text

end Expression

abbrev Outputs := List (Nat × Expression)

structure Synthesis where
  statements : List Statement
  outputs : Outputs
  /-- Input ports without an expression, in the order in which they were read. -/
  missing : List Nat
deriving DecidableEq

/-- The expressions offered so far, by node and output port. -/
abbrev Offers := List (NodeId × Outputs)

def Offers.get? (o : Offers) (e : Endpoint) : Option Expression :=
  (o.lookup e.node).bind fun outputs => outputs.lookup e.port.toNat

/-- The surroundings of a node that is being written. -/
structure Site where
  id : NodeId
  routine : Routine
  scope : Scope
  offers : Offers

namespace Site

def outgoing (s : Site) : List Link := s.routine.links.filter (·.source.node = s.id)

def incomingValues (s : Site) : List Link :=
  s.routine.links.filter fun l => l.sink.node = s.id && !l.isFlow

/-- The expression on an input port; only the first link into the port counts. -/
def input? (s : Site) (port : Nat) : Option Expression :=
  (s.routine.links.find? (·.enters s.id port)).bind fun l => s.offers.get? l.source

/-- A literal wins over the port, which is then not read. -/
def value (s : Site) (literal : Option Literal) (port : Nat) : String :=
  match literal with
  | some v => v.render
  | none => (s.input? port).elim "" Expression.text

def operand (s : Site) (literal : Option Literal) (port : Nat) : String :=
  match literal with
  | some v => v.render
  | none => (s.input? port).elim "" Expression.asOperand

def missingAt (s : Site) (literal : Option Literal) (port : Nat) : List Nat :=
  if literal.isNone && (s.input? port).isNone then [port] else []

/-- Where control goes by an output port. -/
def flowTarget? (s : Site) (port : Nat) : Option NodeId :=
  (s.outgoing.find? fun l => l.isFlow && l.source.port.toNat = port).map (·.sink.node)

/-- The texts of consecutive arguments. -/
def arguments (s : Site) (base : Nat) : List (Option Literal) → List String
  | [] => []
  | v :: vs => s.value v base :: arguments s (base + 1) vs

def missingFrom (s : Site) (base : Nat) : List (Option Literal) → List Nat
  | [] => []
  | v :: vs => s.missingAt v base ++ missingFrom s (base + 1) vs

def commaList (texts : List String) : String := String.intercalate ", " texts

def callText (name : String) (args : List String) : String := name ++ "(" ++ commaList args ++ ")"

def startOutputs (base : Nat) : List String → Outputs
  | [] => []
  | name :: names => (base, .atom name) :: startOutputs (base + 1) names

def operationText (s : Site) (o : Operation) : String :=
  let left := s.operand (o.operand? .left) 0
  if o.isUnary then o.symbol ++ left
  else left ++ " " ++ o.symbol ++ " " ++ s.operand (o.operand? .right) 1

def conditionText (s : Site) (c : Condition) : String :=
  s.operand (c.operand? .left) 0 ++ " " ++ c.symbol ++ " " ++ s.operand (c.operand? .right) 1

def assignment (s : Site) (name : String) (v : TypedSlot) : Synthesis :=
  match v.literal?, s.input? 2 with
  | none, none => ⟨[], [], [2]⟩
  | literal, _ => ⟨[[.text ("LET " ++ name ++ " = " ++ s.value literal 2)]], [], []⟩

def ending (s : Site) : Ending → Synthesis
  | .abort => ⟨[[.text "PANIC"]], [], []⟩
  | .result _ v =>
    let text := s.value v 1
    ⟨[[.text (if text.isEmpty then "RETURN" else "RETURN " ++ text)]], [], s.missingAt v 1⟩

def branch (s : Site) (b : Branch) : Synthesis :=
  match s.flowTarget? 2 with
  | none => ⟨[], [], [2]⟩
  | some target =>
    let taken := [Fragment.text ("IF (" ++ s.value none 1 ++ ") THEN GOTO "), .jump target]
    let other := match b, s.flowTarget? 3 with
      | .ifElse, some target => [Fragment.text " ELSE GOTO ", .jump target]
      | _, _ => []
    ⟨[taken ++ other], [], s.missingAt none 1⟩

def jump (s : Site) : Synthesis :=
  match s.outgoing.find? Link.isFlow with
  | some l => ⟨[[.text "GOTO ", .jump l.sink.node]], [], []⟩
  | none => ⟨[], [], []⟩

def call (s : Site) (c : Call) : Synthesis :=
  let literals := c.args.values.map TypedSlot.literal?
  let text := callText c.builtin.name (s.arguments c.argBase literals)
  { statements := if c.asProcess then [[.text text]] else []
    outputs := [(c.resultPort, .atom text)]
    missing := s.missingFrom c.argBase literals }

/-- The arguments of a callee that is not known are the values that come in, by port. -/
def looseArguments (s : Site) : List String :=
  (s.incomingValues.mergeSort fun a b => a.sink.port ≤ b.sink.port).map fun l =>
    (s.offers.get? l.source).elim "" Expression.text

/-- A process whose result is read has its call there and not in a statement. -/
def process (s : Site) (name : String) : Synthesis :=
  let callee := s.scope.callee? name
  let unset := (callee.map fun r => List.replicate r.args.size (none : Option Literal)).getD []
  let args := if callee.isSome then s.arguments 2 unset else s.looseArguments
  let text := callText name args
  let missing := s.missingFrom 2 unset
  let readers := s.outgoing.filter fun l => !l.isFlow
  if readers.isEmpty then ⟨[[.text text]], [], missing⟩
  else
    let result := (callee.map fun r => (2 + r.args.size, Expression.atom text)).toList
    ⟨[], result ++ readers.map fun l => (l.source.port.toNat, .atom text), missing⟩

def synthesize (s : Site) : Payload → Synthesis
  | .start => ⟨[], startOutputs 1 s.routine.args.keys, []⟩
  | .argument name => ⟨[], [(0, .atom name)], []⟩
  | .fetch name => ⟨[], s.outgoing.map fun l => (l.source.port.toNat, .atom name), []⟩
  | .assign name v => s.assignment name v
  | .ending e => s.ending e
  | .operation o =>
    { statements := []
      outputs := [(1, ⟨s.operationText o, true⟩)]
      missing := s.missingAt (o.operand? .left) 0 ++
        (if o.isUnary then [] else s.missingAt (o.operand? .right) 1) }
  | .condition c =>
    { statements := []
      outputs := [(1, ⟨s.conditionText c, true⟩)]
      missing := s.missingAt (c.operand? .left) 0 ++ s.missingAt (c.operand? .right) 1 }
  | .branch b => s.branch b
  | .jump => s.jump
  | .call c => s.call c
  | .process name => s.process name

end Site

end FlowBasic
