import FlowBasic.Project.Edit

namespace FlowBasic

/-- Ends with an answer or a refusal, and either way with the state as it has been written. -/
abbrev InPlace (ε σ α : Type) := EStateM ε σ α

namespace InPlace

variable {ε δ σ τ α : Type}

/-- Reads without writing. -/
def ask (f : σ → Except ε α) : InPlace ε σ α := fun s =>
  match f s with
  | .ok a => .ok a s
  | .error e => .error e s

/-- Works on a part of the state; what has been written to the part stays, on a refusal too. -/
def within (part : σ → τ) (put : σ → τ → σ) (m : InPlace ε τ α) : InPlace ε σ α := fun s =>
  match m (part s) with
  | .ok a t => .ok a (put s t)
  | .error e t => .error e (put s t)

/-- Works on a part that may be missing. -/
def borrow (find : σ → Except ε τ) (put : σ → τ → σ) (m : InPlace ε τ α) : InPlace ε σ α := do
  let part ← ask find
  within (fun _ => part) put m

/-- Refuses in other words. -/
def rephrase (f : δ → ε) (m : InPlace δ σ α) : InPlace ε σ α := fun s =>
  match m s with
  | .ok a s => .ok a s
  | .error e s => .error (f e) s

end InPlace

/-- Writes the content of a slot if the literal is of its kind, and tells whether it was. -/
def overwrite {α : Type} (kind? : Literal → Option α) (v : Option Literal) : StateM (Option α) Bool :=
  match narrow kind? v with
  | some content => do
    set content
    return true
  | none => return false

namespace TypedSlot

def write (v : Option Literal) : StateM TypedSlot Bool
  | uint64 c => (overwrite Literal.number? v c).map id uint64
  | string c => (overwrite Literal.text? v c).map id string
  | any _ => (true, any v)

end TypedSlot

namespace Operands

/-- A key other than the two sides is turned down like a literal of the wrong kind. -/
def write {α : Type} (kind? : Literal → Option α) (key : String) (v : Option Literal) :
    StateM (Operands α) Bool := fun ops =>
  match Side.ofName? key with
  | some side => (overwrite kind? v (ops.get side)).map id (ops.set · side)
  | none => (false, ops)

end Operands

def Operation.write (key : String) (v : Option Literal) : StateM Operation Bool
  | uint64 o ops => (Operands.write Literal.number? key v ops).map id (uint64 o)
  | string o ops => (Operands.write Literal.text? key v ops).map id (string o)

def Condition.write (key : String) (v : Option Literal) : StateM Condition Bool
  | uint64 o ops => (Operands.write Literal.number? key v ops).map id (uint64 o)
  | string o ops => (Operands.write Literal.text? key v ops).map id (string o)

namespace Payload

/-- The slot is written first; whether that was refused is looked at afterwards. -/
def writeLiteral (id : NodeId) (slot : String) (v : Option Literal) : InPlace NodeError Payload Unit
  | call c =>
    match c.args.get? slot with
    | none => .error (.unknownSlot id slot) (call c)
    | some s =>
      let (accepted, t) := TypedSlot.write v s
      let written := call { c with args := c.args.insert slot t }
      if accepted then .ok () written else .error (.slotMismatch id slot s.type) written
  | operation o =>
    if (Side.ofName? slot).isNone then .error (.unknownSlot id slot) (operation o)
    else
      let (accepted, o) := Operation.write slot v o
      if accepted then .ok () (operation o) else .error (.slotMismatch id slot o.type) (operation o)
  | condition c =>
    if (Side.ofName? slot).isNone then .error (.unknownSlot id slot) (condition c)
    else
      let (accepted, c) := Condition.write slot v c
      if accepted then .ok () (condition c) else .error (.slotMismatch id slot c.type) (condition c)
  | p => .ok () p

end Payload

def NodeMap.borrow {α : Type} (id : NodeId) (m : InPlace NodeError Node α) :
    InPlace NodeError NodeMap α :=
  InPlace.borrow (·.find id) (·.insert id ·) m

def NodeEdit.perform : NodeEdit → InPlace NodeError NodeMap NodeId
  | add n => do
    let id ← InPlace.ask NodeMap.next
    modify (·.insert id n)
    return id
  | move id position => do
    NodeMap.borrow id (modify ({ · with position }))
    return id
  | setEdit id edit => do
    NodeMap.borrow id (modify ({ · with edit }))
    return id
  | replace id payload => do
    NodeMap.borrow id (modify ({ · with payload }))
    return id
  | setLiteral id slot v => do
    NodeMap.borrow id
      (InPlace.within Node.payload ({ · with payload := · }) (Payload.writeLiteral id slot v))
    return id
  | delete id => do
    let n ← InPlace.ask (·.find id)
    if n.locked then throw (.locked id)
    modify (·.erase id)
    return id

namespace Link

/-- Puts a link in the place of the first one from its source and tells which place that was. -/
def takeSource (l : Link) : InPlace DuplicateLink (List Link) (Option Nat) := do
  let slot := (← get).findIdx? (·.source = l.source)
  modify fun ls => slot.elim ls (ls.set · l)
  return slot

/-- The first link into the sink, leaving out the place that the new link has. -/
def rival? (l : Link) (slot : Option Nat) (ls : List Link) : Option Nat :=
  ls.zipIdx.findIdx? fun m => m.1.sink = l.sink && some m.2 ≠ slot

/-- Drops the rival at the sink, or takes its place when the link has none yet. -/
def takeSink (l : Link) (slot : Option Nat) : InPlace DuplicateLink (List Link) (Option Nat) := do
  match l.rival? slot (← get), slot with
  | none, _ => return slot
  | some i, some _ =>
    modify (·.eraseIdx i)
    return slot
  | some i, none =>
    modify (·.set i l)
    return some i

end Link

def LinkEdit.perform : LinkEdit → InPlace DuplicateLink (List Link) Unit
  | add l => do
    if l ∈ (← get) then throw ⟨l⟩
    let slot ← l.takeSource
    let slot ← if l.isFlow then pure slot else l.takeSink slot
    if slot.isNone then modify (· ++ [l])
  | remove l => modify fun ls => (ls.findIdx? (· = l)).elim ls ls.eraseIdx
  | removeRelated id => modify (·.filter fun l => !l.touches id)

namespace Routine

def performNodes (e : NodeEdit) : InPlace EditError Routine NodeId :=
  .within nodes ({ · with nodes := · }) (e.perform.rephrase .node)

def performLinks (scope : Scope) (e : LinkEdit) : InPlace EditError Routine Unit := do
  if let .add l := e then
    InPlace.ask fun r => (r.checkLink scope l).mapError .link
  InPlace.within links ({ · with links := · }) (e.perform.rephrase .duplicate)

/-- The node goes first, then its links. -/
def performRemoval (id : NodeId) : InPlace EditError Routine Unit := do
  let _ ← performNodes (.delete id)
  InPlace.within links ({ · with links := · }) ((LinkEdit.removeRelated id).perform.rephrase .duplicate)

end Routine

namespace Project

def borrow {α : Type} (name : String) (m : InPlace EditError Routine α) : InPlace EditError Project α :=
  InPlace.borrow (·.routine name) (·.setRoutine name ·) m

def performAdd (text : String) (isProcess : Bool) : InPlace EditError Project String := do
  let name ← InPlace.ask fun _ => RoutineName.normalize isProcess text
  if (← get).routines.contains name then throw (.routineExists name)
  modify (·.setRoutine name (.fresh isProcess))
  return name

/-- The table is taken out, renamed and put back; then the calls are redirected. -/
def performRename (old text : String) : InPlace EditError Project String := do
  if isReserved old then throw (.routineReserved old)
  let r ← InPlace.ask (·.routine old)
  let new ← InPlace.ask fun _ => RoutineName.normalize r.isProcess text
  let routines := (← get).routines
  if routines.contains new then throw (.routineExists new)
  modify ({ · with routines := .empty })
  modify ({ · with routines := routines.rename old new })
  modify fun p => { p with routines := p.routines.map (Routine.redirect old new) }
  return new

/-- The entry is removed first; that there was none is seen from what came out. -/
def performDelete (name : String) : InPlace EditError Project Routine := do
  if isReserved name then throw (.routineReserved name)
  let removed := (← get).routine name
  modify fun p => { p with routines := p.routines.erase name }
  InPlace.ask fun _ => removed

/-- The link is checked against the routines of the project before its routine is written to. -/
def performLinks (function : String) (e : LinkEdit) : InPlace EditError Project Unit := do
  if let .add l := e then
    let r ← InPlace.ask (·.routine function)
    InPlace.ask fun p => (r.checkLink p.scope l).mapError .link
  borrow function (.within Routine.links ({ · with links := · }) (e.perform.rephrase .duplicate))

end Project

def ProjectEdit.perform : ProjectEdit → InPlace EditError Project Outcome
  | addRoutine text isProcess => return .name (← Project.performAdd text isProcess)
  | renameRoutine old text => return .name (← Project.performRename old text)
  | deleteRoutine name => return .removed (← Project.performDelete name)
  | declareArgument routine name t => do
    Project.borrow routine (modify fun r => { r with args := r.args.insert name t })
    return .done
  | declareVariable routine name t => do
    Project.borrow routine (modify fun r => { r with vars := r.vars.insert name t })
    return .done
  | nodes routine e => return .node (← Project.borrow routine (Routine.performNodes e))
  | links routine e => do
    Project.performLinks routine e
    return .done
  | linksAlone routine e => do
    Project.borrow routine (Routine.performLinks none e)
    return .done
  | addNode routine name payload position =>
    return .node (← Project.borrow routine
      (Routine.performNodes (.add { Node.ofPayload name payload with position })))
  | removeNode routine id => do
    Project.borrow routine (Routine.performRemoval id)
    return .done
  | merge other overwrite => do
    let (p, names) := (← get).merge other overwrite
    set p
    return .names names

end FlowBasic
