import FlowBasic.Project

namespace FlowBasic

inductive ProjectEdit where
  | addRoutine (text : String) (isProcess : Bool)
  | renameRoutine (old text : String)
  | deleteRoutine (name : String)
  | declareArgument (routine name : String) (type : ValueType)
  | declareVariable (routine name : String) (type : ValueType)
  | nodes (routine : String) (e : NodeEdit)
  | links (routine : String) (e : LinkEdit)
  | linksAlone (routine : String) (e : LinkEdit)
  | addNode (routine name : String) (payload : Payload) (position : Position)
  | removeNode (routine : String) (id : NodeId)
  | merge (other : Project) (overwrite : Bool)
deriving DecidableEq

/-- What an edit tells about itself. -/
inductive Outcome where
  | done
  | name (text : String)
  | names (texts : List String)
  | node (id : NodeId)
  | removed (r : Routine)
deriving DecidableEq

namespace ProjectEdit

def apply (p : Project) : ProjectEdit → Except EditError (Project × Outcome)
  | addRoutine text isProcess => (p.addRoutine text isProcess).map fun r => (r.1, .name r.2)
  | renameRoutine old text => (p.renameRoutine old text).map fun r => (r.1, .name r.2)
  | deleteRoutine name => (p.deleteRoutine name).map fun r => (r.1, .removed r.2)
  | declareArgument routine name t => (p.declareArgument routine name t).map (·, .done)
  | declareVariable routine name t => (p.declareVariable routine name t).map (·, .done)
  | nodes routine e => (p.updateNodes routine e).map fun r => (r.1, .node r.2)
  | links routine e => (p.updateLinks routine e).map (·, .done)
  | linksAlone routine e => (p.updateLinksAlone routine e).map (·, .done)
  | addNode routine name payload position =>
    (p.addNode routine name payload position).map fun r => (r.1, .node r.2)
  | removeNode routine id => (p.removeNode routine id).map (·, .done)
  | merge other overwrite =>
    let r := p.merge other overwrite
    .ok (r.1, .names r.2)

def applyD (p : Project) (e : ProjectEdit) : Project :=
  match e.apply p with
  | .ok r => r.1
  | .error _ => p

end ProjectEdit

def Project.run (p : Project) (es : List ProjectEdit) : Project := es.foldl ProjectEdit.applyD p

end FlowBasic
