import FlowBasic.Link

namespace FlowBasic

namespace Link

/-- Puts a link in the place of the first one that leaves from its source. -/
def replaceSource (l : Link) : List Link → Option (List Link)
  | [] => none
  | m :: ms =>
    if m.source = l.source then some (l :: ms) else (replaceSource l ms).map (m :: ·)

/-- Puts a link in the place of the first one that ends in its sink. -/
def replaceSink (l : Link) : List Link → Option (List Link)
  | [] => none
  | m :: ms =>
    if m.sink = l.sink then some (l :: ms) else (replaceSink l ms).map (m :: ·)

/-- Drops the first other link that ends in the same sink. -/
def evictSink (l : Link) : List Link → List Link
  | [] => []
  | m :: ms => if m ≠ l ∧ m.sink = l.sink then ms else m :: evictSink l ms

/-- Adds a link that the list does not hold. -/
def place (l : Link) (ls : List Link) : List Link :=
  match replaceSource l ls with
  | some ms => if l.isFlow then ms else evictSink l ms
  | none => if l.isFlow then ls ++ [l] else (replaceSink l ls).getD (ls ++ [l])

end Link

inductive LinkEdit where
  | add (l : Link)
  | remove (l : Link)
  | removeRelated (id : NodeId)
deriving DecidableEq

/-- Refused exactly when the link to add is already there. -/
structure DuplicateLink where
  link : Link
deriving DecidableEq

def DuplicateLink.message (e : DuplicateLink) : String :=
  "link " ++ e.link.source.text ++ " -> " ++ e.link.sink.text ++ " already exists"

namespace LinkEdit

def apply (ls : List Link) : LinkEdit → Except DuplicateLink (List Link)
  | add l => if l ∈ ls then .error ⟨l⟩ else .ok (l.place ls)
  | remove l => .ok (ls.erase l)
  | removeRelated id => .ok (ls.filter (fun l => !l.touches id))

/-- A refused edit leaves the list as it is. -/
def applyD (ls : List Link) (e : LinkEdit) : List Link :=
  match e.apply ls with
  | .ok ms => ms
  | .error _ => ls

end LinkEdit

end FlowBasic
