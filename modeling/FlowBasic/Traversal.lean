import FlowBasic.Routine

namespace FlowBasic

structure BackEdge where
  source : NodeId
  sink : NodeId
deriving DecidableEq

structure Traversal where
  order : List NodeId
  backEdges : List BackEdge
deriving DecidableEq

/-- The nodes that a node links to, one for each link; links to missing nodes do not count. -/
def successors (ids : List NodeId) (links : List Link) (id : NodeId) : List NodeId :=
  (links.filter fun l => l.source.node = id && ids.contains l.sink.node).map (·.sink.node)

/-- A depth-first search under way: the nodes in progress with the successors still to visit,
innermost first; the finished nodes, latest first; and the back edges, latest first. -/
structure Search where
  stack : List (NodeId × List NodeId)
  finished : List NodeId
  backEdges : List BackEdge
deriving DecidableEq

namespace Search

def inProgress (s : Search) : List NodeId := s.stack.map Prod.fst

def visited (s : Search) (id : NodeId) : Bool := s.finished.contains id || s.inProgress.contains id

/-- Visits one successor of the innermost node, or finishes that node when none is left. -/
def step (succ : NodeId → List NodeId) (s : Search) : Search :=
  match s.stack with
  | [] => s
  | (id, []) :: rest => { s with stack := rest, finished := id :: s.finished }
  | (id, t :: ts) :: rest =>
    let stack := (id, ts) :: rest
    if s.finished.contains t then { s with stack }
    else if s.inProgress.contains t then { s with stack, backEdges := ⟨id, t⟩ :: s.backEdges }
    else { s with stack := (t, succ t) :: stack }

def run (succ : NodeId → List NodeId) : Nat → Search → Search
  | 0, s => s
  | fuel + 1, s => if s.stack.isEmpty then s else run succ fuel (s.step succ)

/-- Searches from a root unless an earlier search has seen it. -/
def root (succ : NodeId → List NodeId) (fuel : Nat) (s : Search) (id : NodeId) : Search :=
  if s.visited id then s else run succ fuel { s with stack := (id, succ id) :: s.stack }

end Search

/-- Every step finishes a node or passes a link, which bounds their number. -/
def traverse (ids : List NodeId) (links : List Link) : Traversal :=
  let s := ids.foldl (Search.root (successors ids links) (ids.length + links.length)) ⟨[], [], []⟩
  ⟨s.finished, s.backEdges.reverse⟩

def Routine.traversal (r : Routine) : Traversal := traverse r.nodes.ids r.links

end FlowBasic
