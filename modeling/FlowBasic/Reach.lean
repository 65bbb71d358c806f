import FlowBasic.Routine

namespace FlowBasic

/-- A search under way: nodes to visit, each with whether control led to it; the nodes that control
has reached; and all nodes reached. -/
structure Reach where
  queue : List (NodeId × Bool)
  onPath : List NodeId
  reached : List NodeId
deriving DecidableEq

namespace Reach

def flowTargets (links : List Link) (id : NodeId) : List NodeId :=
  (links.filter fun l => l.source.node = id && l.isFlow).map (·.sink.node)

def valueSources (links : List Link) (id : NodeId) : List NodeId :=
  (links.filter fun l => l.sink.node = id && !l.isFlow).map (·.source.node)

/-- Follows the flow links of a node when control first reaches it, and its value links when it is
first reached at all. -/
def step (links : List Link) (s : Reach) : Reach :=
  match s.queue with
  | [] => s
  | (id, viaFlow) :: rest =>
    let entered := viaFlow && !s.onPath.contains id
    let first := !s.reached.contains id
    { queue := rest ++
        (if entered then (flowTargets links id).map (·, true) else []) ++
        (if first then (valueSources links id).map (·, false) else [])
      onPath := if entered then id :: s.onPath else s.onPath
      reached := if first then id :: s.reached else s.reached }

def run (links : List Link) : Nat → Reach → Reach
  | 0, s => s
  | fuel + 1, s => if s.queue.isEmpty then s else run links fuel (s.step links)

end Reach

/-- Every link is followed at most once, which bounds the number of steps. -/
def reachable (links : List Link) (start : NodeId) : List NodeId :=
  (Reach.run links (links.length + 1) ⟨[(start, true)], [], []⟩).reached

end FlowBasic
