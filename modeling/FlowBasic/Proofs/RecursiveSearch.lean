import FlowBasic.Proofs.TraversalOrder
import Mathlib.Logic.Function.Iterate

namespace FlowBasic

/-- What a search has found, in the order in which it was found. -/
structure Found where
  finished : List NodeId
  backEdges : List BackEdge
deriving DecidableEq

namespace Found

/-- The number of nodes off a path. -/
def offPath (ids path : List NodeId) : Nat := (ids.filter (· ∉ path)).length

theorem offPath_cons_lt {ids path : List NodeId} {t : NodeId} (ht : t ∈ ids) (hnew : t ∉ path) :
    offPath ids (t :: path) < offPath ids path := by
  have hsplit : ids.filter (· ∉ t :: path) = (ids.filter (· ∉ path)).filter (· ≠ t) := by
    rw [List.filter_filter]
    apply List.filter_congr
    intro u _
    simp
  rw [offPath, offPath, hsplit]
  refine List.length_filter_lt_length_iff_exists.mpr ⟨t, List.mem_filter.mpr ⟨ht, ?_⟩, by simp⟩
  simpa using hnew

mutual

/-- Visits a node: follows its links, then appends the node. The nodes of the visits under way form
the path to it. -/
def visit (ids : List NodeId) (links : List Link) (path : List NodeId) (id : NodeId) (f : Found) :
    Found :=
  let f := follow ids links (id :: path) id links f
  { f with finished := f.finished ++ [id] }
termination_by (offPath ids (id :: path), links.length + 1)

/-- Follows the links of a node one by one. A link to a missing node is skipped, one to a finished
node leads to nothing new, and one to a node under way is a back edge. -/
def follow (ids : List NodeId) (links : List Link) (path : List NodeId) (id : NodeId) :
    List Link → Found → Found
  | [], f => f
  | l :: rest, f =>
    if l.source.node = id ∧ l.sink.node ∈ ids then
      if l.sink.node ∈ f.finished then follow ids links path id rest f
      else if l.sink.node ∈ path then
        follow ids links path id rest { f with backEdges := f.backEdges ++ [⟨id, l.sink.node⟩] }
      else follow ids links path id rest (visit ids links path l.sink.node f)
    else follow ids links path id rest f
termination_by rest => (offPath ids path, rest.length)
decreasing_by
  · exact Prod.Lex.right _ (Nat.lt_succ_self _)
  · exact Prod.Lex.right _ (Nat.lt_succ_self _)
  · next hlink _ hnew => exact Prod.Lex.left _ _ (offPath_cons_lt hlink.2 hnew)
  · exact Prod.Lex.right _ (Nat.lt_succ_self _)
  · exact Prod.Lex.right _ (Nat.lt_succ_self _)

end

/-- Visits a root unless an earlier visit has reached it. -/
def visitRoot (ids : List NodeId) (links : List Link) (f : Found) (id : NodeId) : Found :=
  if id ∈ f.finished then f else visit ids links [] id f

def empty : Found := ⟨[], []⟩

/-- The finished nodes, latest first. -/
def traversal (f : Found) : Traversal := ⟨f.finished.reverse, f.backEdges⟩

/-- The search with a stack that has found as much. -/
def search (f : Found) (stack : List (NodeId × List NodeId)) : Search :=
  ⟨stack, f.finished.reverse, f.backEdges.reverse⟩

end Found

namespace Search

variable {ids : List NodeId} {links : List Link} {succ : NodeId → List NodeId}

/-- Some number of steps leads from one state to the other. -/
def Reaches (succ : NodeId → List NodeId) (s s' : Search) : Prop := ∃ n, (step succ)^[n] s = s'

theorem Reaches.refl (s : Search) : Reaches succ s s := ⟨0, rfl⟩

theorem Reaches.step {s s' : Search} (h : Reaches succ (s.step succ) s') : Reaches succ s s' := by
  obtain ⟨n, hn⟩ := h
  exact ⟨n + 1, hn⟩

theorem Reaches.trans {s s' s'' : Search} (h : Reaches succ s s') (h' : Reaches succ s' s'') :
    Reaches succ s s'' := by
  obtain ⟨n, rfl⟩ := h
  obtain ⟨n', rfl⟩ := h'
  exact ⟨n' + n, Function.iterate_add_apply _ n' n s⟩

theorem step_idle {s : Search} (h : s.stack = []) : s.step succ = s := by
  simp only [Search.step, h]

theorem run_eq_iterate (fuel : Nat) (s : Search) : run succ fuel s = (Search.step succ)^[fuel] s := by
  induction fuel generalizing s with
  | zero => rfl
  | succ fuel ih =>
    rw [run, Function.iterate_succ_apply]
    split
    · next hempty =>
      have hidle : s.step succ = s := step_idle (List.isEmpty_iff.mp hempty)
      rw [hidle, Function.iterate_fixed hidle]
    · exact ih _

/-- Once no node is in progress, nothing changes any more. -/
theorem iterate_idle {s : Search} {m n : Nat} (hm : ((Search.step succ)^[m] s).stack = []) (hle : m ≤ n) :
    (Search.step succ)^[n] s = (Search.step succ)^[m] s := by
  obtain ⟨k, rfl⟩ := Nat.exists_eq_add_of_le' hle
  rw [Function.iterate_add_apply, Function.iterate_fixed (step_idle hm)]

/-- A run that comes to an end ends in the only idle state that can be reached. -/
theorem run_eq_of_reaches {fuel : Nat} {s s' : Search} (hrun : (run succ fuel s).stack = [])
    (hreaches : Reaches succ s s') (hidle : s'.stack = []) : run succ fuel s = s' := by
  obtain ⟨n, rfl⟩ := hreaches
  rw [run_eq_iterate] at hrun ⊢
  rcases Nat.le_total fuel n with hle | hle
  · exact (iterate_idle hrun hle).symm
  · exact iterate_idle hidle hle

theorem step_finish (f : Found) (id : NodeId) (outer : List (NodeId × List NodeId)) :
    (f.search ((id, []) :: outer)).step succ =
      ({ f with finished := f.finished ++ [id] } : Found).search outer := by
  simp [Found.search, Search.step]

theorem contains_finished_search {f : Found} {stack : List (NodeId × List NodeId)} {t : NodeId} :
    (f.search stack).finished.contains t = true ↔ t ∈ f.finished := by
  rw [List.contains_iff_mem]
  exact List.mem_reverse

theorem step_finished {f : Found} {t : NodeId} (h : t ∈ f.finished) (id : NodeId) (ts : List NodeId)
    (outer : List (NodeId × List NodeId)) :
    (f.search ((id, t :: ts) :: outer)).step succ = f.search ((id, ts) :: outer) :=
  if_pos (contains_finished_search.mpr h)

theorem step_backEdge {f : Found} {id t : NodeId} {outer : List (NodeId × List NodeId)}
    (h : t ∉ f.finished) (hpath : t ∈ id :: outer.map Prod.fst) (ts : List NodeId) :
    (f.search ((id, t :: ts) :: outer)).step succ =
      ({ f with backEdges := f.backEdges ++ [⟨id, t⟩] } : Found).search ((id, ts) :: outer) := by
  refine (if_neg (h ∘ contains_finished_search.mp)).trans
    ((if_pos (List.contains_iff_mem.mpr hpath)).trans ?_)
  simp [Found.search]

theorem step_enter {f : Found} {id t : NodeId} {outer : List (NodeId × List NodeId)}
    (h : t ∉ f.finished) (hpath : t ∉ id :: outer.map Prod.fst) (ts : List NodeId) :
    (f.search ((id, t :: ts) :: outer)).step succ = f.search ((t, succ t) :: (id, ts) :: outer) :=
  (if_neg (h ∘ contains_finished_search.mp)).trans (if_neg (hpath ∘ List.contains_iff_mem.mp))

theorem successors_cons_of_link {l : Link} {id : NodeId} (h : l.source.node = id ∧ l.sink.node ∈ ids)
    (rest : List Link) :
    successors ids (l :: rest) id = l.sink.node :: successors ids rest id := by
  simp [successors, h.1, h.2]

theorem successors_cons_of_skipped {l : Link} {id : NodeId}
    (h : ¬ (l.source.node = id ∧ l.sink.node ∈ ids)) (rest : List Link) :
    successors ids (l :: rest) id = successors ids rest id := by
  rw [successors, List.filter_cons_of_neg (by simpa using h)]
  rfl

/-- The search with a stack enters a node, follows its links and leaves it as a visit does. -/
theorem reaches_visit (path : List NodeId) (id : NodeId) (f : Found) :
    ∀ outer : List (NodeId × List NodeId), outer.map Prod.fst = path →
      Reaches (successors ids links) (f.search ((id, successors ids links id) :: outer))
        ((Found.visit ids links path id f).search outer) := by
  -- the successors that are pending on the stack are those along the links still to follow
  refine Found.visit.induct ids links
    (fun path id f => ∀ outer : List (NodeId × List NodeId), outer.map Prod.fst = path →
      Reaches (successors ids links) (f.search ((id, successors ids links id) :: outer))
        ((Found.visit ids links path id f).search outer))
    (fun path id rest f => ∀ outer : List (NodeId × List NodeId), id :: outer.map Prod.fst = path →
      Reaches (successors ids links) (f.search ((id, successors ids rest id) :: outer))
        ((Found.follow ids links path id rest f).search ((id, []) :: outer)))
    ?visit ?last ?finished ?backEdge ?enter ?skipped path id f
  case visit =>
    intro path id f ih outer houter
    refine (ih outer (by rw [houter])).trans (.step ?_)
    rw [step_finish, Found.visit]
    exact .refl _
  case last =>
    intro path id f outer houter
    rw [Found.follow]
    exact .refl _
  case finished =>
    intro path id l rest f hlink hdone ih outer houter
    rw [Found.follow, if_pos hlink, if_pos hdone, successors_cons_of_link hlink]
    refine .step ?_
    rw [step_finished hdone]
    exact ih outer houter
  case backEdge =>
    intro path id l rest f hlink hdone hpath ih outer houter
    rw [Found.follow, if_pos hlink, if_neg hdone, if_pos hpath, successors_cons_of_link hlink]
    refine .step ?_
    rw [step_backEdge hdone (houter ▸ hpath)]
    exact ih outer houter
  case enter =>
    intro path id l rest f hlink hdone hpath ihvisit ih outer houter
    rw [Found.follow, if_pos hlink, if_neg hdone, if_neg hpath, successors_cons_of_link hlink]
    refine .step ?_
    rw [step_enter hdone (houter ▸ hpath)]
    exact (ihvisit ((id, successors ids rest id) :: outer) houter).trans (ih outer houter)
  case skipped =>
    intro path id l rest f hlink ih outer houter
    rw [Found.follow, if_neg hlink, successors_cons_of_skipped hlink]
    exact ih outer houter

theorem root_search (hids : ids.Nodup) {fuel : Nat} (hfuel : ids.length + links.length ≤ fuel) {f : Found}
    (h : Settled ids (successors ids links) (f.search [])) {id : NodeId} (hid : id ∈ ids) :
    (f.search []).root (successors ids links) fuel id = (f.visitRoot ids links id).search [] := by
  have hcost := Nat.le_trans (sum_cost_le hids links) hfuel
  have hend := (settled_root hids mem_ids_of_mem_successors hcost h hid).1.idle
  have hvisited : (f.search []).visited id = true ↔ id ∈ f.finished := by
    rw [visited_iff, h.mem_iff]
    exact List.mem_reverse
  rw [root] at hend ⊢
  rw [Found.visitRoot]
  by_cases hdone : id ∈ f.finished
  · rw [if_pos (hvisited.mpr hdone), if_pos hdone]
  · rw [if_neg (hdone ∘ hvisited.mp)] at hend ⊢
    rw [if_neg hdone]
    exact run_eq_of_reaches hend (reaches_visit [] id f [] rfl) rfl

/-- Between two roots the search with a stack is idle and has found what the visits have. -/
theorem foldl_root (hids : ids.Nodup) {fuel : Nat} (hfuel : ids.length + links.length ≤ fuel)
    (roots : List NodeId) (hroots : ∀ u ∈ roots, u ∈ ids) {f : Found}
    (h : Settled ids (successors ids links) (f.search [])) :
    roots.foldl (root (successors ids links) fuel) (f.search []) =
      (roots.foldl (Found.visitRoot ids links) f).search [] := by
  induction roots generalizing f with
  | nil => rfl
  | cons id roots ih =>
    have hid := hroots id List.mem_cons_self
    have hroot := root_search hids hfuel h hid
    have hcost := Nat.le_trans (sum_cost_le hids links) hfuel
    have hsettled := (settled_root hids mem_ids_of_mem_successors hcost h hid).1
    rw [hroot] at hsettled
    rw [List.foldl_cons, List.foldl_cons, hroot]
    exact ih (fun u hu => hroots u (List.mem_cons_of_mem _ hu)) hsettled

end Search

/-- A traversal is what the recursive search finds from the nodes by ascending id. With every bound on
its steps that leaves time for every node and every link, the search with a stack comes to an end
before it goes on to the next root. -/
theorem traverse_recursive (m : NodeMap) (links : List Link) :
    m.ids.Pairwise (· < ·) ∧
    (∀ roots, roots <+: m.ids → ∀ fuel, m.ids.length + links.length ≤ fuel →
      (roots.foldl (Search.root (successors m.ids links) fuel) ⟨[], [], []⟩).stack = []) ∧
    traverse m.ids links = (m.ids.foldl (Found.visitRoot m.ids links) .empty).traversal := by
  have hinit := Search.settled_init m.ids (successors m.ids links)
  refine ⟨List.pairwise_map.mpr m.sorted, ?_, ?_⟩
  · intro roots hroots fuel hfuel
    have hroot := Search.foldl_root m.nodup_ids hfuel roots (fun u hu => hroots.subset hu) (f := .empty) hinit
    exact congrArg Search.stack hroot
  · have hroot := Search.foldl_root m.nodup_ids (Nat.le_refl _) m.ids (fun u hu => hu) (f := .empty) hinit
    have htraverse : traverse m.ids links = ⟨_, _⟩ := congrArg
      (fun s : Search => Traversal.mk s.finished s.backEdges.reverse) hroot
    rw [htraverse, Found.search, List.reverse_reverse]
    rfl

end FlowBasic
