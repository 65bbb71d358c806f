import FlowBasic.Proofs.Validity

namespace FlowBasic

/-- The link without its ports. -/
def Link.edge (l : Link) : BackEdge := ⟨l.source.node, l.sink.node⟩

/-- Gathering a list key by key leaves out just the elements whose key is not asked for. -/
theorem flatMap_filter_perm {α κ : Type} [DecidableEq κ] {keys : List κ} (hkeys : keys.Nodup)
    (key : α → κ) (xs : List α) :
    (keys.flatMap fun k => xs.filter fun x => key x = k).Perm (xs.filter fun x => key x ∈ keys) := by
  induction keys with
  | nil => simp
  | cons k keys ih =>
    obtain ⟨hnew, hkeys⟩ := List.nodup_cons.mp hkeys
    let asked := xs.filter fun x => key x ∈ k :: keys
    have hfirst : asked.filter (fun x => key x = k) = xs.filter fun x => key x = k := by
      rw [List.filter_filter]
      apply List.filter_congr
      intro x _
      by_cases hx : key x = k <;> simp [hx]
    have hrest : asked.filter (fun x => !decide (key x = k)) = xs.filter fun x => key x ∈ keys := by
      rw [List.filter_filter]
      apply List.filter_congr
      intro x _
      by_cases hx : key x = k <;> simp [hx, hnew]
    have hsplit := List.filter_append_perm (fun x => decide (key x = k)) asked
    rw [hfirst, hrest] at hsplit
    rw [List.flatMap_cons]
    exact ((ih hkeys).append_left _).trans hsplit

namespace Search

variable {ids : List NodeId} {succ : NodeId → List NodeId}

/-- The successors of a node in progress that are no longer pending. -/
def passed (succ : NodeId → List NodeId) (f : NodeId × List NodeId) : List NodeId :=
  (succ f.1).take ((succ f.1).length - f.2.length)

theorem passed_eq {id : NodeId} {gone pending : List NodeId} (h : succ id = gone ++ pending) :
    passed succ (id, pending) = gone := by
  simp [passed, h]

/-- The edges passed so far from a node in progress to itself or to a node around it. -/
def returning (succ : NodeId → List NodeId) : List (NodeId × List NodeId) → List BackEdge
  | [] => []
  | f :: outer =>
    ((passed succ f).filter (· ∈ f.1 :: outer.map Prod.fst)).map (⟨f.1, ·⟩) ++ returning succ outer

/-- The edges from finished nodes, latest first, to nodes that have not finished before them. -/
def backward (succ : NodeId → List NodeId) : List NodeId → List BackEdge
  | [] => []
  | u :: earlier => ((succ u).filter (· ∉ earlier)).map (⟨u, ·⟩) ++ backward succ earlier

/-- The back edges noted so far are the edges passed that do not lead to a node that finishes first. -/
def Noted (succ : NodeId → List NodeId) (s : Search) : Prop :=
  s.backEdges.Perm (returning succ s.stack ++ backward succ s.finished)

/-- A node on which the search begins has passed no edge. -/
theorem returning_start (id : NodeId) (rest : List (NodeId × List NodeId)) :
    returning succ ((id, succ id) :: rest) = returning succ rest := by
  simp [returning, passed]

/-- Passing an edge counts when it leads back into the stack. -/
theorem returning_pass {id t : NodeId} {gone ts : List NodeId} (h : succ id = gone ++ t :: ts)
    (rest : List (NodeId × List NodeId)) :
    (returning succ ((id, ts) :: rest)).Perm
      ((if t ∈ id :: rest.map Prod.fst then [⟨id, t⟩] else []) ++
        returning succ ((id, t :: ts) :: rest)) := by
  have hbefore : passed succ (id, t :: ts) = gone := passed_eq h
  have hafter : passed succ (id, ts) = gone ++ [t] := passed_eq (by simpa using h)
  simp only [returning, hbefore, hafter, List.filter_append, List.map_append]
  by_cases ht : t ∈ id :: rest.map Prod.fst
  · rw [List.filter_singleton, if_pos ht, decide_eq_true ht, List.append_assoc]
    exact List.perm_middle
  · rw [List.filter_singleton, if_neg ht, decide_eq_false ht]
    simp

theorem noted_finish {id : NodeId} {rest : List (NodeId × List NodeId)} {finished : List NodeId}
    {backEdges : List BackEdge} (hsound : Sound ids succ ⟨(id, []) :: rest, finished, backEdges⟩)
    (h : Noted succ ⟨(id, []) :: rest, finished, backEdges⟩) :
    Noted succ ⟨rest, id :: finished, backEdges⟩ := by
  obtain ⟨gone, hsplit, hvisited⟩ := hsound.pending (id, []) List.mem_cons_self
  rw [List.append_nil] at hsplit
  have hdisjoint := (List.nodup_append.mp hsound.nodup).2.2
  -- every successor has been visited, so it is around the node or has finished before it
  have hfilter : (succ id).filter (· ∈ id :: rest.map Prod.fst) = (succ id).filter (· ∉ finished) := by
    apply List.filter_congr
    intro t ht
    rw [decide_eq_decide]
    constructor
    · intro hin hdone
      exact hdisjoint t hin t hdone rfl
    · intro hopen
      exact (List.mem_append.mp (hvisited t (hsplit ▸ ht))).resolve_right hopen
  have hpassed : passed succ (id, []) = succ id := passed_eq (by simp)
  have hmove := List.perm_append_comm_assoc
    (((succ id).filter (· ∉ finished)).map (⟨id, ·⟩)) (returning succ rest) (backward succ finished)
  simp only [Noted, returning, hpassed, hfilter, List.append_assoc] at h
  exact h.trans hmove

theorem noted_pass {id t : NodeId} {ts : List NodeId} {rest : List (NodeId × List NodeId)}
    {finished : List NodeId} {backEdges : List BackEdge}
    (hsound : Sound ids succ ⟨(id, t :: ts) :: rest, finished, backEdges⟩)
    (h : Noted succ ⟨(id, t :: ts) :: rest, finished, backEdges⟩) :
    Noted succ ⟨(id, ts) :: rest, finished,
      (if t ∈ id :: rest.map Prod.fst then [⟨id, t⟩] else []) ++ backEdges⟩ := by
  obtain ⟨gone, hsplit, _⟩ := hsound.pending (id, t :: ts) List.mem_cons_self
  have hreturning := returning_pass hsplit rest
  have hmore := (hreturning.append_right (backward succ finished)).symm
  rw [List.append_assoc] at hmore
  exact (List.Perm.append_left _ h).trans hmore

theorem noted_step {s : Search} (hsound : Sound ids succ s) (h : Noted succ s) :
    Noted succ (s.step succ) := by
  obtain ⟨stack, finished, backEdges⟩ := s
  match stack with
  | [] => exact h
  | (id, []) :: rest => exact noted_finish hsound h
  | (id, t :: ts) :: rest =>
    have hpass := noted_pass hsound h
    simp only [step]
    split
    · next hdone =>
      have hout : t ∉ id :: rest.map Prod.fst := fun hin =>
        (List.nodup_append.mp hsound.nodup).2.2 t hin t (List.contains_iff_mem.mp hdone) rfl
      rwa [if_neg hout] at hpass
    · next hdone =>
      split
      · next hin =>
        have hin : t ∈ id :: rest.map Prod.fst := List.contains_iff_mem.mp hin
        rwa [if_pos hin] at hpass
      · next hin =>
        have hout : t ∉ id :: rest.map Prod.fst := fun hold => hin (List.contains_iff_mem.mpr hold)
        rw [if_neg hout] at hpass
        simpa only [Noted, returning_start, List.nil_append] using hpass

theorem noted_run (hsucc : ∀ u, ∀ t ∈ succ u, t ∈ ids) (fuel : Nat) {s : Search}
    (hsound : Sound ids succ s) (h : Noted succ s) : Noted succ (run succ fuel s) := by
  induction fuel generalizing s with
  | zero => exact h
  | succ fuel ih =>
    simp only [run]
    split
    · exact h
    · exact ih (sound_step hsucc hsound) (noted_step hsound h)

theorem noted_root (hsucc : ∀ u, ∀ t ∈ succ u, t ∈ ids) (fuel : Nat) {s : Search}
    (hsettled : Settled ids succ s) (h : Noted succ s) {id : NodeId} (hid : id ∈ ids) :
    Noted succ (s.root succ fuel id) := by
  simp only [root]
  split
  · exact h
  · next hnew =>
    rw [visited_iff, hsettled.mem_iff] at hnew
    have hstart : Noted succ { s with stack := [(id, succ id)] } := by
      simpa only [Noted, returning_start, hsettled.idle] using h
    rw [hsettled.idle]
    exact noted_run hsucc fuel (hsettled.sound_start hid hnew) hstart

theorem noted_roots (hids : ids.Nodup) (hsucc : ∀ u, ∀ t ∈ succ u, t ∈ ids) {fuel : Nat}
    (hfuel : (ids.map fun u => 1 + (succ u).length).sum ≤ fuel) (roots : List NodeId)
    (hroots : ∀ u ∈ roots, u ∈ ids) {s : Search} (hsettled : Settled ids succ s)
    (h : Noted succ s) : Noted succ (roots.foldl (root succ fuel) s) := by
  induction roots generalizing s with
  | nil => exact h
  | cons id roots ih =>
    have hid := hroots id List.mem_cons_self
    have hnext := (settled_root hids hsucc hfuel hsettled hid).1
    exact ih (fun u hu => hroots u (List.mem_cons_of_mem _ hu)) hnext
      (noted_root hsucc fuel hsettled h hid)

/-- In an order without repetition, what has not finished before a node does not come after it. -/
theorem backward_eq_flatMap {order : List NodeId} (horder : order.Nodup)
    (hsucc : ∀ u, ∀ t ∈ succ u, t ∈ order) (earlier later : List NodeId)
    (hsplit : order = earlier ++ later) :
    backward succ later =
      later.flatMap fun u => ((succ u).filter fun t => !decide (Precedes order u t)).map (⟨u, ·⟩) := by
  induction later generalizing earlier with
  | nil => rfl
  | cons u later ih =>
    have hrest := ih (earlier ++ [u]) (by simpa using hsplit)
    have hfilter : (succ u).filter (· ∉ later) =
        (succ u).filter fun t => !decide (Precedes order u t) := by
      apply List.filter_congr
      intro t ht
      have hmem := hsucc u t ht
      rw [hsplit] at horder hmem ⊢
      simp only [precedes_append_cons_iff horder hmem, decide_not]
    rw [backward, List.flatMap_cons, hfilter, hrest]

end Search

/-- The edges from a node to the successors that pass a test are its links whose sinks pass it. -/
theorem map_filter_successors (ids : List NodeId) (links : List Link) (u : NodeId)
    (test : NodeId → NodeId → Bool) :
    ((successors ids links u).filter (test u)).map (BackEdge.mk u) =
      ((links.filter fun l => ids.contains l.sink.node && test l.source.node l.sink.node).filter
        fun l => l.source.node = u).map Link.edge := by
  rw [successors, List.filter_map, List.map_map, List.filter_filter, List.filter_filter]
  have hsame : (links.filter fun l => (test u ∘ (·.sink.node)) l &&
        (l.source.node = u && ids.contains l.sink.node)) =
      links.filter fun l => l.source.node = u &&
        (ids.contains l.sink.node && test l.source.node l.sink.node) := by
    apply List.filter_congr
    intro l _
    by_cases hl : l.source.node = u
    · simp [hl, Bool.and_comm]
    · simp [hl]
  rw [hsame]
  apply List.map_congr_left
  intro l hl
  have hsource := (List.mem_filter.mp hl).2
  simp only [Bool.and_eq_true, decide_eq_true_eq] at hsource
  simp [Link.edge, hsource.1]

/-- The links between nodes that do not lead forward in an order. -/
def backLinks (ids : List NodeId) (order : List NodeId) (links : List Link) : List Link :=
  links.filter fun l => ids.contains l.source.node && ids.contains l.sink.node &&
    !decide (Precedes order l.source.node l.sink.node)

theorem mem_backLinks {ids order : List NodeId} {links : List Link} {l : Link} :
    l ∈ backLinks ids order links ↔ l ∈ links ∧ l.source.node ∈ ids ∧ l.sink.node ∈ ids ∧
      ¬ Precedes order l.source.node l.sink.node := by
  simp [backLinks, and_assoc]

theorem backEdges_perm {ids : List NodeId} (hids : ids.Nodup) (links : List Link) :
    (traverse ids links).backEdges.Perm
      ((backLinks ids (traverse ids links).order links).map Link.edge) := by
  let succ := successors ids links
  let order := (traverse ids links).order
  have hsucc : ∀ u, ∀ t ∈ succ u, t ∈ ids := mem_ids_of_mem_successors
  have hperm : order.Perm ids := (traverse_order hids links).1
  have horder : order.Nodup := hperm.nodup_iff.mpr hids
  have hinit := Search.settled_init ids succ
  have hend := (Search.settled_roots hids hsucc (sum_cost_le hids links) ids (fun u hu => hu) hinit).1
  have hnoted := Search.noted_roots hids hsucc (sum_cost_le hids links) ids (fun u hu => hu) hinit
    (List.Perm.refl [])
  rw [Search.Noted, hend.idle] at hnoted
  have hbackward : Search.backward succ order = order.flatMap fun u =>
      ((succ u).filter fun t => !decide (Precedes order u t)).map (⟨u, ·⟩) :=
    Search.backward_eq_flatMap horder (fun u t ht => hperm.mem_iff.mpr (hsucc u t ht)) [] order rfl
  let inside := links.filter fun l =>
    ids.contains l.sink.node && !decide (Precedes order l.source.node l.sink.node)
  have hlinks : (inside.filter fun l => l.source.node ∈ order) = backLinks ids order links := by
    rw [List.filter_filter]
    apply List.filter_congr
    intro l _
    simp only [hperm.mem_iff, ← List.contains_eq_mem, Bool.and_assoc]
  calc List.Perm (traverse ids links).backEdges (Search.backward succ order) :=
        (List.reverse_perm _).trans hnoted
    _ = order.flatMap fun u => (inside.filter fun l => l.source.node = u).map Link.edge := by
        rw [hbackward]
        simp only [succ, map_filter_successors ids links _ fun u t => !decide (Precedes order u t)]
        rfl
    _ = (order.flatMap fun u => inside.filter fun l => l.source.node = u).map Link.edge :=
        List.map_flatMap.symm
    List.Perm _ ((inside.filter fun l => l.source.node ∈ order).map Link.edge) :=
        (flatMap_filter_perm horder _ inside).map _
    _ = (backLinks ids order links).map Link.edge := by rw [hlinks]

/-- Every node stands in the order once. The back edges are the links between nodes that do not lead
forward, each as often as it is drawn, and all other links between nodes do lead forward. -/
theorem traverse_exact (m : NodeMap) (links : List Link) :
    let t := traverse m.ids links
    (t.order.Nodup ∧ ∀ id, id ∈ t.order ↔ m.contains id = true) ∧
    t.backEdges.Perm ((links.filter fun l => m.contains l.source.node && m.contains l.sink.node &&
      !decide (Precedes t.order l.source.node l.sink.node)).map Link.edge) ∧
    ∀ l ∈ links, m.contains l.source.node = true → m.contains l.sink.node = true →
      (Precedes t.order l.source.node l.sink.node ↔ l.edge ∉ t.backEdges) := by
  intro t
  have hids := m.nodup_ids
  have hperm : t.order.Perm m.ids := (traverse_order hids links).1
  have hback : t.backEdges.Perm ((backLinks m.ids t.order links).map Link.edge) :=
    backEdges_perm hids links
  have hcontains : ∀ id, m.ids.contains id = m.contains id := by
    intro id
    rw [Bool.eq_iff_iff, List.contains_iff_mem, m.contains_iff]
  refine ⟨⟨hperm.nodup_iff.mpr hids, ?_⟩, ?_, ?_⟩
  · intro id
    rw [hperm.mem_iff, m.contains_iff]
  · simpa only [backLinks, hcontains] using hback
  · intro l hl hsource hsink
    rw [m.contains_iff] at hsource hsink
    rw [hback.mem_iff, List.mem_map]
    constructor
    · intro hprecedes hnoted
      -- another link may join the same nodes, but the order is the same for it
      obtain ⟨other, hother, hsame⟩ := hnoted
      obtain ⟨hsources, hsinks⟩ := BackEdge.mk.inj hsame
      have hnot := (mem_backLinks.mp hother).2.2.2
      rw [hsources, hsinks] at hnot
      exact hnot hprecedes
    · intro hnone
      by_contra hnot
      exact hnone ⟨l, mem_backLinks.mpr ⟨hl, hsource, hsink, hnot⟩, rfl⟩

-- Of two loops at a node, a link onward and one to a missing node, both loops are noted.
example : (traverse [1, 2] [⟨⟨1, 1⟩, ⟨1, 0⟩, .flow⟩, ⟨⟨1, 2⟩, ⟨1, 0⟩, .flow⟩, ⟨⟨1, 3⟩, ⟨2, 0⟩, .flow⟩,
    ⟨⟨2, 1⟩, ⟨3, 0⟩, .flow⟩]) = ⟨[1, 2], [⟨1, 1⟩, ⟨1, 1⟩]⟩ := by decide

namespace Routine

/-- A link leads from the first node to the second, and both are nodes of the graph. -/
def Joined (r : Routine) (a b : NodeId) : Prop :=
  ∃ l ∈ r.links, r.dangles l = false ∧ l.source.node = a ∧ l.sink.node = b

/-- The node lies on a cycle of links between nodes of the graph. -/
def OnCycle (r : Routine) (id : NodeId) : Prop := Relation.TransGen r.Joined id id

theorem joined_iff {r : Routine} {a b : NodeId} :
    r.Joined a b ↔ a ∈ r.nodes.ids ∧ b ∈ successors r.nodes.ids r.links a := by
  simp only [Joined, dangles_eq_false_iff, mem_successors]
  constructor
  · intro h
    obtain ⟨l, hl, ⟨hsource, hsink⟩, rfl, rfl⟩ := h
    exact ⟨hsource, l, hl, rfl, rfl, hsink⟩
  · intro h
    obtain ⟨ha, l, hl, rfl, rfl, hb⟩ := h
    exact ⟨l, hl, ⟨ha, hb⟩, rfl, rfl⟩

/-- A path of successors stays among the nodes. -/
theorem joined_path {r : Routine} {a b : NodeId} (ha : a ∈ r.nodes.ids)
    (h : Relation.ReflTransGen (fun a b => b ∈ successors r.nodes.ids r.links a) a b) :
    Relation.ReflTransGen r.Joined a b := by
  induction h using Relation.ReflTransGen.head_induction_on with
  | refl => exact .refl
  | head hfirst _ ih =>
    exact .head (joined_iff.mpr ⟨ha, hfirst⟩) (ih (mem_ids_of_mem_successors _ _ hfirst))

theorem mem_backEdges {r : Routine} {e : BackEdge} :
    e ∈ r.traversal.backEdges ↔
      r.Joined e.source e.sink ∧ ¬ Precedes r.traversal.order e.source e.sink := by
  rw [traversal, (backEdges_perm r.nodes.nodup_ids r.links).mem_iff, List.mem_map, Joined]
  simp only [mem_backLinks, dangles_eq_false_iff]
  constructor
  · intro h
    obtain ⟨l, ⟨hl, hsource, hsink, hback⟩, rfl⟩ := h
    exact ⟨⟨l, hl, ⟨hsource, hsink⟩, rfl, rfl⟩, hback⟩
  · intro h
    obtain ⟨⟨l, hl, ⟨hsource, hsink⟩, hs, ht⟩, hback⟩ := h
    refine ⟨l, ⟨hl, hsource, hsink, ?_⟩, ?_⟩
    · rwa [hs, ht]
    · rw [Link.edge, hs, ht]

/-- A back edge closes a cycle: its sink was in progress when it was met, and so leads to its source. -/
theorem onCycle_of_backEdge {r : Routine} {e : BackEdge} (he : e ∈ r.traversal.backEdges) :
    r.OnCycle e.sink := by
  obtain ⟨hjoined, hback⟩ := mem_backEdges.mp he
  obtain ⟨hsource, hsucc⟩ := joined_iff.mp hjoined
  have hpath := ((traverse_order r.nodes.nodup_ids r.links).2 _ hsource _ hsucc).resolve_left hback
  exact .tail' (joined_path (mem_ids_of_mem_successors _ _ hsucc) hpath) hjoined

/-- Without back edges every path goes forward. -/
theorem precedes_of_path {r : Routine} (hnone : r.traversal.backEdges = []) {a b : NodeId}
    (h : Relation.TransGen r.Joined a b) : Precedes r.traversal.order a b := by
  have hforward : ∀ {a b : NodeId}, r.Joined a b → Precedes r.traversal.order a b := by
    intro a b hjoined
    by_contra hback
    have hmem : (⟨a, b⟩ : BackEdge) ∈ r.traversal.backEdges := mem_backEdges.mpr ⟨hjoined, hback⟩
    rw [hnone] at hmem
    exact List.not_mem_nil hmem
  induction h with
  | single hjoined => exact hforward hjoined
  | tail _ hjoined ih => exact Nat.lt_trans ih (hforward hjoined)

theorem backEdges_eq_nil_iff (r : Routine) : r.traversal.backEdges = [] ↔ ∀ id, ¬ r.OnCycle id := by
  constructor
  · intro hnone id hcycle
    exact Nat.lt_irrefl _ (precedes_of_path hnone hcycle)
  · intro hnone
    apply List.eq_nil_iff_forall_not_mem.mpr
    intro e he
    exact hnone e.sink (onCycle_of_backEdge he)

/-- The warnings of a report are its findings on cycles. -/
theorem warnings_report (r : Routine) (scope : Scope) (name : String) :
    (r.report scope name).warnings = r.cycleFindings name := by
  rw [Report.warnings, report, List.filter_append]
  refine (congrArg₂ (· ++ ·) (List.filter_eq_nil_iff.mpr ?_) (List.filter_eq_self.mpr ?_)).trans
    (List.nil_append _)
  · intro f hf
    simp [isError_of_mem hf]
  · intro f hf
    simp [isError_of_mem_cycleFindings hf]

/-- The report warns of a cycle exactly when the links between nodes close one, and every node that
it names lies on one. -/
theorem cycle_warning_iff (r : Routine) (scope : Scope) (name : String) :
    ((∃ f ∈ (r.report scope name).warnings, f.fault = .cycle) ↔ ∃ id, r.OnCycle id) ∧
    ∀ f ∈ (r.report scope name).warnings, f.fault = .cycle → ∃ id, f.node = some id ∧ r.OnCycle id := by
  rw [warnings_report]
  constructor
  · constructor
    · intro h
      obtain ⟨f, hf, _⟩ := h
      obtain ⟨e, he, rfl⟩ := List.mem_map.mp hf
      exact ⟨e.sink, onCycle_of_backEdge he⟩
    · intro h
      obtain ⟨id, hcycle⟩ := h
      have hsome : r.traversal.backEdges ≠ [] := fun hnone =>
        (r.backEdges_eq_nil_iff.mp hnone) id hcycle
      obtain ⟨e, he⟩ := List.exists_mem_of_ne_nil _ hsome
      exact ⟨_, List.mem_map_of_mem he, rfl⟩
  · intro f hf _
    obtain ⟨e, he, rfl⟩ := List.mem_map.mp hf
    exact ⟨e.sink, rfl, onCycle_of_backEdge he⟩

end Routine

end FlowBasic
