import FlowBasic.Proofs.FallThrough
import FlowBasic.Proofs.Ports

namespace FlowBasic

namespace Search

variable {ids : List NodeId} {succ : NodeId → List NodeId}

/-- What holds while the search from a root goes on, after the given nodes have finished. -/
structure Explores (succ : NodeId → List NodeId) (root : NodeId) (before : List NodeId) (s : Search) :
    Prop where
  inProgress : ∀ u ∈ s.inProgress, Relation.ReflTransGen (fun a b => b ∈ succ a) root u
  finished : ∀ u ∈ s.finished, u ∈ before ∨ Relation.ReflTransGen (fun a b => b ∈ succ a) root u
  kept : before <:+ s.finished
  closed : ∀ u ∈ s.finished, ∀ t ∈ succ u, t ∈ s.inProgress ++ s.finished
  /-- The root is the outermost node, and it finishes last. -/
  outermost : s.inProgress.getLast? = some root ∨ (s.stack = [] ∧ s.finished.head? = some root)

theorem explores_start {root : NodeId} {before : List NodeId} {backEdges : List BackEdge}
    (hclosed : ∀ u ∈ before, ∀ t ∈ succ u, t ∈ before) :
    Explores succ root before ⟨[(root, succ root)], before, backEdges⟩ := by
  refine ⟨?_, fun u hu => .inl hu, List.suffix_refl before, ?_, .inl rfl⟩
  · intro u hu
    rw [List.mem_singleton.mp hu]
  · intro u hu t ht
    exact List.mem_cons_of_mem _ (hclosed u hu t ht)

theorem explores_finish {root id : NodeId} {before finished : List NodeId}
    {rest : List (NodeId × List NodeId)} {backEdges : List BackEdge}
    (hsound : Sound ids succ ⟨(id, []) :: rest, finished, backEdges⟩)
    (h : Explores succ root before ⟨(id, []) :: rest, finished, backEdges⟩) :
    Explores succ root before ⟨rest, id :: finished, backEdges⟩ := by
  have hmem : ∀ t, t ∈ id :: rest.map Prod.fst ++ finished → t ∈ rest.map Prod.fst ++ id :: finished := by
    intro t ht
    simp only [List.mem_append, List.mem_cons] at ht ⊢
    tauto
  refine ⟨?_, ?_, h.kept.trans (List.suffix_cons _ _), ?_, ?_⟩
  · intro u hu
    exact h.inProgress u (List.mem_cons_of_mem _ hu)
  · intro u hu
    rcases List.mem_cons.mp hu with rfl | hu
    · exact .inr (h.inProgress u List.mem_cons_self)
    · exact h.finished u hu
  · intro u hu t ht
    rcases List.mem_cons.mp hu with rfl | hu
    · obtain ⟨passed, hsplit, hvisited⟩ := hsound.pending (u, []) List.mem_cons_self
      rw [List.append_nil] at hsplit
      exact hmem t (hvisited t (hsplit ▸ ht))
    · exact hmem t (h.closed u hu t ht)
  · rcases h.outermost with hlast | ⟨hempty, _⟩
    · cases rest with
      | nil => exact .inr ⟨rfl, hlast⟩
      | cons f rest => exact .inl hlast
    · cases hempty

theorem explores_pass {root id t : NodeId} {ts before finished : List NodeId}
    {rest : List (NodeId × List NodeId)} {backEdges backEdges' : List BackEdge}
    (h : Explores succ root before ⟨(id, t :: ts) :: rest, finished, backEdges⟩) :
    Explores succ root before ⟨(id, ts) :: rest, finished, backEdges'⟩ := by
  refine ⟨h.inProgress, h.finished, h.kept, h.closed, ?_⟩
  rcases h.outermost with hlast | ⟨hempty, _⟩
  · exact .inl hlast
  · cases hempty

theorem explores_enter {root id t : NodeId} {ts before finished : List NodeId}
    {rest : List (NodeId × List NodeId)} {backEdges : List BackEdge}
    (hsound : Sound ids succ ⟨(id, t :: ts) :: rest, finished, backEdges⟩)
    (h : Explores succ root before ⟨(id, t :: ts) :: rest, finished, backEdges⟩) :
    Explores succ root before ⟨(t, succ t) :: (id, ts) :: rest, finished, backEdges⟩ := by
  refine ⟨?_, h.finished, h.kept, ?_, ?_⟩
  · intro u hu
    rcases List.mem_cons.mp hu with rfl | hu
    · obtain ⟨passed, hsplit, _⟩ := hsound.pending (id, u :: ts) List.mem_cons_self
      have hlink : u ∈ succ id := by simp [hsplit]
      exact (h.inProgress id List.mem_cons_self).tail hlink
    · exact h.inProgress u hu
  · intro u hu x hx
    exact List.mem_cons_of_mem _ (h.closed u hu x hx)
  · rcases h.outermost with hlast | ⟨hempty, _⟩
    · exact .inl hlast
    · cases hempty

theorem explores_step {root : NodeId} {before : List NodeId} {s : Search} (hsound : Sound ids succ s)
    (h : Explores succ root before s) : Explores succ root before (s.step succ) := by
  obtain ⟨stack, finished, backEdges⟩ := s
  match stack with
  | [] => exact h
  | (id, []) :: rest => exact explores_finish hsound h
  | (id, t :: ts) :: rest =>
    simp only [step]
    split
    · exact explores_pass h
    · split
      · exact explores_pass h
      · exact explores_enter hsound h

theorem explores_run (hsucc : ∀ u, ∀ t ∈ succ u, t ∈ ids) (fuel : Nat) {root : NodeId}
    {before : List NodeId} {s : Search} (hsound : Sound ids succ s)
    (h : Explores succ root before s) : Explores succ root before (run succ fuel s) := by
  induction fuel generalizing s with
  | zero => exact h
  | succ fuel ih =>
    simp only [run]
    split
    · exact h
    · exact ih (sound_step hsucc hsound) (explores_step hsound h)

/-- At the end the root has finished last, and what it leads to has finished. -/
theorem Explores.of_idle {root : NodeId} {before : List NodeId} {s : Search}
    (h : Explores succ root before s) (hidle : s.stack = []) :
    s.finished.head? = some root ∧
      ∀ u, u ∈ s.finished ↔ u ∈ before ∨ Relation.ReflTransGen (fun a b => b ∈ succ a) root u := by
  have hnone : s.inProgress = [] := by simp [Search.inProgress, hidle]
  have hhead : s.finished.head? = some root := by
    rcases h.outermost with hlast | ⟨_, hhead⟩
    · simp [hnone] at hlast
    · exact hhead
  refine ⟨hhead, fun u => ⟨h.finished u, ?_⟩⟩
  intro hu
  rcases hu with hu | hpath
  · exact h.kept.subset hu
  · induction hpath with
    | refl => exact List.mem_of_mem_head? hhead
    | tail _ hlink ih =>
      have hnext := h.closed _ ih _ hlink
      rwa [hnone, List.nil_append] at hnext

/-- The nodes that a settled search has finished are those that its roots lead to. -/
def Covers (succ : NodeId → List NodeId) (roots : List NodeId) (s : Search) : Prop :=
  ∀ u, u ∈ s.finished ↔ ∃ id ∈ roots, Relation.ReflTransGen (fun a b => b ∈ succ a) id u

theorem Covers.path {roots : List NodeId} {s : Search} (h : Covers succ roots s) {u t : NodeId}
    (hu : u ∈ s.finished) (hpath : Relation.ReflTransGen (fun a b => b ∈ succ a) u t) :
    t ∈ s.finished := by
  obtain ⟨id, hid, hfirst⟩ := (h u).mp hu
  exact (h t).mpr ⟨id, hid, hfirst.trans hpath⟩

/-- A root adds what it leads to, before all that was there, and stands first unless it was there. -/
theorem covers_root (hids : ids.Nodup) (hsucc : ∀ u, ∀ t ∈ succ u, t ∈ ids) {fuel : Nat}
    (hfuel : (ids.map fun u => 1 + (succ u).length).sum ≤ fuel) {s : Search}
    (h : Settled ids succ s) {roots : List NodeId} (hcovers : Covers succ roots s) {id : NodeId}
    (hid : id ∈ ids) :
    Covers succ (roots ++ [id]) (s.root succ fuel id) ∧
      s.finished <:+ (s.root succ fuel id).finished ∧
      (id ∉ s.finished → (s.root succ fuel id).finished.head? = some id) := by
  have hsettled := (settled_root hids hsucc hfuel h hid).1
  have hroots : ∀ u, (∃ x ∈ roots ++ [id], Relation.ReflTransGen (fun a b => b ∈ succ a) x u) ↔
      u ∈ s.finished ∨ Relation.ReflTransGen (fun a b => b ∈ succ a) id u := by
    intro u
    rw [hcovers u]
    simp [or_and_right, exists_or]
  by_cases hdone : id ∈ s.finished
  · have hsame : s.root succ fuel id = s := if_pos ((visited_iff s id).mpr ((h.mem_iff id).mpr hdone))
    rw [hsame]
    refine ⟨?_, List.suffix_refl _, fun hnew => absurd hdone hnew⟩
    intro u
    rw [hroots]
    exact ⟨.inl, fun hu => hu.elim (fun hu => hu) fun hpath => hcovers.path hdone hpath⟩
  · have hrun : s.root succ fuel id = run succ fuel { s with stack := [(id, succ id)] } := by
      have hnew : ¬ s.visited id = true := fun hold =>
        hdone ((h.mem_iff id).mp ((visited_iff s id).mp hold))
      rw [root, if_neg hnew, h.idle]
    rw [hrun] at hsettled ⊢
    have hstart : Explores succ id s.finished { s with stack := [(id, succ id)] } :=
      explores_start fun u hu t ht => hcovers.path hu (.single ht)
    have hend := explores_run hsucc fuel (h.sound_start hid hdone) hstart
    obtain ⟨hhead, hmem⟩ := hend.of_idle hsettled.idle
    exact ⟨fun u => (hmem u).trans (hroots u).symm, hend.kept, fun _ => hhead⟩

theorem covers_roots (hids : ids.Nodup) (hsucc : ∀ u, ∀ t ∈ succ u, t ∈ ids) {fuel : Nat}
    (hfuel : (ids.map fun u => 1 + (succ u).length).sum ≤ fuel) {s : Search}
    (h : Settled ids succ s) {roots : List NodeId} (hcovers : Covers succ roots s)
    {more : List NodeId} (hmore : ∀ u ∈ more, u ∈ ids) :
    Covers succ (roots ++ more) (more.foldl (root succ fuel) s) ∧
      s.finished <:+ (more.foldl (root succ fuel) s).finished := by
  induction more generalizing s roots with
  | nil => exact ⟨by simpa using hcovers, List.suffix_refl _⟩
  | cons id more ih =>
    have hid := hmore id List.mem_cons_self
    obtain ⟨hroot, hkept, _⟩ := covers_root hids hsucc hfuel h hcovers hid
    obtain ⟨hend, hlater⟩ := ih (settled_root hids hsucc hfuel h hid).1 hroot
      fun u hu => hmore u (List.mem_cons_of_mem _ hu)
    rw [List.append_assoc] at hend
    exact ⟨hend, hkept.trans hlater⟩

/-- A path that ends in a node that no link enters is empty. -/
theorem eq_of_path_to_source {u source : NodeId} (hfirst : ∀ u, source ∉ succ u)
    (h : Relation.ReflTransGen (fun a b => b ∈ succ a) u source) : u = source := by
  cases h with
  | refl => rfl
  | tail _ hlink => exact absurd hlink (hfirst _)

/-- When no link enters a root, what it and the roots before it lead to is all that stands after it. -/
theorem finished_around_source (hids : ids.Nodup) (hsucc : ∀ u, ∀ t ∈ succ u, t ∈ ids) {fuel : Nat}
    (hfuel : (ids.map fun u => 1 + (succ u).length).sum ≤ fuel) {lower higher : List NodeId}
    {source : NodeId} (hroots : ∀ u ∈ lower ++ source :: higher, u ∈ ids) (hout : source ∉ lower)
    (hfirst : ∀ u, source ∉ succ u) :
    ∃ later rest,
      ((lower ++ source :: higher).foldl (root succ fuel) ⟨[], [], []⟩).finished =
        later ++ source :: rest ∧
      ∀ u, u ∈ source :: rest ↔
        ∃ id ∈ lower ++ [source], Relation.ReflTransGen (fun a b => b ∈ succ a) id u := by
  have hlower : ∀ u ∈ lower, u ∈ ids := fun u hu => hroots u (by simp [hu])
  have hsource : source ∈ ids := hroots source (by simp)
  have hhigher : ∀ u ∈ higher, u ∈ ids := fun u hu => hroots u (by simp [hu])
  have hinit := settled_init ids succ
  have hnone : Covers succ [] ⟨[], [], []⟩ := fun u => by simp
  have hsettled := (settled_roots hids hsucc hfuel lower hlower hinit).1
  have hcovers := (covers_roots hids hsucc hfuel hinit hnone hlower).1
  rw [List.nil_append] at hcovers
  have hnew : source ∉ (lower.foldl (root succ fuel) ⟨[], [], []⟩).finished := by
    intro hdone
    obtain ⟨u, hu, hpath⟩ := (hcovers source).mp hdone
    exact hout (eq_of_path_to_source hfirst hpath ▸ hu)
  obtain ⟨hcovers', _, hhead⟩ := covers_root hids hsucc hfuel hsettled hcovers hsource
  have hsettled' := (settled_root hids hsucc hfuel hsettled hsource).1
  obtain ⟨_, later, hkept⟩ := covers_roots hids hsucc hfuel hsettled' hcovers' hhigher
  obtain ⟨rest, hfinished⟩ := List.head?_eq_some_iff.mp (hhead hnew)
  refine ⟨later, rest, ?_, ?_⟩
  · rw [List.foldl_append, List.foldl_cons, ← hkept, hfinished]
  · intro u
    rw [← hfinished]
    exact hcovers' u

end Search

/-- In an ascending list the elements up to one are those that stand before it and itself. -/
theorem mem_upTo_iff {lower higher : List NodeId} {a : NodeId}
    (h : (lower ++ a :: higher).Pairwise fun a b => a < b) (u : NodeId) :
    u ∈ lower ++ [a] ↔ u ∈ lower ++ a :: higher ∧ u ≤ a := by
  obtain ⟨_, hrest, hbefore⟩ := List.pairwise_append.mp h
  have hafter := (List.pairwise_cons.mp hrest).1
  simp only [List.mem_append, List.mem_cons, List.not_mem_nil, or_false]
  constructor
  · intro hu
    rcases hu with hu | rfl
    · exact ⟨.inl hu, UInt32.le_of_lt (hbefore u hu a List.mem_cons_self)⟩
    · exact ⟨.inr (.inl rfl), UInt32.le_refl u⟩
  · intro hu
    obtain ⟨hu | hu | hu, hle⟩ := hu
    · exact .inl hu
    · exact .inr hu
    · exact absurd (hafter u hu) (UInt32.not_lt.mpr hle)

/-- A node that no link enters comes after exactly those nodes to which no node up to it leads. -/
theorem precedes_source_iff {ids : List NodeId} (hsorted : ids.Pairwise fun a b => a < b)
    (links : List Link) {source : NodeId} (hsource : source ∈ ids)
    (hfirst : ∀ u, source ∉ successors ids links u) {w : NodeId} (hw : w ∈ ids) :
    Precedes (traverse ids links).order w source ↔
      ∀ u ∈ ids, u ≤ source → ¬ Relation.ReflTransGen (fun a b => b ∈ successors ids links a) u w := by
  have hids : ids.Nodup := by
    refine hsorted.imp ?_
    intro a b hlt heq
    exact UInt32.lt_irrefl _ (heq ▸ hlt)
  obtain ⟨lower, higher, hsplit⟩ := List.append_of_mem hsource
  have hupTo : ∀ u, u ∈ lower ++ [source] ↔ u ∈ ids ∧ u ≤ source := by
    rw [hsplit] at hsorted ⊢
    exact mem_upTo_iff hsorted
  have hout : source ∉ lower := by
    rw [hsplit] at hids
    exact fun hin => (List.nodup_append.mp hids).2.2 source hin source List.mem_cons_self rfl
  obtain ⟨later, rest, horder, hrest⟩ :=
    Search.finished_around_source hids mem_ids_of_mem_successors (sum_cost_le hids links)
      (fun u hu => hsplit ▸ hu) hout hfirst
  rw [← hsplit] at horder
  have hperm := (traverse_order hids links).1
  have hnodup := hperm.nodup_iff.mpr hids
  have hmem := hperm.mem_iff.mpr hw
  have hsame : (traverse ids links).order = later ++ source :: rest := horder
  rw [hsame] at hnodup hmem ⊢
  have hdisjoint := (List.nodup_append.mp hnodup).2.2
  have hbefore : w ∈ later ↔ w ∉ source :: rest := by
    rcases List.mem_append.mp hmem with hlater | hin
    · exact iff_of_true hlater fun hin => hdisjoint w hlater w hin rfl
    · exact iff_of_false (fun hlater => hdisjoint w hlater w hin rfl) (not_not.mpr hin)
  rw [precedes_of_append_cons_iff hnodup, hbefore, hrest]
  simp only [hupTo, not_exists, not_and, and_imp]

namespace Routine

/-- No node up to the start leads to the node. -/
def Detached (r : Routine) (start w : NodeId) : Prop :=
  r.nodes.contains w = true ∧
    ∀ u, r.nodes.contains u = true → u ≤ start → ¬ Relation.ReflTransGen r.Linked u w

/-- A link that fits does not enter a start. -/
theorem sink_ne_start {r : Routine} {scope : Scope} {l : Link} (h : r.checkLink scope l = .ok ())
    {start : NodeId} {n : Node} (hn : r.nodes.get? start = some n) (hstart : n.payload = .start) :
    l.sink.node ≠ start := by
  intro heq
  obtain ⟨-, m, c, hm, hc, _⟩ := ports_of_checkLink h
  rw [heq, hn] at hm
  rw [← Option.some.inj hm, hstart] at hc
  simp [layout, Layout.input?] at hc

/-- The nodes that are written before the start are those to which no node up to it leads. -/
theorem precedes_start_iff {r : Routine} {scope : Scope} (hw : r.WellFormed scope) {start : NodeId}
    (hstart : r.IsStart start) {w : NodeId} (hcontains : r.nodes.contains w = true) :
    Precedes r.traversal.order w start ↔ r.Detached start w := by
  obtain ⟨⟨n, hn, hpayload⟩, -⟩ := hstart
  have hsorted : r.nodes.ids.Pairwise fun a b => a < b := List.pairwise_map.mpr r.nodes.sorted
  have hmem : start ∈ r.nodes.ids := (r.nodes.contains_iff start).mp (by simp [NodeMap.contains, hn])
  have hfirst : ∀ u, start ∉ successors r.nodes.ids r.links u := by
    intro u hu
    obtain ⟨l, hl, _, hsink, _⟩ := mem_successors.mp hu
    exact sink_ne_start (hw.fits l hl) hn hpayload hsink
  have hlinked : (fun a b => b ∈ successors r.nodes.ids r.links a) = r.Linked := by
    funext a b
    simp only [mem_successors, Linked, eq_iff_iff]
    constructor
    · intro h
      obtain ⟨l, hl, hsource, hsink, _⟩ := h
      exact ⟨l, hl, hsource, hsink⟩
    · intro h
      obtain ⟨l, hl, hsource, hsink⟩ := h
      exact ⟨l, hl, hsource, hsink, hsink ▸ (hw.ends l hl).2⟩
  have hprecedes := precedes_source_iff hsorted r.links hmem hfirst ((r.nodes.contains_iff w).mp hcontains)
  rw [hlinked] at hprecedes
  simp only [Detached, hcontains, true_and, NodeMap.contains_iff]
  exact hprecedes

/-- The places of the blocks are the places of their nodes. -/
theorem forall_block_iff (r : Routine) (scope : Scope) (P : Nat → Prop) (firstLine : Nat)
    (name : String) :
    (∀ k b, (r.blocks scope)[k]? = some b → P k → b.2 = []) ↔
      ∀ w, r.nodes.contains w = true → P (r.traversal.order.idxOf w) →
        (r.draft scope firstLine name).listing.statementsOf w = [] := by
  constructor
  · intro h w hw hplace
    obtain ⟨sts, hblock, hlisting⟩ := r.block_at scope hw
    rw [(hlisting firstLine name).1]
    exact h _ _ hblock hplace
  · intro h k b hk hplace
    have hkey : r.traversal.order[k]? = some b.1 := by
      rw [← keys_blocks r scope, List.getElem?_map, hk]
      rfl
    have hw : r.nodes.contains b.1 = true := (r.mem_order b.1).mp (List.mem_of_getElem? hkey)
    have hidx : r.traversal.order.idxOf b.1 = k := by
      obtain ⟨hlt, hget⟩ := List.getElem?_eq_some_iff.mp hkey
      rw [← hget]
      exact r.nodup_order.idxOf_getElem k hlt
    obtain ⟨sts, hblock, hlisting⟩ := r.block_at scope hw
    rw [hidx, hk] at hblock
    rw [Option.some.inj hblock, ← (hlisting firstLine name).1]
    exact h b.1 hw (hidx ▸ hplace)

/-- The listing of a valid routine begins with what its start leads to exactly when the nodes that no
node up to the start leads to have no statements: these stand before the start, and no others do. -/
theorem startLine_of_start_iff {r : Routine} {scope : Scope} {name : String}
    (hvalid : (r.report scope name).valid = true) {start : NodeId} (hstart : r.IsStart start)
    (firstLine : Nat) :
    let listing := (r.draft scope firstLine name).listing
    (∀ w, r.nodes.contains w = true →
      (Precedes r.traversal.order w start ↔ r.Detached start w)) ∧
    ∃ line, listing.startLine? start = some line ∧
      (line = firstLine + r.declarationLines.length ↔
        ∀ w, r.Detached start w → listing.statementsOf w = []) := by
  have hwellFormed := wellFormed_of_valid hvalid
  have hprecedes : ∀ w, r.nodes.contains w = true →
      (Precedes r.traversal.order w start ↔ r.Detached start w) :=
    fun w hw => precedes_start_iff hwellFormed hstart hw
  have hcontains : r.nodes.contains start = true := by
    obtain ⟨⟨n, hn, _⟩, -⟩ := hstart
    simp [NodeMap.contains, hn]
  obtain ⟨sts, _, hlisting⟩ := r.block_at scope hcontains
  refine ⟨hprecedes, _, (hlisting firstLine name).2, ?_⟩
  have hzero : offset (r.blocks scope) 0 = 0 := rfl
  have hempty : offset (r.blocks scope) 0 = offset (r.blocks scope) (r.traversal.order.idxOf start) ↔
      ∀ k b, (r.blocks scope)[k]? = some b → 0 ≤ k → k < r.traversal.order.idxOf start → b.2 = [] :=
    offset_eq_iff_of_le (Nat.zero_le _)
  have hblocks := r.forall_block_iff scope (· < r.traversal.order.idxOf start) firstLine name
  calc firstLine + r.declarationLines.length + offset (r.blocks scope) (r.traversal.order.idxOf start) =
        firstLine + r.declarationLines.length
      ↔ offset (r.blocks scope) 0 = offset (r.blocks scope) (r.traversal.order.idxOf start) := by omega
    _ ↔ ∀ k b, (r.blocks scope)[k]? = some b → k < r.traversal.order.idxOf start → b.2 = [] := by
        simp only [hempty, Nat.zero_le, true_implies]
    _ ↔ ∀ w, r.nodes.contains w = true → Precedes r.traversal.order w start →
          (r.draft scope firstLine name).listing.statementsOf w = [] := hblocks
    _ ↔ ∀ w, r.Detached start w → (r.draft scope firstLine name).listing.statementsOf w = [] := by
        constructor
        · intro h w hdetached
          exact h w hdetached.1 ((hprecedes w hdetached.1).mpr hdetached)
        · intro h w hw hbefore
          exact h w ((hprecedes w hw).mp hbefore)

/-- A routine that returns zero, and an end that nothing leads to. -/
def looseEnd : Routine :=
  { Routine.fresh false with
    nodes := .ofList
      [(0, .start), (1, .ofPayload "End" (.returnLiteral (.number 0))),
       (2, .ofPayload "End" (.ending .abort))] }

theorem isStart_looseEnd : looseEnd.IsStart 0 := (looseEnd.start?_eq_some_iff 0).mp rfl

/-- The routine is valid, and runs into the end that nothing leads to. -/
theorem looseEnd_begins_with_abort :
    let listing := (looseEnd.draft none 1 "F").listing
    (looseEnd.report none "F").valid = true ∧ looseEnd.IsStart 0 ∧ looseEnd.declarationLines = [] ∧
      Precedes looseEnd.traversal.order 2 0 ∧
      listing.lines = [⟨some 2, [.text "PANIC"]⟩, ⟨some 1, [.text "RETURN 0"]⟩] ∧
      listing.startLine? 0 = some 2 := by
  refine ⟨by decide, isStart_looseEnd, ?_⟩
  decide +kernel

/-- The branch has all its statements behind its start. -/
theorem startLine_of_start_branchOverAssignment :
    let r := branchOverAssignment
    let listing := (r.draft none 1 "Guard").listing
    (r.report none "Guard").valid = true ∧ r.IsStart 0 ∧
      (∀ w, r.nodes.contains w = true → (Precedes r.traversal.order w 0 ↔ r.Detached 0 w)) ∧
      ∃ line, listing.startLine? 0 = some line ∧
        (line = 1 + r.declarationLines.length ↔ ∀ w, r.Detached 0 w → listing.statementsOf w = []) := by
  have hvalid : (branchOverAssignment.report none "Guard").valid = true := by decide
  have hstart : branchOverAssignment.IsStart 0 := (branchOverAssignment.start?_eq_some_iff 0).mp rfl
  exact ⟨hvalid, hstart, startLine_of_start_iff hvalid hstart 1⟩

end Routine

end FlowBasic
