import FlowBasic.Traversal
import Mathlib.Algebra.GroupWithZero.Nat
import Mathlib.Algebra.Order.BigOperators.Group.List
import Mathlib.Algebra.Order.Group.Nat
import Mathlib.Data.List.Nodup
import Mathlib.Logic.Relation

namespace FlowBasic

/-- The first node stands before the second. -/
def Precedes (order : List NodeId) (a b : NodeId) : Prop := order.idxOf a < order.idxOf b

instance (order : List NodeId) (a b : NodeId) : Decidable (Precedes order a b) :=
  inferInstanceAs (Decidable (order.idxOf a < order.idxOf b))

theorem idxOf_append_cons {earlier later : List NodeId} {a : NodeId}
    (h : (earlier ++ a :: later).Nodup) : (earlier ++ a :: later).idxOf a = earlier.length := by
  have hnew : a ∉ earlier := by
    intro ha
    exact (List.nodup_append.mp h).2.2 a ha a List.mem_cons_self rfl
  rw [List.idxOf_append, if_neg hnew, List.idxOf_cons_self, Nat.zero_add]

theorem precedes_append_cons_iff {earlier later : List NodeId} {a b : NodeId}
    (h : (earlier ++ a :: later).Nodup) (hb : b ∈ earlier ++ a :: later) :
    Precedes (earlier ++ a :: later) a b ↔ b ∈ later := by
  rw [Precedes, idxOf_append_cons h]
  have hdisjoint := (List.nodup_append.mp h).2.2
  have hrest := List.nodup_cons.mp (List.nodup_append.mp h).2.1
  by_cases hearlier : b ∈ earlier
  · have hlt : (earlier ++ a :: later).idxOf b < earlier.length := by
      rw [List.idxOf_append, if_pos hearlier]
      exact List.idxOf_lt_length_of_mem hearlier
    refine iff_of_false (by omega) ?_
    intro hlater
    exact hdisjoint b hearlier b (List.mem_cons_of_mem _ hlater) rfl
  · rw [List.idxOf_append, if_neg hearlier]
    rcases List.mem_cons.mp ((List.mem_append.mp hb).resolve_left hearlier) with rfl | hlater
    · exact iff_of_false (by simp) hrest.1
    · have hne : a ≠ b := fun he => hrest.1 (he ▸ hlater)
      refine iff_of_true ?_ hlater
      rw [List.idxOf_cons_ne _ hne]
      omega

theorem precedes_of_append_cons_iff {earlier later : List NodeId} {a b : NodeId}
    (h : (earlier ++ a :: later).Nodup) : Precedes (earlier ++ a :: later) b a ↔ b ∈ earlier := by
  rw [Precedes, idxOf_append_cons h, List.idxOf_append]
  split
  · next hb => exact iff_of_true (List.idxOf_lt_length_of_mem hb) hb
  · next hb => exact iff_of_false (by omega) hb

namespace Search

variable {ids : List NodeId} {succ : NodeId → List NodeId}

/-- What holds between any two steps of a search among the given nodes. -/
structure Sound (ids : List NodeId) (succ : NodeId → List NodeId) (s : Search) : Prop where
  nodup : (s.inProgress ++ s.finished).Nodup
  known : ∀ u ∈ s.inProgress ++ s.finished, u ∈ ids
  nested : s.inProgress.IsChain fun inner outer => inner ∈ succ outer
  /-- A successor that is no longer pending has been visited. -/
  pending : ∀ f ∈ s.stack, ∃ passed, succ f.1 = passed ++ f.2 ∧
    ∀ t ∈ passed, t ∈ s.inProgress ++ s.finished
  /-- A successor that did not finish first was in progress, and so leads back to the node. -/
  settled : ∀ u later, (u :: later) <:+ s.finished → ∀ t ∈ succ u,
    t ∈ later ∨ Relation.ReflTransGen (fun a b => b ∈ succ a) t u

theorem visited_iff (s : Search) (u : NodeId) :
    s.visited u = true ↔ u ∈ s.inProgress ++ s.finished := by
  simp only [visited, Bool.or_eq_true, List.contains_iff_mem, List.mem_append]
  exact or_comm

theorem notMem_of_unvisited {s : Search} {t : NodeId} (hdone : ¬ s.finished.contains t = true)
    (hin : ¬ s.inProgress.contains t = true) : t ∉ s.inProgress ++ s.finished := by
  intro ht
  rcases List.mem_append.mp ht with ht | ht
  · exact hin (List.contains_iff_mem.mpr ht)
  · exact hdone (List.contains_iff_mem.mpr ht)

/-- The nodes in progress form a path that ends at the innermost. -/
theorem path_to_innermost {inner : NodeId} {outer : List NodeId}
    (h : (inner :: outer).IsChain fun inner outer => inner ∈ succ outer) :
    ∀ u ∈ inner :: outer, Relation.ReflTransGen (fun a b => b ∈ succ a) u inner := by
  induction outer generalizing inner with
  | nil =>
    intro u hu
    rw [List.mem_singleton.mp hu]
  | cons next outer ih =>
    obtain ⟨hlink, hrest⟩ := List.isChain_cons_cons.mp h
    intro u hu
    rcases List.mem_cons.mp hu with rfl | hu
    · exact .refl
    · exact (ih hrest u hu).tail hlink

theorem sound_finish {id : NodeId} {rest : List (NodeId × List NodeId)} {finished : List NodeId}
    {backEdges : List BackEdge} (h : Sound ids succ ⟨(id, []) :: rest, finished, backEdges⟩) :
    Sound ids succ ⟨rest, id :: finished, backEdges⟩ := by
  have hmem : ∀ t, t ∈ rest.map Prod.fst ++ id :: finished ↔
      t ∈ id :: rest.map Prod.fst ++ finished := by
    intro t
    simp only [List.mem_append, List.mem_cons]
    tauto
  refine ⟨?_, ?_, ?_, ?_, ?_⟩
  · exact (List.perm_middle.nodup_iff).mpr h.nodup
  · intro u hu
    exact h.known u ((hmem u).mp hu)
  · exact h.nested.of_cons
  · intro f hf
    obtain ⟨passed, hsplit, hvisited⟩ := h.pending f (List.mem_cons_of_mem _ hf)
    exact ⟨passed, hsplit, fun t ht => (hmem t).mpr (hvisited t ht)⟩
  · intro u later hsuffix t ht
    rcases List.suffix_cons_iff.mp hsuffix with heq | hsuffix
    · -- the node that finishes now: all its successors have been visited
      obtain ⟨rfl, rfl⟩ := List.cons.inj heq
      obtain ⟨passed, hsplit, hvisited⟩ := h.pending (u, []) List.mem_cons_self
      rw [List.append_nil] at hsplit
      rcases List.mem_append.mp (hvisited t (hsplit ▸ ht)) with hin | hdone
      · exact .inr (path_to_innermost h.nested t hin)
      · exact .inl hdone
    · exact h.settled u later hsuffix t ht

theorem sound_pass {id t : NodeId} {ts : List NodeId} {rest : List (NodeId × List NodeId)}
    {finished : List NodeId} {backEdges backEdges' : List BackEdge}
    (h : Sound ids succ ⟨(id, t :: ts) :: rest, finished, backEdges⟩)
    (ht : t ∈ id :: rest.map Prod.fst ++ finished) :
    Sound ids succ ⟨(id, ts) :: rest, finished, backEdges'⟩ := by
  refine ⟨h.nodup, h.known, h.nested, ?_, h.settled⟩
  intro f hf
  rcases List.mem_cons.mp hf with rfl | hf
  · obtain ⟨passed, hsplit, hvisited⟩ := h.pending (id, t :: ts) List.mem_cons_self
    refine ⟨passed ++ [t], by simpa using hsplit, ?_⟩
    intro x hx
    rcases List.mem_append.mp hx with hx | hx
    · exact hvisited x hx
    · exact List.mem_singleton.mp hx ▸ ht
  · exact h.pending f (List.mem_cons_of_mem _ hf)

theorem sound_enter (hsucc : ∀ u, ∀ t ∈ succ u, t ∈ ids) {id t : NodeId} {ts : List NodeId}
    {rest : List (NodeId × List NodeId)} {finished : List NodeId} {backEdges : List BackEdge}
    (h : Sound ids succ ⟨(id, t :: ts) :: rest, finished, backEdges⟩)
    (ht : t ∉ id :: rest.map Prod.fst ++ finished) :
    Sound ids succ ⟨(t, succ t) :: (id, ts) :: rest, finished, backEdges⟩ := by
  obtain ⟨passed, hsplit, hvisited⟩ := h.pending (id, t :: ts) List.mem_cons_self
  have hlink : t ∈ succ id := by simp [hsplit]
  refine ⟨List.nodup_cons.mpr ⟨ht, h.nodup⟩, ?_, List.isChain_cons_cons.mpr ⟨hlink, h.nested⟩, ?_,
    h.settled⟩
  · intro u hu
    rcases List.mem_cons.mp hu with rfl | hu
    · exact hsucc id u hlink
    · exact h.known u hu
  · intro f hf
    rcases List.mem_cons.mp hf with rfl | hf
    · exact ⟨[], rfl, by simp⟩
    rcases List.mem_cons.mp hf with rfl | hf
    · refine ⟨passed ++ [t], by simpa using hsplit, ?_⟩
      intro x hx
      rcases List.mem_append.mp hx with hx | hx
      · exact List.mem_cons_of_mem _ (hvisited x hx)
      · rw [List.mem_singleton.mp hx]
        exact List.mem_cons_self
    · obtain ⟨passed, hsplit, hvisited⟩ := h.pending f (List.mem_cons_of_mem _ hf)
      exact ⟨passed, hsplit, fun x hx => List.mem_cons_of_mem _ (hvisited x hx)⟩

theorem sound_step (hsucc : ∀ u, ∀ t ∈ succ u, t ∈ ids) {s : Search} (h : Sound ids succ s) :
    Sound ids succ (s.step succ) := by
  obtain ⟨stack, finished, backEdges⟩ := s
  match stack with
  | [] => exact h
  | (id, []) :: rest => exact sound_finish h
  | (id, t :: ts) :: rest =>
    simp only [step]
    split
    · next hdone =>
      exact sound_pass h (List.mem_append_right _ (List.contains_iff_mem.mp hdone))
    · next hdone =>
      split
      · next hin => exact sound_pass h (List.mem_append_left _ (List.contains_iff_mem.mp hin))
      · next hin => exact sound_enter hsucc h (notMem_of_unvisited hdone hin)

/-- What a node costs that has not been visited: a step for each successor and one to finish it. -/
def cost (succ : NodeId → List NodeId) (s : Search) (u : NodeId) : Nat :=
  if s.visited u then 0 else 1 + (succ u).length

/-- The number of steps until no node is in progress. -/
def remaining (ids : List NodeId) (succ : NodeId → List NodeId) (s : Search) : Nat :=
  s.stack.length + (s.stack.map fun f => f.2.length).sum + (ids.map (s.cost succ)).sum

theorem cost_congr {s s' : Search} {u : NodeId}
    (h : u ∈ s.inProgress ++ s.finished ↔ u ∈ s'.inProgress ++ s'.finished) :
    s.cost succ u = s'.cost succ u := by
  have hv : s.visited u = s'.visited u := by
    rw [Bool.eq_iff_iff, visited_iff, visited_iff]
    exact h
  simp only [cost, hv]

/-- Entering a node exchanges its cost for its place on the stack. -/
theorem sum_cost_enter (hids : ids.Nodup) (s s' : Search) {t : NodeId} (ht : t ∈ ids)
    (hnew : t ∉ s.inProgress ++ s.finished)
    (hvisited : ∀ u, u ∈ s'.inProgress ++ s'.finished ↔ u = t ∨ u ∈ s.inProgress ++ s.finished) :
    (ids.map (s'.cost succ)).sum + (1 + (succ t).length) = (ids.map (s.cost succ)).sum := by
  have hother : (ids.erase t).map (s'.cost succ) = (ids.erase t).map (s.cost succ) := by
    apply List.map_congr_left
    intro u hu
    have hne : u ≠ t := (hids.mem_erase_iff.mp hu).1
    apply cost_congr
    simp [hvisited u, hne]
  have hold : s.cost succ t = 1 + (succ t).length := by
    have hv : ¬ s.visited t = true := fun hv => hnew ((visited_iff s t).mp hv)
    simp [cost, hv]
  have hzero : s'.cost succ t = 0 := by
    have hv : s'.visited t = true := (visited_iff s' t).mpr ((hvisited t).mpr (.inl rfl))
    simp [cost, hv]
  have hs := List.sum_map_erase (s.cost succ) ht
  have hs' := List.sum_map_erase (s'.cost succ) ht
  rw [hother, hzero] at hs'
  rw [hold] at hs
  omega

theorem remaining_step (hids : ids.Nodup) (hsucc : ∀ u, ∀ t ∈ succ u, t ∈ ids) {s : Search}
    (h : Sound ids succ s) (hs : s.stack ≠ []) :
    (s.step succ).remaining ids succ + 1 = s.remaining ids succ := by
  obtain ⟨stack, finished, backEdges⟩ := s
  match stack with
  | [] => exact absurd rfl hs
  | (id, []) :: rest =>
    have hcost : ids.map (cost succ ⟨rest, id :: finished, backEdges⟩) =
        ids.map (cost succ ⟨(id, []) :: rest, finished, backEdges⟩) := by
      apply List.map_congr_left
      intro u _
      apply cost_congr
      simp only [inProgress, List.map_cons, List.mem_append, List.mem_cons]
      tauto
    simp only [step, remaining, hcost, List.length_cons, List.map_cons, List.sum_cons,
      List.length_nil]
    omega
  | (id, t :: ts) :: rest =>
    simp only [step]
    split
    · simp only [remaining, List.length_cons, List.map_cons, List.sum_cons]
      have hcost : ids.map (cost succ ⟨(id, ts) :: rest, finished, backEdges⟩) =
          ids.map (cost succ ⟨(id, t :: ts) :: rest, finished, backEdges⟩) := rfl
      rw [hcost]
      omega
    · next hdone =>
      split
      · simp only [remaining, List.length_cons, List.map_cons, List.sum_cons]
        have hcost : ids.map (cost succ ⟨(id, ts) :: rest, finished, ⟨id, t⟩ :: backEdges⟩) =
            ids.map (cost succ ⟨(id, t :: ts) :: rest, finished, backEdges⟩) := rfl
        rw [hcost]
        omega
      · next hin =>
        obtain ⟨passed, hsplit, -⟩ := h.pending (id, t :: ts) List.mem_cons_self
        have ht : t ∈ ids := hsucc id t (by simp [hsplit])
        have hsum : (ids.map (cost succ ⟨(t, succ t) :: (id, ts) :: rest, finished, backEdges⟩)).sum +
            (1 + (succ t).length) =
              (ids.map (cost succ ⟨(id, t :: ts) :: rest, finished, backEdges⟩)).sum :=
          sum_cost_enter hids _ _ ht (notMem_of_unvisited hdone hin) fun u => by simp [inProgress]
        simp only [remaining, List.length_cons, List.map_cons, List.sum_cons]
        omega

theorem mem_step {s : Search} {u : NodeId} (hu : u ∈ s.inProgress ++ s.finished) :
    u ∈ (s.step succ).inProgress ++ (s.step succ).finished := by
  obtain ⟨stack, finished, backEdges⟩ := s
  match stack with
  | [] => exact hu
  | (id, []) :: rest =>
    simp only [step, inProgress, List.map_cons, List.mem_append, List.mem_cons] at hu ⊢
    tauto
  | (id, t :: ts) :: rest =>
    simp only [step]
    split
    · exact hu
    · split
      · exact hu
      · exact List.mem_cons_of_mem _ hu

theorem sound_run (hsucc : ∀ u, ∀ t ∈ succ u, t ∈ ids) (fuel : Nat) {s : Search}
    (h : Sound ids succ s) : Sound ids succ (run succ fuel s) := by
  induction fuel generalizing s with
  | zero => exact h
  | succ fuel ih =>
    simp only [run]
    split
    · exact h
    · exact ih (sound_step hsucc h)

theorem mem_run (fuel : Nat) {s : Search} {u : NodeId} (hu : u ∈ s.inProgress ++ s.finished) :
    u ∈ (run succ fuel s).inProgress ++ (run succ fuel s).finished := by
  induction fuel generalizing s with
  | zero => exact hu
  | succ fuel ih =>
    simp only [run]
    split
    · exact hu
    · exact ih (mem_step hu)

theorem stack_run (hids : ids.Nodup) (hsucc : ∀ u, ∀ t ∈ succ u, t ∈ ids) (fuel : Nat) {s : Search}
    (h : Sound ids succ s) (hfuel : s.remaining ids succ ≤ fuel) :
    (run succ fuel s).stack = [] := by
  induction fuel generalizing s with
  | zero =>
    simp only [remaining] at hfuel
    exact List.eq_nil_of_length_eq_zero (by simp only [run]; omega)
  | succ fuel ih =>
    simp only [run]
    split
    · next hempty => exact List.isEmpty_iff.mp hempty
    · next hbusy =>
      have hs : s.stack ≠ [] := fun hs => hbusy (List.isEmpty_iff.mpr hs)
      have hstep := remaining_step hids hsucc h hs
      exact ih (sound_step hsucc h) (by omega)

/-- What holds between the searches from two roots. -/
structure Settled (ids : List NodeId) (succ : NodeId → List NodeId) (s : Search) : Prop where
  sound : Sound ids succ s
  idle : s.stack = []

theorem Settled.mem_iff {s : Search} (h : Settled ids succ s) (u : NodeId) :
    u ∈ s.inProgress ++ s.finished ↔ u ∈ s.finished := by
  simp [inProgress, h.idle]

theorem Settled.nodup {s : Search} (h : Settled ids succ s) : s.finished.Nodup :=
  (List.nodup_append.mp h.sound.nodup).2.1

/-- A search may begin at any node that has not been visited. -/
theorem Settled.sound_start {s : Search} (h : Settled ids succ s) {id : NodeId} (hid : id ∈ ids)
    (hnew : id ∉ s.finished) : Sound ids succ { s with stack := [(id, succ id)] } := by
  refine ⟨List.nodup_cons.mpr ⟨hnew, h.nodup⟩, ?_, List.IsChain.singleton _, ?_, h.sound.settled⟩
  · intro u hu
    rcases List.mem_cons.mp hu with rfl | hu
    · exact hid
    · exact h.sound.known u ((h.mem_iff u).mpr hu)
  · intro f hf
    rw [List.mem_singleton.mp hf]
    exact ⟨[], rfl, by simp⟩

theorem settled_root (hids : ids.Nodup) (hsucc : ∀ u, ∀ t ∈ succ u, t ∈ ids) {fuel : Nat}
    (hfuel : (ids.map fun u => 1 + (succ u).length).sum ≤ fuel) {s : Search}
    (h : Settled ids succ s) {id : NodeId} (hid : id ∈ ids) :
    Settled ids succ (s.root succ fuel id) ∧ id ∈ (s.root succ fuel id).finished ∧
      ∀ u ∈ s.finished, u ∈ (s.root succ fuel id).finished := by
  simp only [root]
  split
  · next hold =>
    rw [visited_iff, h.mem_iff] at hold
    exact ⟨h, hold, fun u hu => hu⟩
  · next hnew =>
    rw [visited_iff] at hnew
    rw [h.idle]
    let start : Search := { s with stack := [(id, succ id)] }
    have hvisited : ∀ u, u ∈ start.inProgress ++ start.finished ↔
        u = id ∨ u ∈ s.inProgress ++ s.finished := by
      intro u
      rw [h.mem_iff]
      simp [start, inProgress]
    have hstart : Sound ids succ start := h.sound_start hid fun hdone => hnew ((h.mem_iff id).mpr hdone)
    have hcost : (ids.map (start.cost succ)).sum + (1 + (succ id).length) =
        (ids.map (s.cost succ)).sum := sum_cost_enter hids s start hid hnew hvisited
    have hbound : (ids.map (s.cost succ)).sum ≤ (ids.map fun u => 1 + (succ u).length).sum := by
      apply List.sum_le_sum
      intro u _
      simp only [cost]
      split <;> omega
    have hremaining : start.remaining ids succ ≤ fuel := by
      simp only [remaining, start, List.length_singleton, List.map_cons, List.map_nil,
        List.sum_singleton]
      simp only [start] at hcost
      omega
    have hend : Settled ids succ (run succ fuel start) :=
      ⟨sound_run hsucc fuel hstart, stack_run hids hsucc fuel hstart hremaining⟩
    refine ⟨hend, ?_, ?_⟩
    · rw [← hend.mem_iff]
      exact mem_run fuel ((hvisited id).mpr (.inl rfl))
    · intro u hu
      rw [← hend.mem_iff]
      exact mem_run fuel ((hvisited u).mpr (.inr ((h.mem_iff u).mpr hu)))

theorem settled_roots (hids : ids.Nodup) (hsucc : ∀ u, ∀ t ∈ succ u, t ∈ ids) {fuel : Nat}
    (hfuel : (ids.map fun u => 1 + (succ u).length).sum ≤ fuel) (roots : List NodeId)
    (hroots : ∀ u ∈ roots, u ∈ ids) {s : Search} (h : Settled ids succ s) :
    Settled ids succ (roots.foldl (root succ fuel) s) ∧
      ∀ u, u ∈ roots ∨ u ∈ s.finished → u ∈ (roots.foldl (root succ fuel) s).finished := by
  induction roots generalizing s with
  | nil => exact ⟨h, fun u hu => hu.resolve_left List.not_mem_nil⟩
  | cons id roots ih =>
    obtain ⟨hroot, hid, hkeep⟩ := settled_root hids hsucc hfuel h (hroots id List.mem_cons_self)
    obtain ⟨hend, hall⟩ := ih (fun u hu => hroots u (List.mem_cons_of_mem _ hu)) hroot
    refine ⟨hend, ?_⟩
    intro u hu
    apply hall
    rcases hu with hu | hu
    · rcases List.mem_cons.mp hu with rfl | hu
      · exact .inr hid
      · exact .inl hu
    · exact .inr (hkeep u hu)

theorem settled_init (ids : List NodeId) (succ : NodeId → List NodeId) :
    Settled ids succ ⟨[], [], []⟩ :=
  ⟨⟨by simp [inProgress], by simp [inProgress], List.IsChain.nil, by simp, by simp⟩, rfl⟩

end Search

theorem mem_successors {ids : List NodeId} {links : List Link} {a b : NodeId} :
    b ∈ successors ids links a ↔ ∃ l ∈ links, l.source.node = a ∧ l.sink.node = b ∧ b ∈ ids := by
  simp only [successors, List.mem_map, List.mem_filter, Bool.and_eq_true, decide_eq_true_eq,
    List.contains_iff_mem]
  constructor
  · rintro ⟨l, ⟨hl, hsource, hsink⟩, rfl⟩
    exact ⟨l, hl, hsource, rfl, hsink⟩
  · rintro ⟨l, hl, hsource, rfl, hsink⟩
    exact ⟨l, ⟨hl, hsource, hsink⟩, rfl⟩

/-- A link counts for its source only. -/
theorem sum_successors_le {nodes : List NodeId} (hnodes : nodes.Nodup) (ids : List NodeId)
    (links : List Link) :
    (nodes.map fun u => (successors ids links u).length).sum ≤ links.length := by
  induction links with
  | nil => simp [successors]
  | cons l links ih =>
    have hcount : ∀ us : List NodeId,
        (us.map fun u => (successors ids (l :: links) u).length).sum ≤
          us.count l.source.node + (us.map fun u => (successors ids links u).length).sum := by
      intro us
      induction us with
      | nil => simp
      | cons u us ih =>
        have hu : (successors ids (l :: links) u).length ≤
            (if u = l.source.node then 1 else 0) + (successors ids links u).length := by
          simp only [successors, List.length_map, List.filter_cons]
          by_cases hs : l.source.node = u
          · rw [if_pos hs.symm]
            split
            · rw [List.length_cons]
              omega
            · omega
          · simp [hs]
        simp only [List.map_cons, List.sum_cons, List.count_cons, beq_iff_eq]
        omega
    have hone := List.nodup_iff_count_le_one.mp hnodes l.source.node
    have hle := hcount nodes
    simp only [List.length_cons]
    omega

theorem mem_ids_of_mem_successors {ids : List NodeId} {links : List Link} :
    ∀ u, ∀ t ∈ successors ids links u, t ∈ ids := by
  intro u t ht
  obtain ⟨l, _, _, _, hmem⟩ := mem_successors.mp ht
  exact hmem

/-- The search has time for every node and every link. -/
theorem sum_cost_le {ids : List NodeId} (hids : ids.Nodup) (links : List Link) :
    (ids.map fun u => 1 + (successors ids links u).length).sum ≤ ids.length + links.length := by
  have hle := sum_successors_le hids ids links
  rw [List.sum_map_add]
  simpa using hle

/-- Every node stands once in the order, and a link whose source does not come first lies on a
cycle. -/
theorem traverse_order {ids : List NodeId} (hids : ids.Nodup) (links : List Link) :
    (traverse ids links).order.Perm ids ∧
      ∀ u ∈ ids, ∀ t ∈ successors ids links u, Precedes (traverse ids links).order u t ∨
        Relation.ReflTransGen (fun a b => b ∈ successors ids links a) t u := by
  let succ := successors ids links
  have hsucc : ∀ u, ∀ t ∈ succ u, t ∈ ids := mem_ids_of_mem_successors
  obtain ⟨hend, hall⟩ := Search.settled_roots hids hsucc (sum_cost_le hids links) ids (fun u hu => hu)
    (Search.settled_init ids succ)
  have hperm : (traverse ids links).order.Perm ids := by
    refine (List.perm_ext_iff_of_nodup hend.nodup hids).mpr ?_
    intro u
    constructor
    · intro hu
      exact hend.sound.known u ((hend.mem_iff u).mpr hu)
    · intro hu
      exact hall u (.inl hu)
  refine ⟨hperm, ?_⟩
  intro u hu t ht
  have hnodup := hperm.nodup_iff.mpr hids
  have hmem := hperm.mem_iff.mpr (hsucc u t ht)
  obtain ⟨earlier, later, horder⟩ := List.append_of_mem (hperm.mem_iff.mpr hu)
  rcases hend.sound.settled u later ⟨earlier, horder.symm⟩ t ht with hlater | hcycle
  · rw [horder] at hnodup hmem ⊢
    exact .inl ((precedes_append_cons_iff hnodup hmem).mpr hlater)
  · exact .inr hcycle

theorem NodeMap.nodup_ids (m : NodeMap) : m.ids.Nodup := by
  refine List.pairwise_map.mpr (m.sorted.imp ?_)
  intro a b hlt heq
  exact UInt32.lt_irrefl _ (heq ▸ hlt)

namespace Routine

/-- A link leads from the first node to the second. -/
def Linked (r : Routine) (a b : NodeId) : Prop :=
  ∃ l ∈ r.links, l.source.node = a ∧ l.sink.node = b

theorem order_perm (r : Routine) : r.traversal.order.Perm r.nodes.ids :=
  (traverse_order r.nodes.nodup_ids r.links).1

theorem nodup_order (r : Routine) : r.traversal.order.Nodup :=
  r.order_perm.nodup_iff.mpr r.nodes.nodup_ids

theorem mem_order (r : Routine) (id : NodeId) :
    id ∈ r.traversal.order ↔ r.nodes.contains id = true :=
  r.order_perm.mem_iff.trans (r.nodes.contains_iff id).symm

theorem precedes_or_cycle (r : Routine) {l : Link} (hl : l ∈ r.links)
    (hsource : r.nodes.contains l.source.node = true)
    (hsink : r.nodes.contains l.sink.node = true) :
    Precedes r.traversal.order l.source.node l.sink.node ∨
      Relation.ReflTransGen r.Linked l.sink.node l.source.node := by
  have hsucc : l.sink.node ∈ successors r.nodes.ids r.links l.source.node :=
    mem_successors.mpr ⟨l, hl, rfl, rfl, (r.nodes.contains_iff _).mp hsink⟩
  refine ((traverse_order r.nodes.nodup_ids r.links).2 _ ((r.nodes.contains_iff _).mp hsource) _
    hsucc).imp_right ?_
  refine Relation.ReflTransGen.mono ?_ _ _
  intro a b hab
  obtain ⟨l, hl, hsource, hsink, _⟩ := mem_successors.mp hab
  exact ⟨l, hl, hsource, hsink⟩

end Routine

end FlowBasic
