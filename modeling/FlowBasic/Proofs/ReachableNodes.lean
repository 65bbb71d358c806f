import FlowBasic.Reach

namespace FlowBasic

/-- Control comes from the start to the node along flow links. -/
inductive OnPath (links : List Link) (start : NodeId) : NodeId → Prop
  | start : OnPath links start start
  | flow {l : Link} : l ∈ links → l.isFlow = true → OnPath links start l.source.node →
      OnPath links start l.sink.node

/-- Control comes to the node, or its value is read by a node of this kind. -/
inductive Reached (links : List Link) (start : NodeId) : NodeId → Prop
  | control {id : NodeId} : OnPath links start id → Reached links start id
  | value {l : Link} : l ∈ links → l.isFlow = false → Reached links start l.sink.node →
      Reached links start l.source.node

namespace Reach

variable {links : List Link} {start : NodeId}

theorem mem_flowTargets {id t : NodeId} :
    t ∈ flowTargets links id ↔ ∃ l ∈ links, l.isFlow = true ∧ l.source.node = id ∧ l.sink.node = t := by
  simp only [flowTargets, List.mem_map, List.mem_filter, Bool.and_eq_true, decide_eq_true_eq]
  constructor
  · rintro ⟨l, ⟨hl, hsource, hflow⟩, hsink⟩
    exact ⟨l, hl, hflow, hsource, hsink⟩
  · rintro ⟨l, hl, hflow, hsource, hsink⟩
    exact ⟨l, ⟨hl, hsource, hflow⟩, hsink⟩

theorem mem_valueSources {id t : NodeId} :
    t ∈ valueSources links id ↔ ∃ l ∈ links, l.isFlow = false ∧ l.sink.node = id ∧ l.source.node = t := by
  simp only [valueSources, List.mem_map, List.mem_filter, Bool.and_eq_true, decide_eq_true_eq,
    Bool.not_eq_true']
  constructor
  · rintro ⟨l, ⟨hl, hsink, hvalue⟩, hsource⟩
    exact ⟨l, hl, hvalue, hsink, hsource⟩
  · rintro ⟨l, hl, hvalue, hsink, hsource⟩
    exact ⟨l, ⟨hl, hsink, hvalue⟩, hsource⟩

theorem mem_map_flag {ts : List NodeId} {u : NodeId} {via flag : Bool} :
    (u, via) ∈ ts.map (·, flag) ↔ via = flag ∧ u ∈ ts := by
  constructor
  · intro h
    obtain ⟨t, ht, heq⟩ := List.mem_map.mp h
    obtain ⟨rfl, rfl⟩ := Prod.mk.inj heq
    exact ⟨rfl, ht⟩
  · rintro ⟨rfl, hu⟩
    exact List.mem_map.mpr ⟨u, hu, rfl⟩

section Step

variable {id : NodeId} {viaFlow : Bool} {rest : List (NodeId × Bool)} {onPath reached : List NodeId}

theorem mem_onPath_step {u : NodeId} :
    u ∈ (step links ⟨(id, viaFlow) :: rest, onPath, reached⟩).onPath ↔
      u ∈ onPath ∨ viaFlow = true ∧ u = id := by
  simp only [step]
  split
  · next h =>
    simp only [Bool.and_eq_true] at h
    simp [h.1, or_comm]
  · next h =>
    simp only [Bool.and_eq_true, Bool.not_eq_true', not_and, Bool.not_eq_false] at h
    constructor
    · exact .inl
    · rintro (hu | ⟨hvia, rfl⟩)
      · exact hu
      · exact List.contains_iff_mem.mp (h hvia)

theorem mem_reached_step {u : NodeId} :
    u ∈ (step links ⟨(id, viaFlow) :: rest, onPath, reached⟩).reached ↔ u ∈ reached ∨ u = id := by
  simp only [step]
  split
  · simp [or_comm]
  · next h =>
    simp only [Bool.not_eq_true', Bool.not_eq_false] at h
    constructor
    · exact .inl
    · rintro (hu | rfl)
      · exact hu
      · exact List.contains_iff_mem.mp h

theorem mem_queue_step {e : NodeId × Bool} :
    e ∈ (step links ⟨(id, viaFlow) :: rest, onPath, reached⟩).queue ↔ e ∈ rest ∨
      (viaFlow = true ∧ id ∉ onPath ∧ e.2 = true ∧ e.1 ∈ flowTargets links id) ∨
      (id ∉ reached ∧ e.2 = false ∧ e.1 ∈ valueSources links id) := by
  obtain ⟨u, via⟩ := e
  simp only [step, List.mem_append]
  rw [or_assoc]
  refine or_congr_right (or_congr ?_ ?_)
  · split
    · next h =>
      rw [mem_map_flag]
      simp_all
    · next h =>
      simp_all
  · split
    · next h =>
      rw [mem_map_flag]
      simp_all
    · next h =>
      simp_all

end Step

/-- What holds at every step: nothing is found without a reason, and what is still to be found is
in the queue. -/
structure Sound (links : List Link) (start : NodeId) (s : Reach) : Prop where
  queued : ∀ e ∈ s.queue, Reached links start e.1 ∧ (e.2 = true → OnPath links start e.1)
  entered : ∀ u ∈ s.onPath, OnPath links start u ∧ u ∈ s.reached
  found : ∀ u ∈ s.reached, Reached links start u
  begun : start ∈ s.onPath ∨ (start, true) ∈ s.queue
  flow : ∀ l ∈ links, l.isFlow = true → l.source.node ∈ s.onPath →
    l.sink.node ∈ s.onPath ∨ (l.sink.node, true) ∈ s.queue
  value : ∀ l ∈ links, l.isFlow = false → l.sink.node ∈ s.reached →
    l.source.node ∈ s.reached ∨ (l.source.node, false) ∈ s.queue

theorem sound_step {s : Reach} (h : Sound links start s) : Sound links start (s.step links) := by
  obtain ⟨queue, onPath, reached⟩ := s
  match queue with
  | [] => exact h
  | (id, viaFlow) :: rest =>
    obtain ⟨hid, hpath⟩ := h.queued (id, viaFlow) List.mem_cons_self
    -- an entry of the old queue is still there, unless it is the one that this step takes
    have hkeep : ∀ {u : NodeId} {via : Bool}, (u, via) ∈ (id, viaFlow) :: rest →
        (u = id ∧ via = viaFlow) ∨
          (u, via) ∈ (step links ⟨(id, viaFlow) :: rest, onPath, reached⟩).queue := by
      intro u via hu
      rcases List.mem_cons.mp hu with heq | hu
      · exact .inl (Prod.mk.inj heq)
      · exact .inr (mem_queue_step.mpr (.inl hu))
    refine ⟨?_, ?_, ?_, ?_, ?_, ?_⟩
    · intro e he
      rcases mem_queue_step.mp he with he | ⟨hvia, _, _, he⟩ | ⟨_, hfalse, he⟩
      · exact h.queued e (List.mem_cons_of_mem _ he)
      · obtain ⟨l, hl, hflow, rfl, hsink⟩ := mem_flowTargets.mp he
        have hon : OnPath links start e.1 := hsink ▸ .flow hl hflow (hpath hvia)
        exact ⟨.control hon, fun _ => hon⟩
      · obtain ⟨l, hl, hvalue, rfl, hsource⟩ := mem_valueSources.mp he
        refine ⟨hsource ▸ .value hl hvalue hid, ?_⟩
        intro htrue
        rw [hfalse] at htrue
        exact absurd htrue (by decide)
    · intro u hu
      rw [mem_reached_step]
      rcases mem_onPath_step.mp hu with hu | ⟨hvia, rfl⟩
      · exact ⟨(h.entered u hu).1, .inl (h.entered u hu).2⟩
      · exact ⟨hpath hvia, .inr rfl⟩
    · intro u hu
      rcases mem_reached_step.mp hu with hu | rfl
      · exact h.found u hu
      · exact hid
    · rw [mem_onPath_step]
      rcases h.begun with hs | hs
      · exact .inl (.inl hs)
      · rcases hkeep hs with ⟨rfl, rfl⟩ | hs
        · exact .inl (.inr ⟨rfl, rfl⟩)
        · exact .inr hs
    · intro l hl hflow hsource
      rw [mem_onPath_step]
      by_cases hold : l.source.node ∈ onPath
      · rcases h.flow l hl hflow hold with hs | hs
        · exact .inl (.inl hs)
        · rcases hkeep hs with ⟨heq, rfl⟩ | hs
          · exact .inl (.inr ⟨rfl, heq⟩)
          · exact .inr hs
      · rcases mem_onPath_step.mp hsource with hs | ⟨hvia, hs⟩
        · exact absurd hs hold
        · -- the link leaves the node that control enters now
          refine .inr (mem_queue_step.mpr (.inr (.inl ⟨hvia, hs ▸ hold, rfl, ?_⟩)))
          exact mem_flowTargets.mpr ⟨l, hl, hflow, hs, rfl⟩
    · intro l hl hvalue hsink
      rw [mem_reached_step]
      by_cases hold : l.sink.node ∈ reached
      · rcases h.value l hl hvalue hold with hs | hs
        · exact .inl (.inl hs)
        · rcases hkeep hs with ⟨hs, -⟩ | hs
          · exact .inl (.inr hs)
          · exact .inr hs
      · rcases mem_reached_step.mp hsink with hs | hs
        · exact absurd hs hold
        · refine .inr (mem_queue_step.mpr (.inr (.inr ⟨hs ▸ hold, rfl, ?_⟩)))
          exact mem_valueSources.mpr ⟨l, hl, hvalue, hs, rfl⟩

/-- The links of a kind whose end has not been seen. -/
def unseen (p : Link → Bool) (key : Link → NodeId) (seen : List NodeId) (links : List Link) : Nat :=
  links.countP fun l => p l && !seen.contains (key l)

/-- The number of steps until the queue is empty: each link is followed once. -/
def remaining (links : List Link) (s : Reach) : Nat :=
  s.queue.length + unseen Link.isFlow (·.source.node) s.onPath links +
    unseen (fun l => !l.isFlow) (·.sink.node) s.reached links

theorem unseen_cons (p : Link → Bool) (key : Link → NodeId) {id : NodeId} {seen : List NodeId}
    (h : seen.contains id = false) (links : List Link) :
    unseen p key seen links =
      unseen p key (id :: seen) links + (links.filter fun l => key l = id && p l).length := by
  rw [← List.countP_eq_length_filter]
  induction links with
  | nil => rfl
  | cons l links ih =>
    have hhead : (if p l && !seen.contains (key l) then 1 else 0) =
        (if p l && !(id :: seen).contains (key l) then 1 else 0) +
          (if key l = id && p l then 1 else 0) := by
      have hid : id ∉ seen := by simpa using h
      by_cases hkey : key l = id
      · cases hp : p l <;> simp [hkey, hid]
      · simp [hkey]
    simp only [unseen, List.countP_cons] at ih ⊢
    omega

theorem remaining_step (links : List Link) {s : Reach} (hs : s.queue ≠ []) :
    (s.step links).remaining links + 1 = s.remaining links := by
  obtain ⟨queue, onPath, reached⟩ := s
  match queue with
  | [] => exact absurd rfl hs
  | (id, viaFlow) :: rest =>
    have hflow : unseen Link.isFlow (·.source.node) onPath links =
        unseen Link.isFlow (·.source.node)
          (step links ⟨(id, viaFlow) :: rest, onPath, reached⟩).onPath links +
        (if viaFlow && !onPath.contains id then flowTargets links id else []).length := by
      simp only [step]
      split
      · next hnew =>
        simp only [Bool.and_eq_true, Bool.not_eq_true'] at hnew
        rw [unseen_cons _ _ hnew.2 links, flowTargets, List.length_map]
      · simp
    have hvalue : unseen (fun l => !l.isFlow) (·.sink.node) reached links =
        unseen (fun l => !l.isFlow) (·.sink.node)
          (step links ⟨(id, viaFlow) :: rest, onPath, reached⟩).reached links +
        (if !reached.contains id then valueSources links id else []).length := by
      simp only [step]
      split
      · next hnew =>
        rw [unseen_cons _ _ (by simpa using hnew) links, valueSources, List.length_map]
      · simp
    have hqueue : (step links ⟨(id, viaFlow) :: rest, onPath, reached⟩).queue.length =
        rest.length +
          (if viaFlow && !onPath.contains id then flowTargets links id else []).length +
          (if !reached.contains id then valueSources links id else []).length := by
      simp only [step, List.length_append]
      split <;> split <;> simp
    simp only [remaining, hqueue, List.length_cons]
    omega

theorem run_spec (fuel : Nat) {s : Reach} (h : Sound links start s)
    (hfuel : s.remaining links ≤ fuel) :
    Sound links start (run links fuel s) ∧ (run links fuel s).queue = [] := by
  induction fuel generalizing s with
  | zero =>
    simp only [remaining] at hfuel
    exact ⟨h, List.eq_nil_of_length_eq_zero (by simp only [run]; omega)⟩
  | succ fuel ih =>
    simp only [run]
    split
    · next hempty => exact ⟨h, List.isEmpty_iff.mp hempty⟩
    · next hbusy =>
      have hs : s.queue ≠ [] := fun hs => hbusy (List.isEmpty_iff.mpr hs)
      have hstep := remaining_step links hs
      exact ih (sound_step h) (by omega)

/-- With an empty queue the nodes found are closed under both rules. -/
theorem Sound.mem_reached_iff {s : Reach} (h : Sound links start s) (hqueue : s.queue = [])
    (id : NodeId) : id ∈ s.reached ↔ Reached links start id := by
  have honPath : ∀ u, OnPath links start u → u ∈ s.onPath := by
    intro u hu
    induction hu with
    | start => simpa [hqueue] using h.begun
    | flow hl hflow _ ih => simpa [hqueue] using h.flow _ hl hflow ih
  constructor
  · exact h.found id
  · intro hid
    induction hid with
    | control hon => exact (h.entered _ (honPath _ hon)).2
    | value hl hvalue _ ih => simpa [hqueue] using h.value _ hl hvalue ih

end Reach

theorem mem_reachable_iff (links : List Link) (start id : NodeId) :
    id ∈ reachable links start ↔ Reached links start id := by
  have hinit : Reach.Sound links start ⟨[(start, true)], [], []⟩ := by
    refine ⟨?_, by simp, by simp, by simp, by simp, by simp⟩
    intro e he
    rw [List.mem_singleton.mp he]
    exact ⟨.control .start, fun _ => .start⟩
  have hfuel : Reach.remaining links ⟨[(start, true)], [], []⟩ ≤ links.length + 1 := by
    have hsplit : links.countP (fun l => l.isFlow) + links.countP (fun l => !l.isFlow) =
        links.length := by
      rw [List.length_eq_countP_add_countP Link.isFlow]
      simp only [Bool.not_eq_true, Bool.decide_eq_false]
    simp only [Reach.remaining, Reach.unseen, List.length_singleton, List.contains_nil,
      Bool.not_false, Bool.and_true]
    omega
  obtain ⟨hsound, hqueue⟩ := Reach.run_spec _ hinit hfuel
  exact hsound.mem_reached_iff hqueue id

end FlowBasic
