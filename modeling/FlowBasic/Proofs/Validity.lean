import FlowBasic.Proofs.ReachableNodes
import FlowBasic.Proofs.TraversalOrder
import FlowBasic.Report

namespace FlowBasic

theorem Entries.lookup_eq_some_iff {κ α : Type} [BEq κ] [LawfulBEq κ] [DecidableEq κ]
    {es : List (κ × α)} (h : (es.map Prod.fst).Nodup) {x : κ} {v : α} :
    es.lookup x = some v ↔ (x, v) ∈ es := by
  induction es with
  | nil => simp
  | cons e es ih =>
    obtain ⟨k, w⟩ := e
    simp only [List.map_cons, List.nodup_cons] at h
    rw [lookup_cons, List.mem_cons, Prod.mk.injEq]
    by_cases hx : x = k
    · subst hx
      have hout : (x, v) ∉ es := fun hmem => h.1 (List.mem_map.mpr ⟨(x, v), hmem, rfl⟩)
      simp [hout, eq_comm]
    · simp [hx, ih h.2]

theorem NodeMap.mem_entries_iff (m : NodeMap) {id : NodeId} {n : Node} :
    (id, n) ∈ m.entries ↔ m.get? id = some n :=
  (Entries.lookup_eq_some_iff m.nodup_ids).symm

namespace Link

/-- Two links that want the same port for themselves. -/
def Clash (a b : Link) : Prop :=
  (a.isFlow = true ∧ b.isFlow = true ∧ a.source = b.source) ∨
    (a.isFlow = false ∧ b.isFlow = false ∧ a.sink = b.sink)

end Link

namespace Occupied

theorem holds_add (o : Occupied) (l m : Link) :
    (o.add l).holds m = true ↔ l.Clash m ∨ o.holds m = true := by
  cases hl : l.isFlow <;> cases hm : m.isFlow <;>
    simp [add, holds, Link.Clash, hl, hm, @eq_comm _ m.source, @eq_comm _ m.sink]

/-- As long as nothing is reported, a conflict is a link that clashes with an earlier one. -/
theorem conflicts_eq_nil_iff (o : Occupied) (ho : o.reported = []) (links : List Link) :
    o.conflicts links = [] ↔
      (∀ l ∈ links, ¬ o.holds l = true) ∧ links.Pairwise fun a b => ¬ a.Clash b := by
  induction links generalizing o with
  | nil => simp [conflicts]
  | cons l links ih =>
    have hreported : (o.add l).reported = [] := by
      simp only [add]
      split <;> exact ho
    simp only [conflicts, ho, List.contains_nil, Bool.not_false, Bool.and_true]
    split
    · next hholds =>
      refine iff_of_false (by simp) ?_
      rintro ⟨hfree, -⟩
      exact hfree l List.mem_cons_self hholds
    · next hfree =>
      rw [ih _ hreported, List.pairwise_cons]
      constructor
      · rintro ⟨hrest, hpairs⟩
        refine ⟨?_, fun m hm hclash => hrest m hm ((holds_add o l m).mpr (.inl hclash)), hpairs⟩
        intro m hm
        rcases List.mem_cons.mp hm with rfl | hm
        · exact hfree
        · exact fun hholds => hrest m hm ((holds_add o l m).mpr (.inr hholds))
      · rintro ⟨hrest, hfirst, hpairs⟩
        refine ⟨?_, hpairs⟩
        intro m hm hholds
        rcases (holds_add o l m).mp hholds with hclash | hholds
        · exact hfirst m hm hclash
        · exact hrest m (List.mem_cons_of_mem _ hm) hholds

end Occupied

namespace Routine

/-- The start node of lowest id. -/
def IsStart (r : Routine) (id : NodeId) : Prop :=
  (∃ n, r.nodes.get? id = some n ∧ n.payload = .start) ∧
    ∀ other n, r.nodes.get? other = some n → n.payload = .start → id ≤ other

/-- The name that a payload uses is declared; a callee is looked for where the routines are known. -/
def Declared (r : Routine) (scope : Scope) : Payload → Prop
  | .argument name => name ∈ r.args.keys
  | .fetch name => name ∈ r.vars.keys
  | .assign name _ => name ∈ r.vars.keys
  | .process name => ∀ known, scope = some known → name ∈ known.keys
  | _ => True

/-- Every required port of the node has a link. -/
def Connected (r : Routine) (scope : Scope) (id : NodeId) (p : Payload) : Prop :=
  (∀ port ∈ (r.layout scope p).requiredInputs,
    ∃ l ∈ r.links, l.sink.node = id ∧ l.sink.port.toNat = port) ∧
  (∀ port ∈ (r.layout scope p).requiredOutputs,
    ∃ l ∈ r.links, l.source.node = id ∧ l.source.port.toNat = port)

structure WellFormed (r : Routine) (scope : Scope) : Prop where
  start : ∃ id n, r.nodes.get? id = some n ∧ n.payload = .start
  ends : ∀ l ∈ r.links, l.source.node ∈ r.nodes.ids ∧ l.sink.node ∈ r.nodes.ids
  flowSources : r.links.Pairwise fun a b => a.isFlow = true → b.isFlow = true → a.source ≠ b.source
  valueSinks : r.links.Pairwise fun a b => a.isFlow = false → b.isFlow = false → a.sink ≠ b.sink
  fits : ∀ l ∈ r.links, r.checkLink scope l = .ok ()
  declared : ∀ id n, r.nodes.get? id = some n → r.Declared scope n.payload
  connected : ∀ start, r.IsStart start → ∀ id n, Reached r.links start id →
    r.nodes.get? id = some n → r.Connected scope id n.payload

theorem start?_eq_some_iff (r : Routine) (id : NodeId) : r.start? = some id ↔ r.IsStart id := by
  have hfirst : ∀ id, r.start? = some id → r.IsStart id := by
    intro id h
    obtain ⟨⟨first, n⟩, hfind, rfl⟩ := Option.map_eq_some_iff.mp h
    obtain ⟨hstart, earlier, later, hsplit, hearlier⟩ := List.find?_eq_some_iff_append.mp hfind
    have hmem : (first, n) ∈ r.nodes.entries := List.mem_of_find?_eq_some hfind
    refine ⟨⟨n, r.nodes.mem_entries_iff.mp hmem, of_decide_eq_true hstart⟩, ?_⟩
    intro other m hother hm
    have hother := r.nodes.mem_entries_iff.mpr hother
    have hsorted := r.nodes.sorted
    rw [hsplit] at hother hsorted
    rcases List.mem_append.mp hother with hother | hother
    · have := hearlier _ hother
      simp [hm] at this
    · rcases List.mem_cons.mp hother with heq | hother
      · exact UInt32.le_of_eq (Prod.mk.inj heq).1.symm
      · have hlt := (List.pairwise_cons.mp (List.pairwise_append.mp hsorted).2.1).1 _ hother
        exact UInt32.le_of_lt hlt
  refine ⟨hfirst id, ?_⟩
  intro h
  obtain ⟨⟨n, hn, hstart⟩, hleast⟩ := h
  cases hfound : r.start? with
  | none =>
    have hnone := List.find?_eq_none.mp (Option.map_eq_none_iff.mp hfound)
    exact absurd (decide_eq_true hstart) (hnone _ (r.nodes.mem_entries_iff.mpr hn))
  | some other =>
    obtain ⟨⟨m, hm, hother⟩, hleast'⟩ := hfirst other hfound
    exact congrArg some (UInt32.le_antisymm (hleast' id n hn hstart) (hleast other m hm hother))

theorem start?_eq_none_iff (r : Routine) :
    r.start? = none ↔ ¬ ∃ id n, r.nodes.get? id = some n ∧ n.payload = .start := by
  simp only [start?, Option.map_eq_none_iff, List.find?_eq_none, decide_eq_true_eq]
  constructor
  · rintro hnone ⟨id, n, hn, hstart⟩
    exact hnone _ (r.nodes.mem_entries_iff.mpr hn) hstart
  · rintro hnone ⟨id, n⟩ hmem hstart
    exact hnone ⟨id, n, r.nodes.mem_entries_iff.mp hmem, hstart⟩

theorem dangles_eq_false_iff (r : Routine) (l : Link) :
    r.dangles l = false ↔ l.source.node ∈ r.nodes.ids ∧ l.sink.node ∈ r.nodes.ids := by
  simp [dangles, ← NodeMap.contains_iff]

theorem endpointFindings_eq_nil_iff (r : Routine) (name : String) :
    r.endpointFindings name = [] ↔
      ∀ l ∈ r.links, l.source.node ∈ r.nodes.ids ∧ l.sink.node ∈ r.nodes.ids := by
  simp only [← dangles_eq_false_iff, endpointFindings, danglingLinks, List.flatMap_eq_nil_iff,
    List.mem_filter]
  constructor
  · intro h l hl
    by_contra hdangles
    have hnone := h l ⟨hl, by simpa using hdangles⟩
    simp only [dangles] at hdangles
    cases hsink : r.nodes.contains l.sink.node <;>
      cases hsource : r.nodes.contains l.source.node <;> simp_all
  · rintro h l ⟨hl, hdangles⟩
    rw [h l hl] at hdangles
    exact absurd hdangles (by decide)

theorem conflictFindings_eq_nil_iff (r : Routine) (name : String) :
    r.conflictFindings name = [] ↔
      (r.links.Pairwise fun a b => a.isFlow = true → b.isFlow = true → a.source ≠ b.source) ∧
      r.links.Pairwise fun a b => a.isFlow = false → b.isFlow = false → a.sink ≠ b.sink := by
  rw [conflictFindings, List.map_eq_nil_iff, Occupied.conflicts_eq_nil_iff _ rfl, ← List.pairwise_and_iff]
  have hempty : ∀ l ∈ r.links, ¬ Occupied.holds ⟨[], [], []⟩ l = true := by
    intro l _
    simp [Occupied.holds]
  constructor
  · rintro ⟨-, hpairs⟩
    refine hpairs.imp ?_
    intro a b hclash
    exact ⟨fun ha hb heq => hclash (.inl ⟨ha, hb, heq⟩), fun ha hb heq => hclash (.inr ⟨ha, hb, heq⟩)⟩
  · intro hpairs
    refine ⟨hempty, hpairs.imp ?_⟩
    rintro a b ⟨hflow, hvalue⟩ (⟨ha, hb, heq⟩ | ⟨ha, hb, heq⟩)
    · exact hflow ha hb heq
    · exact hvalue ha hb heq

theorem linkFindings_eq_nil_iff (r : Routine) (scope : Scope) (name : String) :
    r.linkFindings scope name = [] ↔
      ∀ l ∈ r.links, r.dangles l = false → r.checkLink scope l = .ok () := by
  simp only [linkFindings, List.filterMap_eq_nil_iff, List.mem_filter, Bool.not_eq_true']
  constructor
  · intro h l hl hends
    have hnone := h l ⟨hl, hends⟩
    split at hnone
    · assumption
    · exact absurd hnone (by simp)
  · rintro h l ⟨hl, hends⟩
    simp [h l hl hends]

theorem undeclared?_eq_none_iff (r : Routine) (scope : Scope) (p : Payload) :
    r.undeclared? scope p = none ↔ r.Declared scope p := by
  cases p with
  | argument name => simp [undeclared?, Declared, ← Table.contains_iff]
  | fetch name => simp [undeclared?, Declared, ← Table.contains_iff]
  | assign name v => simp [undeclared?, Declared, ← Table.contains_iff]
  | process name =>
    cases scope with
    | none => simp [undeclared?, Declared]
    | some known => simp [undeclared?, Declared, ← Table.contains_iff]
  | _ => simp [undeclared?, Declared]

theorem referenceFindings_eq_nil_iff (r : Routine) (scope : Scope) (name : String) :
    r.referenceFindings scope name = [] ↔
      ∀ id n, r.nodes.get? id = some n → r.Declared scope n.payload := by
  simp only [referenceFindings, List.filterMap_eq_nil_iff, Option.map_eq_none_iff,
    undeclared?_eq_none_iff]
  constructor
  · intro h id n hn
    exact h (id, n) (r.nodes.mem_entries_iff.mpr hn)
  · rintro h ⟨id, n⟩ hmem
    exact h id n (r.nodes.mem_entries_iff.mp hmem)

theorem unconnected_eq_nil_iff (r : Routine) (scope : Scope) (id : NodeId) (p : Payload) :
    r.unconnected scope id p = [] ↔ r.Connected scope id p := by
  simp [unconnected, Connected, Link.enters, Link.leaves]

theorem connectionFindings_eq_nil_iff (r : Routine) (scope : Scope) (name : String) :
    r.connectionFindings scope name = [] ↔
      (∃ id n, r.nodes.get? id = some n ∧ n.payload = .start) ∧
      ∀ start, r.IsStart start → ∀ id n, Reached r.links start id →
        r.nodes.get? id = some n → r.Connected scope id n.payload := by
  rw [connectionFindings]
  cases hstart : r.start? with
  | none =>
    refine iff_of_false (by simp) ?_
    rintro ⟨hsome, -⟩
    exact r.start?_eq_none_iff.mp hstart hsome
  | some start =>
    have hfirst := (r.start?_eq_some_iff start).mp hstart
    have hunique : ∀ other, r.IsStart other → other = start := by
      intro other hother
      have hsome := (r.start?_eq_some_iff other).mpr hother
      exact Option.some.inj (hsome.symm.trans hstart)
    simp only [List.flatMap_eq_nil_iff, List.map_eq_nil_iff, List.mem_filter,
      unconnected_eq_nil_iff, List.contains_iff_mem, mem_reachable_iff]
    constructor
    · intro h
      obtain ⟨⟨n, hn, hp⟩, -⟩ := hfirst
      refine ⟨⟨start, n, hn, hp⟩, ?_⟩
      intro other hother id n hreached hn
      rw [hunique other hother] at hreached
      exact h (id, n) ⟨r.nodes.mem_entries_iff.mpr hn, hreached⟩
    · rintro ⟨-, h⟩ ⟨id, n⟩ ⟨hmem, hreached⟩
      exact h start hfirst id n hreached (r.nodes.mem_entries_iff.mp hmem)

section Faults

variable {r : Routine} {scope : Scope} {name : String} {f : Finding}

theorem fault_of_mem_endpointFindings (h : f ∈ r.endpointFindings name) : f.fault = .invalidPath := by
  obtain ⟨l, _, h⟩ := List.mem_flatMap.mp h
  rcases List.mem_append.mp h with h | h
  all_goals
    split at h
    · exact absurd h List.not_mem_nil
    · rw [List.mem_singleton.mp h]
      rfl

theorem fault_of_mem_conflictFindings (h : f ∈ r.conflictFindings name) :
    f.fault = .conflictingLinks := by
  obtain ⟨e, _, rfl⟩ := List.mem_map.mp h
  rfl

theorem fault_of_mem_linkFindings (h : f ∈ r.linkFindings scope name) :
    ∃ reason, f.fault = .incompatibleLink reason := by
  obtain ⟨l, _, h⟩ := List.mem_filterMap.mp h
  split at h
  · exact absurd h (by simp)
  · next reason _ =>
    rw [← Option.some.inj h]
    exact ⟨reason, rfl⟩

theorem fault_of_mem_referenceFindings (h : f ∈ r.referenceFindings scope name) :
    ∃ used, f.fault = .unknownReference used := by
  obtain ⟨e, _, h⟩ := List.mem_filterMap.mp h
  obtain ⟨used, _, rfl⟩ := Option.map_eq_some_iff.mp h
  exact ⟨used, rfl⟩

theorem fault_of_mem_connectionFindings (h : f ∈ r.connectionFindings scope name) :
    f.fault = if r.start?.isSome then .missingConnection else .invalidPath := by
  simp only [connectionFindings] at h
  split at h
  · next hstart =>
    rw [List.mem_singleton.mp h, hstart]
    rfl
  · next hstart =>
    obtain ⟨e, _, h⟩ := List.mem_flatMap.mp h
    obtain ⟨port, _, rfl⟩ := List.mem_map.mp h
    rw [hstart]
    rfl

theorem fault_of_mem_cycleFindings (h : f ∈ r.cycleFindings name) : f.fault = .cycle := by
  obtain ⟨e, _, rfl⟩ := List.mem_map.mp h
  rfl

/-- All findings are errors, apart from those on cycles. -/
theorem isError_of_mem (h : f ∈ r.endpointFindings name ++ r.conflictFindings name ++
    r.linkFindings scope name ++ r.referenceFindings scope name ++ r.connectionFindings scope name) :
    f.isError = true := by
  have hfault : f.fault ≠ .cycle := by
    simp only [List.mem_append, or_assoc] at h
    rcases h with h | h | h | h | h
    · simp [fault_of_mem_endpointFindings h]
    · simp [fault_of_mem_conflictFindings h]
    · obtain ⟨reason, hreason⟩ := fault_of_mem_linkFindings h
      simp [hreason]
    · obtain ⟨used, hused⟩ := fault_of_mem_referenceFindings h
      simp [hused]
    · rw [fault_of_mem_connectionFindings h]
      split <;> simp
  cases hf : f.fault <;> simp_all [Finding.isError, Finding.severity, Fault.severity]

theorem isError_of_mem_cycleFindings (h : f ∈ r.cycleFindings name) : f.isError = false := by
  simp [Finding.isError, Finding.severity, fault_of_mem_cycleFindings h, Fault.severity]

end Faults

theorem valid_iff_nil (r : Routine) (scope : Scope) (name : String) :
    (r.report scope name).valid = true ↔
      r.endpointFindings name = [] ∧ r.conflictFindings name = [] ∧
      r.linkFindings scope name = [] ∧ r.referenceFindings scope name = [] ∧
      r.connectionFindings scope name = [] := by
  have hcycles : (r.cycleFindings name).any Finding.isError = false := by
    rw [List.any_eq_false]
    intro f hf
    simp [isError_of_mem_cycleFindings hf]
  rw [Report.valid, report, List.any_append, hcycles, Bool.or_false, Bool.not_eq_true',
    List.any_eq_false]
  simp only [← List.append_eq_nil_iff, ← List.append_assoc]
  constructor
  · intro hnone
    apply List.eq_nil_iff_forall_not_mem.mpr
    intro f hf
    exact hnone f hf (isError_of_mem hf)
  · intro hnone f hf
    rw [hnone] at hf
    exact absurd hf List.not_mem_nil

theorem wellFormed_of_valid {r : Routine} {scope : Scope} {name : String}
    (h : (r.report scope name).valid = true) : r.WellFormed scope := by
  rw [valid_iff_nil, endpointFindings_eq_nil_iff, conflictFindings_eq_nil_iff,
    linkFindings_eq_nil_iff, referenceFindings_eq_nil_iff, connectionFindings_eq_nil_iff] at h
  obtain ⟨hends, ⟨hflow, hvalue⟩, hfits, hdeclared, hstart, hconnected⟩ := h
  refine ⟨hstart, hends, hflow, hvalue, ?_, hdeclared, hconnected⟩
  intro l hl
  exact hfits l hl ((r.dangles_eq_false_iff l).mpr (hends l hl))

theorem valid_of_wellFormed {r : Routine} {scope : Scope} (name : String)
    (h : r.WellFormed scope) : (r.report scope name).valid = true := by
  rw [valid_iff_nil, endpointFindings_eq_nil_iff, conflictFindings_eq_nil_iff,
    linkFindings_eq_nil_iff, referenceFindings_eq_nil_iff, connectionFindings_eq_nil_iff]
  exact ⟨h.ends, ⟨h.flowSources, h.valueSinks⟩, fun l hl _ => h.fits l hl, h.declared,
    h.start, h.connected⟩

/-- The report of a routine has no error exactly when the routine is well formed. -/
theorem report_valid_iff_wellFormed (r : Routine) (scope : Scope) (name : String) :
    (r.report scope name).valid = true ↔ r.WellFormed scope :=
  ⟨wellFormed_of_valid, valid_of_wellFormed name⟩

end Routine

end FlowBasic
