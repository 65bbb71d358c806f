import FlowBasic.Proofs.Renaming

namespace FlowBasic

namespace Project

/-- Whether a node of a routine calls something. -/
def isCall (p : Project) (routine : String) (id : NodeId) : Bool :=
  (p.routines.get? routine).any fun r => (r.nodes.get? id).any (·.payload.callee?.isSome)

/-- The place of a finding, if it is about a call of an undeclared name. -/
def undeclaredCall? (p : Project) (name : String) (f : Finding) : Option (String × NodeId) :=
  if f.fault = .unknownReference name then
    (f.node.filter (p.isCall f.routine)).map (f.routine, ·)
  else none

/-- The calls of a name that the report finds undeclared, each with its routine, as they are reported. -/
def undeclaredCalls (p : Project) (name : String) : List (String × NodeId) :=
  (Report.ofRoutines p.routines).findings.filterMap (p.undeclaredCall? name)

end Project

namespace Routine

/-- What looks at undeclared names only finds them where references are checked. -/
theorem filterMap_report {α : Type} (r : Routine) (scope : Scope) (name : String)
    {pick : Finding → Option α} (hpick : ∀ f, (∀ used, f.fault ≠ .unknownReference used) → pick f = none) :
    (r.report scope name).findings.filterMap pick = (r.referenceFindings scope name).filterMap pick := by
  have hnone : ∀ {fs : List Finding}, (∀ f ∈ fs, ∀ used, f.fault ≠ .unknownReference used) →
      fs.filterMap pick = [] := by
    intro fs hfs
    apply List.filterMap_eq_nil_iff.mpr
    intro f hf
    exact hpick f (hfs f hf)
  have hends : (r.endpointFindings name).filterMap pick = [] := by
    refine hnone fun f hf used => ?_
    simp [fault_of_mem_endpointFindings hf]
  have hconflicts : (r.conflictFindings name).filterMap pick = [] := by
    refine hnone fun f hf used => ?_
    simp [fault_of_mem_conflictFindings hf]
  have hlinks : (r.linkFindings scope name).filterMap pick = [] := by
    refine hnone fun f hf used => ?_
    obtain ⟨reason, hreason⟩ := fault_of_mem_linkFindings hf
    simp [hreason]
  have hconnections : (r.connectionFindings scope name).filterMap pick = [] := by
    refine hnone fun f hf used => ?_
    rw [fault_of_mem_connectionFindings hf]
    split <;> simp
  have hcycles : (r.cycleFindings name).filterMap pick = [] := by
    refine hnone fun f hf used => ?_
    simp [fault_of_mem_cycleFindings hf]
  simp only [report, List.filterMap_append, hends, hconflicts, hlinks, hconnections, hcycles,
    List.nil_append, List.append_nil]

theorem callSites_map (r : Routine) (name routine : String) :
    (r.callSites name).map (fun id => (routine, id)) =
      r.nodes.entries.filterMap fun e =>
        if e.2.payload.callee? = some name then some (routine, e.1) else none := by
  rw [callSites, List.map_map, ← List.filterMap_eq_map, List.filterMap_filter]
  simp

end Routine

namespace Project

variable {p : Project} {name routine : String} {r : Routine}

theorem isCall_eq (hr : p.routines.get? routine = some r) {id : NodeId} {n : Node}
    (hn : r.nodes.get? id = some n) : p.isCall routine id = n.payload.callee?.isSome := by
  simp [isCall, hr, hn]

/-- A node is picked out when it calls the name and the name is not declared. -/
theorem undeclaredCall?_of_node (hr : p.routines.get? routine = some r) {id : NodeId} {n : Node}
    (hn : r.nodes.get? id = some n) :
    ((r.undeclared? p.scope n.payload).map fun used =>
        (⟨routine, some id, none, .unknownReference used⟩ : Finding)).bind (p.undeclaredCall? name) =
      if name ∉ p.routines.keys ∧ n.payload.callee? = some name then some (routine, id) else none := by
  have hcall := isCall_eq hr hn
  cases hcallee : n.payload.callee? with
  | none =>
    have hnone : ∀ used, p.undeclaredCall? name ⟨routine, some id, none, .unknownReference used⟩ = none := by
      intro used
      simp [undeclaredCall?, hcall, hcallee]
    cases r.undeclared? p.scope n.payload <;> simp [hnone]
  | some used =>
    have hknown : p.routines.contains used = true ↔ used ∈ p.routines.keys := p.routines.contains_iff used
    have hfound : p.undeclaredCall? name ⟨routine, some id, none, .unknownReference used⟩ =
        if used = name then some (routine, id) else none := by
      simp [undeclaredCall?, Option.filter_some, hcall, hcallee]
    rw [Payload.callee?_eq_some.mp hcallee]
    simp only [Routine.undeclared?, scope, Option.bind_some, hknown]
    split
    · next hmem =>
      have hno : ¬ (name ∉ p.routines.keys ∧ some used = some name) := by
        rintro ⟨hout, hused⟩
        exact hout (Option.some.inj hused ▸ hmem)
      rw [if_neg hno]
      rfl
    · next hout =>
      rw [Option.map_some, Option.bind_some, hfound]
      by_cases hused : used = name
      · subst hused
        rw [if_pos rfl, if_pos ⟨hout, rfl⟩]
      · rw [if_neg hused, if_neg fun h => hused (Option.some.inj h.2)]

/-- Routines without a call of the name are left out of the list and add nothing. -/
theorem flatMap_callersOf (p : Project) (name : String) :
    ((p.callersOf name).flatMap fun c => c.2.map fun id => (c.1, id)) =
      p.routines.entries.flatMap fun e => (e.2.callSites name).map fun id => (e.1, id) := by
  rw [callersOf]
  induction p.routines.entries with
  | nil => rfl
  | cons e es ih =>
    rw [List.map_cons, List.filter_cons, List.flatMap_cons, ← ih]
    cases hsites : e.2.callSites name <;> simp

theorem undeclaredCalls_of_entry (hr : (routine, r) ∈ p.routines.entries) :
    (r.report p.scope routine).findings.filterMap (p.undeclaredCall? name) =
      if name ∈ p.routines.keys then [] else (r.callSites name).map fun id => (routine, id) := by
  have hr := mem_entries_iff.mp hr
  have hpick : ∀ f, (∀ used, f.fault ≠ .unknownReference used) → p.undeclaredCall? name f = none :=
    fun f hf => if_neg (hf name)
  rw [r.filterMap_report p.scope routine hpick, Routine.referenceFindings, List.filterMap_filterMap,
    r.callSites_map]
  have hnode : ∀ e ∈ r.nodes.entries,
      ((r.undeclared? p.scope e.2.payload).map fun used =>
          (⟨routine, some e.1, none, .unknownReference used⟩ : Finding)).bind (p.undeclaredCall? name) =
        if name ∉ p.routines.keys ∧ e.2.payload.callee? = some name then some (routine, e.1) else none :=
    fun e he => undeclaredCall?_of_node hr (r.nodes.mem_entries_iff.mp he)
  rw [List.filterMap_congr hnode]
  split
  · next hmem => simp [hmem]
  · next hout => simp [hout]

/-- As long as a name is declared no call of it is found, and otherwise all its call sites are. -/
theorem undeclaredCalls_eq (p : Project) (name : String) :
    p.undeclaredCalls name =
      if name ∈ p.routines.keys then []
      else (p.callersOf name).flatMap fun c => c.2.map fun id => (c.1, id) := by
  have hentries : p.undeclaredCalls name = p.routines.entries.flatMap fun e =>
      if name ∈ p.routines.keys then [] else (e.2.callSites name).map fun id => (e.1, id) := by
    rw [undeclaredCalls, Report.ofRoutines, List.filterMap_flatMap]
    exact List.flatMap_congr fun e he => undeclaredCalls_of_entry he
  rw [hentries, flatMap_callersOf]
  split
  · simp
  · rfl

/-- A routine that is not reserved is given back when it is deleted, and the others stay as they are. The
calls of it that are then reported as undeclared are those that are listed for its name, routine by
routine in order. Before, none was. -/
theorem deleteRoutine_exact (hfree : isReserved name = false) (hr : p.routines.get? name = some r) :
    ∃ q, p.deleteRoutine name = .ok (q, r) ∧ q.name = p.name ∧
      q.routines.entries = p.routines.entries.filter (·.1 ≠ name) ∧
      q.undeclaredCalls name = ((q.callersOf name).flatMap fun c => c.2.map fun id => (c.1, id)) ∧
      p.undeclaredCalls name = [] := by
  have hroutine : p.routine name = .ok r := by rw [routine, hr]
  have hdeclared : name ∈ p.routines.keys := (p.routines.contains_iff name).mp (Option.isSome_of_eq_some hr)
  have hgone : name ∉ (p.routines.erase name).keys := by simp [Table.keys_erase]
  refine ⟨{ p with routines := p.routines.erase name }, ?_, rfl, rfl, ?_, ?_⟩
  · simp only [deleteRoutine, hfree, hroutine]
    rfl
  · rw [undeclaredCalls_eq, if_neg hgone]
  · rw [undeclaredCalls_eq, if_pos hdeclared]

/-- A process that calls itself and is called twice from a routine, which also uses its name for an
argument that it does not have. -/
def echoing : Project :=
  let calling (id : NodeId) : NodeId × Node := (id, .ofPayload "Process" (.process "echo"))
  { name := "P"
    routines := .ofList
      [("F", { Routine.fresh false with
          nodes := .ofList [(0, .start), calling 2, (3, .ofPayload "Argument" (.argument "echo")), calling 5] }),
       ("echo", { Routine.fresh true with nodes := .ofList [(0, .start), calling 4] }),
       ("G", { Routine.fresh false with nodes := .ofList [(0, .start), calling 1] })] }

/-- The call of the process by itself goes with it, and the argument is no call. -/
theorem deleteRoutine_exact_echoing :
    ∃ r q, isReserved "echo" = false ∧ echoing.routines.get? "echo" = some r ∧
      echoing.deleteRoutine "echo" = .ok (q, r) ∧ q.routines.keys = ["F", "G"] ∧
      q.undeclaredCalls "echo" = [("F", 2), ("F", 5), ("G", 1)] ∧ echoing.undeclaredCalls "echo" = [] := by
  obtain ⟨r, hr⟩ := Option.isSome_iff_exists.mp (by decide : (echoing.routines.get? "echo").isSome)
  obtain ⟨q, hq, -, hentries, hcalls, hbefore⟩ := deleteRoutine_exact (by decide) hr
  refine ⟨r, q, by decide, hr, hq, ?_, ?_, hbefore⟩
  · rw [Table.keys, hentries]
    decide
  · rw [hcalls, callersOf, hentries]
    decide

end Project

end FlowBasic
