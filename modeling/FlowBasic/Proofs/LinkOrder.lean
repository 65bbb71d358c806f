import FlowBasic.Proofs.CrowdedPorts
import FlowBasic.Proofs.Gating

namespace FlowBasic

theorem OnPath.mono {links links' : List Link} (h : links ⊆ links') {start id : NodeId}
    (hid : OnPath links start id) : OnPath links' start id := by
  induction hid with
  | start => exact .start
  | flow hl hflow _ ih => exact .flow (h hl) hflow ih

theorem Reached.mono {links links' : List Link} (h : links ⊆ links') {start id : NodeId}
    (hid : Reached links start id) : Reached links' start id := by
  induction hid with
  | control hon => exact .control (hon.mono h)
  | value hl hvalue _ ih => exact .value (h hl) hvalue ih

/-- The search comes to the same nodes, by whatever way. -/
theorem contains_reachable_of_perm {links links' : List Link} (h : links.Perm links')
    (start id : NodeId) : (reachable links start).contains id = (reachable links' start).contains id := by
  rw [Bool.eq_iff_iff, List.contains_iff_mem, List.contains_iff_mem, mem_reachable_iff, mem_reachable_iff]
  exact ⟨Reached.mono h.subset, Reached.mono h.symm.subset⟩

theorem crowded_of_perm {ports ports' : List Endpoint} (h : ports.Perm ports') :
    crowded ports = crowded ports' := by
  ext e
  rw [mem_crowded, mem_crowded, h.count_eq]

namespace Routine

/-- All findings are errors but those on cycles, which come last. -/
theorem errors_report (r : Routine) (scope : Scope) (name : String) :
    (r.report scope name).errors =
      r.endpointFindings name ++ r.conflictFindings name ++ r.linkFindings scope name ++
        r.referenceFindings scope name ++ r.connectionFindings scope name := by
  have hcycles : (r.cycleFindings name).filter Finding.isError = [] := by
    apply List.filter_eq_nil_iff.mpr
    intro f hf
    simp [isError_of_mem_cycleFindings hf]
  rw [Report.errors, report, List.filter_append, hcycles, List.append_nil]
  apply List.filter_eq_self.mpr
  intro f hf
  exact isError_of_mem hf

section Reordered

variable {r : Routine} {links : List Link}

theorem endpointFindings_perm (h : links.Perm r.links) (name : String) :
    (endpointFindings { r with links } name).Perm (r.endpointFindings name) := by
  have hdangling : (danglingLinks { r with links }).Perm r.danglingLinks := h.filter r.dangles
  exact hdangling.flatMap_right _

theorem conflictFindings_perm (h : links.Perm r.links) (name : String) :
    (conflictFindings { r with links } name).Perm (r.conflictFindings name) := by
  have houtputs : crowdedOutputs { r with links } = r.crowdedOutputs :=
    crowded_of_perm ((h.filter _).map _)
  have hinputs : crowdedInputs { r with links } = r.crowdedInputs :=
    crowded_of_perm ((h.filter _).map _)
  apply (List.perm_ext_iff_of_nodup (nodup_conflictFindings _ name) (nodup_conflictFindings _ name)).mpr
  intro f
  rw [mem_conflictFindings, mem_conflictFindings, houtputs, hinputs]

theorem linkFindings_perm (h : links.Perm r.links) (scope : Scope) (name : String) :
    (linkFindings { r with links } scope name).Perm (r.linkFindings scope name) :=
  (h.filter fun l => !r.dangles l).filterMap _

theorem unconnected_of_perm (h : links.Perm r.links) (scope : Scope) (id : NodeId) (p : Payload) :
    unconnected { r with links } scope id p = r.unconnected scope id p := by
  simp only [unconnected, h.any_eq]
  rfl

theorem connectionFindings_of_perm (h : links.Perm r.links) (scope : Scope) (name : String) :
    connectionFindings { r with links } scope name = r.connectionFindings scope name := by
  have hstart : start? { r with links } = r.start? := rfl
  simp only [connectionFindings, hstart, contains_reachable_of_perm h, unconnected_of_perm h]

end Reordered

/-- Links in another order give the same errors, each as often, and the same verdict. -/
theorem errors_of_reordered {r : Routine} {links : List Link} (h : links.Perm r.links) (scope : Scope)
    (name : String) :
    let reordered : Routine := { r with links }
    (reordered.report scope name).errors.Perm (r.report scope name).errors ∧
      (reordered.report scope name).valid = (r.report scope name).valid := by
  intro reordered
  have herrors : (reordered.report scope name).errors.Perm (r.report scope name).errors := by
    rw [errors_report, errors_report, connectionFindings_of_perm h]
    have hfirst := (endpointFindings_perm h name).append (conflictFindings_perm h name)
    have hlinks := hfirst.append (linkFindings_perm h scope name)
    exact (hlinks.append_right _).append_right _
  refine ⟨herrors, ?_⟩
  rw [Bool.eq_iff_iff, Report.valid_iff_errors, Report.valid_iff_errors]
  constructor
  · intro hnone
    exact (hnone ▸ herrors).symm.eq_nil
  · intro hnone
    exact (hnone ▸ herrors).eq_nil

/-- A process with two ways out and two values into one port, a link to a node that is not there, a
link between ports that do not fit, a result without a value, and a name that is not declared. -/
def tangled : Routine :=
  { calledAtOnce with
    nodes := .ofList
      [(0, .start), (1, .ofPayload "End" (.returnLinked .uint64)),
       (2, .ofPayload "Process" (.process "p")), (3, .ofPayload "Let" (.assign "x" (.uint64 (some 1))))]
    links := ⟨⟨0, 1⟩, ⟨1, 0⟩, .value .uint64⟩ :: ⟨⟨3, 1⟩, ⟨9, 0⟩, .flow⟩ :: ⟨⟨3, 1⟩, ⟨1, 0⟩, .flow⟩ ::
      calledAtOnce.links }

/-- With the links the other way round, its errors are told in another order. -/
theorem errors_of_reordered_tangled :
    let reversed : Routine := { tangled with links := tangled.links.reverse }
    (reversed.report none "F").errors ≠ (tangled.report none "F").errors ∧
      (reversed.report none "F").errors.Perm (tangled.report none "F").errors ∧
      (tangled.report none "F").errors.length = 6 ∧
      (reversed.report none "F").valid = (tangled.report none "F").valid := by
  intro reversed
  obtain ⟨herrors, hvalid⟩ := errors_of_reordered (List.reverse_perm tangled.links) none "F"
  exact ⟨by decide, herrors, by decide, hvalid⟩

end Routine

end FlowBasic
