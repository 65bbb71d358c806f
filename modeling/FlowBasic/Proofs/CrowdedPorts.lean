import FlowBasic.Proofs.Validity
import Mathlib.Data.Finset.Card

namespace FlowBasic

/-- The ports that stand in a list more than once. -/
def crowded (ports : List Endpoint) : Finset Endpoint :=
  ports.toFinset.filter fun e => 2 ≤ ports.count e

theorem mem_crowded {ports : List Endpoint} {e : Endpoint} : e ∈ crowded ports ↔ 2 ≤ ports.count e := by
  rw [crowded, Finset.mem_filter, List.mem_toFinset]
  refine and_iff_right_of_imp fun h => ?_
  exact List.count_pos_iff.mp (by omega)

/-- The ports that the links of one kind have for themselves, one for each link. -/
def Link.claims (flow : Bool) (ls : List Link) : List Endpoint :=
  (ls.filter (·.isFlow = flow)).map exclusive

theorem Link.claims_true (ls : List Link) : claims true ls = (ls.filter isFlow).map source := by
  rw [claims]
  have hfilter : ls.filter (·.isFlow = true) = ls.filter isFlow := by simp
  rw [hfilter]
  apply List.map_congr_left
  intro l hl
  rw [exclusive, if_pos (List.mem_filter.mp hl).2]

theorem Link.claims_false (ls : List Link) :
    claims false ls = (ls.filter fun l => !l.isFlow).map sink := by
  rw [claims]
  have hfilter : ls.filter (·.isFlow = false) = ls.filter fun l => !l.isFlow := by simp
  rw [hfilter]
  apply List.map_congr_left
  intro l hl
  have hvalue : l.isFlow = false := by simpa using (List.mem_filter.mp hl).2
  rw [exclusive, if_neg (by simp [hvalue])]

/-- Whether a link is of the kind and has the port for itself, as a number. -/
def Link.claim (l : Link) (flow : Bool) (e : Endpoint) : Nat :=
  if l.isFlow = flow ∧ l.exclusive = e then 1 else 0

theorem Link.count_claims_cons (flow : Bool) (l : Link) (ls : List Link) (e : Endpoint) :
    (claims flow (l :: ls)).count e = (claims flow ls).count e + l.claim flow e := by
  by_cases hkind : l.isFlow = flow
  · simp [claims, claim, hkind, List.count_cons]
  · simp [claims, claim, hkind]

namespace Occupied

/-- The ports that earlier links of one kind have taken. -/
def taken (o : Occupied) (flow : Bool) : List Endpoint := if flow then o.flowSources else o.valueSinks

theorem holds_iff (o : Occupied) (l : Link) : o.holds l = true ↔ l.exclusive ∈ o.taken l.isFlow := by
  cases hflow : l.isFlow <;> simp [holds, taken, Link.exclusive, hflow]

theorem count_taken_add (o : Occupied) (l : Link) (flow : Bool) (e : Endpoint) :
    ((o.add l).taken flow).count e = (o.taken flow).count e + l.claim flow e := by
  cases hl : l.isFlow <;> cases flow <;>
    simp [add, taken, Link.claim, Link.exclusive, hl, List.count_cons]

theorem reported_add (o : Occupied) (l : Link) : (o.add l).reported = o.reported := by
  rw [add]
  split <;> rfl

/-- A link of the kind comes to the port, which it or an earlier one finds taken. -/
def Crowds (o : Occupied) (ls : List Link) (flow : Bool) (e : Endpoint) : Prop :=
  1 ≤ (Link.claims flow ls).count e ∧ 2 ≤ (o.taken flow).count e + (Link.claims flow ls).count e

/-- One link more makes a difference only at its own port, and there only if the port is taken. -/
theorem crowds_cons_iff {o : Occupied} {l : Link} {ls : List Link} {flow : Bool} {e : Endpoint}
    (h : l.exclusive = e → o.holds l = false) :
    o.Crowds (l :: ls) flow e ↔ (o.add l).Crowds ls flow e := by
  have hfree : l.claim flow e = 1 → (o.taken flow).count e = 0 := by
    intro hclaim
    have hown : l.isFlow = flow ∧ l.exclusive = e := by
      by_contra hother
      simp [Link.claim, hother] at hclaim
    have hout : ¬ l.exclusive ∈ o.taken l.isFlow := by
      rw [← holds_iff, h hown.2]
      simp
    rw [← hown.1, ← hown.2]
    exact List.count_eq_zero.mpr hout
  have hclaim : l.claim flow e = 0 ∨ l.claim flow e = 1 := by
    rw [Link.claim]
    split <;> simp
  rw [Crowds, Crowds, Link.count_claims_cons, count_taken_add]
  rcases hclaim with hzero | hone
  · omega
  · have hcount := hfree hone
    omega

theorem crowds_of_holds {o : Occupied} {l : Link} (h : o.holds l = true) (ls : List Link) :
    o.Crowds (l :: ls) l.isFlow l.exclusive := by
  have hclaim : l.claim l.isFlow l.exclusive = 1 := if_pos ⟨rfl, rfl⟩
  have hcount := List.count_pos_iff.mpr ((o.holds_iff l).mp h)
  rw [Crowds, Link.count_claims_cons, hclaim]
  omega

/-- What is found is what the links crowd, less what has been reported before. -/
theorem mem_conflicts {o : Occupied} {ls : List Link} {e : Endpoint} :
    e ∈ o.conflicts ls ↔ e ∉ o.reported ∧ ∃ flow, o.Crowds ls flow e := by
  induction ls generalizing o with
  | nil => simp [conflicts, Crowds, Link.claims]
  | cons l ls ih =>
    rw [conflicts]
    split
    · next hfound =>
      simp only [Bool.and_eq_true, Bool.not_eq_true', List.contains_eq_mem,
        decide_eq_false_iff_not] at hfound
      obtain ⟨hholds, hnew⟩ := hfound
      rw [List.mem_cons, ih]
      by_cases he : e = l.exclusive
      · subst he
        exact iff_of_true (.inl rfl) ⟨hnew, l.isFlow, crowds_of_holds hholds ls⟩
      · have hother : l.exclusive = e → o.holds l = false := fun heq => absurd heq.symm he
        simp only [he, false_or, List.mem_cons, crowds_cons_iff hother]
        exact Iff.rfl
    · next hquiet =>
      rw [ih, reported_add]
      refine and_congr_right fun hnew => exists_congr fun flow => ?_
      refine (crowds_cons_iff fun heq => ?_).symm
      subst heq
      simpa [hnew] using hquiet

/-- No port is found twice. -/
theorem nodup_conflicts (o : Occupied) (ls : List Link) : (o.conflicts ls).Nodup := by
  induction ls generalizing o with
  | nil => exact List.nodup_nil
  | cons l ls ih =>
    rw [conflicts]
    split
    · refine List.nodup_cons.mpr ⟨fun hagain => ?_, ih _⟩
      exact (mem_conflicts.mp hagain).1 List.mem_cons_self
    · exact ih _

/-- With nothing taken yet, a port is found when two links of one kind claim it. -/
theorem mem_conflicts_empty {ls : List Link} {e : Endpoint} :
    e ∈ conflicts ⟨[], [], []⟩ ls ↔
      e ∈ crowded ((ls.filter Link.isFlow).map Link.source) ∨
        e ∈ crowded ((ls.filter fun l => !l.isFlow).map Link.sink) := by
  have hcrowds : ∀ flow, Crowds ⟨[], [], []⟩ ls flow e ↔ e ∈ crowded (Link.claims flow ls) := by
    intro flow
    have hnone : taken ⟨[], [], []⟩ flow = [] := by cases flow <;> rfl
    rw [mem_crowded, Crowds, hnone, List.count_nil]
    omega
  rw [mem_conflicts, ← Link.claims_true, ← Link.claims_false]
  simp only [List.not_mem_nil, not_false_eq_true, true_and, Bool.exists_bool, hcrowds]
  exact or_comm

end Occupied

/-- The findings of a report on links that want the same port. -/
def Report.conflicts (report : Report) : List Finding :=
  report.findings.filter (·.fault = .conflictingLinks)

namespace Routine

/-- The outputs that more than one flow link leaves. -/
def crowdedOutputs (r : Routine) : Finset Endpoint :=
  crowded ((r.links.filter Link.isFlow).map Link.source)

/-- The inputs that more than one value link enters. -/
def crowdedInputs (r : Routine) : Finset Endpoint :=
  crowded ((r.links.filter fun l => !l.isFlow).map Link.sink)

theorem conflicts_report (r : Routine) (scope : Scope) (name : String) :
    (r.report scope name).conflicts = r.conflictFindings name := by
  have hnone : ∀ {fs : List Finding}, (∀ f ∈ fs, f.fault ≠ .conflictingLinks) →
      fs.filter (·.fault = .conflictingLinks) = [] := by
    intro fs hfs
    apply List.filter_eq_nil_iff.mpr
    intro f hf
    simpa using hfs f hf
  have hends : (r.endpointFindings name).filter (·.fault = .conflictingLinks) = [] := by
    refine hnone fun f hf => ?_
    simp [fault_of_mem_endpointFindings hf]
  have hall : (r.conflictFindings name).filter (·.fault = .conflictingLinks) =
      r.conflictFindings name := by
    apply List.filter_eq_self.mpr
    intro f hf
    simp [fault_of_mem_conflictFindings hf]
  have hlinks : (r.linkFindings scope name).filter (·.fault = .conflictingLinks) = [] := by
    refine hnone fun f hf => ?_
    obtain ⟨reason, hreason⟩ := fault_of_mem_linkFindings hf
    simp [hreason]
  have hreferences : (r.referenceFindings scope name).filter (·.fault = .conflictingLinks) = [] := by
    refine hnone fun f hf => ?_
    obtain ⟨used, hused⟩ := fault_of_mem_referenceFindings hf
    simp [hused]
  have hconnections : (r.connectionFindings scope name).filter (·.fault = .conflictingLinks) = [] := by
    refine hnone fun f hf => ?_
    rw [fault_of_mem_connectionFindings hf]
    split <;> simp
  have hcycles : (r.cycleFindings name).filter (·.fault = .conflictingLinks) = [] := by
    refine hnone fun f hf => ?_
    simp [fault_of_mem_cycleFindings hf]
  simp only [Report.conflicts, report, List.filter_append, hends, hall, hlinks, hreferences, hconnections,
    hcycles, List.nil_append, List.append_nil]

theorem onPort_injective (name : String) (fault : Fault) :
    Function.Injective fun e => Finding.onPort name e fault := by
  intro a b h
  simp only [Finding.onPort, Finding.mk.injEq, Option.some.injEq, true_and, and_true] at h
  obtain ⟨hnode, hport⟩ := h
  cases a
  cases b
  simp_all [UInt32.toNat_inj]

/-- The crowded ports are told by node and number, each pair once. -/
theorem mem_conflictFindings {r : Routine} {name : String} {f : Finding} :
    f ∈ r.conflictFindings name ↔
      ∃ e ∈ r.crowdedOutputs ∪ r.crowdedInputs, f = .onPort name e .conflictingLinks := by
  simp only [conflictFindings, List.mem_map, Occupied.mem_conflicts_empty, Finset.mem_union,
    crowdedOutputs, crowdedInputs, eq_comm]

theorem nodup_conflictFindings (r : Routine) (name : String) : (r.conflictFindings name).Nodup :=
  (Occupied.nodup_conflicts _ _).map (onPort_injective name .conflictingLinks)

theorem length_conflictFindings (r : Routine) (name : String) :
    (r.conflictFindings name).length = (r.crowdedOutputs ∪ r.crowdedInputs).card := by
  have hports : (Occupied.conflicts ⟨[], [], []⟩ r.links).toFinset =
      r.crowdedOutputs ∪ r.crowdedInputs := by
    ext e
    rw [List.mem_toFinset, Occupied.mem_conflicts_empty, Finset.mem_union]
    exact Iff.rfl
  rw [← hports, List.toFinset_card_of_nodup (Occupied.nodup_conflicts _ _), conflictFindings,
    List.length_map]

/-- The report has one finding for each pair of a node and a port number where a port is crowded. These
are as many as the crowded ports exactly when no output and input of one node are crowded that have the
same number. -/
theorem conflicts_counted_iff (r : Routine) (scope : Scope) (name : String) :
    let found := (r.report scope name).conflicts
    found.Nodup ∧
    (∀ f, f ∈ found ↔
      ∃ e, (e ∈ r.crowdedOutputs ∨ e ∈ r.crowdedInputs) ∧ f = .onPort name e .conflictingLinks) ∧
    found.length + (r.crowdedOutputs ∩ r.crowdedInputs).card =
      r.crowdedOutputs.card + r.crowdedInputs.card ∧
    (found.length = r.crowdedOutputs.card + r.crowdedInputs.card ↔
      ∀ e ∈ r.crowdedOutputs, e ∉ r.crowdedInputs) := by
  intro found
  have hfound : found = r.conflictFindings name := r.conflicts_report scope name
  have hlength : found.length + (r.crowdedOutputs ∩ r.crowdedInputs).card =
      r.crowdedOutputs.card + r.crowdedInputs.card := by
    rw [hfound, length_conflictFindings]
    exact Finset.card_union_add_card_inter _ _
  refine ⟨hfound ▸ r.nodup_conflictFindings name, ?_, hlength, ?_⟩
  · intro f
    rw [hfound, mem_conflictFindings]
    simp only [Finset.mem_union]
  · have hempty : (r.crowdedOutputs ∩ r.crowdedInputs).card = 0 ↔
        ∀ e ∈ r.crowdedOutputs, e ∉ r.crowdedInputs := by
      rw [Finset.card_eq_zero, ← Finset.disjoint_iff_inter_eq_empty, Finset.disjoint_left]
    rw [← hempty]
    omega

/-- A process is called, with two ways out of its port 1 and two values into its port 1. -/
def calledAtOnce : Routine :=
  { isProcess := false
    args := .ofList [("a", .uint64), ("b", .uint64)]
    vars := .empty
    returns := .uint64
    nodes := .ofList
      [(0, .start), (1, .ofPayload "End" (.returnLiteral (.number 0))),
       (2, .ofPayload "Process" (.process "p")), (3, .ofPayload "End" (.ending .abort))]
    links :=
      [⟨⟨0, 0⟩, ⟨2, 0⟩, .flow⟩, ⟨⟨2, 1⟩, ⟨1, 0⟩, .flow⟩, ⟨⟨2, 1⟩, ⟨3, 0⟩, .flow⟩,
       ⟨⟨0, 1⟩, ⟨2, 1⟩, .value .uint64⟩, ⟨⟨0, 2⟩, ⟨2, 1⟩, .value .uint64⟩] }

/-- Every link fits its ports, an output and an input are crowded, and one finding tells of both. -/
theorem calledAtOnce_told_once :
    (∀ l ∈ calledAtOnce.links, calledAtOnce.checkLink none l = .ok ()) ∧
    calledAtOnce.crowdedOutputs = {⟨2, 1⟩} ∧ calledAtOnce.crowdedInputs = {⟨2, 1⟩} ∧
    (calledAtOnce.report none "F").conflicts = [⟨"F", some 2, some 1, .conflictingLinks⟩] := by
  refine ⟨?_, ?_, ?_, ?_⟩ <;> decide

end Routine

end FlowBasic
