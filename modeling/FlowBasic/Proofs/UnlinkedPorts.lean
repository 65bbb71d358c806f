import FlowBasic.Compile
import FlowBasic.Proofs.CarriedCalls
import FlowBasic.Proofs.SuppliedInputs

namespace FlowBasic

namespace Routine

/-- Only a jump and a branch have outputs that must be connected. -/
theorem mem_requiredOutputs {r : Routine} {scope : Scope} {p : Payload} {port : Nat}
    (h : port ∈ (r.layout scope p).requiredOutputs) : p = .jump ∨ ∃ b, p = .branch b ∧ port = 2 := by
  obtain ⟨spec, hspec, rfl⟩ := List.mem_map.mp h
  obtain ⟨hspec, hrequired⟩ := List.mem_filter.mp hspec
  cases p with
  | jump => exact .inl rfl
  | branch b =>
    rcases List.mem_pair.mp hspec with rfl | rfl
    · exact .inr ⟨b, rfl, rfl⟩
    · cases hrequired
  | start =>
    rcases List.mem_cons.mp hspec with rfl | hspec
    · cases hrequired
    · obtain ⟨i, t, _, rfl⟩ := Layout.mem_valuePorts.mp hspec
      cases hrequired
  | process name =>
    simp only [layout] at hspec
    split at hspec
    · rcases List.mem_pair.mp hspec with rfl | rfl <;> cases hrequired
    · obtain rfl := List.mem_singleton.mp hspec
      cases hrequired
  | ending e => cases e <;> exact absurd hspec List.not_mem_nil
  | call c =>
    rcases List.mem_append.mp hspec with hspec | hspec
    · split at hspec
      · obtain rfl := List.mem_singleton.mp hspec
        cases hrequired
      · exact absurd hspec List.not_mem_nil
    · obtain rfl := List.mem_singleton.mp hspec
      cases hrequired
  | _ =>
    obtain rfl := List.mem_singleton.mp hspec
    cases hrequired

theorem mem_unconnected {r : Routine} {scope : Scope} {id : NodeId} {p : Payload} {port : Nat} :
    port ∈ r.unconnected scope id p ↔
      (port ∈ (r.layout scope p).requiredInputs ∧ ∀ l ∈ r.links, l.enters id port = false) ∨
        (port ∈ (r.layout scope p).requiredOutputs ∧ ∀ l ∈ r.links, l.leaves id port = false) := by
  simp [unconnected]

/-- A missing connection is found at a node of the graph, on a port of it that has no link. -/
theorem exists_unconnected {r : Routine} {scope : Scope} {name : String} {f : Finding}
    (hf : f ∈ (r.report scope name).findings) (hfault : f.fault = .missingConnection) :
    ∃ id n port, r.nodes.get? id = some n ∧ port ∈ r.unconnected scope id n.payload ∧
      f = ⟨name, some id, some port, .missingConnection⟩ := by
  have hconnection : f ∈ r.connectionFindings scope name := by
    simp only [report, List.mem_append, or_assoc] at hf
    rcases hf with h | h | h | h | h | h
    · simp [fault_of_mem_endpointFindings h] at hfault
    · simp [fault_of_mem_conflictFindings h] at hfault
    · obtain ⟨reason, hreason⟩ := fault_of_mem_linkFindings h
      simp [hreason] at hfault
    · obtain ⟨used, hused⟩ := fault_of_mem_referenceFindings h
      simp [hused] at hfault
    · exact h
    · simp [fault_of_mem_cycleFindings h] at hfault
  rw [connectionFindings] at hconnection
  split at hconnection
  · rw [List.mem_singleton.mp hconnection] at hfault
    cases hfault
  · obtain ⟨⟨id, n⟩, hnode, hconnection⟩ := List.mem_flatMap.mp hconnection
    obtain ⟨port, hport, rfl⟩ := List.mem_map.mp hconnection
    have hn := r.nodes.mem_entries_iff.mp (List.mem_of_mem_filter hnode)
    exact ⟨id, n, port, hn, hport, rfl⟩

end Routine

namespace Site

theorem input?_eq_none {s : Site} {port : Nat}
    (h : ∀ l ∈ s.routine.links, l.enters s.id port = false) : s.input? port = none := by
  have hfind : s.routine.links.find? (·.enters s.id port) = none := by
    apply List.find?_eq_none.mpr
    intro l hl
    simp [h l hl]
  rw [input?, hfind, Option.bind_none]

theorem flowTarget?_eq_none {s : Site} {port : Nat}
    (h : ∀ l ∈ s.routine.links, l.leaves s.id port = false) : s.flowTarget? port = none := by
  rw [flowTarget?, Option.map_eq_none_iff, List.find?_eq_none]
  intro l hl hgoes
  simp only [outgoing, List.mem_filter, decide_eq_true_eq] at hl
  simp only [Bool.and_eq_true, decide_eq_true_eq] at hgoes
  have hleaves := h l hl.1
  simp [Link.leaves, hl.2, hgoes.2] at hleaves

/-- A required port without a link is missed when the node is written. A branch with no way to take
misses its way and does not come to read its condition. -/
theorem mem_missing_of_unconnected {s : Site} {p : Payload} {port : Nat}
    (h : port ∈ s.routine.unconnected s.scope s.id p) (hp : p ≠ .jump) :
    port ∈ (s.synthesize p).missing ∨ (∃ b, p = .branch b) ∧ 2 ∈ (s.synthesize p).missing := by
  by_cases hbranch : ∀ b, p = .branch b → s.flowTarget? 2 ≠ none
  · left
    rcases Routine.mem_unconnected.mp h with ⟨hrequired, hfree⟩ | ⟨hrequired, hfree⟩
    · rw [s.missing_synthesize s.routine hbranch, lacking, List.mem_filter]
      exact ⟨hrequired, by rw [input?_eq_none hfree]; rfl⟩
    · obtain rfl | ⟨b, rfl, rfl⟩ := Routine.mem_requiredOutputs hrequired
      · exact absurd rfl hp
      · exact absurd (flowTarget?_eq_none hfree) (hbranch b rfl)
  · push Not at hbranch
    obtain ⟨b, rfl, hnone⟩ := hbranch
    exact .inr ⟨⟨b, rfl⟩, by simp [synthesize, branch, hnone]⟩

theorem missing_jump (s : Site) : (s.synthesize .jump).missing = [] := by
  rw [synthesize, jump]
  split <;> rfl

/-- A jump is written when control leaves the node by any port. -/
theorem statements_jump_eq_nil_iff (s : Site) :
    (s.synthesize .jump).statements = [] ↔
      ∀ l ∈ s.routine.links, l.source.node = s.id → l.isFlow = false := by
  have hnone : s.outgoing.find? Link.isFlow = none ↔
      ∀ l ∈ s.routine.links, l.source.node = s.id → l.isFlow = false := by
    simp [List.find?_eq_none, outgoing]
  rw [← hnone, synthesize, jump]
  split
  · next hsome => simp [hsome]
  · next hnone => simp [hnone]

end Site

namespace Routine

/-- The inputs told as missing at a node are those that are missed at its site. -/
theorem mem_missingConnection_siteAt_iff {r : Routine} {scope : Scope} {id : NodeId} {n : Node}
    (hn : r.nodes.get? id = some n) (firstLine : Nat) (name : String) (port : Nat) :
    .missingConnection id port ∈ (r.generate scope firstLine name).diagnostics ↔
      port ∈ ((r.siteAt scope id).synthesize n.payload).missing := by
  rw [mem_missingConnection_iff]
  constructor
  · rintro ⟨c, hc, rfl, hport⟩
    exact eq_of_mem_contributions hc hn ▸ hport
  · intro hport
    exact ⟨_, mem_contributions hn, rfl, hport⟩

/-- A node at which the report finds a missing connection is told of in the diagnostics exactly when it
is not a jump. What is told is the port that was found, or the way that a branch does not have. A jump is
written without a word as long as control leaves it by some port, and left out otherwise. -/
theorem missingConnection_told_iff {r : Routine} {scope : Scope} {name : String} {f : Finding}
    {id : NodeId} (hf : f ∈ (r.report scope name).findings) (hfault : f.fault = .missingConnection)
    (hnode : f.node = some id) (firstLine : Nat) :
    ∃ n port, r.nodes.get? id = some n ∧ f.port = some port ∧
      let told := fun p =>
        Diagnostic.missingConnection id p ∈ (r.generate scope firstLine name).diagnostics
      ((∃ p, told p) ↔ n.payload ≠ .jump) ∧
      (n.payload ≠ .jump → told port ∨ (∃ b, n.payload = .branch b) ∧ told 2) ∧
      (n.payload = .jump →
        ((r.draft scope firstLine name).listing.statementsOf id = [] ↔
          ∀ l ∈ r.links, l.source.node = id → l.isFlow = false)) := by
  obtain ⟨found, n, port, hn, hport, rfl⟩ := exists_unconnected hf hfault
  obtain rfl : found = id := Option.some.inj hnode
  have hmissed : n.payload ≠ .jump →
      port ∈ ((r.siteAt scope found).synthesize n.payload).missing ∨
        (∃ b, n.payload = .branch b) ∧ 2 ∈ ((r.siteAt scope found).synthesize n.payload).missing :=
    Site.mem_missing_of_unconnected (s := r.siteAt scope found) hport
  refine ⟨n, port, hn, rfl, ?_⟩
  simp only [mem_missingConnection_siteAt_iff hn, statementsOf_eq hn]
  refine ⟨⟨?_, ?_⟩, hmissed, ?_⟩
  · rintro ⟨p, hp⟩ hjump
    rw [hjump, Site.missing_jump] at hp
    exact List.not_mem_nil hp
  · intro hjump
    rcases hmissed hjump with htold | ⟨-, htold⟩
    · exact ⟨port, htold⟩
    · exact ⟨2, htold⟩
  · intro hjump
    rw [hjump]
    exact (r.siteAt scope found).statements_jump_eq_nil_iff

/-- Half a drawing: an assignment without a value, a branch without a condition and without a way to
take, and a jump that leads nowhere. -/
def halfDrawn : Routine :=
  { isProcess := false
    args := .empty
    vars := .ofList [("x", .uint64)]
    returns := .uint64
    nodes := .ofList
      [(0, .start), (1, .ofPayload "Let" (.assign "x" (.uint64 none))),
       (2, .ofPayload "If" (.branch .ifThen)), (3, .ofPayload "Goto" .jump)]
    links :=
      [⟨⟨0, 0⟩, ⟨1, 0⟩, .flow⟩, ⟨⟨1, 1⟩, ⟨2, 0⟩, .flow⟩, ⟨⟨2, 3⟩, ⟨3, 0⟩, .flow⟩] }

/-- The branch lacks two ports, and the diagnostics tell of it. -/
theorem missingConnection_told_halfDrawn :
    let r := halfDrawn
    let f : Finding := ⟨"F", some 2, some 1, .missingConnection⟩
    f ∈ (r.report none "F").findings ∧ r.nodes.get? 2 = some (.ofPayload "If" (.branch .ifThen)) ∧
      ∃ port, .missingConnection 2 port ∈ (r.generate none 1 "F").diagnostics := by
  have hfound : ⟨"F", some 2, some 1, .missingConnection⟩ ∈ (halfDrawn.report none "F").findings := by
    decide
  obtain ⟨n, port, hn, -, htold, -⟩ := missingConnection_told_iff hfound rfl rfl 1
  obtain rfl : Node.ofPayload "If" (.branch .ifThen) = n := Option.some.inj hn
  exact ⟨hfound, hn, htold.mpr (by decide)⟩

/-- The report finds the jump without a target; a lenient compilation leaves it out and tells nothing. -/
theorem lostJump_untold :
    let r : Routine :=
      { fresh false with
        nodes := .ofList
          [(0, .start), (1, .ofPayload "End" (.returnLiteral (.number 0))), (2, .ofPayload "Goto" .jump)]
        links := [⟨⟨0, 0⟩, ⟨2, 0⟩, .flow⟩] }
    (r.report none "F").findings = [⟨"F", some 2, some 1, .missingConnection⟩] ∧
      compileRoutine .lenient "F" r =
        .ok ⟨"F", "Function F() Uint64\n1\tRETURN 0\nEnd Function", []⟩ := by
  decide +kernel

end Routine

end FlowBasic
