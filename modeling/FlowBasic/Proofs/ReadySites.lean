import FlowBasic.Proofs.Ports
import FlowBasic.Proofs.Unfolding
import Mathlib.Data.List.Sort
import Mathlib.Tactic.Tauto

namespace FlowBasic

theorem Routine.WellFormed.feeder?_eq {r : Routine} {scope : Scope} (hw : r.WellFormed scope)
    {l : Link} (hl : l ∈ r.links) (hvalue : l.isFlow = false) :
    r.feeder? l.sink.node l.sink.port.toNat = some l.source := by
  have henters : l.enters l.sink.node l.sink.port.toNat = true := by simp [Link.enters]
  have hfind : (r.links.find? fun m => !m.isFlow && m.enters l.sink.node l.sink.port.toNat) =
      some l := by
    apply find?_eq_some_of_unique hl (by simp [hvalue, henters])
    intro m hm hfound
    simp only [Bool.and_eq_true, Bool.not_eq_true'] at hfound
    exact Link.eq_of_pairwise_ne hw.valueSinks hm hl hfound.1 hvalue
      (Link.sink_eq_of_enters hfound.2 henters)
  rw [feeder?, hfind]
  rfl

theorem lookup_of_forall_eq {outputs : Outputs} {port : Nat} {e : Expression}
    (hmem : port ∈ outputs.map Prod.fst) (hall : ∀ o ∈ outputs, o.2 = e) :
    outputs.lookup port = some e := by
  induction outputs with
  | nil => exact absurd hmem List.not_mem_nil
  | cons o outputs ih =>
    rw [Entries.lookup_cons]
    split
    · rw [hall o List.mem_cons_self]
    · next hne =>
      have hmem := (List.mem_cons.mp hmem).resolve_left hne
      exact ih hmem fun o ho => hall o (List.mem_cons_of_mem _ ho)

theorem Site.lookup_startOutputs (base i : Nat) (names : List String) :
    (startOutputs base names).lookup (base + i) = (names[i]?).map .atom := by
  induction names generalizing base i with
  | nil => rfl
  | cons name names ih =>
    rw [startOutputs, Entries.lookup_cons]
    cases i with
    | zero => simp
    | succ i =>
      have hrest := ih (base + 1) i
      rw [Nat.add_right_comm, Nat.add_assoc] at hrest
      simp [hrest]

namespace Site

theorem arguments_eq_mapIdx (s : Site) (base : Nat) (literals : List (Option Literal)) :
    s.arguments base literals = literals.mapIdx fun i literal => s.value literal (base + i) := by
  induction literals generalizing base with
  | nil => rfl
  | cons literal literals ih =>
    rw [arguments, ih, List.mapIdx_cons]
    simp only [Nat.add_zero, Nat.add_assoc, Nat.add_comm 1]

/-- The call that a process node stands for. -/
def processCall (s : Site) (name : String) : String :=
  callText name
    (if (s.scope.callee? name).isSome then
      s.arguments 2 (((s.scope.callee? name).map fun callee =>
        List.replicate callee.args.size none).getD [])
    else s.looseArguments)

theorem statements_process (s : Site) (name : String) :
    (s.process name).statements =
      if (s.outgoing.filter fun l => !l.isFlow).isEmpty then [[.text (s.processCall name)]] else [] := by
  simp only [process]
  split <;> rfl

/-- Everything that a process offers is its call. -/
theorem output_process {s : Site} {name : String} {o : Nat × Expression}
    (h : o ∈ (s.process name).outputs) : o.2 = .atom (s.processCall name) := by
  simp only [process] at h
  split at h
  · exact absurd h List.not_mem_nil
  · rcases List.mem_append.mp h with h | h
    · obtain ⟨callee, _, rfl⟩ := Option.map_eq_some_iff.mp (Option.mem_toList.mp h)
      rfl
    · obtain ⟨m, _, rfl⟩ := List.mem_map.mp h
      rfl

theorem isEmpty_readers (s : Site) :
    (s.outgoing.filter fun l => !l.isFlow).isEmpty =
      !s.routine.links.any fun l => !l.isFlow && l.source.node = s.id := by
  rw [Bool.eq_iff_iff, List.isEmpty_iff, List.filter_eq_nil_iff]
  simp only [outgoing, List.mem_filter, Bool.not_eq_true', List.any_eq_false]
  grind

/-- The result of a process is its call, on every port that is read. -/
theorem lookup_process (s : Site) (name : String) {l : Link} (hl : l ∈ s.outgoing)
    (hvalue : l.isFlow = false) :
    (s.process name).outputs.lookup l.source.port.toNat = some (.atom (s.processCall name)) := by
  have hread : l ∈ s.outgoing.filter fun l => !l.isFlow :=
    List.mem_filter.mpr ⟨hl, by simp [hvalue]⟩
  have hreaders : (s.outgoing.filter fun l => !l.isFlow).isEmpty = false := by
    cases hempty : s.outgoing.filter fun l => !l.isFlow with
    | nil => exact absurd (hempty ▸ hread) List.not_mem_nil
    | cons m ms => rfl
  apply lookup_of_forall_eq
  · simp only [process, hreaders, Bool.false_eq_true, if_false]
    exact List.mem_map.mpr ⟨_, List.mem_append_right _ (List.mem_map_of_mem hread), rfl⟩
  · intro o ho
    exact output_process ho

/-- The ports in order are the same whichever way the links are listed. -/
theorem sortedPorts_eq {s : Site} {r : Routine} (hlinks : s.routine.links.Perm r.links) :
    (s.incomingValues.mergeSort fun a b => a.sink.port ≤ b.sink.port).map (·.sink.port.toNat) =
      r.linkedPorts s.id := by
  have hperm : s.incomingValues.Perm (r.links.filter fun l => l.sink.node = s.id && !l.isFlow) :=
    hlinks.filter _
  rw [List.map_mergeSort (s := (· ≤ ·)) fun a _ b _ =>
    decide_eq_decide.mpr UInt32.le_iff_toNat_le]
  refine List.Perm.eq_of_sortedLE List.sortedLE_mergeSort List.sortedLE_mergeSort ?_
  exact (List.mergeSort_perm _ _).trans ((hperm.map _).trans (List.mergeSort_perm _ _).symm)

theorem mem_incomingValues {s : Site} {l : Link} :
    l ∈ s.incomingValues ↔ l ∈ s.routine.links ∧ l.sink.node = s.id ∧ l.isFlow = false := by
  simp [incomingValues]

end Site

/-- A node is about to be written, and the nodes whose values it reads have been. -/
structure Site.Ready (s : Site) (r : Routine) (h : r.ValueAcyclic) (p : Payload) : Prop where
  wellFormed : r.WellFormed s.scope
  args : s.routine.args = r.args
  links : s.routine.links.Perm r.links
  node : ∃ n, r.nodes.get? s.id = some n ∧ n.payload = p
  connected : r.Connected s.scope s.id p
  offered : ∀ l ∈ r.links, l.isFlow = false → l.sink.node = s.id →
    s.offers.get? l.source = some (r.expression s.scope h l.source)

namespace Site.Ready

variable {s : Site} {r : Routine} {h : r.ValueAcyclic} {p : Payload}

/-- What comes in by a link is the unfolded value at its source. -/
theorem offer_eq (hs : s.Ready r h p) {l : Link} (hl : l ∈ r.links) (hvalue : l.isFlow = false)
    (hsink : l.sink.node = s.id) :
    s.offers.get? l.source = some (r.inputExpression s.scope h s.id l.sink.port.toNat) := by
  have hfeeder := hs.wellFormed.feeder?_eq hl hvalue
  rw [hsink] at hfeeder
  rw [hs.offered l hl hvalue hsink, Routine.inputExpression, hfeeder]

theorem input?_eq (hs : s.Ready r h p) {port : Nat}
    (hport : port ∈ (r.layout s.scope p).requiredInputs) :
    s.input? port = some (r.inputExpression s.scope h s.id port) := by
  have hvalue : ∀ l ∈ r.links, l.enters s.id port = true → l.isFlow = false := by
    obtain ⟨n, hn, rfl⟩ := hs.node
    intro l hl henters
    exact hs.wellFormed.isFlow_of_enters hn hport hl henters
  obtain ⟨l, hl, hsink, rfl⟩ := hs.connected.1 port hport
  have henters : l.enters s.id l.sink.port.toNat = true := by simp [Link.enters, hsink]
  have hfind : s.routine.links.find? (·.enters s.id l.sink.port.toNat) = some l := by
    apply find?_eq_some_of_unique (hs.links.mem_iff.mpr hl) henters
    intro m hm hfound
    have hm := hs.links.mem_iff.mp hm
    exact Link.eq_of_pairwise_ne hs.wellFormed.valueSinks hm hl (hvalue m hm hfound)
      (hvalue l hl henters) (Link.sink_eq_of_enters hfound henters)
  rw [Site.input?, hfind, Option.bind_some, hs.offer_eq hl (hvalue l hl henters) hsink]

theorem value_eq (hs : s.Ready r h p) {literal : Option Literal} {port : Nat}
    (hport : literal = none → port ∈ (r.layout s.scope p).requiredInputs) :
    s.value literal port =
      Literal.orLinked literal (r.inputExpression s.scope h s.id port).text := by
  cases literal with
  | none => simp [Site.value, Literal.orLinked, hs.input?_eq (hport rfl)]
  | some v => rfl

theorem operand_eq (hs : s.Ready r h p) {literal : Option Literal} {port : Nat}
    (hport : literal = none → port ∈ (r.layout s.scope p).requiredInputs) :
    s.operand literal port =
      Literal.orLinked literal (r.inputExpression s.scope h s.id port).asOperand := by
  cases literal with
  | none => simp [Site.operand, Literal.orLinked, hs.input?_eq (hport rfl)]
  | some v => rfl

theorem arguments_eq (hs : s.Ready r h p) {literals : List (Option Literal)} {base : Nat}
    (hports : ∀ i, literals[i]? = some none → base + i ∈ (r.layout s.scope p).requiredInputs) :
    s.arguments base literals = literals.mapIdx fun i literal =>
      Literal.orLinked literal (r.inputExpression s.scope h s.id (base + i)).text := by
  rw [Site.arguments_eq_mapIdx, List.mapIdx_eq_mapIdx_iff]
  intro i hi
  apply hs.value_eq
  intro hnone
  exact hports i (by rw [List.getElem?_eq_getElem hi, hnone])

theorem looseArguments_eq (hs : s.Ready r h p) :
    s.looseArguments =
      (r.linkedPorts s.id).map fun port => (r.inputExpression s.scope h s.id port).text := by
  rw [← Site.sortedPorts_eq hs.links, List.map_map]
  apply List.map_congr_left
  intro l hl
  obtain ⟨hl, hsink, hvalue⟩ := Site.mem_incomingValues.mp (List.mem_mergeSort.mp hl)
  rw [hs.offer_eq (hs.links.mem_iff.mp hl) hvalue hsink]
  rfl

theorem output?_eq (hs : s.Ready r h p) {l : Link} (hl : l ∈ r.links)
    (hsource : l.source.node = s.id) :
    ∃ c, (r.layout s.scope p).output? l.source.port.toNat = some c ∧ c.isFlow = l.isFlow := by
  obtain ⟨n, hn, rfl⟩ := hs.node
  exact hs.wellFormed.output?_of_mem hl (hsource ▸ hn)

/-- Control goes one way by each port, whichever way the links are listed. -/
theorem find?_flow_eq (hs : s.Ready r h p) (port : Nat) {goes : Link → Bool}
    (hgoes : ∀ l ∈ r.links, goes l = true ↔ (l.isFlow && l.leaves s.id port) = true) :
    s.routine.links.find? goes = r.links.find? fun l => l.isFlow && l.leaves s.id port := by
  apply find?_eq_find?_of_unique
  · intro l
    rw [hs.links.mem_iff]
    exact and_congr_right (hgoes l)
  · intro a ha b hb hla hlb
    simp only [Bool.and_eq_true] at hla hlb
    exact Link.eq_of_pairwise_ne hs.wellFormed.flowSources ha hb hla.1 hlb.1
      (Link.source_eq_of_leaves hla.2 hlb.2)

theorem flowTarget?_eq (hs : s.Ready r h p) (port : Nat) :
    s.flowTarget? port = r.flowSink? s.id port := by
  rw [Site.flowTarget?, Site.outgoing, List.find?_filter, hs.find?_flow_eq port]
  · rfl
  · intro l _
    simp only [Link.leaves, Bool.and_eq_true, decide_eq_true_eq]
    tauto

theorem assignment_eq {name : String} {v : TypedSlot} (hs : s.Ready r h (.assign name v)) :
    (s.assignment name v).statements = r.written s.scope h s.id (.assign name v) := by
  have hport : v.literal? = none → 2 ∈ (r.layout s.scope (.assign name v)).requiredInputs :=
    r.required_assign s.scope name
  rw [Routine.written, ← hs.value_eq hport, Site.assignment]
  cases hv : v.literal? with
  | none => rw [hs.input?_eq (hport hv)]
  | some literal => rfl

theorem ending_eq {e : Ending} (hs : s.Ready r h (.ending e)) :
    (s.ending e).statements = r.written s.scope h s.id (.ending e) := by
  cases e with
  | abort => rfl
  | result t v =>
    have hport : v = none → 1 ∈ (r.layout s.scope (.ending (.result t v))).requiredInputs :=
      r.required_result s.scope t
    simp only [Routine.written, ← hs.value_eq hport, Site.ending, String.isEmpty_iff]

theorem branch_eq {b : Branch} (hs : s.Ready r h (.branch b)) :
    (s.branch b).statements = r.written s.scope h s.id (.branch b) := by
  have hcondition : s.value none 1 = (r.inputExpression s.scope h s.id 1).text :=
    hs.value_eq fun _ => r.required_branch s.scope b
  simp only [Routine.written, Site.branch, hs.flowTarget?_eq, hcondition]
  cases r.flowSink? s.id 2 <;> rfl

theorem jump_eq (hs : s.Ready r h .jump) :
    s.jump.statements = r.written s.scope h s.id .jump := by
  have hport : ∀ l ∈ r.links, l.source.node = s.id → l.source.port.toNat = 1 := by
    intro l hl hsource
    obtain ⟨c, hc, _⟩ := hs.output?_eq hl hsource
    obtain ⟨spec, hspec, hport, _⟩ := Layout.exists_of_output? rfl hc
    rw [← hport, List.mem_singleton.mp hspec]
    rfl
  have hfind : s.outgoing.find? Link.isFlow =
      r.links.find? fun l => l.isFlow && l.leaves s.id 1 := by
    rw [Site.outgoing, List.find?_filter]
    apply hs.find?_flow_eq 1
    intro l hl
    have := hport l hl
    simp only [Link.leaves, Bool.and_eq_true, decide_eq_true_eq]
    tauto
  simp only [Site.jump, hfind, Routine.written, Routine.flowSink?]
  cases r.links.find? fun l => l.isFlow && l.leaves s.id 1 <;> rfl

theorem callText_eq {c : Call} (hs : s.Ready r h (.call c)) :
    Site.callText c.builtin.name (s.arguments c.argBase (c.args.values.map TypedSlot.literal?)) =
      c.textWith (r.inputExpression s.scope h s.id) := by
  rw [hs.arguments_eq fun i => r.required_argument s.scope, Call.textWith]
  congr 1
  apply List.ext_getElem?
  intro i
  simp only [List.getElem?_mapIdx, List.getElem?_map, Option.map_map]
  rfl

theorem processText_eq {name : String} (hs : s.Ready r h (.process name)) :
    s.processCall name = r.processText s.scope s.id name (r.inputExpression s.scope h s.id) := by
  rw [Routine.processText, Site.processCall]
  congr 1
  cases hcallee : s.scope.callee? name with
  | none => exact hs.looseArguments_eq
  | some callee =>
    have hports : ∀ i, (List.replicate callee.args.size (none : Option Literal))[i]? = some none →
        2 + i ∈ (r.layout s.scope (.process name)).requiredInputs := by
      intro i hi
      obtain ⟨hlt, _⟩ := List.getElem?_eq_some_iff.mp hi
      exact r.required_parameter s.scope hcallee (by simpa using hlt)
    simp only [Option.isSome_some, if_true, Option.map_some, Option.getD_some]
    rw [hs.arguments_eq hports]
    apply List.ext_getElem?
    intro i
    by_cases hi : i < callee.args.size <;> simp [hi, Literal.orLinked]

theorem isEmpty_readers (hs : s.Ready r h p) :
    (s.outgoing.filter fun l => !l.isFlow).isEmpty =
      !r.links.any fun l => !l.isFlow && l.source.node = s.id := by
  rw [s.isEmpty_readers, hs.links.any_eq]

theorem process_eq {name : String} (hs : s.Ready r h (.process name)) :
    (s.process name).statements = r.written s.scope h s.id (.process name) := by
  rw [Site.statements_process, hs.processText_eq, hs.isEmpty_readers, Routine.written]
  cases r.links.any fun l => !l.isFlow && l.source.node = s.id <;> rfl

/-- A node that is ready writes the statements of the unfolded values. -/
theorem statements_eq (hs : s.Ready r h p) :
    (s.synthesize p).statements = r.written s.scope h s.id p := by
  cases p with
  | assign name v => exact hs.assignment_eq
  | ending e => exact hs.ending_eq
  | branch b => exact hs.branch_eq
  | jump => exact hs.jump_eq
  | call c => simp only [Site.synthesize, Site.call, Routine.written, hs.callText_eq]
  | process name => exact hs.process_eq
  | _ => rfl

theorem operationText_eq {o : Operation} (hs : s.Ready r h (.operation o)) (e : Endpoint) :
    s.operationText o =
      r.valueText s.scope e (r.inputExpression s.scope h s.id) (.operation o) := by
  rw [Site.operationText, Routine.valueText, hs.operand_eq (r.required_operation_left s.scope)]
  cases hunary : o.isUnary with
  | true => rfl
  | false => rw [hs.operand_eq (r.required_operation_right s.scope hunary)]

theorem conditionText_eq {c : Condition} (hs : s.Ready r h (.condition c)) (e : Endpoint) :
    s.conditionText c =
      r.valueText s.scope e (r.inputExpression s.scope h s.id) (.condition c) := by
  rw [Site.conditionText, Routine.valueText, hs.operand_eq (r.required_condition_left s.scope),
    hs.operand_eq (r.required_condition_right s.scope)]

theorem expression_eq (hs : s.Ready r h p) {e : Endpoint} (he : e.node = s.id) :
    r.expression s.scope h e =
      ⟨r.valueText s.scope e (r.inputExpression s.scope h s.id) p, p.isInfix⟩ := by
  obtain ⟨n, hn, rfl⟩ := hs.node
  rw [Routine.expression_eq s.scope h (he ▸ hn), he]

/-- A value leaves by a port that is listed for values. -/
theorem exists_valuePort (hs : s.Ready r h p) {l : Link} (hl : l ∈ r.links)
    (hvalue : l.isFlow = false) (hsource : l.source.node = s.id)
    (hany : (r.layout s.scope p).anyOutput = none) :
    ∃ spec ∈ (r.layout s.scope p).outputs, spec.port = l.source.port.toNat ∧
      spec.connector.isFlow = false := by
  obtain ⟨c, hc, hflow⟩ := hs.output?_eq hl hsource
  obtain ⟨spec, hspec, hport, rfl⟩ := Layout.exists_of_output? hany hc
  exact ⟨spec, hspec, hport, hflow.trans hvalue⟩

/-- A node that is ready offers the unfolded value wherever it is read. -/
theorem lookup_outputs (hs : s.Ready r h p) {l : Link} (hl : l ∈ r.links)
    (hvalue : l.isFlow = false) (hsource : l.source.node = s.id) :
    (s.synthesize p).outputs.lookup l.source.port.toNat =
      some (r.expression s.scope h l.source) := by
  have hout : l ∈ s.outgoing := List.mem_filter.mpr ⟨hs.links.mem_iff.mpr hl, by simp [hsource]⟩
  have hport := hs.exists_valuePort hl hvalue hsource
  rw [hs.expression_eq hsource]
  cases p with
  | start =>
    obtain ⟨spec, hspec, hport, hflow⟩ := hport rfl
    obtain ⟨i, hi, hspec⟩ := Routine.exists_argument_of_output hspec hflow
    simp only [Site.synthesize, hs.args, Routine.valueText, ← hport, hspec]
    rw [Nat.add_comm, Site.lookup_startOutputs, List.getElem?_eq_getElem hi]
    rfl
  | argument name =>
    obtain ⟨spec, hspec, hport, hflow⟩ := hport rfl
    rw [← hport, List.mem_singleton.mp hspec]
    rfl
  | fetch name =>
    apply lookup_of_forall_eq
    · exact List.mem_map.mpr ⟨_, List.mem_map_of_mem hout, rfl⟩
    · intro o ho
      obtain ⟨m, _, rfl⟩ := List.mem_map.mp ho
      rfl
  | operation o =>
    obtain ⟨spec, hspec, hport, hflow⟩ := hport rfl
    rw [← hport, List.mem_singleton.mp hspec, ← hs.operationText_eq]
    rfl
  | condition c =>
    obtain ⟨spec, hspec, hport, hflow⟩ := hport rfl
    rw [← hport, List.mem_singleton.mp hspec, ← hs.conditionText_eq]
    rfl
  | call c =>
    obtain ⟨spec, hspec, hport, hflow⟩ := hport rfl
    rw [← hport, Routine.port_of_call_output hspec hflow]
    simp only [Site.synthesize, Site.call, hs.callText_eq]
    exact List.lookup_cons_self
  | process name =>
    rw [Routine.valueText, hsource, ← hs.processText_eq]
    exact s.lookup_process name hout hvalue
  -- The other nodes have ports for control only, by which no value leaves.
  | assign name v => simp [Routine.layout, PortSpec.flow, Connector.isFlow] at hport
  | ending e => cases e <;> simp [Routine.layout] at hport
  | branch b => simp [Routine.layout, PortSpec.flow, PortSpec.needed, Connector.isFlow] at hport
  | jump => simp [Routine.layout, PortSpec.flow, PortSpec.needed, Connector.isFlow] at hport

end Site.Ready

end FlowBasic
