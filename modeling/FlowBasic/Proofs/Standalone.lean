import FlowBasic.Compile
import FlowBasic.Proofs.OnePass

namespace FlowBasic

namespace Connector

/-- The second connector is the first, or lets every value pass where the first lets some. -/
def Widens (c d : Connector) : Prop := d = c ∨ c.isFlow = false ∧ d = .value .any

theorem compatible_of_widens {a b c d : Connector} (h : a.compatible b = true) (ha : a.Widens c)
    (hb : b.Widens d) : c.compatible d = true := by
  cases a <;> cases b <;> rcases ha with rfl | ⟨ha, rfl⟩ <;> rcases hb with rfl | ⟨hb, rfl⟩ <;>
    simp_all [compatible, isFlow, ValueType.compatible]

end Connector

namespace Routine

section Alone

variable {r : Routine} {scope : Scope} {p : Payload} {port : Nat} {c : Connector}

/-- A call of a callee that is known takes its arguments at the ports from 2 on. -/
theorem port_of_process_input {name : String} {callee : Routine}
    (hcallee : scope.callee? name = some callee)
    (h : (r.layout scope (.process name)).input? port = some c) :
    port = 0 ∧ c = .flow ∨ (2 ≤ port ∧ port < 2 + callee.args.size) ∧ c.isFlow = false := by
  rw [layout, hcallee] at h
  obtain ⟨spec, hspec, hport, rfl⟩ := Layout.exists_of_input? rfl h
  rcases List.mem_cons.mp hspec with rfl | hspec
  · exact .inl ⟨hport.symm, rfl⟩
  · obtain ⟨_, hvalue, rfl⟩ := List.mem_map.mp hspec
    obtain ⟨i, t, ht, rfl⟩ := Layout.mem_valuePorts.mp hvalue
    obtain ⟨hlt, _⟩ := List.getElem?_eq_some_iff.mp ht
    have hlt : i < callee.args.size := by simpa [Table.values, Table.size] using hlt
    have hport : 2 + i = port := hport
    exact .inr ⟨by omega, rfl⟩

/-- A call of a callee that is not known has the ports of one that is. -/
theorem input?_alone (h : (r.layout scope p).input? port = some c) :
    ∃ d, (r.layout none p).input? port = some d ∧ c.Widens d := by
  cases p with
  | process name =>
    cases hcallee : scope.callee? name with
    | none =>
      rw [layout, hcallee] at h
      exact ⟨c, h, .inl rfl⟩
    | some callee =>
      rcases port_of_process_input hcallee h with ⟨rfl, rfl⟩ | ⟨⟨hlow, _⟩, hvalue⟩
      · exact ⟨.flow, rfl, .inl rfl⟩
      · refine ⟨.value .any, ?_, .inr ⟨hvalue, rfl⟩⟩
        have hne : ¬ 0 = port := by omega
        simp [layout, Scope.callee?, Layout.input?, PortSpec.flow, hne]
  | ending e => cases e <;> exact ⟨c, h, .inl rfl⟩
  | _ => exact ⟨c, h, .inl rfl⟩

theorem output?_alone (h : (r.layout scope p).output? port = some c) :
    ∃ d, (r.layout none p).output? port = some d ∧ c.Widens d := by
  cases p with
  | process name =>
    cases hcallee : scope.callee? name with
    | none =>
      rw [layout, hcallee] at h
      exact ⟨c, h, .inl rfl⟩
    | some callee =>
      rw [layout, hcallee] at h
      obtain ⟨spec, hspec, hport, rfl⟩ := Layout.exists_of_output? rfl h
      rcases List.mem_pair.mp hspec with rfl | rfl
      · obtain rfl : 1 = port := hport
        exact ⟨.flow, rfl, .inl rfl⟩
      · obtain rfl : 2 + callee.args.size = port := hport
        refine ⟨.value .any, ?_, .inr ⟨rfl, rfl⟩⟩
        have hne : ¬ 1 = 2 + callee.args.size := by omega
        simp [layout, Scope.callee?, Layout.output?, PortSpec.flow, hne]
  | ending e => cases e <;> exact ⟨c, h, .inl rfl⟩
  | _ => exact ⟨c, h, .inl rfl⟩

theorem checkLink_alone {l : Link} (h : r.checkLink scope l = .ok ()) :
    r.checkLink none l = .ok () := by
  obtain ⟨source, sink, output, input, hsource, hsink, houtput, hinput, hports, hout, hin⟩ :=
    checkLink_eq_ok_iff.mp h
  obtain ⟨output', houtput', hwide⟩ := output?_alone houtput
  obtain ⟨input', hinput', hwide'⟩ := input?_alone hinput
  exact checkLink_eq_ok_iff.mpr ⟨source, sink, output', input', hsource, hsink, houtput', hinput',
    Connector.compatible_of_widens hports hwide hwide',
    Connector.compatible_of_widens hout (.inl rfl) hwide,
    Connector.compatible_of_widens hin (.inl rfl) hwide'⟩

theorem connected_alone {id : NodeId} (h : r.Connected scope id p) : r.Connected none id p := by
  cases p with
  | process name => exact ⟨fun port hport => absurd hport List.not_mem_nil,
      fun port hport => absurd hport List.not_mem_nil⟩
  | ending e => cases e <;> exact h
  | _ => exact h

theorem declared_alone (h : r.Declared scope p) : r.Declared none p := by
  cases p with
  | process name => exact fun known hknown => nomatch hknown
  | _ => exact h

/-- What is well formed with the callees known is well formed without. -/
theorem WellFormed.alone (hw : r.WellFormed scope) : r.WellFormed none where
  start := hw.start
  ends := hw.ends
  flowSources := hw.flowSources
  valueSinks := hw.valueSinks
  fits := fun l hl => checkLink_alone (hw.fits l hl)
  declared := fun id n hn => declared_alone (hw.declared id n hn)
  connected := fun start hstart id n hreached hn =>
    connected_alone (hw.connected start hstart id n hreached hn)

end Alone

namespace WellFormed

variable {r : Routine} {scope : Scope}

/-- The value on an input port comes by the one link into it. -/
theorem find?_enters (hw : r.WellFormed scope) {l : Link} (hl : l ∈ r.links)
    (hvalue : l.isFlow = false) :
    r.links.find? (·.enters l.sink.node l.sink.port.toNat) = some l := by
  have henters : l.enters l.sink.node l.sink.port.toNat = true := by simp [Link.enters]
  apply find?_eq_some_of_unique hl henters
  intro m hm hfound
  have hsink := Link.sink_eq_of_enters hfound henters
  have hkind := isFlow_eq_of_sink (hw.fits l hl) (hw.fits m hm) hsink
  exact Link.eq_of_pairwise_ne hw.valueSinks hm hl (hkind.trans hvalue) hvalue hsink

/-- The values that come into a call are its arguments, one by one. -/
theorem linkedPorts_eq (hw : r.WellFormed scope) {id : NodeId} {n : Node}
    (hn : r.nodes.get? id = some n) {name : String} (hp : n.payload = .process name)
    {callee : Routine} (hcallee : scope.callee? name = some callee)
    (hconnected : r.Connected scope id (.process name)) :
    r.linkedPorts id = List.range' 2 callee.args.size := by
  let incoming := r.links.filter fun l => l.sink.node = id && !l.isFlow
  have hincoming : ∀ {l}, l ∈ incoming ↔ l ∈ r.links ∧ l.sink.node = id ∧ l.isFlow = false := by
    intro l
    simp [incoming]
  have hnodup : (incoming.map (·.sink.port.toNat)).Nodup := by
    refine List.pairwise_map.mpr ((hw.valueSinks.filter _).imp_of_mem ?_)
    intro a b ha hb hne hport
    obtain ⟨_, hsa, hva⟩ := hincoming.mp ha
    obtain ⟨_, hsb, hvb⟩ := hincoming.mp hb
    exact hne hva hvb (Endpoint.eq_of_toNat (hsa.trans hsb.symm) hport)
  have hmem : ∀ port, port ∈ incoming.map (·.sink.port.toNat) ↔ port ∈ List.range' 2 callee.args.size := by
    intro port
    rw [List.mem_map, List.mem_range'_1]
    constructor
    · intro h
      obtain ⟨l, hl, rfl⟩ := h
      obtain ⟨hl, hsink, hvalue⟩ := hincoming.mp hl
      obtain ⟨c, hc, hflow⟩ := hw.input?_of_mem hl (hsink ▸ hn)
      rw [hp] at hc
      rcases port_of_process_input hcallee hc with ⟨_, rfl⟩ | ⟨hrange, _⟩
      · exact absurd (hflow.trans hvalue) (by decide)
      · exact hrange
    · intro h
      have hrequired : port ∈ (r.layout scope (.process name)).requiredInputs := by
        have := r.required_parameter scope hcallee (i := port - 2) (by omega)
        rwa [Nat.add_sub_cancel' h.1] at this
      obtain ⟨l, hl, hsink, rfl⟩ := hconnected.1 port hrequired
      have henters : l.enters id l.sink.port.toNat = true := by simp [Link.enters, hsink]
      exact ⟨l, hincoming.mpr ⟨hl, hsink, hw.isFlow_of_enters hn (hp ▸ hrequired) hl henters⟩, rfl⟩
  refine List.Perm.eq_of_sortedLE List.sortedLE_mergeSort (List.sortedLE_range' _ _ _) ?_
  have hperm := (List.perm_ext_iff_of_nodup hnodup List.nodup_range').mpr hmem
  exact (List.mergeSort_perm _ _).trans hperm

end WellFormed

end Routine

/-- Two sites at the same node, with the same on offer wherever a value is linked. -/
structure Site.Alike (s t : Site) (p : Payload) : Prop where
  wellFormed : s.routine.WellFormed s.scope
  node : ∃ n, s.routine.nodes.get? s.id = some n ∧ n.payload = p
  id : t.id = s.id
  routine : t.routine = s.routine
  offered : ∀ l ∈ s.routine.links, l.isFlow = false → t.offers.get? l.source = s.offers.get? l.source

namespace Site.Alike

variable {s t : Site} {p : Payload}

theorem outgoing_eq (h : s.Alike t p) : t.outgoing = s.outgoing := by
  rw [outgoing, outgoing, h.id, h.routine]

theorem flowTarget?_eq (h : s.Alike t p) (port : Nat) : t.flowTarget? port = s.flowTarget? port := by
  rw [flowTarget?, flowTarget?, h.outgoing_eq]

theorem input?_eq (h : s.Alike t p) {port : Nat}
    (hport : port ∈ (s.routine.layout s.scope p).requiredInputs) : t.input? port = s.input? port := by
  rw [input?, input?, h.id, h.routine]
  cases hfind : s.routine.links.find? (·.enters s.id port) with
  | none => rfl
  | some l =>
    obtain ⟨n, hn, rfl⟩ := h.node
    have hl := List.mem_of_find?_eq_some hfind
    have henters := List.find?_some hfind
    exact h.offered l hl (h.wellFormed.isFlow_of_enters hn hport hl henters)

theorem value_eq (h : s.Alike t p) {literal : Option Literal} {port : Nat}
    (hport : literal = none → port ∈ (s.routine.layout s.scope p).requiredInputs) :
    t.value literal port = s.value literal port := by
  cases literal with
  | none => rw [value, value, h.input?_eq (hport rfl)]
  | some v => rfl

theorem operand_eq (h : s.Alike t p) {literal : Option Literal} {port : Nat}
    (hport : literal = none → port ∈ (s.routine.layout s.scope p).requiredInputs) :
    t.operand literal port = s.operand literal port := by
  cases literal with
  | none => rw [operand, operand, h.input?_eq (hport rfl)]
  | some v => rfl

theorem arguments_eq (h : s.Alike t p) {literals : List (Option Literal)} {base : Nat}
    (hports : ∀ i, literals[i]? = some none →
      base + i ∈ (s.routine.layout s.scope p).requiredInputs) :
    t.arguments base literals = s.arguments base literals := by
  rw [arguments_eq_mapIdx, arguments_eq_mapIdx, List.mapIdx_eq_mapIdx_iff]
  intro i hi
  apply h.value_eq
  intro hnone
  exact hports i (by rw [List.getElem?_eq_getElem hi, hnone])

theorem looseArguments_eq (h : s.Alike t p) : t.looseArguments = s.looseArguments := by
  have hincoming : t.incomingValues = s.incomingValues := by
    rw [incomingValues, incomingValues, h.id, h.routine]
  rw [looseArguments, looseArguments, hincoming]
  apply List.map_congr_left
  intro l hl
  obtain ⟨hl, _, hvalue⟩ := mem_incomingValues.mp (List.mem_mergeSort.mp hl)
  rw [h.offered l hl hvalue]

end Site.Alike

namespace Site

theorem arguments_unset (s : Site) (base count : Nat) :
    s.arguments base (List.replicate count none) =
      (List.range' base count).map fun port => (s.input? port).elim "" Expression.text := by
  induction count generalizing base with
  | zero => rfl
  | succ count ih =>
    rw [List.replicate_succ, arguments, ih, List.range'_succ, List.map_cons]
    rfl

theorem looseArguments_of_wellFormed {s : Site} {scope : Scope} (hw : s.routine.WellFormed scope) :
    s.looseArguments =
      (s.routine.linkedPorts s.id).map fun port => (s.input? port).elim "" Expression.text := by
  rw [← sortedPorts_eq (List.Perm.refl s.routine.links), List.map_map]
  apply List.map_congr_left
  intro l hl
  obtain ⟨hl, hsink, hvalue⟩ := mem_incomingValues.mp (List.mem_mergeSort.mp hl)
  have hfind := hw.find?_enters hl hvalue
  rw [hsink] at hfind
  simp only [Function.comp_apply, input?, hfind, Option.bind_some]

theorem outputs_assignment (s : Site) (name : String) (v : TypedSlot) :
    (s.assignment name v).outputs = [] := by
  rw [assignment]
  split <;> rfl

theorem outputs_branch (s : Site) (b : Branch) : (s.branch b).outputs = [] := by
  simp only [branch]
  split <;> rfl

theorem outputs_jump (s : Site) : s.jump.outputs = [] := by
  rw [jump]
  split <;> rfl

end Site

namespace Site.Alike

variable {s t : Site} {p : Payload}

/-- A call whose arguments are all there is the same whether its callee is known or not. -/
theorem processCall_eq {name : String} (h : s.Alike t (.process name)) (ht : t.scope = none)
    (hconnected : s.routine.Connected s.scope s.id (.process name)) :
    t.processCall name = s.processCall name := by
  have hloose : t.processCall name = callText name t.looseArguments := by
    rw [processCall, ht]
    rfl
  rw [hloose, h.looseArguments_eq, processCall]
  congr 1
  cases hcallee : s.scope.callee? name with
  | none => rfl
  | some callee =>
    obtain ⟨n, hn, hp⟩ := h.node
    rw [looseArguments_of_wellFormed h.wellFormed,
      h.wellFormed.linkedPorts_eq hn hp hcallee hconnected]
    exact (s.arguments_unset 2 callee.args.size).symm

/-- Where the arguments of its call are there, a node writes the same whether callees are known. -/
theorem statements_eq (h : s.Alike t p) (ht : t.scope = none)
    (hcall : p.callee? ≠ none → s.routine.Connected s.scope s.id p) :
    (t.synthesize p).statements = (s.synthesize p).statements := by
  cases p with
  | assign name v =>
    have hport : v.literal? = none → 2 ∈ (s.routine.layout s.scope (.assign name v)).requiredInputs :=
      s.routine.required_assign s.scope name
    simp only [synthesize, assignment]
    cases hv : v.literal? with
    | none => simp only [h.input?_eq (hport hv), h.value_eq fun _ => hport hv]
    | some literal => rfl
  | ending e =>
    cases e with
    | abort => rfl
    | result type v =>
      simp only [synthesize, ending, h.value_eq (s.routine.required_result s.scope type)]
  | branch b =>
    have hcondition : t.value none 1 = s.value none 1 :=
      h.value_eq fun _ => s.routine.required_branch s.scope b
    simp only [synthesize, branch, h.flowTarget?_eq, hcondition]
    split <;> rfl
  | jump => simp only [synthesize, jump, h.outgoing_eq]
  | call c =>
    simp only [synthesize, call, h.arguments_eq fun i => s.routine.required_argument s.scope]
  | process name =>
    simp only [synthesize, statements_process, h.outgoing_eq,
      h.processCall_eq ht (hcall (by simp [Payload.callee?]))]
  | _ => rfl

/-- And it offers the same wherever a value is read. -/
theorem lookup_eq (h : s.Alike t p) (ht : t.scope = none)
    (hcall : p.callee? ≠ none → s.routine.Connected s.scope s.id p) {l : Link}
    (hl : l ∈ s.routine.links) (hvalue : l.isFlow = false) (hsource : l.source.node = s.id) :
    (t.synthesize p).outputs.lookup l.source.port.toNat =
      (s.synthesize p).outputs.lookup l.source.port.toNat := by
  cases p with
  | start => simp only [synthesize, h.routine]
  | fetch name => simp only [synthesize, h.outgoing_eq]
  | operation o =>
    have hleft := h.operand_eq (s.routine.required_operation_left s.scope)
    have htext : t.operationText o = s.operationText o := by
      rw [operationText, operationText, hleft]
      cases hunary : o.isUnary with
      | true => rfl
      | false => rw [h.operand_eq (s.routine.required_operation_right s.scope hunary)]
    simp only [synthesize, htext]
  | condition c =>
    have hleft := h.operand_eq (s.routine.required_condition_left s.scope)
    have hright := h.operand_eq (s.routine.required_condition_right s.scope)
    simp only [synthesize, conditionText, hleft, hright]
  | call c =>
    simp only [synthesize, call, h.arguments_eq fun i => s.routine.required_argument s.scope]
  | process name =>
    have hout : l ∈ s.outgoing := List.mem_filter.mpr ⟨hl, by simp [hsource]⟩
    have hout' : l ∈ t.outgoing := h.outgoing_eq ▸ hout
    simp only [synthesize, s.lookup_process name hout hvalue, t.lookup_process name hout' hvalue,
      h.processCall_eq ht (hcall (by simp [Payload.callee?]))]
  | argument name => rfl
  -- The other nodes have statements only.
  | ending e => cases e <;> rfl
  | assign name v => simp only [synthesize, outputs_assignment]
  | branch b => simp only [synthesize, outputs_branch]
  | jump => simp only [synthesize, outputs_jump]

end Site.Alike

namespace Routine

/-- Control has a use for every call of another routine. -/
def CallsReached (r : Routine) : Prop :=
  ∀ e ∈ r.nodes.entries, e.2.payload.callee? ≠ none →
    (r.start?.any fun start => (reachable r.links start).contains e.1) = true

instance (r : Routine) : Decidable r.CallsReached := inferInstanceAs (Decidable (∀ e ∈ _, _))

theorem CallsReached.connected {r : Routine} {scope : Scope} (h : r.CallsReached)
    (hw : r.WellFormed scope) {id : NodeId} {n : Node} (hn : r.nodes.get? id = some n)
    (hcall : n.payload.callee? ≠ none) : r.Connected scope id n.payload := by
  have hany := h (id, n) (r.nodes.mem_entries_iff.mpr hn) hcall
  cases hstart : r.start? with
  | none =>
    rw [hstart] at hany
    exact absurd hany (by simp)
  | some start =>
    rw [hstart, Option.any_some, List.contains_iff_mem, mem_reachable_iff] at hany
    exact hw.connected start ((r.start?_eq_some_iff start).mp hstart) id n hany hn

/-- Two passes with the same on offer write the same statements, with callees known and without. -/
theorem statements_contributions_alone {r : Routine} {scope : Scope} (hw : r.WellFormed scope)
    (hcalls : r.CallsReached) (ids : List NodeId) {offers offers' : Offers}
    (hoffers : ∀ l ∈ r.links, l.isFlow = false → offers'.get? l.source = offers.get? l.source) :
    (r.contributions none offers' ids).map (fun c => (c.1, c.2.statements)) =
      (r.contributions scope offers ids).map fun c => (c.1, c.2.statements) := by
  induction ids generalizing offers offers' with
  | nil => rfl
  | cons id ids ih =>
    cases hn : r.nodes.get? id with
    | none =>
      simp only [contributions, hn]
      exact ih hoffers
    | some n =>
      have halike : Site.Alike ⟨id, r, scope, offers⟩ ⟨id, r, none, offers'⟩ n.payload :=
        ⟨hw, ⟨n, hn, rfl⟩, rfl, rfl, hoffers⟩
      have hcall : n.payload.callee? ≠ none → r.Connected scope id n.payload :=
        hcalls.connected hw hn
      rw [contributions_cons hn, contributions_cons hn]
      simp only [List.map_cons, halike.statements_eq rfl hcall]
      congr 1
      apply ih
      intro l hl hvalue
      rw [Offers.get?_cons, Offers.get?_cons]
      split
      · next hsource => exact halike.lookup_eq rfl hcall hl hvalue hsource
      · exact hoffers l hl hvalue

theorem code_alone {r : Routine} {scope : Scope} (hw : r.WellFormed scope) (hcalls : r.CallsReached)
    (firstLine : Nat) (name : String) :
    (r.generate none firstLine name).code = (r.generate scope firstLine name).code := by
  have hblocks : r.blocks none = r.blocks scope :=
    statements_contributions_alone hw hcalls r.traversal.order fun _ _ _ => rfl
  simp only [generate, listing_draft, hblocks]

end Routine

theorem Report.valid_of_ofRoutines {rs : Table Routine} (h : (ofRoutines rs).valid = true)
    {name : String} {r : Routine} (hr : (name, r) ∈ rs.entries) :
    (r.report (some rs) name).valid = true := by
  rw [valid, Bool.not_eq_true', List.any_eq_false] at h ⊢
  intro f hf
  exact h f (List.mem_flatMap.mpr ⟨(name, r), hr, hf⟩)

/-- Under the standard options exactly what is valid passes. -/
theorem accept_standard_iff {α : Type} {report : Report} {a b : α} :
    (do Options.standard.accept report; return a : Except InvalidGraph α) = .ok b ↔
      report.valid = true ∧ b = a := by
  simp only [Options.accept, Options.standard, Bool.not_true, Bool.or_false]
  cases report.valid
  · exact iff_of_false (fun h => nomatch h) (fun h => nomatch h.1)
  · exact ⟨fun h => ⟨rfl, (Except.ok.inj h).symm⟩, fun h => congrArg Except.ok h.2.symm⟩

theorem compileRoutines_eq_ok_iff {rs : Table Routine} {c : Compiled} :
    compileRoutines .standard rs = .ok c ↔ (Report.ofRoutines rs).valid = true ∧
      c = ⟨.assemble (Program.partsOf rs 1) Program.separator, .ofRoutines rs⟩ :=
  accept_standard_iff

theorem compileRoutine_eq_ok_iff {name : String} {r : Routine} {code : RoutineCode} :
    compileRoutine .standard name r = .ok code ↔
      (r.report none name).valid = true ∧ code = r.generate none 1 name :=
  accept_standard_iff

namespace Routine

/-- Returns the first of its arguments. -/
def firstOf : Routine :=
  { isProcess := true
    args := .ofList [("x", .uint64), ("y", .uint64)]
    vars := .empty
    returns := .uint64
    nodes := .ofList [(0, .start), (1, .ofPayload "End" (.returnLinked .uint64))]
    links := [⟨⟨0, 0⟩, ⟨1, 0⟩, .flow⟩, ⟨⟨0, 1⟩, ⟨1, 1⟩, .value .uint64⟩] }

/-- Hands on its arguments in the opposite order, by links of which the last comes first. -/
def swapping : Routine :=
  { isProcess := false
    args := .ofList [("a", .uint64), ("b", .uint64)]
    vars := .empty
    returns := .uint64
    nodes := .ofList
      [(0, .start), (1, .ofPayload "End" (.returnLinked .uint64)),
       (2, .ofPayload "Process" (.process "first"))]
    links :=
      [⟨⟨0, 0⟩, ⟨2, 0⟩, .flow⟩, ⟨⟨2, 1⟩, ⟨1, 0⟩, .flow⟩, ⟨⟨0, 1⟩, ⟨2, 3⟩, .value .uint64⟩,
       ⟨⟨0, 2⟩, ⟨2, 2⟩, .value .uint64⟩, ⟨⟨2, 4⟩, ⟨1, 1⟩, .value .uint64⟩] }

end Routine

namespace Project

/-- A routine of a project that compiles also compiles on its own; and where control has a use for
all its calls, to the code that it has in the project. -/
theorem compileRoutine_of_compileRoutines {p : Project} {c : Compiled}
    (h : compileRoutines .standard p.routines = .ok c) {i : Nat} {name : String} {r : Routine}
    (hr : p.routines.entries[i]? = some (name, r)) :
    ∃ alone, compileRoutine .standard name r = .ok alone ∧
      (r.CallsReached → ∃ part, c.program.parts[i]? = some part ∧ part.name = name ∧
        part.code = alone.code) := by
  obtain ⟨hvalid, rfl⟩ := compileRoutines_eq_ok_iff.mp h
  have hmem : (name, r) ∈ p.routines.entries := List.mem_of_getElem? hr
  have hw := Routine.wellFormed_of_valid (Report.valid_of_ofRoutines hvalid hmem)
  have halone : (r.report none name).valid = true := Routine.valid_of_wellFormed name hw.alone
  refine ⟨_, compileRoutine_eq_ok_iff.mpr ⟨halone, rfl⟩, ?_⟩
  intro hcalls
  refine ⟨r.generate (some p.routines) 1 name, ?_, rfl, (Routine.code_alone hw hcalls 1 name).symm⟩
  simp [Program.assemble, Program.partsOf, hr]

/-- A call and its callee. -/
def swap : Project :=
  { name := "Swap", routines := .ofList [("F", Routine.swapping), ("first", Routine.firstOf)] }

/-- The arguments stand in the order of the ports though the callee is not known. -/
theorem compileRoutine_swapping :
    let c : Compiled :=
      ⟨.assemble (Program.partsOf swap.routines 1) Program.separator, .ofRoutines swap.routines⟩
    compileRoutines .standard swap.routines = .ok c ∧
      swap.routines.entries[0]? = some ("F", Routine.swapping) ∧ Routine.swapping.CallsReached ∧
      ∃ alone, compileRoutine .standard "F" Routine.swapping = .ok alone ∧
        alone.code = "Function F(a Uint64, b Uint64) Uint64\n1\tRETURN first(b, a)\nEnd Function" := by
  intro c
  have hcompiled : compileRoutines .standard swap.routines = .ok c :=
    compileRoutines_eq_ok_iff.mpr ⟨by decide, rfl⟩
  have hentry : swap.routines.entries[0]? = some ("F", Routine.swapping) := by decide
  have hcalls : Routine.swapping.CallsReached := by decide
  refine ⟨hcompiled, hentry, hcalls, ?_⟩
  obtain ⟨alone, halone, hsame⟩ := compileRoutine_of_compileRoutines hcompiled hentry
  obtain ⟨part, hpart, _, hcode⟩ := hsame hcalls
  refine ⟨alone, halone, ?_⟩
  obtain rfl : Routine.swapping.generate (some swap.routines) 1 "F" = part := Option.some.inj hpart
  rw [← hcode]
  decide +kernel

end Project

end FlowBasic
