import FlowBasic.Proofs.Validity
import Mathlib.Data.List.Pairwise

namespace FlowBasic

theorem find?_eq_some_of_unique {α : Type} {xs : List α} {p : α → Bool} {a : α} (ha : a ∈ xs)
    (hp : p a = true) (hunique : ∀ b ∈ xs, p b = true → b = a) : xs.find? p = some a := by
  cases hfind : xs.find? p with
  | none => exact absurd hp (List.find?_eq_none.mp hfind a ha)
  | some b => rw [hunique b (List.mem_of_find?_eq_some hfind) (List.find?_some hfind)]

/-- Where at most one element is sought, it is found in any order and by any test that it alone
passes. -/
theorem find?_eq_find?_of_unique {α : Type} {xs ys : List α} {p q : α → Bool}
    (hmem : ∀ a, a ∈ xs ∧ p a = true ↔ a ∈ ys ∧ q a = true)
    (hunique : ∀ a ∈ ys, ∀ b ∈ ys, q a = true → q b = true → a = b) :
    xs.find? p = ys.find? q := by
  cases hfind : ys.find? q with
  | none =>
    rw [List.find?_eq_none] at hfind ⊢
    intro a ha hp
    obtain ⟨ha, hq⟩ := (hmem a).mp ⟨ha, hp⟩
    exact hfind a ha hq
  | some b =>
    have hb := List.mem_of_find?_eq_some hfind
    have hqb := List.find?_some hfind
    obtain ⟨hbx, hpb⟩ := (hmem b).mpr ⟨hb, hqb⟩
    apply find?_eq_some_of_unique hbx hpb
    intro a ha hp
    obtain ⟨ha, hqa⟩ := (hmem a).mp ⟨ha, hp⟩
    exact hunique a ha b hb hqa hqb

theorem Connector.isFlow_of_compatible {a b : Connector} (h : a.compatible b = true) :
    a.isFlow = b.isFlow := by
  cases a <;> cases b <;> simp_all [compatible, isFlow]

theorem exists_ok_of_bind {ε α β : Type} {x : Except ε α} {f : α → Except ε β} {b : β}
    (h : x >>= f = .ok b) : ∃ a, x = .ok a ∧ f a = .ok b := by
  cases x with
  | error e => cases h
  | ok a => exact ⟨a, rfl, h⟩

theorem Endpoint.eq_of_toNat {a b : Endpoint} (hnode : a.node = b.node)
    (hport : a.port.toNat = b.port.toNat) : a = b := by
  cases a
  cases b
  simp_all [UInt32.toNat_inj]

namespace Link

theorem sink_eq_of_enters {a b : Link} {id : NodeId} {port : Nat} (ha : a.enters id port = true)
    (hb : b.enters id port = true) : a.sink = b.sink := by
  simp only [enters, Bool.and_eq_true, decide_eq_true_eq] at ha hb
  exact Endpoint.eq_of_toNat (ha.1.trans hb.1.symm) (ha.2.trans hb.2.symm)

theorem source_eq_of_leaves {a b : Link} {id : NodeId} {port : Nat} (ha : a.leaves id port = true)
    (hb : b.leaves id port = true) : a.source = b.source := by
  simp only [leaves, Bool.and_eq_true, decide_eq_true_eq] at ha hb
  exact Endpoint.eq_of_toNat (ha.1.trans hb.1.symm) (ha.2.trans hb.2.symm)

/-- Links of one kind that differ in pairs at an end are equal when they agree there. -/
theorem eq_of_pairwise_ne {links : List Link} {kind : Bool} {place : Link → Endpoint}
    (h : links.Pairwise fun a b => a.isFlow = kind → b.isFlow = kind → place a ≠ place b)
    {a b : Link} (ha : a ∈ links) (hb : b ∈ links) (hka : a.isFlow = kind) (hkb : b.isFlow = kind)
    (heq : place a = place b) : a = b := by
  have hsymm : Std.Symm fun a b : Link =>
      a.isFlow = kind → b.isFlow = kind → place a ≠ place b :=
    ⟨fun _ _ hne hkb hka heq => hne hka hkb heq.symm⟩
  by_contra hne
  exact h.forall ha hb hne hka hkb heq

end Link

namespace Layout

theorem mem_valuePorts {base : Nat} {ts : List ValueType} {s : PortSpec} :
    s ∈ valuePorts base ts ↔ ∃ i t, ts[i]? = some t ∧ s = .value (base + i) t := by
  induction ts generalizing base with
  | nil => simp [valuePorts]
  | cons t ts ih =>
    rw [valuePorts, ← Nat.or_exists_add_one]
    simp [ih, Nat.add_assoc, Nat.add_comm 1]

theorem mem_slotPorts {base : Nat} {slots : List TypedSlot} {s : PortSpec} :
    s ∈ slotPorts base slots ↔
      ∃ i slot, slots[i]? = some slot ∧ slot.isUnset = true ∧
        s = (PortSpec.value (base + i) slot.type).needed := by
  induction slots generalizing base with
  | nil => simp [slotPorts]
  | cons first slots ih =>
    rw [slotPorts, ← Nat.or_exists_add_one]
    cases hunset : first.isUnset <;> simp [hunset, ih, Nat.add_assoc, Nat.add_comm 1]

theorem mem_operandPort {port : Nat} {t : ValueType} {literal : Option Literal} {s : PortSpec} :
    s ∈ operandPort port t literal ↔ literal = none ∧ s = (PortSpec.value port t).needed := by
  cases literal <;> simp [operandPort]

theorem mem_requiredInputs {l : Layout} {s : PortSpec} (hs : s ∈ l.inputs)
    (hrequired : s.required = true) : s.port ∈ l.requiredInputs :=
  List.mem_map.mpr ⟨s, List.mem_filter.mpr ⟨hs, hrequired⟩, rfl⟩

theorem exists_of_input? {l : Layout} {port : Nat} {c : Connector} (hany : l.anyInput = none)
    (h : l.input? port = some c) : ∃ s ∈ l.inputs, s.port = port ∧ s.connector = c := by
  rw [input?, hany, Option.or_none] at h
  obtain ⟨s, hfind, hc⟩ := Option.map_eq_some_iff.mp h
  have hport := List.find?_some hfind
  exact ⟨s, List.mem_of_find?_eq_some hfind, of_decide_eq_true hport, hc⟩

theorem exists_of_output? {l : Layout} {port : Nat} {c : Connector} (hany : l.anyOutput = none)
    (h : l.output? port = some c) : ∃ s ∈ l.outputs, s.port = port ∧ s.connector = c := by
  rw [output?, hany, Option.or_none] at h
  obtain ⟨s, hfind, hc⟩ := Option.map_eq_some_iff.mp h
  have hport := List.find?_some hfind
  exact ⟨s, List.mem_of_find?_eq_some hfind, of_decide_eq_true hport, hc⟩

end Layout

namespace Routine

/-- Control comes in by port 0 if at all, and no value that is required has this number then. -/
theorem isFlow_of_required (r : Routine) (scope : Scope) (p : Payload) {s needed : PortSpec}
    (hs : s ∈ (r.layout scope p).inputs) (hneeded : needed ∈ (r.layout scope p).inputs)
    (hrequired : needed.required = true) (hport : s.port = needed.port) :
    s.connector.isFlow = false := by
  cases p <;>
    simp only [layout, List.mem_append, Layout.mem_slotPorts, Layout.mem_operandPort]
      at hs hneeded <;>
    grind [PortSpec.flow, PortSpec.value, PortSpec.needed, Connector.isFlow, Call.argBase,
      Layout.mem_operandPort, Layout.mem_valuePorts]

theorem input?_of_required (r : Routine) (scope : Scope) (p : Payload) {port : Nat}
    (h : port ∈ (r.layout scope p).requiredInputs) :
    ∃ c, (r.layout scope p).input? port = some c ∧ c.isFlow = false := by
  obtain ⟨needed, hneeded, rfl⟩ := List.mem_map.mp h
  obtain ⟨hneeded, hrequired⟩ := List.mem_filter.mp hneeded
  cases hfind : (r.layout scope p).inputs.find? (fun s => s.port = needed.port) with
  | none => exact absurd (decide_eq_true rfl) (List.find?_eq_none.mp hfind needed hneeded)
  | some s =>
    have hport := List.find?_some hfind
    refine ⟨s.connector, by simp [Layout.input?, hfind], ?_⟩
    exact r.isFlow_of_required scope p (List.mem_of_find?_eq_some hfind) hneeded hrequired
      (of_decide_eq_true hport)

section Required

variable (r : Routine) (scope : Scope)

theorem required_assign (name : String) {v : TypedSlot} (h : v.literal? = none) :
    2 ∈ (r.layout scope (.assign name v)).requiredInputs := by
  have hmem : (PortSpec.value 2 v.type).needed ∈ (r.layout scope (.assign name v)).inputs := by
    simp [layout, TypedSlot.isUnset, h]
  exact Layout.mem_requiredInputs hmem rfl

theorem required_result (t : ValueType) {v : Option Literal} (h : v = none) :
    1 ∈ (r.layout scope (.ending (.result t v))).requiredInputs := by
  have hmem : (PortSpec.value 1 t).needed ∈ (r.layout scope (.ending (.result t v))).inputs := by
    simp [layout, h, PortSpec.value, PortSpec.needed]
  exact Layout.mem_requiredInputs hmem rfl

theorem required_branch (b : Branch) : 1 ∈ (r.layout scope (.branch b)).requiredInputs :=
  List.mem_cons_self

theorem required_operation_left {o : Operation} (h : o.operand? .left = none) :
    0 ∈ (r.layout scope (.operation o)).requiredInputs := by
  have hmem : (PortSpec.value 0 o.type).needed ∈ (r.layout scope (.operation o)).inputs :=
    List.mem_append_left _ (Layout.mem_operandPort.mpr ⟨h, rfl⟩)
  exact Layout.mem_requiredInputs hmem rfl

theorem required_operation_right {o : Operation} (hbinary : o.isUnary = false)
    (h : o.operand? .right = none) : 1 ∈ (r.layout scope (.operation o)).requiredInputs := by
  have hmem : (PortSpec.value 1 o.type).needed ∈ (r.layout scope (.operation o)).inputs := by
    simp [layout, hbinary, h, Layout.operandPort]
  exact Layout.mem_requiredInputs hmem rfl

theorem required_condition_left {c : Condition} (h : c.operand? .left = none) :
    0 ∈ (r.layout scope (.condition c)).requiredInputs := by
  have hmem : (PortSpec.value 0 c.type).needed ∈ (r.layout scope (.condition c)).inputs :=
    List.mem_append_left _ (Layout.mem_operandPort.mpr ⟨h, rfl⟩)
  exact Layout.mem_requiredInputs hmem rfl

theorem required_condition_right {c : Condition} (h : c.operand? .right = none) :
    1 ∈ (r.layout scope (.condition c)).requiredInputs := by
  have hmem : (PortSpec.value 1 c.type).needed ∈ (r.layout scope (.condition c)).inputs :=
    List.mem_append_right _ (Layout.mem_operandPort.mpr ⟨h, rfl⟩)
  exact Layout.mem_requiredInputs hmem rfl

theorem required_argument {c : Call} {i : Nat}
    (h : (c.args.values.map TypedSlot.literal?)[i]? = some none) :
    c.argBase + i ∈ (r.layout scope (.call c)).requiredInputs := by
  rw [List.getElem?_map] at h
  obtain ⟨slot, hslot, hnone⟩ := Option.map_eq_some_iff.mp h
  have hmem : (PortSpec.value (c.argBase + i) slot.type).needed ∈
      (r.layout scope (.call c)).inputs :=
    List.mem_append_right _ (Layout.mem_slotPorts.mpr
      ⟨i, slot, hslot, by simp [TypedSlot.isUnset, hnone], rfl⟩)
  exact Layout.mem_requiredInputs hmem rfl

theorem required_parameter {name : String} {callee : Routine} (hcallee : scope.callee? name = some callee)
    {i : Nat} (h : i < callee.args.size) :
    2 + i ∈ (r.layout scope (.process name)).requiredInputs := by
  have hlt : i < callee.args.values.length := by
    simpa [Table.values, Table.size] using h
  have hmem : (PortSpec.value (2 + i) callee.args.values[i]).needed ∈
      (r.layout scope (.process name)).inputs := by
    simp only [layout, hcallee]
    exact List.mem_cons_of_mem _ (List.mem_map_of_mem
      (Layout.mem_valuePorts.mpr ⟨i, _, List.getElem?_eq_getElem hlt, rfl⟩))
  exact Layout.mem_requiredInputs hmem rfl

end Required

/-- The start offers the arguments at the ports from 1 on. -/
theorem exists_argument_of_output {r : Routine} {scope : Scope} {s : PortSpec}
    (hs : s ∈ (r.layout scope .start).outputs) (hvalue : s.connector.isFlow = false) :
    ∃ i, i < r.args.keys.length ∧ s.port = i + 1 := by
  rcases List.mem_cons.mp hs with rfl | hs
  · exact absurd hvalue (by decide)
  · obtain ⟨i, t, ht, rfl⟩ := Layout.mem_valuePorts.mp hs
    obtain ⟨hlt, _⟩ := List.getElem?_eq_some_iff.mp ht
    refine ⟨i, ?_, Nat.add_comm 1 i⟩
    simpa [Table.keys, Table.values] using hlt

/-- A call offers its result at one port. -/
theorem port_of_call_output {r : Routine} {scope : Scope} {c : Call} {s : PortSpec}
    (hs : s ∈ (r.layout scope (.call c)).outputs) (hvalue : s.connector.isFlow = false) :
    s.port = c.resultPort := by
  rcases List.mem_append.mp hs with hs | hs
  · split at hs
    · rw [List.mem_singleton.mp hs] at hvalue
      exact absurd hvalue (by decide)
    · exact absurd hs List.not_mem_nil
  · rw [List.mem_singleton.mp hs]
    rfl

section ValueInputs

variable {r : Routine} {scope : Scope} {s : PortSpec}

theorem port_of_assign_input {name : String} {v : TypedSlot}
    (hs : s ∈ (r.layout scope (.assign name v)).inputs) (hvalue : s.connector.isFlow = false) :
    v.literal? = none ∧ s.port = 2 := by
  rcases List.mem_cons.mp hs with rfl | hs
  · exact absurd hvalue (by decide)
  · split at hs
    · next hunset =>
      rw [List.mem_singleton.mp hs]
      exact ⟨Option.isNone_iff_eq_none.mp hunset, rfl⟩
    · exact absurd hs List.not_mem_nil

theorem port_of_result_input {t : ValueType} {v : Option Literal}
    (hs : s ∈ (r.layout scope (.ending (.result t v))).inputs) (hvalue : s.connector.isFlow = false) :
    s.port = 1 := by
  rcases List.mem_cons.mp hs with rfl | hs
  · exact absurd hvalue (by decide)
  · rw [List.mem_singleton.mp hs]
    rfl

theorem port_of_operation_input {o : Operation} (hs : s ∈ (r.layout scope (.operation o)).inputs) :
    o.operand? .left = none ∧ s.port = 0 ∨
      o.isUnary = false ∧ o.operand? .right = none ∧ s.port = 1 := by
  rcases List.mem_append.mp hs with hs | hs
  · obtain ⟨hnone, rfl⟩ := Layout.mem_operandPort.mp hs
    exact .inl ⟨hnone, rfl⟩
  · split at hs
    · exact absurd hs List.not_mem_nil
    · next hunary =>
      obtain ⟨hnone, rfl⟩ := Layout.mem_operandPort.mp hs
      exact .inr ⟨Bool.not_eq_true _ ▸ hunary, hnone, rfl⟩

theorem port_of_condition_input {c : Condition} (hs : s ∈ (r.layout scope (.condition c)).inputs) :
    c.operand? .left = none ∧ s.port = 0 ∨ c.operand? .right = none ∧ s.port = 1 := by
  rcases List.mem_append.mp hs with hs | hs
  · obtain ⟨hnone, rfl⟩ := Layout.mem_operandPort.mp hs
    exact .inl ⟨hnone, rfl⟩
  · obtain ⟨hnone, rfl⟩ := Layout.mem_operandPort.mp hs
    exact .inr ⟨hnone, rfl⟩

theorem port_of_branch_input {b : Branch} (hs : s ∈ (r.layout scope (.branch b)).inputs)
    (hvalue : s.connector.isFlow = false) : s.port = 1 := by
  rcases List.mem_cons.mp hs with rfl | hs
  · exact absurd hvalue (by decide)
  · rw [List.mem_singleton.mp hs]
    rfl

theorem port_of_call_input {c : Call} (hs : s ∈ (r.layout scope (.call c)).inputs)
    (hvalue : s.connector.isFlow = false) :
    ∃ i, (c.args.values.map TypedSlot.literal?)[i]? = some none ∧ s.port = c.argBase + i := by
  rcases List.mem_append.mp hs with hs | hs
  · split at hs
    · rw [List.mem_singleton.mp hs] at hvalue
      exact absurd hvalue (by decide)
    · exact absurd hs List.not_mem_nil
  · obtain ⟨i, slot, hslot, hunset, rfl⟩ := Layout.mem_slotPorts.mp hs
    refine ⟨i, ?_, rfl⟩
    rw [List.getElem?_map, hslot, Option.map_some, Option.isNone_iff_eq_none.mp hunset]

end ValueInputs

theorem get?_of_nodeAt {r : Routine} {id : NodeId} {n : Node} (h : r.nodeAt id = .ok n) :
    r.nodes.get? id = some n := by
  simp only [nodeAt] at h
  split at h <;> simp_all

theorem output?_of_outputAt {r : Routine} {scope : Scope} {n : Node} {e : Endpoint} {c : Connector}
    (h : r.outputAt scope n e = .ok c) :
    (r.layout scope n.payload).output? e.port.toNat = some c := by
  simp only [outputAt] at h
  split at h <;> simp_all

theorem input?_of_inputAt {r : Routine} {scope : Scope} {n : Node} {e : Endpoint} {c : Connector}
    (h : r.inputAt scope n e = .ok c) :
    (r.layout scope n.payload).input? e.port.toNat = some c := by
  simp only [inputAt] at h
  split at h <;> simp_all

theorem checkLink_eq_ok_iff {r : Routine} {scope : Scope} {l : Link} :
    r.checkLink scope l = .ok () ↔ ∃ source sink output input,
      r.nodes.get? l.source.node = some source ∧ r.nodes.get? l.sink.node = some sink ∧
      (r.layout scope source.payload).output? l.source.port.toNat = some output ∧
      (r.layout scope sink.payload).input? l.sink.port.toNat = some input ∧
      output.compatible input = true ∧ l.connector.compatible output = true ∧
      l.connector.compatible input = true := by
  constructor
  · intro h
    obtain ⟨source, hsource, h⟩ := exists_ok_of_bind h
    obtain ⟨sink, hsink, h⟩ := exists_ok_of_bind h
    obtain ⟨output, houtput, h⟩ := exists_ok_of_bind h
    obtain ⟨input, hinput, h⟩ := exists_ok_of_bind h
    split at h
    · next hagree =>
      simp only [Bool.and_eq_true, and_assoc] at hagree
      exact ⟨source, sink, output, input, get?_of_nodeAt hsource, get?_of_nodeAt hsink,
        output?_of_outputAt houtput, input?_of_inputAt hinput, hagree⟩
    · exact absurd h (by simp)
  · intro h
    obtain ⟨source, sink, output, input, hsource, hsink, houtput, hinput, hports, hout, hin⟩ := h
    simp only [checkLink, nodeAt, outputAt, inputAt, hsource, hsink, houtput, hinput, hports, hout, hin,
      bind, Except.bind, Bool.and_self, if_true]
    rfl

/-- Both ports of a link that fits are for what the link carries. -/
theorem ports_of_checkLink {r : Routine} {scope : Scope} {l : Link}
    (h : r.checkLink scope l = .ok ()) :
    (∃ n c, r.nodes.get? l.source.node = some n ∧
      (r.layout scope n.payload).output? l.source.port.toNat = some c ∧ c.isFlow = l.isFlow) ∧
    ∃ n c, r.nodes.get? l.sink.node = some n ∧
      (r.layout scope n.payload).input? l.sink.port.toNat = some c ∧ c.isFlow = l.isFlow := by
  obtain ⟨source, sink, output, input, hsource, hsink, houtput, hinput, -, hout, hin⟩ :=
    checkLink_eq_ok_iff.mp h
  exact ⟨⟨source, output, hsource, houtput, (Connector.isFlow_of_compatible hout).symm⟩,
    ⟨sink, input, hsink, hinput, (Connector.isFlow_of_compatible hin).symm⟩⟩

/-- Links that fit and share a port carry the same kind of thing. -/
theorem isFlow_eq_of_source {r : Routine} {scope : Scope} {l m : Link}
    (hl : r.checkLink scope l = .ok ()) (hm : r.checkLink scope m = .ok ())
    (h : m.source = l.source) : m.isFlow = l.isFlow := by
  obtain ⟨⟨n, c, hn, hc, hflow⟩, -⟩ := ports_of_checkLink hl
  obtain ⟨⟨n', c', hn', hc', hflow'⟩, -⟩ := ports_of_checkLink hm
  rw [h] at hn' hc'
  obtain rfl := Option.some.inj (hn.symm.trans hn')
  obtain rfl := Option.some.inj (hc.symm.trans hc')
  exact hflow'.symm.trans hflow

theorem isFlow_eq_of_sink {r : Routine} {scope : Scope} {l m : Link}
    (hl : r.checkLink scope l = .ok ()) (hm : r.checkLink scope m = .ok ())
    (h : m.sink = l.sink) : m.isFlow = l.isFlow := by
  obtain ⟨-, n, c, hn, hc, hflow⟩ := ports_of_checkLink hl
  obtain ⟨-, n', c', hn', hc', hflow'⟩ := ports_of_checkLink hm
  rw [h] at hn' hc'
  obtain rfl := Option.some.inj (hn.symm.trans hn')
  obtain rfl := Option.some.inj (hc.symm.trans hc')
  exact hflow'.symm.trans hflow

namespace WellFormed

variable {r : Routine} {scope : Scope}

theorem exists_source (hw : r.WellFormed scope) {l : Link} (hl : l ∈ r.links) :
    ∃ n, r.nodes.get? l.source.node = some n :=
  Option.isSome_iff_exists.mp ((r.nodes.contains_iff _).mpr (hw.ends l hl).1)

theorem output?_of_mem (hw : r.WellFormed scope) {l : Link} (hl : l ∈ r.links) {n : Node}
    (hn : r.nodes.get? l.source.node = some n) :
    ∃ c, (r.layout scope n.payload).output? l.source.port.toNat = some c ∧ c.isFlow = l.isFlow := by
  obtain ⟨⟨m, c, hm, hc, hflow⟩, -⟩ := ports_of_checkLink (hw.fits l hl)
  obtain rfl : n = m := Option.some.inj (hn.symm.trans hm)
  exact ⟨c, hc, hflow⟩

theorem input?_of_mem (hw : r.WellFormed scope) {l : Link} (hl : l ∈ r.links) {n : Node}
    (hn : r.nodes.get? l.sink.node = some n) :
    ∃ c, (r.layout scope n.payload).input? l.sink.port.toNat = some c ∧ c.isFlow = l.isFlow := by
  obtain ⟨-, m, c, hm, hc, hflow⟩ := ports_of_checkLink (hw.fits l hl)
  obtain rfl : n = m := Option.some.inj (hn.symm.trans hm)
  exact ⟨c, hc, hflow⟩

/-- Only values come in by a port that is required. -/
theorem isFlow_of_enters (hw : r.WellFormed scope) {id : NodeId} {n : Node}
    (hn : r.nodes.get? id = some n) {port : Nat}
    (hport : port ∈ (r.layout scope n.payload).requiredInputs) {l : Link} (hl : l ∈ r.links)
    (henters : l.enters id port = true) : l.isFlow = false := by
  simp only [Link.enters, Bool.and_eq_true, decide_eq_true_eq] at henters
  obtain ⟨c, hc, hflow⟩ := r.input?_of_required scope n.payload hport
  obtain ⟨c', hc', hflow'⟩ := hw.input?_of_mem hl (henters.1 ▸ hn)
  rw [henters.2, hc] at hc'
  rw [← hflow', ← Option.some.inj hc', hflow]

end WellFormed

end Routine

end FlowBasic
