import FlowBasic.Proofs.OnePass

namespace FlowBasic

namespace Site

/-- Those of the given ports that are required and have nothing on offer. -/
def lacking (s : Site) (specs : List PortSpec) : List Nat :=
  ((specs.filter PortSpec.required).map PortSpec.port).filter fun port => (s.input? port).isNone

theorem lacking_append (s : Site) (specs others : List PortSpec) :
    s.lacking (specs ++ others) = s.lacking specs ++ s.lacking others := by
  simp [lacking]

theorem lacking_flow (s : Site) (port : Nat) (specs : List PortSpec) :
    s.lacking (.flow port :: specs) = s.lacking specs := by
  simp [lacking, PortSpec.flow]

/-- A slot lacks its port when it holds no literal. -/
theorem lacking_operandPort (s : Site) (port : Nat) (t : ValueType) (literal : Option Literal) :
    s.lacking (Layout.operandPort port t literal) = s.missingAt literal port := by
  cases literal with
  | none =>
    simp [lacking, missingAt, Layout.operandPort, PortSpec.needed, PortSpec.value, List.filter_cons]
  | some v => rfl

theorem lacking_slotPorts (s : Site) (base : Nat) (slots : List TypedSlot) :
    s.lacking (Layout.slotPorts base slots) =
      s.missingFrom base (slots.map TypedSlot.literal?) := by
  induction slots generalizing base with
  | nil => rfl
  | cons slot slots ih =>
    have hslot : Layout.slotPorts base (slot :: slots) =
        Layout.operandPort base slot.type slot.literal? ++ Layout.slotPorts (base + 1) slots := by
      cases hliteral : slot.literal? <;>
        simp [Layout.slotPorts, Layout.operandPort, TypedSlot.isUnset, hliteral]
    rw [hslot, lacking_append, lacking_operandPort, ih]
    rfl

theorem lacking_valuePorts (s : Site) (base : Nat) (ts : List ValueType) :
    s.lacking ((Layout.valuePorts base ts).map PortSpec.needed) =
      s.missingFrom base (List.replicate ts.length none) := by
  induction ts generalizing base with
  | nil => rfl
  | cons t ts ih =>
    have hport : (Layout.valuePorts base (t :: ts)).map PortSpec.needed =
        Layout.operandPort base t none ++ (Layout.valuePorts (base + 1) ts).map PortSpec.needed := rfl
    rw [hport, lacking_append, lacking_operandPort, ih]
    rfl

/-- What a node misses is what it lacks of the ports required of it. A branch without a way to take
is the exception: it does not come to read its condition. -/
theorem missing_synthesize (s : Site) (r : Routine) {p : Payload}
    (hbranch : ∀ b, p = .branch b → s.flowTarget? 2 ≠ none) :
    (s.synthesize p).missing = s.lacking (r.layout s.scope p).inputs := by
  cases p with
  | start => rfl
  | argument name => rfl
  | fetch name => rfl
  | jump =>
    rw [synthesize, jump]
    split <;> rfl
  | assign name v =>
    have hinputs : (r.layout s.scope (.assign name v)).inputs =
        .flow 0 :: Layout.operandPort 2 v.type v.literal? := by
      cases hv : v.literal? <;> simp [Routine.layout, Layout.operandPort, TypedSlot.isUnset, hv]
    rw [hinputs, lacking_flow, lacking_operandPort, synthesize, assignment]
    cases v.literal? <;> cases hinput : s.input? 2 <;> simp [missingAt, hinput]
  | ending e =>
    cases e with
    | abort => rfl
    | result t v =>
      have hinputs : s.lacking (r.layout s.scope (.ending (.result t v))).inputs =
          s.lacking (Layout.operandPort 1 t v) := by
        cases v <;> rfl
      rw [hinputs, lacking_operandPort]
      rfl
  | operation o =>
    simp only [synthesize, Routine.layout, lacking_append, lacking_operandPort]
    split
    · rfl
    · rw [lacking_operandPort]
  | condition c => simp only [synthesize, Routine.layout, lacking_append, lacking_operandPort]
  | branch b =>
    obtain ⟨target, htarget⟩ := Option.ne_none_iff_exists'.mp (hbranch b rfl)
    have hcondition := s.lacking_operandPort 1 .uint64 none
    simp only [synthesize, branch, htarget, ← hcondition]
    rfl
  | call c =>
    simp only [synthesize, call, Routine.layout, lacking_append, lacking_slotPorts]
    cases c.asProcess <;> rfl
  | process name =>
    have hmissing : (s.process name).missing = s.missingFrom 2
        (((s.scope.callee? name).map fun callee =>
          List.replicate callee.args.size none).getD []) := by
      simp only [process]
      split <;> rfl
    rw [synthesize, hmissing, Routine.layout]
    cases s.scope.callee? name with
    | none => rfl
    | some callee =>
      have hsize : callee.args.size = callee.args.values.length := by simp [Table.size, Table.values]
      rw [lacking_flow, lacking_valuePorts, ← hsize]
      rfl

end Site

namespace Site.Ready

variable {s : Site} {r : Routine} {h : r.ValueAcyclic} {p : Payload}

theorem flowTarget?_branch {b : Branch} (hs : s.Ready r h (.branch b)) : s.flowTarget? 2 ≠ none := by
  obtain ⟨l, hl, hsource, hport⟩ := hs.connected.2 2 List.mem_cons_self
  obtain ⟨c, hc, hflow⟩ := hs.output?_eq hl hsource
  rw [hport] at hc
  obtain rfl : Connector.flow = c := Option.some.inj hc
  rw [hs.flowTarget?_eq, Routine.flowSink?, ne_eq, Option.map_eq_none_iff, List.find?_eq_none]
  intro hnone
  exact hnone l hl (by simp [Link.leaves, ← hflow, hsource, hport, Connector.isFlow])

/-- A node that is ready finds something on every port that it reads. -/
theorem missing_eq_nil (hs : s.Ready r h p) : (s.synthesize p).missing = [] := by
  have hbranch : ∀ b, p = .branch b → s.flowTarget? 2 ≠ none := by
    intro b hb
    subst hb
    exact hs.flowTarget?_branch
  rw [s.missing_synthesize r hbranch, Site.lacking, List.filter_eq_nil_iff]
  intro port hport
  rw [hs.input?_eq hport]
  simp

end Site.Ready

namespace Routine

/-- The inputs told as missing are those that the nodes miss when they are written. -/
theorem mem_missingConnection_iff (r : Routine) (scope : Scope) (firstLine : Nat) (name : String)
    (id : NodeId) (port : Nat) :
    .missingConnection id port ∈ (r.generate scope firstLine name).diagnostics ↔
      ∃ c ∈ r.contributions scope [] r.traversal.order, c.1 = id ∧ port ∈ c.2.missing := by
  have hpreamble : .missingConnection id port ∉ (r.firstDraft firstLine name).diagnostics := by
    simp [firstDraft]
  have hjumps : ∀ listing : Listing, .missingConnection id port ∉ listing.unresolved := by
    intro listing hmem
    obtain ⟨line, _, hmem⟩ := List.mem_flatMap.mp hmem
    obtain ⟨fragment, _, hfragment⟩ := List.mem_filterMap.mp hmem
    cases fragment <;> simp at hfragment
  have hdraft : (r.draft scope firstLine name).diagnostics =
      (r.firstDraft firstLine name).diagnostics ++
        (r.contributions scope [] r.traversal.order).flatMap fun c =>
          c.2.missing.map (.missingConnection c.1) := by
    rw [draft, foldl_extend]
    rfl
  simp only [generate, hdraft, List.mem_append, hpreamble, hjumps, or_false, false_or,
    List.mem_flatMap, List.mem_map, Diagnostic.missingConnection.injEq]
  grind

/-- In a valid routine without cycles through values, no input is told as missing for a node that
control has a use for. -/
theorem missingConnection_notMem_generate {r : Routine} {scope : Scope} {name : String}
    (hvalid : (r.report scope name).valid = true) (h : r.ValueAcyclic) {start id : NodeId}
    (hstart : r.IsStart start) (hreached : Reached r.links start id) (firstLine port : Nat) :
    .missingConnection id port ∉ (r.generate scope firstLine name).diagnostics := by
  have hw := wellFormed_of_valid hvalid
  rw [mem_missingConnection_iff]
  intro hmem
  obtain ⟨c, hc, rfl, hport⟩ := hmem
  have hkey : c.1 ∈ r.traversal.order := by
    rw [← keys_contributions scope [] fun u hu => (r.mem_order u).mp hu]
    exact List.mem_map_of_mem hc
  obtain ⟨n, hn⟩ := Option.isSome_iff_exists.mp ((r.mem_order c.1).mp hkey)
  have hfirst := producersFirst_traversal hw h (List.Perm.refl r.links)
  obtain ⟨s, _, rfl, hready, hsynthesis⟩ :=
    ready_along (h := h) hw hstart (List.Perm.refl r.links) r.order_perm hfirst hc hreached hn
  rw [hsynthesis, hready.missing_eq_nil] at hport
  exact List.not_mem_nil hport

/-- The branch of the loop misses nothing, though control comes back to it. -/
theorem missingConnection_notMem_loopOverSum :
    let r := loopOverSum
    (r.report none "F").valid = true ∧ r.IsStart 0 ∧ Reached r.links 0 5 ∧
      ∀ port, .missingConnection 5 port ∉ (r.generate none 1 "F").diagnostics := by
  have hvalid : (loopOverSum.report none "F").valid = true := by decide
  have hstart : loopOverSum.IsStart 0 := (loopOverSum.start?_eq_some_iff 0).mp (by decide)
  have hreached : Reached loopOverSum.links 0 5 := (mem_reachable_iff _ _ _).mp (by decide)
  refine ⟨hvalid, hstart, hreached, fun port => ?_⟩
  exact missingConnection_notMem_generate hvalid valueAcyclic_loopOverSum hstart hreached 1 port

end Routine

end FlowBasic
