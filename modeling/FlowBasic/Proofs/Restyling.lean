import FlowBasic.Proofs.CalleeArity
import FlowBasic.Proofs.Standalone

namespace FlowBasic

/-- What the nodes compute, by ascending id; all that is left of a node map without the looks. -/
def NodeMap.payloads (m : NodeMap) : List (NodeId × Payload) :=
  m.entries.map fun e => (e.1, e.2.payload)

/-- The second routine has the declarations, the result type, the links and the node ids of the first,
and its nodes have the same payloads. Their names, edit flags, locks and positions may be any. -/
structure Routine.Restyled (r r' : Routine) : Prop where
  args : r'.args = r.args
  vars : r'.vars = r.vars
  returns : r'.returns = r.returns
  links : r'.links = r.links
  payloads : r'.nodes.payloads = r.nodes.payloads

/-- A restyled routine under the same name. -/
def RestyledEntry (e e' : String × Routine) : Prop := e'.1 = e.1 ∧ e.2.Restyled e'.2

/-- The same names in the same order, for routines that are restyled one by one. -/
def AllRestyled (rs rs' : Table Routine) : Prop :=
  List.Forall₂ RestyledEntry rs.entries rs'.entries

/-- Callees are unknown in both scopes, or known and restyled. -/
def Scope.Restyled (s t : Scope) : Prop := Option.Rel AllRestyled s t

namespace NodeMap

theorem ids_eq_payloads (m : NodeMap) : m.ids = m.payloads.map Prod.fst := by
  simp [ids, payloads, Function.comp_def]

theorem lookup_payloads (m : NodeMap) (id : NodeId) :
    m.payloads.lookup id = (m.get? id).map Node.payload :=
  Entries.lookup_map Node.payload id m.entries

/-- A node that computes the same in the place of another leaves the payloads as they are. -/
theorem payloads_insert {m : NodeMap} {id : NodeId} {n n' : Node} (hn : m.get? id = some n)
    (hpayload : n'.payload = n.payload) : (m.insert id n').payloads = m.payloads := by
  obtain ⟨earlier, later, hentries, hput⟩ := exists_put_eq m.sorted hn
  have hinsert : (m.insert id n').entries = earlier ++ (id, n') :: later := hput n'
  simp [payloads, hinsert, hentries, hpayload]

end NodeMap

namespace Routine.Restyled

variable {r r' : Routine}

theorem refl (r : Routine) : r.Restyled r := ⟨rfl, rfl, rfl, rfl, rfl⟩

theorem trans {r'' : Routine} (h : r.Restyled r') (h' : r'.Restyled r'') : r.Restyled r'' where
  args := h'.args.trans h.args
  vars := h'.vars.trans h.vars
  returns := h'.returns.trans h.returns
  links := h'.links.trans h.links
  payloads := h'.payloads.trans h.payloads

theorem payload?_eq (h : r.Restyled r') (id : NodeId) :
    (r'.nodes.get? id).map Node.payload = (r.nodes.get? id).map Node.payload := by
  rw [← NodeMap.lookup_payloads, ← NodeMap.lookup_payloads, h.payloads]

theorem contains_eq (h : r.Restyled r') (id : NodeId) : r'.nodes.contains id = r.nodes.contains id := by
  have hsome := congrArg Option.isSome (h.payload?_eq id)
  rwa [Option.isSome_map, Option.isSome_map] at hsome

theorem traversal_eq (h : r.Restyled r') : r'.traversal = r.traversal := by
  rw [traversal, traversal, NodeMap.ids_eq_payloads, NodeMap.ids_eq_payloads, h.payloads, h.links]

theorem start?_eq (h : r.Restyled r') : r'.start? = r.start? := by
  have hfind : ∀ r : Routine, r.start? =
      (r.nodes.payloads.find? fun e => e.2 = .start).map Prod.fst := by
    intro r
    simp [start?, NodeMap.payloads, List.find?_map, Function.comp_def]
  rw [hfind, hfind, h.payloads]

theorem header_eq (h : r.Restyled r') (name : String) : r'.header name = r.header name := by
  rw [header, header, h.args, h.returns]

theorem variablesOf_eq (h : r.Restyled r') (t : ValueType) : r'.variablesOf t = r.variablesOf t := by
  rw [variablesOf, variablesOf, h.vars]

end Routine.Restyled

theorem RestyledEntry.refl (e : String × Routine) : RestyledEntry e e := ⟨rfl, .refl e.2⟩

theorem AllRestyled.refl (rs : Table Routine) : AllRestyled rs rs :=
  List.forall₂_same.mpr fun e _ => .refl e

namespace Scope.Restyled

theorem refl (s : Scope) : s.Restyled s := by
  cases s with
  | none => exact .none
  | some rs => exact .some (.refl rs)

end Scope.Restyled

theorem AllRestyled.get? {rs rs' : Table Routine} (h : AllRestyled rs rs') (name : String) :
    Option.Rel Routine.Restyled (rs.get? name) (rs'.get? name) := by
  have hlookup : ∀ {es es' : List (String × Routine)},
      List.Forall₂ RestyledEntry es es' →
        Option.Rel Routine.Restyled (es.lookup name) (es'.lookup name) := by
    intro es es' hes
    induction hes with
    | nil => exact .none
    | @cons e e' es es' he _ ih =>
      rw [Entries.lookup_cons, Entries.lookup_cons, he.1]
      split
      · exact .some he.2
      · exact ih
  exact hlookup h

namespace Scope.Restyled

variable {s t : Scope}

theorem callee? (h : s.Restyled t) (name : String) :
    Option.Rel Routine.Restyled (s.callee? name) (t.callee? name) := by
  cases h with
  | none => exact .none
  | some hrs => exact hrs.get? name

/-- Callees take and give the same. -/
theorem agree (h : s.Restyled t) : s.Agree t := by
  intro name
  have hcallee := h.callee? name
  generalize s.callee? name = a at hcallee ⊢
  generalize t.callee? name = b at hcallee ⊢
  cases hcallee with
  | none => rfl
  | some hab => simp only [Option.map_some, hab.args, hab.returns]

theorem arity?_eq (h : s.Restyled t) (name : String) : t.arity? name = s.arity? name := by
  have hargs := congrArg (Option.map fun x : Table ValueType × ValueType => x.1.size) (h.agree name)
  simp only [Option.map_map] at hargs
  exact hargs.symm

end Scope.Restyled

namespace Routine.Restyled

variable {r r' : Routine} {s t : Scope}

theorem layout_eq (h : r.Restyled r') (hs : s.Restyled t) (p : Payload) :
    r'.layout t p = r.layout s p :=
  (layout_congr h.args.symm h.vars.symm hs.agree p).symm

theorem checkLink_eq (h : r.Restyled r') (hs : s.Restyled t) (l : Link) :
    r'.checkLink t l = r.checkLink s l :=
  (checkLink_congr h.args.symm h.vars.symm hs.agree (h.payload?_eq _).symm (h.payload?_eq _).symm).symm

theorem undeclared?_eq (h : r.Restyled r') (hs : s.Restyled t) (p : Payload) :
    r'.undeclared? t p = r.undeclared? s p := by
  cases p with
  | process name =>
    cases hs with
    | none => rfl
    | @some rs rs' hrs =>
      have hknown : rs'.contains name = rs.contains name := by
        have hget := hrs.get? name
        rw [Table.contains, Table.contains]
        generalize rs.get? name = a at hget ⊢
        generalize rs'.get? name = b at hget ⊢
        cases hget <;> rfl
      simp only [undeclared?, Option.bind_some, hknown]
  | argument name => simp only [undeclared?, h.args]
  | fetch name => simp only [undeclared?, h.vars]
  | assign name v => simp only [undeclared?, h.vars]
  | _ => rfl

theorem unconnected_eq (h : r.Restyled r') (hs : s.Restyled t) (id : NodeId) (p : Payload) :
    r'.unconnected t id p = r.unconnected s id p := by
  rw [unconnected, unconnected, h.layout_eq hs, h.links]

section Findings

variable (name : String)

theorem endpointFindings_eq (h : r.Restyled r') :
    r'.endpointFindings name = r.endpointFindings name := by
  have hdangles : r'.dangles = r.dangles := by
    funext l
    rw [dangles, dangles, h.contains_eq, h.contains_eq]
  simp only [endpointFindings, danglingLinks, hdangles, h.links, h.contains_eq]

theorem linkFindings_eq (h : r.Restyled r') (hs : s.Restyled t) :
    r'.linkFindings t name = r.linkFindings s name := by
  simp only [linkFindings, dangles, h.links, h.contains_eq, h.checkLink_eq hs]

theorem referenceFindings_eq (h : r.Restyled r') (hs : s.Restyled t) :
    r'.referenceFindings t name = r.referenceFindings s name := by
  have hpayloads : ∀ (r : Routine) (s : Scope), r.referenceFindings s name =
      r.nodes.payloads.filterMap fun e =>
        (r.undeclared? s e.2).map fun used => ⟨name, some e.1, none, .unknownReference used⟩ := by
    intro r s
    rw [referenceFindings, NodeMap.payloads, List.filterMap_map]
    rfl
  rw [hpayloads, hpayloads, h.payloads]
  simp only [h.undeclared?_eq hs]

theorem connectionFindings_eq (h : r.Restyled r') (hs : s.Restyled t) :
    r'.connectionFindings t name = r.connectionFindings s name := by
  rw [connectionFindings, connectionFindings, h.start?_eq]
  cases r.start? with
  | none => rfl
  | some start =>
    have hpayloads : ∀ (r : Routine) (s : Scope) (reached : List NodeId),
        ((r.nodes.entries.filter fun e => reached.contains e.1).flatMap fun e =>
          (r.unconnected s e.1 e.2.payload).map fun port =>
            (⟨name, some e.1, some port, .missingConnection⟩ : Finding)) =
        (r.nodes.payloads.filter fun e => reached.contains e.1).flatMap fun e =>
          (r.unconnected s e.1 e.2).map fun port => ⟨name, some e.1, some port, .missingConnection⟩ := by
      intro r s reached
      rw [NodeMap.payloads, List.filter_map, List.flatMap_map]
      rfl
    simp only [hpayloads]
    simp only [h.payloads, h.links, h.unconnected_eq hs]

/-- The report does not look at the looks. -/
theorem report_eq (h : r.Restyled r') (hs : s.Restyled t) : r'.report t name = r.report s name := by
  have hconflicts : r'.conflictFindings name = r.conflictFindings name := by
    rw [conflictFindings, conflictFindings, h.links]
  have hcycles : r'.cycleFindings name = r.cycleFindings name := by
    rw [cycleFindings, cycleFindings, h.traversal_eq]
  rw [report, report, h.endpointFindings_eq, hconflicts, h.linkFindings_eq name hs,
    h.referenceFindings_eq name hs, h.connectionFindings_eq name hs, hcycles]

end Findings

end Routine.Restyled

namespace Site

variable {s t : Site}

/-- A node that is written reads of its routine the links and the names of the arguments. -/
theorem synthesize_congr (hid : t.id = s.id) (hlinks : t.routine.links = s.routine.links)
    (hargs : t.routine.args = s.routine.args) (hscope : t.scope = s.scope)
    (hoffers : t.offers = s.offers) (p : Payload) : t.synthesize p = s.synthesize p := by
  have hsame : s.SameOutline t := ⟨hid, hlinks, hargs, fun e => by rw [hoffers]⟩
  have hinput : ∀ port, t.input? port = s.input? port := by
    intro port
    rw [input?, input?, hid, hlinks, hoffers]
  have hvalue : ∀ literal port, t.value literal port = s.value literal port := by
    intro literal port
    cases literal with
    | none => rw [value, value, hinput]
    | some v => rfl
  have hoperand : ∀ literal port, t.operand literal port = s.operand literal port := by
    intro literal port
    cases literal with
    | none => rw [operand, operand, hinput]
    | some v => rfl
  have harguments : ∀ base literals, t.arguments base literals = s.arguments base literals := by
    intro base literals
    simp only [arguments_eq_mapIdx, hvalue]
  have hloose : t.looseArguments = s.looseArguments := by
    rw [looseArguments, looseArguments, incomingValues, incomingValues, hid, hlinks, hoffers]
  cases p with
  | start => simp only [synthesize, hargs]
  | argument name => rfl
  | fetch name => simp only [synthesize, hsame.outgoing_eq]
  | assign name v => simp only [synthesize, assignment, hinput, hvalue]
  | ending e => cases e <;> simp only [synthesize, ending, hvalue, hsame.missingAt_eq]
  | operation o => simp only [synthesize, operationText, hoperand, hsame.missingAt_eq]
  | condition c => simp only [synthesize, conditionText, hoperand, hsame.missingAt_eq]
  | branch b => simp only [synthesize, branch, hsame.flowTarget?_eq, hvalue, hsame.missingAt_eq]
  | jump => simp only [synthesize, jump, hsame.outgoing_eq]
  | call c => simp only [synthesize, call, harguments, hsame.missingFrom_eq]
  | process name =>
    simp only [synthesize, process, hscope, harguments, hloose, hsame.outgoing_eq, hsame.missingFrom_eq]

end Site

namespace Routine.Restyled

variable {r r' : Routine} {s t : Scope}

theorem contributions_eq (h : r.Restyled r') (scope : Scope) (offers : Offers) (ids : List NodeId) :
    r'.contributions scope offers ids = r.contributions scope offers ids := by
  induction ids generalizing offers with
  | nil => rfl
  | cons id ids ih =>
    have hpayload := h.payload?_eq id
    cases hn : r.nodes.get? id with
    | none =>
      have hn' : r'.nodes.get? id = none := by simpa [hn] using hpayload
      simp only [contributions, hn, hn']
      exact ih offers
    | some n =>
      rw [hn, Option.map_some] at hpayload
      obtain ⟨n', hn', hsame⟩ := Option.map_eq_some_iff.mp hpayload
      have hsite := Site.synthesize_congr (s := ⟨id, r, scope, offers⟩) (t := ⟨id, r', scope, offers⟩)
        rfl h.links h.args rfl rfl n.payload
      rw [contributions_cons hn, contributions_cons hn', hsame, hsite]
      simp only [ih]

/-- Neither does the code, nor what is told of it. -/
theorem generate_eq (h : r.Restyled r') (hs : s.Restyled t) (firstLine : Nat) (name : String) :
    r'.generate t firstLine name = r.generate s firstLine name := by
  have hcallees : r'.generate t firstLine name = r'.generate s firstLine name :=
    generate_congr (fun callee _ => hs.arity?_eq callee) firstLine name
  have hpreamble : r'.preamble firstLine name = r.preamble firstLine name := by
    simp only [preamble_eq, declarationLines, h.header_eq, h.variablesOf_eq]
  rw [hcallees]
  simp only [generate, listing_draft, diagnostics_draft, blocks, hpreamble, h.traversal_eq,
    h.contributions_eq, h.variablesOf_eq]

end Routine.Restyled

namespace AllRestyled

variable {rs rs' : Table Routine}

theorem trans {rs'' : Table Routine} (h : AllRestyled rs rs') (h' : AllRestyled rs' rs'') :
    AllRestyled rs rs'' := by
  have hentries : ∀ {es es' es'' : List (String × Routine)}, List.Forall₂ RestyledEntry es es' →
      List.Forall₂ RestyledEntry es' es'' → List.Forall₂ RestyledEntry es es'' := by
    intro es es' es'' hes
    induction hes generalizing es'' with
    | nil => exact id
    | cons he _ ih =>
      intro hes'
      cases hes' with
      | cons he' hrest => exact .cons ⟨he'.1.trans he.1, he.2.trans he'.2⟩ (ih hrest)
  exact hentries h h'

/-- What is computed of every routine in its scope is the same for both tables. -/
theorem map_eq {α : Type} (h : AllRestyled rs rs') (f : Scope → String → Routine → α)
    (hf : ∀ {name r r'}, r.Restyled r' → f (some rs') name r' = f (some rs) name r) :
    rs'.entries.map (fun e => f (some rs') e.1 e.2) = rs.entries.map fun e => f (some rs) e.1 e.2 := by
  have hentries : ∀ {es es' : List (String × Routine)},
      List.Forall₂ RestyledEntry es es' →
        es'.map (fun e => f (some rs') e.1 e.2) = es.map fun e => f (some rs) e.1 e.2 := by
    intro es es' hes
    induction hes with
    | nil => rfl
    | cons he _ ih => rw [List.map_cons, List.map_cons, ih, he.1, hf he.2]
  exact hentries h

theorem report_eq (h : AllRestyled rs rs') : Report.ofRoutines rs' = Report.ofRoutines rs := by
  have hreports := h.map_eq (fun scope name r => (r.report scope name).findings)
    fun hr => by rw [hr.report_eq _ (.some h)]
  rw [Report.ofRoutines, Report.ofRoutines, List.flatMap_def, List.flatMap_def,
    hreports]

theorem partsOf_eq (h : AllRestyled rs rs') (firstLine : Nat) :
    Program.partsOf rs' firstLine = Program.partsOf rs firstLine :=
  h.map_eq (fun scope name r => r.generate scope firstLine name)
    fun hr => hr.generate_eq (.some h) firstLine _

theorem compileRoutines_eq (h : AllRestyled rs rs') (o : Options) :
    compileRoutines o rs' = compileRoutines o rs := by
  simp only [compileRoutines, h.report_eq, h.partsOf_eq]

end AllRestyled

/-- Edits that change the looks of a node. -/
def NodeEdit.restyles : NodeEdit → Bool
  | move .. => true
  | setEdit .. => true
  | _ => false

def ProjectEdit.restyles : ProjectEdit → Bool
  | nodes _ e => e.restyles
  | _ => false

theorem NodeEdit.payloads_of_apply {m m' : NodeMap} {e : NodeEdit} {id : NodeId}
    (he : e.restyles = true) (h : e.apply m = .ok (m', id)) : m'.payloads = m.payloads := by
  cases e with
  | move id position =>
    obtain ⟨n, hn, h⟩ := exists_ok_of_bind h
    obtain ⟨rfl, rfl⟩ := Prod.mk.inj (Except.ok.inj h)
    exact NodeMap.payloads_insert (NodeMap.get?_of_find hn) rfl
  | setEdit id edit =>
    obtain ⟨n, hn, h⟩ := exists_ok_of_bind h
    obtain ⟨rfl, rfl⟩ := Prod.mk.inj (Except.ok.inj h)
    exact NodeMap.payloads_insert (NodeMap.get?_of_find hn) rfl
  | add | replace | setLiteral | delete => cases he

theorem NodeEdit.restyled_applyD (r : Routine) {e : NodeEdit} (he : e.restyles = true) :
    r.Restyled { r with nodes := e.applyD r.nodes } := by
  refine ⟨rfl, rfl, rfl, rfl, ?_⟩
  simp only [applyD]
  split
  · next result happly => exact payloads_of_apply he happly
  · rfl

namespace Project

theorem allRestyled_setRoutine {p : Project} {name : String} {r r' : Routine}
    (hr : p.routines.get? name = some r) (h : r.Restyled r') :
    AllRestyled p.routines (p.setRoutine name r').routines := by
  have hput : ∀ {es : List (String × Routine)}, es.lookup name = some r →
      List.Forall₂ RestyledEntry es (Entries.put name r' es) := by
    intro es hes
    induction es with
    | nil => cases hes
    | cons e es ih =>
      have hrefl : List.Forall₂ RestyledEntry es es := List.forall₂_same.mpr fun e _ => .refl e
      rw [Entries.lookup_cons] at hes
      by_cases he : e.1 = name
      · rw [if_pos he.symm] at hes
        rw [Entries.put, if_pos he]
        exact .cons ⟨he.symm, Option.some.inj hes ▸ h⟩ hrefl
      · rw [if_neg fun heq => he heq.symm] at hes
        rw [Entries.put, if_neg he]
        exact .cons (.refl e) (ih hes)
  exact hput hr

/-- One edit of looks, accepted or refused. -/
theorem allRestyled_applyD (p : Project) {e : ProjectEdit} (he : e.restyles = true) :
    AllRestyled p.routines (e.applyD p).routines := by
  simp only [ProjectEdit.applyD]
  split
  · next result happly =>
    cases e with
    | nodes name e =>
      obtain ⟨⟨p', id⟩, hdone, rfl⟩ := exists_ok_of_map happly
      obtain ⟨r, hr, hdone⟩ := exists_ok_of_bind hdone
      obtain ⟨⟨r', id'⟩, hr', hdone⟩ := exists_ok_of_bind hdone
      obtain ⟨rfl, rfl⟩ := Prod.mk.inj (Except.ok.inj hdone)
      apply allRestyled_setRoutine (get?_of_routine hr)
      simp only [Routine.updateNodes] at hr'
      split at hr'
      · next nodes _ hnodes =>
        obtain ⟨rfl, rfl⟩ := Prod.mk.inj (Except.ok.inj hr')
        exact ⟨rfl, rfl, rfl, rfl, NodeEdit.payloads_of_apply he hnodes⟩
      · cases hr'
    | _ => cases he
  · exact .refl p.routines

theorem allRestyled_run (p : Project) {es : List ProjectEdit} (hes : ∀ e ∈ es, e.restyles = true) :
    AllRestyled p.routines (p.run es).routines := by
  induction es generalizing p with
  | nil => exact .refl p.routines
  | cons e es ih =>
    have hfirst := p.allRestyled_applyD (hes e List.mem_cons_self)
    exact hfirst.trans (ih (e.applyD p) fun e' he' => hes e' (List.mem_cons_of_mem e he'))

end Project

/-- Routines and scopes that differ in looks only have the same order of writing, the same report and
the same code, alone and compiled together under any options. So moving nodes and turning their edit
flags, in a routine or over a whole session, changes no report and no code. -/
theorem restyled_compiles_alike :
    (∀ (r r' : Routine) (s s' : Scope), r.Restyled r' → s.Restyled s' →
      r'.traversal = r.traversal ∧ ∀ name, r'.report s' name = r.report s name ∧
        (∀ firstLine, r'.generate s' firstLine name = r.generate s firstLine name) ∧
        ∀ o, compileRoutine o name r' = compileRoutine o name r) ∧
    (∀ rs rs' : Table Routine, AllRestyled rs rs' →
      Report.ofRoutines rs' = Report.ofRoutines rs ∧ Program.ofRoutines rs' = Program.ofRoutines rs ∧
        ∀ o, compileRoutines o rs' = compileRoutines o rs) ∧
    (∀ (r : Routine) (e : NodeEdit), e.restyles = true → ∀ (s : Scope) (name : String),
      let r' : Routine := { r with nodes := e.applyD r.nodes }
      r'.report s name = r.report s name ∧
        ∀ firstLine, r'.generate s firstLine name = r.generate s firstLine name) ∧
    ∀ (p : Project) (es : List ProjectEdit), (∀ e ∈ es, e.restyles = true) →
      Report.ofRoutines (p.run es).routines = Report.ofRoutines p.routines ∧
        Program.ofRoutines (p.run es).routines = Program.ofRoutines p.routines ∧
        ∀ o, compileRoutines o (p.run es).routines = compileRoutines o p.routines := by
  have htables : ∀ {rs rs' : Table Routine}, AllRestyled rs rs' →
      Report.ofRoutines rs' = Report.ofRoutines rs ∧ Program.ofRoutines rs' = Program.ofRoutines rs ∧
        ∀ o, compileRoutines o rs' = compileRoutines o rs := by
    intro rs rs' h
    refine ⟨h.report_eq, ?_, h.compileRoutines_eq⟩
    rw [Program.ofRoutines, Program.ofRoutines, h.partsOf_eq]
  refine ⟨?_, fun rs rs' h => htables h, ?_, fun p es hes => htables (p.allRestyled_run hes)⟩
  · intro r r' s s' h hs
    refine ⟨h.traversal_eq, fun name => ⟨h.report_eq name hs, fun firstLine => ?_, fun o => ?_⟩⟩
    · exact h.generate_eq hs firstLine name
    · simp only [compileRoutine, h.report_eq name .none, h.generate_eq .none]
  · intro r e he s name r'
    have h := NodeEdit.restyled_applyD r he
    exact ⟨h.report_eq name (.refl s), fun firstLine => h.generate_eq (.refl s) firstLine name⟩

/-- A routine that hands on its arguments, drawn anew: other names, a start that is not locked, an end
that is being edited and a call in another place. -/
def Routine.swappingRedrawn : Routine :=
  { swapping with
    nodes := .ofList
      [(0, { Node.start with name := "Entry", locked := false }),
       (1, { Node.ofPayload "Result" (.returnLinked .uint64) with edit := true }),
       (2, (Node.ofPayload "Swap" (.process "first")).placed 120 40)] }

/-- The call and its callee compile to the same program however the caller is drawn. -/
theorem restyled_compiles_alike_swapping :
    let rs := Project.swap.routines
    let rs' : Table Routine := .ofList [("F", Routine.swappingRedrawn), ("first", Routine.firstOf)]
    Routine.swapping.Restyled Routine.swappingRedrawn ∧ AllRestyled rs rs' ∧
      Routine.swappingRedrawn.nodes.entries.map (·.2.name) ≠
        Routine.swapping.nodes.entries.map (·.2.name) ∧
      Routine.swappingRedrawn.traversal = Routine.swapping.traversal ∧
      Routine.swappingRedrawn.report (some rs') "F" = Routine.swapping.report (some rs) "F" ∧
      Routine.swappingRedrawn.generate (some rs') 7 "F" = Routine.swapping.generate (some rs) 7 "F" ∧
      compileRoutines .standard rs' = compileRoutines .standard rs := by
  intro rs rs'
  have hroutine : Routine.swapping.Restyled Routine.swappingRedrawn :=
    ⟨rfl, rfl, rfl, rfl, by decide⟩
  have htables : AllRestyled rs rs' :=
    .cons (a := ("F", Routine.swapping)) ⟨rfl, hroutine⟩ (.cons (.refl ("first", Routine.firstOf)) .nil)
  obtain ⟨halone, htogether, -⟩ := restyled_compiles_alike
  obtain ⟨horder, hname⟩ := halone _ _ (some rs) (some rs') hroutine (.some htables)
  obtain ⟨hreport, hcode, -⟩ := hname "F"
  obtain ⟨-, -, hcompiled⟩ := htogether rs rs' htables
  exact ⟨hroutine, htables, by decide, horder, hreport, hcode 7, hcompiled .standard⟩

end FlowBasic
