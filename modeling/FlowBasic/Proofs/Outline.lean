import FlowBasic.Proofs.Emission

namespace FlowBasic

/-- The nodes that a statement jumps to. -/
def Statement.targets (st : Statement) : List NodeId :=
  st.filterMap fun
    | .text _ => none
    | .jump target => some target

/-- The missed inputs, the jumps of each statement and the ports that something is offered on. -/
def Synthesis.outline (s : Synthesis) : List Nat × List (List NodeId) × List Nat :=
  (s.missing, s.statements.map Statement.targets, s.outputs.map Prod.fst)

def Line.outline (line : Line) : Option NodeId × List NodeId :=
  (line.owner, Statement.targets line.statement)

/-- Two listings have the same lines as far as numbers and jumps go. -/
structure Listing.SameOutline (l m : Listing) : Prop where
  firstLine : l.firstLine = m.firstLine
  lines : l.lines.map Line.outline = m.lines.map Line.outline
  starts : l.starts = m.starts

namespace Listing.SameOutline

variable {l m : Listing}

theorem nextLine (h : l.SameOutline m) : l.nextLine = m.nextLine := by
  have hlength := congrArg List.length h.lines
  simp only [List.length_map] at hlength
  rw [Listing.nextLine, Listing.nextLine, h.firstLine, hlength]

theorem resolve? (h : l.SameOutline m) (target : NodeId) : l.resolve? target = m.resolve? target := by
  rw [Listing.resolve?, Listing.resolve?, h.starts, h.nextLine]

theorem pushNode (h : l.SameOutline m) (id : NodeId) {sts sts' : List Statement}
    (hsts : sts.map Statement.targets = sts'.map Statement.targets) :
    (l.pushNode id sts).SameOutline (m.pushNode id sts') where
  firstLine := h.firstLine
  lines := by
    have hown : ∀ sts : List Statement, (sts.map fun st => (⟨some id, st⟩ : Line)).map Line.outline =
        (sts.map Statement.targets).map fun targets => (some id, targets) := by
      intro sts
      simp [Line.outline, Function.comp_def]
    simp only [Listing.pushNode, List.map_append, h.lines, hown, hsts]
  starts := by simp only [Listing.pushNode, h.starts, h.nextLine]

theorem pushNodes (h : l.SameOutline m) {bs cs : List (NodeId × List Statement)}
    (hblocks : bs.map (fun b => (b.1, b.2.map Statement.targets)) =
      cs.map fun c => (c.1, c.2.map Statement.targets)) :
    (l.pushNodes bs).SameOutline (m.pushNodes cs) := by
  induction bs generalizing l m cs with
  | nil =>
    obtain rfl : cs = [] := by simpa using hblocks.symm
    exact h
  | cons b bs ih =>
    cases cs with
    | nil => simp at hblocks
    | cons c cs =>
      simp only [List.map_cons, List.cons.injEq, Prod.mk.injEq] at hblocks
      obtain ⟨⟨hid, hsts⟩, hrest⟩ := hblocks
      rw [Listing.pushNodes_cons, Listing.pushNodes_cons, ← hid]
      exact ih (h.pushNode b.1 hsts) hrest

/-- The jumps that lead nowhere are those of the outline. -/
theorem unresolved (h : l.SameOutline m) : l.unresolved = m.unresolved := by
  have hlines : ∀ l : Listing, l.unresolved = (l.lines.map Line.outline).flatMap fun o =>
      o.2.filterMap fun target =>
        if (l.resolve? target).isNone then some (.unresolvedJump (o.1.getD target) target) else none := by
    intro l
    rw [Listing.unresolved, List.flatMap_map]
    refine List.flatMap_congr ?_
    intro line _
    simp only [Listing.unresolvedIn, Line.outline, Statement.targets, List.filterMap_filterMap]
    refine List.filterMap_congr ?_
    intro f _
    cases f <;> rfl
  simp only [hlines, h.lines, h.resolve?]

end Listing.SameOutline

/-- Two sites at the same node, with something on offer in the same places. -/
structure Site.SameOutline (s t : Site) : Prop where
  id : t.id = s.id
  links : t.routine.links = s.routine.links
  args : t.routine.args = s.routine.args
  offered : ∀ e, (t.offers.get? e).isSome = (s.offers.get? e).isSome

namespace Site.SameOutline

variable {s t : Site}

theorem outgoing_eq (h : s.SameOutline t) : t.outgoing = s.outgoing := by
  rw [outgoing, outgoing, h.id, h.links]

theorem flowTarget?_eq (h : s.SameOutline t) (port : Nat) : t.flowTarget? port = s.flowTarget? port := by
  rw [flowTarget?, flowTarget?, h.outgoing_eq]

theorem isNone_input? (h : s.SameOutline t) (port : Nat) :
    (t.input? port).isNone = (s.input? port).isNone := by
  rw [input?, input?, h.id, h.links]
  cases s.routine.links.find? (·.enters s.id port) with
  | none => rfl
  | some l =>
    have hoffered := h.offered l.source
    simp only [Option.bind_some, ← Option.not_isSome, hoffered]

theorem missingAt_eq (h : s.SameOutline t) (literal : Option Literal) (port : Nat) :
    t.missingAt literal port = s.missingAt literal port := by
  rw [missingAt, missingAt, h.isNone_input?]

theorem missingFrom_eq (h : s.SameOutline t) (base : Nat) (literals : List (Option Literal)) :
    t.missingFrom base literals = s.missingFrom base literals := by
  induction literals generalizing base with
  | nil => rfl
  | cons literal literals ih => rw [missingFrom, missingFrom, h.missingAt_eq, ih]

/-- Calls of two routines with equally many arguments have the same outline. -/
theorem outline_process (h : s.SameOutline t) {name name' : String}
    (hcallee : (t.scope.callee? name').map (·.args.size) = (s.scope.callee? name).map (·.args.size)) :
    (t.process name').outline = (s.process name).outline := by
  simp only [process, h.outgoing_eq, h.missingFrom_eq]
  cases hs : s.scope.callee? name <;> cases ht : t.scope.callee? name' <;>
    simp only [hs, ht, Option.map_none, Option.map_some, Option.some.injEq, reduceCtorEq] at hcallee
  · split
    · rfl
    · simp [Synthesis.outline]
  · simp only [Option.map_some, Option.getD_some, hcallee]
    split
    · rfl
    · simp [Synthesis.outline]

theorem outline_assignment (h : s.SameOutline t) (name : String) (v : TypedSlot) :
    (t.assignment name v).outline = (s.assignment name v).outline := by
  have hinput := h.isNone_input? 2
  rw [assignment, assignment]
  cases v.literal? <;> cases hs : s.input? 2 <;> cases ht : t.input? 2 <;>
    simp_all [Synthesis.outline, Statement.targets]

theorem outline_branch (h : s.SameOutline t) (b : Branch) :
    (t.branch b).outline = (s.branch b).outline := by
  simp only [branch, h.flowTarget?_eq, h.missingAt_eq]
  cases s.flowTarget? 2 with
  | none => rfl
  | some target =>
    cases b <;> cases s.flowTarget? 3 <;> simp [Synthesis.outline, Statement.targets]

/-- What a node that calls no routine leaves out, offers and jumps to is the same at both sites. -/
theorem outline_synthesize (h : s.SameOutline t) {p : Payload} (hp : p.callee? = none) :
    (t.synthesize p).outline = (s.synthesize p).outline := by
  cases p with
  | start => simp only [synthesize, h.args]
  | argument name => rfl
  | fetch name => simp only [synthesize, h.outgoing_eq]
  | assign name v => exact h.outline_assignment name v
  | ending e =>
    cases e with
    | abort => rfl
    | result type v =>
      simp [synthesize, ending, Synthesis.outline, Statement.targets, h.missingAt_eq]
  | operation o =>
    simp only [synthesize, Synthesis.outline, h.missingAt_eq]
    rfl
  | condition c =>
    simp only [synthesize, Synthesis.outline, h.missingAt_eq]
    rfl
  | branch b => exact h.outline_branch b
  | jump => simp only [synthesize, jump, h.outgoing_eq]
  | call c =>
    simp only [synthesize, call, Synthesis.outline, h.missingFrom_eq]
    cases c.asProcess <;> rfl
  | process name => cases hp

end Site.SameOutline

theorem Offers.isSome_get?_cons (id : NodeId) (outputs : Outputs) (offers : Offers) (e : Endpoint) :
    (Offers.get? ((id, outputs) :: offers) e).isSome =
      if e.node = id then (outputs.map Prod.fst).contains e.port.toNat
      else (offers.get? e).isSome := by
  rw [get?, Entries.lookup_cons]
  split
  · rw [Option.bind_some, Bool.eq_iff_iff, Entries.isSome_lookup, List.contains_iff_mem]
  · rfl

namespace Routine

theorem diagnostics_draft (r : Routine) (scope : Scope) (firstLine : Nat) (name : String) :
    (r.draft scope firstLine name).diagnostics =
      (r.variablesOf .any).map .untypedVariable ++
        (r.contributions scope [] r.traversal.order).flatMap fun c =>
          c.2.missing.map (.missingConnection c.1) := by
  rw [draft, foldl_extend]
  rfl

/-- What a routine misses, and the jumps that it writes in vain, are told by the outline of what its
nodes contribute. -/
theorem diagnostics_eq_of_outline {r r' : Routine} {s t : Scope} (hvars : r'.vars = r.vars)
    (houtline : (r'.contributions t [] r'.traversal.order).map (fun c => (c.1, c.2.outline)) =
      (r.contributions s [] r.traversal.order).map fun c => (c.1, c.2.outline))
    (firstLine : Nat) (name name' : String) :
    (r'.generate t firstLine name').diagnostics = (r.generate s firstLine name).diagnostics := by
  have hvariables : ∀ type, r'.variablesOf type = r.variablesOf type := by
    intro type
    rw [variablesOf, variablesOf, hvars]
  have hpreamble : (r'.preamble firstLine name').SameOutline (r.preamble firstLine name) := by
    have hdeclared : r'.declarationLines = r.declarationLines := by
      simp only [declarationLines, hvariables]
    rw [preamble_eq, preamble_eq, hdeclared]
    exact ⟨rfl, rfl, rfl⟩
  have hblocks := congrArg
    (List.map fun o : NodeId × (List Nat × List (List NodeId) × List Nat) => (o.1, o.2.2.1)) houtline
  have hmissing := congrArg
    (List.flatMap fun o : NodeId × (List Nat × List (List NodeId) × List Nat) =>
      o.2.1.map (Diagnostic.missingConnection o.1)) houtline
  simp only [List.map_map, List.flatMap_map] at hblocks hmissing
  have hlisting : (r'.draft t firstLine name').listing.SameOutline (r.draft s firstLine name).listing := by
    rw [listing_draft, listing_draft, blocks, blocks]
    apply hpreamble.pushNodes
    simp only [List.map_map]
    exact hblocks
  have hdraft : (r'.draft t firstLine name').diagnostics = (r.draft s firstLine name).diagnostics := by
    rw [diagnostics_draft, diagnostics_draft, hvariables]
    exact congrArg _ hmissing
  simp only [generate, hdraft, hlisting.unresolved]

end Routine

end FlowBasic
