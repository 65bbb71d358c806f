import FlowBasic.Proofs.TraversalOrder
import FlowBasic.Synthesis
import Mathlib.Data.FinEnum
import Mathlib.Data.Fintype.Card

namespace FlowBasic

/-- Whether the text of the node's value has to stand in parentheses as an operand. -/
def Payload.isInfix : Payload → Bool
  | .operation _ => true
  | .condition _ => true
  | _ => false

/-- What is written for an operand: its literal, or what is linked to it. -/
def Literal.orLinked (literal : Option Literal) (linked : String) : String :=
  literal.elim linked Literal.render

namespace Routine

/-- A value of the first node is read by the second. -/
def Feeds (r : Routine) (a b : NodeId) : Prop :=
  ∃ l ∈ r.links, l.isFlow = false ∧ l.source.node = a ∧ l.sink.node = b

/-- No link that carries a value lies on a cycle of links. -/
def ValueAcyclic (r : Routine) : Prop :=
  ∀ l ∈ r.links, l.isFlow = false → ¬ Relation.ReflTransGen r.Linked l.sink.node l.source.node

theorem Feeds.linked {r : Routine} {a b : NodeId} (h : r.Feeds a b) : r.Linked a b := by
  obtain ⟨l, hl, _, hsource, hsink⟩ := h
  exact ⟨l, hl, hsource, hsink⟩

theorem ValueAcyclic.irrefl {r : Routine} (h : r.ValueAcyclic) (a : NodeId) :
    ¬ Relation.TransGen r.Feeds a a := by
  intro hcycle
  obtain ⟨b, ⟨l, hl, hvalue, rfl, rfl⟩, hback⟩ := Relation.TransGen.head'_iff.mp hcycle
  exact h l hl hvalue (Relation.ReflTransGen.mono (fun _ _ => Feeds.linked) _ _ hback)

theorem ValueAcyclic.wellFounded {r : Routine} (h : r.ValueAcyclic) : WellFounded r.Feeds := by
  have hirrefl : Std.Irrefl (Relation.TransGen r.Feeds) := ⟨h.irrefl⟩
  exact Subrelation.wf Relation.TransGen.single (Finite.wellFounded_of_trans_of_irrefl _)

/-- The output that the value on an input port comes from. -/
def feeder? (r : Routine) (id : NodeId) (port : Nat) : Option Endpoint :=
  (r.links.find? fun l => !l.isFlow && l.enters id port).map Link.source

theorem feeds_of_feeder? {r : Routine} {id : NodeId} {port : Nat} {e : Endpoint}
    (h : r.feeder? id port = some e) : r.Feeds e.node id := by
  obtain ⟨l, hfind, rfl⟩ := Option.map_eq_some_iff.mp h
  have henters := List.find?_some hfind
  simp only [Link.enters, Bool.and_eq_true, Bool.not_eq_true', decide_eq_true_eq] at henters
  exact ⟨l, List.mem_of_find?_eq_some hfind, henters.1, rfl, henters.2.1⟩

/-- The input ports of a node that values come in by, in order. -/
def linkedPorts (r : Routine) (id : NodeId) : List Nat :=
  ((r.links.filter fun l => l.sink.node = id && !l.isFlow).map (·.sink.port.toNat)).mergeSort

/-- Where control goes by an output port. -/
def flowSink? (r : Routine) (id : NodeId) (port : Nat) : Option NodeId :=
  (r.links.find? fun l => l.isFlow && l.leaves id port).map (·.sink.node)

/-- The arguments of a callee that is known stand at the ports from 2 on. -/
def processText (r : Routine) (scope : Scope) (id : NodeId) (name : String)
    (input : Nat → Expression) : String :=
  Site.callText name <|
    match scope.callee? name with
    | some callee => (List.range callee.args.size).map fun i => (input (2 + i)).text
    | none => (r.linkedPorts id).map fun port => (input port).text

end Routine

def Call.textWith (c : Call) (input : Nat → Expression) : String :=
  Site.callText c.builtin.name <|
    c.args.values.mapIdx fun i slot => Literal.orLinked slot.literal? (input (c.argBase + i)).text

namespace Routine

/-- The text of a node's value on an output port, given the expressions on its input ports. -/
def valueText (r : Routine) (scope : Scope) (e : Endpoint) (input : Nat → Expression) :
    Payload → String
  | .start =>
    match e.port.toNat with
    | 0 => ""
    | i + 1 => (r.args.keys[i]?).getD ""
  | .argument name => name
  | .fetch name => name
  | .operation o =>
    let left := Literal.orLinked (o.operand? .left) (input 0).asOperand
    if o.isUnary then o.symbol ++ left
    else left ++ " " ++ o.symbol ++ " " ++ Literal.orLinked (o.operand? .right) (input 1).asOperand
  | .condition c =>
    Literal.orLinked (c.operand? .left) (input 0).asOperand ++ " " ++ c.symbol ++ " " ++
      Literal.orLinked (c.operand? .right) (input 1).asOperand
  | .call c => c.textWith input
  | .process name => r.processText scope e.node name input
  | _ => ""

/-- The expression on an output port, by recursion along the links that carry values. -/
def expression (r : Routine) (scope : Scope) (h : r.ValueAcyclic) (e : Endpoint) : Expression :=
  match r.nodes.get? e.node with
  | none => .atom ""
  | some n =>
    let input (port : Nat) : Expression :=
      match _hfeeder : r.feeder? e.node port with
      | none => .atom ""
      | some source => r.expression scope h source
    ⟨r.valueText scope e input n.payload, n.payload.isInfix⟩
termination_by h.wellFounded.wrap e.node
decreasing_by exact feeds_of_feeder? _hfeeder

/-- The expression on an input port. -/
def inputExpression (r : Routine) (scope : Scope) (h : r.ValueAcyclic) (id : NodeId) (port : Nat) :
    Expression :=
  match r.feeder? id port with
  | none => .atom ""
  | some source => r.expression scope h source

theorem expression_eq {r : Routine} (scope : Scope) (h : r.ValueAcyclic) {e : Endpoint} {n : Node}
    (hn : r.nodes.get? e.node = some n) :
    r.expression scope h e =
      ⟨r.valueText scope e (r.inputExpression scope h e.node) n.payload, n.payload.isInfix⟩ := by
  have hinput : (fun port => match r.feeder? e.node port with
      | none => Expression.atom ""
      | some source => r.expression scope h source) = r.inputExpression scope h e.node := rfl
  rw [expression, hn, ← hinput]
  simp only
  congr 2
  funext port
  split <;> simp_all

/-- The statements of a node, with the expressions on its input ports in place. -/
def written (r : Routine) (scope : Scope) (h : r.ValueAcyclic) (id : NodeId) :
    Payload → List Statement
  | .assign name v =>
    [[.text ("LET " ++ name ++ " = " ++
      Literal.orLinked v.literal? (r.inputExpression scope h id 2).text)]]
  | .ending .abort => [[.text "PANIC"]]
  | .ending (.result _ v) =>
    let result := Literal.orLinked v (r.inputExpression scope h id 1).text
    [[.text (if result = "" then "RETURN" else "RETURN " ++ result)]]
  | .branch b =>
    let condition := (r.inputExpression scope h id 1).text
    (r.flowSink? id 2).toList.map fun target =>
      [.text ("IF (" ++ condition ++ ") THEN GOTO "), .jump target] ++
        match b, r.flowSink? id 3 with
        | .ifElse, some other => [.text " ELSE GOTO ", .jump other]
        | _, _ => []
  | .jump => (r.flowSink? id 1).toList.map fun target => [.text "GOTO ", .jump target]
  | .call c => if c.asProcess then [[.text (c.textWith (r.inputExpression scope h id))]] else []
  | .process name =>
    if r.links.any fun l => !l.isFlow && l.source.node = id then []
    else [[.text (r.processText scope id name (r.inputExpression scope h id))]]
  | _ => []

/-- Every node stands after those whose values it reads. -/
def ProducersFirst (r : Routine) (order : List NodeId) : Prop :=
  ∀ a b, r.Feeds a b → Precedes order a b

theorem ValueAcyclic.producersFirst {r : Routine} (h : r.ValueAcyclic)
    (hends : ∀ l ∈ r.links, l.source.node ∈ r.nodes.ids ∧ l.sink.node ∈ r.nodes.ids) :
    r.ProducersFirst r.traversal.order := by
  intro a b hfeeds
  obtain ⟨l, hl, hvalue, rfl, rfl⟩ := hfeeds
  obtain ⟨hsource, hsink⟩ := hends l hl
  rw [← NodeMap.contains_iff] at hsource hsink
  rcases r.precedes_or_cycle hl hsource hsink with hprecedes | hcycle
  · exact hprecedes
  · exact absurd hcycle (h l hl hvalue)

/-- Along a rank that no link lowers and every value raises, no value comes back. -/
theorem valueAcyclic_of_rank {r : Routine} (rank : NodeId → Nat)
    (hrank : ∀ l ∈ r.links, rank l.source.node + (if l.isFlow then 0 else 1) ≤ rank l.sink.node) :
    r.ValueAcyclic := by
  have hpath : ∀ {a b : NodeId}, Relation.ReflTransGen r.Linked a b → rank a ≤ rank b := by
    intro a b hab
    induction hab with
    | refl => exact Nat.le_refl _
    | tail _ hlast ih =>
      obtain ⟨l, hl, rfl, rfl⟩ := hlast
      exact ih.trans ((Nat.le_add_right _ _).trans (hrank l hl))
  intro l hl hvalue hcycle
  have hraised := hrank l hl
  have hback := hpath hcycle
  simp only [hvalue, Bool.false_eq_true, if_false] at hraised
  omega

end Routine

end FlowBasic
