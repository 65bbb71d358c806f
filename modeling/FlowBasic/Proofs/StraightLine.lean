import FlowBasic.Proofs.BackEdges
import FlowBasic.Proofs.CarriedCalls

namespace FlowBasic

/-- In an order without repetition everything stands before what follows it. -/
theorem pairwise_precedes {order : List NodeId} (h : order.Nodup) : order.Pairwise (Precedes order) := by
  rw [List.pairwise_iff_getElem]
  intro i j hi hj hij
  rw [Precedes, h.idxOf_getElem i hi, h.idxOf_getElem j hj]
  exact hij

/-- What comes in the order of the whole is the part of the whole with the same elements. -/
theorem filter_mem_eq {order path : List NodeId} (horder : order.Nodup)
    (hpath : path.Pairwise (Precedes order)) (hmem : ∀ id ∈ path, id ∈ order) :
    order.filter (· ∈ path) = path := by
  have hnodup : path.Nodup := by
    refine hpath.imp ?_
    intro a b hprecedes heq
    rw [heq] at hprecedes
    exact Nat.lt_irrefl _ hprecedes
  have hperm : (order.filter (· ∈ path)).Perm path := by
    rw [List.perm_ext_iff_of_nodup (horder.filter _) hnodup]
    intro id
    simp only [List.mem_filter, decide_eq_true_eq]
    exact ⟨fun h => h.2, fun h => ⟨hmem id h, h⟩⟩
  -- Both sides are sorted by the place in the order, so having the same elements is enough.
  refine hperm.eq_of_pairwise ?_ ((pairwise_precedes horder).filter _) hpath
  intro a b _ _ hab hba
  exact absurd hba (Nat.lt_asymm hab)

theorem flatMap_eq_flatMap_filter {α β : Type} {p : α → Bool} {f : α → List β} {xs : List α}
    (h : ∀ x ∈ xs, p x = false → f x = []) : xs.flatMap f = (xs.filter p).flatMap f := by
  induction xs with
  | nil => rfl
  | cons x xs ih =>
    have hrest := ih fun y hy => h y (List.mem_cons_of_mem x hy)
    cases hx : p x with
    | true => rw [List.filter_cons_of_pos hx, List.flatMap_cons, List.flatMap_cons, hrest]
    | false =>
      rw [List.filter_cons_of_neg (by simp [hx]), List.flatMap_cons, h x List.mem_cons_self hx, hrest,
        List.nil_append]

theorem mapIdx_map {α β γ : Type} (f : Nat → β → γ) (g : α → β) (xs : List α) :
    (xs.map g).mapIdx f = xs.mapIdx fun i x => f i (g x) := by
  apply List.ext_getElem
  · simp
  · intro i _ _
    simp

/-- The line that declares variables of a type; without variables there is none. -/
def dimLines (t : ValueType) (names : List String) : List String :=
  if names = [] then [] else ["DIM " ++ Site.commaList names ++ " AS " ++ t.name]

theorem Listing.statementText_text (l : Listing) (text : String) : l.statementText [.text text] = text := by
  simp [statementText, fragmentText, String.join]

namespace Routine

/-- The variables of a type, each once and in the order of their declaration. -/
structure DeclaredAs (r : Routine) (t : ValueType) (names : List String) : Prop where
  order : names.Sublist r.vars.keys
  once : names.Nodup
  type : ∀ x, x ∈ names ↔ r.vars.get? x = some t

theorem declaredAs_variablesOf (r : Routine) (t : ValueType) : r.DeclaredAs t (r.variablesOf t) := by
  have horder : (r.variablesOf t).Sublist r.vars.keys := List.filter_sublist.map Prod.fst
  refine ⟨horder, horder.nodup r.vars.nodup, ?_⟩
  intro x
  rw [Table.get?, Entries.lookup_eq_some_iff r.vars.nodup, variablesOf, List.mem_map]
  simp only [List.mem_filter, decide_eq_true_eq]
  constructor
  · intro h
    obtain ⟨e, ⟨he, rfl⟩, rfl⟩ := h
    exact he
  · intro h
    exact ⟨(x, t), ⟨h, rfl⟩, rfl⟩

theorem declarationLines_eq (r : Routine) :
    r.declarationLines =
      dimLines .uint64 (r.variablesOf .uint64) ++ dimLines .string (r.variablesOf .string) := by
  by_cases hnumbers : r.variablesOf .uint64 = [] <;> by_cases htexts : r.variablesOf .string = [] <;>
    simp [declarationLines, dimLines, hnumbers, htexts]

/-- A way that control can take: nodes of the graph, each joined to the next by a flow link. -/
structure Way (r : Routine) (path : List NodeId) : Prop where
  nodes : ∀ id ∈ path, r.nodes.contains id = true
  links : path.IsChain fun a b =>
    ∃ l ∈ r.links, l.isFlow = true ∧ l.source.node = a ∧ l.sink.node = b

variable {r : Routine} {scope : Scope} {path : List NodeId}

theorem Way.joined (h : r.Way path) : path.IsChain r.Joined := by
  refine h.links.imp_of_mem_imp ?_
  intro a b ha hb hlink
  obtain ⟨l, hl, _, rfl, rfl⟩ := hlink
  refine ⟨l, hl, ?_, rfl, rfl⟩
  rw [dangles_eq_false_iff, ← NodeMap.contains_iff, ← NodeMap.contains_iff]
  exact ⟨h.nodes _ ha, h.nodes _ hb⟩

/-- Without back edges a way is the part of the order of writing that its nodes make up. -/
theorem Way.filter_order (h : r.Way path) (hback : r.traversal.backEdges = []) :
    r.traversal.order.filter (· ∈ path) = path := by
  have htrans : Trans (Precedes r.traversal.order) (Precedes r.traversal.order)
      (Precedes r.traversal.order) := ⟨Nat.lt_trans⟩
  have hforward : path.IsChain (Precedes r.traversal.order) :=
    h.joined.imp fun a b hjoined => precedes_of_path hback (.single hjoined)
  exact filter_mem_eq r.nodup_order hforward.pairwise fun id hid => (r.mem_order id).mpr (h.nodes id hid)

theorem lines_of_way (hback : r.traversal.backEdges = []) (hway : r.Way path)
    (hsilent : ∀ id, r.nodes.contains id = true → id ∉ path → r.synthesized scope id = [])
    (firstLine : Nat) (name : String) :
    (r.draft scope firstLine name).listing.lines =
      r.declarationLines.map (fun text => ⟨none, [.text text]⟩) ++
        path.flatMap fun id => (r.synthesized scope id).map (⟨some id, ·⟩) := by
  have hrest : r.traversal.order.flatMap (fun id =>
      (r.synthesized scope id).map fun st => (⟨some id, st⟩ : Line)) =
      (r.traversal.order.filter (· ∈ path)).flatMap fun id =>
        (r.synthesized scope id).map (⟨some id, ·⟩) := by
    apply flatMap_eq_flatMap_filter
    intro id hid hpath
    rw [hsilent id ((r.mem_order id).mp hid) (by simpa using hpath), List.map_nil]
  rw [lines_draft, hrest, hway.filter_order hback]

/-- A straight line, from the start or from wherever it begins, is written in the order in which it is
drawn, after the declarations and with nothing else around it or in between. -/
theorem listing_of_way (hback : r.traversal.backEdges = []) (hway : r.Way path)
    (hsilent : ∀ id, r.nodes.contains id = true → id ∉ path → r.synthesized scope id = [])
    (firstLine : UInt64) (name : String) (hfits : (r.draft scope firstLine.toNat name).listing.Fits) :
    ∃ numbers texts, r.DeclaredAs .uint64 numbers ∧ r.DeclaredAs .string texts ∧
      let l := (r.draft scope firstLine.toNat name).listing
      let dims := dimLines .uint64 numbers ++ dimLines .string texts
      l.lines = dims.map (fun text => ⟨none, [.text text]⟩) ++
          path.flatMap (fun id => (r.synthesized scope id).map (⟨some id, ·⟩)) ∧
        (r.generate scope firstLine.toNat name).code = r.header name ++ "\n" ++
          String.join ((dims ++ (path.flatMap (r.synthesized scope)).map l.statementText).mapIdx
            fun i text => Decimal.text (lineWord firstLine i).toNat ++ "\t" ++ text ++ "\n") ++
          "End Function" ∧
        ∀ i < l.lines.length, (lineWord firstLine i).toNat = firstLine.toNat + i := by
  refine ⟨_, _, r.declaredAs_variablesOf .uint64, r.declaredAs_variablesOf .string, ?_⟩
  intro l dims
  have hlines : l.lines = dims.map (fun text => ⟨none, [.text text]⟩) ++
      path.flatMap fun id => (r.synthesized scope id).map (⟨some id, ·⟩) := by
    rw [lines_of_way hback hway hsilent, declarationLines_eq]
  have htexts : l.lines.map (fun line => l.statementText line.statement) =
      dims ++ (path.flatMap (r.synthesized scope)).map l.statementText := by
    rw [hlines, List.map_append, List.map_map, List.map_flatMap, List.map_flatMap]
    simp only [Function.comp_def, Listing.statementText_text, List.map_map, List.map_id']
  refine ⟨hlines, ?_, fun i hi => hfits.toNat_lineWord (r.firstLine_draft scope _ name) hi.le⟩
  rw [code_generate hfits, ← htexts, mapIdx_map]

/-- A sum that is stored and tested: both branches of the test lead to the end. Variables of three
types are declared, and an operation stands apart. -/
def testedSum : Routine :=
  { isProcess := false
    args := .ofList [("a", .uint64), ("b", .uint64)]
    vars := .ofList [("x", .uint64), ("t", .string), ("u", .any), ("y", .uint64)]
    returns := .uint64
    nodes := .ofList
      [(0, .start),
       (1, .ofPayload "End" (.returnLinked .uint64)),
       (2, .ofPayload "Let" (.assign "x" (.uint64 none))),
       (3, .ofPayload "Operation" (.operation (.uint64 .add .unset))),
       (4, .ofPayload "Operation" (.operation (.uint64 .multiply ⟨some 3, some 2⟩))),
       (5, .ofPayload "Control" (.branch .ifThen)),
       (6, .ofPayload "Variable" (.fetch "x")),
       (7, .ofPayload "Condition" (.condition (.uint64 .lower ⟨none, some 9⟩)))]
    links :=
      [⟨⟨6, 0⟩, ⟨1, 1⟩, .value .uint64⟩, ⟨⟨7, 1⟩, ⟨5, 1⟩, .value .uint64⟩,
       ⟨⟨5, 2⟩, ⟨1, 0⟩, .flow⟩, ⟨⟨5, 3⟩, ⟨1, 0⟩, .flow⟩, ⟨⟨6, 0⟩, ⟨7, 0⟩, .value .uint64⟩,
       ⟨⟨2, 1⟩, ⟨5, 0⟩, .flow⟩, ⟨⟨0, 0⟩, ⟨2, 0⟩, .flow⟩, ⟨⟨3, 1⟩, ⟨2, 2⟩, .value .uint64⟩,
       ⟨⟨0, 1⟩, ⟨3, 0⟩, .value .uint64⟩, ⟨⟨0, 2⟩, ⟨3, 1⟩, .value .uint64⟩] }

/-- The search begins at what stands apart and visits the line and its operands in turn. -/
theorem listing_of_way_testedSum :
    let r := testedSum
    r.traversal.order = [6, 7, 4, 0, 3, 2, 5, 1] ∧ r.traversal.backEdges = [] ∧ r.IsStart 0 ∧
      r.Way [0, 2, 5, 1] ∧
      (∀ id, r.nodes.contains id = true → id ∉ [0, 2, 5, 1] → r.synthesized none id = []) ∧
      (∃ numbers texts, r.DeclaredAs .uint64 numbers ∧ r.DeclaredAs .string texts ∧
        (r.draft none 10 "F").listing.lines.length =
          (dimLines .uint64 numbers ++ dimLines .string texts).length + 3) ∧
      (r.generate none 10 "F").code = "Function F(a Uint64, b Uint64) Uint64\n" ++
        "10\tDIM x, y AS Uint64\n11\tDIM t AS String\n" ++
        "12\tLET x = a + b\n13\tIF (x < 9) THEN GOTO 14\n14\tRETURN x\nEnd Function" := by
  have hback : testedSum.traversal.backEdges = [] := by decide +kernel
  have hstart : testedSum.IsStart 0 := (testedSum.start?_eq_some_iff 0).mp (by decide)
  have hway : testedSum.Way [0, 2, 5, 1] := by
    refine ⟨List.all_eq_true.mp rfl, ?_⟩
    simp only [List.isChain_cons_cons, List.isChain_singleton, and_true]
    exact ⟨by decide, by decide, by decide⟩
  have horder : testedSum.traversal.order = [6, 7, 4, 0, 3, 2, 5, 1] := by decide +kernel
  have hsilent : ∀ id, testedSum.nodes.contains id = true → id ∉ [0, 2, 5, 1] →
      testedSum.synthesized none id = [] := by
    intro id hid hpath
    have hmem : id ∈ [6, 7, 4, 0, 3, 2, 5, 1] := horder ▸ (testedSum.mem_order id).mpr hid
    have hcases : id = 3 ∨ id = 4 ∨ id = 6 ∨ id = 7 := by
      simp only [List.mem_cons, List.not_mem_nil, or_false] at hmem hpath
      tauto
    rcases hcases with rfl | rfl | rfl | rfl <;> rfl
  have hfits : (testedSum.draft none 10 "F").listing.Fits := by decide +kernel
  obtain ⟨numbers, texts, hnumbers, htexts, hlines, _⟩ := listing_of_way hback hway hsilent 10 "F" hfits
  refine ⟨horder, hback, hstart, hway, hsilent, ⟨numbers, texts, hnumbers, htexts, ?_⟩,
    by decide +kernel⟩
  refine (congrArg List.length hlines).trans ?_
  rw [List.length_append, List.length_map]
  rfl

end Routine

end FlowBasic
