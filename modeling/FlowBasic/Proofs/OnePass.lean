import FlowBasic.Proofs.Emission
import FlowBasic.Proofs.ReadySites

namespace FlowBasic

theorem Offers.get?_cons (id : NodeId) (outputs : Outputs) (offers : Offers) (e : Endpoint) :
    Offers.get? ((id, outputs) :: offers) e =
      if e.node = id then outputs.lookup e.port.toNat else offers.get? e := by
  rw [get?, Entries.lookup_cons]
  split <;> rfl

namespace Routine

variable {r : Routine} {scope : Scope} {h : r.ValueAcyclic} {start : NodeId}

/-- The unfolded values of the written nodes are on offer, as far as control has a use for them. -/
def Settled (r : Routine) (scope : Scope) (h : r.ValueAcyclic) (start : NodeId)
    (written : List NodeId) (offers : Offers) : Prop :=
  ∀ l ∈ r.links, l.isFlow = false → Reached r.links start l.source.node →
    l.source.node ∈ written → offers.get? l.source = some (r.expression scope h l.source)

theorem Settled.ready {written : List NodeId} {offers : Offers}
    (hsettled : r.Settled scope h start written offers) (hw : r.WellFormed scope)
    (hstart : r.IsStart start) {links : List Link} (hlinks : links.Perm r.links) {id : NodeId}
    {n : Node} (hn : r.nodes.get? id = some n) (hreached : Reached r.links start id)
    (hfeeders : ∀ a, r.Feeds a id → a ∈ written) :
    Site.Ready ⟨id, { r with links }, scope, offers⟩ r h n.payload := by
  refine ⟨hw, rfl, hlinks, ⟨n, hn, rfl⟩, hw.connected start hstart id n hreached hn, ?_⟩
  intro l hl hvalue hsink
  have hsource : Reached r.links start l.source.node := .value hl hvalue (hsink ▸ hreached)
  exact hsettled l hl hvalue hsource (hfeeders _ ⟨l, hl, hvalue, rfl, hsink⟩)

/-- Writing a node keeps the offers settled, whether or not control has a use for it. -/
theorem Settled.step {written : List NodeId} {offers : Offers}
    (hsettled : r.Settled scope h start written offers) (hw : r.WellFormed scope)
    (hstart : r.IsStart start) {links : List Link} (hlinks : links.Perm r.links) {id : NodeId}
    {n : Node} (hn : r.nodes.get? id = some n) (hfeeders : ∀ a, r.Feeds a id → a ∈ written) :
    let s := Site.synthesize ⟨id, { r with links }, scope, offers⟩ n.payload
    r.Settled scope h start (id :: written) ((id, s.outputs) :: offers) := by
  intro s l hl hvalue hreached hmem
  rw [Offers.get?_cons]
  by_cases hid : l.source.node = id
  · rw [if_pos hid]
    have hready := hsettled.ready hw hstart hlinks hn (hid ▸ hreached) hfeeders
    exact hready.lookup_outputs hl hvalue hid
  · rw [if_neg hid]
    exact hsettled l hl hvalue hreached ((List.mem_cons.mp hmem).resolve_left hid)

/-- Along an order in which no node comes before one whose value it reads, every node that control
has a use for is ready when its turn comes. -/
theorem ready_of_mem_contributions (hw : r.WellFormed scope) (hstart : r.IsStart start)
    {links : List Link} (hlinks : links.Perm r.links) {ids written : List NodeId} {offers : Offers}
    (hnodes : ∀ id ∈ ids, r.nodes.contains id = true)
    (hcover : ∀ a b, r.Feeds a b → a ∈ written ∨ a ∈ ids)
    (hlater : ∀ id later, id :: later <:+ ids → ∀ a, r.Feeds a id → a ∉ id :: later)
    (hsettled : r.Settled scope h start written offers) :
    ∀ c ∈ ({ r with links } : Routine).contributions scope offers ids,
      Reached r.links start c.1 → ∀ n, r.nodes.get? c.1 = some n →
        ∃ s : Site, s.id = c.1 ∧ s.scope = scope ∧ s.Ready r h n.payload ∧
          c.2 = s.synthesize n.payload := by
  induction ids generalizing written offers with
  | nil => simp [contributions]
  | cons id ids ih =>
    obtain ⟨n, hn⟩ := Option.isSome_iff_exists.mp (hnodes id List.mem_cons_self)
    have hfeeders : ∀ a, r.Feeds a id → a ∈ written := by
      intro a ha
      exact (hcover a id ha).resolve_right (hlater id ids List.suffix_rfl a ha)
    rw [contributions_cons (r := { r with links }) hn]
    intro c hc hreached m hm
    rcases List.mem_cons.mp hc with rfl | hc
    · obtain rfl : n = m := Option.some.inj (hn.symm.trans hm)
      exact ⟨_, rfl, rfl, hsettled.ready hw hstart hlinks hn hreached hfeeders, rfl⟩
    · refine ih ?_ ?_ ?_ (hsettled.step hw hstart hlinks hn hfeeders) c hc hreached m hm
      · intro u hu
        exact hnodes u (List.mem_cons_of_mem _ hu)
      · intro a b hab
        have := hcover a b hab
        simp only [List.mem_cons] at this ⊢
        tauto
      · intro u later hsuffix
        exact hlater u later (hsuffix.trans (List.suffix_cons id ids))

theorem ProducersFirst.notMem_suffix {order : List NodeId} (hfirst : r.ProducersFirst order)
    (hnodup : order.Nodup) {id : NodeId} {later : List NodeId} (hsuffix : id :: later <:+ order)
    {a : NodeId} (ha : r.Feeds a id) : a ∉ id :: later := by
  have hprecedes : order.idxOf a < order.idxOf id := hfirst a id ha
  obtain ⟨earlier, rfl⟩ := hsuffix
  intro hmem
  rcases List.mem_cons.mp hmem with rfl | hmem
  · exact Nat.lt_irrefl _ hprecedes
  · have hback := (precedes_append_cons_iff hnodup
      (List.mem_append_right _ (List.mem_cons_of_mem _ hmem))).mpr hmem
    exact Nat.lt_asymm hprecedes hback

theorem ready_along (hw : r.WellFormed scope) (hstart : r.IsStart start)
    {links : List Link} (hlinks : links.Perm r.links) {order : List NodeId}
    (horder : order.Perm r.nodes.ids) (hfirst : r.ProducersFirst order) {c : NodeId × Synthesis}
    (hc : c ∈ ({ r with links } : Routine).contributions scope [] order)
    (hreached : Reached r.links start c.1) {n : Node} (hn : r.nodes.get? c.1 = some n) :
    ∃ s : Site, s.id = c.1 ∧ s.scope = scope ∧ s.Ready r h n.payload ∧
      c.2 = s.synthesize n.payload := by
  have hnodup : order.Nodup := horder.nodup_iff.mpr r.nodes.nodup_ids
  have hnodes : ∀ u ∈ order, r.nodes.contains u = true := by
    intro u hu
    exact (r.nodes.contains_iff u).mpr (horder.mem_iff.mp hu)
  have hcover : ∀ a b, r.Feeds a b → a ∈ ([] : List NodeId) ∨ a ∈ order := by
    intro a b hab
    obtain ⟨l, hl, _, rfl, _⟩ := hab
    exact .inr (horder.mem_iff.mpr (hw.ends l hl).1)
  have hnothing : r.Settled scope h start [] [] := by
    intro l _ _ _ hmem
    exact absurd hmem List.not_mem_nil
  exact ready_of_mem_contributions hw hstart hlinks hnodes hcover
    (fun u later hsuffix a ha => hfirst.notMem_suffix hnodup hsuffix ha) hnothing c hc hreached n hn

theorem statementsOf_along (hw : r.WellFormed scope) (hstart : r.IsStart start)
    {links : List Link} (hlinks : links.Perm r.links) {order : List NodeId}
    (horder : order.Perm r.nodes.ids) (hfirst : r.ProducersFirst order) {id : NodeId} {n : Node}
    (hreached : Reached r.links start id) (hn : r.nodes.get? id = some n) (firstLine : Nat)
    (name : String) :
    let r' : Routine := { r with links }
    (order.foldl (r'.extend scope) (r'.firstDraft firstLine name)).listing.statementsOf id =
      r.written scope h id n.payload := by
  intro r'
  have hnodes : ∀ u, u ∈ order ↔ r'.nodes.contains u = true := by
    intro u
    exact horder.mem_iff.trans (r.nodes.contains_iff u).symm
  have hnodup : order.Nodup := horder.nodup_iff.mpr r.nodes.nodup_ids
  have hmem : id ∈ (r'.contributions scope [] order).map Prod.fst := by
    rw [keys_contributions scope [] fun u hu => (hnodes u).mp hu, hnodes]
    exact Option.isSome_of_eq_some hn
  obtain ⟨c, hc, rfl⟩ := List.mem_map.mp hmem
  rw [r'.statementsOf_foldl_extend scope hnodup (fun u hu => (hnodes u).mp hu) hc]
  obtain ⟨s, hid, rfl, hready, hc⟩ := ready_along (h := h) hw hstart hlinks horder hfirst hc hreached hn
  rw [hc, ← hid]
  exact hready.statements_eq

theorem ValueAcyclic.withLinks (h : r.ValueAcyclic) {links : List Link}
    (hlinks : links.Perm r.links) : ({ r with links } : Routine).ValueAcyclic := by
  intro l hl hvalue hcycle
  refine h l (hlinks.mem_iff.mp hl) hvalue (Relation.ReflTransGen.mono ?_ _ _ hcycle)
  intro a b hab
  obtain ⟨m, hm, hsource, hsink⟩ := hab
  exact ⟨m, hlinks.mem_iff.mp hm, hsource, hsink⟩

theorem producersFirst_traversal (hw : r.WellFormed scope) (h : r.ValueAcyclic)
    {links : List Link} (hlinks : links.Perm r.links) :
    r.ProducersFirst ({ r with links } : Routine).traversal.order := by
  have hends : ∀ l ∈ links, l.source.node ∈ r.nodes.ids ∧ l.sink.node ∈ r.nodes.ids :=
    fun l hl => hw.ends l (hlinks.mem_iff.mp hl)
  intro a b hab
  obtain ⟨l, hl, hvalue, hsource, hsink⟩ := hab
  exact (h.withLinks hlinks).producersFirst hends a b
    ⟨l, hlinks.mem_iff.mpr hl, hvalue, hsource, hsink⟩

/-- In a valid routine without cycles through values, a node that control has a use for writes the
statements of the unfolded values. Neither the order of the links nor that of the nodes matters, as
long as values are written before they are read. -/
theorem statementsOf_eq_written {r : Routine} {scope : Scope} {name : String}
    (hvalid : (r.report scope name).valid = true) (h : r.ValueAcyclic) {start id : NodeId}
    {n : Node} (hstart : r.IsStart start) (hreached : Reached r.links start id)
    (hn : r.nodes.get? id = some n) {links : List Link} (hlinks : links.Perm r.links)
    (firstLine : Nat) :
    let r' : Routine := { r with links }
    (r'.draft scope firstLine name).listing.statementsOf id = r.written scope h id n.payload ∧
      ∀ order : List NodeId, order.Perm r.nodes.ids → r.ProducersFirst order →
        (order.foldl (r'.extend scope) (r'.firstDraft firstLine name)).listing.statementsOf id =
          r.written scope h id n.payload := by
  intro r'
  have hw := wellFormed_of_valid hvalid
  have halong : ∀ order : List NodeId, order.Perm r.nodes.ids → r.ProducersFirst order →
      (order.foldl (r'.extend scope) (r'.firstDraft firstLine name)).listing.statementsOf id =
        r.written scope h id n.payload := by
    intro order horder hfirst
    exact statementsOf_along hw hstart hlinks horder hfirst hreached hn firstLine name
  exact ⟨halong _ r'.order_perm (producersFirst_traversal hw h hlinks), halong⟩

/-- A sum is read twice, once by a product and once by the condition of a loop. -/
def loopOverSum : Routine :=
  { isProcess := false
    args := .ofList [("a", .uint64), ("b", .uint64)]
    vars := .ofList [("x", .uint64)]
    returns := .uint64
    nodes := .ofList
      [(0, .start),
       (1, .ofPayload "End" (.returnLinked .uint64)),
       (2, .ofPayload "Let" (.assign "x" (.uint64 none))),
       (3, .ofPayload "Operation" (.operation (.uint64 .add .unset))),
       (4, .ofPayload "Operation" (.operation (.uint64 .multiply ⟨none, some 2⟩))),
       (5, .ofPayload "Control" (.branch .ifThen)),
       (6, .ofPayload "Variable" (.fetch "x")),
       (7, .ofPayload "Condition" (.condition (.uint64 .lower .unset)))]
    links :=
      [⟨⟨0, 0⟩, ⟨2, 0⟩, .flow⟩, ⟨⟨2, 1⟩, ⟨5, 0⟩, .flow⟩, ⟨⟨5, 2⟩, ⟨2, 0⟩, .flow⟩,
       ⟨⟨5, 3⟩, ⟨1, 0⟩, .flow⟩, ⟨⟨0, 1⟩, ⟨3, 0⟩, .value .uint64⟩,
       ⟨⟨0, 2⟩, ⟨3, 1⟩, .value .uint64⟩, ⟨⟨3, 1⟩, ⟨4, 0⟩, .value .uint64⟩,
       ⟨⟨4, 1⟩, ⟨2, 2⟩, .value .uint64⟩, ⟨⟨6, 0⟩, ⟨7, 0⟩, .value .uint64⟩,
       ⟨⟨3, 1⟩, ⟨7, 1⟩, .value .uint64⟩, ⟨⟨7, 1⟩, ⟨5, 1⟩, .value .uint64⟩,
       ⟨⟨6, 0⟩, ⟨1, 1⟩, .value .uint64⟩] }

theorem valueAcyclic_loopOverSum : loopOverSum.ValueAcyclic := by
  apply valueAcyclic_of_rank fun id =>
    if id = 0 ∨ id = 6 then 0 else if id = 3 then 1 else if id = 4 ∨ id = 7 then 2 else 3
  decide

/-- The sum stands in both places, whichever way the links are listed. -/
theorem statementsOf_loopOverSum_reversed :
    let r := loopOverSum
    let r' : Routine := { r with links := r.links.reverse }
    (r.report none "F").valid = true ∧ r.IsStart 0 ∧ Reached r.links 0 5 ∧
      (r'.draft none 1 "F").listing.statementsOf 5 =
        r.written none valueAcyclic_loopOverSum 5 (.branch .ifThen) ∧
      (r'.draft none 1 "F").listing.statementsOf 5 =
        [[.text "IF (x < (a + b)) THEN GOTO ", .jump 2]] := by
  have hvalid : (loopOverSum.report none "F").valid = true := by decide
  have hstart : loopOverSum.IsStart 0 := (loopOverSum.start?_eq_some_iff 0).mp (by decide)
  have hassign : OnPath loopOverSum.links 0 2 :=
    OnPath.flow (l := ⟨⟨0, 0⟩, ⟨2, 0⟩, .flow⟩) (by decide) rfl .start
  have hbranch : OnPath loopOverSum.links 0 5 :=
    OnPath.flow (l := ⟨⟨2, 1⟩, ⟨5, 0⟩, .flow⟩) (by decide) rfl hassign
  refine ⟨hvalid, hstart, .control hbranch, ?_, by decide +kernel⟩
  exact (statementsOf_eq_written hvalid valueAcyclic_loopOverSum hstart (.control hbranch) rfl
    (List.reverse_perm _) 1).1

/-- A call of a routine that is not known, with one argument at port 1 and one at port 2. -/
def callOfUnknown : Routine :=
  { isProcess := false
    args := .ofList [("a", .uint64), ("b", .uint64)]
    vars := .empty
    returns := .uint64
    nodes := .ofList
      [(0, .start),
       (1, .ofPayload "End" (.returnLiteral (.number 0))),
       (2, .ofPayload "Process" (.process "p"))]
    links :=
      [⟨⟨0, 0⟩, ⟨2, 0⟩, .flow⟩, ⟨⟨2, 1⟩, ⟨1, 0⟩, .flow⟩, ⟨⟨0, 1⟩, ⟨2, 1⟩, .value .uint64⟩,
       ⟨⟨0, 2⟩, ⟨2, 2⟩, .value .uint64⟩] }

theorem valueAcyclic_callOfUnknown : callOfUnknown.ValueAcyclic := by
  apply valueAcyclic_of_rank fun id => if id = 0 then 0 else 1
  decide

theorem inputText_callOfUnknown (port : Nat) (place : Port) (name : String)
    (hfeeder : callOfUnknown.feeder? 2 port = some ⟨0, place⟩)
    (htext : callOfUnknown.valueText none ⟨0, place⟩
      (callOfUnknown.inputExpression none valueAcyclic_callOfUnknown 0) .start = name) :
    (callOfUnknown.inputExpression none valueAcyclic_callOfUnknown 2 port).text = name := by
  have hstart : callOfUnknown.nodes.get? 0 = some .start := rfl
  have hexpr := expression_eq none valueAcyclic_callOfUnknown (e := ⟨0, place⟩) hstart
  simp only [inputExpression, hfeeder, hexpr]
  exact htext

/-- The first argument comes from port 1, so the arguments are not those from port 2 on. -/
theorem callOfUnknown_reads_port_one :
    let r := callOfUnknown
    (r.report none "F").valid = true ∧ r.IsStart 0 ∧ Reached r.links 0 2 ∧
      (r.draft none 1 "F").listing.statementsOf 2 = [[.text "p(a, b)"]] ∧
      ∀ count : Nat, (r.draft none 1 "F").listing.statementsOf 2 ≠
        [[.text (Site.callText "p" ((List.range count).map fun i =>
          (r.inputExpression none valueAcyclic_callOfUnknown 2 (2 + i)).text))]] := by
  have hstart : callOfUnknown.IsStart 0 := (callOfUnknown.start?_eq_some_iff 0).mp (by decide)
  have hprocess : OnPath callOfUnknown.links 0 2 :=
    OnPath.flow (l := ⟨⟨0, 0⟩, ⟨2, 0⟩, .flow⟩) (by decide) rfl .start
  have hvalid : (callOfUnknown.report none "F").valid = true := by decide
  have hw := wellFormed_of_valid hvalid
  have ha := inputText_callOfUnknown 1 1 "a" (by decide) rfl
  have hb := inputText_callOfUnknown 2 2 "b" (by decide) rfl
  have hports : callOfUnknown.linkedPorts 2 = [1, 2] :=
    List.mergeSort_of_pairwise (by decide)
  have htext : (callOfUnknown.draft none 1 "F").listing.statementsOf 2 = [[.text "p(a, b)"]] := by
    have halong := statementsOf_along (h := valueAcyclic_callOfUnknown) hw hstart
      (List.Perm.refl _) callOfUnknown.order_perm
      (producersFirst_traversal hw valueAcyclic_callOfUnknown (List.Perm.refl _))
      (.control hprocess) rfl 1 "F"
    refine halong.trans ?_
    show [[Fragment.text (Site.callText "p" ((callOfUnknown.linkedPorts 2).map _))]] = _
    rw [hports, List.map_cons, List.map_cons, ha, hb]
    rfl
  refine ⟨hvalid, hstart, .control hprocess, htext, ?_⟩
  intro count
  rw [htext]
  cases count with
  | zero =>
    show [[Fragment.text "p(a, b)"]] ≠ [[.text (Site.callText "p" [])]]
    decide
  | succ count =>
    rw [List.range_succ_eq_map]
    simp only [List.map_cons, Nat.add_zero, hb, ne_eq, List.cons.injEq, Fragment.text.injEq]
    intro heq
    have hchars := congrArg String.toList heq.1.1
    simp [Site.callText, Site.commaList, String.toList_intercalate] at hchars

end Routine

end FlowBasic
