import FlowBasic.Program
import FlowBasic.Proofs.TraversalOrder

namespace FlowBasic

namespace Listing

/-- Writes several nodes, each with its statements. -/
def pushNodes (l : Listing) (blocks : List (NodeId × List Statement)) : Listing :=
  blocks.foldl (fun l b => l.pushNode b.1 b.2) l

/-- The statements that a node has written. -/
def statementsOf (l : Listing) (id : NodeId) : List Statement :=
  (l.lines.filter (·.owner = some id)).map (·.statement)

/-- The line where a node starts. -/
def startLine? (l : Listing) (id : NodeId) : Option Nat := l.starts.lookup id

theorem pushNodes_cons (l : Listing) (b : NodeId × List Statement)
    (blocks : List (NodeId × List Statement)) :
    l.pushNodes (b :: blocks) = (l.pushNode b.1 b.2).pushNodes blocks := rfl

theorem pushNodes_append (l : Listing) (bs cs : List (NodeId × List Statement)) :
    l.pushNodes (bs ++ cs) = (l.pushNodes bs).pushNodes cs := by
  simp [pushNodes, List.foldl_append]

theorem lines_pushNodes (l : Listing) (blocks : List (NodeId × List Statement)) :
    (l.pushNodes blocks).lines =
      l.lines ++ blocks.flatMap fun b => b.2.map fun st => ⟨some b.1, st⟩ := by
  induction blocks generalizing l with
  | nil => simp [pushNodes]
  | cons b blocks ih =>
    rw [pushNodes_cons, ih]
    simp [pushNode]

theorem header_pushNodes (l : Listing) (blocks : List (NodeId × List Statement)) :
    (l.pushNodes blocks).header = l.header := by
  induction blocks generalizing l with
  | nil => rfl
  | cons b blocks ih =>
    rw [pushNodes_cons, ih]
    rfl

theorem firstLine_pushNodes (l : Listing) (blocks : List (NodeId × List Statement)) :
    (l.pushNodes blocks).firstLine = l.firstLine := by
  induction blocks generalizing l with
  | nil => rfl
  | cons b blocks ih =>
    rw [pushNodes_cons, ih]
    rfl

theorem nextLine_pushNodes (l : Listing) (blocks : List (NodeId × List Statement)) :
    (l.pushNodes blocks).nextLine = l.nextLine + (blocks.flatMap Prod.snd).length := by
  induction blocks generalizing l with
  | nil => simp [pushNodes]
  | cons b blocks ih =>
    rw [pushNodes_cons, ih, nextLine_pushNode, List.flatMap_cons, List.length_append]
    omega

theorem startLine?_pushNodes_of_notMem (l : Listing) {blocks : List (NodeId × List Statement)}
    {id : NodeId} (h : id ∉ blocks.map Prod.fst) :
    (l.pushNodes blocks).startLine? id = l.startLine? id := by
  induction blocks generalizing l with
  | nil => rfl
  | cons b blocks ih =>
    simp only [List.map_cons, List.mem_cons, not_or] at h
    rw [pushNodes_cons, ih _ h.2]
    simp only [startLine?, pushNode, Entries.lookup_cons, h.1, if_false]

/-- A node starts after the preamble and all statements of the nodes before it. -/
theorem startLine?_pushNodes (l : Listing) {earlier later : List (NodeId × List Statement)}
    {id : NodeId} {sts : List Statement} (h : id ∉ later.map Prod.fst) :
    (l.pushNodes (earlier ++ (id, sts) :: later)).startLine? id =
      some (l.nextLine + (earlier.flatMap Prod.snd).length) := by
  rw [pushNodes_append, pushNodes_cons, startLine?_pushNodes_of_notMem _ h, ← nextLine_pushNodes]
  simp only [startLine?, pushNode, Entries.lookup_cons, if_true]

theorem statementsOf_pushNodes {l : Listing} (hl : ∀ line ∈ l.lines, line.owner = none)
    {earlier later : List (NodeId × List Statement)} {id : NodeId} {sts : List Statement}
    (hearlier : id ∉ earlier.map Prod.fst) (hlater : id ∉ later.map Prod.fst) :
    (l.pushNodes (earlier ++ (id, sts) :: later)).statementsOf id = sts := by
  have hpreamble : l.lines.filter (·.owner = some id) = [] := by
    apply List.filter_eq_nil_iff.mpr
    intro line hline
    simp [hl line hline]
  have hother : ∀ blocks : List (NodeId × List Statement), id ∉ blocks.map Prod.fst →
      (blocks.flatMap fun b => b.2.map fun st => (⟨some b.1, st⟩ : Line)).filter
        (·.owner = some id) = [] := by
    intro blocks hblocks
    apply List.filter_eq_nil_iff.mpr
    intro line hline
    obtain ⟨b, hb, hline⟩ := List.mem_flatMap.mp hline
    obtain ⟨st, _, rfl⟩ := List.mem_map.mp hline
    have hne : b.1 ≠ id := fun he => hblocks (List.mem_map.mpr ⟨b, hb, he⟩)
    simp [hne]
  have hown : (sts.map fun st => (⟨some id, st⟩ : Line)).filter (·.owner = some id) =
      sts.map fun st => ⟨some id, st⟩ := by
    apply List.filter_eq_self.mpr
    intro line hline
    obtain ⟨st, _, rfl⟩ := List.mem_map.mp hline
    simp
  rw [statementsOf, lines_pushNodes, List.flatMap_append, List.flatMap_cons]
  simp only [List.filter_append, hpreamble, hother earlier hearlier, hother later hlater, hown,
    List.nil_append, List.append_nil, List.map_map]
  exact List.map_id sts

theorem statementsOf_pushNodes_of_mem {l : Listing} (hl : ∀ line ∈ l.lines, line.owner = none)
    {blocks : List (NodeId × List Statement)} (hnodup : (blocks.map Prod.fst).Nodup)
    {b : NodeId × List Statement} (hb : b ∈ blocks) :
    (l.pushNodes blocks).statementsOf b.1 = b.2 := by
  obtain ⟨earlier, later, rfl⟩ := List.append_of_mem hb
  rw [List.map_append, List.map_cons] at hnodup
  obtain ⟨hnew, -⟩ := List.nodup_cons.mp (List.nodup_middle.mp hnodup)
  rw [List.mem_append, not_or] at hnew
  exact statementsOf_pushNodes hl hnew.1 hnew.2

end Listing

namespace Routine

/-- What nodes contribute when they are written one after the other, with the expressions that were
offered before them. -/
def contributions (r : Routine) (scope : Scope) : Offers → List NodeId → List (NodeId × Synthesis)
  | _, [] => []
  | offers, id :: ids =>
    match r.nodes.get? id with
    | none => r.contributions scope offers ids
    | some n =>
      let s := Site.synthesize ⟨id, r, scope, offers⟩ n.payload
      (id, s) :: r.contributions scope ((id, s.outputs) :: offers) ids

theorem contributions_cons {r : Routine} {scope : Scope} {id : NodeId} {n : Node}
    (h : r.nodes.get? id = some n) (offers : Offers) (ids : List NodeId) :
    r.contributions scope offers (id :: ids) =
      let s := Site.synthesize ⟨id, r, scope, offers⟩ n.payload
      (id, s) :: r.contributions scope ((id, s.outputs) :: offers) ids := by
  simp only [contributions, h]

theorem keys_contributions {r : Routine} (scope : Scope) (offers : Offers) {ids : List NodeId}
    (h : ∀ id ∈ ids, r.nodes.contains id = true) :
    (r.contributions scope offers ids).map Prod.fst = ids := by
  induction ids generalizing offers with
  | nil => rfl
  | cons id ids ih =>
    obtain ⟨n, hn⟩ := Option.isSome_iff_exists.mp (h id List.mem_cons_self)
    rw [contributions_cons hn]
    simp only [List.map_cons, ih _ fun u hu => h u (List.mem_cons_of_mem _ hu)]

theorem keys_contributions_order (r : Routine) (scope : Scope) :
    (r.contributions scope [] r.traversal.order).map Prod.fst = r.traversal.order :=
  keys_contributions scope [] fun id hid => (r.mem_order id).mp hid

theorem nodup_keys_contributions (r : Routine) (scope : Scope) :
    ((r.contributions scope [] r.traversal.order).map Prod.fst).Nodup := by
  rw [keys_contributions_order]
  exact r.nodup_order

/-- Each contribution adds its statements to the listing, its expressions to the offers, and the
inputs it lacks to the diagnostics. -/
theorem foldl_extend (r : Routine) (scope : Scope) (ids : List NodeId) (d : Draft) :
    let cs := r.contributions scope d.offers ids
    ids.foldl (r.extend scope) d =
      { listing := d.listing.pushNodes (cs.map fun c => (c.1, c.2.statements))
        offers := (cs.map fun c => (c.1, c.2.outputs)).reverse ++ d.offers
        diagnostics := d.diagnostics ++
          cs.flatMap fun c => c.2.missing.map (.missingConnection c.1) } := by
  induction ids generalizing d with
  | nil => simp [contributions, Listing.pushNodes]
  | cons id ids ih =>
    cases hn : r.nodes.get? id with
    | none =>
      simp only [List.foldl_cons, extend, contributions, hn]
      exact ih d
    | some n =>
      rw [contributions_cons hn, List.foldl_cons, ih]
      simp only [extend, hn, List.map_cons, List.reverse_cons, List.flatMap_cons,
        List.append_assoc, List.singleton_append]
      rfl

/-- The nodes of a routine in the order of writing, each with its statements. -/
def blocks (r : Routine) (scope : Scope) : List (NodeId × List Statement) :=
  (r.contributions scope [] r.traversal.order).map fun c => (c.1, c.2.statements)

/-- The listing before any node is written. -/
def preamble (r : Routine) (firstLine : Nat) (name : String) : Listing :=
  (r.firstDraft firstLine name).listing

theorem keys_blocks (r : Routine) (scope : Scope) :
    (r.blocks scope).map Prod.fst = r.traversal.order := by
  rw [blocks, List.map_map]
  exact r.keys_contributions_order scope

theorem nodup_keys_blocks (r : Routine) (scope : Scope) : ((r.blocks scope).map Prod.fst).Nodup :=
  r.keys_blocks scope ▸ r.nodup_order

theorem listing_draft (r : Routine) (scope : Scope) (firstLine : Nat) (name : String) :
    (r.draft scope firstLine name).listing = (r.preamble firstLine name).pushNodes (r.blocks scope) := by
  rw [draft, foldl_extend]
  rfl

theorem foldl_pushPreamble (texts : List String) (l : Listing) :
    texts.foldl Listing.pushPreamble l =
      { l with lines := l.lines ++ texts.map fun text => ⟨none, [.text text]⟩ } := by
  induction texts generalizing l with
  | nil => simp
  | cons text texts ih => simp [ih, Listing.pushPreamble]

theorem preamble_eq (r : Routine) (firstLine : Nat) (name : String) :
    r.preamble firstLine name =
      { Listing.empty (r.header name) firstLine with
        lines := r.declarationLines.map fun text => ⟨none, [.text text]⟩ } := by
  rw [preamble, firstDraft, foldl_pushPreamble]
  rfl

theorem preamble_owner (r : Routine) (firstLine : Nat) (name : String) :
    ∀ line ∈ (r.preamble firstLine name).lines, line.owner = none := by
  intro line hline
  rw [preamble_eq] at hline
  obtain ⟨text, _, rfl⟩ := List.mem_map.mp hline
  rfl

theorem nextLine_preamble (r : Routine) (firstLine : Nat) (name : String) :
    (r.preamble firstLine name).nextLine = firstLine + r.declarationLines.length := by
  simp [preamble_eq, Listing.nextLine, Listing.empty]

/-- In whatever order the nodes are written, each writes what it contributes. -/
theorem statementsOf_foldl_extend (r : Routine) (scope : Scope) {order : List NodeId}
    (hnodup : order.Nodup) (hnodes : ∀ id ∈ order, r.nodes.contains id = true)
    {c : NodeId × Synthesis} (hc : c ∈ r.contributions scope [] order)
    (firstLine : Nat) (name : String) :
    (order.foldl (r.extend scope) (r.firstDraft firstLine name)).listing.statementsOf c.1 =
      c.2.statements := by
  have hkeys : ((r.contributions scope [] order).map fun c => (c.1, c.2.statements)).map Prod.fst =
      order := by
    rw [List.map_map]
    exact keys_contributions scope [] hnodes
  rw [foldl_extend]
  exact Listing.statementsOf_pushNodes_of_mem (r.preamble_owner firstLine name)
    (hkeys.symm ▸ hnodup) (List.mem_map_of_mem hc)

/-- A node has one block, which gives its statements and where it starts. -/
theorem exists_block (r : Routine) (scope : Scope) {id : NodeId}
    (h : r.nodes.contains id = true) :
    ∃ earlier sts later, r.blocks scope = earlier ++ (id, sts) :: later ∧
      ∀ firstLine name,
        (r.draft scope firstLine name).listing.statementsOf id = sts ∧
        (r.draft scope firstLine name).listing.startLine? id =
          some (firstLine + r.declarationLines.length + (earlier.flatMap Prod.snd).length) := by
  have hmem : id ∈ (r.blocks scope).map Prod.fst := by
    rw [keys_blocks]
    exact (r.mem_order id).mpr h
  obtain ⟨⟨_, sts⟩, hblock, rfl⟩ := List.mem_map.mp hmem
  obtain ⟨earlier, later, hsplit⟩ := List.append_of_mem hblock
  have hnodup := r.nodup_keys_blocks scope
  rw [hsplit, List.map_append, List.map_cons] at hnodup
  obtain ⟨hnew, -⟩ := List.nodup_cons.mp (List.nodup_middle.mp hnodup)
  rw [List.mem_append, not_or] at hnew
  refine ⟨earlier, sts, later, hsplit, ?_⟩
  intro firstLine name
  rw [listing_draft, hsplit]
  refine ⟨Listing.statementsOf_pushNodes (r.preamble_owner firstLine name) hnew.1 hnew.2, ?_⟩
  rw [Listing.startLine?_pushNodes _ hnew.2, nextLine_preamble]

/-- The surroundings of a node when it is written: what the nodes before it have offered. -/
def siteAt (r : Routine) (scope : Scope) (id : NodeId) : Site :=
  ⟨id, r, scope,
    ((r.traversal.order.takeWhile (· ≠ id)).foldl (r.extend scope) (r.firstDraft 1 "")).offers⟩

theorem contributions_append (r : Routine) (scope : Scope) (offers : Offers) (xs ys : List NodeId) :
    r.contributions scope offers (xs ++ ys) =
      r.contributions scope offers xs ++
        r.contributions scope
          (((r.contributions scope offers xs).map fun c => (c.1, c.2.outputs)).reverse ++ offers) ys := by
  induction xs generalizing offers with
  | nil => rfl
  | cons id xs ih =>
    cases hn : r.nodes.get? id with
    | none =>
      rw [List.cons_append, contributions, contributions, hn]
      exact ih offers
    | some n =>
      rw [List.cons_append, contributions_cons hn, contributions_cons hn]
      simp only [ih, List.map_cons, List.reverse_cons, List.append_assoc, List.cons_append,
        List.nil_append]

/-- A node splits the order of writing into what comes before it and what comes after. -/
theorem exists_split {r : Routine} {id : NodeId} (hid : r.nodes.contains id = true) :
    ∃ later, r.traversal.order = r.traversal.order.takeWhile (· ≠ id) ++ id :: later := by
  obtain ⟨earlier, later, hsplit⟩ := List.append_of_mem ((r.mem_order id).mpr hid)
  have hnodup := r.nodup_order
  rw [hsplit] at hnodup
  have hnew : ∀ u ∈ earlier, decide (u ≠ id) = true := by
    intro u hu
    have hne := (List.nodup_append.mp hnodup).2.2 u hu id List.mem_cons_self
    simpa using hne
  refine ⟨later, ?_⟩
  rw [hsplit, List.takeWhile_append_of_pos hnew, List.takeWhile_cons_of_neg (by simp), List.append_nil]

theorem offers_siteAt (r : Routine) (scope : Scope) (id : NodeId) :
    (r.siteAt scope id).offers =
      ((r.contributions scope [] (r.traversal.order.takeWhile (· ≠ id))).map
        fun c => (c.1, c.2.outputs)).reverse := by
  have hfold := r.foldl_extend scope (r.traversal.order.takeWhile (· ≠ id)) (r.firstDraft 1 "")
  rw [siteAt, hfold]
  exact List.append_nil _

/-- A node contributes what is synthesized at its site. -/
theorem mem_contributions {r : Routine} {scope : Scope} {id : NodeId} {n : Node}
    (hn : r.nodes.get? id = some n) :
    (id, (r.siteAt scope id).synthesize n.payload) ∈ r.contributions scope [] r.traversal.order := by
  obtain ⟨later, hsplit⟩ := exists_split (Option.isSome_of_eq_some hn)
  rw [hsplit, contributions_append, contributions_cons hn, List.append_nil, ← offers_siteAt]
  exact List.mem_append_right _ List.mem_cons_self

theorem eq_of_mem_contributions {r : Routine} {scope : Scope} {c : NodeId × Synthesis}
    (hc : c ∈ r.contributions scope [] r.traversal.order) {n : Node}
    (hn : r.nodes.get? c.1 = some n) : c.2 = (r.siteAt scope c.1).synthesize n.payload := by
  have hsame := List.inj_on_of_nodup_map (r.nodup_keys_contributions scope) hc (mem_contributions hn) rfl
  exact congrArg Prod.snd hsame

/-- The statements that a node synthesizes when its turn comes. -/
def synthesized (r : Routine) (scope : Scope) (id : NodeId) : List Statement :=
  (r.nodes.get? id).elim [] fun n => ((r.siteAt scope id).synthesize n.payload).statements

theorem blocks_eq_map (r : Routine) (scope : Scope) :
    r.blocks scope = r.traversal.order.map fun id => (id, r.synthesized scope id) := by
  have hkeys := r.keys_contributions_order scope
  have hblock : ∀ c ∈ r.contributions scope [] r.traversal.order,
      (c.1, c.2.statements) = (c.1, r.synthesized scope c.1) := by
    intro c hc
    have hmem : c.1 ∈ r.traversal.order := hkeys ▸ List.mem_map_of_mem hc
    obtain ⟨n, hn⟩ := Option.isSome_iff_exists.mp ((r.mem_order c.1).mp hmem)
    rw [eq_of_mem_contributions hc hn, synthesized, hn]
    rfl
  calc r.blocks scope
      = (r.contributions scope [] r.traversal.order).map fun c => (c.1, r.synthesized scope c.1) :=
        List.map_congr_left hblock
    _ = ((r.contributions scope [] r.traversal.order).map Prod.fst).map
          fun id => (id, r.synthesized scope id) := by rw [List.map_map]; rfl
    _ = _ := by rw [hkeys]

/-- The lines of a listing are the declarations and the statements of the nodes in order. -/
theorem lines_draft (r : Routine) (scope : Scope) (firstLine : Nat) (name : String) :
    (r.draft scope firstLine name).listing.lines =
      r.declarationLines.map (fun text => ⟨none, [.text text]⟩) ++
        r.traversal.order.flatMap fun id => (r.synthesized scope id).map (⟨some id, ·⟩) := by
  rw [listing_draft, Listing.lines_pushNodes, preamble_eq, blocks_eq_map, List.flatMap_map]

end Routine

end FlowBasic
