import FlowBasic.Proofs.JumpLines
import FlowBasic.Proofs.Mentions

namespace FlowBasic

/-- A node offers something wherever a value link leaves. -/
theorem Site.exists_output {s : Site} (hwell : s.routine.WellFormed s.scope) {n : Node}
    (hn : s.routine.nodes.get? s.id = some n) {m : Link} (hm : m ∈ s.routine.links)
    (hvalue : m.isFlow = false) (hsource : m.source.node = s.id) :
    ∃ e, (s.synthesize n.payload).outputs.lookup m.source.port.toNat = some e := by
  have hout : m ∈ s.outgoing := List.mem_filter.mpr ⟨hm, by simp [hsource]⟩
  obtain ⟨c, hc, hflow⟩ := hwell.output?_of_mem hm (hsource ▸ hn)
  rw [hvalue] at hflow
  have hport : (s.routine.layout s.scope n.payload).anyOutput = none →
      ∃ spec ∈ (s.routine.layout s.scope n.payload).outputs,
        spec.port = m.source.port.toNat ∧ spec.connector.isFlow = false := by
    intro hany
    obtain ⟨spec, hspec, hport, rfl⟩ := Layout.exists_of_output? hany hc
    exact ⟨spec, hspec, hport, hflow⟩
  clear hc
  generalize n.payload = p at hport
  cases p with
  | start =>
    obtain ⟨spec, hspec, hport, hflow⟩ := hport rfl
    obtain ⟨i, hi, hspec⟩ := Routine.exists_argument_of_output hspec hflow
    refine ⟨.atom s.routine.args.keys[i], ?_⟩
    rw [← hport, hspec, Nat.add_comm, synthesize, lookup_startOutputs, List.getElem?_eq_getElem hi]
    rfl
  | argument name =>
    obtain ⟨spec, hspec, hport, hflow⟩ := hport rfl
    rw [← hport, List.mem_singleton.mp hspec]
    exact ⟨_, rfl⟩
  | fetch name =>
    refine ⟨.atom name, lookup_of_forall_eq ?_ ?_⟩
    · exact List.mem_map.mpr ⟨_, List.mem_map_of_mem hout, rfl⟩
    · intro o ho
      obtain ⟨m, _, rfl⟩ := List.mem_map.mp ho
      rfl
  | operation o =>
    obtain ⟨spec, hspec, hport, hflow⟩ := hport rfl
    rw [← hport, List.mem_singleton.mp hspec]
    exact ⟨_, rfl⟩
  | condition c =>
    obtain ⟨spec, hspec, hport, hflow⟩ := hport rfl
    rw [← hport, List.mem_singleton.mp hspec]
    exact ⟨_, rfl⟩
  | call c =>
    obtain ⟨spec, hspec, hport, hflow⟩ := hport rfl
    rw [← hport, Routine.port_of_call_output hspec hflow]
    exact ⟨_, List.lookup_cons_self⟩
  | process name => exact ⟨_, s.lookup_process name hout hvalue⟩
  -- The other nodes have ports for control only.
  | assign name v => simp [Routine.layout, PortSpec.flow, Connector.isFlow] at hport
  | ending e => cases e <;> simp [Routine.layout] at hport
  | branch b => simp [Routine.layout, PortSpec.flow, PortSpec.needed, Connector.isFlow] at hport
  | jump => simp [Routine.layout, PortSpec.flow, PortSpec.needed, Connector.isFlow] at hport

theorem Site.text_mem_sayings {s : Site} {p : Payload} {port : Nat} {e : Expression}
    (h : (s.synthesize p).outputs.lookup port = some e) (l : Listing) : e.text ∈ s.sayings l p := by
  obtain ⟨before, after, hsplit, _⟩ := List.lookup_eq_some_iff.mp h
  refine List.mem_append_left _ (List.mem_map.mpr ⟨(port, e), ?_, rfl⟩)
  rw [hsplit]
  exact List.mem_append_right _ List.mem_cons_self

namespace Listing

/-- The lines of the code; all but the last end with a line break. -/
def codeLines (l : Listing) : List String :=
  (l.header ++ "\n") :: (l.lineTexts l.firstLine l.lines ++ ["End Function"])

theorem code_eq_join (l : Listing) : l.code = String.join l.codeLines := by
  rw [code, codeLines, String.join_cons, String.join_append]
  simp [String.append_assoc]

theorem statementsOf_ne_nil_iff (l : Listing) (id : NodeId) :
    l.statementsOf id ≠ [] ↔ ∃ line ∈ l.lines, line.owner = some id := by
  simp [statementsOf, List.filter_eq_nil_iff]

/-- A line number has no name in it. -/
theorem mentions_numbered {w : String} (hw : IsName w) (number : Nat) (text : String) :
    Mentions w (Decimal.text number ++ "\t" ++ text ++ "\n") ↔ Mentions w text := by
  rw [hw.before (g := "\n") (by decide), hw.between (g := "\t") (by decide),
    or_iff_right (hw.not_mentions_number number)]

theorem countP_lineTexts {w : String} (hw : IsName w) (l : Listing) (number : Nat) (lines : List Line) :
    (l.lineTexts number lines).countP (Mentions w ·) =
      lines.countP fun line => Mentions w (l.statementText line.statement) := by
  induction lines generalizing number with
  | nil => rfl
  | cons line lines ih => simp only [lineTexts, List.countP_cons, ih, mentions_numbered hw]

theorem countP_codeLines {w : String} (hw : IsName w) {l : Listing} (hheader : ¬ Mentions w l.header) :
    l.codeLines.countP (Mentions w ·) =
      l.lines.countP fun line => Mentions w (l.statementText line.statement) := by
  have hfirst : ¬ Mentions w (l.header ++ "\n") := by
    rwa [hw.before (g := "\n") (by decide)]
  have hlast : ¬ Mentions w "End Function" := hw.not_mentions_glue (by decide)
  simp [codeLines, hfirst, hlast, countP_lineTexts hw]

theorem exists_lineText {l : Listing} {line : Line} (h : line ∈ l.lines) :
    ∃ u ∈ l.lineTexts l.firstLine l.lines, Mentions (l.statementText line.statement) u := by
  obtain ⟨i, hi, rfl⟩ := List.mem_iff_getElem.mp h
  rw [lineTexts_eq_mapIdx]
  refine ⟨_, List.mem_mapIdx.mpr ⟨i, hi, rfl⟩, ?_⟩
  exact ((Mentions.refl _).append_right _).append_left _

theorem exists_line_of_mentions {w : String} (hw : IsName w) {l : Listing} {u : String}
    (hu : u ∈ l.lineTexts l.firstLine l.lines) (h : Mentions w u) :
    ∃ line ∈ l.lines, Mentions w (l.statementText line.statement) := by
  rw [lineTexts_eq_mapIdx] at hu
  obtain ⟨i, hi, rfl⟩ := List.mem_mapIdx.mp hu
  exact ⟨_, List.getElem_mem hi, (mentions_numbered hw _ _).mp h⟩

/-- A node with one line has it for itself when at most one line is counted. -/
theorem countP_le_one_iff {l : Listing} {id : NodeId} {st : Statement} (hone : l.statementsOf id = [st])
    {p : Line → Bool} (hown : ∀ line ∈ l.lines, line.owner = some id → p line = true) :
    l.lines.countP p ≤ 1 ↔ ∀ line ∈ l.lines, p line = true → line.owner = some id := by
  constructor
  · intro hcount line hline hp
    obtain ⟨own, hown', howner⟩ := (l.statementsOf_ne_nil_iff id).mp (by simp [hone])
    rw [List.countP_eq_length_filter] at hcount
    have hmem := List.mem_filter.mpr ⟨hline, hp⟩
    have hmem' := List.mem_filter.mpr ⟨hown', hown own hown' howner⟩
    rcases Nat.le_one_iff_eq_zero_or_eq_one.mp hcount with hzero | hlength
    · exact absurd (List.length_eq_zero_iff.mp hzero ▸ hmem) List.not_mem_nil
    · obtain ⟨only, honly⟩ := List.length_eq_one_iff.mp hlength
      rw [honly, List.mem_singleton] at hmem hmem'
      rw [hmem, ← hmem', howner]
  · intro hall
    have hsame : l.lines.countP p = l.lines.countP (·.owner = some id) := by
      apply List.countP_congr
      intro line hline
      simp only [decide_eq_true_eq]
      exact ⟨hall line hline, hown line hline⟩
    have hlength := congrArg List.length hone
    rw [statementsOf, List.length_map, ← List.countP_eq_length_filter] at hlength
    exact (hsame.trans hlength).le

end Listing

namespace Routine

/-- A value link that the node at its end reads, from a node that is written before it. -/
def Hands (r : Routine) (a b : NodeId) : Prop :=
  r.Feeds a b ∧ Precedes r.traversal.order a b ∧
    ∃ n, r.nodes.get? b = some n ∧ n.payload.reads = true

/-- What a node says is carried to another one, or the nodes are the same. -/
def Carries (r : Routine) : NodeId → NodeId → Prop := Relation.ReflTransGen r.Hands

/-- On offer is what the nodes before have synthesized. -/
theorem get?_offers_siteAt {r : Routine} {scope : Scope} {id : NodeId}
    (hid : r.nodes.contains id = true) {e : Endpoint} {n : Node}
    (hn : r.nodes.get? e.node = some n) :
    (r.siteAt scope id).offers.get? e =
      if Precedes r.traversal.order e.node id then
        ((r.siteAt scope e.node).synthesize n.payload).outputs.lookup e.port.toNat
      else none := by
  obtain ⟨later, hsplit⟩ := exists_split hid
  have hnodup := r.nodup_order
  have hprecedes : Precedes r.traversal.order e.node id ↔
      e.node ∈ r.traversal.order.takeWhile (· ≠ id) := by
    rw [hsplit] at hnodup
    rw [← precedes_of_append_cons_iff hnodup, ← hsplit]
  have hwritten : ∀ u ∈ r.traversal.order.takeWhile (· ≠ id), r.nodes.contains u = true :=
    fun u hu => (r.mem_order u).mp ((List.takeWhile_sublist _).subset hu)
  have hkeys := keys_contributions scope [] hwritten
  have hoffers : (r.siteAt scope id).offers.map Prod.fst =
      (r.traversal.order.takeWhile (· ≠ id)).reverse := by
    rw [offers_siteAt, List.map_reverse, List.map_map]
    exact congrArg List.reverse hkeys
  split
  · next h =>
    have hmem := hkeys.symm ▸ hprecedes.mp h
    obtain ⟨c, hc, hnode⟩ := List.mem_map.mp hmem
    have hall : c ∈ r.contributions scope [] r.traversal.order := by
      rw [hsplit, contributions_append]
      exact List.mem_append_left _ hc
    have hlookup : (r.siteAt scope id).offers.lookup e.node = some c.2.outputs := by
      rw [Entries.lookup_eq_some_iff, offers_siteAt, List.mem_reverse]
      · exact List.mem_map.mpr ⟨c, hc, by rw [← hnode]⟩
      · rw [hoffers, List.nodup_reverse]
        exact (List.takeWhile_sublist _).nodup hnodup
    rw [Offers.get?, hlookup, Option.bind_some, eq_of_mem_contributions hall (hnode ▸ hn), hnode]
  · next h =>
    have hlookup : (r.siteAt scope id).offers.lookup e.node = none := by
      rw [← Option.not_isSome_iff_eq_none, Entries.isSome_lookup, hoffers, List.mem_reverse, ← hprecedes]
      exact h
    rw [Offers.get?, hlookup]
    rfl

/-- A node writes the statements that are synthesized at its site. -/
theorem statementsOf_eq {r : Routine} {scope : Scope} {id : NodeId} {n : Node}
    (hn : r.nodes.get? id = some n) (firstLine : Nat) (name : String) :
    (r.draft scope firstLine name).listing.statementsOf id =
      ((r.siteAt scope id).synthesize n.payload).statements :=
  r.statementsOf_foldl_extend scope r.nodup_order (fun u hu => (r.mem_order u).mp hu)
    (mem_contributions hn) firstLine name

section Carried

variable {r : Routine} {scope : Scope} {a b : NodeId} {m n : Node} {l : Listing} {t w : String}

/-- What is handed over comes in, and is said by the node that hands it over. -/
theorem Hands.exists_brings (h : r.Hands a b) (hwell : r.WellFormed scope)
    (hm : r.nodes.get? a = some m) (l : Listing) :
    ∃ t link, (r.siteAt scope b).Brings t link ∧ t ∈ (r.siteAt scope a).sayings l m.payload := by
  obtain ⟨⟨link, hlink, hvalue, rfl, rfl⟩, hprecedes, n, hn, _⟩ := h
  obtain ⟨e, he⟩ := (r.siteAt scope link.source.node).exists_output hwell hm hlink hvalue rfl
  have hoffer : (r.siteAt scope link.sink.node).offers.get? link.source = some e := by
    rw [get?_offers_siteAt (Option.isSome_of_eq_some hn) hm, if_pos hprecedes, he]
  exact ⟨e.text, link, ⟨hlink, hvalue, rfl, e, hoffer, rfl⟩, Site.text_mem_sayings he l⟩

/-- What comes in is said by a node that hands it over. -/
theorem exists_hands {link : Link} (h : (r.siteAt scope b).Brings t link)
    (hwell : r.WellFormed scope) (hn : r.nodes.get? b = some n) (hreads : n.payload.reads = true)
    (l : Listing) :
    ∃ a m, r.Hands a b ∧ r.nodes.get? a = some m ∧ t ∈ (r.siteAt scope a).sayings l m.payload := by
  obtain ⟨hlink, hvalue, hsink, e, hoffer, rfl⟩ := h
  obtain ⟨m, hm⟩ := hwell.exists_source hlink
  rw [get?_offers_siteAt (Option.isSome_of_eq_some hn) hm] at hoffer
  split at hoffer
  · next hprecedes =>
    exact ⟨link.source.node, m, ⟨⟨link, hlink, hvalue, rfl, hsink⟩, hprecedes, n, hn, hreads⟩, hm,
      Site.text_mem_sayings hoffer l⟩
  · exact absurd hoffer (by simp)

/-- A text that is in everything a node says is in everything that is said where it is carried to. -/
theorem Carries.mentions (h : r.Carries a b) (hwell : r.WellFormed scope)
    (hm : r.nodes.get? a = some m) (hn : r.nodes.get? b = some n)
    (ht : ∀ u ∈ (r.siteAt scope a).sayings l m.payload, Mentions t u) :
    ∀ u ∈ (r.siteAt scope b).sayings l n.payload, Mentions t u := by
  induction h generalizing n with
  | refl =>
    obtain rfl : m = n := Option.some.inj (hm.symm.trans hn)
    exact ht
  | tail _ hhands ih =>
    intro u hu
    obtain ⟨hfeeds, _, n', hn', hreads⟩ := id hhands
    obtain rfl : n = n' := Option.some.inj (hn.symm.trans hn')
    obtain ⟨link, hlink, _, rfl, _⟩ := hfeeds
    obtain ⟨k, hk⟩ := hwell.exists_source hlink
    obtain ⟨v, link', hbrings, hv⟩ := hhands.exists_brings hwell hk l
    exact (ih hk v hv).trans (hbrings.mentions hwell hn hreads hu)

/-- A name in what a node says is a word of a node that it was carried from. -/
theorem exists_carries (hw : IsName w) (hwell : r.WellFormed scope) (hn : r.nodes.get? b = some n)
    {u : String} (hu : u ∈ (r.siteAt scope b).sayings l n.payload) (h : Mentions w u) :
    ∃ a m, r.nodes.get? a = some m ∧ (∃ t ∈ r.words m.payload, Mentions w t) ∧ r.Carries a b := by
  -- The node that a name comes in from is written earlier.
  induction hindex : r.traversal.order.idxOf b using Nat.strong_induction_on generalizing b n u with
  | _ index ih =>
    rcases Site.explains_of_mentions hw hwell hn hu h with hown | ⟨hreads, t, link, hbrings, ht⟩
    · exact ⟨b, n, hn, hown, .refl⟩
    · obtain ⟨c, k, hhands, hk, hspoken⟩ := exists_hands hbrings hwell hn hreads l
      have hearlier : r.traversal.order.idxOf c < index := hindex ▸ hhands.2.1
      obtain ⟨a, m, hm, hwords, hcarries⟩ := ih _ hearlier hk hspoken ht rfl
      exact ⟨a, m, hm, hwords, hcarries.tail hhands⟩

end Carried

/-- Nothing but one node brings the name along. -/
structure OnlyAt (r : Routine) (w : String) (id : NodeId) : Prop where
  args : ∀ k ∈ r.args.keys, ¬ Mentions w k
  vars : ∀ k ∈ r.vars.keys, ¬ Mentions w k
  nodes : ∀ e ∈ r.nodes.entries, e.1 ≠ id → ∀ t ∈ r.words e.2.payload, ¬ Mentions w t

instance (r : Routine) (w : String) (id : NodeId) : Decidable (r.OnlyAt w id) :=
  decidable_of_iff ((∀ k ∈ r.args.keys, ¬ Mentions w k) ∧ (∀ k ∈ r.vars.keys, ¬ Mentions w k) ∧
      ∀ e ∈ r.nodes.entries, e.1 ≠ id → ∀ t ∈ r.words e.2.payload, ¬ Mentions w t)
    ⟨fun h => ⟨h.1, h.2.1, h.2.2⟩, fun h => ⟨h.args, h.vars, h.nodes⟩⟩

section Lines

variable {r : Routine} {scope : Scope} {firstLine : Nat} {name w t : String} {id : NodeId} {n : Node}
  {line : Line}

/-- A line declares variables, or it is a statement that is synthesized at the site of its owner. -/
theorem mem_lines_iff : line ∈ (r.draft scope firstLine name).listing.lines ↔
    (∃ text ∈ r.declarationLines, line = ⟨none, [.text text]⟩) ∨
      ∃ b n, r.nodes.get? b = some n ∧
        ∃ st ∈ ((r.siteAt scope b).synthesize n.payload).statements, line = ⟨some b, st⟩ := by
  rw [listing_draft, Listing.lines_pushNodes, List.mem_append, preamble_eq]
  refine or_congr ?_ ?_
  · simp only [List.mem_map, eq_comm]
  · simp only [blocks, List.flatMap_map, List.mem_flatMap, List.mem_map]
    constructor
    · rintro ⟨c, hc, st, hst, rfl⟩
      have hmem := (r.mem_order c.1).mp (r.keys_contributions_order scope ▸ List.mem_map_of_mem hc)
      obtain ⟨n, hn⟩ := Option.isSome_iff_exists.mp hmem
      exact ⟨c.1, n, hn, st, eq_of_mem_contributions hc hn ▸ hst, rfl⟩
    · rintro ⟨b, n, hn, st, hst, rfl⟩
      exact ⟨_, mem_contributions hn, st, hst, rfl⟩

theorem not_mentions_type (hw : IsName w) (type : ValueType) : ¬ Mentions w type.name :=
  hw.not_mentions_glue (by cases type <;> decide)

theorem not_mentions_declaration (hw : IsName w) (hvars : ∀ k ∈ r.vars.keys, ¬ Mentions w k)
    {text : String} (htext : text ∈ r.declarationLines) : ¬ Mentions w text := by
  obtain ⟨type, _, hsome⟩ := List.mem_filterMap.mp htext
  dsimp only at hsome
  split at hsome
  · exact absurd hsome (by simp)
  · obtain rfl := Option.some.inj hsome
    rw [hw.between (g := " AS ") (by decide), hw.after (g := "DIM ") (by decide), hw.commaList]
    rintro (⟨k, hk, hmention⟩ | hmention)
    · obtain ⟨v, hv, rfl⟩ := List.mem_map.mp hk
      exact hvars v.1 (List.mem_map_of_mem (List.mem_filter.mp hv).1) hmention
    · exact not_mentions_type hw type hmention

theorem not_mentions_header (hw : IsName w) (hname : ¬ Mentions w name)
    (hargs : ∀ k ∈ r.args.keys, ¬ Mentions w k) : ¬ Mentions w (r.header name) := by
  rw [header, hw.between (g := ") ") (by decide), hw.between (g := "(") (by decide),
    hw.after (g := "Function ") (by decide), hw.commaList]
  rintro ((hmention | ⟨k, hk, hmention⟩) | hmention)
  · exact hname hmention
  · obtain ⟨a, ha, rfl⟩ := List.mem_map.mp hk
    rw [hw.between (g := " ") (by decide)] at hmention
    exact hmention.elim (hargs a.1 (List.mem_map_of_mem ha)) (not_mentions_type hw a.2)
  · exact not_mentions_type hw r.returns hmention

theorem lookup_offers (hn : r.nodes.get? id = some n) :
    (r.draft scope firstLine name).offers.lookup id =
      some ((r.siteAt scope id).synthesize n.payload).outputs := by
  have hoffers : (r.draft scope firstLine name).offers =
      ((r.contributions scope [] r.traversal.order).map fun c => (c.1, c.2.outputs)).reverse := by
    rw [draft, foldl_extend]
    exact List.append_nil _
  rw [hoffers, Entries.lookup_eq_some_iff, List.mem_reverse]
  · exact List.mem_map.mpr ⟨_, mem_contributions hn, rfl⟩
  · rw [List.map_reverse, List.map_map, List.nodup_reverse]
    exact r.nodup_keys_contributions scope

theorem statementText_mem_sayings {st : Statement}
    (hst : st ∈ ((r.siteAt scope id).synthesize n.payload).statements) (l : Listing) :
    l.statementText st ∈ (r.siteAt scope id).sayings l n.payload :=
  List.mem_append_right _ (List.mem_map_of_mem hst)

/-- The lines of the nodes that a text is carried to have the text. -/
theorem Carries.mentions_line {b : NodeId} (h : r.Carries id b) (hwell : r.WellFormed scope)
    (hn : r.nodes.get? id = some n)
    (hspoken : ∀ l, ∀ u ∈ (r.siteAt scope id).sayings l n.payload, Mentions t u)
    (hline : line ∈ (r.draft scope firstLine name).listing.lines) (howner : line.owner = some b) :
    Mentions t ((r.draft scope firstLine name).listing.statementText line.statement) := by
  rcases mem_lines_iff.mp hline with ⟨text, _, rfl⟩ | ⟨b, k, hk, st, hst, rfl⟩
  · exact absurd howner (by simp)
  · obtain rfl := Option.some.inj howner
    exact h.mentions hwell hn hk (hspoken _) _ (statementText_mem_sayings hst _)

/-- Where one node only brings the name along, a line with the name belongs to a node that it is
carried to. -/
theorem exists_owner (hw : IsName w) (hwell : r.WellFormed scope) (honly : r.OnlyAt w id)
    (hline : line ∈ (r.draft scope firstLine name).listing.lines)
    (hmention : Mentions w ((r.draft scope firstLine name).listing.statementText line.statement)) :
    ∃ b, line.owner = some b ∧ r.Carries id b := by
  rcases mem_lines_iff.mp hline with ⟨text, htext, rfl⟩ | ⟨b, k, hk, st, hst, rfl⟩
  · have hnot := not_mentions_declaration hw honly.vars htext
    exact absurd hmention (by simpa [Listing.statementText, Listing.fragmentText] using hnot)
  · obtain ⟨a, m, hm, ⟨u, hu, humention⟩, hcarries⟩ :=
      exists_carries hw hwell hk (statementText_mem_sayings hst _) hmention
    have ha : a = id := by
      by_contra hne
      exact honly.nodes (a, m) (r.nodes.mem_entries_iff.mpr hm) hne u hu humention
    exact ⟨b, rfl, ha ▸ hcarries⟩

/-- A text that a node with one statement says is in no other line exactly when it is carried to no
other line and none has it otherwise. -/
theorem countP_carried (hwell : r.WellFormed scope) (hn : r.nodes.get? id = some n)
    (hspoken : ∀ l, ∀ u ∈ (r.siteAt scope id).sayings l n.payload, Mentions t u) {st : Statement}
    (hone : (r.draft scope firstLine name).listing.statementsOf id = [st]) :
    let l := (r.draft scope firstLine name).listing
    (l.lines.countP fun line => Mentions t (l.statementText line.statement)) ≤ 1 ↔
      (¬ ∃ m, m ≠ id ∧ r.Carries id m ∧ l.statementsOf m ≠ []) ∧
        ∀ line ∈ l.lines, Mentions t (l.statementText line.statement) →
          ∃ m, line.owner = some m ∧ r.Carries id m := by
  intro l
  have hown : ∀ line ∈ l.lines, line.owner = some id →
      decide (Mentions t (l.statementText line.statement)) = true :=
    fun line hline howner =>
      decide_eq_true (Carries.mentions_line .refl hwell hn hspoken hline howner)
  rw [Listing.countP_le_one_iff hone hown]
  simp only [decide_eq_true_eq]
  constructor
  · intro hall
    refine ⟨?_, fun line hline hmention => ⟨id, hall line hline hmention, .refl⟩⟩
    rintro ⟨m, hne, hcarries, hwrites⟩
    obtain ⟨line, hline, howner⟩ := (l.statementsOf_ne_nil_iff m).mp hwrites
    have hid := hall line hline (hcarries.mentions_line hwell hn hspoken hline howner)
    exact hne (Option.some.inj (howner.symm.trans hid))
  · rintro ⟨hno, hcarried⟩ line hline hmention
    obtain ⟨m, howner, hcarries⟩ := hcarried line hline hmention
    by_contra hne
    refine hno ⟨m, ?_, hcarries, (l.statementsOf_ne_nil_iff m).mpr ⟨line, hline, howner⟩⟩
    rintro rfl
    exact hne howner

end Lines

/-- A call that is a statement is written once, as long as no other node that its result is carried to
writes anything and no other text happens to be the same. Where the built-in's name cannot be found
elsewhere, the first of the two is all that matters, and it decides about the lines with the name. -/
theorem builtin_written_once_iff {r : Routine} {scope : Scope} {name : String}
    (hvalid : (r.report scope name).valid = true) {id : NodeId} {n : Node} {c : Call}
    (hn : r.nodes.get? id = some n) (hcall : n.payload = .call c) (hprocess : c.asProcess = true)
    (firstLine : Nat) :
    let d := r.draft scope firstLine name
    let text := Site.callText c.builtin.name
      ((r.siteAt scope id).arguments c.argBase (c.args.values.map TypedSlot.literal?))
    let repeats := ∃ m, m ≠ id ∧ r.Carries id m ∧ d.listing.statementsOf m ≠ []
    let count := d.listing.lines.countP fun line => Mentions text (d.listing.statementText line.statement)
    d.listing.statementsOf id = [[.text text]] ∧
    d.offers.lookup id = some [(c.resultPort, .atom text)] ∧
    (r.generate scope firstLine name).code = String.join d.listing.codeLines ∧
    (count ≤ 1 ↔ ¬ repeats ∧ ∀ line ∈ d.listing.lines,
      Mentions text (d.listing.statementText line.statement) →
        ∃ m, line.owner = some m ∧ r.Carries id m) ∧
    (r.OnlyAt c.builtin.name id →
      (count ≤ 1 ↔ ¬ repeats) ∧
      (¬ Mentions c.builtin.name name →
        (d.listing.codeLines.countP (Mentions c.builtin.name ·) ≤ 1 ↔ ¬ repeats))) := by
  intro d text repeats count
  have hwell := wellFormed_of_valid hvalid
  have hone : d.listing.statementsOf id = [[.text text]] := by
    rw [statementsOf_eq hn, hcall, Site.synthesize, Site.call, if_pos hprocess]
  have hoffers : d.offers.lookup id = some [(c.resultPort, .atom text)] := by
    rw [lookup_offers hn, hcall]
    rfl
  have htext : ∀ l, ∀ u ∈ (r.siteAt scope id).sayings l n.payload, u = text := by
    intro l u hu
    rw [hcall] at hu
    exact Site.eq_of_mem_sayings_call hu
  have hname : Mentions c.builtin.name text :=
    (((Mentions.refl _).append_left _).append_left _).append_left _
  have hspoken : ∀ l, ∀ u ∈ (r.siteAt scope id).sayings l n.payload, Mentions text u :=
    fun l u hu => htext l u hu ▸ .refl text
  have hcount := countP_carried hwell hn hspoken hone
  refine ⟨hone, hoffers, d.listing.code_eq_join, hcount, fun honly => ⟨?_, fun hfresh => ?_⟩⟩
  · refine hcount.trans (and_iff_left fun line hline hmention => ?_)
    exact exists_owner c.builtin.isName hwell honly hline (hname.trans hmention)
  · have hheader : ¬ Mentions c.builtin.name d.listing.header := by
      rw [header_draft]
      exact not_mentions_header c.builtin.isName hfresh honly.args
    rw [Listing.countP_codeLines c.builtin.isName hheader]
    refine (countP_carried hwell hn (fun l u hu => hname.trans (hspoken l u hu)) hone).trans ?_
    exact and_iff_left fun line hline hmention =>
      exists_owner c.builtin.isName hwell honly hline hmention

/-- A number is stored. Either the result is returned, or one is added to it in vain. -/
def storing (returned : Bool) : Routine :=
  let store : Call :=
    { builtin := .store
      args := .ofList [("key", .any (some (.text "k"))), ("value", .any (some (.number 1)))]
      returns := .uint64
      asProcess := true }
  { isProcess := false
    args := .empty
    vars := .empty
    returns := .uint64
    nodes := .ofList
      [(0, .start),
       (1, .ofPayload "End" (if returned then .returnLinked .uint64 else .returnLiteral (.number 0))),
       (2, .ofPayload "Store" (.call store)),
       (3, .ofPayload "Operation" (.operation (.uint64 .add ⟨none, some 1⟩)))]
    links :=
      [⟨⟨0, 0⟩, ⟨2, 0⟩, .flow⟩, ⟨⟨2, 1⟩, ⟨1, 0⟩, .flow⟩,
       ⟨⟨2, 4⟩, if returned then ⟨1, 1⟩ else ⟨3, 0⟩, .value .uint64⟩] }

/-- With the sum left alone, the line of the call is the only one that stores. -/
theorem builtin_written_once_storing :
    let r := storing false
    (r.report none "F").valid = true ∧ r.Carries 2 3 ∧
      (r.draft none 1 "F").listing.codeLines.countP (Mentions "STORE" ·) ≤ 1 := by
  have hvalid : ((storing false).report none "F").valid = true := by decide
  have hhands : ∀ a b, (storing false).Hands a b → a = 2 ∧ b = 3 := by
    rintro a b ⟨⟨l, hl, hvalue, rfl, rfl⟩, -⟩
    revert l
    decide
  have hcarries : ∀ m, (storing false).Carries 2 m → m = 2 ∨ m = 3 := by
    intro m h
    induction h with
    | refl => exact .inl rfl
    | tail _ hlast _ => exact .inr (hhands _ _ hlast).2
  have hfeeds : (storing false).Hands 2 3 := by
    refine ⟨⟨⟨⟨2, 4⟩, ⟨3, 0⟩, .value .uint64⟩, by decide, rfl, rfl, rfl⟩, by decide, ?_⟩
    exact ⟨_, rfl, rfl⟩
  have hstore : (storing false).nodes.get? 2 = some _ := rfl
  refine ⟨hvalid, .single hfeeds, ?_⟩
  obtain ⟨-, -, -, -, honce⟩ := builtin_written_once_iff hvalid hstore rfl rfl 1
  refine ((honce (by decide)).2 (by decide)).mpr ?_
  rintro ⟨m, hne, hm, hwrites⟩
  obtain rfl | rfl := hcarries m hm
  · exact hne rfl
  · exact hwrites (by decide +kernel)

/-- With the result returned, the number is stored in two lines. -/
theorem storing_returned_stores_twice :
    let r := storing true
    (r.report none "F").valid = true ∧ r.IsStart 0 ∧ OnPath r.links 0 2 ∧
      (r.draft none 1 "F").listing.statementsOf 2 = [[.text "STORE(\"k\", 1)"]] ∧
      (r.draft none 1 "F").listing.statementsOf 1 = [[.text "RETURN STORE(\"k\", 1)"]] ∧
      (r.draft none 1 "F").listing.codeLines.countP (Mentions "STORE" ·) = 2 := by
  have hstart : (storing true).IsStart 0 := ((storing true).start?_eq_some_iff 0).mp (by decide)
  have hpath : OnPath (storing true).links 0 2 :=
    OnPath.flow (l := ⟨⟨0, 0⟩, ⟨2, 0⟩, .flow⟩) (by decide) rfl .start
  exact ⟨by decide, hstart, hpath, by decide +kernel, by decide +kernel, by decide +kernel⟩

/-- The call of a process is its statement when nothing reads the result. It is in a line of the listing
if a node that it is carried to writes a statement, and only then if no other node brings the name of
the callee along. -/
theorem processCall_written_iff {p : Project} (hvalid : (Report.ofRoutines p.routines).valid = true)
    {name : String} {r : Routine} (hr : (name, r) ∈ p.routines.entries) {id : NodeId} {n : Node}
    {callee : String} (hn : r.nodes.get? id = some n) (hprocess : n.payload = .process callee)
    (firstLine : Nat) :
    let l := (r.draft p.scope firstLine name).listing
    let text := (r.siteAt p.scope id).processCall callee
    let written := ∃ m, r.Carries id m ∧ l.statementsOf m ≠ []
    let occurs := ∃ u ∈ l.lineTexts l.firstLine l.lines, Mentions text u
    (l.statementsOf id =
      if r.links.any fun k => !k.isFlow && k.source.node = id then [] else [[.text text]]) ∧
    (written ↔ ∃ line ∈ l.lines, ∃ m, line.owner = some m ∧ r.Carries id m ∧
      Mentions text (l.statementText line.statement)) ∧
    (written → occurs) ∧
    (IsName callee → r.OnlyAt callee id → (occurs ↔ written)) := by
  intro l text written occurs
  have hwell : r.WellFormed p.scope := wellFormed_of_valid (Report.valid_of_ofRoutines hvalid hr)
  have hspoken : ∀ l, ∀ u ∈ (r.siteAt p.scope id).sayings l n.payload, Mentions text u := by
    intro l u hu
    rw [hprocess] at hu
    exact Site.eq_of_mem_sayings_process hu ▸ .refl text
  have hown : l.statementsOf id =
      if r.links.any fun k => !k.isFlow && k.source.node = id then [] else [[.text text]] := by
    have hreaders : ((r.siteAt p.scope id).outgoing.filter fun k => !k.isFlow).isEmpty =
        !r.links.any fun k => !k.isFlow && k.source.node = id :=
      Site.isEmpty_readers _
    rw [statementsOf_eq hn, hprocess, Site.synthesize, Site.statements_process, hreaders]
    cases r.links.any fun k => !k.isFlow && k.source.node = id <;> rfl
  have hwritten : written ↔ ∃ line ∈ l.lines, ∃ m, line.owner = some m ∧ r.Carries id m ∧
      Mentions text (l.statementText line.statement) := by
    constructor
    · rintro ⟨m, hcarries, hwrites⟩
      obtain ⟨line, hline, howner⟩ := (l.statementsOf_ne_nil_iff m).mp hwrites
      exact ⟨line, hline, m, howner, hcarries, hcarries.mentions_line hwell hn hspoken hline howner⟩
    · rintro ⟨line, hline, m, howner, hcarries, _⟩
      exact ⟨m, hcarries, (l.statementsOf_ne_nil_iff m).mpr ⟨line, hline, howner⟩⟩
  have hoccurs : written → occurs := by
    intro h
    obtain ⟨line, hline, _, _, _, hmention⟩ := hwritten.mp h
    obtain ⟨u, hu, hline⟩ := Listing.exists_lineText hline
    exact ⟨u, hu, hmention.trans hline⟩
  refine ⟨hown, hwritten, hoccurs, fun hname honly => ⟨?_, hoccurs⟩⟩
  rintro ⟨u, hu, hmention⟩
  have hcallee : Mentions callee text := (((Mentions.refl _).append_left _).append_left _).append_left _
  obtain ⟨line, hline, hmention⟩ := Listing.exists_line_of_mentions hname hu (hcallee.trans hmention)
  obtain ⟨m, howner, hcarries⟩ := exists_owner hname hwell honly hline hmention
  exact ⟨m, hcarries, (l.statementsOf_ne_nil_iff m).mpr ⟨line, hline, howner⟩⟩

/-- One is added to what a call of `log` gives. The sum is returned or left alone. -/
def addingToLog (returned : Bool) : Routine :=
  { isProcess := false
    args := .empty
    vars := .empty
    returns := .uint64
    nodes := .ofList
      [(0, .start),
       (1, .ofPayload "End" (if returned then .returnLinked .uint64 else .returnLiteral (.number 0))),
       (2, .ofPayload "Process" (.process "log")),
       (3, .ofPayload "Operation" (.operation (.uint64 .add ⟨none, some 1⟩)))]
    links :=
      [⟨⟨0, 0⟩, ⟨2, 0⟩, .flow⟩, ⟨⟨2, 1⟩, ⟨1, 0⟩, .flow⟩, ⟨⟨2, 2⟩, ⟨3, 0⟩, .value .uint64⟩] ++
        if returned then [⟨⟨3, 1⟩, ⟨1, 1⟩, .value .uint64⟩] else [] }

def logging (returned : Bool) : Project :=
  { name := "P", routines := .ofList [("F", addingToLog returned), ("log", .fresh true)] }

/-- With the sum returned, the call is in the line of the return. -/
theorem processCall_written_logging :
    let p := logging true
    let r := addingToLog true
    (Report.ofRoutines p.routines).valid = true ∧ ("F", r) ∈ p.routines.entries ∧ r.Carries 2 1 ∧
      ∃ u ∈ (r.draft p.scope 1 "F").listing.lineTexts 1 (r.draft p.scope 1 "F").listing.lines,
        Mentions "log()" u := by
  have hvalid : (Report.ofRoutines (logging true).routines).valid = true := by decide
  have hr : ("F", addingToLog true) ∈ (logging true).routines.entries := by decide
  have hcall : (addingToLog true).nodes.get? 2 = some _ := rfl
  have hsum : (addingToLog true).Hands 2 3 :=
    ⟨⟨⟨⟨2, 2⟩, ⟨3, 0⟩, .value .uint64⟩, by decide, rfl, rfl, rfl⟩, by decide, _, rfl, rfl⟩
  have hreturn : (addingToLog true).Hands 3 1 :=
    ⟨⟨⟨⟨3, 1⟩, ⟨1, 1⟩, .value .uint64⟩, by decide, rfl, rfl, rfl⟩, by decide, _, rfl, rfl⟩
  have hcarries : (addingToLog true).Carries 2 1 := .tail (.single hsum) hreturn
  have htext : ((addingToLog true).siteAt (logging true).scope 2).processCall "log" = "log()" := by
    decide +kernel
  refine ⟨hvalid, hr, hcarries, ?_⟩
  obtain ⟨-, -, hoccurs, -⟩ := processCall_written_iff hvalid hr hcall rfl 1
  rw [htext] at hoccurs
  exact hoccurs ⟨1, hcarries, by decide +kernel⟩

/-- With the sum left alone, the call is in no line, though control comes to it. -/
theorem logging_alone_calls_nothing :
    let p := logging false
    let r := addingToLog false
    (Report.ofRoutines p.routines).valid = true ∧ ("F", r) ∈ p.routines.entries ∧ r.IsStart 0 ∧
      OnPath r.links 0 2 ∧ (r.siteAt p.scope 2).processCall "log" = "log()" ∧
      (r.generate p.scope 1 "F").code = "Function F() Uint64\n1\tRETURN 0\nEnd Function" ∧
      ∀ u ∈ (r.draft p.scope 1 "F").listing.lineTexts 1 (r.draft p.scope 1 "F").listing.lines,
        ¬ Mentions "log()" u := by
  have hstart : (addingToLog false).IsStart 0 :=
    ((addingToLog false).start?_eq_some_iff 0).mp (by decide)
  have hpath : OnPath (addingToLog false).links 0 2 :=
    OnPath.flow (l := ⟨⟨0, 0⟩, ⟨2, 0⟩, .flow⟩) (by decide) rfl .start
  exact ⟨by decide, by decide, hstart, hpath, by decide +kernel, by decide +kernel, by decide +kernel⟩

end Routine

end FlowBasic
