import FlowBasic.Proofs.CarriedCalls
import FlowBasic.Proofs.ReadBack

namespace FlowBasic

/-- The node for an operator. A slot without a number takes its operand from a port. -/
def Operator.payload (ops : Operands UInt64) : Operator → Payload
  | arithmetic o _ => .operation (.uint64 o ops)
  | comparison c => .condition (.uint64 c ops)

/-- An operator is written between its operands. -/
theorem Operator.outputs_synthesize (o : Operator) (ops : Operands UInt64) (s : Site) :
    (s.synthesize (o.payload ops)).outputs = [(1, ⟨s.operand (ops.left.map .number) 0 ++ " " ++ o.symbol ++
      " " ++ s.operand (ops.right.map .number) 1, true⟩)] := by
  cases o with
  | arithmetic o h => cases o <;> first | exact absurd rfl h | rfl
  | comparison c => rfl

theorem NodeMap.contains_of_get? {m : NodeMap} {id : NodeId} {n : Node} (h : m.get? id = some n) :
    m.contains id = true := by
  rw [contains, h]
  rfl

namespace Routine

/-- The name of an argument or a variable comes out at a port. -/
def OffersName (r : Routine) (e : Endpoint) (s : String) : Prop :=
  ∃ n, r.nodes.get? e.node = some n ∧
    (n.payload = .argument s ∧ e.port.toNat = 0 ∨
      n.payload = .fetch s ∧ (∃ l ∈ r.links, l.source = e) ∨
      n.payload = .start ∧ ∃ i, r.args.keys[i]? = some s ∧ e.port.toNat = 1 + i)

/-- A slot holds a term: its number, or what is drawn at the other end of the first link into its port.
No cycle leads through the link, as is right for a tree. -/
def Holds (r : Routine) (id : NodeId) (port : Nat) (slot : Option UInt64) (t : Term)
    (drawn : Endpoint → Prop) : Prop :=
  match slot with
  | some v => t = .number v
  | none => ∃ l, r.links.find? (·.enters id port) = some l ∧
      ¬ Relation.ReflTransGen r.Linked id l.source.node ∧ drawn l.source

/-- The nodes and links behind a port draw a term. -/
def Draws (r : Routine) : Term → Endpoint → Prop
  | .number _, _ => False
  | .name s, e => r.OffersName e s
  | .complement t, e => e.port.toNat = 1 ∧ ∃ n ops, r.nodes.get? e.node = some n ∧
      n.payload = .operation (.uint64 .not ops) ∧ r.Holds e.node 0 ops.left t (r.Draws t)
  | .binary o a b, e => e.port.toNat = 1 ∧ ∃ n ops, r.nodes.get? e.node = some n ∧
      n.payload = o.payload ops ∧ r.Holds e.node 0 ops.left a (r.Draws a) ∧
      r.Holds e.node 1 ops.right b (r.Draws b)

/-- When its turn comes, the node offers the expression at the port. -/
def OffersInTurn (r : Routine) (scope : Scope) (e : Endpoint) (x : Expression) : Prop :=
  ∃ n, r.nodes.get? e.node = some n ∧
    ((r.siteAt scope e.node).synthesize n.payload).outputs.lookup e.port.toNat = some x

variable {r : Routine} {scope : Scope} {e : Endpoint} {t : Term}

theorem OffersName.inTurn {s : String} (h : r.OffersName e s) : r.OffersInTurn scope e (.atom s) := by
  obtain ⟨n, hn, h⟩ := h
  refine ⟨n, hn, ?_⟩
  rcases h with ⟨hargument, hport⟩ | ⟨hfetch, l, hl, hsource⟩ | ⟨hstart, i, hi, hport⟩
  · rw [hargument, hport]
    rfl
  · rw [hfetch, Site.synthesize]
    apply lookup_of_forall_eq
    · rw [List.map_map]
      exact List.mem_map.mpr ⟨l, List.mem_filter.mpr ⟨hl, decide_eq_true (congrArg (·.node) hsource)⟩,
        congrArg (·.port.toNat) hsource⟩
    · intro o ho
      obtain ⟨_, _, rfl⟩ := List.mem_map.mp ho
      rfl
  · rw [hstart, hport, Site.synthesize, Site.lookup_startOutputs]
    exact congrArg (Option.map Expression.atom) hi

theorem OffersInTurn.contains {x : Expression} (h : r.OffersInTurn scope e x) :
    r.nodes.contains e.node = true := by
  obtain ⟨n, hn, _⟩ := h
  exact NodeMap.contains_of_get? hn

/-- What has been offered is there when a node is written that it precedes, and at the end. -/
theorem OffersInTurn.get?_siteAt {x : Expression} (h : r.OffersInTurn scope e x) {id : NodeId}
    (hid : r.nodes.contains id = true) (hprecedes : Precedes r.traversal.order e.node id) :
    (r.siteAt scope id).offers.get? e = some x := by
  obtain ⟨n, hn, hlookup⟩ := h
  rw [get?_offers_siteAt hid hn, if_pos hprecedes, hlookup]

theorem OffersInTurn.get?_draft {x : Expression} (h : r.OffersInTurn scope e x) (firstLine : Nat)
    (name : String) : (r.draft scope firstLine name).offers.get? e = some x := by
  obtain ⟨n, hn, hlookup⟩ := h
  rw [Offers.get?, lookup_offers hn, Option.bind_some, hlookup]

theorem input?_siteAt (r : Routine) (scope : Scope) (id : NodeId) (port : Nat) :
    (r.siteAt scope id).input? port =
      (r.links.find? (·.enters id port)).bind fun l => (r.siteAt scope id).offers.get? l.source := rfl

theorem Holds.imp {id : NodeId} {port : Nat} {slot : Option UInt64} {p q : Endpoint → Prop}
    (h : r.Holds id port slot t p) (himp : ∀ e, p e → q e) : r.Holds id port slot t q := by
  cases slot with
  | some v => exact h
  | none =>
    obtain ⟨l, hfind, hcycle, hp⟩ := h
    exact ⟨l, hfind, hcycle, himp _ hp⟩

/-- The operand in a slot is the text of the term, if the terms of the links are offered. -/
theorem Holds.operand_eq {id : NodeId} {port : Nat} {slot : Option UInt64}
    (h : r.Holds id port slot t (r.OffersInTurn scope · t.expression))
    (hid : r.nodes.contains id = true) :
    (r.siteAt scope id).operand (slot.map .number) port = t.expression.asOperand := by
  cases slot with
  | some v =>
    obtain rfl : t = .number v := h
    rfl
  | none =>
    obtain ⟨l, hfind, hcycle, hoffers⟩ := h
    have hl : l ∈ r.links := List.mem_of_find?_eq_some hfind
    have henters := List.find?_some hfind
    obtain ⟨hsink, _⟩ : l.sink.node = id ∧ l.sink.port.toNat = port := by
      simpa [Link.enters] using henters
    -- Off every cycle the source is written first, so its expression is there to be read.
    have hprecedes : Precedes r.traversal.order l.source.node id := by
      have hcases := r.precedes_or_cycle hl hoffers.contains (hsink ▸ hid)
      rw [hsink] at hcases
      exact hcases.resolve_right hcycle
    have hinput : (r.siteAt scope id).input? port = some t.expression := by
      rw [input?_siteAt, hfind, Option.bind_some]
      exact hoffers.get?_siteAt hid hprecedes
    rw [Option.map_none, Site.operand, hinput]
    rfl

/-- A drawing offers the text of its term. -/
theorem Draws.inTurn (h : r.Draws t e) : r.OffersInTurn scope e t.expression := by
  induction t generalizing e with
  | number v => exact h.elim
  | name s => exact OffersName.inTurn h
  | complement t ih =>
    obtain ⟨hport, n, ops, hn, hpayload, hslot⟩ := h
    have hoperand := (hslot.imp fun _ => ih).operand_eq (NodeMap.contains_of_get? hn)
    refine ⟨n, hn, ?_⟩
    rw [hpayload, hport, Term.expression, ← hoperand]
    rfl
  | binary o a b iha ihb =>
    obtain ⟨hport, n, ops, hn, hpayload, hleft, hright⟩ := h
    have hid := NodeMap.contains_of_get? hn
    have hfirst := (hleft.imp fun _ => iha).operand_eq hid
    have hsecond := (hright.imp fun _ => ihb).operand_eq hid
    refine ⟨n, hn, ?_⟩
    rw [hpayload, hport, o.outputs_synthesize, Term.expression, ← hfirst, ← hsecond]
    rfl

/-- The text of a drawn term says how it was drawn: it is read back to the term by its brackets, and no
drawing of another term has it. -/
theorem drawn_text_determines_term (hdrawn : r.Draws t e) (hnamed : t.named = true) (scope : Scope)
    (firstLine : Nat) (name : String) :
    ∃ x, (r.draft scope firstLine name).offers.get? e = some x ∧
      (∀ id, r.nodes.contains id = true → Precedes r.traversal.order e.node id →
        (r.siteAt scope id).offers.get? e = some x) ∧
      Term.read? x.text = some t ∧
      ∀ (r' : Routine) (t' : Term) (e' : Endpoint), r'.Draws t' e' → t'.named = true →
        ∀ scope' firstLine' name' x', (r'.draft scope' firstLine' name').offers.get? e' = some x' →
          x'.text = x.text → t' = t := by
  have hoffers : r.OffersInTurn scope e t.expression := hdrawn.inTurn
  have hread := Term.read?_expression hnamed
  refine ⟨t.expression, hoffers.get?_draft firstLine name, fun id => hoffers.get?_siteAt, hread, ?_⟩
  intro r' t' e' hdrawn' hnamed' scope' firstLine' name' x' hget htext
  have hoffers' : r'.OffersInTurn scope' e' t'.expression := hdrawn'.inTurn
  obtain rfl : t'.expression = x' :=
    Option.some.inj ((hoffers'.get?_draft firstLine' name').symm.trans hget)
  have hread' := Term.read?_expression hnamed'
  rw [htext, hread] at hread'
  exact (Option.some.inj hread').symm

theorem rank_le_of_linked {rank : NodeId → Nat}
    (hrank : ∀ l ∈ r.links, rank l.source.node ≤ rank l.sink.node) {a b : NodeId}
    (h : Relation.ReflTransGen r.Linked a b) : rank a ≤ rank b := by
  induction h with
  | refl => exact Nat.le_refl _
  | tail _ hlink ih =>
    obtain ⟨l, hl, rfl, rfl⟩ := hlink
    exact Nat.le_trans ih (hrank l hl)

end Routine

/-- Two differences that only the brackets tell apart, in a loop. The second one is complemented and
compared with the largest number. -/
def Routine.differences : Routine :=
  { isProcess := false
    args := .ofList [("a", .uint64), ("b", .uint64)]
    vars := .ofList [("x", .uint64)]
    returns := .uint64
    nodes := .ofList
      [(0, .start),
       (1, .ofPayload "End" (.returnLinked .uint64)),
       (2, .ofPayload "Let" (.assign "x" (.uint64 none))),
       (3, .ofPayload "Control" (.branch .ifThen)),
       (4, .ofPayload "Variable" (.fetch "x")),
       (5, .ofPayload "Argument" (.argument "b")),
       (6, .ofPayload "Operation" (.operation (.uint64 .subtract .unset))),
       (7, .ofPayload "Operation" (.operation (.uint64 .subtract .unset))),
       (8, .ofPayload "Operation" (.operation (.uint64 .subtract .unset))),
       (9, .ofPayload "Operation" (.operation (.uint64 .subtract .unset))),
       (10, .ofPayload "Operation" (.operation (.uint64 .not .unset))),
       (11, .ofPayload "Condition" (.condition (.uint64 .lowerOrEqual ⟨none, some 18446744073709551615⟩)))]
    links :=
      [⟨⟨0, 0⟩, ⟨2, 0⟩, .flow⟩, ⟨⟨2, 1⟩, ⟨3, 0⟩, .flow⟩, ⟨⟨3, 2⟩, ⟨2, 0⟩, .flow⟩,
       ⟨⟨3, 3⟩, ⟨1, 0⟩, .flow⟩, ⟨⟨11, 1⟩, ⟨3, 1⟩, .value .uint64⟩, ⟨⟨7, 1⟩, ⟨2, 2⟩, .value .uint64⟩,
       ⟨⟨10, 1⟩, ⟨11, 0⟩, .value .uint64⟩, ⟨⟨9, 1⟩, ⟨10, 0⟩, .value .uint64⟩,
       ⟨⟨0, 1⟩, ⟨9, 0⟩, .value .uint64⟩, ⟨⟨8, 1⟩, ⟨9, 1⟩, .value .uint64⟩,
       ⟨⟨5, 0⟩, ⟨8, 0⟩, .value .uint64⟩, ⟨⟨4, 0⟩, ⟨8, 1⟩, .value .uint64⟩,
       ⟨⟨6, 1⟩, ⟨7, 0⟩, .value .uint64⟩, ⟨⟨4, 0⟩, ⟨7, 1⟩, .value .uint64⟩,
       ⟨⟨0, 1⟩, ⟨6, 0⟩, .value .uint64⟩, ⟨⟨0, 2⟩, ⟨6, 1⟩, .value .uint64⟩,
       ⟨⟨4, 0⟩, ⟨1, 1⟩, .value .uint64⟩] }

/-- How far down a node stands; the loop stands on one level. -/
def Routine.differencesLevel (id : NodeId) : Nat :=
  if id = 0 ∨ id = 4 ∨ id = 5 then 0
  else if id = 6 ∨ id = 8 then 1
  else if id = 7 ∨ id = 9 then 2
  else if id = 10 then 3
  else if id = 11 then 4
  else if id = 2 ∨ id = 3 then 5
  else 6

theorem Routine.differences_holds {id : NodeId} {port : Nat} {t : Term} {l : Link}
    (hfind : differences.links.find? (·.enters id port) = some l)
    (hlevel : differencesLevel l.source.node < differencesLevel id)
    (hdrawn : differences.Draws t l.source) :
    differences.Holds id port none t (differences.Draws t) := by
  have hlevels : ∀ l ∈ differences.links,
      differencesLevel l.source.node ≤ differencesLevel l.sink.node := by decide
  refine ⟨l, hfind, ?_, hdrawn⟩
  intro hpath
  have hle := rank_le_of_linked hlevels hpath
  omega

namespace Term

def minus (left right : Term) : Term := .binary (.arithmetic .subtract (by decide)) left right

def firstDifference : Term := minus (minus (.name "a") (.name "b")) (.name "x")

def secondDifference : Term := minus (.name "a") (minus (.name "b") (.name "x"))

def comparedDifference : Term :=
  .binary (.comparison .lowerOrEqual) (.complement secondDifference) (.number 18446744073709551615)

end Term

theorem Routine.draws_differences :
    differences.Draws .firstDifference ⟨7, 1⟩ ∧ differences.Draws .comparedDifference ⟨11, 1⟩ := by
  have ha : differences.Draws (.name "a") ⟨0, 1⟩ := ⟨_, rfl, .inr (.inr ⟨rfl, 0, rfl, rfl⟩)⟩
  have hb : differences.Draws (.name "b") ⟨0, 2⟩ := ⟨_, rfl, .inr (.inr ⟨rfl, 1, rfl, rfl⟩)⟩
  have hb' : differences.Draws (.name "b") ⟨5, 0⟩ := ⟨_, rfl, .inl ⟨rfl, rfl⟩⟩
  have hx : differences.Draws (.name "x") ⟨4, 0⟩ :=
    ⟨_, rfl, .inr (.inl ⟨rfl, ⟨⟨4, 0⟩, ⟨1, 1⟩, .value .uint64⟩, by decide, rfl⟩)⟩
  have hinner : differences.Draws (.minus (.name "a") (.name "b")) ⟨6, 1⟩ :=
    ⟨rfl, _, _, rfl, rfl, differences_holds rfl (by decide) ha, differences_holds rfl (by decide) hb⟩
  have hinner' : differences.Draws (.minus (.name "b") (.name "x")) ⟨8, 1⟩ :=
    ⟨rfl, _, _, rfl, rfl, differences_holds rfl (by decide) hb', differences_holds rfl (by decide) hx⟩
  have houter' : differences.Draws .secondDifference ⟨9, 1⟩ :=
    ⟨rfl, _, _, rfl, rfl, differences_holds rfl (by decide) ha, differences_holds rfl (by decide) hinner'⟩
  have hnot : differences.Draws (.complement .secondDifference) ⟨10, 1⟩ :=
    ⟨rfl, _, _, rfl, rfl, differences_holds rfl (by decide) houter'⟩
  exact ⟨⟨rfl, _, _, rfl, rfl, differences_holds rfl (by decide) hinner, differences_holds rfl (by decide) hx⟩,
    ⟨rfl, _, _, rfl, rfl, differences_holds rfl (by decide) hnot, rfl⟩⟩

/-- The two texts differ, and so do the terms that are read from them. -/
theorem Routine.drawn_text_determines_term_differences :
    let d := differences.draft none 1 "F"
    differences.Draws .firstDifference ⟨7, 1⟩ ∧ Term.firstDifference.named = true ∧
      differences.Draws .comparedDifference ⟨11, 1⟩ ∧ Term.comparedDifference.named = true ∧
      d.offers.get? ⟨7, 1⟩ = some ⟨"(a - b) - x", true⟩ ∧
      Term.read? "(a - b) - x" = some .firstDifference ∧
      d.offers.get? ⟨11, 1⟩ = some ⟨"(!(a - (b - x))) <= 18446744073709551615", true⟩ ∧
      Term.read? "(!(a - (b - x))) <= 18446744073709551615" = some .comparedDifference := by
  have hnamed : Term.firstDifference.named = true := by decide +kernel
  have hnamed' : Term.comparedDifference.named = true := by decide +kernel
  have htext : (differences.draft none 1 "F").offers.get? ⟨7, 1⟩ = some ⟨"(a - b) - x", true⟩ := by
    decide +kernel
  have htext' : (differences.draft none 1 "F").offers.get? ⟨11, 1⟩ =
      some ⟨"(!(a - (b - x))) <= 18446744073709551615", true⟩ := by
    decide +kernel
  obtain ⟨x, hget, _, hread, _⟩ := drawn_text_determines_term draws_differences.1 hnamed none 1 "F"
  obtain ⟨y, hget', _, hread', _⟩ := drawn_text_determines_term draws_differences.2 hnamed' none 1 "F"
  obtain rfl := Option.some.inj (htext.symm.trans hget)
  obtain rfl := Option.some.inj (htext'.symm.trans hget')
  exact ⟨draws_differences.1, hnamed, draws_differences.2, hnamed', htext, hread, htext', hread'⟩

end FlowBasic
