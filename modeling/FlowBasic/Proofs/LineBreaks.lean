import FlowBasic.Proofs.CarriedCalls
import FlowBasic.Proofs.LiteralTexts

namespace FlowBasic

/-- The text does not stay in one line. -/
def Breaks (t : String) : Prop := '\n' ∈ t.toList

instance (t : String) : Decidable (Breaks t) := inferInstanceAs (Decidable ('\n' ∈ t.toList))

@[simp] theorem breaks_append (t u : String) : Breaks (t ++ u) ↔ Breaks t ∨ Breaks u := by
  simp [Breaks]

@[simp] theorem not_breaks_number (n : Nat) : ¬ Breaks (Decimal.text n) := by
  intro h
  exact absurd (Decimal.isDigit_of_mem_text h) (by decide)

theorem breaks_commaList (texts : List String) :
    Breaks (Site.commaList texts) ↔ ∃ t ∈ texts, Breaks t := by
  induction texts with
  | nil => simp +decide
  | cons t texts ih =>
    cases texts with
    | nil => simp [Site.commaList]
    | cons u texts =>
      have hcomma : ¬ Breaks ", " := by decide
      rw [Site.commaList] at ih ⊢
      rw [String.intercalate_cons_cons, breaks_append, breaks_append, or_iff_left hcomma, ih]
      simp

theorem breaks_callText (name : String) (args : List String) :
    Breaks (Site.callText name args) ↔ Breaks name ∨ ∃ t ∈ args, Breaks t := by
  have hopen : ¬ Breaks "(" := by decide
  have hclose : ¬ Breaks ")" := by decide
  simp only [Site.callText, breaks_append, hopen, hclose, or_false, breaks_commaList]

theorem breaks_render (v : Literal) : Breaks v.render ↔ ∃ t ∈ v.text?, Breaks t := by
  cases v with
  | number n => simp [Literal.render, Literal.text?]
  | text s =>
    have hquote : ¬ Breaks "\"" := by decide
    simp [Literal.render, Literal.text?, hquote]

namespace Site

/-- The port that an input is read from, if it is. -/
def source? (s : Site) (literal : Option Literal) (port : Nat) : Option Endpoint :=
  match literal with
  | some _ => none
  | none => (s.routine.links.find? (·.enters s.id port)).map (·.source)

def argumentSources (s : Site) (base : Nat) : List (Option Literal) → List Endpoint
  | [] => []
  | v :: vs => (s.source? v base).toList ++ argumentSources s (base + 1) vs

/-- The ports that a node reads. -/
def sources (s : Site) : Payload → List Endpoint
  | .assign _ v => (s.source? v.literal? 2).toList
  | .ending (.result _ v) => (s.source? v 1).toList
  | .operation o =>
    (s.source? (o.operand? .left) 0).toList ++
      if o.isUnary then [] else (s.source? (o.operand? .right) 1).toList
  | .condition c =>
    (s.source? (c.operand? .left) 0).toList ++ (s.source? (c.operand? .right) 1).toList
  | .branch _ => (s.source? none 1).toList
  | .call c => s.argumentSources c.argBase (c.args.values.map TypedSlot.literal?)
  | .process name =>
    match s.scope.callee? name with
    | some callee => s.argumentSources 2 (List.replicate callee.args.size none)
    | none => s.incomingValues.map (·.source)
  | .start | .argument _ | .fetch _ | .ending .abort | .jump => []

/-- A break is in one of the words, or in an expression that is on offer at one of the ports. -/
def BreaksIn (s : Site) (words : List String) (ports : List Endpoint) : Prop :=
  (∃ w ∈ words, Breaks w) ∨ ∃ e ∈ ports, ∃ x, s.offers.get? e = some x ∧ Breaks x.text

section Step

variable {s : Site} {l : Listing} {t : String}

theorem breaksIn_append (words words' : List String) (ports ports' : List Endpoint) :
    s.BreaksIn (words ++ words') (ports ++ ports') ↔ s.BreaksIn words ports ∨ s.BreaksIn words' ports' := by
  simp only [BreaksIn, List.mem_append, or_and_right, exists_or]
  exact or_or_or_comm

theorem breaksIn_cons (w : String) (words : List String) (ports : List Endpoint) :
    s.BreaksIn (w :: words) ports ↔ Breaks w ∨ s.BreaksIn words ports := by
  simp [BreaksIn, or_assoc]

theorem not_breaksIn_nil : ¬ s.BreaksIn [] [] := by
  simp [BreaksIn]

/-- The words of literals, one literal after the other. -/
theorem words_cons (v : Option Literal) (vs : List (Option Literal)) :
    (v :: vs).filterMap (·.bind Literal.text?) =
      (v.bind Literal.text?).toList ++ vs.filterMap (·.bind Literal.text?) := by
  cases h : v.bind Literal.text? <;> simp [h]

theorem breaks_value (literal : Option Literal) (port : Nat) :
    Breaks (s.value literal port) ↔
      s.BreaksIn (literal.bind Literal.text?).toList (s.source? literal port).toList := by
  cases literal with
  | some v => simp [value, source?, BreaksIn, breaks_render]
  | none =>
    have hempty : ¬ Breaks "" := by decide
    cases hlink : s.routine.links.find? (·.enters s.id port) with
    | none => simp [value, input?, source?, BreaksIn, hlink, hempty]
    | some m =>
      cases hoffer : s.offers.get? m.source <;>
        simp [value, input?, source?, BreaksIn, hlink, hoffer, hempty]

theorem breaks_operand (literal : Option Literal) (port : Nat) :
    Breaks (s.operand literal port) ↔ Breaks (s.value literal port) := by
  cases literal with
  | some v => rfl
  | none =>
    rw [operand, value]
    cases s.input? port with
    | none => rfl
    | some e =>
      have hopen : ¬ Breaks "(" := by decide
      have hclose : ¬ Breaks ")" := by decide
      simp only [Option.elim_some, Expression.asOperand]
      split <;> simp [hopen, hclose]

theorem breaks_arguments (base : Nat) (literals : List (Option Literal)) :
    (∃ t ∈ s.arguments base literals, Breaks t) ↔
      s.BreaksIn (literals.filterMap (·.bind Literal.text?)) (s.argumentSources base literals) := by
  induction literals generalizing base with
  | nil => simp [arguments, argumentSources, not_breaksIn_nil]
  | cons v vs ih =>
    rw [words_cons, argumentSources, breaksIn_append, ← ih, ← breaks_value, arguments]
    simp

theorem breaks_looseArguments :
    (∃ t ∈ s.looseArguments, Breaks t) ↔ s.BreaksIn [] (s.incomingValues.map (·.source)) := by
  have hempty : ¬ Breaks "" := by decide
  have htext : ∀ m : Link, Breaks ((s.offers.get? m.source).elim "" Expression.text) ↔
      ∃ x, s.offers.get? m.source = some x ∧ Breaks x.text := by
    intro m
    cases s.offers.get? m.source <;> simp [hempty]
  simp [looseArguments, BreaksIn, htext]

theorem breaks_processCall (name : String) :
    Breaks (s.processCall name) ↔ s.BreaksIn [name] (s.sources (.process name)) := by
  rw [processCall, breaks_callText, breaksIn_cons]
  refine or_congr_right ?_
  cases hcallee : s.scope.callee? name with
  | none => simp [sources, hcallee, breaks_looseArguments]
  | some callee => simp [sources, hcallee, breaks_arguments]

theorem not_breaks_operator (o : Operation) : ¬ Breaks o.symbol := by
  have harithmetic : ∀ a : Arithmetic, ¬ Breaks a.symbol := fun a => by cases a <;> decide
  have hconcatenation : ∀ a : Concatenation, ¬ Breaks a.symbol := fun .concatenate => by decide
  cases o with
  | uint64 operator _ => exact harithmetic operator
  | string operator _ => exact hconcatenation operator

theorem not_breaks_comparison (c : Condition) : ¬ Breaks c.symbol := by
  have hnumber : ∀ a : NumberComparison, ¬ Breaks a.symbol := fun a => by cases a <;> decide
  have htext : ∀ a : TextComparison, ¬ Breaks a.symbol := fun a => by cases a <;> decide
  cases c with
  | uint64 operator _ => exact hnumber operator
  | string operator _ => exact htext operator

theorem breaks_operationText (o : Operation) :
    Breaks (s.operationText o) ↔ s.BreaksIn (s.routine.words (.operation o)) (s.sources (.operation o)) := by
  have hblank : ¬ Breaks " " := by decide
  rw [Routine.words, words_cons, sources, breaksIn_append, ← breaks_value]
  cases hunary : o.isUnary with
  | true =>
    -- An operator with one operand is one for numbers, and a number is no word.
    have hright : (o.operand? .right).bind Literal.text? = none := by
      cases o with
      | uint64 operator ops => cases ops.right <;> simp [Operation.operand?, Operands.get, Literal.text?]
      | string operator ops => exact absurd hunary (by cases operator; simp [Operation.isUnary])
    simp [operationText, hunary, hright, not_breaks_operator, breaks_operand, not_breaksIn_nil]
  | false =>
    have hright : s.BreaksIn ([o.operand? .right].filterMap (·.bind Literal.text?))
        (s.source? (o.operand? .right) 1).toList ↔ Breaks (s.value (o.operand? .right) 1) := by
      rw [words_cons, breaks_value, List.filterMap_nil, List.append_nil]
    rw [if_neg Bool.false_ne_true, hright]
    simp [operationText, hunary, not_breaks_operator, breaks_operand, hblank]

theorem breaks_conditionText (c : Condition) :
    Breaks (s.conditionText c) ↔ s.BreaksIn (s.routine.words (.condition c)) (s.sources (.condition c)) := by
  have hblank : ¬ Breaks " " := by decide
  rw [Routine.words, words_cons, words_cons, List.filterMap_nil, List.append_nil, sources, breaksIn_append,
    ← breaks_value, ← breaks_value]
  simp [conditionText, not_breaks_comparison, breaks_operand, hblank]

/-- Whatever a node says, a break in it is in a word of the node or in what it reads. -/
theorem breaks_iff_breaksIn {p : Payload} (hp : p ≠ .start) (ht : t ∈ s.sayings l p) :
    Breaks t ↔ s.BreaksIn (s.routine.words p) (s.sources p) := by
  cases p with
  | start => exact absurd rfl hp
  | argument name =>
    rw [eq_of_mem_sayings_argument ht, Routine.words, sources, breaksIn_cons, or_iff_left not_breaksIn_nil]
  | fetch name =>
    rw [eq_of_mem_sayings_fetch ht, Routine.words, sources, breaksIn_cons, or_iff_left not_breaksIn_nil]
  | assign name v =>
    have hlet : ¬ Breaks "LET " := by decide
    have hequals : ¬ Breaks " = " := by decide
    rw [eq_of_mem_sayings_assign ht, Routine.words, sources, breaksIn_cons, ← breaks_value]
    simp [hlet, hequals]
  | ending e =>
    cases e with
    | abort =>
      rw [eq_of_mem_sayings_abort ht]
      exact iff_of_false (by decide) not_breaksIn_nil
    | result type v =>
      rw [Routine.words, sources, ← breaks_value]
      rcases eq_of_mem_sayings_result ht with ⟨rfl, hempty⟩ | rfl
      · rw [hempty]
        exact iff_of_false (by decide) (by decide)
      · have hreturn : ¬ Breaks "RETURN " := by decide
        simp [hreturn]
  | operation o => rw [eq_of_mem_sayings_operation ht, breaks_operationText]
  | condition c => rw [eq_of_mem_sayings_condition ht, breaks_conditionText]
  | branch b =>
    have hif : ¬ Breaks "IF (" := by decide
    have hthen : ¬ Breaks ") THEN GOTO " := by decide
    have helse : ¬ Breaks " ELSE GOTO " := by decide
    have hvalue : Breaks (s.value none 1) ↔ s.BreaksIn [] (s.sources (.branch b)) := breaks_value none 1
    rw [Routine.words, ← hvalue]
    obtain ⟨line, rfl | ⟨other, rfl⟩⟩ := eq_of_mem_sayings_branch ht
    · simp [hif, hthen]
    · simp [hif, hthen, helse]
  | jump =>
    have hgoto : ¬ Breaks "GOTO " := by decide
    obtain ⟨line, rfl⟩ := eq_of_mem_sayings_jump ht
    exact iff_of_false (by simp [hgoto]) not_breaksIn_nil
  | call c =>
    rw [eq_of_mem_sayings_call ht, breaks_callText, breaks_arguments, List.filterMap_map, Routine.words,
      sources, breaksIn_cons]
    rfl
  | process name => rw [eq_of_mem_sayings_process ht, breaks_processCall, Routine.words]

end Step

end Site

namespace Routine

/-- The words that stand behind what a node says: its own, the names of the arguments that it reads from
the start, and those behind the other nodes that it reads from. -/
inductive WrittenWith (r : Routine) (scope : Scope) : NodeId → String → Prop
  | own {id : NodeId} {n : Node} {w : String} (hn : r.nodes.get? id = some n)
      (hw : w ∈ r.words n.payload) : WrittenWith r scope id w
  | argument {id : NodeId} {n m : Node} {e : Endpoint} {x : Expression} (hn : r.nodes.get? id = some n)
      (he : e ∈ (r.siteAt scope id).sources n.payload)
      (hx : (r.siteAt scope id).offers.get? e = some x) (hm : r.nodes.get? e.node = some m)
      (hstart : m.payload = .start) : WrittenWith r scope id x.text
  | read {id : NodeId} {n m : Node} {e : Endpoint} {x : Expression} {w : String}
      (hn : r.nodes.get? id = some n) (he : e ∈ (r.siteAt scope id).sources n.payload)
      (hx : (r.siteAt scope id).offers.get? e = some x) (hm : r.nodes.get? e.node = some m)
      (hstart : m.payload ≠ .start) (hw : WrittenWith r scope e.node w) : WrittenWith r scope id w

section Run

variable {r : Routine} {scope : Scope} {id : NodeId} {n : Node} {l : Listing} {t : String}

/-- What is on offer was said by a node that is written earlier. -/
theorem exists_of_get?_offers (hn : r.nodes.get? id = some n) {e : Endpoint} {x : Expression}
    (hx : (r.siteAt scope id).offers.get? e = some x) (l : Listing) :
    ∃ m, r.nodes.get? e.node = some m ∧ Precedes r.traversal.order e.node id ∧
      x.text ∈ (r.siteAt scope e.node).sayings l m.payload := by
  have hid : r.nodes.contains id = true := Option.isSome_of_eq_some hn
  have hwritten : ∀ u ∈ r.traversal.order.takeWhile (· ≠ id), r.nodes.contains u = true :=
    fun u hu => (r.mem_order u).mp ((List.takeWhile_sublist _).subset hu)
  have hearlier : e.node ∈ r.traversal.order.takeWhile (· ≠ id) := by
    obtain ⟨outputs, hlookup, _⟩ := Option.bind_eq_some_iff.mp hx
    have hkey := (Entries.isSome_lookup _ _).mp (Option.isSome_of_eq_some hlookup)
    rw [offers_siteAt, List.map_reverse, List.mem_reverse, List.map_map] at hkey
    rw [← keys_contributions scope [] hwritten]
    exact hkey
  obtain ⟨m, hm⟩ := Option.isSome_iff_exists.mp (hwritten _ hearlier)
  rw [get?_offers_siteAt hid hm] at hx
  split at hx
  · next hprecedes => exact ⟨m, hm, hprecedes, Site.text_mem_sayings hx l⟩
  · exact absurd hx (by simp)

theorem exists_writtenWith (hn : r.nodes.get? id = some n) (hstart : n.payload ≠ .start)
    (ht : t ∈ (r.siteAt scope id).sayings l n.payload) (h : Breaks t) :
    ∃ w, r.WrittenWith scope id w ∧ Breaks w := by
  -- What a node reads was said by a node before it in the order of writing.
  induction hindex : r.traversal.order.idxOf id using Nat.strong_induction_on generalizing id n t with
  | _ index ih =>
    rcases (Site.breaks_iff_breaksIn hstart ht).mp h with ⟨w, hw, hbreaks⟩ | ⟨e, he, x, hx, hbreaks⟩
    · exact ⟨w, .own hn hw, hbreaks⟩
    · obtain ⟨m, hm, hprecedes, hspoken⟩ := exists_of_get?_offers hn hx l
      by_cases hsource : m.payload = .start
      · exact ⟨x.text, .argument hn he hx hm hsource, hbreaks⟩
      · have hearlier : r.traversal.order.idxOf e.node < index := hindex ▸ hprecedes
        obtain ⟨w, hw, hbreaks⟩ := ih _ hearlier hm hsource hspoken hbreaks rfl
        exact ⟨w, .read hn he hx hm hsource hw, hbreaks⟩

theorem WrittenWith.breaks {w : String} (h : r.WrittenWith scope id w) (hbreaks : Breaks w)
    (hn : r.nodes.get? id = some n) (hstart : n.payload ≠ .start)
    (ht : t ∈ (r.siteAt scope id).sayings l n.payload) : Breaks t := by
  induction h generalizing n t with
  | own hn' hw =>
    obtain rfl := Option.some.inj (hn.symm.trans hn')
    exact (Site.breaks_iff_breaksIn hstart ht).mpr (.inl ⟨_, hw, hbreaks⟩)
  | argument hn' he hx _ _ =>
    obtain rfl := Option.some.inj (hn.symm.trans hn')
    exact (Site.breaks_iff_breaksIn hstart ht).mpr (.inr ⟨_, he, _, hx, hbreaks⟩)
  | read hn' he hx hm hsource _ ih =>
    obtain rfl := Option.some.inj (hn.symm.trans hn')
    obtain ⟨m', hm', _, hspoken⟩ := exists_of_get?_offers hn hx l
    obtain rfl := Option.some.inj (hm.symm.trans hm')
    exact (Site.breaks_iff_breaksIn hstart ht).mpr (.inr ⟨_, he, _, hx, ih hbreaks hm hsource hspoken⟩)

end Run

end Routine

namespace Listing

/-- How many lines of the code a numbered line takes. -/
def textLines (l : Listing) (i : Nat) : Nat := (l.codeLines[i + 1]?).elim 0 (·.toList.count '\n')

theorem textLines_eq_one_iff {l : Listing} {i : Nat} {line : Line} (h : l.lines[i]? = some line) :
    l.textLines i = 1 ↔ ¬ Breaks (l.statementText line.statement) := by
  have hi : i < l.lines.length := (List.getElem?_eq_some_iff.mp h).1
  have htext : l.codeLines[i + 1]? =
      some (Decimal.text (l.firstLine + i) ++ "\t" ++ l.statementText line.statement ++ "\n") := by
    rw [codeLines, List.getElem?_cons_succ, lineTexts_eq_mapIdx, List.getElem?_append_left (by simpa using hi),
      List.getElem?_mapIdx, h]
    rfl
  have hnumber : (Decimal.text (l.firstLine + i)).toList.count '\n' = 0 :=
    List.count_eq_zero.mpr (not_breaks_number _)
  rw [textLines, htext]
  simp [hnumber, Breaks, List.count_eq_zero]

end Listing

/-- Calls of one built-in whose arguments are literals have different texts if the literals differ, save
where a text that is not the last one runs on over a delimiter. And a statement stays in its line unless
one of the words that it is written with has a break. -/
theorem literals_keep_structure_iff :
    (∀ (s t : Site) (l k : Listing) (c d : Call) (vs ws : List Literal) (x y : String),
      c.builtin = d.builtin → c.args.size = d.args.size →
      c.args.values.map TypedSlot.literal? = vs.map some →
      d.args.values.map TypedSlot.literal? = ws.map some →
      x ∈ s.sayings l (.call c) → y ∈ t.sayings k (.call d) →
      (x = y ↔ vs = ws ∨ Literal.RunsOn vs ws ∨ Literal.RunsOn ws vs) ∧
      ((∀ u, .text u ∈ vs.dropLast ∨ .text u ∈ ws.dropLast → ¬ Mentions Literal.delimiter u) →
        x = y → vs = ws)) ∧
    (∀ (r : Routine) (scope : Scope) (firstLine : Nat) (name : String) (i : Nat) (id : NodeId)
      (st : Statement),
      (r.draft scope firstLine name).listing.lines[i]? = some ⟨some id, st⟩ →
      (r.generate scope firstLine name).code =
        String.join (r.draft scope firstLine name).listing.codeLines ∧
      ((r.draft scope firstLine name).listing.textLines i = 1 ↔
        ∀ w, r.WrittenWith scope id w → ¬ Breaks w)) := by
  refine ⟨?_, ?_⟩
  · intro s t l k c d vs ws x y hbuiltin hsize hvs hws hx hy
    have hsame := s.builtinCall_eq_iff t hbuiltin hsize hvs hws
    obtain rfl : x = s.builtinCall c := Site.eq_of_mem_sayings_call hx
    obtain rfl : y = t.builtinCall d := Site.eq_of_mem_sayings_call hy
    refine ⟨hsame, ?_⟩
    intro hplain heq
    rcases hsame.mp heq with hequal | hruns | hruns
    · exact hequal
    · obtain ⟨u, hu, hmention⟩ := hruns.exists_mentions
      exact absurd hmention (hplain u (.inr hu))
    · obtain ⟨u, hu, hmention⟩ := hruns.exists_mentions
      exact absurd hmention (hplain u (.inl hu))
  · intro r scope firstLine name i id st hline
    refine ⟨(r.draft scope firstLine name).listing.code_eq_join, ?_⟩
    rw [Listing.textLines_eq_one_iff hline]
    rcases Routine.mem_lines_iff.mp (List.mem_of_getElem? hline) with ⟨_, _, hpreamble⟩ | ⟨b, n, hn, st', hst, heq⟩
    · exact absurd (congrArg Line.owner hpreamble) (by simp)
    · obtain ⟨rfl, rfl⟩ : id = b ∧ st = st' := by simpa using heq
      have hstart : n.payload ≠ .start := by
        intro hstart
        rw [hstart] at hst
        exact absurd hst List.not_mem_nil
      have hspoken := Routine.statementText_mem_sayings hst (r.draft scope firstLine name).listing
      constructor
      · intro hquiet w hw hbreaks
        exact hquiet (hw.breaks hbreaks hn hstart hspoken)
      · intro hwords hbreaks
        obtain ⟨w, hw, hbreaks⟩ := Routine.exists_writtenWith hn hstart hspoken hbreaks
        exact hwords w hw hbreaks

/-- Stores a text under a key that is a text as well. -/
def storeTexts (key value : String) : Call :=
  { builtin := .store
    args := .ofList [("key", .any (some (.text key))), ("value", .any (some (.text value)))]
    returns := .uint64
    asProcess := true }

/-- Three texts are stored. Two of the calls hold a delimiter, each in another argument, and the last one
holds a line break. -/
def Routine.storingTexts : Routine :=
  { isProcess := false
    args := .empty
    vars := .empty
    returns := .uint64
    nodes := .ofList
      [(0, .start),
       (1, .ofPayload "End" (.returnLiteral (.number 0))),
       (2, .ofPayload "Store" (.call (storeTexts "a\", \"b" "c"))),
       (3, .ofPayload "Store" (.call (storeTexts "a" "b\", \"c"))),
       (4, .ofPayload "Store" (.call (storeTexts "k" "x\ny")))]
    links :=
      [⟨⟨0, 0⟩, ⟨2, 0⟩, .flow⟩, ⟨⟨2, 1⟩, ⟨3, 0⟩, .flow⟩, ⟨⟨3, 1⟩, ⟨4, 0⟩, .flow⟩,
       ⟨⟨4, 1⟩, ⟨1, 0⟩, .flow⟩] }

/-- Quotes and commas alone do no harm, and neither does the break in the line above the last. -/
theorem literals_keep_structure_storingTexts :
    (∀ (s t : Site) (l k : Listing) (x y : String),
      x ∈ s.sayings l (.call (storeTexts "a\",\"b" "c")) →
      y ∈ t.sayings k (.call (storeTexts "a" "b\",\"c")) → x ≠ y) ∧
    (Routine.storingTexts.draft none 1 "F").listing.lines[3]? = some ⟨some 1, [.text "RETURN 0"]⟩ ∧
    (Routine.storingTexts.draft none 1 "F").listing.textLines 3 = 1 := by
  obtain ⟨hcalls, hlines⟩ := literals_keep_structure_iff
  have hreturn : (Routine.storingTexts.draft none 1 "F").listing.lines[3]? =
      some ⟨some 1, [.text "RETURN 0"]⟩ := by decide +kernel
  refine ⟨?_, hreturn, ?_⟩
  · intro s t l k x y hx hy heq
    have hplain : ∀ u, Literal.text u ∈ [.text "a\",\"b"] ∨ Literal.text u ∈ [.text "a"] →
        ¬ Mentions Literal.delimiter u := by
      simp only [List.mem_singleton, Literal.text.injEq]
      rintro u (rfl | rfl)
      · decide
      · decide
    have hsame := (hcalls s t l k (storeTexts "a\",\"b" "c") (storeTexts "a" "b\",\"c")
      [.text "a\",\"b", .text "c"] [.text "a", .text "b\",\"c"] x y rfl rfl (by decide) (by decide) hx
      hy).2 hplain heq
    exact absurd hsame (by decide)
  · refine (hlines Routine.storingTexts none 1 "F" 3 1 _ hreturn).2.mpr ?_
    have hnode : Routine.storingTexts.nodes.get? 1 =
        some (.ofPayload "End" (.returnLiteral (.number 0))) := rfl
    intro w hw
    -- The number is no word, and nothing is read.
    cases hw with
    | own hn hw =>
      obtain rfl := Option.some.inj (hnode.symm.trans hn)
      exact absurd hw List.not_mem_nil
    | argument hn he =>
      obtain rfl := Option.some.inj (hnode.symm.trans hn)
      exact absurd he List.not_mem_nil
    | read hn he =>
      obtain rfl := Option.some.inj (hnode.symm.trans hn)
      exact absurd he List.not_mem_nil

/-- Two calls with different literals are written alike, and a third one takes two lines. -/
theorem storingTexts_alike_and_broken :
    (Routine.storingTexts.report none "F").valid = true ∧
    (storeTexts "a\", \"b" "c").args.values ≠ (storeTexts "a" "b\", \"c").args.values ∧
    (Routine.storingTexts.draft none 1 "F").listing.statementsOf 2 =
      [[.text "STORE(\"a\", \"b\", \"c\")"]] ∧
    (Routine.storingTexts.draft none 1 "F").listing.statementsOf 3 =
      [[.text "STORE(\"a\", \"b\", \"c\")"]] ∧
    (Routine.storingTexts.draft none 1 "F").listing.lines[2]? =
      some ⟨some 4, [.text "STORE(\"k\", \"x\ny\")"]⟩ ∧
    (Routine.storingTexts.draft none 1 "F").listing.textLines 2 = 2 := by
  refine ⟨by decide, by decide, ?_, ?_, ?_, ?_⟩
  all_goals decide +kernel

end FlowBasic
