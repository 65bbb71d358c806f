import FlowBasic.Proofs.Standalone
import Mathlib.Data.List.Infix

namespace FlowBasic

/-- One text stands within another. -/
def Mentions (t text : String) : Prop := t.toList <:+: text.toList

instance (t text : String) : Decidable (Mentions t text) :=
  inferInstanceAs (Decidable (t.toList <:+: text.toList))

namespace Mentions

variable {t u v : String}

theorem refl (t : String) : Mentions t t := List.infix_rfl

theorem trans (htu : Mentions t u) (huv : Mentions u v) : Mentions t v := List.IsInfix.trans htu huv

theorem append_left (h : Mentions t u) (v : String) : Mentions t (u ++ v) := by
  rw [Mentions, String.toList_append]
  exact List.IsInfix.trans h (List.prefix_append _ _).isInfix

theorem append_right (u : String) (h : Mentions t v) : Mentions t (u ++ v) := by
  rw [Mentions, String.toList_append]
  exact List.IsInfix.trans h (List.suffix_append _ _).isInfix

end Mentions

def isWordChar (c : Char) : Bool := c.isAlphanum || c = '_'

/-- The words that stand in every listing, as they are written. -/
def phrases : List String :=
  ["LET ", "RETURN", "RETURN ", "PANIC", "IF (", ") THEN GOTO ", " ELSE GOTO ", "GOTO ", "DIM ", " AS ",
    "Uint64", "String", "Variable", "Function ", "End Function"]

/-- A name that can be told from numbers and from the phrases. -/
structure IsName (w : String) : Prop where
  word : ∀ c ∈ w.toList, isWordChar c = true
  letter : ∃ c ∈ w.toList, c.isDigit = false
  fresh : ∀ phrase ∈ phrases, ¬ Mentions w phrase

instance (w : String) : Decidable (IsName w) :=
  decidable_of_iff (w.toList.all isWordChar ∧ w.toList.any (!·.isDigit) ∧
      phrases.all fun phrase => ¬ Mentions w phrase) (by
    simp only [List.all_eq_true, List.any_eq_true, Bool.not_eq_true', decide_eq_true_eq]
    exact ⟨fun h => ⟨h.1, h.2.1, h.2.2⟩, fun h => ⟨h.word, h.letter, h.fresh⟩⟩)

theorem Builtin.isName (b : Builtin) : IsName b.name := by
  have hall : ∀ b ∈ all, IsName b.name := by decide +kernel
  exact hall b b.mem_all

/-- A text without names: one of the phrases, or signs only. -/
def isGlue (g : String) : Bool := phrases.contains g || g.toList.all fun c => !isWordChar c

def startsWithSign (g : String) : Bool := g.toList.head?.any fun c => !isWordChar c

def endsWithSign (g : String) : Bool := g.toList.getLast?.any fun c => !isWordChar c

/-- What follows stands apart. -/
def opens (g : String) : Bool := isGlue g && endsWithSign g

/-- What comes before stands apart. -/
def closes (g : String) : Bool := isGlue g && startsWithSign g

def separates (g : String) : Bool := opens g && closes g

theorem Decimal.isDigit_of_mem_text {n : Nat} {c : Char} (h : c ∈ (text n).toList) :
    c.isDigit = true := by
  have hdigit : ∀ d : Digit, d.char.isDigit = true := by decide
  rw [text, String.toList_ofList] at h
  obtain ⟨d, _, rfl⟩ := List.mem_map.mp h
  exact hdigit d

namespace IsName

variable {w : String}

theorem not_mentions_glue (hw : IsName w) {g : String} (hg : isGlue g = true) : ¬ Mentions w g := by
  intro h
  rcases Bool.or_eq_true_iff.mp hg with hphrase | hsigns
  · exact hw.fresh g (List.contains_iff_mem.mp hphrase) h
  · obtain ⟨c, hc, _⟩ := hw.letter
    have hsign := List.all_eq_true.mp hsigns c (h.subset hc)
    simp [hw.word c hc] at hsign

/-- A name is on one side of a sign. -/
theorem of_append (hw : IsName w) {x y : String} (hsign : endsWithSign x = true ∨ startsWithSign y = true) :
    Mentions w (x ++ y) ↔ Mentions w x ∨ Mentions w y := by
  refine ⟨fun h => ?_, fun h => h.elim (·.append_left y) (·.append_right x)⟩
  rw [Mentions, String.toList_append, List.infix_append_iff] at h
  rcases h with h | h | ⟨before, after, hsplit, hbefore, hafter⟩
  · exact .inl h
  · exact .inr h
  -- one part is empty, since else the sign would be part of the name
  rcases hsign with hsign | hsign
  · obtain ⟨c, hlast, hc⟩ := (Option.any_eq_true _ _).mp hsign
    rcases List.eq_nil_or_concat before with rfl | ⟨rest, d, rfl⟩
    · have hw : w.toList = after := hsplit
      exact .inr (by rw [Mentions, hw]; exact hafter.isInfix)
    · obtain ⟨earlier, hx⟩ := hbefore
      have hd : d = c := by simpa [← hx] using hlast
      simp [hw.word c (by simp [hsplit, hd])] at hc
  · obtain ⟨c, hfirst, hc⟩ := (Option.any_eq_true _ _).mp hsign
    rcases after with _ | ⟨d, rest⟩
    · rw [List.append_nil] at hsplit
      exact .inl (by rw [Mentions, hsplit]; exact hbefore.isInfix)
    · obtain ⟨later, hy⟩ := hafter
      have hd : d = c := by simpa [← hy] using hfirst
      simp [hw.word c (by simp [hsplit, hd])] at hc

theorem after (hw : IsName w) {g y : String} (hg : opens g = true) :
    Mentions w (g ++ y) ↔ Mentions w y := by
  obtain ⟨hglue, hsign⟩ := Bool.and_eq_true_iff.mp hg
  rw [hw.of_append (.inl hsign), or_iff_right (hw.not_mentions_glue hglue)]

theorem before (hw : IsName w) {x g : String} (hg : closes g = true) :
    Mentions w (x ++ g) ↔ Mentions w x := by
  obtain ⟨hglue, hsign⟩ := Bool.and_eq_true_iff.mp hg
  rw [hw.of_append (.inr hsign), or_iff_left (hw.not_mentions_glue hglue)]

theorem between (hw : IsName w) {x g y : String} (hg : separates g = true) :
    Mentions w (x ++ g ++ y) ↔ Mentions w x ∨ Mentions w y := by
  obtain ⟨hopens, hcloses⟩ := Bool.and_eq_true_iff.mp hg
  have hlast : endsWithSign (x ++ g) = true := by
    obtain ⟨c, hc, hsign⟩ := (Option.any_eq_true _ _).mp (Bool.and_eq_true_iff.mp hopens).2
    simp [endsWithSign, String.toList_append, List.getLast?_append, hc, hsign]
  rw [hw.of_append (.inl hlast), hw.before hcloses]

theorem commaList (hw : IsName w) (texts : List String) :
    Mentions w (Site.commaList texts) ↔ ∃ t ∈ texts, Mentions w t := by
  induction texts with
  | nil =>
    have hempty : ¬ Mentions w (Site.commaList []) := hw.not_mentions_glue (by decide)
    simp [hempty]
  | cons t texts ih =>
    cases texts with
    | nil => simp [Site.commaList]
    | cons u texts =>
      rw [Site.commaList, String.intercalate_cons_cons, hw.between (by decide)]
      rw [Site.commaList] at ih
      rw [ih]
      simp

theorem callText (hw : IsName w) (name : String) (args : List String) :
    Mentions w (Site.callText name args) ↔ Mentions w name ∨ ∃ t ∈ args, Mentions w t := by
  rw [Site.callText, hw.before (g := ")") (by decide), hw.between (g := "(") (by decide), hw.commaList]

theorem not_mentions_number (hw : IsName w) (n : Nat) : ¬ Mentions w (Decimal.text n) := by
  intro h
  obtain ⟨c, hc, hletter⟩ := hw.letter
  have hdigit : c.isDigit = true := Decimal.isDigit_of_mem_text (h.subset hc)
  simp [hdigit] at hletter

theorem render (hw : IsName w) (v : Literal) :
    Mentions w v.render ↔ ∃ t, v.text? = some t ∧ Mentions w t := by
  cases v with
  | number n => simp [Literal.render, Literal.text?, hw.not_mentions_number]
  | text t =>
    rw [Literal.render, hw.before (by decide), hw.after (by decide)]
    simp [Literal.text?]

end IsName

namespace Site

/-- Everything that a node says: the expressions it offers and the statements it writes. -/
def sayings (s : Site) (l : Listing) (p : Payload) : List String :=
  (s.synthesize p).outputs.map (fun o => o.2.text) ++ (s.synthesize p).statements.map l.statementText

section Sayings

variable {s : Site} {l : Listing} {t : String}

theorem eq_of_mem_sayings_call {c : Call} (h : t ∈ s.sayings l (.call c)) :
    t = callText c.builtin.name (s.arguments c.argBase (c.args.values.map TypedSlot.literal?)) := by
  simp only [sayings, synthesize, call, Expression.atom] at h
  cases hprocess : c.asProcess <;> simpa [hprocess, Listing.statementText, Listing.fragmentText] using h

theorem eq_of_mem_sayings_process {name : String} (h : t ∈ s.sayings l (.process name)) :
    t = s.processCall name := by
  rcases List.mem_append.mp h with h | h
  · obtain ⟨o, ho, rfl⟩ := List.mem_map.mp h
    rw [output_process ho]
    rfl
  · rw [synthesize, statements_process] at h
    split at h
    · simpa [Listing.statementText, Listing.fragmentText] using h
    · simp at h

theorem eq_of_mem_sayings_operation {o : Operation} (h : t ∈ s.sayings l (.operation o)) :
    t = s.operationText o := by
  simpa [sayings, synthesize] using h

theorem eq_of_mem_sayings_condition {c : Condition} (h : t ∈ s.sayings l (.condition c)) :
    t = s.conditionText c := by
  simpa [sayings, synthesize] using h

theorem eq_of_mem_sayings_assign {name : String} {v : TypedSlot} (h : t ∈ s.sayings l (.assign name v)) :
    t = "LET " ++ name ++ " = " ++ s.value v.literal? 2 := by
  simp only [sayings, synthesize, outputs_assignment] at h
  simp only [assignment] at h
  split at h
  · simp at h
  · simpa [Listing.statementText, Listing.fragmentText] using h

theorem eq_of_mem_sayings_result {type : ValueType} {v : Option Literal}
    (h : t ∈ s.sayings l (.ending (.result type v))) :
    t = "RETURN" ∧ s.value v 1 = "" ∨ t = "RETURN " ++ s.value v 1 := by
  simp only [sayings, synthesize, ending] at h
  by_cases hempty : s.value v 1 = ""
  · left
    simpa [hempty, Listing.statementText, Listing.fragmentText] using h
  · right
    simpa [hempty, Listing.statementText, Listing.fragmentText] using h

theorem eq_of_mem_sayings_branch {b : Branch} (h : t ∈ s.sayings l (.branch b)) :
    ∃ line, t = "IF (" ++ s.value none 1 ++ ") THEN GOTO " ++ Decimal.text line ∨
      ∃ other, t = "IF (" ++ s.value none 1 ++ ") THEN GOTO " ++ Decimal.text line ++ " ELSE GOTO " ++
        Decimal.text other := by
  simp only [sayings, synthesize, outputs_branch] at h
  simp only [branch] at h
  split at h
  · simp at h
  · next target _ =>
    refine ⟨(l.resolve? target).getD 0, ?_⟩
    split at h
    · next other _ =>
      right
      refine ⟨(l.resolve? other).getD 0, ?_⟩
      simpa [Listing.statementText, Listing.fragmentText, String.append_assoc] using h
    · left
      simpa [Listing.statementText, Listing.fragmentText] using h

theorem eq_of_mem_sayings_jump (h : t ∈ s.sayings l .jump) : ∃ line, t = "GOTO " ++ Decimal.text line := by
  simp only [sayings, synthesize, outputs_jump] at h
  simp only [jump] at h
  split at h
  · next m _ =>
    refine ⟨(l.resolve? m.sink.node).getD 0, ?_⟩
    simpa [Listing.statementText, Listing.fragmentText] using h
  · simp at h

theorem text_startOutputs {base : Nat} {names : List String} :
    (startOutputs base names).map (fun o => o.2.text) = names := by
  induction names generalizing base with
  | nil => rfl
  | cons name names ih => rw [startOutputs, List.map_cons, ih]; rfl

theorem mem_args_of_mem_sayings_start (h : t ∈ s.sayings l .start) : t ∈ s.routine.args.keys := by
  simpa [sayings, synthesize, text_startOutputs] using h

theorem eq_of_mem_sayings_argument {name : String} (h : t ∈ s.sayings l (.argument name)) : t = name := by
  simpa [sayings, synthesize, Expression.atom] using h

theorem eq_of_mem_sayings_fetch {name : String} (h : t ∈ s.sayings l (.fetch name)) : t = name := by
  simp only [sayings, synthesize, List.map_map, List.map_nil, List.append_nil] at h
  obtain ⟨m, _, rfl⟩ := List.mem_map.mp h
  rfl

theorem eq_of_mem_sayings_abort (h : t ∈ s.sayings l (.ending .abort)) : t = "PANIC" := by
  simpa [sayings, synthesize, ending, Listing.statementText, Listing.fragmentText] using h

end Sayings

end Site

/-- A result that is given by a literal does not look at its port. -/
def Payload.reads : Payload → Bool
  | .ending (.result _ (some _)) => false
  | _ => true

/-- The names and texts that a node brings along itself; the start knows the arguments. -/
def Routine.words (r : Routine) : Payload → List String
  | .start => r.args.keys
  | .argument name | .fetch name | .process name => [name]
  | .assign name v => name :: (v.literal?.bind Literal.text?).toList
  | .ending (.result _ v) => (v.bind Literal.text?).toList
  | .operation o => [o.operand? .left, o.operand? .right].filterMap (·.bind Literal.text?)
  | .condition c => [c.operand? .left, c.operand? .right].filterMap (·.bind Literal.text?)
  | .call c => c.builtin.name :: c.args.values.filterMap fun v => v.literal?.bind Literal.text?
  | .ending .abort | .branch _ | .jump => []

namespace Site

/-- A link by which a text comes in. -/
structure Brings (s : Site) (t : String) (m : Link) : Prop where
  mem : m ∈ s.routine.links
  value : m.isFlow = false
  sink : m.sink.node = s.id
  offered : ∃ e, s.offers.get? m.source = some e ∧ e.text = t

section Sources

variable {s : Site} {n : Node} {w : String}

/-- What is read at a port that has to be connected comes in by a link. -/
theorem exists_brings (hwell : s.routine.WellFormed s.scope) (hn : s.routine.nodes.get? s.id = some n)
    {port : Nat} (hport : port ∈ (s.routine.layout s.scope n.payload).requiredInputs) {e : Expression}
    (he : s.input? port = some e) : ∃ m, s.Brings e.text m := by
  obtain ⟨m, hfind, hoffer⟩ := Option.bind_eq_some_iff.mp he
  have hm := List.mem_of_find?_eq_some hfind
  have henters := List.find?_some hfind
  have hvalue := hwell.isFlow_of_enters hn hport hm henters
  simp only [Link.enters, Bool.and_eq_true, decide_eq_true_eq] at henters
  exact ⟨m, hm, hvalue, henters.1, e, hoffer, rfl⟩

theorem mentions_value (hw : IsName w) (hwell : s.routine.WellFormed s.scope)
    (hn : s.routine.nodes.get? s.id = some n) {literal : Option Literal} {port : Nat}
    (hport : literal = none → port ∈ (s.routine.layout s.scope n.payload).requiredInputs)
    (h : Mentions w (s.value literal port)) :
    (∃ t, literal.bind Literal.text? = some t ∧ Mentions w t) ∨
      literal = none ∧ ∃ t m, s.Brings t m ∧ Mentions w t := by
  cases literal with
  | some v => exact .inl ((hw.render v).mp h)
  | none =>
    right
    cases hinput : s.input? port with
    | none =>
      rw [value, hinput] at h
      exact absurd h (hw.not_mentions_glue (by decide))
    | some e =>
      rw [value, hinput] at h
      obtain ⟨m, hm⟩ := exists_brings hwell hn (hport rfl) hinput
      exact ⟨rfl, e.text, m, hm, h⟩

/-- Parentheses around an operand make no difference. -/
theorem mentions_operand (hw : IsName w) (literal : Option Literal) (port : Nat) :
    Mentions w (s.operand literal port) ↔ Mentions w (s.value literal port) := by
  cases literal with
  | some v => rfl
  | none =>
    rw [operand, value]
    cases s.input? port with
    | none => rfl
    | some e =>
      cases hcompound : e.compound with
      | false => simp [Expression.asOperand, hcompound]
      | true =>
        simp only [Option.elim_some, Expression.asOperand, hcompound, if_true]
        rw [hw.before (by decide), hw.after (by decide)]

/-- The node has the word itself, or the word comes in by a link that it reads. -/
def Explains (s : Site) (p : Payload) (w : String) : Prop :=
  (∃ t ∈ s.routine.words p, Mentions w t) ∨
    p.reads = true ∧ ∃ t m, s.Brings t m ∧ Mentions w t

theorem explains_of_value (hw : IsName w) (hwell : s.routine.WellFormed s.scope)
    (hn : s.routine.nodes.get? s.id = some n) {literal : Option Literal} {port : Nat}
    (hport : literal = none → port ∈ (s.routine.layout s.scope n.payload).requiredInputs)
    (hwords : ∀ t, literal.bind Literal.text? = some t → t ∈ s.routine.words n.payload)
    (hreads : literal = none → n.payload.reads = true) (h : Mentions w (s.value literal port)) :
    s.Explains n.payload w := by
  rcases mentions_value hw hwell hn hport h with ⟨t, ht, hmention⟩ | ⟨hnone, hbrings⟩
  · exact .inl ⟨t, hwords t ht, hmention⟩
  · exact .inr ⟨hreads hnone, hbrings⟩

theorem explains_of_argument (hw : IsName w) (hwell : s.routine.WellFormed s.scope)
    (hn : s.routine.nodes.get? s.id = some n) {literals : List (Option Literal)} {base : Nat}
    (hports : ∀ i, literals[i]? = some none →
      base + i ∈ (s.routine.layout s.scope n.payload).requiredInputs)
    (hwords : ∀ literal ∈ literals, ∀ t, literal.bind Literal.text? = some t →
      t ∈ s.routine.words n.payload)
    (hreads : n.payload.reads = true) (h : ∃ t ∈ s.arguments base literals, Mentions w t) :
    s.Explains n.payload w := by
  obtain ⟨t, ht, hmention⟩ := h
  rw [arguments_eq_mapIdx] at ht
  obtain ⟨i, hi, rfl⟩ := List.mem_mapIdx.mp ht
  refine explains_of_value hw hwell hn ?_ (hwords _ (List.getElem_mem hi)) (fun _ => hreads) hmention
  intro hnone
  exact hports i (by rw [List.getElem?_eq_getElem hi, hnone])

theorem explains_of_looseArgument (hreads : n.payload.reads = true)
    (hw : IsName w) (h : ∃ t ∈ s.looseArguments, Mentions w t) : s.Explains n.payload w := by
  obtain ⟨t, ht, hmention⟩ := h
  obtain ⟨m, hm, rfl⟩ := List.mem_map.mp ht
  obtain ⟨hm, hsink, hvalue⟩ := mem_incomingValues.mp (List.mem_mergeSort.mp hm)
  cases hoffer : s.offers.get? m.source with
  | none =>
    rw [hoffer] at hmention
    exact absurd hmention (hw.not_mentions_glue (by decide))
  | some e =>
    rw [hoffer] at hmention
    exact .inr ⟨hreads, e.text, m, ⟨hm, hvalue, hsink, e, hoffer, rfl⟩, hmention⟩

theorem separates_operator (o : Operation) : separates o.symbol = true := by
  have harithmetic : ∀ a : Arithmetic, separates a.symbol = true := fun a => by cases a <;> decide
  have hconcatenation : ∀ a : Concatenation, separates a.symbol = true := fun .concatenate => by decide
  cases o with
  | uint64 operator _ => exact harithmetic operator
  | string operator _ => exact hconcatenation operator

theorem separates_comparison (c : Condition) : separates c.symbol = true := by
  have hnumber : ∀ a : NumberComparison, separates a.symbol = true := fun a => by cases a <;> decide
  have htext : ∀ a : TextComparison, separates a.symbol = true := fun a => by cases a <;> decide
  cases c with
  | uint64 operator _ => exact hnumber operator
  | string operator _ => exact htext operator

theorem mentions_operationText (hw : IsName w) (o : Operation) :
    Mentions w (s.operationText o) ↔ Mentions w (s.value (o.operand? .left) 0) ∨
      o.isUnary = false ∧ Mentions w (s.value (o.operand? .right) 1) := by
  obtain ⟨hopens, hcloses⟩ := Bool.and_eq_true_iff.mp (separates_operator o)
  cases hunary : o.isUnary with
  | true => simp [operationText, hunary, hw.after hopens, mentions_operand hw]
  | false =>
    simp only [operationText, hunary, Bool.false_eq_true, if_false, true_and]
    rw [hw.between (g := " ") (by decide), hw.before hcloses, hw.before (by decide),
      mentions_operand hw, mentions_operand hw]

theorem mentions_conditionText (hw : IsName w) (c : Condition) :
    Mentions w (s.conditionText c) ↔
      Mentions w (s.value (c.operand? .left) 0) ∨ Mentions w (s.value (c.operand? .right) 1) := by
  obtain ⟨-, hcloses⟩ := Bool.and_eq_true_iff.mp (separates_comparison c)
  rw [conditionText, hw.between (g := " ") (by decide), hw.before hcloses, hw.before (by decide),
    mentions_operand hw, mentions_operand hw]

/-- Whatever a node says, each name in it is the node's own or comes in by a link. -/
theorem explains_of_mentions (hw : IsName w) (hwell : s.routine.WellFormed s.scope)
    (hn : s.routine.nodes.get? s.id = some n) {l : Listing} {t : String}
    (ht : t ∈ s.sayings l n.payload) (h : Mentions w t) : s.Explains n.payload w := by
  have hvalue := @explains_of_value s n w hw hwell hn
  generalize hp : n.payload = p at ht hvalue ⊢
  cases p with
  | start => exact .inl ⟨t, mem_args_of_mem_sayings_start ht, h⟩
  | argument name => exact .inl ⟨name, List.mem_singleton_self name, eq_of_mem_sayings_argument ht ▸ h⟩
  | fetch name => exact .inl ⟨name, List.mem_singleton_self name, eq_of_mem_sayings_fetch ht ▸ h⟩
  | assign name v =>
    rw [eq_of_mem_sayings_assign ht, hw.between (g := " = ") (by decide),
      hw.after (g := "LET ") (by decide)] at h
    rcases h with h | h
    · exact .inl ⟨name, List.mem_cons_self, h⟩
    · exact hvalue (s.routine.required_assign s.scope name) (by simp +contextual [Routine.words]) (fun _ => rfl) h
  | ending e =>
    cases e with
    | abort =>
      rw [eq_of_mem_sayings_abort ht] at h
      exact absurd h (hw.not_mentions_glue (by decide))
    | result type v =>
      rcases eq_of_mem_sayings_result ht with ⟨rfl, _⟩ | rfl
      · exact absurd h (hw.not_mentions_glue (by decide))
      · rw [hw.after (g := "RETURN ") (by decide)] at h
        refine hvalue (s.routine.required_result s.scope type) (by simp [Routine.words]) ?_ h
        rintro rfl
        rfl
  | operation o =>
    rw [eq_of_mem_sayings_operation ht, mentions_operationText hw] at h
    rcases h with h | ⟨hbinary, h⟩
    · exact hvalue (s.routine.required_operation_left s.scope) (by simp +contextual [Routine.words])
        (fun _ => rfl) h
    · exact hvalue (s.routine.required_operation_right s.scope hbinary)
        (by simp +contextual [Routine.words]) (fun _ => rfl) h
  | condition c =>
    rw [eq_of_mem_sayings_condition ht, mentions_conditionText hw] at h
    rcases h with h | h
    · exact hvalue (s.routine.required_condition_left s.scope) (by simp +contextual [Routine.words])
        (fun _ => rfl) h
    · exact hvalue (s.routine.required_condition_right s.scope) (by simp +contextual [Routine.words])
        (fun _ => rfl) h
  | branch b =>
    have hcondition : Mentions w (s.value none 1) := by
      obtain ⟨line, rfl | ⟨other, rfl⟩⟩ := eq_of_mem_sayings_branch ht
      · rw [hw.between (g := ") THEN GOTO ") (by decide), hw.after (g := "IF (") (by decide)] at h
        exact h.resolve_right (hw.not_mentions_number line)
      · rw [hw.between (g := " ELSE GOTO ") (by decide), hw.between (g := ") THEN GOTO ") (by decide),
          hw.after (g := "IF (") (by decide)] at h
        exact (h.resolve_right (hw.not_mentions_number other)).resolve_right (hw.not_mentions_number line)
    exact hvalue (fun _ => s.routine.required_branch s.scope b) (by simp) (fun _ => rfl) hcondition
  | jump =>
    obtain ⟨line, rfl⟩ := eq_of_mem_sayings_jump ht
    rw [hw.after (g := "GOTO ") (by decide)] at h
    exact absurd h (hw.not_mentions_number line)
  | call c =>
    rw [eq_of_mem_sayings_call ht, hw.callText] at h
    rcases h with h | h
    · exact .inl ⟨_, List.mem_cons_self, h⟩
    · rw [← hp]
      refine explains_of_argument hw hwell hn ?_ ?_ (by rw [hp]; rfl) h
      · intro i hi
        rw [hp]
        exact s.routine.required_argument s.scope hi
      · intro literal hliteral t ht
        obtain ⟨v, hv, rfl⟩ := List.mem_map.mp hliteral
        rw [hp]
        exact List.mem_cons_of_mem _ (List.mem_filterMap.mpr ⟨v, hv, ht⟩)
  | process name =>
    rw [eq_of_mem_sayings_process ht, processCall, hw.callText] at h
    rcases h with h | h
    · exact .inl ⟨name, List.mem_singleton_self name, h⟩
    · have hreads : n.payload.reads = true := by rw [hp]; rfl
      rw [← hp]
      cases hcallee : s.scope.callee? name with
      | none =>
        simp only [hcallee, Option.isSome_none, Bool.false_eq_true, if_false] at h
        exact explains_of_looseArgument hreads hw h
      | some callee =>
        simp only [hcallee, Option.isSome_some, if_true, Option.map_some, Option.getD_some] at h
        refine explains_of_argument hw hwell hn ?_ (by simp) hreads h
        intro i hi
        obtain ⟨hlt, _⟩ := List.getElem?_eq_some_iff.mp hi
        rw [hp]
        exact s.routine.required_parameter s.scope hcallee (by simpa using hlt)

end Sources

theorem mentions_commaList {t : String} {texts : List String} (h : t ∈ texts) :
    Mentions t (commaList texts) := by
  induction texts with
  | nil => exact absurd h List.not_mem_nil
  | cons u texts ih =>
    cases texts with
    | nil =>
      rw [List.mem_singleton.mp h, commaList, String.intercalate_singleton]
      exact .refl u
    | cons v texts =>
      rw [commaList, String.intercalate_cons_cons]
      rcases List.mem_cons.mp h with rfl | h
      · exact ((Mentions.refl t).append_left _).append_left _
      · exact (ih h).append_right _

theorem mentions_callText {t name : String} {args : List String} (h : t ∈ args) :
    Mentions t (callText name args) :=
  ((mentions_commaList h).append_right _).append_left _

namespace Brings

variable {s : Site} {n : Node} {t : String} {m : Link}

theorem input?_eq (hm : s.Brings t m) (hwell : s.routine.WellFormed s.scope) :
    ∃ e, s.input? m.sink.port.toNat = some e ∧ e.text = t := by
  obtain ⟨e, hoffer, htext⟩ := hm.offered
  have hfind := hwell.find?_enters hm.mem hm.value
  rw [hm.sink] at hfind
  exact ⟨e, by rw [input?, hfind, Option.bind_some, hoffer], htext⟩

theorem value_eq (hm : s.Brings t m) (hwell : s.routine.WellFormed s.scope) :
    s.value none m.sink.port.toNat = t := by
  obtain ⟨e, hinput, htext⟩ := hm.input?_eq hwell
  simp [Site.value, hinput, htext]

theorem mentions_operand (hm : s.Brings t m) (hwell : s.routine.WellFormed s.scope) :
    Mentions t (s.operand none m.sink.port.toNat) := by
  obtain ⟨e, hinput, rfl⟩ := hm.input?_eq hwell
  simp only [operand, hinput, Option.elim_some, Expression.asOperand]
  split
  · exact ((Mentions.refl _).append_right _).append_left _
  · exact .refl _

/-- A text that comes in enters by a port that is listed for values. -/
theorem exists_port (hm : s.Brings t m) (hwell : s.routine.WellFormed s.scope)
    (hn : s.routine.nodes.get? s.id = some n)
    (hany : (s.routine.layout s.scope n.payload).anyInput = none) :
    ∃ spec ∈ (s.routine.layout s.scope n.payload).inputs, spec.port = m.sink.port.toNat ∧
      spec.connector.isFlow = false := by
  obtain ⟨c, hc, hflow⟩ := hwell.input?_of_mem hm.mem (hm.sink ▸ hn)
  obtain ⟨spec, hspec, hport, rfl⟩ := Layout.exists_of_input? hany hc
  exact ⟨spec, hspec, hport, hflow.trans hm.value⟩

theorem mem_arguments (hm : s.Brings t m) (hwell : s.routine.WellFormed s.scope) {base i : Nat}
    {literals : List (Option Literal)} (hliteral : literals[i]? = some none)
    (hport : base + i = m.sink.port.toNat) : t ∈ s.arguments base literals := by
  obtain ⟨hi, hnone⟩ := List.getElem?_eq_some_iff.mp hliteral
  rw [arguments_eq_mapIdx]
  refine List.mem_mapIdx.mpr ⟨i, hi, ?_⟩
  rw [hnone, hport, hm.value_eq hwell]

/-- Whatever a node says, the texts that come in are in it. -/
theorem mentions (hm : s.Brings t m) (hwell : s.routine.WellFormed s.scope)
    (hn : s.routine.nodes.get? s.id = some n) (hreads : n.payload.reads = true) {l : Listing}
    {u : String} (hu : u ∈ s.sayings l n.payload) : Mentions t u := by
  have hport := hm.exists_port hwell hn
  have hvalue := hm.value_eq hwell
  have hoperand := hm.mentions_operand hwell
  obtain ⟨c, hc, hflow⟩ := hwell.input?_of_mem hm.mem (hm.sink ▸ hn)
  rw [hm.value] at hflow
  generalize n.payload = p at hreads hu hport hc
  cases p with
  | assign name v =>
    obtain ⟨spec, hspec, hport, hflow⟩ := hport rfl
    obtain ⟨hnone, htwo⟩ := Routine.port_of_assign_input hspec hflow
    rw [eq_of_mem_sayings_assign hu, hnone, ← htwo, hport, hvalue]
    exact (Mentions.refl t).append_right _
  | ending e =>
    cases e with
    | abort =>
      obtain ⟨spec, hspec, hport, hflow⟩ := hport rfl
      rw [List.mem_singleton.mp hspec] at hflow
      exact absurd hflow (by decide)
    | result type v =>
      cases v with
      | some v => exact absurd hreads (by simp [Payload.reads])
      | none =>
        obtain ⟨spec, hspec, hport, hflow⟩ := hport rfl
        rw [← hport, Routine.port_of_result_input hspec hflow] at hvalue
        rcases eq_of_mem_sayings_result hu with ⟨rfl, hempty⟩ | rfl
        · rw [← hvalue, hempty]
          exact List.nil_infix
        · rw [hvalue]
          exact (Mentions.refl t).append_right _
  | operation o =>
    obtain ⟨spec, hspec, hport, _⟩ := hport rfl
    rw [eq_of_mem_sayings_operation hu, operationText]
    rw [← hport] at hoperand
    rcases Routine.port_of_operation_input hspec with ⟨hnone, hzero⟩ | ⟨hbinary, hnone, hone⟩
    · rw [hnone, ← hzero]
      split
      · exact hoperand.append_right _
      · exact (((hoperand.append_left _).append_left _).append_left _).append_left _
    · rw [hbinary, hnone, ← hone]
      exact hoperand.append_right _
  | condition c =>
    obtain ⟨spec, hspec, hport, _⟩ := hport rfl
    rw [eq_of_mem_sayings_condition hu, conditionText]
    rw [← hport] at hoperand
    rcases Routine.port_of_condition_input hspec with ⟨hnone, hzero⟩ | ⟨hnone, hone⟩
    · rw [hnone, ← hzero]
      exact (((hoperand.append_left _).append_left _).append_left _).append_left _
    · rw [hnone, ← hone]
      exact hoperand.append_right _
  | branch b =>
    obtain ⟨spec, hspec, hport, hflow⟩ := hport rfl
    rw [← hport, Routine.port_of_branch_input hspec hflow] at hvalue
    have hcondition : Mentions t ("IF (" ++ s.value none 1 ++ ") THEN GOTO ") := by
      rw [hvalue]
      exact ((Mentions.refl t).append_right _).append_left _
    obtain ⟨line, rfl | ⟨other, rfl⟩⟩ := eq_of_mem_sayings_branch hu
    · exact hcondition.append_left _
    · exact ((hcondition.append_left _).append_left _).append_left _
  | call c =>
    obtain ⟨spec, hspec, hport, hflow⟩ := hport rfl
    obtain ⟨i, hliteral, hargument⟩ := Routine.port_of_call_input hspec hflow
    rw [eq_of_mem_sayings_call hu]
    exact mentions_callText (hm.mem_arguments hwell hliteral (hargument.symm.trans hport))
  | process name =>
    rw [eq_of_mem_sayings_process hu, processCall]
    apply mentions_callText
    cases hcallee : s.scope.callee? name with
    | none =>
      obtain ⟨e, hoffer, rfl⟩ := hm.offered
      have hin : m ∈ s.incomingValues := mem_incomingValues.mpr ⟨hm.mem, hm.sink, hm.value⟩
      refine List.mem_map.mpr ⟨m, List.mem_mergeSort.mpr hin, ?_⟩
      rw [hoffer]
      rfl
    | some callee =>
      rcases Routine.port_of_process_input hcallee hc with ⟨_, rfl⟩ | ⟨⟨hlow, hhigh⟩, _⟩
      · exact absurd hflow (by decide)
      · simp only [Option.isSome_some, if_true, Option.map_some, Option.getD_some]
        refine hm.mem_arguments hwell (i := m.sink.port.toNat - 2) ?_ (by omega)
        rw [List.getElem?_replicate_of_lt (by omega)]
  -- The other nodes have no ports for values.
  | jump =>
    obtain ⟨spec, hspec, hport, hflow⟩ := hport rfl
    rw [List.mem_singleton.mp hspec] at hflow
    exact absurd hflow (by decide)
  | start => exact absurd hc (by simp [Routine.layout, Layout.input?])
  | argument name => exact absurd hc (by simp [Routine.layout, Layout.input?])
  | fetch name => exact absurd hc (by simp [Routine.layout, Layout.input?])

end Brings

end Site

end FlowBasic
