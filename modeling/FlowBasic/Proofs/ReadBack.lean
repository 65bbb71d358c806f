import FlowBasic.Proofs.Spelling
import FlowBasic.Synthesis
import Mathlib.Data.List.SplitBy

namespace FlowBasic

/-- An operator that stands between two operands. -/
inductive Operator where
  | arithmetic (o : Arithmetic) (h : o ≠ .not)
  | comparison (c : NumberComparison)
deriving DecidableEq

namespace Operator

def symbol : Operator → String
  | arithmetic o _ => o.symbol
  | comparison c => c.symbol

def all : List Operator :=
  (Arithmetic.all.filterMap fun o => if h : o ≠ .not then some (arithmetic o h) else none) ++
    NumberComparison.all.map comparison

def ofSymbol? (s : String) : Option Operator := all.find? (·.symbol = s)

theorem mem_all (o : Operator) : o ∈ all := by
  cases o with
  | arithmetic o h => cases o <;> simp [all, Arithmetic.all] at h ⊢
  | comparison c => cases c <;> decide

theorem ofSymbol?_symbol (o : Operator) : ofSymbol? o.symbol = some o := by
  have hall : ∀ o ∈ all, ofSymbol? o.symbol = some o := by decide
  exact hall o o.mem_all

end Operator

/-- A tree of operations and comparisons of numbers. An argument and a variable are both a name. -/
inductive Term where
  | number (n : UInt64)
  | name (s : String)
  | complement (t : Term)
  | binary (o : Operator) (left right : Term)
deriving DecidableEq

/-- What a character can be part of. -/
inductive CharKind where
  | blank
  | bracket
  | sign
  | word
deriving DecidableEq

def CharKind.of (c : Char) : CharKind :=
  if c = ' ' then .blank
  else if c = '(' ∨ c = ')' then .bracket
  else if c ∈ ['+', '-', '*', '/', '%', '&', '|', '^', '!', '<', '>', '='] then .sign
  else .word

/-- Words and runs of signs are read as one; blanks and brackets stand alone. -/
def together (a b : Char) : Bool :=
  CharKind.of a = CharKind.of b && (CharKind.of a = .sign || CharKind.of a = .word)

/-- A word that does not begin like a number. -/
def isIdentifier (s : String) : Bool :=
  s.toList.all (CharKind.of · = .word) && s.toList.head?.any fun c => (Digit.ofChar? c).isNone

namespace Term

/-- The text of a term, as it stands on its own or as an operand. -/
def expression : Term → Expression
  | number n => .atom (Decimal.text n.toNat)
  | name s => .atom s
  | complement t => ⟨"!" ++ t.expression.asOperand, true⟩
  | binary o left right =>
    ⟨left.expression.asOperand ++ " " ++ o.symbol ++ " " ++ right.expression.asOperand, true⟩

/-- All names of the term are identifiers. -/
def named : Term → Bool
  | number _ => true
  | name s => isIdentifier s
  | complement t => t.named
  | binary _ left right => left.named && right.named

/-- What a word says: a number that fits, or a name. -/
def ofWord? (cs : List Char) : Option Term :=
  if cs.head?.any fun c => (Digit.ofChar? c).isSome then
    match cs.mapM Digit.ofChar? with
    | some ds => if Decimal.value ds < UInt64.size then some (number (.ofNat (Decimal.value ds))) else none
    | none => none
  else some (name (String.ofList cs))

end Term

/-- A part of what stands between two brackets. -/
inductive Item where
  | term (t : Term)
  | sign (s : String)
deriving DecidableEq

/-- What stands between two brackets, the last part first. -/
abbrev Frame := List Item

namespace Frame

/-- The term that a frame makes up. With more than one operator there is none. -/
def close? : Frame → Option Term
  | [.term t] => some t
  | [.term t, .sign s] => if s = "!" then some (.complement t) else none
  | [.term right, .sign s, .term left] => (Operator.ofSymbol? s).map fun o => .binary o left right
  | _ => none

end Frame

/-- Reads one piece of a text. The innermost bracket that is open comes first. -/
def readPiece : List Frame → List Char → Option (List Frame)
  | frame :: frames, c :: cs =>
    match CharKind.of c with
    | .blank => some (frame :: frames)
    | .sign => some ((.sign (String.ofList (c :: cs)) :: frame) :: frames)
    | .word => (Term.ofWord? (c :: cs)).map fun t => (.term t :: frame) :: frames
    | .bracket =>
      if c = '(' then some ([] :: frame :: frames)
      else
        match frames with
        | outer :: frames => frame.close?.map fun t => (.term t :: outer) :: frames
        | [] => none
  | _, _ => none

def readFrom (frames : List Frame) (cs : List Char) : Option (List Frame) :=
  (cs.splitBy together).foldlM readPiece frames

/-- The term of a text. -/
def Term.read? (text : String) : Option Term :=
  match readFrom [[]] text.toList with
  | some [frame] => frame.close?
  | _ => none

theorem together_eq_false {a b : Char} (h : CharKind.of a ≠ CharKind.of b) : together a b = false := by
  simp [together, h]

/-- Nothing is read together with a blank or a bracket. -/
theorem together_of_alone {a b : Char}
    (h : CharKind.of a ∈ [.blank, .bracket] ∨ CharKind.of b ∈ [.blank, .bracket]) :
    together a b = false := by
  cases ha : CharKind.of a <;> cases hb : CharKind.of b <;> simp [together, ha, hb] at h ⊢

theorem readFrom_append {xs ys : List Char}
    (h : ∀ x ∈ xs.getLast?, ∀ y ∈ ys.head?, together x y = false) (frames : List Frame) :
    readFrom frames (xs ++ ys) = (readFrom frames xs).bind (readFrom · ys) := by
  rw [readFrom, List.splitBy_append h, List.foldlM_append]
  rfl

theorem readFrom_of_isChain {cs : List Char} (hne : cs ≠ []) (h : cs.IsChain fun a b => together a b)
    (frames : List Frame) : readFrom frames cs = readPiece frames cs := by
  rw [readFrom, List.splitBy_of_isChain hne h, List.foldlM_cons]
  exact bind_pure _

/-- A blank or a bracket is read before what follows, whatever that is. -/
theorem readFrom_alone_cons {c : Char} (h : CharKind.of c ∈ [.blank, .bracket]) (cs : List Char)
    (frames : List Frame) :
    readFrom frames (c :: cs) = (readPiece frames [c]).bind (readFrom · cs) := by
  have hapart : ∀ x ∈ [c].getLast?, ∀ y ∈ cs.head?, together x y = false := by
    intro x hx y _
    obtain rfl : c = x := by simpa using hx
    exact together_of_alone (.inl h)
  rw [← List.singleton_append, readFrom_append hapart, readFrom_of_isChain (by simp) (.singleton c)]

/-- What stands before a blank or a bracket is read before it. -/
theorem readFrom_append_alone {c : Char} (h : CharKind.of c ∈ [.blank, .bracket]) (xs cs : List Char)
    (frames : List Frame) :
    readFrom frames (xs ++ c :: cs) = (readFrom frames xs).bind (readFrom · (c :: cs)) := by
  apply readFrom_append
  intro x _ y hy
  obtain rfl : c = y := by simpa using hy
  exact together_of_alone (.inr h)

theorem isChain_together {k : CharKind} (hk : k = .sign ∨ k = .word) {cs : List Char}
    (h : ∀ c ∈ cs, CharKind.of c = k) : cs.IsChain fun a b => together a b := by
  apply List.Pairwise.isChain
  apply List.pairwise_of_forall_mem_list
  intro a ha b hb
  rcases hk with rfl | rfl <;> simp [together, h a ha, h b hb]

theorem readFrom_signs {s : String} (hne : s.toList ≠ []) (h : ∀ c ∈ s.toList, CharKind.of c = .sign)
    (frame : Frame) (frames : List Frame) :
    readFrom (frame :: frames) s.toList = some ((.sign s :: frame) :: frames) := by
  rw [readFrom_of_isChain hne (isChain_together (.inl rfl) h)]
  obtain ⟨c, cs, hcs⟩ := List.exists_cons_of_ne_nil hne
  have hc := h c (by simp [hcs])
  rw [hcs]
  simp only [readPiece, hc]
  rw [← hcs, String.ofList_toList]

theorem readFrom_word {cs : List Char} {t : Term} (hne : cs ≠ []) (h : ∀ c ∈ cs, CharKind.of c = .word)
    (ht : Term.ofWord? cs = some t) (frame : Frame) (frames : List Frame) :
    readFrom (frame :: frames) cs = some ((.term t :: frame) :: frames) := by
  rw [readFrom_of_isChain hne (isChain_together (.inr rfl) h)]
  obtain ⟨c, cs, rfl⟩ := List.exists_cons_of_ne_nil hne
  have hc := h c List.mem_cons_self
  simp only [readPiece, hc, ht, Option.map_some]

theorem mapM_ofChar?_char (ds : List Digit) : (ds.map Digit.char).mapM Digit.ofChar? = some ds := by
  induction ds with
  | nil => rfl
  | cons d ds ih =>
    rw [List.map_cons, List.mapM_cons, Digit.ofChar?_char, ih]
    rfl

theorem kind_char (d : Digit) : CharKind.of d.char = .word := by
  revert d; decide

namespace Term

theorem ofWord?_name {s : String} (h : isIdentifier s = true) : ofWord? s.toList = some (name s) := by
  have hhead := (Bool.and_eq_true_iff.mp h).2
  cases hs : s.toList with
  | nil => simp [hs] at hhead
  | cons c cs =>
    have hc : Digit.ofChar? c = none := by simpa [hs] using hhead
    have hname : String.ofList (c :: cs) = s := by rw [← hs, String.ofList_toList]
    simp [ofWord?, hc, hname]

theorem ofWord?_number (n : UInt64) : ofWord? (Decimal.text n.toNat).toList = some (number n) := by
  have hhead : ((Decimal.digits n.toNat).map Digit.char).head?.any
      (fun c => (Digit.ofChar? c).isSome) = true := by
    obtain ⟨d, ds, hds⟩ := List.exists_cons_of_ne_nil (Numeral.digits_ne_nil n.toNat)
    simp [hds, Digit.ofChar?_char]
  rw [Decimal.text, String.toList_ofList, ofWord?, mapM_ofChar?_char, if_pos hhead]
  simp [Decimal.value_digits, n.toNat_lt_size]

/-- The text adds its term to what has been read since the last open bracket. -/
def ReadsAsOperand (text : String) (t : Term) : Prop :=
  ∀ frame frames, readFrom (frame :: frames) text.toList = some ((.term t :: frame) :: frames)

/-- The text makes up its term where nothing has been read since the last open bracket. -/
def ReadsAlone (text : String) (t : Term) : Prop :=
  ∃ frame : Frame, frame.close? = some t ∧
    ∀ frames, readFrom ([] :: frames) text.toList = some (frame :: frames)

theorem readsAsOperand_number (n : UInt64) : ReadsAsOperand (Decimal.text n.toNat) (number n) := by
  apply readFrom_word ?_ ?_ (ofWord?_number n)
  · simp [Decimal.text, Numeral.digits_ne_nil]
  · intro c hc
    rw [Decimal.text, String.toList_ofList] at hc
    obtain ⟨d, _, rfl⟩ := List.mem_map.mp hc
    exact kind_char d

theorem readsAsOperand_name {s : String} (h : isIdentifier s = true) : ReadsAsOperand s (name s) := by
  obtain ⟨hword, hhead⟩ := Bool.and_eq_true_iff.mp h
  apply readFrom_word ?_ ?_ (ofWord?_name h)
  · intro hnil
    simp [hnil] at hhead
  · intro c hc
    exact of_decide_eq_true (List.all_eq_true.mp hword c hc)

theorem ReadsAlone.read? {text : String} {t : Term} (h : ReadsAlone text t) : read? text = some t := by
  obtain ⟨frame, hclose, hread⟩ := h
  rw [Term.read?, hread]
  exact hclose

theorem ReadsAsOperand.alone {text : String} {t : Term} (h : ReadsAsOperand text t) : ReadsAlone text t :=
  ⟨[.term t], rfl, h []⟩

theorem ReadsAlone.bracketed {text : String} {t : Term} (h : ReadsAlone text t) :
    ReadsAsOperand ("(" ++ text ++ ")") t := by
  obtain ⟨inner, hclose, hread⟩ := h
  intro frame frames
  have hlist : ("(" ++ text ++ ")").toList = '(' :: (text.toList ++ [')']) := by
    simp [String.toList_append]
  have hopen : readPiece (frame :: frames) ['('] = some ([] :: frame :: frames) := rfl
  have hclosing : readPiece (inner :: frame :: frames) [')'] = some ((.term t :: frame) :: frames) := by
    simp [readPiece, CharKind.of, hclose]
  rw [hlist, readFrom_alone_cons (by decide), hopen, Option.bind_some,
    readFrom_append_alone (by decide), hread, Option.bind_some, readFrom_alone_cons (by decide), hclosing]
  rfl

theorem ReadsAsOperand.complement {text : String} {t : Term} (h : ReadsAsOperand text t)
    (hhead : ∀ c ∈ text.toList.head?, CharKind.of c ≠ .sign) :
    ReadsAlone ("!" ++ text) (complement t) := by
  refine ⟨[.term t, .sign "!"], rfl, ?_⟩
  intro frames
  have hsign := readFrom_signs (s := "!") (by decide) (by simp [CharKind.of]) [] frames
  rw [String.toList_append, readFrom_append, hsign]
  · exact h [.sign "!"] frames
  · intro x hx y hy
    obtain rfl : '!' = x := by simpa using hx
    exact together_eq_false (hhead y hy).symm

theorem ReadsAsOperand.binary {left right : String} {l r : Term} (hl : ReadsAsOperand left l)
    (hr : ReadsAsOperand right r) (o : Operator) :
    ReadsAlone (left ++ " " ++ o.symbol ++ " " ++ right) (binary o l r) := by
  refine ⟨[.term r, .sign o.symbol, .term l], by simp [Frame.close?, o.ofSymbol?_symbol], ?_⟩
  intro frames
  have hsigns : ∀ o ∈ Operator.all, o.symbol.toList ≠ [] ∧
      o.symbol.toList.all (CharKind.of · = .sign) = true := by decide
  obtain ⟨hne, hall⟩ := hsigns o o.mem_all
  have hsign := readFrom_signs hne (fun c hc => of_decide_eq_true (List.all_eq_true.mp hall c hc))
    [.term l] frames
  have hblank : ∀ frame, readPiece (frame :: frames) [' '] = some (frame :: frames) := fun _ => rfl
  have hlist : (left ++ " " ++ o.symbol ++ " " ++ right).toList =
      left.toList ++ ' ' :: (o.symbol.toList ++ ' ' :: right.toList) := by
    simp [String.toList_append]
  rw [hlist, readFrom_append_alone (by decide), hl, Option.bind_some, readFrom_alone_cons (by decide),
    hblank, Option.bind_some, readFrom_append_alone (by decide), hsign, Option.bind_some,
    readFrom_alone_cons (by decide), hblank, Option.bind_some, hr]

/-- An operand does not begin with a sign, so it is not read together with one. -/
theorem kind_head_asOperand {t : Term} (h : t.named = true) :
    ∀ c ∈ t.expression.asOperand.toList.head?, CharKind.of c ≠ .sign := by
  intro c hc
  cases t with
  | number n =>
    obtain ⟨d, ds, hds⟩ := List.exists_cons_of_ne_nil (Numeral.digits_ne_nil n.toNat)
    have htext : (number n).expression.asOperand.toList = d.char :: ds.map Digit.char := by
      simp [expression, Expression.asOperand, Expression.atom, Decimal.text, hds]
    obtain rfl : d.char = c := by simpa [htext] using hc
    simp [kind_char]
  | name s =>
    have hmem : c ∈ s.toList := List.mem_of_mem_head? hc
    have hword := of_decide_eq_true (List.all_eq_true.mp (Bool.and_eq_true_iff.mp h).1 c hmem)
    simp [hword]
  | complement t =>
    obtain rfl : '(' = c := by simpa [expression, Expression.asOperand] using hc
    decide
  | binary o l r =>
    obtain rfl : '(' = c := by simpa [expression, Expression.asOperand] using hc
    decide

/-- The text of a term is read back, on its own and as an operand. -/
theorem readsBack {t : Term} (h : t.named = true) :
    ReadsAlone t.expression.text t ∧ ReadsAsOperand t.expression.asOperand t := by
  -- A compound term is built from operands and becomes one between brackets; a leaf is one as it is.
  induction t with
  | number n => exact ⟨(readsAsOperand_number n).alone, readsAsOperand_number n⟩
  | name s => exact ⟨(readsAsOperand_name h).alone, readsAsOperand_name h⟩
  | complement t ih =>
    have halone := (ih h).2.complement (kind_head_asOperand h)
    exact ⟨halone, halone.bracketed⟩
  | binary o l r ihl ihr =>
    obtain ⟨hl, hr⟩ := Bool.and_eq_true_iff.mp h
    have halone := (ihl hl).2.binary (ihr hr).2 o
    exact ⟨halone, halone.bracketed⟩

theorem read?_expression {t : Term} (h : t.named = true) : read? t.expression.text = some t :=
  (readsBack h).1.read?

-- Nothing says which of the two comes first.
example : read? "a - b - x" = none := by decide +kernel

end Term

end FlowBasic
