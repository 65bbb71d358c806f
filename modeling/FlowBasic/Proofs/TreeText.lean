import FlowBasic.Json.Parse
import FlowBasic.Proofs.Spelling

namespace FlowBasic

namespace Json

/-- Numbers and texts are written as a text can hold them. -/
inductive WellFormed : Json → Prop
  | null : WellFormed .null
  | bool (b : Bool) : WellFormed (.bool b)
  | number {n : Numeral} (h : n.WellFormed) : WellFormed (.number n)
  | text {q : Quoted} (h : q.WellFormed) : WellFormed (.text q)
  | array {items : List Json} (h : ∀ v ∈ items, WellFormed v) : WellFormed (.array items)
  | object {fields : List (Quoted × Json)} (hkeys : ∀ f ∈ fields, f.1.WellFormed)
      (h : ∀ f ∈ fields, WellFormed f.2) : WellFormed (.object fields)

mutual

/-- The tokens of a value. -/
def tokens : Json → List Token
  | null => [.null]
  | bool b => [.bool b]
  | number n => [.number n]
  | text q => [.text q]
  | array items => .openArray :: (itemTokens items ++ [.closeArray])
  | object fields => .openObject :: (fieldTokens fields ++ [.closeObject])

def itemTokens : List Json → List Token
  | [] => []
  | [v] => tokens v
  | v :: w :: rest => tokens v ++ .comma :: itemTokens (w :: rest)

def fieldTokens : List (Quoted × Json) → List Token
  | [] => []
  | [(k, v)] => .text k :: .colon :: tokens v
  | (k, v) :: f :: rest => .text k :: .colon :: (tokens v ++ .comma :: fieldTokens (f :: rest))

end

/-- Whatever stands before the text ends there. -/
def Boundary (cs : List Char) : Prop := ∀ c ∈ cs.head?, ∀ t : Token, t.endsBefore c = true

theorem boundary_nil : Boundary [] := by simp [Boundary]

theorem boundary_cons {c : Char} (hlower : c.isLower = false) (hnumeral : Scan.isNumeralChar c = false)
    (cs : List Char) : Boundary (c :: cs) := by
  intro c' hc' t
  obtain rfl : c = c' := by simpa using hc'
  cases t <;> simp [Token.endsBefore, hlower, hnumeral]

theorem boundary_newline (level : Nat) (cs : List Char) : Boundary (newline level ++ cs) :=
  boundary_cons rfl rfl _

theorem spells_newline {ts : List Token} {cs : List Char} (level : Nat) (h : Spells ts cs) :
    Spells ts (newline level ++ cs) := by
  refine .space rfl ?_
  induction 2 * level with
  | zero => exact h
  | succ k ih => exact .space rfl ih

theorem spells_last {t : Token} (ht : t.WellFormed) {ts : List Token} {cs : List Char} (hend : Boundary cs)
    (h : Spells ts cs) : Spells (t :: ts) (t.chars ++ cs) :=
  .token ht.spelt (fun c hc => hend c hc t) h

/-- A mark may be followed by anything. -/
theorem spells_mark (t : Token) {c : Char} (hchars : t.chars = [c]) (ht : t.WellFormed)
    (hend : ∀ c, t.endsBefore c = true) {ts : List Token} {cs : List Char} (h : Spells ts cs) :
    Spells (t :: ts) (c :: cs) := by
  have hspells : Spells (t :: ts) (t.chars ++ cs) := .token ht.spelt (fun c _ => hend c) h
  rwa [hchars] at hspells

theorem spells_comma {ts : List Token} {cs : List Char} (h : Spells ts cs) :
    Spells (.comma :: ts) (',' :: cs) := spells_mark .comma rfl trivial (fun _ => rfl) h

theorem spells_field {k : Quoted} (hk : k.WellFormed) {ts : List Token} {cs : List Char} (h : Spells ts cs) :
    Spells (.text k :: .colon :: ts) (k.chars ++ ':' :: cs) :=
  .token (Token.WellFormed.spelt (t := .text k) hk) (fun _ _ => rfl) (spells_mark .colon rfl trivial (fun _ => rfl) h)

theorem spells_array {items : List Json} {ts : List Token} {body cs : List Char}
    (h : ∀ ts cs, Boundary cs → Spells ts cs → Spells (itemTokens items ++ ts) (body ++ cs))
    (hrest : Spells ts cs) : Spells (tokens (.array items) ++ ts) (bracketed '[' ']' body ++ cs) := by
  have hbody := h _ _ (boundary_cons rfl rfl _) (spells_mark .closeArray rfl trivial (fun _ => rfl) hrest)
  simp only [tokens, bracketed, List.cons_append, List.append_assoc, List.nil_append]
  exact spells_mark .openArray rfl trivial (fun _ => rfl) hbody

theorem spells_object {fields : List (Quoted × Json)} {ts : List Token} {body cs : List Char}
    (h : ∀ ts cs, Boundary cs → Spells ts cs → Spells (fieldTokens fields ++ ts) (body ++ cs))
    (hrest : Spells ts cs) :
    Spells (tokens (.object fields) ++ ts) (bracketed '\x7b' '\x7d' body ++ cs) := by
  have hbody := h _ _ (boundary_cons rfl rfl _) (spells_mark .closeObject rfl trivial (fun _ => rfl) hrest)
  simp only [tokens, bracketed, List.cons_append, List.append_assoc, List.nil_append]
  exact spells_mark .openObject rfl trivial (fun _ => rfl) hbody

mutual

theorem spells_compact (v : Json) (hv : v.WellFormed) (ts : List Token) (cs : List Char)
    (hend : Boundary cs) (h : Spells ts cs) : Spells (v.tokens ++ ts) (v.compact ++ cs) := by
  match v, hv with
  | .null, _ => exact spells_last (t := .null) trivial hend h
  | .bool true, _ => exact spells_last (t := .bool true) trivial hend h
  | .bool false, _ => exact spells_last (t := .bool false) trivial hend h
  | .number n, .number hn => exact spells_last (t := .number n) hn hend h
  | .text q, .text hq => exact spells_last (t := .text q) hq hend h
  | .array items, .array hitems => exact spells_array (spells_compactItems items hitems) h
  | .object fields, .object hkeys hfields => exact spells_object (spells_compactFields fields hkeys hfields) h

theorem spells_compactItems (items : List Json) (hitems : ∀ v ∈ items, v.WellFormed) (ts : List Token)
    (cs : List Char) (hend : Boundary cs) (h : Spells ts cs) :
    Spells (itemTokens items ++ ts) (compactItems items ++ cs) := by
  match items, hitems with
  | [], _ => exact h
  | [v], hitems => exact spells_compact v (hitems v List.mem_cons_self) ts cs hend h
  | v :: w :: rest, hitems =>
    have hrest := spells_compactItems (w :: rest) (fun u hu => hitems u (List.mem_cons_of_mem _ hu)) ts cs hend h
    simp only [itemTokens, compactItems, List.append_assoc, List.cons_append]
    exact spells_compact v (hitems v List.mem_cons_self) _ _ (boundary_cons rfl rfl _) (spells_comma hrest)

theorem spells_compactFields (fields : List (Quoted × Json)) (hkeys : ∀ f ∈ fields, f.1.WellFormed)
    (hfields : ∀ f ∈ fields, f.2.WellFormed) (ts : List Token) (cs : List Char) (hend : Boundary cs)
    (h : Spells ts cs) : Spells (fieldTokens fields ++ ts) (compactFields fields ++ cs) := by
  match fields, hkeys, hfields with
  | [], _, _ => exact h
  | [(k, v)], hkeys, hfields =>
    have hvalue := spells_compact v (hfields _ List.mem_cons_self) ts cs hend h
    simp only [fieldTokens, compactFields, List.append_assoc, List.cons_append]
    exact spells_field (hkeys _ List.mem_cons_self) hvalue
  | (k, v) :: f :: rest, hkeys, hfields =>
    have hrest := spells_compactFields (f :: rest) (fun f hf => hkeys f (List.mem_cons_of_mem _ hf))
      (fun f hf => hfields f (List.mem_cons_of_mem _ hf)) ts cs hend h
    have hvalue := spells_compact v (hfields _ List.mem_cons_self) _ _ (boundary_cons rfl rfl _)
      (spells_comma hrest)
    simp only [fieldTokens, compactFields, List.append_assoc, List.cons_append]
    exact spells_field (hkeys _ List.mem_cons_self) hvalue

end

mutual

theorem spells_pretty (level : Nat) (v : Json) (hv : v.WellFormed) (ts : List Token) (cs : List Char)
    (hend : Boundary cs) (h : Spells ts cs) : Spells (v.tokens ++ ts) (v.pretty level ++ cs) := by
  match v, hv with
  | .null, _ => exact spells_last (t := .null) trivial hend h
  | .bool true, _ => exact spells_last (t := .bool true) trivial hend h
  | .bool false, _ => exact spells_last (t := .bool false) trivial hend h
  | .number n, .number hn => exact spells_last (t := .number n) hn hend h
  | .text q, .text hq => exact spells_last (t := .text q) hq hend h
  | .array [], _ =>
    show Spells _ (bracketed '[' ']' [] ++ cs)
    exact spells_array (fun _ _ _ h => h) h
  | .array (v :: rest), .array hitems =>
    refine spells_array (fun ts cs hend h => ?_) h
    rw [List.append_assoc]
    exact spells_prettyItems (level + 1) (v :: rest) hitems _ _ (boundary_newline level cs)
      (spells_newline level h)
  | .object [], _ =>
    show Spells _ (bracketed '\x7b' '\x7d' [] ++ cs)
    exact spells_object (fun _ _ _ h => h) h
  | .object (f :: rest), .object hkeys hfields =>
    refine spells_object (fun ts cs hend h => ?_) h
    rw [List.append_assoc]
    exact spells_prettyFields (level + 1) (f :: rest) hkeys hfields _ _ (boundary_newline level cs)
      (spells_newline level h)

theorem spells_prettyItems (level : Nat) (items : List Json) (hitems : ∀ v ∈ items, v.WellFormed)
    (ts : List Token) (cs : List Char) (hend : Boundary cs) (h : Spells ts cs) :
    Spells (itemTokens items ++ ts) (prettyItems level items ++ cs) := by
  match items, hitems with
  | [], _ => exact h
  | [v], hitems =>
    have hvalue := spells_pretty level v (hitems v List.mem_cons_self) ts cs hend h
    simp only [itemTokens, prettyItems, List.append_assoc]
    exact spells_newline level hvalue
  | v :: w :: rest, hitems =>
    have hrest := spells_prettyItems level (w :: rest) (fun u hu => hitems u (List.mem_cons_of_mem _ hu)) ts cs
      hend h
    have hvalue := spells_pretty level v (hitems v List.mem_cons_self) _ _ (boundary_cons rfl rfl _)
      (spells_comma hrest)
    simp only [itemTokens, prettyItems, List.append_assoc, List.cons_append]
    exact spells_newline level hvalue

theorem spells_prettyFields (level : Nat) (fields : List (Quoted × Json)) (hkeys : ∀ f ∈ fields, f.1.WellFormed)
    (hfields : ∀ f ∈ fields, f.2.WellFormed) (ts : List Token) (cs : List Char) (hend : Boundary cs)
    (h : Spells ts cs) : Spells (fieldTokens fields ++ ts) (prettyFields level fields ++ cs) := by
  match fields, hkeys, hfields with
  | [], _, _ => exact h
  | [(k, v)], hkeys, hfields =>
    have hvalue := spells_pretty level v (hfields _ List.mem_cons_self) ts cs hend h
    simp only [fieldTokens, prettyFields, List.append_assoc, List.cons_append]
    exact spells_newline level (spells_field (hkeys _ List.mem_cons_self) (.space rfl hvalue))
  | (k, v) :: f :: rest, hkeys, hfields =>
    have hrest := spells_prettyFields level (f :: rest) (fun f hf => hkeys f (List.mem_cons_of_mem _ hf))
      (fun f hf => hfields f (List.mem_cons_of_mem _ hf)) ts cs hend h
    have hvalue := spells_pretty level v (hfields _ List.mem_cons_self) _ _ (boundary_cons rfl rfl _)
      (spells_comma hrest)
    simp only [fieldTokens, prettyFields, List.append_assoc, List.cons_append]
    exact spells_newline level (spells_field (hkeys _ List.mem_cons_self) (.space rfl hvalue))

end

/-- In an array that was just opened a value is read as any other. -/
theorem parse_firstItem (v : Json) (outer : Around) (rest : List Token) :
    (v.tokens ++ rest).foldlM Parse.step (.firstItem outer) =
      (v.tokens ++ rest).foldlM Parse.step (.value (.item [] outer)) := by
  cases v <;> simp only [tokens, List.cons_append, List.foldlM_cons, List.nil_append] <;> rfl

mutual

theorem parse_tokens (v : Json) (around : Around) (rest : List Token) :
    (v.tokens ++ rest).foldlM Parse.step (.value around) = rest.foldlM Parse.step (.done v around) := by
  match v with
  | .null => rfl
  | .bool _ => rfl
  | .number _ => rfl
  | .text _ => rfl
  | .array [] => rfl
  | .array (v :: items) =>
    refine Eq.trans ?_ (parse_itemTokens (v :: items) (List.cons_ne_nil _ _) [] around rest)
    simp only [tokens, List.cons_append, List.append_assoc, List.nil_append, List.foldlM_cons]
    cases items with
    | nil => exact parse_firstItem v around _
    | cons w items =>
      simp only [itemTokens, List.append_assoc]
      exact parse_firstItem v around _
  | .object [] => rfl
  | .object (f :: fields) =>
    refine Eq.trans ?_ (parse_fieldTokens (f :: fields) (List.cons_ne_nil _ _) [] around rest)
    simp only [tokens, List.cons_append, List.append_assoc, List.nil_append, List.foldlM_cons]
    cases fields <;> rfl

theorem parse_itemTokens (items : List Json) (hitems : items ≠ []) (before : List Json) (outer : Around)
    (rest : List Token) :
    (itemTokens items ++ .closeArray :: rest).foldlM Parse.step (.value (.item before outer)) =
      rest.foldlM Parse.step (.done (.array (before.reverse ++ items)) outer) := by
  match items, hitems with
  | [v], _ =>
    rw [itemTokens, parse_tokens]
    show rest.foldlM Parse.step (.done (.array (v :: before).reverse) outer) = _
    rw [List.reverse_cons]
  | v :: w :: items, _ =>
    have hrest := parse_itemTokens (w :: items) (List.cons_ne_nil _ _) (v :: before) outer rest
    simp only [itemTokens, List.append_assoc, List.cons_append]
    rw [parse_tokens]
    show (itemTokens (w :: items) ++ .closeArray :: rest).foldlM Parse.step
      (.value (.item (v :: before) outer)) = _
    rw [hrest, List.reverse_cons, List.append_assoc]
    rfl

theorem parse_fieldTokens (fields : List (Quoted × Json)) (hfields : fields ≠ [])
    (before : List (Quoted × Json)) (outer : Around) (rest : List Token) :
    (fieldTokens fields ++ .closeObject :: rest).foldlM Parse.step (.key before outer) =
      rest.foldlM Parse.step (.done (.object (before.reverse ++ fields)) outer) := by
  match fields, hfields with
  | [(k, v)], _ =>
    have hvalue := parse_tokens v (.field before k outer) (.closeObject :: rest)
    show (v.tokens ++ .closeObject :: rest).foldlM Parse.step (.value (.field before k outer)) = _
    rw [hvalue]
    show rest.foldlM Parse.step (.done (.object ((k, v) :: before).reverse) outer) = _
    rw [List.reverse_cons]
  | (k, v) :: f :: fields, _ =>
    have hrest := parse_fieldTokens (f :: fields) (List.cons_ne_nil _ _) ((k, v) :: before) outer rest
    have hvalue := parse_tokens v (.field before k outer)
      (.comma :: (fieldTokens (f :: fields) ++ .closeObject :: rest))
    simp only [fieldTokens, List.append_assoc, List.cons_append]
    show (v.tokens ++ .comma :: (fieldTokens (f :: fields) ++ .closeObject :: rest)).foldlM Parse.step
      (.value (.field before k outer)) = _
    rw [hvalue]
    show (fieldTokens (f :: fields) ++ .closeObject :: rest).foldlM Parse.step
      (.key ((k, v) :: before) outer) = _
    rw [hrest, List.reverse_cons, List.append_assoc]
    rfl

end

theorem ofTokens?_tokens (v : Json) : ofTokens? v.tokens = some v := by
  have hparse := parse_tokens v .top []
  rw [List.append_nil] at hparse
  rw [ofTokens?, hparse]
  rfl

end Json

/-- The tokens of fields that others follow. -/
def Around.fieldsBefore (before : List (Quoted × Json)) : List Token :=
  before.reverse.flatMap fun f => .text f.1 :: .colon :: (f.2.tokens ++ [.comma])

/-- The tokens that stand before a value. -/
def Around.tokens : Around → List Token
  | top => []
  | item before outer => outer.tokens ++ .openArray :: before.reverse.flatMap fun v => v.tokens ++ [.comma]
  | field before k outer => outer.tokens ++ .openObject :: (fieldsBefore before ++ [.text k, .colon])

namespace Parse

/-- The tokens that were read. -/
def consumed : Parse → List Token
  | value around => around.tokens
  | firstItem outer => outer.tokens ++ [.openArray]
  | firstKey outer => outer.tokens ++ [.openObject]
  | key before outer => outer.tokens ++ .openObject :: Around.fieldsBefore before
  | colon before k outer => outer.tokens ++ .openObject :: (Around.fieldsBefore before ++ [.text k])
  | done v around => around.tokens ++ v.tokens

theorem itemTokens_concat (items : List Json) (v : Json) :
    Json.itemTokens (items ++ [v]) = (items.flatMap fun w => w.tokens ++ [.comma]) ++ v.tokens := by
  induction items with
  | nil => rfl
  | cons w items ih =>
    have hcons : Json.itemTokens (w :: (items ++ [v])) = w.tokens ++ .comma :: Json.itemTokens (items ++ [v]) := by
      cases items <;> rfl
    simp [hcons, ih]

theorem fieldTokens_concat (fields : List (Quoted × Json)) (k : Quoted) (v : Json) :
    Json.fieldTokens (fields ++ [(k, v)]) =
      (fields.flatMap fun f => .text f.1 :: .colon :: (f.2.tokens ++ [.comma])) ++ .text k :: .colon :: v.tokens := by
  induction fields with
  | nil => rfl
  | cons f fields ih =>
    have hcons : Json.fieldTokens (f :: (fields ++ [(k, v)])) =
        .text f.1 :: .colon :: (f.2.tokens ++ .comma :: Json.fieldTokens (fields ++ [(k, v)])) := by
      cases fields <;> rfl
    simp [hcons, ih]

theorem consumed_enter {around : Around} {t : Token} {s : Parse} (h : enter around t = some s) :
    s.consumed = around.tokens ++ [t] := by
  cases t <;> cases h <;> rfl

theorem consumed_step {s s' : Parse} {t : Token} (h : s.step t = some s') : s'.consumed = s.consumed ++ [t] := by
  rw [step.eq_def] at h
  split at h
  · exact consumed_enter h
  · cases h
    simp [consumed, Json.tokens, Json.itemTokens]
  · rw [consumed_enter h]
    rfl
  · cases h
    simp [consumed, Json.tokens, Json.fieldTokens]
  · cases h
    simp [consumed, Around.fieldsBefore]
  · cases h
  · cases h
    simp [consumed]
  · cases h
  · cases h
    simp [consumed, Around.tokens]
  · cases h
  · cases h
    simp [consumed, Around.tokens]
  · cases h
    simp [consumed, Around.tokens, Json.tokens, itemTokens_concat]
  · cases h
    simp [consumed, Around.tokens, Around.fieldsBefore]
  · cases h
    simp [consumed, Around.tokens, Around.fieldsBefore, Json.tokens, fieldTokens_concat]
  · cases h

theorem consumed_foldlM {ts : List Token} {s s' : Parse} (h : ts.foldlM step s = some s') :
    s'.consumed = s.consumed ++ ts := by
  induction ts generalizing s with
  | nil =>
    cases h
    rw [List.append_nil]
  | cons t ts ih =>
    obtain ⟨next, hnext, hrest⟩ := Option.bind_eq_some_iff.mp h
    rw [ih hrest, consumed_step hnext, List.append_assoc]
    rfl

end Parse

namespace Json

theorem ofTokens?_eq_some_iff {ts : List Token} {v : Json} : ofTokens? ts = some v ↔ ts = v.tokens := by
  refine ⟨fun h => ?_, fun h => h ▸ ofTokens?_tokens v⟩
  obtain ⟨s, hs, hresult⟩ := Option.bind_eq_some_iff.mp h
  have hconsumed := Parse.consumed_foldlM hs
  cases s with
  | done w around =>
    cases around with
    | top =>
      cases hresult
      exact hconsumed.symm
    | _ => cases hresult
  | _ => cases hresult

/-- A tree is read from the texts that spell its tokens and from no others. -/
theorem parse?_eq_some_iff {d : String} {v : Json} : parse? d = some v ↔ Spells v.tokens d.toList := by
  rw [parse?, Option.bind_eq_bind, Option.bind_eq_some_iff]
  simp only [scan_eq_some_iff, ofTokens?_eq_some_iff]
  exact ⟨fun ⟨ts, hts, h⟩ => h ▸ hts, fun h => ⟨_, h, rfl⟩⟩

/-- A tree is read back from its text without spaces. -/
theorem parse?_compactText {v : Json} (hv : v.WellFormed) : parse? v.compactText = some v := by
  have hspells := spells_compact v hv [] [] boundary_nil .nil
  rw [List.append_nil, List.append_nil] at hspells
  rwa [parse?_eq_some_iff, compactText, String.toList_ofList]

/-- A tree is read back from its text with one item or field on a line. -/
theorem parse?_prettyText {v : Json} (hv : v.WellFormed) : parse? v.prettyText = some v := by
  have hspells := spells_pretty 0 v hv [] [] boundary_nil .nil
  rw [List.append_nil, List.append_nil] at hspells
  rwa [parse?_eq_some_iff, prettyText, String.toList_ofList]

end Json

end FlowBasic
