import FlowBasic.Document.Project
import FlowBasic.Proofs.TreeText

namespace FlowBasic

theorem mapM_map_eq_some {α β γ : Type} {l : List α} {write : α → β} {read : β → Option γ} {result : α → γ}
    (h : ∀ a ∈ l, read (write a) = some (result a)) : (l.map write).mapM read = some (l.map result) := by
  induction l with
  | nil => rfl
  | cons a l ih =>
    have hrest := ih fun b hb => h b (List.mem_cons_of_mem _ hb)
    rw [List.map_cons, List.mapM_cons, h a List.mem_cons_self, hrest]
    rfl

theorem filter_name_of_nodup {α : Type} {fs : List (String × α)} (h : (fs.map Prod.fst).Nodup)
    {f : String × α} (hf : f ∈ fs) : fs.filter (·.1 = f.1) = [f] := by
  induction fs with
  | nil => cases hf
  | cons g fs ih =>
    obtain ⟨hnew, hnodup⟩ := List.nodup_cons.mp h
    obtain rfl | hf := List.mem_cons.mp hf
    · have hnone : fs.filter (·.1 = f.1) = [] := by
        rw [List.filter_eq_nil_iff]
        intro g hg heq
        exact hnew (List.mem_map.mpr ⟨g, hg, of_decide_eq_true heq⟩)
      rw [List.filter_cons_of_pos (by simp), hnone]
    · have hne : g.1 ≠ f.1 := fun heq => hnew (heq ▸ List.mem_map_of_mem hf)
      rw [List.filter_cons_of_neg (by simpa using hne), ih hnodup hf]

/-- Insertion that goes last as long as the entries are in order puts ordered entries one after the other. -/
theorem foldl_insert_eq_append {μ ε : Type} {entries : μ → List ε} {insert : μ → ε → μ}
    (Ordered : List ε → Prop)
    (hinsert : ∀ m e es, Ordered (entries m ++ e :: es) → entries (insert m e) = entries m ++ [e])
    (es : List ε) (m : μ) (h : Ordered (entries m ++ es)) :
    entries (es.foldl insert m) = entries m ++ es := by
  induction es generalizing m with
  | nil => exact (List.append_nil _).symm
  | cons e es ih =>
    have happend : entries (insert m e) ++ es = entries m ++ e :: es := by
      rw [hinsert m e es h, List.append_assoc]
      rfl
    rw [List.foldl_cons, ih _ (happend ▸ h), happend]

theorem Entries.put_of_notMem {α : Type} {k : String} {es : List (String × α)} (h : k ∉ es.map Prod.fst)
    (v : α) : put k v es = es ++ [(k, v)] := by
  induction es with
  | nil => rfl
  | cons e es ih =>
    simp only [List.map_cons, List.mem_cons, not_or] at h
    rw [put, if_neg (Ne.symm h.1), ih h.2]
    rfl

theorem Table.ofList_entries {α : Type} (t : Table α) : ofList t.entries = t := by
  refine Table.ext (foldl_insert_eq_append (fun es => (es.map Prod.fst).Nodup) (fun t e es h => ?_)
    t.entries empty t.nodup)
  have hnew : e.1 ∉ t.entries.map Prod.fst := by
    rw [List.map_append, List.map_cons, List.nodup_append] at h
    exact fun hmem => h.2.2 _ hmem _ List.mem_cons_self rfl
  exact Entries.put_of_notMem hnew e.2

namespace Json

@[simp]
theorem text?_ofString (s : String) : (ofString s).text? = some s := Quoted.text?_ofString s

theorem natural?_ofNat {n bound : Nat} (h : n < bound) : (ofNat n).natural? bound = some n := by
  simp [ofNat, natural?, Numeral.natural?_ofNat, h]

theorem named?_ofFields (fs : List (String × Json)) : (ofFields fs).named? = some fs := by
  have hnames : (fs.map fun f => (Quoted.ofString f.1, f.2)).mapM
      (fun f => do return (← f.1.text?, f.2) : _ → Option (String × Json)) = some (fs.map fun f => f) :=
    mapM_map_eq_some fun f _ => by rw [Quoted.text?_ofString]; rfl
  rwa [List.map_id'] at hnames

/-- The fields of a record are found by their names. -/
@[simp]
theorem fields?_ofFields {names : List String} {fs : List (String × Json)} (hnames : fs.map Prod.fst = names)
    (hnodup : names.Nodup) : (ofFields fs).fields? names = some (fs.map fun f => some f.2) := by
  subst hnames
  show ((ofFields fs).named? >>= fun fields => (fs.map Prod.fst).mapM (only? fields)) = _
  rw [named?_ofFields]
  refine mapM_map_eq_some fun f hf => ?_
  rw [only?, filter_name_of_nodup hnodup hf]

/-- A table is read back when each of its values is. -/
theorem table?_ofFields {α : Type} {read : Json → Option α} (write : α → Json) {t : Table α}
    (h : ∀ e ∈ t.entries, read (write e.2) = some e.2) :
    table? read (ofFields (t.entries.map fun e => (e.1, write e.2))) = some t := by
  have hentries : (t.entries.map fun e => (e.1, write e.2)).mapM
      (fun f => do return (f.1, ← read f.2) : _ → Option (String × α)) = some (t.entries.map fun e => e) :=
    mapM_map_eq_some fun e he => by rw [h e he]; rfl
  rw [List.map_id'] at hentries
  rw [table?, named?_ofFields]
  show ((t.entries.map fun e => (e.1, write e.2)).mapM _ >>= fun entries => some (Table.ofList entries)) = _
  rw [hentries]
  exact congrArg some t.ofList_entries

end Json

@[simp]
theorem bare_ofFields {α : Type} (a : α) (fs : List (String × Json)) : bare a (.ofFields fs) = some a := rfl

namespace Mode

@[simp]
theorem allows_held (v : Json) : held.allows v = true := by rw [allows]

def isTag (f : Quoted × Json) : Bool := f.1.text? = some "type"

theorem tagged?_object {m : Mode} (names : List String) {fields : List (Quoted × Json)} {k : Quoted} {v : Json}
    (hallows : m.allows (.object fields) = true) (htag : fields.filter isTag = [(k, v)]) :
    m.tagged? names (.object fields) =
      (m.tag? names v).map fun tag => (tag, .object (fields.filter (!isTag ·))) := by
  have hone : (fields.filter fun f => decide (f.1.text? = some "type")) = [(k, v)] := htag
  rw [tagged?.eq_def, hallows]
  simp only [hone]
  show (do return (← m.tag? names v, Json.object (fields.filter (!isTag ·)))) = _
  cases m.tag? names v <;> rfl

/-- The tag is found first, and the rest are the fields that belong to it. -/
@[simp]
theorem tagged?_ofFields {m : Mode} {names : List String} {tag : String} {rest : List (String × Json)}
    (hallows : m.allows (.ofFields (("type", .ofString tag) :: rest)) = true) (htag : tag ∈ names)
    (hrest : "type" ∉ rest.map Prod.fst) :
    m.tagged? names (.ofFields (("type", .ofString tag) :: rest)) = some (tag, .ofFields rest) := by
  have hfirst : isTag (.ofString "type", .ofString tag) = true :=
    decide_eq_true (Quoted.text?_ofString "type")
  have hothers : ∀ f ∈ rest.map (fun f => (Quoted.ofString f.1, f.2)), isTag f = false := by
    intro f hf
    obtain ⟨g, hg, rfl⟩ := List.mem_map.mp hf
    refine decide_eq_false ?_
    rw [Quoted.text?_ofString]
    intro heq
    exact hrest (Option.some.inj heq ▸ List.mem_map_of_mem hg)
  have htag? : m.tag? names (.ofString tag) = some tag := by
    simp [tag?, Json.ofString, Quoted.text?_ofString, htag]
  rw [Json.ofFields, List.map_cons] at hallows ⊢
  rw [tagged?_object names hallows, htag?, List.filter_cons_of_neg (by simp [hfirst]), List.filter_eq_self.mpr]
  · rfl
  · intro f hf
    rw [hothers f hf]
    rfl
  · rw [List.filter_cons_of_pos hfirst, List.filter_eq_nil_iff.mpr]
    intro f hf
    rw [hothers f hf]
    decide

/-- A name that tells one thing from all others is read as that thing. -/
theorem oneOf?_ofString {α : Type} (m : Mode) {all : List α} {name : α → String} {a : α}
    (h : all.find? (fun b => name b = name a) = some a) :
    m.oneOf? all name (.ofString (name a)) = some a := by
  show (m.name? (.text (.ofString (name a))) >>= fun n => all.find? fun b => name b = n) = _
  rw [name?, Quoted.text?_ofString]
  exact h

end Mode

@[simp]
theorem required_some {α : Type} (read : Json → Option α) (v : Json) : required read (some v) = read v := rfl

@[simp]
theorem optional_some {α : Type} (default : α) (read : Json → Option α) (v : Json) :
    optional default read (some v) = read v := rfl

namespace Json

/-- A tree of texts, numbers of 64 bits and records that opens at most `room` brackets within each other. -/
inductive Plain : Nat → Json → Prop
  | null {room : Nat} : Plain room .null
  | bool {room : Nat} (b : Bool) : Plain room (.bool b)
  | text {room : Nat} (s : String) : Plain room (ofString s)
  | number {room n : Nat} (h : n < UInt64.size) : Plain room (ofNat n)
  | fields {room : Nat} {fs : List (String × Json)} (h : ∀ f ∈ fs, Plain room f.2) :
      Plain (room + 1) (ofFields fs)

theorem wellFormed_ofString (s : String) : (ofString s).WellFormed := .text (Quoted.wellFormed_ofString s)

theorem wellFormed_ofNat (n : Nat) : (ofNat n).WellFormed := .number (Numeral.wellFormed_ofNat n)

theorem wellFormed_ofFields {fs : List (String × Json)} (h : ∀ f ∈ fs, f.2.WellFormed) :
    (ofFields fs).WellFormed := by
  refine .object (fun f hf => ?_) (fun f hf => ?_) <;> obtain ⟨g, hg, rfl⟩ := List.mem_map.mp hf
  · exact Quoted.wellFormed_ofString g.1
  · exact h g hg

theorem Plain.wellFormed {room : Nat} {v : Json} (h : Plain room v) : v.WellFormed := by
  induction h with
  | null => exact .null
  | bool b => exact .bool b
  | text s => exact wellFormed_ofString s
  | number => exact wellFormed_ofNat _
  | fields _ ih => exact wellFormed_ofFields ih

theorem isSome_chars?_ofString (s : String) : (Quoted.ofString s).chars?.isSome = true := by
  have htext := congrArg Option.isSome (Quoted.text?_ofString s)
  rwa [Quoted.text?, Option.isSome_map] at htext

theorem readableFields_ofFields {room : Nat} {fs : List (String × Json)}
    (h : ∀ f ∈ fs, f.2.readable room = true) :
    readableFields room (fs.map fun f => (Quoted.ofString f.1, f.2)) = true := by
  induction fs with
  | nil => rfl
  | cons f fs ih =>
    have hrest := ih fun g hg => h g (List.mem_cons_of_mem _ hg)
    rw [List.map_cons, readableFields, isSome_chars?_ofString, h f List.mem_cons_self, hrest]
    rfl

/-- A plain tree can be held back. -/
theorem Plain.readable {room : Nat} {v : Json} (h : Plain room v) : v.readable room = true := by
  induction h with
  | null => simp [Json.readable]
  | bool b => simp [Json.readable]
  | text s => simp [Json.readable, ofString, isSome_chars?_ofString]
  | number h => simp [Json.readable, ofNat, Numeral.isSome_double?_ofNat h]
  | fields _ ih =>
    rw [ofFields, Json.readable]
    exact readableFields_ofFields ih

end Json

@[simp]
theorem ValueType.ofJson?_toJson (m : Mode) (t : ValueType) : ofJson? m t.toJson = some t :=
  m.oneOf?_ofString (by cases t <;> decide)

namespace Slot

@[simp]
theorem number?_numberToJson (n : UInt64) : number? (numberToJson n) = some n := by
  rw [number?, numberToJson, Json.natural?_ofNat n.toNat_lt]
  simp

/-- A slot is read back when its content is never written as null. -/
theorem ofJson?_toJson {α : Type} {read : Json → Option α} {write : α → Json}
    (h : ∀ a, read (write a) = some a) (hnull : ∀ a, write a ≠ .null) (c : Option α) :
    Slot.ofJson? read (Slot.toJson write c) = some c := by
  cases c with
  | none => rfl
  | some a =>
    show Slot.ofJson? read (write a) = _
    rw [Slot.ofJson?]
    · rw [h a]; rfl
    · exact hnull a

end Slot

theorem Literal.ofJson?_toJson (l : Literal) : ofJson? l.toJson = some l := by
  cases l with
  | number n =>
    show ((Json.ofNat n.toNat).natural? UInt64.size).map _ = _
    rw [Json.natural?_ofNat n.toNat_lt]
    simp
  | text s =>
    show (Quoted.ofString s).text?.map _ = _
    rw [Quoted.text?_ofString]
    rfl

namespace Slot

@[simp]
theorem ofJson?_number (c : Option UInt64) : ofJson? number? (toJson numberToJson c) = some c :=
  ofJson?_toJson number?_numberToJson (by simp [numberToJson, Json.ofNat]) c

@[simp]
theorem ofJson?_text (c : Option String) : ofJson? Json.text? (toJson Json.ofString c) = some c :=
  ofJson?_toJson Json.text?_ofString (by simp [Json.ofString]) c

@[simp]
theorem ofJson?_literal (c : Option Literal) : ofJson? Literal.ofJson? (toJson Literal.toJson c) = some c := by
  refine ofJson?_toJson Literal.ofJson?_toJson (fun l => ?_) c
  cases l <;> simp [Literal.toJson, Json.ofNat, Json.ofString]

end Slot

theorem TypedSlot.ofJson?_toJson {m : Mode} {s : TypedSlot} (h : m.allows s.toJson = true) :
    ofJson? m s.toJson = some s := by
  cases s <;> simp only [toJson, type, ValueType.name] at h ⊢ <;> simp [ofJson?, h]

theorem Operands.ofJson?_toJson {α : Type} {read : Json → Option α} {write : α → Json}
    (h : ∀ c, Slot.ofJson? read (Slot.toJson write c) = some c) (ops : Operands α) :
    ofJson? read (ops.toJson write) = some ops := by
  simp [ofJson?, toJson, h]

theorem Operation.ofJson?_toJson (o : Operation) : ofJson? .held o.toJson = some o := by
  cases o with
  | uint64 op ops =>
    have hop : Mode.held.oneOf? Arithmetic.all Arithmetic.symbol (.ofString op.symbol) = some op :=
      Mode.held.oneOf?_ofString (by cases op <;> decide)
    simp [ofJson?, toJson, operatorJson, ValueType.name, hop,
      Operands.ofJson?_toJson Slot.ofJson?_number]
  | string op ops =>
    have hop : Mode.held.oneOf? Concatenation.all Concatenation.symbol (.ofString op.symbol) = some op :=
      Mode.held.oneOf?_ofString (by cases op; decide)
    simp [ofJson?, toJson, operatorJson, ValueType.name, hop,
      Operands.ofJson?_toJson Slot.ofJson?_text]

theorem Condition.ofJson?_toJson (c : Condition) : ofJson? .held c.toJson = some c := by
  cases c with
  | uint64 op ops =>
    have hop : Mode.held.oneOf? NumberComparison.all NumberComparison.symbol (.ofString op.symbol) = some op :=
      Mode.held.oneOf?_ofString (by cases op <;> decide)
    simp [ofJson?, toJson, operatorJson, ValueType.name, hop,
      Operands.ofJson?_toJson Slot.ofJson?_number]
  | string op ops =>
    have hop : Mode.held.oneOf? TextComparison.all TextComparison.symbol (.ofString op.symbol) = some op :=
      Mode.held.oneOf?_ofString (by cases op <;> decide)
    simp [ofJson?, toJson, operatorJson, ValueType.name, hop,
      Operands.ofJson?_toJson Slot.ofJson?_text]

theorem Connector.ofJson?_toJson {m : Mode} {c : Connector} (h : m.allows c.toJson = true) :
    ofJson? m c.toJson = some c := by
  cases c <;> rw [toJson] at h ⊢ <;> simp [ofJson?, h]

@[simp]
theorem word?_wordJson (n : UInt32) : word? (wordJson n) = some n := by
  rw [word?, wordJson, Json.natural?_ofNat n.toNat_lt]
  simp

theorem Endpoint.ofJson?_toJson {portName : String} (h : portName ≠ "id") (e : Endpoint) :
    ofJson? portName (e.toJson portName) = some e := by
  simp [ofJson?, toJson, Ne.symm h]

theorem Link.ofJson?_toJson {m : Mode} {l : Link} (h : m.inner.allows l.connector.toJson = true) :
    ofJson? m l.toJson = some l := by
  simp [ofJson?, toJson, Endpoint.ofJson?_toJson, Connector.ofJson?_toJson h]

theorem Call.ofJson?_toJson (c : Call) : ofJson? .held c.toJson = some c := by
  have hname : Mode.held.oneOf? Builtin.all Builtin.name (.ofString c.builtin.name) = some c.builtin :=
    Mode.held.oneOf?_ofString (by cases c.builtin <;> decide)
  have hargs : Json.table? (TypedSlot.ofJson? .held)
      (.ofFields (c.args.entries.map fun a => (a.1, a.2.toJson))) = some c.args :=
    Json.table?_ofFields TypedSlot.toJson fun a _ => TypedSlot.ofJson?_toJson rfl
  simp [ofJson?, toJson, Mode.inner, hname, hargs, Json.bool?]

theorem Ending.ofJson?_toJson (e : Ending) : ofJson? .held e.toJson = some e := by
  cases e <;> simp [ofJson?, toJson]

theorem Branch.ofJson?_toJson (b : Branch) : ofJson? .held b.toJson = some b := by
  cases b <;> simp [ofJson?, toJson]

@[simp]
theorem nameRecord?_nameRecord (name : String) : nameRecord? (nameRecord name) = some name := by
  simp [nameRecord?, nameRecord]

namespace Payload

theorem single?_ofFields (field : String) (read : Json → Option Payload) (v : Json) :
    single? field read (.ofFields [(field, v)]) = read v := by
  simp [single?]

theorem assignment?_ofFields (name : String) (v : TypedSlot) :
    assignment? (.ofFields [("name", .ofString name), ("in", v.toJson)]) = some (assign name v) := by
  simp [assignment?, TypedSlot.ofJson?_toJson]

theorem kind_mem_tags (p : Payload) : p.kind ∈ tags := by
  cases p <;> simp [kind, tags]

theorem ofJson?_toJson {m : Mode} {p : Payload} (h : m.allows p.toJson = true) :
    ofJson? m p.toJson = some p := by
  have htag := p.kind_mem_tags
  cases p <;> rw [toJson] at h ⊢ <;>
    rw [ofJson?, Mode.tagged?_ofFields h htag (by simp), Option.bind_eq_bind, Option.bind_some] <;>
    simp [kind, single?_ofFields, assignment?_ofFields, Call.ofJson?_toJson, Operation.ofJson?_toJson,
      Condition.ofJson?_toJson, Ending.ofJson?_toJson, Branch.ofJson?_toJson]

end Payload

/-- A double that has a numeral, from whose text it is read back. -/
def Recovered (x : Float) : Prop :=
  Binary.isFinite x = true ∧ (Numeral.ofChars? (Numeral.ofDouble x).chars).bind Numeral.double? = some x

theorem Recovered.double?_ofDouble {x : Float} (h : Recovered x) : (Json.ofDouble x).double? = some x := by
  obtain ⟨hfinite, hread⟩ := h
  rw [Numeral.ofChars?_chars (Numeral.wellFormed_ofDouble x)] at hread
  rw [Json.ofDouble, if_pos hfinite]
  exact hread

theorem Position.ofJson?_toJson {p : Position} (hx : Recovered p.x) (hy : Recovered p.y) :
    ofJson? p.toJson = some p := by
  simp [ofJson?, toJson, hx.double?_ofDouble, hy.double?_ofDouble]

theorem Node.ofJson?_toJson {m : Mode} {n : Node} (hx : Recovered n.position.x) (hy : Recovered n.position.y)
    (h : m.inner.allows n.payload.toJson = true) : ofJson? m n.toJson = some n := by
  simp [ofJson?, toJson, Json.bool?, Position.ofJson?_toJson hx hy, Payload.ofJson?_toJson h]

namespace NodeMap

theorem plain?_text (n : Nat) :
    Quoted.plain? (.ofString (Decimal.text n)) = some ((Decimal.digits n).map Digit.char) := by
  have hdigit : ∀ d : Digit, Quoted.pieceOf d.char = .plain d.char := by decide
  have hdigits : ∀ ds : List Digit, Quoted.plain? ((ds.map Digit.char).map Quoted.pieceOf) =
      some (ds.map Digit.char) := by
    intro ds
    induction ds with
    | nil => rfl
    | cons d ds ih =>
      rw [List.map_cons, List.map_cons, hdigit, Quoted.plain?, ih]
      rfl
  rw [Quoted.ofString, Decimal.text, String.toList_ofList]
  exact hdigits _

theorem idOfKey?_text (id : NodeId) : idOfKey? (.ofString (Decimal.text id.toNat)) = some id := by
  have hlt : id.toNat < UInt32.size := id.toNat_lt
  rw [idOfKey?, plain?_text]
  simp [Numeral.takeDigits_map_char, Numeral.isWhole_digits, Decimal.value_digits, hlt, guard]

theorem ofList_entries (m : NodeMap) : ofList m.entries = m := by
  apply NodeMap.ext
  refine foldl_insert_eq_append (fun es => es.Pairwise fun a b => a.1 < b.1) (fun m e es h => ?_)
    m.entries empty m.sorted
  have hlast : ∀ a ∈ m.entries, a.1 < e.1 := fun a ha =>
    (List.pairwise_append.mp h).2.2 a ha e List.mem_cons_self
  exact put_of_forall_lt hlast e.2

theorem ofJson?_toJson {mode : Mode} {m : NodeMap}
    (h : ∀ e ∈ m.entries, Node.ofJson? mode.inner e.2.toJson = some e.2) :
    ofJson? mode m.toJson = some m := by
  have hentries : (m.entries.map fun e => (Quoted.ofString (Decimal.text e.1.toNat), e.2.toJson)).mapM
      (fun f => do return (← idOfKey? f.1, ← Node.ofJson? mode.inner f.2) : _ → Option (NodeId × Node)) =
        some (m.entries.map fun e => e) :=
    mapM_map_eq_some fun e he => by rw [idOfKey?_text, h e he]; rfl
  rw [List.map_id'] at hentries
  rw [toJson, Json.ofFields, List.map_map, ofJson?]
  show (List.mapM _ (m.entries.map fun e => (Quoted.ofString (Decimal.text e.1.toNat), e.2.toJson)) >>=
    fun entries => some (ofList entries)) = _
  rw [hentries]
  exact congrArg some m.ofList_entries

end NodeMap

namespace Json

@[simp]
theorem plain_null (room : Nat) : Plain room .null := .null

@[simp]
theorem plain_bool (room : Nat) (b : Bool) : Plain room (.bool b) := .bool b

@[simp]
theorem plain_ofString (room : Nat) (s : String) : Plain room (ofString s) := .text s

@[simp]
theorem plain_valueType (room : Nat) (t : ValueType) : Plain room t.toJson := .text t.name

@[simp]
theorem plain_slot {α : Type} {write : α → Json} {room : Nat} (h : ∀ a, Plain room (write a)) (c : Option α) :
    Plain room (Slot.toJson write c) := by
  cases c with
  | none => exact .null
  | some a => exact h a

@[simp]
theorem plain_number (room : Nat) (n : UInt64) : Plain room (Slot.numberToJson n) := .number n.toNat_lt

@[simp]
theorem plain_literal (room : Nat) (l : Literal) : Plain room l.toJson := by
  cases l with
  | number n => exact .number n.toNat_lt
  | text s => exact .text s

@[simp]
theorem plain_typedSlot (room : Nat) (s : TypedSlot) : Plain (room + 1) s.toJson := by
  cases s <;> exact .fields (by simp)

@[simp]
theorem plain_operands {α : Type} {write : α → Json} {room : Nat} (h : ∀ a, Plain room (write a))
    (ops : Operands α) : Plain (room + 1) (ops.toJson write) := .fields (by simp [h])

@[simp]
theorem plain_operation (room : Nat) (o : Operation) : Plain (room + 2) o.toJson := by
  cases o <;> exact .fields (by simp)

@[simp]
theorem plain_condition (room : Nat) (c : Condition) : Plain (room + 2) c.toJson := by
  cases c <;> exact .fields (by simp)

@[simp]
theorem plain_call (room : Nat) (c : Call) : Plain (room + 3) c.toJson := by
  have hargs : Plain (room + 2) (ofFields (c.args.entries.map fun a => (a.1, a.2.toJson))) := by
    refine .fields fun f hf => ?_
    obtain ⟨a, -, rfl⟩ := List.mem_map.mp hf
    exact plain_typedSlot room a.2
  exact .fields (by simp [hargs])

@[simp]
theorem plain_ending (room : Nat) (e : Ending) : Plain (room + 1) e.toJson := by
  cases e <;> exact .fields (by simp)

@[simp]
theorem plain_branch (room : Nat) (b : Branch) : Plain (room + 1) b.toJson := by
  cases b <;> exact .fields (by simp)

@[simp]
theorem plain_nameRecord (room : Nat) (name : String) : Plain (room + 1) (nameRecord name) := .fields (by simp)

/-- A payload opens at most four brackets within each other. -/
theorem plain_payload (room : Nat) (p : Payload) : Plain (room + 4) p.toJson := by
  cases p with
  | assign name v =>
    have hrecord : Plain (room + 3) (ofFields [("name", .ofString name), ("in", v.toJson)]) :=
      .fields (by simp)
    exact .fields (by simp [hrecord])
  | _ => exact .fields (by simp)

theorem plain_connector (room : Nat) (c : Connector) : Plain (room + 1) c.toJson := by
  cases c <;> exact .fields (by simp)

end Json

/-- The coordinates of the nodes of a routine. -/
def Routine.coordinates (r : Routine) : List Float :=
  r.nodes.entries.flatMap fun e => [e.2.position.x, e.2.position.y]

theorem Routine.declaration?_toJson (m : Mode) (t : ValueType) :
    declaration? m (.ofFields [("type", t.toJson)]) = some t := by
  simp [declaration?]

theorem Routine.ofJson?_toJson (room : Nat) {r : Routine} (h : ∀ x ∈ r.coordinates, Recovered x) :
    ofJson? (.direct (room + 7)) r.toJson = some r := by
  have hdeclarations : ∀ t : Table ValueType,
      Json.table? (declaration? (.direct (room + 5))) (declarationsJson t) = some t :=
    fun t => Json.table?_ofFields (fun t => .ofFields [("type", t.toJson)]) fun e _ =>
      declaration?_toJson _ e.2
  have hnodes : NodeMap.ofJson? (.direct (room + 6)) r.nodes.toJson = some r.nodes := by
    refine NodeMap.ofJson?_toJson fun e he => Node.ofJson?_toJson ?_ ?_ (Json.plain_payload room _).readable
    · exact h _ (List.mem_flatMap.mpr ⟨e, he, by simp⟩)
    · exact h _ (List.mem_flatMap.mpr ⟨e, he, by simp⟩)
  have hlinks : Link.listOfJson? (.direct (room + 6)) (.array (r.links.map Link.toJson)) = some r.links := by
    have hitems : (r.links.map Link.toJson).mapM (Link.ofJson? (.direct (room + 5))) =
        some (r.links.map fun l => l) :=
      mapM_map_eq_some fun l _ => Link.ofJson?_toJson (Json.plain_connector (room + 3) _).readable
    rwa [List.map_id'] at hitems
  simp [ofJson?, toJson, Json.bool?, Mode.inner, hdeclarations, hnodes, hlinks]

theorem Node.wellFormed_toJson (n : Node) : n.toJson.WellFormed := by
  have hcoordinate : ∀ x : Float, (Json.ofDouble x).WellFormed := by
    intro x
    rw [Json.ofDouble]
    split
    · exact .number (Numeral.wellFormed_ofDouble x)
    · exact .null
  have hposition : n.position.toJson.WellFormed := Json.wellFormed_ofFields (by simp [hcoordinate])
  have hpayload := (Json.plain_payload 0 n.payload).wellFormed
  refine Json.wellFormed_ofFields ?_
  simp [Json.wellFormed_ofString, Json.WellFormed.bool, hposition, hpayload]

theorem Link.wellFormed_toJson (l : Link) : l.toJson.WellFormed := by
  have hendpoint : ∀ (e : Endpoint) (portName : String), (e.toJson portName).WellFormed := fun e portName =>
    Json.wellFormed_ofFields (by simp [wordJson, Json.wellFormed_ofNat])
  have hconnector := (Json.plain_connector 0 l.connector).wellFormed
  exact Json.wellFormed_ofFields (by simp [hendpoint, hconnector])

theorem Routine.wellFormed_toJson (r : Routine) : r.toJson.WellFormed := by
  have hdeclarations : ∀ t : Table ValueType, (declarationsJson t).WellFormed := by
    intro t
    refine Json.wellFormed_ofFields fun f hf => ?_
    obtain ⟨e, -, rfl⟩ := List.mem_map.mp hf
    exact Json.wellFormed_ofFields (by simp [(Json.plain_valueType 0 e.2).wellFormed])
  have hnodes : r.nodes.toJson.WellFormed := by
    refine Json.wellFormed_ofFields fun f hf => ?_
    obtain ⟨e, -, rfl⟩ := List.mem_map.mp hf
    exact e.2.wellFormed_toJson
  have hlinks : (Json.array (r.links.map Link.toJson)).WellFormed := by
    refine .array fun v hv => ?_
    obtain ⟨l, -, rfl⟩ := List.mem_map.mp hv
    exact l.wellFormed_toJson
  have hreturns := (Json.plain_valueType 0 r.returns).wellFormed
  refine Json.wellFormed_ofFields ?_
  simp [Json.WellFormed.bool, hdeclarations, hnodes, hlinks, hreturns]

namespace Project

theorem wellFormed_toJson (p : Project) : p.toJson.WellFormed := by
  have hroutines : (Json.ofFields (p.routines.entries.map fun e => (e.1, e.2.toJson))).WellFormed := by
    refine Json.wellFormed_ofFields fun f hf => ?_
    obtain ⟨e, -, rfl⟩ := List.mem_map.mp hf
    exact e.2.wellFormed_toJson
  exact Json.wellFormed_ofFields (by simp [Json.wellFormed_ofString, hroutines])

/-- The coordinates of the nodes of a project. -/
def coordinates (p : Project) : List Float := p.routines.values.flatMap Routine.coordinates

theorem ofJson?_toJson {p : Project} (h : ∀ x ∈ p.coordinates, Recovered x) :
    ofJson? .document p.toJson = some p := by
  have hroutines : Json.table? (Routine.ofJson? (.direct 125))
      (.ofFields (p.routines.entries.map fun e => (e.1, e.2.toJson))) = some p.routines := by
    refine Json.table?_ofFields Routine.toJson fun e he => Routine.ofJson?_toJson 118 fun x hx => ?_
    exact h x (List.mem_flatMap.mpr ⟨e.2, List.mem_map_of_mem he, hx⟩)
  simp [ofJson?, toJson, Mode.document, Mode.inner, hroutines]

/-- A project is read back from its document, and from the same document without spaces, when its
coordinates are finite and each is read back from its own text. -/
theorem recovered_from_document {p : Project} (hfinite : ∀ x ∈ p.coordinates, Binary.isFinite x = true)
    (hread : ∀ x ∈ p.coordinates,
      (Numeral.ofChars? (Numeral.ofDouble x).chars).bind Numeral.double? = some x) :
    parse? p.render = some p ∧ parse? p.toJson.compactText = some p := by
  have hdocument : ofJson? .document p.toJson = some p :=
    ofJson?_toJson fun x hx => ⟨hfinite x hx, hread x hx⟩
  constructor
  · rw [parse?, render, Json.parse?_prettyText p.wellFormed_toJson]
    exact hdocument
  · rw [parse?, Json.parse?_compactText p.wellFormed_toJson]
    exact hdocument

/-- A project with texts that need escapes, empty and filled slots of each type, ids that are not
consecutive, and coordinates with and without an exponent. -/
def keptRecords : Project :=
  { name := "Tab\there \"α\" \\ \u0001"
    routines := .ofList
      [("Store", { Routine.fresh false with
          args := .ofList [("value", .any), ("key", .string)]
          nodes := .ofList
            [(4294967295, (Node.ofPayload "Store" (.call
                { Call.ofBuiltin .store with
                  args := .ofList [("k", .any (some (.text "line\nbreak"))), ("v", .any none)] })).placed
                (-2.5) 0.1),
             (7, (Node.ofPayload "Sum" (.operation
                (.uint64 .add ⟨some 18446744073709551615, none⟩))).placed 1e21 (-0.0))]
          links := [⟨⟨7, 1⟩, ⟨4294967295, 2⟩, .value .uint64⟩] }),
       ("Initialize", Routine.fresh false)] }

theorem recovered_from_document_keptRecords :
    (∀ x ∈ keptRecords.coordinates, Binary.isFinite x = true ∧
      (Numeral.ofChars? (Numeral.ofDouble x).chars).bind Numeral.double? = some x) ∧
    parse? keptRecords.render = some keptRecords ∧
    parse? keptRecords.toJson.compactText = some keptRecords := by
  have hcoordinates : ∀ x ∈ keptRecords.coordinates, Binary.isFinite x = true ∧
      (Numeral.ofChars? (Numeral.ofDouble x).chars).bind Numeral.double? = some x := by decide +kernel
  exact ⟨hcoordinates, recovered_from_document (fun x hx => (hcoordinates x hx).1)
    fun x hx => (hcoordinates x hx).2⟩

end Project

end FlowBasic
