import FlowBasic.Proofs.Presentation
import FlowBasic.Proofs.Respacing
import Mathlib.Logic.Relation

namespace FlowBasic

theorem FieldChange.follows_value {α : Type} {p : Place} {name : String} {kept : Bool} {x y : Option Json}
    (h : FieldChange p (.needed name .value) kept x y) (read : Json → Option α) :
    Follows kept (required read x) (required read y) :=
  h.follows_required fun _ _ _ hchange => absurd hchange Change.not_value

theorem FieldChange.follows_spare {α : Type} {p : Place} {name : String} {shape : Shape} {w : Json} {kept : Bool}
    {x y : Option Json} (h : FieldChange p (.spare name shape w) kept x y) {default : α} {read : Json → Option α}
    (hdefault : read w = some default)
    (hread : ∀ ok v v', Change shape p ok v v' → Follows (p.held || ok) (read v) (read v')) :
    Follows kept (optional default read x) (optional default read y) :=
  h.follows_optional (fun _ hv => hv ▸ hdefault) hread

/-- A slot is left out when it is empty. -/
theorem FieldChange.follows_slot {α : Type} {p : Place} {name : String} {kept : Bool} {x y : Option Json}
    (h : FieldChange p (.spare name .value .null) kept x y) (read : Json → Option α) :
    Follows kept (optional none (Slot.ofJson? read) x) (optional none (Slot.ofJson? read) y) :=
  h.follows_spare rfl fun _ _ _ hchange => absurd hchange Change.not_value

/-- A flag is left out when it is not set. -/
theorem FieldChange.follows_flag {p : Place} {name : String} {kept : Bool} {x y : Option Json}
    (h : FieldChange p (.spare name .value (.bool false)) kept x y) :
    Follows kept (optional false Json.bool? x) (optional false Json.bool? y) :=
  h.follows_spare rfl fun _ _ _ hchange => absurd hchange Change.not_value

def TypedSlot.shape : Shape :=
  .tagged
    [("Uint64", [.spare "valueSet" .value .null]), ("String", [.spare "valueSet" .value .null]),
     ("Variable", [.spare "valueSet" .value .null])]

theorem TypedSlot.follows {p : Place} {ok : Bool} {v v' : Json} (h : Change shape p ok v v') :
    Follows (p.held || ok) (ofJson? p.mode v) (ofJson? p.mode v') := by
  refine h.follows_tagged (by simp [Declared.names, Declared.spare]) fun tag fields hvariant _ _ _ hrest => ?_
  simp only [List.mem_cons, Prod.mk.injEq, List.not_mem_nil, or_false] at hvariant
  obtain ⟨rfl, rfl⟩ | ⟨rfl, rfl⟩ | ⟨rfl, rfl⟩ := hvariant
  · exact hrest.follows_single fun _ _ _ hcontent => (hcontent.follows_slot Slot.number?).map uint64
  · exact hrest.follows_single fun _ _ _ hcontent => (hcontent.follows_slot Json.text?).map string
  · exact hrest.follows_single fun _ _ _ hcontent => (hcontent.follows_slot Literal.ofJson?).map any

def Operands.shape : Shape := .record [.spare "left" .value .null, .spare "right" .value .null]

theorem Operands.follows {α : Type} (read : Json → Option α) {p : Place} {ok : Bool} {v v' : Json}
    (h : Change shape p ok v v') : Follows (p.held || ok) (ofJson? read v) (ofJson? read v') := by
  refine h.follows_record (by simp [Declared.names, Declared.spare]) ?_
  rintro _ _ _ (_ | ⟨hleft, _ | ⟨hright, _ | _⟩⟩)
  exact (hleft.follows_slot read).bind fun _ => (hright.follows_slot read).bind fun _ => .refl _

/-- An operator, and operands that are left out when none is set. -/
def operatorFields {α : Type} (read : Json → Option α) : List (Declared Shape) :=
  [.needed "operator" .value, ⟨"valueSet", Operands.shape, fun v => Operands.ofJson? read v = some .unset⟩]

/-- Operations and conditions have the same fields. -/
def operatorShape : Shape :=
  .tagged [("Uint64", operatorFields Slot.number?), ("String", operatorFields Json.text?)]

theorem type_notMem_operatorFields {α : Type} (read : Json → Option α) :
    "type" ∉ Declared.names (operatorFields read) := by
  simp [Declared.names, operatorFields, Declared.needed]

theorem follows_operator {α β γ : Type} {readOperator : Json → Option α} {read : Json → Option β}
    {make : α → Operands β → γ} {p : Place} {ok : Bool} {v v' : Json}
    (h : Change (.record (operatorFields read)) p ok v v') {body : List (Option Json) → Option γ}
    (hbody : ∀ x y, body [x, y] = do
      return make (← required readOperator x) (← optional .unset (Operands.ofJson? read) y)) :
    Follows (p.held || ok) (v.fields? ["operator", "valueSet"] >>= body)
      (v'.fields? ["operator", "valueSet"] >>= body) := by
  refine h.follows_record (by simp [Declared.names, operatorFields, Declared.needed]) ?_
  rintro _ _ _ (_ | ⟨hoperator, _ | ⟨hoperands, _ | _⟩⟩)
  rw [hbody, hbody]
  exact (hoperator.follows_value readOperator).bind fun _ =>
    (hoperands.follows_optional (fun _ hv => hv) fun _ _ _ => Operands.follows read).bind fun _ => .refl _

theorem Operation.follows {p : Place} {ok : Bool} {v v' : Json} (h : Change operatorShape p ok v v') :
    Follows (p.held || ok) (ofJson? p.mode v) (ofJson? p.mode v') := by
  refine h.follows_tagged (by simp [type_notMem_operatorFields]) fun tag fields hvariant _ _ _ hrest => ?_
  simp only [List.mem_cons, Prod.mk.injEq, List.not_mem_nil, or_false] at hvariant
  obtain ⟨rfl, rfl⟩ | ⟨rfl, rfl⟩ := hvariant
  · exact follows_operator hrest fun _ _ => rfl
  · exact follows_operator hrest fun _ _ => rfl

theorem Condition.follows {p : Place} {ok : Bool} {v v' : Json} (h : Change operatorShape p ok v v') :
    Follows (p.held || ok) (ofJson? p.mode v) (ofJson? p.mode v') := by
  refine h.follows_tagged (by simp [type_notMem_operatorFields]) fun tag fields hvariant _ _ _ hrest => ?_
  simp only [List.mem_cons, Prod.mk.injEq, List.not_mem_nil, or_false] at hvariant
  obtain ⟨rfl, rfl⟩ | ⟨rfl, rfl⟩ := hvariant
  · exact follows_operator hrest fun _ _ => rfl
  · exact follows_operator hrest fun _ _ => rfl

def Connector.shape : Shape := .tagged [("flow", []), ("value", [.needed "valueType" .value])]

theorem Connector.follows {p : Place} {ok : Bool} {v v' : Json} (h : Change shape p ok v v') :
    Follows (p.held || ok) (ofJson? p.mode v) (ofJson? p.mode v') := by
  refine h.follows_tagged (by simp [Declared.names, Declared.needed]) fun tag fields hvariant _ _ _ hrest => ?_
  simp only [List.mem_cons, Prod.mk.injEq, List.not_mem_nil, or_false] at hvariant
  obtain ⟨rfl, rfl⟩ | ⟨rfl, rfl⟩ := hvariant
  · exact hrest.follows_bare flow
  · refine hrest.follows_record (by simp [Declared.names]) ?_
    rintro _ _ _ (_ | ⟨htype, _ | _⟩)
    exact (htype.follows_value _).bind fun _ => .refl _

def Endpoint.shape (portName : String) : Shape := .record [.needed "id" .value, .needed portName .value]

theorem Endpoint.follows {portName : String} (hname : "id" ≠ portName) {p : Place} {ok : Bool} {v v' : Json}
    (h : Change (shape portName) p ok v v') :
    Follows (p.held || ok) (ofJson? portName v) (ofJson? portName v') := by
  refine h.follows_record (by simpa [Declared.names, Declared.needed] using hname) ?_
  rintro _ _ _ (_ | ⟨hid, _ | ⟨hport, _ | _⟩⟩)
  exact (hid.follows_value word?).bind fun _ => (hport.follows_value word?).bind fun _ => .refl _

def Link.shape : Shape :=
  .record
    [.needed "from" (Endpoint.shape "output"), .needed "to" (Endpoint.shape "input"),
     .needed "type" Connector.shape]

theorem Link.follows {p : Place} {ok : Bool} {v v' : Json} (h : Change shape p ok v v') :
    Follows (p.held || ok) (ofJson? p.mode v) (ofJson? p.mode v') := by
  refine h.follows_record (by simp [Declared.names, Declared.needed]) ?_
  rintro _ _ _ (_ | ⟨hsource, _ | ⟨hsink, _ | ⟨hconnector, _ | _⟩⟩⟩)
  refine (hsource.follows_required fun _ _ _ => Endpoint.follows (by decide)).bind fun _ =>
    (hsink.follows_required fun _ _ _ => Endpoint.follows (by decide)).bind fun _ =>
      (hconnector.follows_required fun _ _ _ hchange => ?_).bind fun _ => .refl _
  rw [← p.mode_inner]
  exact Connector.follows hchange

theorem Link.follows_list {p : Place} {ok : Bool} {v v' : Json} (h : Change (.list shape) p ok v v') :
    Follows (p.held || ok) (listOfJson? p.mode v) (listOfJson? p.mode v') := by
  refine h.follows_list fun _ _ _ hchange => ?_
  rw [← p.mode_inner]
  exact Link.follows hchange

def Call.shape : Shape :=
  .record
    [.needed "name" .value, .needed "args" (.table TypedSlot.shape), .needed "return" .value,
     .spare "asProcess" .value (.bool false)]

theorem Call.follows {p : Place} {ok : Bool} {v v' : Json} (h : Change shape p ok v v') :
    Follows (p.held || ok) (ofJson? p.mode v) (ofJson? p.mode v') := by
  refine h.follows_record (by simp [Declared.names, Declared.needed, Declared.spare]) ?_
  rintro _ _ _ (_ | ⟨hname, _ | ⟨hargs, _ | ⟨hreturns, _ | ⟨hasProcess, _ | _⟩⟩⟩⟩)
  refine (hname.follows_value _).bind fun _ => (hargs.follows_required fun _ _ _ hchange => ?_).bind fun _ =>
    (hreturns.follows_value _).bind fun _ => hasProcess.follows_flag.bind fun _ => .refl _
  refine hchange.follows_table fun _ _ _ hentry => ?_
  rw [← p.mode_inner, ← p.inner.mode_inner]
  exact TypedSlot.follows hentry

def Ending.shape : Shape :=
  .tagged [("panic", []), ("return", [.needed "returnType" .value, .spare "value" .value .null])]

theorem Ending.follows {p : Place} {ok : Bool} {v v' : Json} (h : Change shape p ok v v') :
    Follows (p.held || ok) (ofJson? p.mode v) (ofJson? p.mode v') := by
  refine h.follows_tagged (by simp [Declared.names, Declared.needed, Declared.spare])
    fun tag fields hvariant _ _ _ hrest => ?_
  simp only [List.mem_cons, Prod.mk.injEq, List.not_mem_nil, or_false] at hvariant
  obtain ⟨rfl, rfl⟩ | ⟨rfl, rfl⟩ := hvariant
  · exact hrest.follows_bare abort
  · refine hrest.follows_record (by simp [Declared.names, Declared.needed, Declared.spare]) ?_
    rintro _ _ _ (_ | ⟨htype, _ | ⟨hvalue, _ | _⟩⟩)
    exact (htype.follows_value _).bind fun _ => (hvalue.follows_slot _).bind fun _ => .refl _

def Branch.shape : Shape := .tagged [("if", []), ("if-else", [])]

theorem Branch.follows {p : Place} {ok : Bool} {v v' : Json} (h : Change shape p ok v v') :
    Follows (p.held || ok) (ofJson? p.mode v) (ofJson? p.mode v') := by
  refine h.follows_tagged (by simp [Declared.names]) fun tag fields hvariant _ _ _ hrest => ?_
  simp only [List.mem_cons, Prod.mk.injEq, List.not_mem_nil, or_false] at hvariant
  obtain ⟨rfl, rfl⟩ | ⟨rfl, rfl⟩ := hvariant
  · exact hrest.follows_bare ifThen
  · exact hrest.follows_bare ifElse

def nameShape : Shape := .record [.needed "name" .value]

theorem follows_nameRecord {p : Place} {ok : Bool} {v v' : Json} (h : Change nameShape p ok v v') :
    Follows (p.held || ok) (nameRecord? v) (nameRecord? v') :=
  h.follows_single fun _ _ _ hname => hname.follows_value Json.text?

namespace Payload

def assignmentShape : Shape := .record [.needed "name" .value, .needed "in" TypedSlot.shape]

theorem follows_assignment {p : Place} (hheld : p.held = true) {ok : Bool} {v v' : Json}
    (h : Change assignmentShape p ok v v') : Follows (p.held || ok) (assignment? v) (assignment? v') := by
  have hmode : p.inner.mode = .held := if_pos hheld
  refine h.follows_record (by simp [Declared.names, Declared.needed]) ?_
  rintro _ _ _ (_ | ⟨hname, _ | ⟨hcontent, _ | _⟩⟩)
  refine (hname.follows_value Json.text?).bind fun _ =>
    (hcontent.follows_required fun _ _ _ hchange => ?_).bind fun _ => .refl _
  rw [← hmode]
  exact TypedSlot.follows hchange

def shape : Shape :=
  .tagged
    [("start", []), ("argument", [.needed "name" .value]), ("function", [.needed "function" Call.shape]),
     ("operation", [.needed "operation" operatorShape]), ("condition", [.needed "condition" operatorShape]),
     ("process", [.needed "process" nameShape]), ("let", [.needed "let" assignmentShape]),
     ("variable", [.needed "variable" nameShape]), ("goto", []), ("end", [.needed "end" Ending.shape]),
     ("control", [.needed "control" Branch.shape])]

theorem follows_single? {field : String} {content : Shape} {p : Place} {ok : Bool} {v v' : Json}
    (h : Change (.record [.needed field content]) p ok v v') {read : Json → Option Payload}
    (hread : ∀ ok w w', Change content p.inner ok w w' → Follows (p.inner.held || ok) (read w) (read w')) :
    Follows (p.held || ok) (single? field read v) (single? field read v') :=
  h.follows_single fun _ _ _ hcontent => hcontent.follows_required hread

-- What belongs to the tag of a payload is held back with all its parts: it is read in the same mode throughout.
theorem follows {p : Place} {ok : Bool} {v v' : Json} (h : Change shape p ok v v') :
    Follows (p.held || ok) (ofJson? p.mode v) (ofJson? p.mode v') := by
  refine h.follows_tagged (by simp [Declared.names, Declared.needed]) fun tag fields hvariant _ _ _ hrest => ?_
  simp only [List.mem_cons, Prod.mk.injEq, List.not_mem_nil, or_false] at hvariant
  obtain ⟨rfl, rfl⟩ | ⟨rfl, rfl⟩ | ⟨rfl, rfl⟩ | ⟨rfl, rfl⟩ | ⟨rfl, rfl⟩ | ⟨rfl, rfl⟩ | ⟨rfl, rfl⟩ | ⟨rfl, rfl⟩ |
    ⟨rfl, rfl⟩ | ⟨rfl, rfl⟩ | ⟨rfl, rfl⟩ := hvariant
  · exact hrest.follows_bare start
  · exact follows_single? hrest fun _ _ _ hchange => absurd hchange Change.not_value
  · exact follows_single? hrest fun _ _ _ hchange => (Call.follows hchange).map call
  · exact follows_single? hrest fun _ _ _ hchange => (Operation.follows hchange).map operation
  · exact follows_single? hrest fun _ _ _ hchange => (Condition.follows hchange).map condition
  · exact follows_single? hrest fun _ _ _ hchange => (follows_nameRecord hchange).map process
  · exact follows_single? hrest fun _ _ _ hchange => follows_assignment rfl hchange
  · exact follows_single? hrest fun _ _ _ hchange => (follows_nameRecord hchange).map fetch
  · exact hrest.follows_bare jump
  · exact follows_single? hrest fun _ _ _ hchange => (Ending.follows hchange).map ending
  · exact follows_single? hrest fun _ _ _ hchange => (Branch.follows hchange).map branch

end Payload

def Position.shape : Shape := .record [.needed "x" .value, .needed "y" .value]

theorem Position.follows {p : Place} {ok : Bool} {v v' : Json} (h : Change shape p ok v v') :
    Follows (p.held || ok) (ofJson? v) (ofJson? v') := by
  refine h.follows_record (by simp [Declared.names, Declared.needed]) ?_
  rintro _ _ _ (_ | ⟨hx, _ | ⟨hy, _ | _⟩⟩)
  exact (hx.follows_value _).bind fun _ => (hy.follows_value _).bind fun _ => .refl _

def Node.shape : Shape :=
  .record
    [.needed "name" .value, .spare "edit" .value (.bool false), .spare "locked" .value (.bool false),
     ⟨"position", Position.shape, fun v => Position.ofJson? v = some .origin⟩, .needed "data" Payload.shape]

theorem Node.follows {p : Place} {ok : Bool} {v v' : Json} (h : Change shape p ok v v') :
    Follows (p.held || ok) (ofJson? p.mode v) (ofJson? p.mode v') := by
  refine h.follows_record (by simp [Declared.names, Declared.needed, Declared.spare]) ?_
  rintro _ _ _ (_ | ⟨hname, _ | ⟨hedit, _ | ⟨hlocked, _ | ⟨hposition, _ | ⟨hdata, _ | _⟩⟩⟩⟩⟩)
  refine (hname.follows_value _).bind fun _ => hedit.follows_flag.bind fun _ => hlocked.follows_flag.bind fun _ =>
    (hposition.follows_optional (fun _ hv => hv) fun _ _ _ => Position.follows).bind fun _ =>
      (hdata.follows_required fun _ _ _ hchange => ?_).bind fun _ => .refl _
  rw [← p.mode_inner]
  exact Payload.follows hchange

theorem NodeMap.follows {p : Place} {ok : Bool} {v v' : Json} (h : Change (.table Node.shape) p ok v v') :
    Follows (p.held || ok) (ofJson? p.mode v) (ofJson? p.mode v') := by
  cases h with
  | entry hchange =>
    have hnode := Node.follows hchange
    rw [p.mode_inner] at hnode
    rw [← Bool.and_true (p.held || ok)]
    refine Follows.bind (Follows.mapM_middle ?_ _ _) fun _ => .refl _
    rw [← Bool.true_and (p.held || ok), ← Bool.and_true (p.held || ok)]
    exact (Follows.refl _).bind fun _ => hnode.bind fun _ => .refl _

namespace Routine

def declarationShape : Shape := .record [.needed "type" .value]

theorem follows_declarations (m : Mode) {p : Place} {name : String} {kept : Bool} {x y : Option Json}
    (h : FieldChange p (.spare name (.table declarationShape) (.object [])) kept x y) :
    Follows kept (optional .empty (Json.table? (declaration? m)) x)
      (optional .empty (Json.table? (declaration? m)) y) :=
  h.follows_spare rfl fun _ _ _ htable => htable.follows_table fun _ _ _ hdeclaration =>
    hdeclaration.follows_single fun _ _ _ htype => htype.follows_value (ValueType.ofJson? m.inner)

def shape : Shape :=
  .record
    [.spare "isProcess" .value (.bool false), .spare "args" (.table declarationShape) (.object []),
     .spare "vars" (.table declarationShape) (.object []), .needed "return" .value,
     .spare "nodes" (.table Node.shape) (.object []), .spare "links" (.list Link.shape) (.array [])]

theorem follows {p : Place} {ok : Bool} {v v' : Json} (h : Change shape p ok v v') :
    Follows (p.held || ok) (ofJson? p.mode v) (ofJson? p.mode v') := by
  refine h.follows_record (by simp [Declared.names, Declared.needed, Declared.spare]) ?_
  rintro _ _ _ (_ | ⟨hisProcess, _ | ⟨hargs, _ | ⟨hvars, _ | ⟨hreturns, _ | ⟨hnodes, _ | ⟨hlinks, _ | _⟩⟩⟩⟩⟩⟩)
  have hnodes' : Follows _ (optional .empty (NodeMap.ofJson? p.inner.mode) _) (optional .empty _ _) :=
    hnodes.follows_spare rfl fun _ _ _ => NodeMap.follows
  have hlinks' : Follows _ (optional [] (Link.listOfJson? p.inner.mode) _) (optional [] _ _) :=
    hlinks.follows_spare rfl fun _ _ _ => Link.follows_list
  rw [p.mode_inner] at hnodes' hlinks'
  exact hisProcess.follows_flag.bind fun _ => (follows_declarations _ hargs).bind fun _ =>
    (follows_declarations _ hvars).bind fun _ => (hreturns.follows_value _).bind fun _ =>
      hnodes'.bind fun _ => hlinks'.bind fun _ => .refl _

end Routine

def Project.shape : Shape := .record [.needed "name" .value, .needed "functions" (.table Routine.shape)]

theorem Project.follows {p : Place} {ok : Bool} {v v' : Json} (h : Change shape p ok v v') :
    Follows (p.held || ok) (ofJson? p.mode v) (ofJson? p.mode v') := by
  refine h.follows_record (by simp [Declared.names, Declared.needed]) ?_
  rintro _ _ _ (_ | ⟨hname, _ | ⟨hroutines, _ | _⟩⟩)
  refine (hname.follows_value _).bind fun _ =>
    (hroutines.follows_required fun _ _ _ hchange => ?_).bind fun _ => .refl _
  refine hchange.follows_table fun _ _ _ hentry => ?_
  rw [← p.mode_inner, ← p.inner.mode_inner]
  exact Routine.follows hentry

/-- One step from a document to another presentation of it: other spaces, or another tree. The flag is that of
the change. -/
inductive Presented : Bool → String → String → Prop
  | respaced {d d' : String} (h : Respaced d.toList d'.toList) : Presented true d d'
  | changed {ok : Bool} {d d' : String} {v v' : Json} (hd : Spells v.tokens d.toList)
      (h : Change Project.shape .document ok v v') (hd' : Spells v'.tokens d'.toList) : Presented ok d d'

theorem Presented.follows {ok : Bool} {d d' : String} (h : Presented ok d d') :
    Follows ok (Project.parse? d) (Project.parse? d') := by
  cases h with
  | respaced h =>
    intro p hp
    obtain ⟨v, hv, hread⟩ := Option.bind_eq_some_iff.mp hp
    rw [Project.parse?, Json.parse?_respaced h hv]
    exact hread
  | changed hd h hd' =>
    have hmode : Place.document.mode = .document := rfl
    rw [Project.parse?, Project.parse?, Json.parse?_eq_some_iff.mpr hd, Json.parse?_eq_some_iff.mpr hd', ← hmode]
    simp only [Option.bind_eq_bind, Option.bind_some]
    exact Project.follows h

namespace Change

variable {p : Place} {ok : Bool} {v v' : Json}

theorem inField {fields : List (Declared Shape)} {f : Declared Shape} (hf : f ∈ fields)
    (h : Change f.shape p.inner ok v v') (before after : List (String × Json)) :
    Change (.record fields) p ok (.ofFields (before ++ (f.name, v) :: after))
      (.ofFields (before ++ (f.name, v') :: after)) := by
  simp only [Json.ofFields, List.map_append, List.map_cons]
  exact .field hf (Quoted.text?_ofString f.name) h

theorem inEntry {entry : Shape} (h : Change entry p.inner ok v v') (name : String) :
    Change (.table entry) p ok (.ofFields [(name, v)]) (.ofFields [(name, v')]) :=
  @Change.entry entry p ok [] [] (.ofString name) v v' h

end Change

theorem Json.wellFormed_ofFields_iff {fs : List (String × Json)} :
    (ofFields fs).WellFormed ↔ ∀ f ∈ fs, f.2.WellFormed := by
  refine ⟨fun h f hf => ?_, wellFormed_ofFields⟩
  cases h with
  | object _ hvalues => exact hvalues _ (List.mem_map_of_mem hf)

/-- The document of a project with one function that has one node. -/
def singleDocument (node : Json) : Json :=
  .ofFields
    [("name", .ofString "P"),
     ("functions", .ofFields
       [("F", .ofFields [("return", .ofString "Uint64"), ("nodes", .ofFields [("0", node)])])])]

theorem change_singleDocument {ok : Bool} {node node' : Json}
    (h : Change Node.shape ⟨false, 123⟩ ok node node') :
    Change Project.shape .document ok (singleDocument node) (singleDocument node') := by
  have hroutine : Change Routine.shape ⟨false, 125⟩ ok
      (.ofFields [("return", .ofString "Uint64"), ("nodes", .ofFields [("0", node)])])
      (.ofFields [("return", .ofString "Uint64"), ("nodes", .ofFields [("0", node')])]) :=
    Change.inField (f := .spare "nodes" (.table Node.shape) (.object [])) (by simp) (.inEntry h "0")
      [("return", .ofString "Uint64")] []
  exact Change.inField (f := .needed "functions" (.table Routine.shape)) (by simp) (.inEntry hroutine "F")
    [("name", .ofString "P")] []

theorem parse?_singleDocument {node : Json} (h : node.WellFormed) :
    Json.parse? (singleDocument node).compactText = some (singleDocument node) := by
  refine Json.parse?_compactText ?_
  simp [singleDocument, Json.wellFormed_ofFields_iff, Json.wellFormed_ofString, h]

/-- Changes in the node are changes in the text of the document. -/
theorem presented_singleDocument {ok : Bool} {node node' : Json} (hnode : node.WellFormed)
    (hnode' : node'.WellFormed) (h : Change Node.shape ⟨false, 123⟩ ok node node') :
    Presented ok (singleDocument node).compactText (singleDocument node').compactText :=
  .changed (Json.parse?_eq_some_iff.mp (parse?_singleDocument hnode)) (change_singleDocument h)
    (Json.parse?_eq_some_iff.mp (parse?_singleDocument hnode'))

def singleProject : Project :=
  { name := "P"
    routines := .ofList [("F", {
      isProcess := false
      args := .empty
      vars := .empty
      returns := .uint64
      nodes := .ofList [(0, Node.ofPayload "Start" .start)]
      links := [] })] }

/-- The payload of an entry node, after other fields. -/
def startPayload (fields : List (String × Json)) : Json := .ofFields (fields ++ [("type", .ofString "start")])

theorem change_startPayload (note : Json) :
    Change Payload.shape ⟨false, 122⟩ (note.readable 121) (startPayload []) (startPayload [("note", note)]) := by
  have htag : (startPayload []).HasTag (.direct 122) Payload.tags "start" :=
    ⟨_, List.mem_cons_self, Quoted.text?_ofString "type", by
      simp [Mode.tag?, Json.ofString, Quoted.text?_ofString, Payload.tags]⟩
  exact @Change.tagged _ [] ⟨false, 122⟩ _ "start" _ _ (by simp) htag
    (.add (Quoted.text?_ofString "note") (by simp [Declared.names, Declared.tag, Declared.needed]))

/-- An entry node with a payload. -/
def startNode (fields : List (String × Json)) (payload : Json) : Json :=
  .ofFields (("name", .ofString "Start") :: (fields ++ [("data", payload)]))

theorem wellFormed_startNode {fields notes : List (String × Json)} (hfields : ∀ f ∈ fields, f.2.WellFormed)
    (hnotes : ∀ f ∈ notes, f.2.WellFormed) : (startNode fields (startPayload notes)).WellFormed := by
  have hpayload : (startPayload notes).WellFormed :=
    Json.wellFormed_ofFields (List.forall_mem_append.mpr ⟨hnotes, by simp [Json.wellFormed_ofString]⟩)
  exact Json.wellFormed_ofFields (List.forall_mem_cons.mpr ⟨Json.wellFormed_ofString "Start",
    List.forall_mem_append.mpr ⟨hfields, by simpa using hpayload⟩⟩)

theorem change_startNode (fields : List (String × Json)) (note : Json) :
    Change Node.shape ⟨false, 123⟩ (note.readable 121) (startNode fields (startPayload []))
      (startNode fields (startPayload [("note", note)])) :=
  Change.inField (p := ⟨false, 123⟩) (f := .needed "data" Payload.shape) (by simp) (change_startPayload note)
    (("name", .ofString "Start") :: fields) []

/-- A project is read from all presentations of its document: with the fields of its records in any order, with
more fields of other names, without fields whose values are the defaults, and with other spaces, in any
combination and at any depth. Nothing is read once a field is added within a tagged value that is not
readable. -/
theorem Project.parse?_presented {d : String} {p : Project} (hp : parse? d = some p) :
    (∀ d', Relation.ReflTransGen (Presented true) d d' → parse? d' = some p) ∧
      ∀ d', Presented false d d' → parse? d' = none := by
  refine ⟨fun d' h => ?_, fun d' h => h.follows p hp⟩
  induction h with
  | refl => exact hp
  | tail _ hstep ih => exact hstep.follows p ih

/-- The data first, with a note, and no mention of the edit mode. -/
def terseNode : Json := .ofFields [("data", startPayload [("note", .array [])]), ("name", .ofString "Start")]

theorem Project.parse?_presented_terseNode :
    parse? (singleDocument (startNode [("edit", .bool false)] (startPayload []))).compactText =
        some singleProject ∧
      Relation.ReflTransGen (Presented true)
        (singleDocument (startNode [("edit", .bool false)] (startPayload []))).compactText
        (String.ofList ('\n' :: (singleDocument terseNode).compact)) ∧
      parse? (String.ofList ('\n' :: (singleDocument terseNode).compact)) = some singleProject := by
  have hplain : (startNode [("edit", .bool false)] (startPayload [])).WellFormed :=
    wellFormed_startNode (by simp [Json.WellFormed.bool]) (by simp)
  have hnoted : (startNode [("edit", .bool false)] (startPayload [("note", .array [])])).WellFormed :=
    wellFormed_startNode (by simp [Json.WellFormed.bool]) (by simp [Json.WellFormed.array])
  have hshort : (startNode [] (startPayload [("note", .array [])])).WellFormed :=
    wellFormed_startNode (by simp) (by simp [Json.WellFormed.array])
  have hterse : terseNode.WellFormed := by
    simp [terseNode, startPayload, Json.wellFormed_ofFields_iff, Json.wellFormed_ofString, Json.WellFormed.array]
  have hadd := presented_singleDocument hplain hnoted (change_startNode _ (.array []))
  have hleaveOut := presented_singleDocument hnoted hshort
    (@Change.leaveOut _ _ [(.ofString "name", .ofString "Start")] [(.ofString "data", _)]
      (.ofString "edit") _ (.spare "edit" .value (.bool false)) (by simp) (Quoted.text?_ofString "edit") rfl)
  have hpermute := presented_singleDocument hshort hterse (.permute (.swap _ _ _))
  have hrespace : Presented true (singleDocument terseNode).compactText
      (String.ofList ('\n' :: (singleDocument terseNode).compact)) := by
    have hspells := Json.parse?_eq_some_iff.mp (parse?_singleDocument hterse)
    rw [Json.compactText, String.toList_ofList] at hspells
    refine .respaced ?_
    rw [Json.compactText, String.toList_ofList, String.toList_ofList]
    exact .addSpace rfl hspells.respaced
  have hsteps := (((Relation.ReflTransGen.single hadd).tail hleaveOut).tail hpermute).tail hrespace
  have hread : parse? (singleDocument (startNode [("edit", .bool false)] (startPayload []))).compactText =
      some singleProject := by
    rw [parse?, parse?_singleDocument hplain, Option.bind_eq_bind, Option.bind_some]
    decide +kernel
  exact ⟨hread, hsteps, (parse?_presented hread).1 _ hsteps⟩

/-- A number that is too large to be a double. -/
def hugeNumber : Json := .number ⟨false, [1], [], some ⟨false, [4, 0, 0]⟩⟩

/-- A note that is not readable makes the document unreadable. -/
theorem Project.parse?_hugeNumber :
    parse? (singleDocument (startNode [] (startPayload []))).compactText = some singleProject ∧
      Presented false (singleDocument (startNode [] (startPayload []))).compactText
        (singleDocument (startNode [] (startPayload [("note", hugeNumber)]))).compactText ∧
      parse? (singleDocument (startNode [] (startPayload [("note", hugeNumber)]))).compactText = none := by
  have hplain : (startNode [] (startPayload [])).WellFormed := wellFormed_startNode (by simp) (by simp)
  have hnumber : hugeNumber.WellFormed := .number ⟨rfl, by simp⟩
  have hnoted : (startNode [] (startPayload [("note", hugeNumber)])).WellFormed :=
    wellFormed_startNode (by simp) (by simpa using hnumber)
  have hreadable : hugeNumber.readable 121 = false := by decide +kernel
  refine ⟨?_, hreadable ▸ presented_singleDocument hplain hnoted (change_startNode [] hugeNumber), ?_⟩
  · rw [parse?, parse?_singleDocument hplain, Option.bind_eq_bind, Option.bind_some]
    decide +kernel
  · rw [parse?, parse?_singleDocument hnoted, Option.bind_eq_bind, Option.bind_some]
    decide +kernel

end FlowBasic
