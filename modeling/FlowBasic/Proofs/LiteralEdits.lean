import FlowBasic.Proofs.NodeHistories
import FlowBasic.Proofs.Ports

namespace FlowBasic

/-- What a slot may hold: nothing, a literal of its type, or any literal when the type is not known. -/
def ValueType.Admits (t : ValueType) (v : Option Literal) : Prop :=
  ∀ w, v = some w → t = .any ∨ w.type = t

theorem TypedSlot.exists_assign?_iff (s : TypedSlot) (v : Option Literal) :
    (∃ t, s.assign? v = some t) ↔ s.type.Admits v := by
  cases s <;> rcases v with _ | _ | _ <;>
    simp [assign?, narrow, Literal.number?, Literal.text?, ValueType.Admits, type, Literal.type]

namespace Side

def name : Side → String
  | left => "left"
  | right => "right"

/-- What the two sides have, each with its name. -/
def both {α : Type} (f : Side → α) : List (String × α) := [("left", f .left), ("right", f .right)]

@[simp] theorem ofName?_name (side : Side) : ofName? side.name = some side := by
  cases side <;> rfl

theorem name_of_ofName? {slot : String} {side : Side} (h : ofName? slot = some side) : slot = side.name := by
  unfold ofName? at h
  split at h
  · exact Option.some.inj h ▸ rfl
  · exact Option.some.inj h ▸ rfl
  · cases h

theorem mem_both {α : Type} {f : Side → α} {slot : String} {a : α} :
    (slot, a) ∈ both f ↔ ∃ side : Side, slot = side.name ∧ a = f side := by
  rw [both, List.mem_pair]
  constructor
  · rintro (heq | heq)
    · exact ⟨.left, (Prod.mk.inj heq).1, (Prod.mk.inj heq).2⟩
    · exact ⟨.right, (Prod.mk.inj heq).1, (Prod.mk.inj heq).2⟩
  · rintro ⟨side, rfl, rfl⟩
    cases side
    · exact .inl rfl
    · exact .inr rfl

/-- A change of one side leaves the other one in its place. -/
theorem exists_split {α : Type} {f g : Side → α} {side : Side}
    (h : ∀ other, other ≠ side → g other = f other) :
    ∃ earlier later, both f = earlier ++ (side.name, f side) :: later ∧
      both g = earlier ++ (side.name, g side) :: later := by
  cases side with
  | left => exact ⟨[], [("right", f .right)], rfl, by rw [← h .right (by decide)]; rfl⟩
  | right => exact ⟨[("left", f .left)], [], rfl, by rw [← h .left (by decide)]; rfl⟩

end Side

/-- The operands of an operation or a condition, without the operator. -/
inductive TypedOperands where
  | uint64 (content : Operands UInt64)
  | string (content : Operands String)

namespace TypedOperands

/-- An operand as a slot of its type. -/
def slot (ops : TypedOperands) (side : Side) : TypedSlot :=
  match ops with
  | uint64 content => .uint64 (content.get side)
  | string content => .string (content.get side)

def assign? (side : Side) (v : Option Literal) : TypedOperands → Option TypedOperands
  | uint64 content => (narrow Literal.number? v).map fun c => uint64 (content.set c side)
  | string content => (narrow Literal.text? v).map fun c => string (content.set c side)

/-- An operand is assigned as a slot is. -/
theorem slot_assign? (ops : TypedOperands) (side : Side) (v : Option Literal) :
    (ops.assign? side v).map (·.slot side) = (ops.slot side).assign? v := by
  cases ops <;> simp [assign?, slot, TypedSlot.assign?, Function.comp_def, Operands.get_set]

theorem slot_of_ne {ops ops' : TypedOperands} {side other : Side} {v : Option Literal}
    (h : ops.assign? side v = some ops') (hne : other ≠ side) : ops'.slot other = ops.slot other := by
  cases ops <;>
  · obtain ⟨c, _, rfl⟩ := Option.map_eq_some_iff.mp h
    simp [slot, Operands.get_set, hne]

/-- An assigned operand stays in its place beside the other one. -/
theorem exists_split {ops ops' : TypedOperands} {side : Side} {v : Option Literal}
    (h : ops.assign? side v = some ops') :
    ∃ earlier later, (ops.slot side).assign? v = some (ops'.slot side) ∧
      Side.both ops.slot = earlier ++ (side.name, ops.slot side) :: later ∧
      Side.both ops'.slot = earlier ++ (side.name, ops'.slot side) :: later := by
  obtain ⟨earlier, later, hsplit⟩ := Side.exists_split fun _ hne => slot_of_ne h hne
  refine ⟨earlier, later, ?_, hsplit⟩
  rw [← slot_assign?, h]
  rfl

theorem exists_assign? {ops : TypedOperands} {side : Side} {v : Option Literal} {t : TypedSlot}
    (h : (ops.slot side).assign? v = some t) : ∃ ops', ops.assign? side v = some ops' := by
  rw [← slot_assign?] at h
  obtain ⟨ops', hops, -⟩ := Option.map_eq_some_iff.mp h
  exact ⟨ops', hops⟩

end TypedOperands

namespace Operation

def operands : Operation → TypedOperands
  | uint64 _ ops => .uint64 ops
  | string _ ops => .string ops

theorem operands_assign? (o : Operation) (side : Side) (v : Option Literal) :
    (o.assign? side v).map operands = o.operands.assign? side v := by
  cases o <;> exact Option.map_map _ _ _

end Operation

namespace Condition

def operands : Condition → TypedOperands
  | uint64 _ ops => .uint64 ops
  | string _ ops => .string ops

theorem operands_assign? (c : Condition) (side : Side) (v : Option Literal) :
    (c.assign? side v).map operands = c.operands.assign? side v := by
  cases c <;> exact Option.map_map _ _ _

end Condition

namespace Payload

/-- Calls, operations and conditions have slots for literals. -/
def takesLiterals : Payload → Bool
  | call _ => true
  | operation _ => true
  | condition _ => true
  | _ => false

/-- The slots that an edit can name, in order. -/
def slots : Payload → List (String × TypedSlot)
  | call c => c.args.entries
  | operation o => Side.both o.operands.slot
  | condition c => Side.both c.operands.slot
  | _ => []

/-- The complement has a right operand that no port belongs to. -/
def isComplement : Payload → Bool
  | operation o => o.isUnary
  | _ => false

/-- The slots that a port belongs to. -/
def portedSlots (p : Payload) : List (String × TypedSlot) :=
  if p.isComplement then p.slots.take 1 else p.slots

/-- The port of the first slot; the others follow. -/
def slotBase : Payload → Nat
  | call c => c.argBase
  | _ => 0

/-- The input port that belongs to a slot, whether the slot holds a literal or not. -/
def slotPort? (p : Payload) (slot : String) : Option Nat :=
  ((p.portedSlots.map Prod.fst).idxOf? slot).map (p.slotBase + ·)

/-- Alike in everything but the types and contents of the slots. -/
def SameForm : Payload → Payload → Prop
  | call c, call d =>
    d.builtin = c.builtin ∧ d.args.keys = c.args.keys ∧ d.returns = c.returns ∧
      d.asProcess = c.asProcess ∧ d.argBase = c.argBase ∧ d.resultPort = c.resultPort
  | operation (.uint64 o _), operation (.uint64 o' _) => o' = o
  | operation (.string o _), operation (.string o' _) => o' = o
  | condition (.uint64 o _), condition (.uint64 o' _) => o' = o
  | condition (.string o _), condition (.string o' _) => o' = o
  | _, _ => False

theorem nodup_slots (p : Payload) : (p.slots.map Prod.fst).Nodup := by
  cases p with
  | call c => exact c.args.nodup
  | operation o =>
    change ["left", "right"].Nodup
    decide
  | condition c =>
    change ["left", "right"].Nodup
    decide
  | _ => exact List.nodup_nil

theorem sameForm_insert {c : Call} {slot : String} {s : TypedSlot} (hs : c.args.get? slot = some s)
    (t : TypedSlot) : (call c).SameForm (call { c with args := c.args.insert slot t }) := by
  have hkeys : (c.args.insert slot t).keys = c.args.keys := by
    have hmem := (c.args.contains_iff slot).mp (Option.isSome_of_eq_some hs)
    rw [Table.keys_insert, if_pos hmem]
  have hsize : (c.args.insert slot t).size = c.args.size := by
    have hlength := congrArg List.length hkeys
    simpa [Table.keys, Table.size] using hlength
  exact ⟨rfl, hkeys, rfl, rfl, rfl, by rw [Call.resultPort, hsize]; rfl⟩

theorem sameForm_operation {o o' : Operation} {side : Side} {v : Option Literal}
    (h : o.assign? side v = some o') : (operation o).SameForm (operation o') := by
  cases o <;>
  · obtain ⟨c, _, rfl⟩ := Option.map_eq_some_iff.mp h
    rfl

theorem sameForm_condition {c c' : Condition} {side : Side} {v : Option Literal}
    (h : c.assign? side v = some c') : (condition c).SameForm (condition c') := by
  cases c <;>
  · obtain ⟨x, _, rfl⟩ := Option.map_eq_some_iff.mp h
    rfl

/-- An accepted literal is assigned to a slot, which stays in its place among the others. -/
theorem exists_slot_of_setLiteral {p p' : Payload} {id : NodeId} {slot : String} {v : Option Literal}
    (hp : p.takesLiterals = true) (h : p.setLiteral id slot v = .ok p') :
    p.SameForm p' ∧ ∃ earlier later s t, s.assign? v = some t ∧
      p.slots = earlier ++ (slot, s) :: later ∧ p'.slots = earlier ++ (slot, t) :: later := by
  cases p with
  | call c =>
    rw [setLiteral] at h
    split at h
    · cases h
    · next s hs =>
      split at h
      · cases h
      · next t ht =>
        obtain rfl := Except.ok.inj h
        obtain ⟨earlier, later, hbefore, hafter⟩ := Entries.exists_put_eq hs
        exact ⟨sameForm_insert hs t, earlier, later, s, t, ht, hbefore, hafter t⟩
  | operation o =>
    rw [setLiteral] at h
    split at h
    · cases h
    · next side hside =>
      split at h
      · cases h
      · next o' ho =>
        obtain rfl := Except.ok.inj h
        obtain rfl := Side.name_of_ofName? hside
        have hoperands : o.operands.assign? side v = some o'.operands := by
          rw [← o.operands_assign?, ho]
          rfl
        obtain ⟨earlier, later, hassign, hsplit⟩ := TypedOperands.exists_split hoperands
        exact ⟨sameForm_operation ho, earlier, later, _, _, hassign, hsplit⟩
  | condition c =>
    rw [setLiteral] at h
    split at h
    · cases h
    · next side hside =>
      split at h
      · cases h
      · next c' hc =>
        obtain rfl := Except.ok.inj h
        obtain rfl := Side.name_of_ofName? hside
        have hoperands : c.operands.assign? side v = some c'.operands := by
          rw [← c.operands_assign?, hc]
          rfl
        obtain ⟨earlier, later, hassign, hsplit⟩ := TypedOperands.exists_split hoperands
        exact ⟨sameForm_condition hc, earlier, later, _, _, hassign, hsplit⟩
  | _ => cases hp

/-- A literal is accepted when the slot is there and its type allows the literal. -/
theorem exists_setLiteral_iff {p : Payload} (hp : p.takesLiterals = true) (id : NodeId) (slot : String)
    (v : Option Literal) :
    (∃ p', p.setLiteral id slot v = .ok p') ↔ ∃ s, (slot, s) ∈ p.slots ∧ s.type.Admits v := by
  constructor
  · rintro ⟨p', h⟩
    obtain ⟨-, earlier, later, s, t, hassign, hslots, -⟩ := exists_slot_of_setLiteral hp h
    refine ⟨s, ?_, (s.exists_assign?_iff v).mp ⟨t, hassign⟩⟩
    rw [hslots]
    exact List.mem_append_right _ List.mem_cons_self
  · rintro ⟨s, hs, hadmits⟩
    obtain ⟨t, ht⟩ := (s.exists_assign?_iff v).mpr hadmits
    cases p with
    | call c =>
      have hget : c.args.get? slot = some s := (Entries.lookup_eq_some_iff c.args.nodup).mpr hs
      simp [setLiteral, hget, ht]
    | operation o =>
      obtain ⟨side, rfl, rfl⟩ := Side.mem_both.mp hs
      obtain ⟨ops', hops⟩ := TypedOperands.exists_assign? ht
      rw [← o.operands_assign?] at hops
      obtain ⟨o', ho, -⟩ := Option.map_eq_some_iff.mp hops
      simp [setLiteral, ho]
    | condition c =>
      obtain ⟨side, rfl, rfl⟩ := Side.mem_both.mp hs
      obtain ⟨ops', hops⟩ := TypedOperands.exists_assign? ht
      rw [← c.operands_assign?] at hops
      obtain ⟨c', hc, -⟩ := Option.map_eq_some_iff.mp hops
      simp [setLiteral, hc]
    | _ => cases hp

theorem setLiteral_of_slotless {p : Payload} (h : p.takesLiterals = false) (id : NodeId)
    (slot : String) (v : Option Literal) : p.setLiteral id slot v = .ok p := by
  cases p with
  | call c => cases h
  | operation o => cases h
  | condition c => cases h
  | _ => rfl

end Payload

namespace Layout

theorem slotPorts_nil (base : Nat) : slotPorts base [] = [] := rfl

theorem slotPorts_cons (base : Nat) (s : TypedSlot) (ss : List TypedSlot) :
    slotPorts base (s :: ss) = operandPort base s.type s.literal? ++ slotPorts (base + 1) ss := by
  cases hliteral : s.literal? <;> simp [slotPorts, operandPort, TypedSlot.isUnset, hliteral]

theorem slotPorts_append (base : Nat) (ss ts : List TypedSlot) :
    slotPorts base (ss ++ ts) = slotPorts base ss ++ slotPorts (base + ss.length) ts := by
  induction ss generalizing base with
  | nil => rfl
  | cons s ss ih =>
    rw [List.cons_append, slotPorts_cons, slotPorts_cons, ih, List.append_assoc, List.length_cons,
      Nat.add_assoc, Nat.add_comm 1]

theorem bounds_of_mem_slotPorts {base : Nat} {ss : List TypedSlot} {x : PortSpec}
    (h : x ∈ slotPorts base ss) : base ≤ x.port ∧ x.port < base + ss.length := by
  obtain ⟨i, s, hs, -, rfl⟩ := mem_slotPorts.mp h
  obtain ⟨hi, -⟩ := List.getElem?_eq_some_iff.mp hs
  have hport : ((PortSpec.value (base + i) s.type).needed).port = base + i := rfl
  omega

/-- The ports of one number, and all others. -/
theorem filter_port {first own last : List PortSpec} {port : Nat}
    (hothers : ∀ x ∈ first ++ last, x.port ≠ port) (hown : ∀ x ∈ own, x.port = port) :
    (first ++ own ++ last).filter (·.port ≠ port) = first ++ last ∧
      (first ++ own ++ last).filter (·.port = port) = own := by
  have hfirst : ∀ x ∈ first, x.port ≠ port := fun x hx => hothers x (List.mem_append_left _ hx)
  have hlast : ∀ x ∈ last, x.port ≠ port := fun x hx => hothers x (List.mem_append_right _ hx)
  simp only [List.filter_append]
  constructor
  · rw [List.filter_eq_self.mpr fun x hx => decide_eq_true (hfirst x hx),
      List.filter_eq_self.mpr fun x hx => decide_eq_true (hlast x hx),
      List.filter_eq_nil_iff.mpr fun x hx => by simp [hown x hx], List.append_nil]
  · rw [List.filter_eq_self.mpr fun x hx => decide_eq_true (hown x hx),
      List.filter_eq_nil_iff.mpr fun x hx => by simpa using hfirst x hx,
      List.filter_eq_nil_iff.mpr fun x hx => by simpa using hlast x hx, List.append_nil, List.nil_append]

end Layout

namespace Payload

/-- The flow port by which control comes to a call that is a statement. -/
def flowInputs : Payload → List PortSpec
  | call c => if c.asProcess then [.flow 0] else []
  | _ => []

/-- A payload with slots has their ports behind its flow port. -/
theorem inputs_layout {p : Payload} (hp : p.takesLiterals = true) (r : Routine) (scope : Scope) :
    (r.layout scope p).inputs =
      p.flowInputs ++ Layout.slotPorts p.slotBase (p.portedSlots.map Prod.snd) := by
  cases p with
  | call c => rfl
  | operation o =>
    cases hunary : o.isUnary <;> cases o <;>
      simp [Routine.layout, flowInputs, slotBase, portedSlots, isComplement, slots, Side.both,
        Layout.slotPorts_cons, Layout.slotPorts_nil, Operation.operands, TypedOperands.slot, hunary,
        Operation.type, Operation.operand?, TypedSlot.type, TypedSlot.literal?]
  | condition c =>
    cases c <;>
      simp [Routine.layout, flowInputs, slotBase, portedSlots, isComplement, slots, Side.both,
        Layout.slotPorts_cons, Layout.slotPorts_nil, Condition.operands, TypedOperands.slot,
        Condition.type, Condition.operand?, TypedSlot.type, TypedSlot.literal?]
  | _ => cases hp

theorem port_of_mem_flowInputs {p : Payload} {x : PortSpec} (h : x ∈ p.flowInputs) :
    x.port < p.slotBase := by
  cases p with
  | call c =>
    simp only [flowInputs] at h
    split at h
    · next hprocess =>
      rw [List.mem_singleton.mp h, slotBase, Call.argBase, if_pos hprocess]
      decide
    · exact absurd h List.not_mem_nil
  | _ => exact absurd h List.not_mem_nil

namespace SameForm

variable {p p' : Payload}

theorem frame (h : p.SameForm p') :
    p'.takesLiterals = true ∧ p'.flowInputs = p.flowInputs ∧ p'.slotBase = p.slotBase ∧
      p'.isComplement = p.isComplement := by
  unfold SameForm at h
  split at h
  · obtain ⟨-, -, -, hprocess, hbase, -⟩ := h
    exact ⟨rfl, by simp only [flowInputs, hprocess], hbase, rfl⟩
  · next o _ o' _ =>
    subst h
    exact ⟨rfl, rfl, rfl, by cases o' <;> rfl⟩
  · exact ⟨rfl, rfl, rfl, rfl⟩
  · exact ⟨rfl, rfl, rfl, rfl⟩
  · exact ⟨rfl, rfl, rfl, rfl⟩
  · exact h.elim

/-- The outputs of a payload do not depend on what its slots hold. -/
theorem outputs_layout (h : p.SameForm p') (r r' : Routine) (scope scope' : Scope) :
    (r'.layout scope' p').outputs = (r.layout scope p).outputs ∧
      (r'.layout scope' p').anyInput = (r.layout scope p).anyInput ∧
      (r'.layout scope' p').anyOutput = (r.layout scope p).anyOutput := by
  unfold SameForm at h
  split at h
  · obtain ⟨-, -, hreturns, hprocess, -, hresult⟩ := h
    exact ⟨by simp only [Routine.layout, hreturns, hprocess, hresult], rfl, rfl⟩
  · exact ⟨rfl, rfl, rfl⟩
  · exact ⟨rfl, rfl, rfl⟩
  · exact ⟨rfl, rfl, rfl⟩
  · exact ⟨rfl, rfl, rfl⟩
  · exact h.elim

end SameForm

section Slot

variable {p p' : Payload} {slot : String} {s t : TypedSlot} {earlier later : List (String × TypedSlot)}

/-- The slot has a port in its place, or it is the right operand of a complement. -/
theorem portedSlots_cases (hform : p.SameForm p') (hbefore : p.slots = earlier ++ (slot, s) :: later)
    (hafter : p'.slots = earlier ++ (slot, t) :: later) :
    (∃ rest, p.portedSlots = earlier ++ (slot, s) :: rest ∧
      p'.portedSlots = earlier ++ (slot, t) :: rest) ∨
    (p.isComplement = true ∧ slot = "right" ∧ p'.portedSlots = p.portedSlots) := by
  obtain ⟨-, -, -, hsame⟩ := hform.frame
  cases hcomplement : p.isComplement with
  | false =>
    rw [hcomplement] at hsame
    exact .inl ⟨later, by simp [portedSlots, hcomplement, hbefore], by simp [portedSlots, hsame, hafter]⟩
  | true =>
    rw [hcomplement] at hsame
    cases earlier with
    | nil =>
      exact .inl ⟨[], by simp [portedSlots, hcomplement, hbefore], by simp [portedSlots, hsame, hafter]⟩
    | cons e earlier =>
      refine .inr ⟨rfl, ?_, by simp [portedSlots, hcomplement, hsame, hbefore, hafter]⟩
      obtain ⟨o, rfl⟩ : ∃ o, p = operation o := by
        cases p with
        | operation o => exact ⟨o, rfl⟩
        | _ => cases hcomplement
      have hkeys : ["left", "right"] = (e :: earlier ++ (slot, s) :: later).map Prod.fst :=
        congrArg (List.map Prod.fst) hbefore
      cases earlier with
      | nil =>
        simp only [List.cons_append, List.nil_append, List.map_cons, List.cons.injEq] at hkeys
        exact hkeys.2.1.symm
      | cons x earlier => simp at hkeys

theorem slotPort?_eq_some (h : p.portedSlots = earlier ++ (slot, s) :: later) :
    p.slotPort? slot = some (p.slotBase + earlier.length) := by
  have hnodup : (p.portedSlots.map Prod.fst).Nodup := by
    have hsublist : p.portedSlots.Sublist p.slots := by
      rw [portedSlots]
      split
      · exact List.take_sublist 1 _
      · exact List.Sublist.refl _
    exact (hsublist.map Prod.fst).nodup p.nodup_slots
  rw [h, List.map_append, List.map_cons] at hnodup
  have hnew : slot ∉ earlier.map Prod.fst := by
    intro hmem
    exact (List.nodup_append.mp hnodup).2.2 slot hmem slot List.mem_cons_self rfl
  have hfirst : (earlier.map Prod.fst).findIdx? (· == slot) = none := List.idxOf?_eq_none_iff.mpr hnew
  rw [slotPort?, h, List.map_append, List.map_cons, List.idxOf?, List.findIdx?_append, hfirst]
  simp [List.findIdx?_cons]

theorem slotPort?_right (h : p.isComplement = true) : p.slotPort? "right" = none := by
  cases p with
  | operation o =>
    have hported : (operation o).portedSlots = [("left", o.operands.slot .left)] := if_pos h
    rw [slotPort?, hported]
    rfl
  | _ => cases h

theorem isComplement_iff : p.isComplement = true ↔ ∃ ops, p = .operation (.uint64 .not ops) := by
  constructor
  · intro h
    unfold isComplement at h
    split at h
    · unfold Operation.isUnary at h
      split at h
      · exact ⟨_, rfl⟩
      · cases h
    · cases h
  · rintro ⟨ops, rfl⟩
    rfl

theorem slotPort?_eq_none_iff (hform : p.SameForm p') (hbefore : p.slots = earlier ++ (slot, s) :: later)
    (hafter : p'.slots = earlier ++ (slot, t) :: later) :
    p.slotPort? slot = none ↔ slot = "right" ∧ ∃ ops, p = .operation (.uint64 .not ops) := by
  rw [← isComplement_iff]
  constructor
  · intro hnone
    rcases portedSlots_cases hform hbefore hafter with ⟨rest, hported, -⟩ | ⟨hcomplement, hright, -⟩
    · rw [slotPort?_eq_some hported] at hnone
      cases hnone
    · exact ⟨hright, hcomplement⟩
  · rintro ⟨rfl, hcomplement⟩
    exact slotPort?_right hcomplement

/-- Only the content of the slot is another one. -/
theorem contents_eq {v : Option Literal} (hassign : s.assign? v = some t)
    (hbefore : p.slots = earlier ++ (slot, s) :: later)
    (hafter : p'.slots = earlier ++ (slot, t) :: later) :
    (p'.slots.map fun e => (e.1, e.2.type, e.2.literal?)) =
      p.slots.map fun e => (e.1, e.2.type, if e.1 = slot then v else e.2.literal?) := by
  have hnodup := p.nodup_slots
  rw [hbefore, List.map_append, List.map_cons] at hnodup
  obtain ⟨-, hlater, hearlier⟩ := List.nodup_append.mp hnodup
  have hother : ∀ e ∈ earlier ++ later, e.1 ≠ slot := by
    intro e he heq
    rcases List.mem_append.mp he with he | he
    · exact hearlier e.1 (List.mem_map_of_mem he) slot List.mem_cons_self heq
    · exact (List.nodup_cons.mp hlater).1 (List.mem_map.mpr ⟨e, he, heq⟩)
  have hkept : ∀ es : List (String × TypedSlot), (∀ e ∈ es, e.1 ≠ slot) →
      (es.map fun e => (e.1, e.2.type, e.2.literal?)) =
        es.map fun e => (e.1, e.2.type, if e.1 = slot then v else e.2.literal?) := by
    intro es hes
    apply List.map_congr_left
    intro e he
    rw [if_neg (hes e he)]
  rw [hbefore, hafter, List.map_append, List.map_append, List.map_cons, List.map_cons, if_pos rfl,
    hkept earlier fun e he => hother e (List.mem_append_left _ he),
    hkept later fun e he => hother e (List.mem_append_right _ he),
    TypedSlot.type_assign? hassign, TypedSlot.literal?_assign? hassign]

/-- The inputs before and after differ in the port of the slot only, which is there as long as the slot
holds nothing. -/
theorem exists_inputs_layout (hp : p.takesLiterals = true) (hform : p.SameForm p')
    (hbefore : p.portedSlots = earlier ++ (slot, s) :: later)
    (hafter : p'.portedSlots = earlier ++ (slot, t) :: later) (htype : t.type = s.type)
    (r r' : Routine) (scope scope' : Scope) :
    ∃ first last port, p.slotPort? slot = some port ∧ (∀ x ∈ first ++ last, x.port ≠ port) ∧
      (r.layout scope p).inputs = first ++ Layout.operandPort port s.type s.literal? ++ last ∧
      (r'.layout scope' p').inputs = first ++ Layout.operandPort port s.type t.literal? ++ last := by
  obtain ⟨hp', hflow, hbase, -⟩ := hform.frame
  refine ⟨p.flowInputs ++ Layout.slotPorts p.slotBase (earlier.map Prod.snd),
    Layout.slotPorts (p.slotBase + earlier.length + 1) (later.map Prod.snd),
    p.slotBase + earlier.length, slotPort?_eq_some hbefore, ?_, ?_, ?_⟩
  · intro x hx
    rw [List.append_assoc, List.mem_append, List.mem_append] at hx
    rcases hx with hx | hx | hx
    · have hlt := port_of_mem_flowInputs hx
      omega
    · have hlt := (Layout.bounds_of_mem_slotPorts hx).2
      rw [List.length_map] at hlt
      omega
    · have hlt := (Layout.bounds_of_mem_slotPorts hx).1
      omega
  · rw [inputs_layout hp, hbefore]
    simp [Layout.slotPorts_append, Layout.slotPorts_cons]
  · rw [inputs_layout hp', hflow, hbase, hafter]
    simp [Layout.slotPorts_append, Layout.slotPorts_cons, htype]

/-- Whether the slot has a port, and what that port is like when it does. -/
theorem inputs_of_slot {v : Option Literal} (hp : p.takesLiterals = true) (hform : p.SameForm p')
    (hassign : s.assign? v = some t) (hbefore : p.slots = earlier ++ (slot, s) :: later)
    (hafter : p'.slots = earlier ++ (slot, t) :: later) (r r' : Routine) (scope scope' : Scope) :
    let before := r.layout scope p
    let after := r'.layout scope' p'
    (p.slotPort? slot = none → after.inputs = before.inputs) ∧
    ∀ port, p.slotPort? slot = some port →
      after.inputs.filter (·.port ≠ port) = before.inputs.filter (·.port ≠ port) ∧
      after.inputs.filter (·.port = port) =
        if v = none then [⟨port, .value s.type, true⟩] else [] := by
  intro before after
  rcases portedSlots_cases hform hbefore hafter with ⟨rest, hported, hported'⟩ | ⟨hcomplement, rfl, hsame⟩
  · obtain ⟨first, last, port, hport, hothers, hinputs, hinputs'⟩ := exists_inputs_layout hp hform hported
      hported' (TypedSlot.type_assign? hassign) r r' scope scope'
    rw [TypedSlot.literal?_assign? hassign] at hinputs'
    have hown : ∀ literal, ∀ x ∈ Layout.operandPort port s.type literal, x.port = port := by
      intro literal x hx
      rw [(Layout.mem_operandPort.mp hx).2]
      rfl
    refine ⟨fun hnone => absurd (hport.symm.trans hnone) (Option.some_ne_none port), ?_⟩
    intro port' hport'
    obtain rfl := Option.some.inj (hport.symm.trans hport')
    rw [hinputs, hinputs', (Layout.filter_port hothers (hown _)).1, (Layout.filter_port hothers (hown _)).1,
      (Layout.filter_port hothers (hown v)).2]
    refine ⟨rfl, ?_⟩
    cases v <;> rfl
  · obtain ⟨hp', hflow, hbase, -⟩ := hform.frame
    have hnone := slotPort?_right hcomplement
    refine ⟨fun _ => ?_, fun port hport => absurd (hport.symm.trans hnone) (Option.some_ne_none port)⟩
    rw [inputs_layout hp, inputs_layout hp', hflow, hbase, hsame]

end Slot

end Payload

namespace NodeMap

theorem apply_setLiteral {m : NodeMap} {id : NodeId} {n : Node} (hn : m.get? id = some n) (slot : String)
    (v : Option Literal) :
    (NodeEdit.setLiteral id slot v).apply m =
      (n.payload.setLiteral id slot v).map fun payload => (m.insert id { n with payload }, id) := by
  have hfind : m.find id = .ok n := by rw [find, hn]
  simp only [NodeEdit.apply, hfind, bind, Except.bind]
  cases n.payload.setLiteral id slot v <;> rfl

theorem ids_insert {m : NodeMap} {id : NodeId} {n : Node} (hn : m.get? id = some n) (n' : Node) :
    (m.insert id n').ids = m.ids := by
  obtain ⟨earlier, later, hentries, hput⟩ := exists_put_eq m.sorted hn
  have hinsert : (m.insert id n').entries = earlier ++ (id, n') :: later := hput n'
  simp [ids, hinsert, hentries]

/-- Setting a literal of a call, an operation or a condition succeeds exactly when the slot is there and
may hold the literal. Then all other nodes and all else about this one are as before, apart from what the
slot holds. Of its ports only the slot's own comes or goes, and it is there when the slot holds nothing.
Any other node stays as it is. -/
theorem setLiteral_exact {m : NodeMap} {id : NodeId} {n : Node} (hn : m.get? id = some n) (slot : String)
    (v : Option Literal) :
    let edit := NodeEdit.setLiteral id slot v
    (n.payload.takesLiterals = false → edit.apply m = .ok (m, id)) ∧
    (n.payload.takesLiterals = true →
      ((∃ result, edit.apply m = .ok result) ↔
        ∃ s, (slot, s) ∈ n.payload.slots ∧ s.type.Admits v) ∧
      ∀ m' id', edit.apply m = .ok (m', id') →
        id' = id ∧ m'.ids = m.ids ∧ (∀ other, other ≠ id → m'.get? other = m.get? other) ∧
        ∃ p' s, m'.get? id = some { n with payload := p' } ∧ (slot, s) ∈ n.payload.slots ∧
          n.payload.SameForm p' ∧
          (p'.slots.map fun e => (e.1, e.2.type, e.2.literal?)) =
            (n.payload.slots.map fun e =>
              (e.1, e.2.type, if e.1 = slot then v else e.2.literal?)) ∧
          (n.payload.slotPort? slot = none ↔
            slot = "right" ∧ ∃ ops, n.payload = .operation (.uint64 .not ops)) ∧
          ∀ (r r' : Routine) (scope scope' : Scope),
            let before := r.layout scope n.payload
            let after := r'.layout scope' p'
            after.outputs = before.outputs ∧
            after.anyInput = before.anyInput ∧ after.anyOutput = before.anyOutput ∧
            (n.payload.slotPort? slot = none → after.inputs = before.inputs) ∧
            ∀ port, n.payload.slotPort? slot = some port →
              after.inputs.filter (·.port ≠ port) = before.inputs.filter (·.port ≠ port) ∧
              after.inputs.filter (·.port = port) =
                if v = none then [⟨port, .value s.type, true⟩] else []) := by
  intro edit
  have happly := apply_setLiteral hn slot v
  refine ⟨?_, ?_⟩
  · intro hother
    rw [happly, Payload.setLiteral_of_slotless hother]
    change Except.ok (m.insert id n, id) = Except.ok (m, id)
    rw [insert_of_get? hn]
  · intro htakes
    refine ⟨?_, ?_⟩
    · rw [← Payload.exists_setLiteral_iff htakes id slot v, happly]
      cases n.payload.setLiteral id slot v <;> simp [Except.map]
    · intro m' id' hdone
      rw [happly] at hdone
      obtain ⟨p', hp', heq⟩ := exists_ok_of_map hdone
      obtain ⟨rfl, rfl⟩ := Prod.mk.inj heq
      obtain ⟨hform, earlier, later, s, t, hassign, hbefore, hafter⟩ :=
        Payload.exists_slot_of_setLiteral htakes hp'
      have hslot : (slot, s) ∈ n.payload.slots := by
        rw [hbefore]
        exact List.mem_append_right _ List.mem_cons_self
      refine ⟨rfl, ids_insert hn _, ?_, p', s, ?_, hslot, hform, Payload.contents_eq hassign hbefore hafter,
        Payload.slotPort?_eq_none_iff hform hbefore hafter, ?_⟩
      · intro other hne
        rw [get?_insert, if_neg hne]
      · rw [get?_insert, if_pos rfl]
      · intro r r' scope scope' before after
        obtain ⟨houtputs, hanyInput, hanyOutput⟩ := hform.outputs_layout r r' scope scope'
        exact ⟨houtputs, hanyInput, hanyOutput,
          Payload.inputs_of_slot htakes hform hassign hbefore hafter r r' scope scope'⟩

/-- The value that a call stores is set: its port goes, and that of the key stays. -/
theorem setLiteral_exact_store :
    let store : Node := .ofPayload "Store" (.ofBuiltin .store)
    let m : NodeMap := .ofList [(0, .start), (7, store)]
    m.get? 7 = some store ∧
      ∃ m' p', (NodeEdit.setLiteral 7 "value" (some (.number 5))).apply m = .ok (m', 7) ∧
        m'.get? 0 = some .start ∧ m'.get? 7 = some { store with payload := p' } ∧
        ∀ (r : Routine) (scope : Scope),
          (r.layout scope p').inputs.filter (·.port = 3) = [] ∧
          (r.layout scope p').inputs.filter (·.port ≠ 3) =
            (r.layout scope store.payload).inputs.filter (·.port ≠ 3) := by
  intro store m
  have hn : m.get? 7 = some store := by decide +kernel
  obtain ⟨-, hexact⟩ := setLiteral_exact hn "value" (some (.number 5))
  obtain ⟨haccepted, hdone⟩ := hexact rfl
  obtain ⟨⟨m', id'⟩, hok⟩ := haccepted.mpr ⟨.any none, by decide +kernel, fun _ _ => .inl rfl⟩
  obtain ⟨rfl, -, hothers, p', s, hp', -, -, -, -, hlayout⟩ := hdone m' id' hok
  refine ⟨hn, m', p', hok, (hothers 0 (by decide)).trans (by decide +kernel), hp', ?_⟩
  intro r scope
  obtain ⟨-, -, -, -, hports⟩ := hlayout r r scope scope
  obtain ⟨hrest, hown⟩ := hports 3 (by decide +kernel)
  exact ⟨hown, hrest⟩

end NodeMap

end FlowBasic
