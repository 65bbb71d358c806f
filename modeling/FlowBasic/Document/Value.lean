import FlowBasic.Json.Read
import FlowBasic.Operation

namespace FlowBasic

def ValueType.all : List ValueType := [uint64, string, any]

def ValueType.toJson (t : ValueType) : Json := .ofString t.name

def ValueType.ofJson? (m : Mode) (v : Json) : Option ValueType := m.oneOf? all name v

namespace Literal

def toJson : Literal → Json
  | number n => .ofNat n.toNat
  | text s => .ofString s

def ofJson? : Json → Option Literal
  | .number n => (Json.number n |>.natural? UInt64.size).map fun n => number n.toUInt64
  | .text q => q.text?.map text
  | _ => none

end Literal

namespace Slot

def numberToJson (n : UInt64) : Json := .ofNat n.toNat

def number? (v : Json) : Option UInt64 := (v.natural? UInt64.size).map Nat.toUInt64

/-- An empty slot is null. -/
def toJson (write : α → Json) (content : Option α) : Json := content.elim .null write

def ofJson? (read : Json → Option α) : Json → Option (Option α)
  | .null => some none
  | v => (read v).map some

end Slot

namespace TypedSlot

def toJson (s : TypedSlot) : Json :=
  let content := match s with
    | uint64 c => Slot.toJson Slot.numberToJson c
    | string c => Slot.toJson Json.ofString c
    | any c => Slot.toJson Literal.toJson c
  .ofFields [("type", .ofString s.type.name), ("valueSet", content)]

def ofJson? (m : Mode) (v : Json) : Option TypedSlot := do
  let (tag, rest) ← m.tagged? ["Uint64", "String", "Variable"] v
  let [content] ← rest.fields? ["valueSet"] | none
  match tag with
  | "Uint64" => (optional none (Slot.ofJson? Slot.number?) content).map uint64
  | "String" => (optional none (Slot.ofJson? Json.text?) content).map string
  | _ => (optional none (Slot.ofJson? Literal.ofJson?) content).map any

end TypedSlot

namespace Operands

def toJson (write : α → Json) (ops : Operands α) : Json :=
  .ofFields [("left", Slot.toJson write ops.left), ("right", Slot.toJson write ops.right)]

def ofJson? (read : Json → Option α) (v : Json) : Option (Operands α) := do
  let [left, right] ← v.fields? ["left", "right"] | none
  return ⟨← optional none (Slot.ofJson? read) left, ← optional none (Slot.ofJson? read) right⟩

end Operands

/-- An operator and its operands under the type of the operands. -/
def operatorJson (t : ValueType) (symbol : String) (operands : Json) : Json :=
  .ofFields [("type", .ofString t.name), ("operator", .ofString symbol), ("valueSet", operands)]

namespace Operation

def toJson : Operation → Json
  | uint64 o ops => operatorJson .uint64 o.symbol (ops.toJson Slot.numberToJson)
  | string o ops => operatorJson .string o.symbol (ops.toJson Json.ofString)

def ofJson? (m : Mode) (v : Json) : Option Operation := do
  let (tag, rest) ← m.tagged? ["Uint64", "String"] v
  let [operator, operands] ← rest.fields? ["operator", "valueSet"] | none
  match tag with
  | "Uint64" =>
    return uint64 (← required (Mode.held.oneOf? Arithmetic.all Arithmetic.symbol) operator)
      (← optional .unset (Operands.ofJson? Slot.number?) operands)
  | _ =>
    return string (← required (Mode.held.oneOf? Concatenation.all Concatenation.symbol) operator)
      (← optional .unset (Operands.ofJson? Json.text?) operands)

end Operation

namespace Condition

def toJson : Condition → Json
  | uint64 o ops => operatorJson .uint64 o.symbol (ops.toJson Slot.numberToJson)
  | string o ops => operatorJson .string o.symbol (ops.toJson Json.ofString)

def ofJson? (m : Mode) (v : Json) : Option Condition := do
  let (tag, rest) ← m.tagged? ["Uint64", "String"] v
  let [operator, operands] ← rest.fields? ["operator", "valueSet"] | none
  match tag with
  | "Uint64" =>
    return uint64 (← required (Mode.held.oneOf? NumberComparison.all NumberComparison.symbol) operator)
      (← optional .unset (Operands.ofJson? Slot.number?) operands)
  | _ =>
    return string (← required (Mode.held.oneOf? TextComparison.all TextComparison.symbol) operator)
      (← optional .unset (Operands.ofJson? Json.text?) operands)

end Condition

end FlowBasic
