import FlowBasic.Decimal

namespace FlowBasic

/-- `any` stands for a type that is not known before the program runs. -/
inductive ValueType where
  | uint64
  | string
  | any
deriving DecidableEq, Repr

namespace ValueType

def name : ValueType → String
  | uint64 => "Uint64"
  | string => "String"
  | any => "Variable"

/-- Two types agree when they are equal or one of them is not known. -/
def compatible (a b : ValueType) : Bool :=
  a = b || a = any || b = any

theorem compatible_comm (a b : ValueType) : compatible a b = compatible b a := by
  cases a <;> cases b <;> rfl

end ValueType

inductive Literal where
  | number (n : UInt64)
  | text (s : String)
deriving DecidableEq

namespace Literal

def type : Literal → ValueType
  | number _ => .uint64
  | text _ => .string

/-- A text stands between quotes as it is. -/
def render : Literal → String
  | number n => Decimal.text n.toNat
  | text s => "\"" ++ s ++ "\""

def number? : Literal → Option UInt64
  | number n => some n
  | text _ => none

def text? : Literal → Option String
  | number _ => none
  | text s => some s

end Literal

/-- Restricts a slot's content to one kind of literal; an empty slot has every kind. -/
def narrow (kind? : Literal → Option α) : Option Literal → Option (Option α)
  | none => some none
  | some v => (kind? v).map some

/-- A slot of a fixed type, empty or holding a literal that the type allows. -/
inductive TypedSlot where
  | uint64 (content : Option UInt64)
  | string (content : Option String)
  | any (content : Option Literal)
deriving DecidableEq

namespace TypedSlot

def unset : ValueType → TypedSlot
  | .uint64 => uint64 none
  | .string => string none
  | .any => any none

def type : TypedSlot → ValueType
  | uint64 _ => .uint64
  | string _ => .string
  | any _ => .any

def literal? : TypedSlot → Option Literal
  | uint64 c => c.map .number
  | string c => c.map .text
  | any c => c

def isUnset (s : TypedSlot) : Bool := s.literal?.isNone

/-- Replaces the content; refused when the literal is not of the slot's type. -/
def assign? (v : Option Literal) : TypedSlot → Option TypedSlot
  | uint64 _ => (narrow Literal.number? v).map uint64
  | string _ => (narrow Literal.text? v).map string
  | any _ => some (any v)

theorem type_assign? {v : Option Literal} {s t : TypedSlot} (h : s.assign? v = some t) :
    t.type = s.type := by
  cases s <;> simp only [assign?, Option.map_eq_some_iff, Option.some.injEq] at h
  · obtain ⟨_, _, rfl⟩ := h; rfl
  · obtain ⟨_, _, rfl⟩ := h; rfl
  · subst h; rfl

theorem literal?_assign? {v : Option Literal} {s t : TypedSlot} (h : s.assign? v = some t) :
    t.literal? = v := by
  cases s <;> rcases v with _ | _ | _ <;>
    simp_all [assign?, narrow, literal?, Literal.number?, Literal.text?] <;> subst h <;> rfl

end TypedSlot

end FlowBasic
