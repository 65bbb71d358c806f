import FlowBasic.Value

namespace FlowBasic

inductive Side where
  | left
  | right
deriving DecidableEq

def Side.ofName? : String → Option Side
  | "left" => some .left
  | "right" => some .right
  | _ => none

structure Operands (α : Type) where
  left : Option α
  right : Option α
deriving DecidableEq

namespace Operands

def unset : Operands α := ⟨none, none⟩

def get (ops : Operands α) : Side → Option α
  | .left => ops.left
  | .right => ops.right

def set (ops : Operands α) (v : Option α) : Side → Operands α
  | .left => { ops with left := v }
  | .right => { ops with right := v }

theorem get_set (ops : Operands α) (v : Option α) (s t : Side) :
    (ops.set v s).get t = if t = s then v else ops.get t := by
  cases s <;> cases t <;> rfl

end Operands

inductive Arithmetic where
  | add
  | subtract
  | multiply
  | divide
  | modulo
  | and
  | or
  | xor
  | not
  | shiftRight
  | shiftLeft
deriving DecidableEq

def Arithmetic.symbol : Arithmetic → String
  | add => "+"
  | subtract => "-"
  | multiply => "*"
  | divide => "/"
  | modulo => "%"
  | and => "&"
  | or => "|"
  | xor => "^"
  | not => "!"
  | shiftRight => ">>"
  | shiftLeft => "<<"

def Arithmetic.all : List Arithmetic :=
  [add, subtract, multiply, divide, modulo, and, or, xor, not, shiftRight, shiftLeft]

inductive Concatenation where
  | concatenate
deriving DecidableEq

def Concatenation.symbol : Concatenation → String
  | concatenate => "+"

def Concatenation.all : List Concatenation := [concatenate]

inductive NumberComparison where
  | equal
  | greater
  | greaterOrEqual
  | lower
  | lowerOrEqual
  | different
deriving DecidableEq

def NumberComparison.symbol : NumberComparison → String
  | equal => "=="
  | greater => ">"
  | greaterOrEqual => ">="
  | lower => "<"
  | lowerOrEqual => "<="
  | different => "!="

def NumberComparison.all : List NumberComparison :=
  [equal, greater, greaterOrEqual, lower, lowerOrEqual, different]

inductive TextComparison where
  | equal
  | different
deriving DecidableEq

def TextComparison.symbol : TextComparison → String
  | equal => "=="
  | different => "!="

def TextComparison.all : List TextComparison := [equal, different]

inductive Operation where
  | uint64 (operator : Arithmetic) (operands : Operands UInt64)
  | string (operator : Concatenation) (operands : Operands String)
deriving DecidableEq

namespace Operation

def type : Operation → ValueType
  | uint64 .. => .uint64
  | string .. => .string

def symbol : Operation → String
  | uint64 o _ => o.symbol
  | string o _ => o.symbol

/-- The complement has a left operand only. -/
def isUnary : Operation → Bool
  | uint64 .not _ => true
  | _ => false

def operand? (s : Side) : Operation → Option Literal
  | uint64 _ ops => (ops.get s).map .number
  | string _ ops => (ops.get s).map .text

def assign? (s : Side) (v : Option Literal) : Operation → Option Operation
  | uint64 o ops => (narrow Literal.number? v).map fun c => uint64 o (ops.set c s)
  | string o ops => (narrow Literal.text? v).map fun c => string o (ops.set c s)

end Operation

inductive Condition where
  | uint64 (operator : NumberComparison) (operands : Operands UInt64)
  | string (operator : TextComparison) (operands : Operands String)
deriving DecidableEq

namespace Condition

/-- The type of the operands; the outcome is always a number. -/
def type : Condition → ValueType
  | uint64 .. => .uint64
  | string .. => .string

def symbol : Condition → String
  | uint64 o _ => o.symbol
  | string o _ => o.symbol

def operand? (s : Side) : Condition → Option Literal
  | uint64 _ ops => (ops.get s).map .number
  | string _ ops => (ops.get s).map .text

def assign? (s : Side) (v : Option Literal) : Condition → Option Condition
  | uint64 o ops => (narrow Literal.number? v).map fun c => uint64 o (ops.set c s)
  | string o ops => (narrow Literal.text? v).map fun c => string o (ops.set c s)

end Condition

end FlowBasic
