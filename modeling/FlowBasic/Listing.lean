import FlowBasic.Link

namespace FlowBasic

inductive Diagnostic where
  | missingConnection (node : NodeId) (port : Nat)
  | unresolvedJump (node target : NodeId)
  | untypedVariable (name : String)
deriving DecidableEq

def Diagnostic.message : Diagnostic → String
  | missingConnection node port =>
    "node " ++ Decimal.text node.toNat ++ ": no expression on input " ++ Decimal.text port
  | unresolvedJump node target =>
    "node " ++ Decimal.text node.toNat ++ ": jump target " ++ Decimal.text target.toNat ++
      " has no line to land on, wrote 0"
  | untypedVariable name => "variable '" ++ name ++ "' has no concrete type and was not declared"

inductive Fragment where
  | text (s : String)
  | jump (target : NodeId)
deriving DecidableEq

abbrev Statement := List Fragment

namespace Statement

/-- Text after text makes one fragment. -/
def pushText (s : String) : Statement → Statement
  | [] => [.text s]
  | [.text t] => [.text (t ++ s)]
  | f :: fs => f :: pushText s fs

def pushJump (target : NodeId) (st : Statement) : Statement := st ++ [.jump target]

end Statement

/-- Lines of the preamble have no owner. -/
structure Line where
  owner : Option NodeId
  statement : Statement
deriving DecidableEq

structure Listing where
  header : String
  firstLine : Nat
  lines : List Line
  /-- The line where each node starts, latest first. -/
  starts : List (NodeId × Nat)
deriving DecidableEq

namespace Listing

def empty (header : String) (firstLine : Nat) : Listing := ⟨header, firstLine, [], []⟩

def nextLine (l : Listing) : Nat := l.firstLine + l.lines.length

/-- Line numbers are words of 64 bits, and sums of words. The largest sum is the number after the last
line: a listing fits when none of them overflows. -/
def Fits (l : Listing) : Prop := l.nextLine < UInt64.size

instance (l : Listing) : Decidable l.Fits := inferInstanceAs (Decidable (_ < _))

def pushPreamble (l : Listing) (text : String) : Listing :=
  { l with lines := l.lines ++ [⟨none, [.text text]⟩] }

/-- A node without statements starts where the next statement will stand. -/
def pushNode (l : Listing) (id : NodeId) (statements : List Statement) : Listing :=
  { l with
    lines := l.lines ++ statements.map (⟨some id, ·⟩)
    starts := (id, l.nextLine) :: l.starts }

theorem nextLine_pushNode (l : Listing) (id : NodeId) (statements : List Statement) :
    (l.pushNode id statements).nextLine = l.nextLine + statements.length := by
  simp [nextLine, pushNode, Nat.add_assoc]

/-- The line that a jump leads to, if one of the listing's lines starts there. -/
def resolve? (l : Listing) (target : NodeId) : Option Nat :=
  (l.starts.lookup target).filter (· < l.nextLine)

/-- A jump that leads nowhere is written as line zero. -/
def fragmentText (l : Listing) : Fragment → String
  | .text s => s
  | .jump target => Decimal.text ((l.resolve? target).getD 0)

def statementText (l : Listing) (st : Statement) : String := String.join (st.map l.fragmentText)

def lineTexts (l : Listing) : Nat → List Line → List String
  | _, [] => []
  | n, line :: rest =>
    (Decimal.text n ++ "\t" ++ l.statementText line.statement ++ "\n") :: lineTexts l (n + 1) rest

def code (l : Listing) : String :=
  l.header ++ "\n" ++ String.join (l.lineTexts l.firstLine l.lines) ++ "End Function"

/-- The jumps of a line that lead nowhere; a line without an owner blames the target. -/
def unresolvedIn (l : Listing) (line : Line) : List Diagnostic :=
  line.statement.filterMap fun
    | .text _ => none
    | .jump target =>
      if (l.resolve? target).isNone then some (.unresolvedJump (line.owner.getD target) target) else none

def unresolved (l : Listing) : List Diagnostic := l.lines.flatMap l.unresolvedIn

end Listing

end FlowBasic
