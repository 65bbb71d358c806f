namespace FlowBasic

/-- The characters with the Unicode property `White_Space`. -/
def isBlank (c : Char) : Bool :=
  let n := c.toNat
  (9 ≤ n && n ≤ 13) || n = 0x20 || n = 0x85 || n = 0xA0 || n = 0x1680 ||
    (0x2000 ≤ n && n ≤ 0x200A) || n = 0x2028 || n = 0x2029 || n = 0x202F || n = 0x205F || n = 0x3000

/-- Removes the blanks at both ends. -/
def trim (cs : List Char) : List Char :=
  ((cs.dropWhile isBlank).reverse.dropWhile isBlank).reverse

namespace RoutineName

def isTail (c : Char) : Bool := c.isAlphanum || c = '_'

/-- The normal form of a name; `none` when the trimmed text is no name. -/
def normalize? (isProcess : Bool) (text : List Char) : Option String :=
  match text with
  | [] => none
  | c :: cs =>
    if c.isAlpha && cs.all isTail then
      some (String.ofList ((if isProcess then c.toLower else c.toUpper) :: cs))
    else none

def trimmed (text : String) : List Char := trim text.toList

end RoutineName

end FlowBasic
