import FlowBasic.Json.Numeral
import FlowBasic.Json.Quoted

namespace FlowBasic

inductive Json where
  | null
  | bool (b : Bool)
  | number (n : Numeral)
  | text (q : Quoted)
  | array (items : List Json)
  | object (fields : List (Quoted × Json))

namespace Json

def ofString (s : String) : Json := text (.ofString s)

def ofNat (n : Nat) : Json := number (.ofNat n)

/-- Fields by name, in the given order. -/
def ofFields (fs : List (String × Json)) : Json := object (fs.map fun f => (.ofString f.1, f.2))

/-- A double that is not finite has no numeral. -/
def ofDouble (x : Float) : Json := if Binary.isFinite x then number (.ofDouble x) else null

def bracketed (opening closing : Char) (body : List Char) : List Char := opening :: (body ++ [closing])

mutual

/-- The text of a value without any spaces. -/
def compact : Json → List Char
  | null => ['n', 'u', 'l', 'l']
  | bool true => ['t', 'r', 'u', 'e']
  | bool false => ['f', 'a', 'l', 's', 'e']
  | number n => n.chars
  | text q => q.chars
  | array items => bracketed '[' ']' (compactItems items)
  | object fields => bracketed '\x7b' '\x7d' (compactFields fields)

def compactItems : List Json → List Char
  | [] => []
  | [v] => compact v
  | v :: w :: rest => compact v ++ ',' :: compactItems (w :: rest)

def compactFields : List (Quoted × Json) → List Char
  | [] => []
  | [(k, v)] => k.chars ++ ':' :: compact v
  | (k, v) :: f :: rest => k.chars ++ ':' :: (compact v ++ ',' :: compactFields (f :: rest))

end

/-- A line break, then two spaces for each level. -/
def newline (level : Nat) : List Char := '\n' :: List.replicate (2 * level) ' '

mutual

/-- The text of a value with one item or field on a line; what is empty stays on one line. -/
def pretty (level : Nat) : Json → List Char
  | null => ['n', 'u', 'l', 'l']
  | bool true => ['t', 'r', 'u', 'e']
  | bool false => ['f', 'a', 'l', 's', 'e']
  | number n => n.chars
  | text q => q.chars
  | array [] => ['[', ']']
  | array (v :: rest) => bracketed '[' ']' (prettyItems (level + 1) (v :: rest) ++ newline level)
  | object [] => ['\x7b', '\x7d']
  | object (f :: rest) => bracketed '\x7b' '\x7d' (prettyFields (level + 1) (f :: rest) ++ newline level)

def prettyItems (level : Nat) : List Json → List Char
  | [] => []
  | [v] => newline level ++ pretty level v
  | v :: w :: rest => newline level ++ pretty level v ++ ',' :: prettyItems level (w :: rest)

def prettyFields (level : Nat) : List (Quoted × Json) → List Char
  | [] => []
  | [(k, v)] => newline level ++ k.chars ++ ':' :: ' ' :: pretty level v
  | (k, v) :: f :: rest =>
    newline level ++ k.chars ++ ':' :: ' ' :: (pretty level v ++ ',' :: prettyFields level (f :: rest))

end

def compactText (v : Json) : String := String.ofList v.compact

def prettyText (v : Json) : String := String.ofList (v.pretty 0)

end Json

end FlowBasic
