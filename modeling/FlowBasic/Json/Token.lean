import FlowBasic.Json.Tree

namespace FlowBasic

inductive Token where
  | openArray
  | closeArray
  | openObject
  | closeObject
  | colon
  | comma
  | null
  | bool (b : Bool)
  | number (n : Numeral)
  | text (q : Quoted)
deriving DecidableEq

/-- What the scanner is in the middle of; what it has read of it stands latest first. -/
inductive Scan where
  | between
  | word (read : List Char)
  | number (read : List Char)
  | text (read : List Piece)
  | escape (read : List Piece)
  | unit (read : List Piece) (digits : List Nat)
deriving DecidableEq

namespace Scan

def isSpace (c : Char) : Bool := c = ' ' || c = '\t' || c = '\n' || c = '\r'

def isNumeralChar (c : Char) : Bool :=
  c.isDigit || c = '-' || c = '+' || c = '.' || c = 'e' || c = 'E'

def wordToken? : List Char → Option Token
  | ['n', 'u', 'l', 'l'] => some .null
  | ['t', 'r', 'u', 'e'] => some (.bool true)
  | ['f', 'a', 'l', 's', 'e'] => some (.bool false)
  | _ => none

/-- Starts a token, or ends it at once. -/
def start (c : Char) : Option (Scan × List Token) :=
  if isSpace c then some (between, [])
  else if c = '[' then some (between, [.openArray])
  else if c = ']' then some (between, [.closeArray])
  else if c = '\x7b' then some (between, [.openObject])
  else if c = '\x7d' then some (between, [.closeObject])
  else if c = ':' then some (between, [.colon])
  else if c = ',' then some (between, [.comma])
  else if c = '"' then some (text [], [])
  else if c.isDigit || c = '-' then some (number [c], [])
  else if c.isLower then some (word [c], [])
  else none

/-- The token that ends where another begins or where the text ends. -/
def finish : Scan → Option (List Token)
  | between => some []
  | word read => (wordToken? read.reverse).map ([·])
  | number read => (Numeral.ofChars? read.reverse).map fun n => [.number n]
  | _ => none

/-- The next state and the tokens completed by a character, latest first. -/
def step (s : Scan) (c : Char) : Option (Scan × List Token) :=
  match s with
  | between => start c
  | word read =>
    if c.isLower then some (word (c :: read), [])
    else do
      let done ← finish (word read)
      let (next, more) ← start c
      return (next, more ++ done)
  | number read =>
    if isNumeralChar c then some (number (c :: read), [])
    else do
      let done ← finish (number read)
      let (next, more) ← start c
      return (next, more ++ done)
  | text read =>
    if c = '"' then some (between, [.text read.reverse])
    else if c = '\\' then some (escape read, [])
    else if Quoted.isControl c then none
    else some (text (.plain c :: read), [])
  | escape read =>
    if c = 'u' then some (unit read [], [])
    else (Escape.ofLetter? c).map fun e => (text (.escape e :: read), [])
  | unit read digits => do
    let d ← Quoted.hexDigit? c
    match digits with
    | [d₃, d₂, d₁] =>
      return (text (.unit (UInt16.ofNat (4096 * d₁ + 256 * d₂ + 16 * d₃ + d)) :: read), [])
    | _ => return (unit read (d :: digits), [])

/-- Carries the completed tokens along, latest first. -/
def advance (s : Scan × List Token) (c : Char) : Option (Scan × List Token) :=
  (s.1.step c).map fun r => (r.1, r.2 ++ s.2)

end Scan

def Token.scan (cs : List Char) : Option (List Token) := do
  let (s, done) ← cs.foldlM Scan.advance (.between, [])
  let last ← s.finish
  return (last ++ done).reverse

end FlowBasic
