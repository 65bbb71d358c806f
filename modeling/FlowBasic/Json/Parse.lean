import FlowBasic.Json.Token

namespace FlowBasic

/-- The open brackets around a value, innermost first, with what was read in them before, latest first. -/
inductive Around where
  | top
  | item (before : List Json) (outer : Around)
  | field (before : List (Quoted × Json)) (key : Quoted) (outer : Around)

/-- What the parser waits for. -/
inductive Parse where
  | value (around : Around)
  | firstItem (outer : Around)
  | firstKey (outer : Around)
  | key (before : List (Quoted × Json)) (outer : Around)
  | colon (before : List (Quoted × Json)) (key : Quoted) (outer : Around)
  | done (v : Json) (around : Around)

namespace Parse

/-- A value begins. -/
def enter (around : Around) : Token → Option Parse
  | .openArray => some (firstItem around)
  | .openObject => some (firstKey around)
  | .null => some (done .null around)
  | .bool b => some (done (.bool b) around)
  | .number n => some (done (.number n) around)
  | .text q => some (done (.text q) around)
  | _ => none

def step : Parse → Token → Option Parse
  | value around, t => enter around t
  | firstItem outer, .closeArray => some (done (.array []) outer)
  | firstItem outer, t => enter (.item [] outer) t
  | firstKey outer, .closeObject => some (done (.object []) outer)
  | firstKey outer, .text k => some (colon [] k outer)
  | firstKey _, _ => none
  | key before outer, .text k => some (colon before k outer)
  | key .., _ => none
  | colon before k outer, .colon => some (value (.field before k outer))
  | colon .., _ => none
  | done v (.item before outer), .comma => some (value (.item (v :: before) outer))
  | done v (.item before outer), .closeArray => some (done (.array (v :: before).reverse) outer)
  | done v (.field before k outer), .comma => some (key ((k, v) :: before) outer)
  | done v (.field before k outer), .closeObject => some (done (.object ((k, v) :: before).reverse) outer)
  | done .., _ => none

/-- The value that is read when the text ends. -/
def result? : Parse → Option Json
  | done v .top => some v
  | _ => none

end Parse

namespace Json

def ofTokens? (ts : List Token) : Option Json := do
  let s ← ts.foldlM Parse.step (.value .top)
  s.result?

/-- The value of a text; `none` when the text is not well formed. -/
def parse? (text : String) : Option Json := do
  let ts ← Token.scan text.toList
  ofTokens? ts

end Json

end FlowBasic
