import FlowBasic.Json.Tree
import FlowBasic.Table

namespace FlowBasic

namespace Json

mutual

/-- Whether a value can be held back: all its texts decode, all its numbers are doubles, and it opens at
most `room` brackets within each other. -/
def readable : Nat → Json → Bool
  | _, null => true
  | _, bool _ => true
  | _, number n => n.double?.isSome
  | _, text q => q.chars?.isSome
  | 0, array _ => false
  | room + 1, array items => readableItems room items
  | 0, object _ => false
  | room + 1, object fields => readableFields room fields

def readableItems (room : Nat) : List Json → Bool
  | [] => true
  | v :: rest => readable room v && readableItems room rest

def readableFields (room : Nat) : List (Quoted × Json) → Bool
  | [] => true
  | (k, v) :: rest => k.chars?.isSome && readable room v && readableFields room rest

end

def text? : Json → Option String
  | text q => q.text?
  | _ => none

def bool? : Json → Option Bool
  | bool b => some b
  | _ => none

def double? : Json → Option Float
  | number n => n.double?
  | _ => none

/-- A natural number below a bound. -/
def natural? (bound : Nat) : Json → Option Nat
  | number n => n.natural?.filter (· < bound)
  | _ => none

def items? : Json → Option (List Json)
  | array items => some items
  | _ => none

/-- The fields of an object by their names. -/
def named? : Json → Option (List (String × Json))
  | object fields => fields.mapM fun f => do return (← f.1.text?, f.2)
  | _ => none

/-- The value of a name that is given once or not at all. -/
def only? (fields : List (String × Json)) (name : String) : Option (Option Json) :=
  match fields.filter (·.1 = name) with
  | [] => some none
  | [f] => some (some f.2)
  | _ => none

/-- The declared fields of an object, in the order of declaration; others do not count. -/
def objectFields? (names : List String) (v : Json) : Option (List (Option Json)) := do
  let fields ← v.named?
  names.mapM (only? fields)

/-- The declared fields of a record, which is an object, or an array that gives the first of them. -/
def fields? (names : List String) : Json → Option (List (Option Json))
  | array items =>
    if items.length ≤ names.length then
      some (items.map some ++ List.replicate (names.length - items.length) none)
    else none
  | v => v.objectFields? names

/-- A table, with its values read one by one. -/
def table? (read : Json → Option α) (v : Json) : Option (Table α) := do
  let fields ← v.named?
  let entries ← fields.mapM fun f => do return (f.1, ← read f.2)
  return Table.ofList entries

end Json

/-- A field that has to be there. -/
def required (read : Json → Option α) (field : Option Json) : Option α := field.bind read

/-- A field that may be left out. -/
def optional (default : α) (read : Json → Option α) : Option Json → Option α
  | none => some default
  | some v => read v

/-- How a value is read: straight from the text, with room for a number of brackets, or held back. -/
inductive Mode where
  | direct (room : Nat)
  | held
deriving DecidableEq

namespace Mode

/-- A document opens at most this many brackets within each other. -/
def document : Mode := direct 127

/-- The mode for the parts of a value. -/
def inner : Mode → Mode
  | direct room => direct (room - 1)
  | held => held

def allows (v : Json) : Mode → Bool
  | direct room => v.readable room
  | held => true

/-- A name is a text, or the only field of an object with an empty value. -/
def name? (m : Mode) : Json → Option String
  | .text q => q.text?
  | .object [(q, .null)] => q.text?
  | .object [(q, .object [])] => if m = held then q.text? else none
  | _ => none

/-- One of several things by its name. -/
def oneOf? (m : Mode) (all : List α) (name : α → String) (v : Json) : Option α := do
  let n ← m.name? v
  all.find? (fun a => name a = n)

/-- A tag is one of the names; held back, it may also be the place of the name. -/
def tag? (m : Mode) (names : List String) : Json → Option String
  | .text q => q.text?.filter names.contains
  | .number n => if m = held then n.natural?.bind (names[·]?) else none
  | _ => none

/-- The tag of a tagged value, and the fields that belong to it. -/
def tagged? (m : Mode) (names : List String) (v : Json) : Option (String × Json) := do
  guard (m.allows v)
  match v with
  | .array (tag :: rest) => return (← m.tag? names tag, .array rest)
  | .object fields =>
    let isTag (f : Quoted × Json) : Bool := f.1.text? = some "type"
    match fields.filter isTag with
    | [tag] => return (← m.tag? names tag.2, .object (fields.filter (!isTag ·)))
    | _ => none
  | _ => none

end Mode

/-- A tag without fields of its own. -/
def bare (a : α) : Json → Option α
  | .object _ => some a
  | .array [] => some a
  | _ => none

end FlowBasic
