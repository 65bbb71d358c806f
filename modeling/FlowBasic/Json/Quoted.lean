namespace FlowBasic

/-- The escapes of one letter. -/
inductive Escape where
  | quote
  | backslash
  | slash
  | backspace
  | formFeed
  | newline
  | carriageReturn
  | tab
deriving DecidableEq

namespace Escape

def letter : Escape → Char
  | quote => '"'
  | backslash => '\\'
  | slash => '/'
  | backspace => 'b'
  | formFeed => 'f'
  | newline => 'n'
  | carriageReturn => 'r'
  | tab => 't'

def meaning : Escape → Char
  | quote => '"'
  | backslash => '\\'
  | slash => '/'
  | backspace => '\x08'
  | formFeed => '\x0c'
  | newline => '\n'
  | carriageReturn => '\r'
  | tab => '\t'

def all : List Escape :=
  [quote, backslash, slash, backspace, formFeed, newline, carriageReturn, tab]

def ofLetter? (c : Char) : Option Escape := all.find? (·.letter = c)

theorem ofLetter?_letter (e : Escape) : ofLetter? e.letter = some e := by
  cases e <;> decide

/-- The characters that have to be escaped and have a letter of their own. -/
def ofMeaning? (c : Char) : Option Escape :=
  [quote, backslash, backspace, formFeed, newline, carriageReturn, tab].find? (·.meaning = c)

end Escape

/-- One element of a string literal; a unit is a UTF-16 code unit in hexadecimal. -/
inductive Piece where
  | plain (c : Char)
  | escape (e : Escape)
  | unit (u : UInt16)
deriving DecidableEq

abbrev Quoted := List Piece

namespace Quoted

def isHigh (u : UInt16) : Bool := 0xD800 ≤ u && u ≤ 0xDBFF

def isLow (u : UInt16) : Bool := 0xDC00 ≤ u && u ≤ 0xDFFF

/-- The character beyond the first plane that two surrogates stand for. -/
def pair (high low : UInt16) : Char :=
  Char.ofNat (0x10000 + (high.toNat - 0xD800) * 0x400 + (low.toNat - 0xDC00))

/-- The text of a literal; a surrogate that has no partner stands for nothing. -/
def chars? : Quoted → Option (List Char)
  | [] => some []
  | .plain c :: ps => (chars? ps).map (c :: ·)
  | .escape e :: ps => (chars? ps).map (e.meaning :: ·)
  | .unit u :: .unit v :: ps =>
    if isHigh u && isLow v then (chars? ps).map (pair u v :: ·)
    else if isHigh u || isLow u then none
    else (chars? (.unit v :: ps)).map (Char.ofNat u.toNat :: ·)
  | .unit u :: ps =>
    if isHigh u || isLow u then none else (chars? ps).map (Char.ofNat u.toNat :: ·)

def text? (q : Quoted) : Option String := (chars? q).map String.ofList

/-- The characters of a literal that has no escapes. -/
def plain? : Quoted → Option (List Char)
  | [] => some []
  | .plain c :: ps => (plain? ps).map (c :: ·)
  | _ :: _ => none

def isControl (c : Char) : Bool := c.toNat < 0x20

def pieceOf (c : Char) : Piece :=
  match Escape.ofMeaning? c with
  | some e => .escape e
  | none => if isControl c then .unit c.toNat.toUInt16 else .plain c

/-- The literal of a text escapes quotes, backslashes and control characters only. -/
def ofString (s : String) : Quoted := s.toList.map pieceOf

theorem meaning_of_ofMeaning? {c : Char} {e : Escape} (h : Escape.ofMeaning? c = some e) :
    e.meaning = c := by
  simpa using List.find?_some h

theorem chars?_unit (u : UInt16) (ps : Quoted) (high : isHigh u = false) (low : isLow u = false) :
    chars? (.unit u :: ps) = (chars? ps).map (Char.ofNat u.toNat :: ·) := by
  rcases ps with _ | ⟨p, ps⟩
  · simp [chars?, high, low]
  · cases p <;> simp [chars?, high, low]

theorem chars?_pieceOf (c : Char) (ps : Quoted) :
    chars? (pieceOf c :: ps) = (chars? ps).map (c :: ·) := by
  unfold pieceOf
  split
  · next e h => simp [chars?, meaning_of_ofMeaning? h]
  · split
    · next control =>
      have hc : c.toNat < 0x20 := by simpa [isControl] using control
      have hn : c.toNat.toUInt16.toNat = c.toNat := by
        rw [Nat.toUInt16, UInt16.toNat_ofNat']
        omega
      have high : isHigh c.toNat.toUInt16 = false := by
        simp only [isHigh, Bool.and_eq_false_iff, decide_eq_false_iff_not, UInt16.le_iff_toNat_le, hn]
        exact .inl (by show ¬ 0xD800 ≤ c.toNat; omega)
      have low : isLow c.toNat.toUInt16 = false := by
        simp only [isLow, Bool.and_eq_false_iff, decide_eq_false_iff_not, UInt16.le_iff_toNat_le, hn]
        exact .inl (by show ¬ 0xDC00 ≤ c.toNat; omega)
      rw [chars?_unit _ _ high low, hn, Char.ofNat_toNat]
    · simp [chars?]

/-- A literal stands for the text that it was made of. -/
theorem text?_ofString (s : String) : text? (ofString s) = some s := by
  have h (cs : List Char) : chars? (cs.map pieceOf) = some cs := by
    induction cs with
    | nil => rfl
    | cons c cs ih => simp [chars?_pieceOf, ih]
  simp [text?, ofString, h]

def hexChar (n : Nat) : Char := if n < 10 then Char.ofNat (48 + n) else Char.ofNat (87 + n)

def hexDigit? (c : Char) : Option Nat :=
  let n := c.toNat
  if 48 ≤ n && n ≤ 57 then some (n - 48)
  else if 97 ≤ n && n ≤ 102 then some (n - 87)
  else if 65 ≤ n && n ≤ 70 then some (n - 55)
  else none

def pieceChars : Piece → List Char
  | .plain c => [c]
  | .escape e => ['\\', e.letter]
  | .unit u =>
    let n := u.toNat
    ['\\', 'u', hexChar (n / 4096), hexChar (n / 256 % 16), hexChar (n / 16 % 16), hexChar (n % 16)]

/-- The literal between its quotes. -/
def chars (q : Quoted) : List Char := '"' :: (q.flatMap pieceChars ++ ['"'])

end Quoted

end FlowBasic
