import FlowBasic.Proofs.NumeralTexts
import Mathlib.Data.List.Forall2

namespace FlowBasic

/-- A character that stands for itself needs no escape. -/
def Piece.WellFormed : Piece → Prop
  | .plain c => c ≠ '"' ∧ c ≠ '\\' ∧ Quoted.isControl c = false
  | _ => True

namespace Quoted

def WellFormed (q : Quoted) : Prop := ∀ p ∈ q, p.WellFormed

theorem wellFormed_pieceOf (c : Char) : (pieceOf c).WellFormed := by
  rw [pieceOf]
  split
  · exact trivial
  · next hnone =>
    split
    · exact trivial
    · next hcontrol =>
      rw [Escape.ofMeaning?, List.find?_eq_none] at hnone
      have hquote := hnone .quote (by decide)
      have hbackslash := hnone .backslash (by decide)
      exact ⟨fun heq => hquote (decide_eq_true heq.symm), fun heq => hbackslash (decide_eq_true heq.symm),
        by simpa using hcontrol⟩

theorem wellFormed_ofString (s : String) : (ofString s).WellFormed := by
  intro p hp
  obtain ⟨c, -, rfl⟩ := List.mem_map.mp hp
  exact wellFormed_pieceOf c

theorem hexDigit?_hexChar : ∀ n < 16, hexDigit? (hexChar n) = some n := by decide

end Quoted

/-- The spellings of one element of a literal; the digits of a unit may be large letters. -/
inductive Piece.Spelt : Piece → List Char → Prop
  | plain {c : Char} (h : (Piece.plain c).WellFormed) : Spelt (.plain c) [c]
  | escape (e : Escape) : Spelt (.escape e) ['\\', e.letter]
  | unit {c₁ c₂ c₃ c₄ : Char} {d₁ d₂ d₃ d₄ : Nat} (h₁ : Quoted.hexDigit? c₁ = some d₁)
      (h₂ : Quoted.hexDigit? c₂ = some d₂) (h₃ : Quoted.hexDigit? c₃ = some d₃)
      (h₄ : Quoted.hexDigit? c₄ = some d₄) :
      Spelt (.unit (UInt16.ofNat (4096 * d₁ + 256 * d₂ + 16 * d₃ + d₄))) ['\\', 'u', c₁, c₂, c₃, c₄]

theorem Piece.WellFormed.spelt {p : Piece} (h : p.WellFormed) : p.Spelt (Quoted.pieceChars p) := by
  cases p with
  | plain c => exact .plain h
  | escape e => exact .escape e
  | unit u =>
    have hu : u.toNat < 65536 := u.toNat_lt
    have hdigits : 4096 * (u.toNat / 4096) + 256 * (u.toNat / 256 % 16) + 16 * (u.toNat / 16 % 16) +
        u.toNat % 16 = u.toNat := by omega
    have hspelt := Spelt.unit (Quoted.hexDigit?_hexChar (u.toNat / 4096) (by omega))
      (Quoted.hexDigit?_hexChar (u.toNat / 256 % 16) (by omega))
      (Quoted.hexDigit?_hexChar (u.toNat / 16 % 16) (by omega)) (Quoted.hexDigit?_hexChar (u.toNat % 16) (by omega))
    rwa [hdigits, UInt16.ofNat_toNat] at hspelt

/-- The spellings of a literal without its quotes. -/
inductive Quoted.Inside : Quoted → List Char → Prop
  | nil : Inside [] []
  | cons {p : Piece} {q : Quoted} {l cs : List Char} (hp : p.Spelt l) (hq : Inside q cs) :
      Inside (p :: q) (l ++ cs)

namespace Quoted

theorem WellFormed.inside {q : Quoted} (h : q.WellFormed) : q.Inside (q.flatMap pieceChars) := by
  induction q with
  | nil => exact .nil
  | cons p q ih =>
    exact .cons (h p List.mem_cons_self).spelt (ih fun p hp => h p (List.mem_cons_of_mem _ hp))

theorem Inside.concat {q : Quoted} {cs : List Char} (h : q.Inside cs) {p : Piece} {l : List Char}
    (hp : p.Spelt l) : Inside (q ++ [p]) (cs ++ l) := by
  induction h with
  | nil =>
    rw [List.nil_append, List.nil_append, ← List.append_nil l]
    exact .cons hp .nil
  | cons hfirst _ ih =>
    rw [List.append_assoc]
    exact .cons hfirst ih

end Quoted

namespace Scan

theorem scan_piece {p : Piece} {l : List Char} (h : p.Spelt l) (read : List Piece) (done : List Token) :
    l.foldlM advance (text read, done) = some (text (p :: read), done) := by
  cases h with
  | plain h =>
    obtain ⟨hquote, hbackslash, hcontrol⟩ := h
    simp [advance, step, hquote, hbackslash, hcontrol]
  | escape e =>
    have hletter : e.letter ≠ 'u' := by cases e <;> decide
    simp [advance, step, hletter, Escape.ofLetter?_letter]
  | unit h₁ h₂ h₃ h₄ => simp [advance, step, h₁, h₂, h₃, h₄]

theorem scan_pieces {q : Quoted} {cs : List Char} (h : q.Inside cs) (read : List Piece) (done : List Token) :
    cs.foldlM advance (text read, done) = some (text (q.reverse ++ read), done) := by
  induction h generalizing read with
  | nil => rfl
  | @cons p q l cs hp _ ih =>
    rw [List.foldlM_append, scan_piece hp]
    show cs.foldlM advance _ = _
    rw [ih]
    simp

theorem scan_literal {q : Quoted} {cs : List Char} (h : q.Inside cs) (done : List Token) :
    ('"' :: (cs ++ ['"'])).foldlM advance (between, done) = some (between, .text q :: done) := by
  have hpieces := scan_pieces h [] done
  rw [List.append_nil] at hpieces
  show (cs ++ ['"']).foldlM advance (text [], done) = _
  rw [List.foldlM_append, hpieces]
  show advance (text q.reverse, done) '"' >>= pure = _
  simp [advance, step]

theorem scan_numeral {cs : List Char} (h : ∀ c ∈ cs, isNumeralChar c = true) (read : List Char)
    (done : List Token) :
    cs.foldlM advance (number read, done) = some (number (cs.reverse ++ read), done) := by
  induction cs generalizing read with
  | nil => rfl
  | cons c cs ih =>
    have hc := h c List.mem_cons_self
    rw [List.foldlM_cons]
    simp only [advance, step, hc, if_true, Option.map_some, List.nil_append]
    show cs.foldlM advance _ = _
    rw [ih fun c hc => h c (List.mem_cons_of_mem _ hc)]
    simp

end Scan

namespace Token

def chars : Token → List Char
  | openArray => ['[']
  | closeArray => [']']
  | openObject => ['\x7b']
  | closeObject => ['\x7d']
  | colon => [':']
  | comma => [',']
  | null => ['n', 'u', 'l', 'l']
  | bool true => ['t', 'r', 'u', 'e']
  | bool false => ['f', 'a', 'l', 's', 'e']
  | number n => n.chars
  | text q => q.chars

def WellFormed : Token → Prop
  | number n => n.WellFormed
  | text q => q.WellFormed
  | _ => True

/-- The spellings of a token. -/
def Spelt : Token → List Char → Prop
  | number n, l => n.Spelt l
  | text q, l => ∃ cs, q.Inside cs ∧ l = '"' :: (cs ++ ['"'])
  | t, l => l = t.chars

theorem WellFormed.spelt {t : Token} (h : t.WellFormed) : t.Spelt t.chars := by
  cases t with
  | number n => exact Numeral.WellFormed.spelt h
  | text q => exact ⟨_, Quoted.WellFormed.inside h, rfl⟩
  | bool b => cases b <;> rfl
  | _ => rfl

/-- Whether a token is complete before a character: a word or a number goes on as far as it can. -/
def endsBefore (c : Char) : Token → Bool
  | null | bool _ => !c.isLower
  | number _ => !Scan.isNumeralChar c
  | _ => true

end Token

/-- A text writes tokens one after the other. -/
inductive Spells : List Token → List Char → Prop
  | nil : Spells [] []
  | space {c : Char} {ts : List Token} {cs : List Char} (hc : Scan.isSpace c = true) (h : Spells ts cs) :
      Spells ts (c :: cs)
  | token {t : Token} {l : List Char} {ts : List Token} {cs : List Char} (ht : t.Spelt l)
      (hend : ∀ c ∈ cs.head?, t.endsBefore c = true) (h : Spells ts cs) : Spells (t :: ts) (l ++ cs)

namespace Scan

/-- The tokens of a text, after some that stand before it; latest first. -/
def tokens? (s : Scan × List Token) (cs : List Char) : Option (List Token) := do
  let (s, done) ← cs.foldlM advance s
  let last ← s.finish
  return last ++ done

theorem scan_eq (cs : List Char) : Token.scan cs = (tokens? (between, []) cs).map List.reverse := by
  simp only [Token.scan, tokens?]
  cases cs.foldlM advance (between, []) with
  | none => rfl
  | some s => cases hfinish : s.1.finish <;> simp [hfinish]

theorem tokens?_append {s s' : Scan × List Token} {cs : List Char} (h : cs.foldlM advance s = some s')
    (rest : List Char) : tokens? s (cs ++ rest) = tokens? s' rest := by
  rw [tokens?, List.foldlM_append, h]
  rfl

/-- A token that is complete before the next character is taken when that is read. -/
theorem tokens?_pending {s : Scan} {t : Token} {cs : List Char} (done : List Token)
    (hfinish : s.finish = some [t])
    (hstep : ∀ c ∈ cs.head?, s.step c = (start c).map fun r => (r.1, r.2 ++ [t])) :
    tokens? (s, done) cs = tokens? (between, t :: done) cs := by
  cases cs with
  | nil =>
    show (s.finish >>= fun last => pure (last ++ done)) = some (t :: done)
    rw [hfinish]
    rfl
  | cons c cs =>
    have hadvance : advance (s, done) c = advance (between, t :: done) c := by
      show (s.step c).map _ = (start c).map _
      rw [hstep c rfl, Option.map_map]
      congr 1
      funext r
      simp
    rw [tokens?, tokens?, List.foldlM_cons, List.foldlM_cons, hadvance]

theorem tokens?_word {read : List Char} {t : Token} (ht : wordToken? read.reverse = some t) {cs : List Char}
    (hend : ∀ c ∈ cs.head?, c.isLower = false) (done : List Token) :
    tokens? (word read, done) cs = tokens? (between, t :: done) cs := by
  have hfinish : finish (word read) = some [t] := by simp [finish, ht]
  refine tokens?_pending done hfinish ?_
  intro c hc
  rw [step, hend c hc, hfinish]
  cases start c <;> rfl

theorem tokens?_number {read : List Char} {n : Numeral} (hn : n.Spelt read.reverse) {cs : List Char}
    (hend : ∀ c ∈ cs.head?, isNumeralChar c = false) (done : List Token) :
    tokens? (number read, done) cs = tokens? (between, .number n :: done) cs := by
  have hfinish : finish (number read) = some [.number n] := by simp [finish, Numeral.ofChars?_spelt hn]
  refine tokens?_pending done hfinish ?_
  intro c hc
  rw [step, hend c hc, hfinish]
  cases start c <;> rfl

theorem tokens?_token {t : Token} {l : List Char} (ht : t.Spelt l) {cs : List Char}
    (hend : ∀ c ∈ cs.head?, t.endsBefore c = true) (done : List Token) :
    tokens? (between, done) (l ++ cs) = tokens? (between, t :: done) cs := by
  cases t with
  | openArray => cases ht; exact tokens?_append rfl cs
  | closeArray => cases ht; exact tokens?_append rfl cs
  | openObject => cases ht; exact tokens?_append rfl cs
  | closeObject => cases ht; exact tokens?_append rfl cs
  | colon => cases ht; exact tokens?_append rfl cs
  | comma => cases ht; exact tokens?_append rfl cs
  | null =>
    have hlower : ∀ c ∈ cs.head?, c.isLower = false := fun c hc => Bool.not_eq_true' _ ▸ hend c hc
    cases ht
    exact (tokens?_append rfl cs).trans (tokens?_word rfl hlower done)
  | bool b =>
    have hlower : ∀ c ∈ cs.head?, c.isLower = false := fun c hc => Bool.not_eq_true' _ ▸ hend c hc
    cases b <;> cases ht
    · exact (tokens?_append rfl cs).trans (tokens?_word rfl hlower done)
    · exact (tokens?_append rfl cs).trans (tokens?_word rfl hlower done)
  | number n =>
    have hnumeral : ∀ c ∈ cs.head?, isNumeralChar c = false := fun c hc => Bool.not_eq_true' _ ▸ hend c hc
    have hchars := Numeral.isNumeralChar_spelt ht
    obtain ⟨c, rest, rfl, hstart⟩ := Numeral.start_of_spelt ht
    have hscan : (c :: rest).foldlM advance (between, done) = some (number (c :: rest).reverse, done) := by
      rw [List.foldlM_cons, List.reverse_cons]
      simp only [advance, step, hstart, Option.map_some, List.nil_append]
      exact scan_numeral (fun c hc => hchars c (List.mem_cons_of_mem _ hc)) [c] done
    have hspelt : n.Spelt (c :: rest).reverse.reverse := (List.reverse_reverse _).symm ▸ ht
    exact (tokens?_append hscan cs).trans (tokens?_number hspelt hnumeral done)
  | text q =>
    obtain ⟨body, hbody, rfl⟩ := ht
    exact tokens?_append (scan_literal hbody done) cs

end Scan

/-- A text is scanned into the tokens that it spells. -/
theorem Spells.scan {ts : List Token} {cs : List Char} (h : Spells ts cs) : Token.scan cs = some ts := by
  have htokens : ∀ done, Scan.tokens? (.between, done) cs = some (ts.reverse ++ done) := by
    induction h with
    | nil => exact fun done => rfl
    | @space c ts cs hc _ ih =>
      intro done
      have hskip : [c].foldlM Scan.advance (.between, done) = some (.between, done) := by
        simp [Scan.advance, Scan.step, Scan.start, hc]
      exact (Scan.tokens?_append hskip cs).trans (ih done)
    | token ht hend _ ih =>
      intro done
      rw [Scan.tokens?_token ht hend, ih, List.reverse_cons, List.append_assoc]
      rfl
  rw [Scan.scan_eq, htokens []]
  simp

namespace Scan

/-- What stands in the text of the token that is under way. -/
inductive Pending : Scan → List Char → Prop
  | between : Pending between []
  | word (read : List Char) : Pending (word read) read.reverse
  | number (read : List Char) : Pending (number read) read.reverse
  | text {read : List Piece} {cs : List Char} (h : Quoted.Inside read.reverse cs) : Pending (text read) ('"' :: cs)
  | escape {read : List Piece} {cs : List Char} (h : Quoted.Inside read.reverse cs) :
      Pending (escape read) ('"' :: (cs ++ ['\\']))
  | unit {read : List Piece} {digits : List Nat} {cs hex : List Char} (h : Quoted.Inside read.reverse cs)
      (hhex : List.Forall₂ (fun c d => Quoted.hexDigit? c = some d) hex digits.reverse)
      (hlength : digits.length ≤ 3) : Pending (unit read digits) ('"' :: (cs ++ '\\' :: 'u' :: hex))

theorem spelt_of_wordToken? {cs : List Char} {t : Token} (h : wordToken? cs = some t) :
    t.Spelt cs ∧ ∀ c, t.endsBefore c = !c.isLower := by
  rw [wordToken?.eq_def] at h
  split at h
  · cases h; exact ⟨rfl, fun _ => rfl⟩
  · cases h; exact ⟨rfl, fun _ => rfl⟩
  · cases h; exact ⟨rfl, fun _ => rfl⟩
  · cases h

theorem spelt_of_finish_word {read : List Char} {last : List Token} (h : finish (word read) = some last) :
    ∃ t : Token, last = [t] ∧ t.Spelt read.reverse ∧ ∀ c, t.endsBefore c = !c.isLower := by
  obtain ⟨t, ht, rfl⟩ := Option.map_eq_some_iff.mp h
  exact ⟨t, rfl, spelt_of_wordToken? ht⟩

theorem spelt_of_finish_number {read : List Char} {last : List Token} (h : finish (number read) = some last) :
    ∃ t : Token, last = [t] ∧ t.Spelt read.reverse ∧ ∀ c, t.endsBefore c = !isNumeralChar c := by
  obtain ⟨n, hn, rfl⟩ := Option.map_eq_some_iff.mp h
  exact ⟨.number n, rfl, Numeral.ofChars?_eq_some_iff.mp hn, fun _ => rfl⟩

/-- A space, a mark, or the first character of a longer token. -/
theorem start_cases {c : Char} {s : Scan} {more : List Token} (h : start c = some (s, more)) :
    (isSpace c = true ∧ s = between ∧ more = []) ∨
      (∃ t : Token, t.Spelt [c] ∧ (∀ c, t.endsBefore c = true) ∧ s = between ∧ more = [t]) ∨
      (more = [] ∧ Pending s [c]) := by
  rw [start] at h
  obtain ⟨hspace, h⟩ | ⟨-, h⟩ := ite_eq_iff.mp h
  · cases h
    exact .inl ⟨hspace, rfl, rfl⟩
  obtain ⟨rfl, h⟩ | ⟨-, h⟩ := ite_eq_iff.mp h
  · cases h
    exact .inr (.inl ⟨.openArray, rfl, fun _ => rfl, rfl, rfl⟩)
  obtain ⟨rfl, h⟩ | ⟨-, h⟩ := ite_eq_iff.mp h
  · cases h
    exact .inr (.inl ⟨.closeArray, rfl, fun _ => rfl, rfl, rfl⟩)
  obtain ⟨rfl, h⟩ | ⟨-, h⟩ := ite_eq_iff.mp h
  · cases h
    exact .inr (.inl ⟨.openObject, rfl, fun _ => rfl, rfl, rfl⟩)
  obtain ⟨rfl, h⟩ | ⟨-, h⟩ := ite_eq_iff.mp h
  · cases h
    exact .inr (.inl ⟨.closeObject, rfl, fun _ => rfl, rfl, rfl⟩)
  obtain ⟨rfl, h⟩ | ⟨-, h⟩ := ite_eq_iff.mp h
  · cases h
    exact .inr (.inl ⟨.colon, rfl, fun _ => rfl, rfl, rfl⟩)
  obtain ⟨rfl, h⟩ | ⟨-, h⟩ := ite_eq_iff.mp h
  · cases h
    exact .inr (.inl ⟨.comma, rfl, fun _ => rfl, rfl, rfl⟩)
  obtain ⟨rfl, h⟩ | ⟨-, h⟩ := ite_eq_iff.mp h
  · cases h
    exact .inr (.inr ⟨rfl, .text .nil⟩)
  obtain ⟨-, h⟩ | ⟨-, h⟩ := ite_eq_iff.mp h
  · cases h
    exact .inr (.inr ⟨rfl, .number [c]⟩)
  obtain ⟨-, h⟩ | ⟨-, h⟩ := ite_eq_iff.mp h
  · cases h
    exact .inr (.inr ⟨rfl, .word [c]⟩)
  · cases h

/-- Within a token a character is taken in, or ends the token with it, or stands after the token. -/
theorem step_cases {s s' : Scan} {c : Char} {more : List Token} {cs : List Char} (hpending : Pending s cs)
    (hs : s ≠ between) (h : s.step c = some (s', more)) :
    (more = [] ∧ Pending s' (cs ++ [c])) ∨
      (∃ t : Token, t.Spelt (cs ++ [c]) ∧ (∀ c, t.endsBefore c = true) ∧ s' = between ∧ more = [t]) ∨
      (∃ t : Token, t.Spelt cs ∧ t.endsBefore c = true ∧
        ∃ first, start c = some (s', first) ∧ more = first ++ [t]) := by
  cases hpending with
  | between => exact absurd rfl hs
  | word read =>
    rw [step] at h
    split at h
    · cases h
      exact .inl ⟨rfl, List.reverse_cons ▸ .word _⟩
    · next hlower =>
      simp only [Option.bind_eq_bind, Option.bind_eq_some_iff] at h
      obtain ⟨last, hlast, ⟨s', first⟩, hstart, h⟩ := h
      obtain ⟨t, rfl, ht, hend⟩ := spelt_of_finish_word hlast
      cases h
      exact .inr (.inr ⟨t, ht, by simpa [hend] using hlower, first, hstart, rfl⟩)
  | number read =>
    rw [step] at h
    split at h
    · cases h
      exact .inl ⟨rfl, List.reverse_cons ▸ .number _⟩
    · next hnumeral =>
      simp only [Option.bind_eq_bind, Option.bind_eq_some_iff] at h
      obtain ⟨last, hlast, ⟨s', first⟩, hstart, h⟩ := h
      obtain ⟨t, rfl, ht, hend⟩ := spelt_of_finish_number hlast
      cases h
      exact .inr (.inr ⟨t, ht, by simpa [hend] using hnumeral, first, hstart, rfl⟩)
  | @text read body hbody =>
    rw [step] at h
    split_ifs at h with hquote hbackslash hcontrol
    · cases h
      exact .inr (.inl ⟨.text read.reverse, ⟨body, hbody, by rw [hquote]; rfl⟩, fun _ => rfl, rfl, rfl⟩)
    · cases h
      exact .inl ⟨rfl, hbackslash ▸ .escape hbody⟩
    · cases h
      have hpiece : Piece.Spelt (.plain c) [c] := .plain ⟨hquote, hbackslash, by simpa using hcontrol⟩
      exact .inl ⟨rfl, .text (List.reverse_cons ▸ hbody.concat hpiece)⟩
  | @escape read body hbody =>
    rw [step] at h
    split at h
    · next hu =>
      cases h
      refine .inl ⟨rfl, ?_⟩
      have hunit : Pending (unit read []) ('"' :: (body ++ '\\' :: 'u' :: [])) := .unit hbody .nil (by simp)
      simpa [hu] using hunit
    · obtain ⟨e, he, h⟩ := Option.map_eq_some_iff.mp h
      cases h
      have hletter : e.letter = c := by simpa using List.find?_some he
      refine .inl ⟨rfl, ?_⟩
      have htext : Pending (text (.escape e :: read)) ('"' :: (body ++ ['\\', e.letter])) :=
        .text (List.reverse_cons ▸ hbody.concat (.escape e))
      simpa [hletter] using htext
  | @unit read digits body hex hbody hhex hlength =>
    rw [step] at h
    obtain ⟨d, hd, h⟩ := Option.bind_eq_some_iff.mp h
    split at h
    · cases h
      obtain _ | ⟨h₁, _ | ⟨h₂, _ | ⟨h₃, _ | _⟩⟩⟩ := hhex
      refine .inl ⟨rfl, ?_⟩
      have htext := Pending.text (List.reverse_cons ▸ hbody.concat (.unit h₁ h₂ h₃ hd))
      simpa only [List.cons_append, List.append_assoc, List.nil_append] using htext
    · next hdigits =>
      cases h
      have hhex' := List.rel_append hhex (List.Forall₂.cons hd .nil)
      have hshort : digits.length ≠ 3 := fun hthree => by
        obtain ⟨a, b, c, rfl⟩ := List.length_eq_three.mp hthree
        exact hdigits _ _ _ rfl
      refine .inl ⟨rfl, ?_⟩
      have hunit : Pending (unit read (d :: digits)) ('"' :: (body ++ '\\' :: 'u' :: (hex ++ [c]))) :=
        .unit hbody (List.reverse_cons ▸ hhex') (by simp only [List.length_cons]; omega)
      simpa using hunit

theorem spelt_of_finish {s : Scan} {cs : List Char} (hpending : Pending s cs) {last : List Token}
    (h : s.finish = some last) : s = between ∧ last = [] ∨ ∃ t : Token, last = [t] ∧ t.Spelt cs := by
  cases hpending with
  | between =>
    cases h
    exact .inl ⟨rfl, rfl⟩
  | word =>
    obtain ⟨t, rfl, ht, -⟩ := spelt_of_finish_word h
    exact .inr ⟨t, rfl, ht⟩
  | number =>
    obtain ⟨t, rfl, ht, -⟩ := spelt_of_finish_number h
    exact .inr ⟨t, rfl, ht⟩
  | _ => cases h

/-- The tokens found from a space, a mark or the start of a token on, when those found after it are known. -/
theorem spells_start (done : List Token) {c : Char} {s : Scan} {more r : List Token} {cs : List Char}
    (h : start c = some (s, more))
    (hrest : ∀ l, Pending s l → ∃ ts, r = ts.reverse ++ (more ++ done) ∧ Spells ts (l ++ cs)) :
    ∃ ts, r = ts.reverse ++ done ∧ Spells ts (c :: cs) := by
  obtain ⟨hspace, rfl, rfl⟩ | ⟨t, ht, hend, rfl, rfl⟩ | ⟨rfl, hpending⟩ := start_cases h
  · obtain ⟨ts, hr, hts⟩ := hrest [] .between
    exact ⟨ts, hr, .space hspace hts⟩
  · obtain ⟨ts, hr, hts⟩ := hrest [] .between
    exact ⟨t :: ts, by simpa using hr, .token ht (fun c _ => hend c) hts⟩
  · exact hrest [c] hpending

theorem spells_of_tokens? {cs : List Char} {s : Scan} {done r : List Token} {l : List Char}
    (hpending : Pending s l) (h : tokens? (s, done) cs = some r) :
    ∃ ts, r = ts.reverse ++ done ∧ Spells ts (l ++ cs) := by
  induction cs generalizing s done l with
  | nil =>
    obtain ⟨last, hlast, h⟩ := Option.bind_eq_some_iff.mp h
    cases h
    obtain ⟨rfl, rfl⟩ | ⟨t, rfl, ht⟩ := spelt_of_finish hpending hlast
    · cases hpending
      exact ⟨[], rfl, .nil⟩
    · exact ⟨[t], rfl, .token ht (by simp) .nil⟩
  | cons c cs ih =>
    obtain ⟨s', more, hstep, hrest⟩ : ∃ s' more, s.step c = some (s', more) ∧
        tokens? (s', more ++ done) cs = some r := by
      cases hstep : s.step c with
      | none => simp [tokens?, advance, hstep] at h
      | some next => exact ⟨next.1, next.2, rfl, by simpa [tokens?, advance, hstep] using h⟩
    by_cases hs : s = between
    · subst hs
      cases hpending
      exact spells_start done hstep fun l hl => ih hl hrest
    · obtain ⟨rfl, hnext⟩ | ⟨t, ht, hend, rfl, rfl⟩ | ⟨t, ht, hend, first, hstart, rfl⟩ :=
        step_cases hpending hs hstep
      · obtain ⟨ts, hr, hts⟩ := ih hnext hrest
        exact ⟨ts, hr, by simpa using hts⟩
      · obtain ⟨ts, hr, hts⟩ := ih .between hrest
        exact ⟨t :: ts, by simpa using hr, by simpa using Spells.token ht (fun c _ => hend c) hts⟩
      · obtain ⟨ts, hr, hts⟩ := spells_start (t :: done) hstart fun l hl => by
          simpa using ih hl hrest
        refine ⟨t :: ts, by simpa using hr, .token ht ?_ hts⟩
        intro c' hc'
        obtain rfl : c = c' := by simpa using hc'
        exact hend

end Scan

/-- A text is scanned into the tokens that it spells and into no others. -/
theorem scan_eq_some_iff {cs : List Char} {ts : List Token} : Token.scan cs = some ts ↔ Spells ts cs := by
  refine ⟨fun h => ?_, Spells.scan⟩
  rw [Scan.scan_eq] at h
  obtain ⟨r, hr, rfl⟩ := Option.map_eq_some_iff.mp h
  obtain ⟨ts, rfl, hts⟩ := Scan.spells_of_tokens? .between hr
  simpa using hts

end FlowBasic
