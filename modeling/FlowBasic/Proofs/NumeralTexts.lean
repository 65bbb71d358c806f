import FlowBasic.Json.Token
import FlowBasic.Proofs.Doubles
import Mathlib.Data.Option.Basic

namespace FlowBasic

theorem Digit.char_of_ofChar? {c : Char} {d : Digit} (h : ofChar? c = some d) : d.char = c := by
  rw [ofChar?] at h
  split at h
  · next hrange =>
    obtain rfl := Option.some.inj h
    have hsum : 48 + (c.toNat - 48) = c.toNat := by omega
    rw [char, hsum, Char.ofNat_toNat]
  · cases h

namespace Numeral

def fractionChars (fraction : List Digit) : List Char :=
  if fraction.isEmpty then [] else '.' :: fraction.map Digit.char

/-- The spellings of an exponent; one that is not negative may have a plus. -/
inductive ExponentSpelt : Option Exponent → List Char → Prop
  | none : ExponentSpelt none []
  | some {e : Exponent} {mark : Char} {sign : List Char} (hmark : mark = 'e' ∨ mark = 'E')
      (hsign : sign = signChars e.negative ∨ e.negative = false ∧ sign = ['+']) (hdigits : e.digits ≠ []) :
      ExponentSpelt (some e) (mark :: (sign ++ e.digits.map Digit.char))

/-- The spellings of a numeral, whose whole part has no leading zeros. -/
def Spelt (n : Numeral) (cs : List Char) : Prop :=
  isWhole n.whole = true ∧ ∃ tail, ExponentSpelt n.exponent tail ∧
    cs = signChars n.negative ++ (n.whole.map Digit.char ++ (fractionChars n.fraction ++ tail))

/-- No digit comes first. -/
def NoDigit : List Char → Prop
  | [] => True
  | c :: _ => Digit.ofChar? c = none

theorem takeDigits_append (ds : List Digit) {rest : List Char} (h : NoDigit rest) :
    takeDigits (ds.map Digit.char ++ rest) = (ds, rest) := by
  induction ds with
  | nil =>
    cases rest with
    | nil => rfl
    | cons c rest =>
      have hc : Digit.ofChar? c = none := h
      simp [takeDigits, hc]
  | cons d ds ih => simp [takeDigits, Digit.ofChar?_char, ih]

theorem takeSign_append (plus negative : Bool) (d : Digit) (cs : List Char) :
    takeSign plus (signChars negative ++ d.char :: cs) = (negative, d.char :: cs) := by
  have hplus : d.char ≠ '+' := by revert d; decide
  have hminus : d.char ≠ '-' := by revert d; decide
  cases negative with
  | true => rfl
  | false =>
    show takeSign plus (d.char :: cs) = _
    rw [takeSign]
    · simp [hplus]
    · simpa using hminus

theorem takeExponent?_spelt {exponent : Option Exponent} {tail : List Char}
    (h : ExponentSpelt exponent tail) : takeExponent? tail = some (exponent, []) := by
  cases h with
  | none => rfl
  | @some e mark sign hmark hsign hdigits =>
    obtain ⟨negative, digits⟩ := e
    obtain ⟨d, ds, rfl⟩ := List.exists_cons_of_ne_nil hdigits
    have hmark : (decide (mark = 'e') || decide (mark = 'E')) = true := by simpa using hmark
    have htake : takeSign true (sign ++ (d :: ds).map Digit.char) = (negative, (d :: ds).map Digit.char) := by
      rcases hsign with rfl | ⟨rfl, rfl⟩
      · exact takeSign_append true negative d _
      · rfl
    have htakeDigits := takeDigits_map_char (d :: ds)
    rw [takeExponent?, if_pos hmark, htake]
    simp only [htakeDigits]
    rfl

theorem noDigit_exponent {exponent : Option Exponent} {tail : List Char}
    (h : ExponentSpelt exponent tail) : NoDigit tail := by
  cases h with
  | none => exact trivial
  | some hmark => rcases hmark with rfl | rfl <;> rfl

theorem noDigit_fraction (fraction : List Digit) {exponent : Option Exponent} {tail : List Char}
    (h : ExponentSpelt exponent tail) : NoDigit (fractionChars fraction ++ tail) := by
  cases fraction with
  | nil => exact noDigit_exponent h
  | cons => rfl

theorem takeFraction?_append (fraction : List Digit) {exponent : Option Exponent} {tail : List Char}
    (h : ExponentSpelt exponent tail) : takeFraction? (fractionChars fraction ++ tail) = some (fraction, tail) := by
  cases fraction with
  | nil =>
    cases h with
    | none => rfl
    | some hmark => rcases hmark with rfl | rfl <;> rfl
  | cons d ds =>
    have hdigits := takeDigits_append (d :: ds) (noDigit_exponent h)
    rw [List.map_cons, List.cons_append] at hdigits
    simp [fractionChars, takeFraction?, hdigits]

theorem ofChars?_spelt {n : Numeral} {cs : List Char} (h : n.Spelt cs) : ofChars? cs = some n := by
  obtain ⟨hwhole, tail, htail, rfl⟩ := h
  obtain ⟨negative, whole, fraction, exponent⟩ := n
  obtain ⟨d, ds, rfl⟩ : ∃ d ds, whole = d :: ds := by
    cases whole with
    | nil => cases hwhole
    | cons d ds => exact ⟨d, ds, rfl⟩
  have hsign := takeSign_append false negative d (ds.map Digit.char ++ (fractionChars fraction ++ tail))
  have hdigits := takeDigits_append (d :: ds) (noDigit_fraction fraction htail)
  have hfraction := takeFraction?_append fraction htail
  have hexponent := takeExponent?_spelt htail
  rw [List.map_cons, List.cons_append] at hdigits
  dsimp only at hwhole hexponent
  simp [ofChars?, hsign, hdigits, hfraction, hexponent, guard, hwhole]

theorem takeDigits_join (cs : List Char) :
    (takeDigits cs).1.map Digit.char ++ (takeDigits cs).2 = cs := by
  induction cs with
  | nil => rfl
  | cons c cs ih =>
    rw [takeDigits]
    split
    · rfl
    · next d hd => rw [List.map_cons, List.cons_append, ih, Digit.char_of_ofChar? hd]

theorem takeSign_false_join (cs : List Char) :
    signChars (takeSign false cs).1 ++ (takeSign false cs).2 = cs := by
  rw [takeSign.eq_def]
  split <;> rfl

theorem takeSign_true_join (cs : List Char) :
    ∃ sign, (sign = signChars (takeSign true cs).1 ∨ (takeSign true cs).1 = false ∧ sign = ['+']) ∧
      sign ++ (takeSign true cs).2 = cs := by
  rw [takeSign.eq_def]
  split
  · exact ⟨['-'], .inl rfl, rfl⟩
  · next c cs _ =>
    by_cases hplus : c = '+'
    · exact ⟨['+'], .inr ⟨rfl, rfl⟩, by simp [hplus]⟩
    · exact ⟨[], .inl rfl, by simp [hplus]⟩
  · exact ⟨[], .inl rfl, rfl⟩

theorem takeFraction?_join {cs rest : List Char} {ds : List Digit}
    (h : takeFraction? cs = some (ds, rest)) : fractionChars ds ++ rest = cs := by
  rw [takeFraction?.eq_def] at h
  split at h
  · next cs =>
    dsimp only at h
    split at h
    · cases h
    · next hsome =>
      obtain ⟨rfl, rfl⟩ := Prod.mk.inj (Option.some.inj h)
      rw [fractionChars, if_neg hsome, List.cons_append, takeDigits_join]
  · obtain ⟨rfl, rfl⟩ := Prod.mk.inj (Option.some.inj h)
    rfl

theorem exponentSpelt_of_takeExponent? {cs : List Char} {exponent : Option Exponent}
    (h : takeExponent? cs = some (exponent, [])) : ExponentSpelt exponent cs := by
  cases cs with
  | nil =>
    obtain rfl := (Prod.mk.inj (Option.some.inj h)).1
    exact .none
  | cons c cs =>
    rw [takeExponent?] at h
    split at h
    · next hmark =>
      obtain ⟨sign, hsign, hcs⟩ := takeSign_true_join cs
      have hjoin := takeDigits_join (takeSign true cs).2
      dsimp only at h
      split at h
      · cases h
      · next hsome =>
        obtain ⟨rfl, hrest⟩ := Prod.mk.inj (Option.some.inj h)
        rw [hrest, List.append_nil] at hjoin
        have hspelt : ExponentSpelt (some ⟨(takeSign true cs).1, (takeDigits (takeSign true cs).2).1⟩)
            (c :: (sign ++ (takeDigits (takeSign true cs).2).1.map Digit.char)) :=
          .some (by simpa using hmark) hsign (by simpa using hsome)
        rwa [hjoin, hcs] at hspelt
    · cases (Prod.mk.inj (Option.some.inj h)).2

/-- A numeral is read from all its spellings and from nothing else. -/
theorem ofChars?_eq_some_iff {cs : List Char} {n : Numeral} : ofChars? cs = some n ↔ n.Spelt cs := by
  refine ⟨fun h => ?_, ofChars?_spelt⟩
  have hsign := takeSign_false_join cs
  have hdigits := takeDigits_join (takeSign false cs).2
  simp only [ofChars?, Option.bind_eq_bind, Option.bind_eq_some_iff, Option.guard_eq_some'] at h
  obtain ⟨-, hwhole, ⟨fraction, rest⟩, hfraction, ⟨exponent, rest'⟩, hexponent, -, hempty, hn⟩ := h
  obtain rfl := List.isEmpty_iff.mp hempty
  obtain rfl := Option.some.inj hn
  refine ⟨hwhole, rest, exponentSpelt_of_takeExponent? hexponent, ?_⟩
  rw [takeFraction?_join hfraction, hdigits, hsign]

/-- The whole part is written without leading zeros, and an exponent has digits. -/
structure WellFormed (n : Numeral) : Prop where
  whole : isWhole n.whole = true
  exponent : ∀ e ∈ n.exponent, e.digits ≠ []

theorem isWhole_digits (n : Nat) : isWhole (Decimal.digits n) = true := by
  rcases Nat.eq_zero_or_pos n with rfl | hpos
  · rfl
  · obtain ⟨d, ds, hdigits, hd⟩ := Decimal.digits_eq_cons hpos
    rw [hdigits]
    cases ds with
    | nil => rfl
    | cons => exact decide_eq_true hd

theorem digits_ne_nil (n : Nat) : Decimal.digits n ≠ [] := by
  intro hnil
  have hwhole := isWhole_digits n
  rw [hnil] at hwhole
  exact absurd hwhole (by decide)

theorem wellFormed_ofNat (n : Nat) : (ofNat n).WellFormed :=
  ⟨isWhole_digits n, by simp [ofNat]⟩

theorem wellFormed_ofSignificant (negative : Bool) {s : Significant} {d : Digit} {ds : List Digit}
    (hdigits : s.digits = d :: ds) (hd : d.val ≠ 0) : (ofSignificant negative s).WellFormed := by
  have hlead : ∀ ds, isWhole (d :: ds) = true := by
    intro ds
    cases ds with
    | nil => rfl
    | cons => exact decide_eq_true hd
  rw [ofSignificant]
  split
  · next hpoint =>
    obtain ⟨places, hplaces⟩ : ∃ places, s.point.toNat = places + 1 := by
      simp only [Bool.and_eq_true, decide_eq_true_eq] at hpoint
      exact ⟨s.point.toNat - 1, by omega⟩
    refine ⟨?_, by simp⟩
    simp only [hdigits, hplaces, List.take_succ_cons, List.cons_append]
    exact hlead _
  · split
    · exact ⟨rfl, by simp⟩
    · refine ⟨?_, ?_⟩
      · simp only [hdigits, List.take_succ_cons, List.take_zero]
        exact hlead []
      · simp only [Option.mem_some_iff]
        rintro e rfl
        exact digits_ne_nil _

theorem wellFormed_ofDouble (x : Float) : (ofDouble x).WellFormed := by
  have hlt : (Binary.ofFloat x).mantissa < 2 ^ 53 := by
    have hfraction : x.toBits.toNat % Binary.hiddenBit < Binary.hiddenBit := Nat.mod_lt _ (by decide)
    have hdouble : Binary.hiddenBit + Binary.hiddenBit = 2 ^ 53 := by decide
    show (if Binary.exponentBits x = 0 then _ else _) < _
    split <;> omega
  rw [ofDouble]
  split
  · exact ⟨rfl, by simp⟩
  · next hmantissa =>
    obtain ⟨d, ds, hdigits, hd⟩ :=
      Significant.ofBinary_eq_cons (Nat.pos_of_ne_zero hmantissa) hlt
    exact wellFormed_ofSignificant _ hdigits hd

def exponentChars (exponent : Option Exponent) : List Char :=
  exponent.elim [] fun e => 'e' :: (signChars e.negative ++ e.digits.map Digit.char)

theorem chars_eq (n : Numeral) :
    n.chars = signChars n.negative ++ (n.whole.map Digit.char ++
      (fractionChars n.fraction ++ exponentChars n.exponent)) := by
  simp only [chars, fractionChars, exponentChars, List.append_assoc]

theorem exponentSpelt_exponentChars {exponent : Option Exponent} (h : ∀ e ∈ exponent, e.digits ≠ []) :
    ExponentSpelt exponent (exponentChars exponent) := by
  cases exponent with
  | none => exact .none
  | some e => exact .some (.inl rfl) (.inl rfl) (h e rfl)

theorem WellFormed.spelt {n : Numeral} (h : n.WellFormed) : n.Spelt n.chars :=
  ⟨h.whole, exponentChars n.exponent, exponentSpelt_exponentChars h.exponent, chars_eq n⟩

/-- A numeral is read as it is written. -/
theorem ofChars?_chars {n : Numeral} (h : n.WellFormed) : ofChars? n.chars = some n :=
  ofChars?_spelt h.spelt

theorem isNumeralChar_digits (ds : List Digit) : ∀ c ∈ ds.map Digit.char, Scan.isNumeralChar c = true := by
  have hdigit : ∀ d : Digit, Scan.isNumeralChar d.char = true := by decide
  intro c hc
  obtain ⟨d, -, rfl⟩ := List.mem_map.mp hc
  exact hdigit d

theorem isNumeralChar_sign (negative : Bool) : ∀ c ∈ signChars negative, Scan.isNumeralChar c = true := by
  cases negative with
  | false => simp [signChars]
  | true => simp [signChars, Scan.isNumeralChar]

theorem isNumeralChar_exponent {exponent : Option Exponent} {tail : List Char}
    (h : ExponentSpelt exponent tail) : ∀ c ∈ tail, Scan.isNumeralChar c = true := by
  cases h with
  | none => simp
  | @some e mark sign hmark hsign =>
    intro c hc
    obtain rfl | hc := List.mem_cons.mp hc
    · rcases hmark with rfl | rfl <;> rfl
    · obtain hc | hc := List.mem_append.mp hc
      · rcases hsign with rfl | ⟨-, rfl⟩
        · exact isNumeralChar_sign _ c hc
        · obtain rfl := List.mem_singleton.mp hc
          rfl
      · exact isNumeralChar_digits _ c hc

theorem isNumeralChar_spelt {n : Numeral} {cs : List Char} (h : n.Spelt cs) :
    ∀ c ∈ cs, Scan.isNumeralChar c = true := by
  obtain ⟨-, tail, htail, rfl⟩ := h
  intro c hc
  simp only [List.mem_append] at hc
  obtain hc | hc | hc | hc := hc
  · exact isNumeralChar_sign _ c hc
  · exact isNumeralChar_digits _ c hc
  · cases hfraction : n.fraction with
    | nil => simp [fractionChars, hfraction] at hc
    | cons d ds =>
      rw [hfraction] at hc
      obtain rfl | hc := List.mem_cons.mp hc
      · rfl
      · exact isNumeralChar_digits _ c hc
  · exact isNumeralChar_exponent htail c hc

/-- A numeral is told from other tokens by its first character. -/
theorem start_of_spelt {n : Numeral} {cs : List Char} (h : n.Spelt cs) :
    ∃ c rest, cs = c :: rest ∧ Scan.start c = some (.number [c], []) := by
  have hdigit : ∀ d : Digit, Scan.start d.char = some (.number [d.char], []) := by decide
  obtain ⟨hwhole, tail, -, rfl⟩ := h
  obtain ⟨negative, whole, fraction, exponent⟩ := n
  cases negative with
  | true => exact ⟨'-', _, rfl, by decide⟩
  | false =>
    cases whole with
    | nil => cases hwhole
    | cons d ds => exact ⟨d.char, _, rfl, hdigit d⟩

end Numeral

end FlowBasic
