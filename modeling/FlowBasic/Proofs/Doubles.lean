import FlowBasic.Json.Numeral
import Mathlib.Data.Nat.Log
import Mathlib.Tactic.Linarith
import Mathlib.Tactic.Ring

namespace FlowBasic

open Float.Model Float.Model.UnpackedFloat

/-- A finite double that is smaller than two to the bound. -/
def Magnitude (bound : Int) : UnpackedFloat → Prop
  | .zero _ => True
  | .finite _ m e _ => totalExponent m e ≤ bound
  | _ => False

theorem Magnitude.isInf {bound : Int} {f : UnpackedFloat} (h : Magnitude bound f) :
    f.isInf = false := by
  cases f with
  | infinity => exact h.elim
  | notANumber => rfl
  | zero => rfl
  | finite => rfl

theorem mantissa_shiftRight (em : ExtendedMantissa) (k : Nat) :
    (em >>> k).mantissa = em.mantissa / 2 ^ k := by
  induction k with
  | zero => exact (Nat.div_one _).symm
  | succ k ih =>
    have hstep : (em >>> (k + 1)).mantissa = (em >>> k).mantissa / 2 := rfl
    rw [hstep, ih, Nat.div_div_eq_div_mul, Nat.pow_succ]

theorem roundedMantissa_le (em : ExtendedMantissa) : em.roundedMantissa ≤ em.mantissa + 1 := by
  obtain ⟨m, round, sticky⟩ := em
  cases round <;> cases sticky <;>
    simp only [ExtendedMantissa.roundedMantissa, ExtendedMantissa.accuracy, Accuracy.roundToNearestEven] <;>
    omega

theorem log2_lt_of_lt_two_pow {m k : Nat} (hk : k ≠ 0) (h : m < 2 ^ k) : m.log2 < k := by
  rw [Nat.log2_eq_log_two]
  exact Nat.log_lt_of_lt_pow' hk h

/-- Shifting to the target exponent keeps the magnitude, down to the smallest doubles. -/
theorem totalExponent_shift (m : Nat) (e : Int) :
    let r := shiftToTargetExponent Format.binary64 m e .exact
    totalExponent r.1.mantissa r.2 ≤ max (totalExponent m e) (-1073) := by
  intro r
  have htarget : Format.binary64.targetExponent (totalExponent m e) =
      max (totalExponent m e - 53) (-1074) := rfl
  generalize hk : (Format.binary64.targetExponent (totalExponent m e) - e).toNat = k
  have hexponent : r.2 = e + k := by rw [← hk]; rfl
  have hmantissa : r.1.mantissa = m / 2 ^ k := by rw [← hk]; exact mantissa_shiftRight _ _
  have hlog : (m / 2 ^ k).log2 = m.log2 - k := by
    simp only [Nat.log2_eq_log_two, Nat.log_div_base_pow]
  rw [htarget] at hk
  simp only [totalExponent, hexponent, hmantissa, hlog] at hk ⊢
  omega

theorem magnitude_roundWithAccuracy {m : Nat} {e bound : Int} (s : Sign)
    (h : totalExponent m e ≤ bound) (hbound : -1073 ≤ bound) :
    Magnitude (bound + 1) (roundWithAccuracy Format.binary64 s m e .exact) := by
  have hfirst := totalExponent_shift m e
  generalize hr : shiftToTargetExponent Format.binary64 m e .exact = r at hfirst
  have hrounded : totalExponent r.1.roundedMantissa r.2 ≤ bound + 1 := by
    have hlt : r.1.roundedMantissa < 2 ^ (r.1.mantissa.log2 + 2) := by
      have hself := Nat.lt_log2_self (n := r.1.mantissa)
      have hpos := Nat.one_le_two_pow (n := r.1.mantissa.log2)
      have hle := roundedMantissa_le r.1
      simp only [Nat.pow_succ] at hself ⊢
      omega
    have hlog := log2_lt_of_lt_two_pow (by omega) hlt
    simp only [totalExponent] at h hfirst ⊢
    omega
  have hsecond := totalExponent_shift r.1.roundedMantissa r.2
  generalize hr' : shiftToTargetExponent Format.binary64 r.1.roundedMantissa r.2 .exact = r' at hsecond
  rw [roundWithAccuracy, hr]
  dsimp only
  rw [hr']
  by_cases hzero : r'.1.mantissa = 0
  · rw [dif_pos hzero]
    exact trivial
  · rw [dif_neg hzero]
    show totalExponent _ _ ≤ bound + 1
    omega

theorem magnitude_round {m : Nat} {e bound : Int} (s : Sign) (h : totalExponent m e ≤ bound)
    (hbound : -1073 ≤ bound) : Magnitude (bound + 1) (UnpackedFloat.round Format.binary64 s m e) := by
  refine magnitude_roundWithAccuracy s ?_ hbound
  generalize (e - Format.binary64.targetExponent (totalExponent m e)).toNat = k
  have hlt : m <<< k < 2 ^ (m.log2 + 1 + k) := by
    rw [Nat.shiftLeft_eq, Nat.pow_add]
    exact Nat.mul_lt_mul_of_pos_right Nat.lt_log2_self (Nat.two_pow_pos k)
  have hlog := log2_lt_of_lt_two_pow (by omega) hlt
  simp only [totalExponent] at h ⊢
  omega

theorem magnitude_ofUInt64 (n : UInt64) : Magnitude 65 (UnpackedFloat.ofUInt64 Format.binary64 n) := by
  have hlog := log2_lt_of_lt_two_pow (by decide) n.toNat_lt
  have htotal : totalExponent n.toNat 0 ≤ 64 := by
    simp only [totalExponent]
    omega
  rw [UnpackedFloat.ofUInt64, UnpackedFloat.ofNat, UnpackedFloat.ofInt, UnpackedFloat.normalize]
  split
  · next hneg =>
    rw [Int.compare_eq_lt] at hneg
    omega
  · exact trivial
  · exact magnitude_round .positive htotal (by decide)

theorem magnitude_mul {f g : UnpackedFloat} {a b : Int} (hf : Magnitude a f) (hg : Magnitude b g)
    (hab : -1073 ≤ a + b) : Magnitude (a + b + 1) (UnpackedFloat.mul Format.binary64 f g) := by
  cases f with
  | infinity => exact hf.elim
  | notANumber => exact hf.elim
  | zero =>
    cases g with
    | infinity => exact hg.elim
    | notANumber => exact hg.elim
    | zero => exact trivial
    | finite => exact trivial
  | finite s₁ m₁ e₁ =>
    cases g with
    | infinity => exact hg.elim
    | notANumber => exact hg.elim
    | zero => exact trivial
    | finite s₂ m₂ e₂ =>
      have hfirst : totalExponent m₁ e₁ ≤ a := hf
      have hsecond : totalExponent m₂ e₂ ≤ b := hg
      refine magnitude_roundWithAccuracy _ ?_ hab
      have hlt : m₁ * m₂ < 2 ^ (m₁.log2 + 1 + (m₂.log2 + 1)) := by
        rw [Nat.pow_add]
        exact Nat.mul_lt_mul'' Nat.lt_log2_self Nat.lt_log2_self
      have hlog := log2_lt_of_lt_two_pow (by omega) hlt
      simp only [totalExponent] at hfirst hsecond ⊢
      omega

/-- The exponent field bounds a double. -/
theorem magnitude_unpack {b : BitVec Format.binary64.numBits} {k : Nat} (hpos : 0 < k) (hk : k < 2047)
    (h : (unpackExponent b).toNat ≤ k) :
    Magnitude (k - 1022) (UnpackedFloat.unpack Format.binary64 b) := by
  have hfinite : unpackExponent b ≠ -1#_ := by
    intro heq
    have htop : (unpackExponent b).toNat = 2047 := congrArg BitVec.toNat heq
    omega
  have hbias : ((Format.binary64.exponentBias : Nat) : Int) = 1023 := rfl
  have hwidth : ((Format.binary64.mantissaBitsWithoutImplicit : Nat) : Int) = 52 := rfl
  delta UnpackedFloat.unpack
  rw [if_neg hfinite]
  by_cases hsubnormal : unpackExponent b = 0#_
  · rw [if_pos hsubnormal]
    by_cases hzero : unpackMantissa b = 0#_
    · rw [dif_pos hzero]
      exact trivial
    · have hlog : (unpackMantissa b).toNat.log2 < 52 :=
        log2_lt_of_lt_two_pow (by decide) (unpackMantissa b).isLt
      rw [dif_neg hzero]
      show totalExponent _ _ ≤ _
      rw [hbias, hwidth, totalExponent]
      omega
  · have hlog : (1#1 ++ unpackMantissa b).toNat.log2 < 53 :=
      log2_lt_of_lt_two_pow (by decide) (1#1 ++ unpackMantissa b).isLt
    rw [if_neg hsubnormal]
    show totalExponent _ _ ≤ _
    rw [hbias, hwidth, totalExponent]
    omega

/-- A double that is not too large is stored with its exponent. -/
theorem unpackExponent_pack {f : UnpackedFloat} {bound : Nat} (h : Magnitude bound f)
    (hbound : bound ≤ 971) :
    (unpackExponent (UnpackedFloat.pack Format.binary64 f)).toNat ≤ bound + 1074 := by
  cases f with
  | infinity => exact h.elim
  | notANumber => exact h.elim
  | zero s =>
    change (unpackExponent (packedZero Format.binary64 s)).toNat ≤ _
    simp [packedZero]
  | finite s m e hm =>
    have htotal : (m.log2 : Int) + 1 + e ≤ bound := h
    have hbias : ((Format.binary64.exponentBias : Nat) : Int) = 1023 := rfl
    have hwidth : ((Format.binary64.mantissaBitsWithoutImplicit : Nat) : Int) = 52 := rfl
    delta UnpackedFloat.pack
    dsimp only
    rw [hbias, hwidth]
    split
    · next hlarge => omega
    · split
      · rw [unpackExponent_packComponents, BitVec.toNat_ofNat]
        refine (Nat.mod_le _ _).trans ?_
        omega
      · rw [unpackExponent_packComponents]
        exact Nat.zero_le _

theorem magnitude_unpack_pack {f : UnpackedFloat} {bound : Nat} (h : Magnitude bound f)
    (hbound : bound ≤ 971) : Magnitude (bound + 52) (Float.Model.pack f).unpack := by
  have hunpack := magnitude_unpack (by omega) (by omega) (unpackExponent_pack h hbound)
  have heq : ((bound + 1074 : Nat) : Int) - 1022 = bound + 52 := by omega
  rwa [heq] at hunpack

/-- The double of a number of 64 bits, times one, is not too large. -/
theorem isInf_toFloat_mul_one (n : UInt64) : (n.toFloat * Numeral.powerOfTen 0).isInf = false := by
  have hone : Magnitude 1 (Numeral.powerOfTen 0).toModel.unpack := by
    have heq : (Numeral.powerOfTen 0).toModel.unpack = .finite .positive (2 ^ 52) (-52) (by decide) := by rfl
    rw [heq]
    show totalExponent _ _ ≤ _
    decide
  have hn : Magnitude ((65 : Nat) + 52) n.toFloat.toModel.unpack :=
    magnitude_unpack_pack (magnitude_ofUInt64 n) (by decide)
  have hproduct : Magnitude (119 : Nat) (UnpackedFloat.mul Format.binary64 n.toFloat.toModel.unpack
      (Numeral.powerOfTen 0).toModel.unpack) := magnitude_mul hn hone (by decide)
  exact (magnitude_unpack_pack hproduct (by decide)).isInf

namespace Decimal

theorem valueFrom_bounds (v : Nat) (ds : List Digit) :
    v * 10 ^ ds.length ≤ valueFrom v ds ∧ valueFrom v ds < (v + 1) * 10 ^ ds.length := by
  induction ds generalizing v with
  | nil => simp [valueFrom]
  | cons d ds ih =>
    obtain ⟨hlow, hhigh⟩ := ih (10 * v + d.val)
    have hd : d.val < 10 := d.isLt
    have hlower : v * 10 ^ (ds.length + 1) ≤ (10 * v + d.val) * 10 ^ ds.length := by
      rw [Nat.pow_succ', ← Nat.mul_assoc, Nat.mul_comm v 10]
      exact Nat.mul_le_mul_right _ (by omega)
    have hupper : (10 * v + d.val + 1) * 10 ^ ds.length ≤ (v + 1) * 10 ^ (ds.length + 1) := by
      rw [Nat.pow_succ', ← Nat.mul_assoc]
      exact Nat.mul_le_mul_right _ (by omega)
    exact ⟨hlower.trans hlow, hhigh.trans_le hupper⟩

theorem digitsOnto_eq_cons {fuel n : Nat} (hpos : 0 < n) (h : n < fuel) (done : List Digit) :
    ∃ d ds, digitsOnto fuel n done = d :: ds ∧ d.val ≠ 0 := by
  induction fuel generalizing n done with
  | zero => omega
  | succ fuel ih =>
    rw [digitsOnto]
    split
    · next small => exact ⟨_, _, rfl, by simp only; omega⟩
    · next large => exact ih (by omega) (by omega) _

/-- A positive number does not begin with zero. -/
theorem digits_eq_cons {n : Nat} (h : 0 < n) : ∃ d ds, digits n = d :: ds ∧ d.val ≠ 0 :=
  digitsOnto_eq_cons h (Nat.lt_succ_self n) []

theorem lt_pow_length_digits (n : Nat) : n < 10 ^ (digits n).length := by
  have hbounds := (valueFrom_bounds 0 (digits n)).2
  rw [← value, value_digits] at hbounds
  omega

theorem pow_length_digits_le {n : Nat} (h : 0 < n) : 10 ^ ((digits n).length - 1) ≤ n := by
  obtain ⟨d, ds, hdigits, hd⟩ := digits_eq_cons h
  have hvalue : valueFrom d.val ds = n := by
    have hn := value_digits n
    rwa [hdigits, value, valueFrom, Nat.mul_zero, Nat.zero_add] at hn
  have hbounds := (valueFrom_bounds d.val ds).1
  rw [hdigits, List.length_cons, Nat.add_sub_cancel]
  calc 10 ^ ds.length ≤ d.val * 10 ^ ds.length := Nat.le_mul_of_pos_left _ (by omega)
    _ ≤ n := hvalue ▸ hbounds

end Decimal

namespace Numeral

theorem absorb_of_lt {v : Nat} {ds : List Digit} (h : Decimal.valueFrom v ds < UInt64.size) :
    absorb v ds = (Decimal.valueFrom v ds, []) := by
  induction ds generalizing v with
  | nil => rfl
  | cons d ds ih =>
    have hfits : 10 * v + d.val < UInt64.size := by
      have hbounds := (Decimal.valueFrom_bounds (10 * v + d.val) ds).1
      have hpow := Nat.one_le_pow ds.length 10 (by decide)
      have hle := Nat.le_mul_of_pos_right (10 * v + d.val) hpow
      exact (hle.trans hbounds).trans_lt h
    rw [absorb, if_pos hfits, ih h, Decimal.valueFrom]

/-- A number of 64 bits is in the range of the doubles. -/
theorem isSome_double?_ofNat {n : Nat} (h : n < UInt64.size) : (ofNat n).double?.isSome = true := by
  have hvalue : Decimal.valueFrom 0 (Decimal.digits n) = n := Decimal.value_digits n
  have habsorb : absorb 0 (Decimal.digits n) = (n, []) := by
    rw [absorb_of_lt (hvalue.symm ▸ h), hvalue]
  have hscaled : scaled? 3 (UInt64.ofNat n).toFloat 0 =
      some ((UInt64.ofNat n).toFloat * powerOfTen 0) := by
    have hfinite : ((UInt64.ofNat n).toFloat * powerOfTen (Int.natAbs 0)).isInf = false :=
      isInf_toFloat_mul_one _
    simp only [scaled?, hfinite]
    rfl
  have hdouble : (ofNat n).double? = (scaled? 3 (UInt64.ofNat n).toFloat 0).map fun f => f := by
    simp only [double?, ofNat, habsorb]
    rfl
  rw [hdouble, hscaled]
  rfl

end Numeral

namespace Band

/-- The value lies inside, and is not much larger than its distance to the lower end. -/
structure Regular (b : Band) : Prop where
  scale_pos : 0 < b.scale
  low_pos : 0 < b.low
  low_lt : b.low < b.value
  lt_high : b.value < b.high
  value_lt : b.value < 2 ^ 55 * (b.value - b.low)

theorem regular_ofBinary {b : Binary} (hpos : 0 < b.mantissa) (hlt : b.mantissa < 2 ^ 53) :
    (ofBinary b).Regular := by
  have hup : 0 < 2 ^ (b.exponent - 2).toNat := Nat.two_pow_pos _
  obtain ⟨gap, hgap, hgap_pos, hgap_le⟩ :
      ∃ gap, (if b.mantissa = Binary.hiddenBit && b.exponent > -1074 then 1 else 2) = gap ∧
        0 < gap ∧ gap ≤ 2 := by
    refine ⟨_, rfl, ?_, ?_⟩ <;> split <;> decide
  have hlow : (ofBinary b).low = (4 * b.mantissa - gap) * 2 ^ (b.exponent - 2).toNat := by
    rw [← hgap]; rfl
  have hvalue : (ofBinary b).value = 4 * b.mantissa * 2 ^ (b.exponent - 2).toNat := rfl
  have hhigh : (ofBinary b).high = (4 * b.mantissa + 2) * 2 ^ (b.exponent - 2).toNat := rfl
  have hdistance : (ofBinary b).value - (ofBinary b).low = gap * 2 ^ (b.exponent - 2).toNat := by
    rw [hvalue, hlow, ← Nat.sub_mul]
    congr 1
    omega
  refine ⟨Nat.two_pow_pos _, ?_, ?_, ?_, ?_⟩
  · rw [hlow]
    exact Nat.mul_pos (by omega) hup
  · rw [hlow, hvalue]
    exact Nat.mul_lt_mul_of_pos_right (by omega) hup
  · rw [hvalue, hhigh]
    exact Nat.mul_lt_mul_of_pos_right (by omega) hup
  · rw [hdistance, hvalue, ← Nat.mul_assoc]
    exact Nat.mul_lt_mul_of_pos_right (by omega) hup

theorem lt_of_lt {a b : Nat} (closed : Bool) (h : a < b) : lt closed a b = true := by
  cases closed
  · exact decide_eq_true h
  · exact decide_eq_true h.le

theorem le_of_lt_eq_true {a b : Nat} {closed : Bool} (h : lt closed a b = true) : a ≤ b := by
  cases closed
  · exact (of_decide_eq_true h).le
  · exact of_decide_eq_true h

/-- A multiple that is found is not zero. -/
theorem multiple?_pos {b : Band} {p : Int} {c : Nat} (hlow : 0 < b.low) (h : b.multiple? p = some c) :
    0 < c := by
  have hpos : 0 < b.low * Nat.pow 10 (-p).toNat := Nat.mul_pos hlow (Nat.pow_pos (by decide))
  have hinside : ∀ c, lt b.closed (b.low * Nat.pow 10 (-p).toNat) (c * (Nat.pow 10 p.toNat * b.scale)) = true →
      0 < c := by
    intro c hc
    have hle := le_of_lt_eq_true hc
    by_contra hzero
    obtain rfl : c = 0 := by omega
    omega
  rw [multiple?] at h
  dsimp only at h
  split at h
  · next hboth _ =>
    have hfirst := hinside _ (Bool.and_eq_true_iff.mp hboth).1
    cases h
    split
    · exact hfirst
    · split
      · omega
      · split <;> omega
  · next hfirst _ =>
    cases h
    exact hinside _ (Bool.and_eq_true_iff.mp hfirst).1
  · cases h
    exact Nat.succ_pos _
  · cases h

theorem isSome_multiple? {b : Band} (hb : b.Regular) {p : Int}
    (h : 10 ^ p.toNat * b.scale ≤ (b.value - b.low) * 10 ^ (-p).toNat) :
    (b.multiple? p).isSome = true := by
  rw [multiple?]
  generalize hup : Nat.pow 10 p.toNat * b.scale = up
  generalize hdown : Nat.pow 10 (-p).toNat = down
  have hdown_pos : 0 < down := hdown ▸ Nat.pow_pos (by decide)
  have hup_pos : 0 < up := hup ▸ Nat.mul_pos (Nat.pow_pos (by decide)) hb.scale_pos
  -- The multiple below the value is closer to it than the lower end.
  have hrest : b.value * down % up < up := Nat.mod_lt _ hup_pos
  have hfloor : b.value * down / up * up + b.value * down % up = b.value * down := Nat.div_add_mod' _ _
  have hgap : up ≤ b.value * down - b.low * down := by
    rw [← Nat.sub_mul, ← hup, ← hdown]
    exact h
  have hlow : b.low * down < b.value * down := Nat.mul_lt_mul_of_pos_right hb.low_lt hdown_pos
  have hhigh : b.value * down < b.high * down := Nat.mul_lt_mul_of_pos_right hb.lt_high hdown_pos
  have hinside : (lt b.closed (b.low * down) (b.value * down / up * up) &&
      lt b.closed (b.value * down / up * up) (b.high * down)) = true := by
    rw [Bool.and_eq_true_iff]
    exact ⟨lt_of_lt _ (by omega), lt_of_lt _ (by omega)⟩
  dsimp only
  rw [hinside]
  cases lt b.closed (b.low * down) ((b.value * down / up + 1) * up) &&
    lt b.closed ((b.value * down / up + 1) * up) (b.high * down) <;> rfl

theorem shortest_of_isSome {b : Band} {fuel k : Nat} {p : Int} (hk : k < fuel)
    (h : (b.multiple? (p - k)).isSome = true) :
    ∃ c q, b.shortest fuel p = (c, q) ∧ b.multiple? q = some c := by
  induction fuel generalizing k p with
  | zero => omega
  | succ fuel ih =>
    rw [shortest]
    split
    · next c hc => exact ⟨c, p, rfl, hc⟩
    · next hnone =>
      cases k with
      | zero => simp [hnone] at h
      | succ k =>
        refine ih (k := k) (by omega) ?_
        have hp : p - 1 - (k : Int) = p - (k + 1 : Nat) := by omega
        rwa [hp]

/-- Ten to the top power is at most ten times the value. -/
theorem topPower_le {b : Band} (hb : b.Regular) :
    10 ^ b.topPower.toNat * b.scale ≤ 10 * b.value * 10 ^ (-b.topPower).toNat := by
  have hvalue : 0 < b.value := hb.low_pos.trans hb.low_lt
  rw [topPower]
  split
  · next hle =>
    have hlead := Decimal.pow_length_digits_le (Nat.div_pos hle hb.scale_pos)
    generalize (Decimal.digits (b.value / b.scale)).length = k at hlead ⊢
    have hup : ((k : Int) - 1).toNat = k - 1 := by omega
    have hproduct := (Nat.le_div_iff_mul_le hb.scale_pos).mp hlead
    rw [hup]
    calc 10 ^ (k - 1) * b.scale ≤ b.value := hproduct
      _ ≤ 10 * b.value * 10 ^ (-((k : Int) - 1)).toNat := by
        have hpow := Nat.one_le_pow (-((k : Int) - 1)).toNat 10 (by decide)
        nlinarith
  · next hlt =>
    have hlead := Decimal.lt_pow_length_digits (b.scale / b.value)
    generalize (Decimal.digits (b.scale / b.value)).length = k at hlead ⊢
    have hk : k ≠ 0 := by
      rintro rfl
      have hquotient := Nat.div_pos (Nat.le_of_not_le hlt) hvalue
      omega
    have hup : (1 - (k : Int)).toNat = 0 := by omega
    have hdown : (-(1 - (k : Int))).toNat = k - 1 := by omega
    have hproduct := (Nat.div_lt_iff_lt_mul hvalue).mp hlead
    rw [hup, hdown, Nat.pow_zero, Nat.one_mul]
    calc b.scale ≤ 10 ^ k * b.value := hproduct.le
      _ = 10 ^ (k - 1 + 1) * b.value := by rw [Nat.sub_add_cancel (Nat.pos_of_ne_zero hk)]
      _ = 10 * b.value * 10 ^ (k - 1) := by ring

theorem isSome_multiple?_topPower {b : Band} (hb : b.Regular) :
    (b.multiple? (b.topPower - (19 : Nat))).isSome = true := by
  refine isSome_multiple? hb ?_
  have htop := topPower_le hb
  generalize b.topPower = t at htop ⊢
  have hshift : 10 ^ (t - (19 : Nat)).toNat * 10 ^ (-t).toNat * 10 ^ 19 =
      10 ^ t.toNat * 10 ^ (-(t - (19 : Nat))).toNat := by
    rw [← Nat.pow_add, ← Nat.pow_add, ← Nat.pow_add]
    congr 1
    omega
  generalize 10 ^ (t - (19 : Nat)).toNat = up at hshift ⊢
  generalize 10 ^ (-(t - (19 : Nat))).toNat = down at hshift ⊢
  have hpos : 0 < 10 ^ (-t).toNat * 10 ^ 19 := Nat.mul_pos (Nat.pow_pos (by decide)) (by decide)
  refine Nat.le_of_mul_le_mul_right ?_ hpos
  calc up * b.scale * (10 ^ (-t).toNat * 10 ^ 19)
      = 10 ^ t.toNat * b.scale * down := by rw [← Nat.mul_right_comm _ down, ← hshift]; ring
    _ ≤ 10 * b.value * 10 ^ (-t).toNat * down := Nat.mul_le_mul_right _ htop
    _ = 10 * b.value * (10 ^ (-t).toNat * down) := by ring
    _ ≤ 10 ^ 19 * (b.value - b.low) * (10 ^ (-t).toNat * down) := by
        refine Nat.mul_le_mul_right _ ?_
        have hvalue := hb.value_lt
        omega
    _ = (b.value - b.low) * down * (10 ^ (-t).toNat * 10 ^ 19) := by ring

/-- The search ends with a multiple. -/
theorem Regular.shortest_pos {b : Band} (hb : b.Regular) :
    0 < (b.shortest 20 b.topPower).1 := by
  obtain ⟨c, q, hshortest, hc⟩ := shortest_of_isSome (Nat.lt_succ_self 19) (isSome_multiple?_topPower hb)
  rw [hshortest]
  exact multiple?_pos hb.low_pos hc

end Band

theorem dropTrailingZeros_cons {d : Digit} (hd : d.val ≠ 0) (ds : List Digit) :
    ∃ ds', dropTrailingZeros (d :: ds) = d :: ds' := by
  rw [dropTrailingZeros, List.reverse_cons, List.dropWhile_append]
  split
  · exact ⟨[], by rw [List.dropWhile_cons, decide_eq_false hd]; rfl⟩
  · exact ⟨(ds.reverse.dropWhile _).reverse, by rw [List.reverse_append]; rfl⟩

/-- The shortest digits begin with one that is not zero. -/
theorem Significant.ofBinary_eq_cons {b : Binary} (hpos : 0 < b.mantissa) (hlt : b.mantissa < 2 ^ 53) :
    ∃ d ds, (ofBinary b).digits = d :: ds ∧ d.val ≠ 0 := by
  have hshortest := (Band.regular_ofBinary hpos hlt).shortest_pos
  obtain ⟨d, ds, hdigits, hd⟩ := Decimal.digits_eq_cons hshortest
  obtain ⟨ds', hdrop⟩ := dropTrailingZeros_cons hd ds
  exact ⟨d, ds', by rw [← hdrop, ← hdigits]; rfl, hd⟩

end FlowBasic
