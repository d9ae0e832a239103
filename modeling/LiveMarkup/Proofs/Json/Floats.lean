import LiveMarkup.Json.Value
import Mathlib

/-!
# Floating-point numbers

What the comparison of floating-point numbers says about them. Equal numbers are the same but for
the sign of a zero. An integer becomes the nearest number of 53 binary digits, and of two such
numbers that are equally near the one whose last digit is even; so two integers are equal as
floating-point numbers just if they are rounded to the same integer, and below `2 ^ 53` just if they
are the same.

What is known of packed numbers comes with the whole library only; none of its modules has it alone.

* `Number.eq_of_beq`: equality and the two zeros;
* `Number.roundWithAccuracy_exact`, `Number.unpack_pack_finite`: rounding and packing one number;
* `Number.rounded`: the integer that an integer is rounded to;
* `Number.ofInt_beq_iff`: when two integers are equal as floating-point numbers;
* `Number.rounded_eq_iff`: below `2 ^ 53` rounding changes nothing.
-/

namespace LiveMarkup.Number

open Float.Model Float.Model.UnpackedFloat

/-! ## Equality -/

/-- Equal floating-point numbers are the same, unless they are zeros. -/
theorem eq_of_beq {x y : Float} (h : (x == y) = true) :
    x = y ∨ (x == 0) = true ∧ (y == 0) = true := by
  obtain ⟨-, -, rfl | ⟨rfl, rfl⟩ | ⟨rfl, rfl⟩⟩ := Float.beq_iff_ne_nan_and_eq.mp h
  · exact .inl rfl
  · exact .inr ⟨rfl, rfl⟩
  · exact .inr ⟨rfl, rfl⟩

/-! ## Rounding to 53 digits -/

/-- A quotient rounded to the nearest whole number; of two that are equally near, the even one. -/
def roundedDiv (n s : Nat) : Nat :=
  let q := n / s
  let r := n % s
  if 2 * r < s then q
  else if 2 * r = s then q + q % 2
  else q + 1

/-- The distance between the numbers of 53 digits around a natural number. -/
def spacing (n : Nat) : Nat :=
  2 ^ (n.log2 - 52)

/-- The number of 53 digits that is nearest to a natural number. -/
def nearest (n : Nat) : Nat :=
  roundedDiv n (spacing n) * spacing n

/-- The floating-point number that is nearest to an integer; it is an integer, too. -/
def rounded (i : Int) : Int :=
  i.sign * nearest i.natAbs

theorem mod_two_pow_succ (n k : Nat) :
    n % 2 ^ (k + 1) = n % 2 ^ k + 2 ^ k * (n / 2 ^ k % 2) := by
  rw [Nat.pow_succ, Nat.mod_mul]

theorem shiftRight_exact (n k : Nat) :
    ExtendedMantissa.ofMantissaAndAccuracy n .exact >>> k =
      { mantissa := n / 2 ^ k
        roundBit := decide (2 ^ k ≤ 2 * (n % 2 ^ k))
        stickyBit := decide (n % 2 ^ k ≠ 0 ∧ 2 * (n % 2 ^ k) ≠ 2 ^ k) } := by
  induction k with
  | zero =>
    change ExtendedMantissa.ofMantissaAndAccuracy n .exact = _
    simp [ExtendedMantissa.ofMantissaAndAccuracy, Nat.mod_one]
  | succ k ih =>
    change
      ExtendedMantissa.shiftRightOne (ExtendedMantissa.ofMantissaAndAccuracy n .exact >>> k) = _
    have hLt := Nat.mod_lt n (Nat.two_pow_pos k)
    rw [ih, ExtendedMantissa.shiftRightOne, mod_two_pow_succ, Nat.pow_succ, Nat.div_div_eq_div_mul]
    rcases Nat.mod_two_eq_zero_or_one (n / 2 ^ k) with hBit | hBit
    all_goals
      simp only [hBit, ExtendedMantissa.mk.injEq, true_and]
      constructor
      · apply Bool.eq_iff_iff.mpr
        simp only [bne_iff_ne, decide_eq_true_eq]
        omega
      · apply Bool.eq_iff_iff.mpr
        simp only [Bool.or_eq_true, decide_eq_true_eq]
        omega

theorem roundedMantissa_eq (m : Nat) (half rest : Bool) :
    (ExtendedMantissa.mk m half rest).roundedMantissa =
      if half = false then m else if rest = false then m + m % 2 else m + 1 := by
  cases half <;> cases rest <;> rfl

theorem roundedMantissa_exact (n k : Nat) :
    (ExtendedMantissa.ofMantissaAndAccuracy n .exact >>> k).roundedMantissa =
      roundedDiv n (2 ^ k) := by
  have hPos := Nat.two_pow_pos k
  rw [shiftRight_exact, roundedMantissa_eq, roundedDiv]
  simp only [decide_eq_false_iff_not]
  by_cases hLow : 2 * (n % 2 ^ k) < 2 ^ k
  · rw [if_pos hLow, if_pos (by omega)]
  · rw [if_neg hLow, if_neg (by omega)]
    by_cases hHalf : 2 * (n % 2 ^ k) = 2 ^ k
    · rw [if_pos hHalf, if_pos (by omega)]
    · rw [if_neg hHalf, if_neg (by omega)]

/-- A rounded quotient is one of the two whole numbers around it. -/
theorem le_roundedDiv (n s : Nat) : n / s ≤ roundedDiv n s := by
  rw [roundedDiv]
  split <;> try split
  all_goals omega

theorem roundedDiv_le (n s : Nat) : roundedDiv n s ≤ n / s + 1 := by
  rw [roundedDiv]
  split <;> try split
  all_goals omega

theorem targetExponent_eq (n : Nat) (e : Int) :
    Format.binary64.targetExponent (totalExponent n e) = max (n.log2 + e - 52) (-1074) := by
  simp only [Format.targetExponent, totalExponent, Format.mantissaBits, Format.minExponent]
  omega

theorem shiftToTargetExponent_eq {n : Nat} {e : Int} {k : Nat} (hLog : n.log2 = 52 + k)
    (hLow : -1074 ≤ e + k) :
    shiftToTargetExponent Format.binary64 n e .exact =
      (ExtendedMantissa.ofMantissaAndAccuracy n .exact >>> k, e + k) := by
  have hShift : (max ((n.log2 : Int) + e - 52) (-1074) - e).toNat = k := by omega
  simp only [shiftToTargetExponent, targetExponent_eq, shiftToExponent, hShift]

theorem div_two_pow_lt {n k : Nat} (hLog : n.log2 = 52 + k) : n / 2 ^ k < 2 ^ 53 := by
  rw [Nat.div_lt_iff_lt_mul (Nat.two_pow_pos k), ← Nat.pow_add]
  have hLt := Nat.lt_log2_self (n := n)
  rwa [hLog, show 52 + k + 1 = 53 + k by omega] at hLt

theorem le_div_two_pow {n k : Nat} (hLog : n.log2 = 52 + k) : 2 ^ 52 ≤ n / 2 ^ k := by
  have hne : n ≠ 0 := by
    rintro rfl
    simp only [Nat.log2_zero] at hLog
    omega
  rw [Nat.le_div_iff_mul_le (Nat.two_pow_pos k), ← Nat.pow_add, ← hLog]
  exact Nat.log2_self_le hne

/-- A whole number with a power of two is rounded to 53 digits, of which the first is a one. When
the rounding carries over there is one digit more, and the exponent takes it. -/
theorem roundWithAccuracy_exact {n : Nat} {e : Int} {k : Nat} (s : Sign) (hLog : n.log2 = 52 + k)
    (hLow : -1074 ≤ e + k) :
    ∃ m c h, roundWithAccuracy Format.binary64 s n e .exact = .finite s m (e + k + (c : Nat)) h ∧
      m.log2 = 52 ∧ c ≤ 1 ∧ m * 2 ^ c = roundedDiv n (2 ^ k) := by
  let q := roundedDiv n (2 ^ k)
  have hFloor : 2 ^ 52 ≤ q := (le_div_two_pow hLog).trans (le_roundedDiv _ _)
  have hCeil : q ≤ 2 ^ 53 := (roundedDiv_le _ _).trans (div_two_pow_lt hLog)
  have hFirst : roundWithAccuracy Format.binary64 s n e .exact =
      let (em, e') := shiftToTargetExponent Format.binary64 q (e + k) .exact
      if h : em.mantissa = 0 then .zero s
      else .finite s em.mantissa e' (Nat.pos_of_ne_zero h) := by
    simp only [roundWithAccuracy, shiftToTargetExponent_eq hLog hLow, roundedMantissa_exact]
    rfl
  -- the quotient has 53 digits, or 54 of which all but the first are zeros
  obtain ⟨c, hLogq, hCarry, hExact⟩ : ∃ c, q.log2 = 52 + c ∧ c ≤ 1 ∧ q / 2 ^ c * 2 ^ c = q := by
    rcases hCeil.lt_or_eq with hLt | hEq
    · exact ⟨0, (Nat.log2_eq_iff (by omega)).mpr ⟨hFloor, hLt⟩, Nat.zero_le _, by simp⟩
    · rw [hEq]
      exact ⟨1, Nat.log2_two_pow, Nat.le_refl _, by decide⟩
  have hShift := shiftToTargetExponent_eq hLogq (e := e + k) (by omega)
  have hPos : 0 < q / 2 ^ c := lt_of_lt_of_le (by decide) (le_div_two_pow hLogq)
  refine ⟨q / 2 ^ c, c, hPos, ?_, ?_, hCarry, hExact⟩
  · rw [hFirst, hShift]
    simp only [shiftRight_exact]
    rw [dif_neg hPos.ne']
  · exact (Nat.log2_eq_iff hPos.ne').mpr ⟨le_div_two_pow hLogq, div_two_pow_lt hLogq⟩

/-! ## Packing -/

theorem toNat_one_append (m : BitVec 52) : (1#1 ++ m).toNat = 2 ^ 52 + m.toNat := by
  rw [BitVec.toNat_append, ← Nat.shiftLeft_add_eq_or_of_lt m.isLt, Nat.shiftLeft_eq]
  rfl

/-- A number of 53 digits whose exponent is not too large comes out of its packed form again. -/
theorem unpack_pack_finite {m : Nat} {e : Int} (s : Sign) (h : 0 < m) (hLog : m.log2 = 52)
    (hLow : -1074 ≤ e) (hHigh : e ≤ 971) :
    (Float.Model.pack (.finite s m e h)).unpack = .finite s m e h := by
  obtain ⟨hFloor, hCeil⟩ := (Nat.log2_eq_iff h.ne').mp hLog
  let b := (e + 1075).toNat
  have hb : (BitVec.ofNat 11 b).toNat = b := by
    rw [BitVec.toNat_ofNat, Nat.mod_eq_of_lt (by omega)]
  have hNotOnes : BitVec.ofNat 11 b ≠ -1#11 := by
    intro hEq
    have hNat := congrArg BitVec.toNat hEq
    rw [hb] at hNat
    change b = 2047 at hNat
    omega
  have hNotZero : BitVec.ofNat 11 b ≠ 0#11 := by
    intro hEq
    have hNat := congrArg BitVec.toNat hEq
    rw [hb] at hNat
    change b = 0 at hNat
    omega
  have hMantissa : (1#1 ++ BitVec.ofNat 52 m).toNat = m := by
    rw [toNat_one_append, BitVec.toNat_ofNat]
    omega
  have hPack : UnpackedFloat.pack Format.binary64 (.finite s m e h) =
      packComponents Format.binary64 s (BitVec.ofNat 11 b) (BitVec.ofNat 52 m) := by
    have hBiased : (e + Format.binary64.exponentBias +
        Format.binary64.mantissaBitsWithoutImplicit).toNat = b := by
      change (e + 1023 + 52).toNat = (e + 1075).toNat
      omega
    have hBits : m.log2 + 1 = Format.binary64.mantissaBits := by
      rw [hLog]
      rfl
    have hRange : ¬ 2 ^ Format.binary64.exponentBits ≤ b + 1 := by
      change ¬ 2048 ≤ (e + 1075).toNat + 1
      omega
    simp only [UnpackedFloat.pack, hBiased, if_neg hRange, if_pos hBits]
  change UnpackedFloat.unpack Format.binary64
    (UnpackedFloat.pack Format.binary64 (.finite s m e h)) = _
  rw [hPack, UnpackedFloat.unpack]
  simp only [unpackExponent_packComponents, unpackMantissa_packComponents,
    unpackSign_packComponents, Sign.ofBitVec_toBitVec,
    if_neg hNotOnes, if_neg hNotZero, hMantissa, hb]
  congr 1
  change (b : Int) - (1023 + 52) = e
  omega

/-! ## Integers -/

theorem log2_mul_two_pow {n : Nat} (h : n ≠ 0) (k : Nat) : (n * 2 ^ k).log2 = n.log2 + k := by
  have hPos := Nat.two_pow_pos k
  refine (Nat.log2_eq_iff (Nat.mul_ne_zero h hPos.ne')).mpr ⟨?_, ?_⟩
  · rw [Nat.pow_add]
    exact Nat.mul_le_mul_right _ (Nat.log2_self_le h)
  · rw [Nat.add_right_comm, Nat.pow_add]
    exact Nat.mul_lt_mul_of_pos_right Nat.lt_log2_self hPos

theorem roundedDiv_mul_right (n s : Nat) {t : Nat} (h : 0 < t) :
    roundedDiv (n * t) (s * t) = roundedDiv n s := by
  simp only [roundedDiv, Nat.mul_div_mul_right n s h, Nat.mul_mod_mul_right, ← Nat.mul_assoc,
    Nat.mul_lt_mul_right h, Nat.mul_left_inj h.ne']

theorem roundedDiv_mul_self (m : Nat) {s : Nat} (h : 0 < s) : roundedDiv (m * s) s = m := by
  rw [roundedDiv, Nat.mul_mod_left, Nat.mul_div_cancel m h, if_pos (by omega)]

/-- What has 53 digits is not changed by rounding. -/
theorem roundWithAccuracy_digits {m : Nat} {e : Int} (s : Sign) (k : Nat) (hLog : m.log2 = 52)
    (hLow : -1074 ≤ e + k) :
    ∃ h, roundWithAccuracy Format.binary64 s (m * 2 ^ k) e .exact = .finite s m (e + k) h := by
  have hne : m ≠ 0 := by
    rintro rfl
    rw [Nat.log2_zero] at hLog
    omega
  obtain ⟨m', c, h, hRound, hLog', -, hValue⟩ :=
    roundWithAccuracy_exact s (by rw [log2_mul_two_pow hne, hLog]) hLow
  rw [roundedDiv_mul_self m (Nat.two_pow_pos k)] at hValue
  have hc : c = 0 := by
    have hSame := log2_mul_two_pow h.ne' c
    rw [hValue] at hSame
    omega
  subst hc
  obtain rfl : m' = m := by rw [← hValue, Nat.pow_zero, Nat.mul_one]
  exact ⟨h, by rw [hRound, Int.natCast_zero, Int.add_zero]⟩

/-- The digits and the exponent of a natural number that is rounded: it is `m * 2 ^ e`. -/
structure Digits (n m : Nat) (e : Int) : Prop where
  log : m.log2 = 52
  low : -52 ≤ e
  high : e ≤ 971
  value : m * 2 ^ (e + 52).toNat = nearest n * 2 ^ 52

theorem spacing_of_log {n j : Nat} (hLog : n.log2 = 52 + j) : spacing n = 2 ^ j := by
  rw [spacing, hLog, Nat.add_sub_cancel_left]

theorem log2_le_of_lt {n : Nat} (h : n < 2 ^ 53) : n.log2 ≤ 52 := by
  by_cases hZero : n = 0
  · rw [hZero, Nat.log2_zero]
    omega
  · have hLog := (Nat.log2_lt hZero).mpr h
    omega

theorem nearest_of_lt {n : Nat} (h : n < 2 ^ 53) : nearest n = n := by
  have hSpacing : spacing n = 1 := by
    rw [spacing, Nat.sub_eq_zero_of_le (log2_le_of_lt h), Nat.pow_zero]
  have hDiv := roundedDiv_mul_self n Nat.one_pos
  rw [Nat.mul_one] at hDiv
  rw [nearest, hSpacing, hDiv, Nat.mul_one]

theorem unpack_one : (Float.exactlyRepresentablePowersOfTen[0]).toModel.unpack =
    .finite .positive (2 ^ 52) (-52) (by decide) := by
  rfl

theorem unpack_ofNat_small {n : Nat} (hPos : 0 < n) (hLt : n < 2 ^ 53) :
    ∃ m e h, (Float.ofNat n).toModel.unpack = .finite .positive m e h ∧ Digits n m e := by
  have hLog := log2_le_of_lt hLt
  let m := n * 2 ^ (52 - n.log2)
  let e : Int := n.log2 - 52
  have hLogm : m.log2 = 52 := by
    rw [log2_mul_two_pow hPos.ne']
    omega
  obtain ⟨h, hRound⟩ := roundWithAccuracy_digits (e := e) .positive 0 hLogm (by omega)
  rw [Nat.pow_zero, Nat.mul_one, Int.natCast_zero, Int.add_zero] at hRound
  have hRead : n.toUInt64.toFloat.toModel.unpack = .finite .positive m e h := by
    have hNat : n.toUInt64.toNat = n := Nat.mod_eq_of_lt (by omega)
    have hCompare : compare (n : Int) 0 = .gt := Int.compare_eq_gt.mpr (by omega)
    have hShift : ((0 : Int) - max ((n.log2 : Int) + 0 - 52) (-1074)).toNat = 52 - n.log2 := by
      omega
    have hExponent : (0 : Int) - ((52 - n.log2 : Nat) : Int) = e := by omega
    have hModel : n.toUInt64.toFloat.toModel = Float.Model.pack (.finite .positive m e h) := by
      rw [← hRound]
      change Float.Model.pack (UnpackedFloat.ofNat Format.binary64 n.toUInt64.toNat) = _
      rw [hNat, UnpackedFloat.ofNat, UnpackedFloat.ofInt, UnpackedFloat.normalize, hCompare]
      simp only [UnpackedFloat.round, targetExponent_eq, decreaseExponent, Int.toNat_natCast,
        hShift, Nat.shiftLeft_eq, hExponent]
      rfl
    rw [hModel, unpack_pack_finite .positive h hLogm (by omega) (by omega)]
  -- the number is read as an integer and multiplied by one, which rounds it a second time
  obtain ⟨h', hProduct⟩ := roundWithAccuracy_digits (e := e - 52) .positive 52 hLogm (by omega)
  have hModel : (Float.ofNat n).toModel = Float.Model.pack (.finite .positive m e h) := by
    have hProductAt : e - 52 + (52 : Nat) = e := by omega
    change (Float.ofScientific n false 0).toModel = _
    rw [Float.ofScientific, dif_pos ⟨hLt, by decide⟩]
    change Float.Model.pack (UnpackedFloat.mul Format.binary64 n.toUInt64.toFloat.toModel.unpack
      (Float.exactlyRepresentablePowersOfTen[0]).toModel.unpack) = _
    rw [hRead, unpack_one]
    change Float.Model.pack
      (roundWithAccuracy Format.binary64 .positive (m * 2 ^ 52) (e - 52) .exact) = _
    rw [hProduct, hProductAt]
  refine ⟨m, e, h, ?_, hLogm, by omega, by omega, ?_⟩
  · rw [hModel, unpack_pack_finite .positive h hLogm (by omega) (by omega)]
  · rw [nearest_of_lt hLt, Nat.mul_assoc, ← Nat.pow_add]
    congr 2
    omega

theorem ofScientific_natural {n : Nat} (hne : n ≠ 0) :
    UnpackedFloat.ofScientific Format.binary64 n 0 =
      roundWithAccuracy Format.binary64 .positive (n * 2 ^ 53) (-53) .exact := by
  have hTop : ¬ (0 : Int) > 2 ^ Format.binary64.exponentBits := by decide
  have hBottom : ¬ (0 : Int) < -((2 ^ Format.binary64.exponentBits : Int) + n.log2) := by
    change ¬ (0 : Int) < -(2048 + (n.log2 : Int))
    omega
  have hShift : n <<< Format.binary64.mantissaBits = n * 2 ^ 53 := Nat.shiftLeft_eq _ _
  rw [UnpackedFloat.ofScientific, dif_neg hne, if_neg hTop, if_neg hBottom, if_pos (Int.le_refl 0)]
  simp only [UnpackedFloat.mul, hShift, Int.toNat_zero, Nat.pow_zero, Nat.mul_one, Int.add_zero]
  rfl

theorem unpack_ofNat_large {n : Nat} (hLow : 2 ^ 53 ≤ n) (hHigh : n.log2 ≤ 1022) :
    ∃ m e h, (Float.ofNat n).toModel.unpack = .finite .positive m e h ∧ Digits n m e := by
  have hne : n ≠ 0 := by omega
  have hLog53 := (Nat.le_log2 hne).mpr hLow
  obtain ⟨j, hLog⟩ : ∃ j, n.log2 = 52 + j := ⟨n.log2 - 52, by omega⟩
  obtain ⟨m, c, h, hRound, hLogm, hCarry, hValue⟩ :=
    roundWithAccuracy_exact (n := n * 2 ^ 53) (e := -53) (k := 53 + j) .positive
      (by rw [log2_mul_two_pow hne]; omega) (by omega)
  rw [Nat.add_comm 53 j, Nat.pow_add, roundedDiv_mul_right _ _ (Nat.two_pow_pos 53)] at hValue
  have hModel : (Float.ofNat n).toModel =
      Float.Model.pack (.finite .positive m (-53 + (53 + j : Nat) + c) h) := by
    change (Float.ofScientific n false 0).toModel = _
    rw [Float.ofScientific, dif_neg fun hBoth => hLow.not_gt hBoth.1, ← hRound]
    change Float.Model.pack (UnpackedFloat.ofScientific Format.binary64 n 0) = _
    rw [ofScientific_natural hne]
  refine ⟨m, -53 + (53 + j : Nat) + c, h, ?_, hLogm, by omega, by omega, ?_⟩
  · rw [hModel, unpack_pack_finite .positive h hLogm (by omega) (by omega)]
  · have hExponent : (-53 + ((53 + j : Nat) : Int) + (c : Int) + 52).toNat = c + j + 52 := by omega
    rw [hExponent, Nat.pow_add, Nat.pow_add, ← Nat.mul_assoc, ← Nat.mul_assoc, hValue, nearest,
      spacing_of_log hLog]

theorem exists_digits {n : Nat} (hPos : 0 < n) (hHigh : n.log2 ≤ 1022) :
    ∃ m e h, (Float.ofNat n).toModel.unpack = .finite .positive m e h ∧ Digits n m e := by
  rcases Nat.lt_or_ge n (2 ^ 53) with hLt | hLow
  · exact unpack_ofNat_small hPos hLt
  · exact unpack_ofNat_large hLow hHigh

theorem Digits.eq_iff {n n' m m' : Nat} {e e' : Int} (h : Digits n m e) (h' : Digits n' m' e') :
    e = e' ∧ m = m' ↔ nearest n = nearest n' := by
  have hPos := Nat.two_pow_pos 52
  have hne : ∀ k, k.log2 = 52 → k ≠ 0 := by
    rintro k hLog rfl
    rw [Nat.log2_zero] at hLog
    omega
  constructor
  · rintro ⟨rfl, rfl⟩
    exact Nat.eq_of_mul_eq_mul_right hPos (h.value.symm.trans h'.value)
  · intro hEq
    have hValue : m * 2 ^ (e + 52).toNat = m' * 2 ^ (e' + 52).toNat := by
      rw [h.value, h'.value, hEq]
    have hLog := congrArg Nat.log2 hValue
    rw [log2_mul_two_pow (hne m h.log), log2_mul_two_pow (hne m' h'.log), h.log, h'.log] at hLog
    obtain rfl : e = e' := by
      have hLow := h.low
      have hLow' := h'.low
      omega
    exact ⟨rfl, Nat.eq_of_mul_eq_mul_right (Nat.two_pow_pos _) hValue⟩

theorem Digits.nearest_pos {n m : Nat} {e : Int} (h : Digits n m e) (hm : 0 < m) :
    0 < nearest n := by
  have hValue := Nat.mul_pos hm (Nat.two_pow_pos (e + 52).toNat)
  rw [h.value] at hValue
  exact Nat.pos_of_mul_pos_right hValue

theorem rounded_natCast (n : Nat) : rounded n = nearest n := by
  cases n with
  | zero => rfl
  | succ n =>
    rw [rounded, Int.sign_eq_one_of_pos (by omega), Int.one_mul]
    rfl

theorem rounded_neg (i : Int) : rounded (-i) = -rounded i := by
  rw [rounded, rounded, Int.sign_neg, Int.natAbs_neg, Int.neg_mul]

theorem then_eq_iff {m m' : Nat} {e e' : Int} :
    (compare e e').then (compare m m') = .eq ↔ e = e' ∧ m = m' := by
  rw [Ordering.then_eq_eq, compare_eq_iff_eq, compare_eq_iff_eq]

/-- What an integer is as a floating-point number, by its sign. -/
inductive Signed : UnpackedFloat → Int → Prop
  | zero : Signed (.zero .positive) 0
  | positive {n m : Nat} {e : Int} (h : 0 < m) (hDigits : Digits n m e) :
    Signed (.finite .positive m e h) n
  | negative {n m : Nat} {e : Int} (h : 0 < m) (hDigits : Digits n m e) :
    Signed (.finite .negative m e h) (-n)

theorem signed_ofInt {i : Int} (hHigh : i.natAbs.log2 ≤ 1022) :
    Signed (Float.ofInt i).toModel.unpack i := by
  cases i with
  | ofNat n =>
    cases n with
    | zero => exact Signed.zero
    | succ n =>
      obtain ⟨m, e, h, hUnpack, hDigits⟩ := exists_digits (n := n + 1) (Nat.succ_pos n) hHigh
      change Signed (Float.ofNat (n + 1)).toModel.unpack _
      rw [hUnpack]
      exact Signed.positive h hDigits
  | negSucc n =>
    obtain ⟨m, e, h, hUnpack, hDigits⟩ := exists_digits (n := n + 1) (Nat.succ_pos n) hHigh
    have hLow := hDigits.low
    change Signed (Float.Model.pack (Float.ofNat (n + 1)).toModel.unpack.neg).unpack
      (-((n + 1 : Nat) : Int))
    rw [hUnpack]
    change Signed (Float.Model.pack (.finite .negative m e h)).unpack _
    rw [unpack_pack_finite .negative h hDigits.log (by omega) hDigits.high]
    exact Signed.negative h hDigits

/-- The sign of a rounded integer is that of its floating-point number. -/
theorem Signed.sign {x : UnpackedFloat} {i : Int} (h : Signed x i) :
    match x with
    | .zero _ => rounded i = 0
    | .finite .positive .. => 0 < rounded i
    | .finite .negative .. => rounded i < 0
    | _ => False := by
  cases h with
  | zero => rfl
  | positive h hDigits =>
    have hPos := hDigits.nearest_pos h
    simp only [rounded_natCast]
    omega
  | negative h hDigits =>
    have hPos := hDigits.nearest_pos h
    simp only [rounded_neg, rounded_natCast]
    omega

theorem Signed.compare_eq_iff {x y : UnpackedFloat} {i j : Int} (hx : Signed x i)
    (hy : Signed y j) : x.compare y = some .eq ↔ rounded i = rounded j := by
  have hLeft := hx.sign
  have hRight := hy.sign
  cases hx <;> cases hy
  case zero.zero => exact ⟨fun _ => rfl, fun _ => rfl⟩
  case positive.positive hDigits _ _ _ _ hDigits' =>
    simp only [UnpackedFloat.compare, Option.some.injEq, then_eq_iff, rounded_natCast,
      hDigits.eq_iff hDigits', Int.natCast_inj]
  case negative.negative hDigits _ _ _ _ hDigits' =>
    simp only [UnpackedFloat.compare, Option.some.injEq, Ordering.swap_eq_eq, then_eq_iff,
      rounded_neg, rounded_natCast, hDigits.eq_iff hDigits', Int.neg_inj, Int.natCast_inj]
  -- the signs are not the same
  all_goals
    simp only at hLeft hRight
    simp only [UnpackedFloat.compare, Option.some.injEq, reduceCtorEq, false_iff]
    omega

/-- Two integers are equal as floating-point numbers just if they are rounded alike. -/
theorem ofInt_beq_iff {i j : Int} (hi : i.natAbs.log2 ≤ 1022) (hj : j.natAbs.log2 ≤ 1022) :
    (Float.ofInt i == Float.ofInt j) = true ↔ rounded i = rounded j := by
  change ((Float.ofInt i).toModel.unpack.compare (Float.ofInt j).toModel.unpack == some .eq) = true
    ↔ _
  rw [beq_iff_eq, (signed_ofInt hi).compare_eq_iff (signed_ofInt hj)]

/-! ### Integers that are not rounded -/

theorem le_nearest {n : Nat} (h : 2 ^ 53 ≤ n) : 2 ^ 53 ≤ nearest n := by
  obtain ⟨k, hLog⟩ : ∃ k, n.log2 = 52 + (k + 1) :=
    ⟨n.log2 - 53, by have := (Nat.le_log2 (by omega)).mpr h; omega⟩
  have hFloor := (le_div_two_pow hLog).trans (le_roundedDiv n _)
  rw [nearest, spacing_of_log hLog]
  calc
    2 ^ 53 = 2 ^ 52 * 2 := rfl
    _ ≤ roundedDiv n (2 ^ (k + 1)) * 2 := Nat.mul_le_mul_right 2 hFloor
    _ ≤ roundedDiv n (2 ^ (k + 1)) * 2 ^ (k + 1) :=
      Nat.mul_le_mul_left _ (Nat.le_self_pow (Nat.succ_ne_zero k) 2)

theorem natAbs_rounded (i : Int) : (rounded i).natAbs = nearest i.natAbs := by
  rcases Int.lt_trichotomy i 0 with hNeg | rfl | hPos
  · rw [rounded, Int.sign_eq_neg_one_of_neg hNeg]
    omega
  · rfl
  · rw [rounded, Int.sign_eq_one_of_pos hPos]
    omega

theorem rounded_of_lt {i : Int} (h : i.natAbs < 2 ^ 53) : rounded i = i := by
  rw [rounded, nearest_of_lt h, Int.sign_mul_natAbs]

/-- An integer below `2 ^ 53` is rounded like no other integer. -/
theorem rounded_eq_iff {i j : Int} (h : i.natAbs < 2 ^ 53) : rounded i = rounded j ↔ i = j := by
  refine ⟨fun hEq => ?_, fun hEq => congrArg rounded hEq⟩
  rw [rounded_of_lt h] at hEq
  by_cases hj : j.natAbs < 2 ^ 53
  · rwa [rounded_of_lt hj] at hEq
  · have hLarge := le_nearest (Nat.le_of_not_lt hj)
    rw [← natAbs_rounded, ← hEq] at hLarge
    omega

end LiveMarkup.Number

/-! ## Values without signs of zeros -/

namespace LiveMarkup

/-- A number whose zero has no sign. -/
def Number.unsigned : Number → Number
  | int i => int i
  | float x => float (if x == 0 then 0 else x)

/-- Equal numbers differ by the sign of a zero at most. -/
theorem Number.unsigned_eq_of_same {a b : Number} (h : a.same b = true) :
    a.unsigned = b.unsigned := by
  cases a with
  | int i =>
    cases b with
    | int j => exact congrArg int (beq_iff_eq.mp h)
    | float y => cases h
  | float x =>
    cases b with
    | int j => cases h
    | float y =>
      rw [unsigned, unsigned]
      rcases eq_of_beq h with rfl | ⟨hx, hy⟩
      · rfl
      · rw [if_pos hx, if_pos hy]

namespace Value

mutual

/-- A value with no signs at the zeros in it. -/
def unsigned : Value → Value
  | null => null
  | bool b => bool b
  | number n => number n.unsigned
  | string s => string s
  | array items => array (unsignedItems items)
  | object fields => object (unsignedFields fields)

def unsignedItems : List Value → List Value
  | [] => []
  | v :: vs => v.unsigned :: unsignedItems vs

def unsignedFields : List (String × Value) → List (String × Value)
  | [] => []
  | (name, v) :: rest => (name, v.unsigned) :: unsignedFields rest

end

mutual

/-- Equal values differ by the signs of zeros at most. -/
theorem unsigned_eq_of_same : ∀ {v w : Value}, v.same w = true → v.unsigned = w.unsigned
  | null, null, _ => rfl
  | bool _, bool _, h => congrArg bool (beq_iff_eq.mp h)
  | number _, number _, h => congrArg number (Number.unsigned_eq_of_same h)
  | string _, string _, h => congrArg string (beq_iff_eq.mp h)
  | array _, array _, h => congrArg array (unsignedItems_eq_of_same h)
  | object _, object _, h => congrArg object (unsignedFields_eq_of_same h)

theorem unsignedItems_eq_of_same : ∀ {vs ws : List Value}, sameItems vs ws = true →
    unsignedItems vs = unsignedItems ws
  | [], [], _ => rfl
  | _ :: _, _ :: _, h => by
    obtain ⟨hHead, hTail⟩ := Bool.and_eq_true_iff.mp h
    rw [unsignedItems, unsignedItems, unsigned_eq_of_same hHead, unsignedItems_eq_of_same hTail]

theorem unsignedFields_eq_of_same : ∀ {as bs : List (String × Value)}, sameFields as bs = true →
    unsignedFields as = unsignedFields bs
  | [], [], _ => rfl
  | (_, _) :: _, (_, _) :: _, h => by
    obtain ⟨hHead, hTail⟩ := Bool.and_eq_true_iff.mp h
    obtain ⟨hName, hValue⟩ := Bool.and_eq_true_iff.mp hHead
    rw [unsignedFields, unsignedFields, beq_iff_eq.mp hName, unsigned_eq_of_same hValue,
      unsignedFields_eq_of_same hTail]

end

end Value

end LiveMarkup
