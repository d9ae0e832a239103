import LiveMarkup.Decimal.Shortest
import Mathlib.Algebra.Order.Field.Power
import Mathlib.Data.List.TakeWhile
import Mathlib.Data.Rat.Floor
import Mathlib.Tactic.FieldSimp
import Mathlib.Tactic.Linarith
import Mathlib.Tactic.Ring

/-!
# Shortest digits

The decimal that is written for a number lies between the midpoints around it, and the intervals
between midpoints of different numbers have no decimal in common. So the digits tell which number
they were written for, although they were only chosen to be few.

A decimal is written with its digits around a point or before an exponent, and the text is read as
the number that the decimal stands for. So two floating-point numbers that are written alike are
rounded from one real, and are the same.

* `Binary.Rounds`: the reals that round to a number;
* `Binary.Regular.eq_of_rounds`: no real rounds to two numbers;
* `Binary.Regular.rounds_search`: the search finds a decimal that rounds to the number;
* `Decimal.valueOf_text`: what is written for a decimal is read as that decimal;
* `Binary.Regular.rounds_text`: what is written for a number is read as something that rounds to it;
* `Decimal.ofFloat_inj`: finite floating-point numbers are told apart by their texts.
-/

namespace LiveMarkup.Binary

variable {b b' : Binary} {c : Nat} {k : Int} {x y : Float}

/-! ## Midpoints -/

/-- A quarter of the weight of the last binary digit. -/
def scale (b : Binary) : ℚ :=
  2 ^ (b.exponent - 2)

/-- How far the midpoint below is away, in quarters. -/
def gap (b : Binary) : Nat :=
  if b.narrowBelow then 1 else 2

/-- The number itself. -/
def value (b : Binary) : ℚ :=
  (4 * b.mantissa : Nat) * b.scale

/-- The midpoint below. -/
def low (b : Binary) : ℚ :=
  (4 * b.mantissa - b.gap : Nat) * b.scale

/-- The midpoint above. -/
def high (b : Binary) : ℚ :=
  (4 * b.mantissa + 2 : Nat) * b.scale

/-- A real rounds to the number: it lies between the midpoints, or is one of them if the mantissa
is even. -/
def Rounds (b : Binary) (x : ℚ) : Prop :=
  if b.mantissa % 2 = 0 then b.low ≤ x ∧ x ≤ b.high else b.low < x ∧ x < b.high

theorem scale_pos (b : Binary) : 0 < b.scale :=
  zpow_pos (by norm_num) _

theorem gap_pos (b : Binary) : 0 < b.gap := by
  unfold gap
  split <;> decide

theorem gap_le (b : Binary) : b.gap ≤ 2 := by
  unfold gap
  split <;> decide

theorem low_le_value (b : Binary) : b.low ≤ b.value := by
  have hScale := b.scale_pos
  rw [low, value, mul_le_mul_iff_left₀ hScale]
  exact_mod_cast Nat.sub_le _ _

theorem value_lt_high (b : Binary) : b.value < b.high := by
  have hScale := b.scale_pos
  rw [high, value, mul_lt_mul_iff_left₀ hScale]
  exact_mod_cast Nat.lt_add_of_pos_right Nat.zero_lt_two

theorem Rounds.low_le {q : ℚ} (h : b.Rounds q) : b.low ≤ q := by
  unfold Rounds at h
  split at h
  · exact h.1
  · exact h.1.le

theorem Rounds.le_high {x : ℚ} (h : b.Rounds x) : x ≤ b.high := by
  unfold Rounds at h
  split at h
  · exact h.2
  · exact h.2.le

theorem Rounds.even {x : ℚ} (h : b.Rounds x) (hx : x = b.low ∨ x = b.high) :
    b.mantissa % 2 = 0 := by
  unfold Rounds at h
  split at h
  · assumption
  · rcases hx with rfl | rfl
    · exact absurd h.1 (lt_irrefl _)
    · exact absurd h.2 (lt_irrefl _)

theorem rounds_of_lt {x : ℚ} (hLow : b.low < x) (hHigh : x < b.high) : b.Rounds x := by
  unfold Rounds
  split
  · exact ⟨hLow.le, hHigh.le⟩
  · exact ⟨hLow, hHigh⟩

/-! ## Regular numbers -/

/-- The numbers of 64 bits: the mantissa is full but for the least exponent, and the number below
is nearer where the mantissa is the least full one. -/
structure Regular (b : Binary) : Prop where
  pos : 0 < b.mantissa
  lt : b.mantissa < 2 ^ 53
  low : -1074 ≤ b.exponent
  full : b.mantissa < 2 ^ 52 → b.exponent = -1074
  narrow : b.narrowBelow = true ↔ b.mantissa = 2 ^ 52 ∧ -1074 < b.exponent

/-- The interval of a number ends where that of a greater one begins, or before. They only share a
midpoint if one of them does not have it. -/
theorem Regular.apart (hb : b.Regular) (hb' : b'.Regular)
    (h : b.exponent < b'.exponent ∨ b.exponent = b'.exponent ∧ b.mantissa < b'.mantissa) :
    b.high < b'.low ∨ b.high = b'.low ∧ (b.mantissa % 2 = 1 ∨ b'.mantissa % 2 = 1) := by
  have hScale := b.scale_pos
  have hGap := b'.gap_le
  have hLt := hb.lt
  rcases h with h | ⟨hSame, hLess⟩
  · obtain ⟨d, hd⟩ : ∃ d : Nat, b'.exponent = b.exponent + (d + 1 : Nat) :=
      ⟨(b'.exponent - b.exponent - 1).toNat, by omega⟩
    have hScales : b'.scale = (2 ^ (d + 1) : Nat) * b.scale := by
      rw [scale, scale, hd, show b.exponent + (d + 1 : Nat) - 2 = ((d + 1 : Nat) : Int) +
        (b.exponent - 2)
        by omega, zpow_add₀ two_ne_zero, zpow_natCast]
      push_cast
      rfl
    have hNormal : b'.exponent ≠ -1074 := by
      have := hb.low
      omega
    have hFull : 2 ^ 52 ≤ b'.mantissa := Nat.not_lt.mp fun hLow => hNormal (hb'.full hLow)
    have hNarrow : b'.mantissa = 2 ^ 52 → b'.gap = 1 := fun hLeast => by
      rw [gap, hb'.narrow.mpr ⟨hLeast, by have := hb'.low; omega⟩, if_pos rfl]
    have hTwo : 2 ≤ 2 ^ (d + 1) := by
      have := Nat.one_le_two_pow (n := d)
      omega
    have hLow : 2 ^ 54 - 1 ≤ 4 * b'.mantissa - b'.gap := by
      by_cases hLeast : b'.mantissa = 2 ^ 52
      · have := hNarrow hLeast
        omega
      · omega
    have hTop : 4 * b.mantissa + 2 ≤ (2 ^ 54 - 1) * 2 := by omega
    have hLe : (2 ^ 54 - 1) * 2 ≤ (4 * b'.mantissa - b'.gap) * 2 ^ (d + 1) :=
      Nat.mul_le_mul hLow hTwo
    rw [high, Binary.low, hScales, ← mul_assoc, mul_lt_mul_iff_left₀ hScale,
      mul_left_inj' hScale.ne']
    norm_cast
    omega
  · have hScales : b'.scale = b.scale := by rw [scale, scale, hSame]
    rw [high, Binary.low, hScales, mul_lt_mul_iff_left₀ hScale, mul_left_inj' hScale.ne']
    norm_cast
    have := b'.gap_pos
    omega

/-- No real rounds to two numbers. -/
theorem Regular.eq_of_rounds (hb : b.Regular) (hb' : b'.Regular) {x : ℚ} (h : b.Rounds x)
    (h' : b'.Rounds x) : b = b' := by
  have hApart : ∀ {b b' : Binary}, b.Regular → b'.Regular → b.Rounds x → b'.Rounds x →
      ¬ (b.exponent < b'.exponent ∨ b.exponent = b'.exponent ∧ b.mantissa < b'.mantissa) := by
    intro b b' hb hb' h h' hLess
    have hLe := h.le_high
    have hLe' := h'.low_le
    rcases hb.apart hb' hLess with hLt | ⟨hEq, hOdd⟩
    · exact absurd (hLe'.trans hLe) (not_le.mpr hLt)
    · have hx : x = b.high := le_antisymm hLe (hEq ▸ hLe')
      have hEven := h.even (.inr hx)
      have hEven' := h'.even (.inl (hx.trans hEq))
      omega
  have hNot := hApart hb hb' h h'
  have hNot' := hApart hb' hb h' h
  have hExponent : b.exponent = b'.exponent := by omega
  have hMantissa : b.mantissa = b'.mantissa := by omega
  have hNarrow : b.narrowBelow = b'.narrowBelow := by
    rw [Bool.eq_iff_iff, hb.narrow, hb'.narrow, hExponent, hMantissa]
  cases b
  cases b'
  simp_all

/-! ## Decimals on a grid -/

/-- The unit in which a number and the multiples of a power of ten are whole. -/
def unit (b : Binary) (k : Int) : ℚ :=
  b.den * 10 ^ (-k).toNat

theorem unit_pos (b : Binary) (k : Int) : 0 < b.unit k := by
  have hDen : 0 < b.den := Nat.two_pow_pos _
  unfold unit
  positivity

theorem pow_toNat {a : ℚ} (ha : a ≠ 0) (n : Int) : a ^ n.toNat = a ^ n * a ^ (-n).toNat := by
  rw [← zpow_natCast, ← zpow_natCast, ← zpow_add₀ ha]
  congr 1
  omega

theorem cast_num (b : Binary) : (b.num : ℚ) = b.scale * b.den := by
  have h := pow_toNat (a := 2) two_ne_zero (b.exponent - 2)
  rw [neg_sub] at h
  simpa [num, den, scale] using h

theorem cast_quarters (b : Binary) (a : Nat) (k : Int) :
    ((a * b.num * Nat.pow 10 (-k).toNat : Nat) : ℚ) = a * b.scale * b.unit k := by
  have hPow : ((Nat.pow 10 (-k).toNat : Nat) : ℚ) = 10 ^ (-k).toNat := by simp
  rw [Nat.cast_mul, Nat.cast_mul, cast_num, hPow, unit]
  ring

theorem cast_grid (b : Binary) (c : Nat) (k : Int) :
    ((c * Nat.pow 10 k.toNat * b.den : Nat) : ℚ) = c * 10 ^ k * b.unit k := by
  have hPow : ((Nat.pow 10 k.toNat : Nat) : ℚ) = 10 ^ k * 10 ^ (-k).toNat := by
    rw [← pow_toNat (by norm_num)]
    simp
  rw [Nat.cast_mul, Nat.cast_mul, hPow, unit]
  ring

theorem admits_iff : b.admits c k = true ↔ b.Rounds (c * 10 ^ k) := by
  have hUnit := b.unit_pos k
  have hLow : ∀ a : Nat, a * b.num * Nat.pow 10 (-k).toNat ≤ c * Nat.pow 10 k.toNat * b.den ↔
      a * b.scale ≤ c * 10 ^ k := fun a => by
    rw [← Nat.cast_le (α := ℚ), cast_quarters, cast_grid, mul_le_mul_iff_left₀ hUnit]
  have hHigh : ∀ a : Nat, c * Nat.pow 10 k.toNat * b.den ≤ a * b.num * Nat.pow 10 (-k).toNat ↔
      c * 10 ^ k ≤ a * b.scale := fun a => by
    rw [← Nat.cast_le (α := ℚ), cast_quarters, cast_grid, mul_le_mul_iff_left₀ hUnit]
  rw [Rounds, low, high, ← not_le, ← not_le, ← hLow, ← hHigh, ← hLow, ← hHigh]
  simp only [admits, gap]
  split <;> simp

theorem floorAt_mul_le (b : Binary) (k : Int) : b.floorAt k * 10 ^ k ≤ b.value := by
  have h : b.floorAt k * (Nat.pow 10 k.toNat * b.den) ≤
      4 * b.mantissa * b.num * Nat.pow 10 (-k).toNat := Nat.div_mul_le_self _ _
  rw [← mul_assoc, ← Nat.cast_le (α := ℚ), cast_quarters, cast_grid,
    mul_le_mul_iff_left₀ (b.unit_pos k)] at h
  exact h

theorem lt_floorAt_succ (b : Binary) (k : Int) : b.value < (b.floorAt k + 1 : Nat) * 10 ^ k := by
  have hDen : 0 < Nat.pow 10 k.toNat * b.den :=
    Nat.mul_pos (Nat.pow_pos (by decide)) (Nat.two_pow_pos _)
  have h : 4 * b.mantissa * b.num * Nat.pow 10 (-k).toNat <
      (b.floorAt k + 1) * (Nat.pow 10 k.toNat * b.den) := by
    rw [Nat.mul_comm (b.floorAt k + 1)]
    exact Nat.lt_mul_div_succ _ hDen
  rw [← mul_assoc, ← Nat.cast_lt (α := ℚ), cast_quarters, cast_grid,
    mul_lt_mul_iff_left₀ (b.unit_pos k)] at h
  exact h

/-! ## The search -/

theorem admits_of_neighbour? (h : b.neighbour? k = some c) : b.admits c k = true := by
  unfold neighbour? at h
  dsimp only at h
  split at h
  · rename_i hBelow hAbove
    split at h <;> obtain rfl := Option.some.inj h
    · exact hBelow
    · exact hAbove
  · obtain rfl := Option.some.inj h
    assumption
  · obtain rfl := Option.some.inj h
    assumption
  · cases h

/-- If a multiple of a power of ten lies between the midpoints, one of the two next to the number
does. -/
theorem exists_neighbour {j : Nat} (hLow : b.low < j * 10 ^ k) (hHigh : j * 10 ^ k < b.high) :
    ∃ c, b.neighbour? k = some c := by
  have hPow : (0 : ℚ) < 10 ^ k := zpow_pos (by norm_num) _
  have hEither : b.admits (b.floorAt k) k = true ∨ b.admits (b.floorAt k + 1) k = true := by
    rcases Nat.lt_or_ge (b.floorAt k) j with hAbove | hBelow
    · refine .inr (admits_iff.mpr (rounds_of_lt (b.low_le_value.trans_lt (b.lt_floorAt_succ k)) ?_))
      refine lt_of_le_of_lt ?_ hHigh
      rw [mul_le_mul_iff_left₀ hPow]
      exact_mod_cast hAbove
    · refine .inl (admits_iff.mpr (rounds_of_lt ?_ ((b.floorAt_mul_le k).trans_lt b.value_lt_high)))
      refine lt_of_lt_of_le hLow ?_
      rw [mul_le_mul_iff_left₀ hPow]
      exact_mod_cast hBelow
  unfold neighbour?
  dsimp only
  cases hBelow : b.admits (b.floorAt k) k <;> cases hAbove : b.admits (b.floorAt k + 1) k
  · simp [hBelow, hAbove] at hEither
  · exact ⟨_, rfl⟩
  · exact ⟨_, rfl⟩
  · dsimp only
    split
    · exact ⟨_, rfl⟩
    · exact ⟨_, rfl⟩

/-- The search does not go past a grid on which there is a decimal. -/
theorem admits_search (n : Nat) (h : b.neighbour? (k - n) = some c) :
    b.admits (b.search (n + 1) k).1 (b.search (n + 1) k).2 = true := by
  induction n generalizing k with
  | zero =>
    rw [Nat.cast_zero, sub_zero] at h
    rw [search, h]
    exact admits_of_neighbour? h
  | succ n ih =>
    rw [search]
    cases hHere : b.neighbour? k with
    | some c => exact admits_of_neighbour? hHere
    | none =>
      refine ih ?_
      rw [← h]
      congr 1
      push_cast
      ring

namespace Regular

variable (hb : b.Regular)
include hb

theorem scale_le_value : 4 * b.scale ≤ b.value := by
  have hScale := b.scale_pos
  have hOne : (1 : ℚ) ≤ b.mantissa := by exact_mod_cast hb.pos
  rw [value]
  push_cast
  nlinarith

theorem least_le_value : (10 : ℚ) ^ (-400 : Int) ≤ b.value := by
  have hLeast : (2 : ℚ) ^ (-1074 : Int) ≤ 4 * b.scale := by
    have hFour : (4 : ℚ) * b.scale = 2 ^ b.exponent := by
      rw [scale, zpow_sub₀ two_ne_zero]
      norm_num
      ring
    rw [hFour]
    exact zpow_le_zpow_right₀ one_le_two hb.low
  have hPow : (2 : ℚ) ^ 1074 ≤ 10 ^ 400 :=
    calc (2 : ℚ) ^ 1074 ≤ 2 ^ (3 * 400) := pow_le_pow_right₀ one_le_two (by decide)
      _ = (2 ^ 3) ^ 400 := pow_mul 2 3 400
      _ ≤ 10 ^ 400 := pow_le_pow_left₀ (by positivity) (by norm_num) 400
  have hSmall : (10 : ℚ) ^ (-400 : Int) ≤ 2 ^ (-1074 : Int) := by
    rw [zpow_neg, zpow_neg]
    exact inv_anti₀ (by positivity) hPow
  exact hSmall.trans (hLeast.trans hb.scale_le_value)

/-- The leading digit stands where `point` says. -/
theorem pow_point_le : 10 ^ b.point ≤ b.value := by
  have hPos : 0 < b.floorAt (-400) := by
    refine Nat.pos_of_ne_zero fun hZero => ?_
    have hLt := b.lt_floorAt_succ (-400)
    rw [hZero, Nat.cast_one, one_mul] at hLt
    exact absurd hb.least_le_value (not_le.mpr hLt)
  obtain ⟨n, hn⟩ : ∃ n, (Nat.toDigits 10 (b.floorAt (-400))).length = n + 1 :=
    Nat.exists_eq_add_one.mpr Nat.length_toDigits_pos
  have hLength : 10 ^ n ≤ b.floorAt (-400) := by
    rcases Nat.eq_zero_or_pos n with rfl | hn'
    · exact hPos
    · refine Nat.not_lt.mp fun hLt => ?_
      have := (Nat.length_toDigits_le_iff (by decide) hn').mpr hLt
      omega
  have hPoint : b.point = n + (-400) := by
    rw [point, hn]
    omega
  rw [hPoint, zpow_add₀ (by norm_num), zpow_natCast]
  refine le_trans ?_ (b.floorAt_mul_le (-400))
  rw [mul_le_mul_iff_left₀ (by positivity)]
  exact_mod_cast hLength

/-- The midpoints are further apart than decimals of seventeen digits. -/
theorem grid_lt (hk : k + 16 = b.point) : 10 ^ k < b.high - b.low := by
  have hScale := b.scale_pos
  have hWidth : b.high - b.low = (2 + b.gap : Nat) * b.scale := by
    have hPos := hb.pos
    have hGap := b.gap_le
    rw [high, Binary.low, ← sub_mul, ← Nat.cast_sub (by omega)]
    congr 2
    omega
  have hTen : (10 : ℚ) ^ k * (10 ^ 16 : Nat) ≤ b.value := by
    refine le_trans (le_of_eq ?_) hb.pow_point_le
    rw [← hk, zpow_add₀ (by norm_num)]
    norm_num
  have hMantissa : 4 * b.mantissa < (2 + b.gap) * 10 ^ 16 := by
    have hLt := hb.lt
    unfold gap
    split
    · have := (hb.narrow.mp ‹_›).1
      omega
    · omega
  have hValue : b.value < (2 + b.gap : Nat) * b.scale * (10 ^ 16 : Nat) := by
    rw [value, mul_right_comm, mul_lt_mul_iff_left₀ hScale]
    exact_mod_cast hMantissa
  rw [hWidth]
  exact lt_of_mul_lt_mul_right (hTen.trans_lt hValue) (by positivity)

/-- Sixteen digits after the first one are enough. -/
theorem exists_grid (hk : k + 16 = b.point) : ∃ c, b.neighbour? k = some c := by
  have hPow : (0 : ℚ) < 10 ^ k := by positivity
  have hLow : 0 ≤ b.low / 10 ^ k :=
    div_nonneg (mul_nonneg (Nat.cast_nonneg _) b.scale_pos.le) hPow.le
  refine exists_neighbour (j := ⌊b.low / 10 ^ k⌋₊ + 1) ?_ ?_
  · rw [← div_lt_iff₀ hPow]
    exact_mod_cast Nat.lt_floor_add_one _
  · have hFloor := (le_div_iff₀ hPow).mp (Nat.floor_le hLow)
    have hGrid := hb.grid_lt hk
    push_cast
    linarith

/-- The search finds a decimal that rounds to the number. -/
theorem rounds_search :
    b.Rounds ((b.search 17 b.point).1 * 10 ^ (b.search 17 b.point).2) := by
  obtain ⟨c, hc⟩ := hb.exists_grid (sub_add_cancel b.point 16)
  exact admits_iff.mp (admits_search 16 hc)

end Regular

/-! ## The bits of a number -/

open Float.Model.UnpackedFloat in
theorem biased_ne (h : x.isFinite = true) :
    x.toBits.toNat / Nat.pow 2 52 % Nat.pow 2 11 ≠ 2047 := by
  intro hBiased
  have hExponent : @unpackExponent .binary64 x.toBits.toBitVec = -1#_ := by
    apply BitVec.eq_of_toNat_eq
    simp only [unpackExponent, BitVec.toNat_cast, BitVec.extractLsb_toNat]
    change x.toBits.toNat >>> 52 % Nat.pow 2 11 = _
    rw [Nat.shiftRight_eq_div_pow]
    exact hBiased
  change (unpack .binary64 x.toBits.toBitVec).isFinite = true at h
  delta unpack at h
  dsimp only at h
  rw [if_pos hExponent] at h
  split at h <;> cases h

theorem regular_of_ofFloat? (h : ofFloat? x = some b) : b.Regular := by
  have hFraction : x.toBits.toNat % Nat.pow 2 52 < 2 ^ 52 := Nat.mod_lt _ (by decide)
  have hPow : Nat.pow 2 52 = 2 ^ 52 := rfl
  unfold ofFloat? at h
  dsimp only at h
  split at h
  · cases h
  · split at h
    · split at h
      · cases h
      · obtain rfl := Option.some.inj h
        constructor <;> dsimp only <;> try omega
        simp
    · obtain rfl := Option.some.inj h
      constructor <;> dsimp only <;> try omega
      simp
      omega

theorem bits_of_ofFloat? (h : ofFloat? x = some b) :
    x.toBits.toNat % 2 ^ 63 = 2 ^ 52 * (b.exponent + 1074).toNat + b.mantissa := by
  have hPow : Nat.pow 2 52 = 2 ^ 52 := rfl
  have hPow' : Nat.pow 2 11 = 2 ^ 11 := rfl
  unfold ofFloat? at h
  dsimp only at h
  rw [hPow, hPow'] at h
  split at h
  · cases h
  · split at h
    · split at h
      · cases h
      · obtain rfl := Option.some.inj h
        dsimp only
        omega
    · obtain rfl := Option.some.inj h
      dsimp only
      omega

theorem bits_of_none (hx : x.isFinite = true) (h : ofFloat? x = none) :
    x.toBits.toNat % 2 ^ 63 = 0 := by
  have hBiased := biased_ne hx
  have hPow : Nat.pow 2 52 = 2 ^ 52 := rfl
  have hPow' : Nat.pow 2 11 = 2 ^ 11 := rfl
  unfold ofFloat? at h
  dsimp only at h
  rw [hPow, hPow'] at h hBiased
  split at h
  · contradiction
  · split at h
    · split at h
      · omega
      · cases h
    · cases h

/-- A finite number is told by its sign and its magnitude. -/
theorem eq_of_ofFloat? (hx : x.isFinite = true) (hy : y.isFinite = true)
    (hSign : x.toBits.toNat / Nat.pow 2 63 = 1 ↔ y.toBits.toNat / Nat.pow 2 63 = 1)
    (h : ofFloat? x = ofFloat? y) : x = y := by
  have hSame : x.toBits.toNat % 2 ^ 63 = y.toBits.toNat % 2 ^ 63 := by
    cases hb : ofFloat? y with
    | none => rw [bits_of_none hx (h.trans hb), bits_of_none hy hb]
    | some b => rw [bits_of_ofFloat? (h.trans hb), bits_of_ofFloat? hb]
  have hBits : x.toBits.toNat = y.toBits.toNat := by
    have hPow : Nat.pow 2 63 = 2 ^ 63 := rfl
    have hxLt := x.toBits.toNat_lt
    have hyLt := y.toBits.toNat_lt
    rw [hPow] at hSign
    omega
  have hModel : x.toModel = y.toModel := by
    have hWord : x.toModel.toBits = y.toModel.toBits := UInt64.toNat_inj.mp hBits
    generalize x.toModel = m at hWord ⊢
    generalize y.toModel = m' at hWord ⊢
    cases m
    cases m'
    cases hWord
    rfl
  cases x
  cases y
  cases hModel
  rfl

end LiveMarkup.Binary

/-! ## The text of decimals -/

namespace LiveMarkup

namespace Decimal

variable {d : Decimal} {ds : List Nat} {cs whole fraction tail : List Char}

/-! ### Reading digits -/

/-- The number that a decimal stands for. -/
def value (d : Decimal) : ℚ :=
  Nat.ofDigitChars 10 (chars d.digits) 0 * 10 ^ (d.point + 1 - d.digits.length)

/-- The exponent that a text of a mark, a sign and digits stands for. -/
def exponentOf : List Char → Int
  | _ :: sign :: cs => (if sign = '-' then -1 else 1) * (Nat.ofDigitChars 10 cs 0 : Int)
  | _ => 0

/-- The number that a text stands for: digits around a point, and an exponent. -/
def valueOf (cs : List Char) : ℚ :=
  let front := cs.takeWhile (· != 'e')
  let whole := front.takeWhile (· != '.')
  let fraction := (front.dropWhile (· != '.')).drop 1
  Nat.ofDigitChars 10 (whole ++ fraction) 0 *
    10 ^ (exponentOf (cs.dropWhile (· != 'e')) - fraction.length)

theorem span_exponent (hFront : ∀ c ∈ cs, c ≠ 'e') (hTail : ∀ c ∈ tail.head?, c = 'e') :
    (cs ++ tail).takeWhile (· != 'e') = cs ∧ (cs ++ tail).dropWhile (· != 'e') = tail := by
  have hFront : ∀ c ∈ cs, (c != 'e') = true := fun c hc => bne_iff_ne.mpr (hFront c hc)
  rw [List.takeWhile_append_of_pos hFront, List.dropWhile_append_of_pos hFront]
  cases tail with
  | nil => exact ⟨List.append_nil _, rfl⟩
  | cons c tail =>
    obtain rfl := hTail c rfl
    exact ⟨by simp, by simp⟩

section Parts

variable (tail) (hTail : ∀ c ∈ tail.head?, c = 'e') (hWhole : ∀ c ∈ whole, c.isDigit = true)
include hWhole hTail

theorem valueOf_whole : valueOf (whole ++ tail) =
    Nat.ofDigitChars 10 whole 0 * 10 ^ exponentOf tail := by
  have hNot : ∀ c ∈ whole, c ≠ 'e' ∧ (c != '.') = true := fun c hc => by
    have hDigit := hWhole c hc
    constructor
    · rintro rfl
      cases hDigit
    · rw [bne_iff_ne]
      rintro rfl
      cases hDigit
  obtain ⟨hFront, hRest⟩ := span_exponent (fun c hc => (hNot c hc).1) hTail
  have hAll : whole.takeWhile (· != '.') = whole := by
    rw [List.takeWhile_eq_self_iff]
    exact fun c hc => (hNot c hc).2
  have hNone : whole.dropWhile (· != '.') = [] := by
    rw [List.dropWhile_eq_nil_iff]
    exact fun c hc => (hNot c hc).2
  simp [valueOf, hFront, hRest, hAll, hNone]

theorem valueOf_fraction (hFraction : ∀ c ∈ fraction, c.isDigit = true) :
    valueOf (whole ++ '.' :: fraction ++ tail) =
      Nat.ofDigitChars 10 (whole ++ fraction) 0 * 10 ^ (exponentOf tail - fraction.length) := by
  have hDigit : ∀ {cs : List Char}, (∀ c ∈ cs, c.isDigit = true) →
      ∀ c ∈ cs, c ≠ 'e' ∧ (c != '.') = true := fun hAll c hc => by
    have hDigit := hAll c hc
    constructor
    · rintro rfl
      cases hDigit
    · rw [bne_iff_ne]
      rintro rfl
      cases hDigit
  have hNot : ∀ c ∈ whole ++ '.' :: fraction, c ≠ 'e' := fun c hc => by
    rcases List.mem_append.mp hc with hc | hc
    · exact (hDigit hWhole c hc).1
    · rcases List.mem_cons.mp hc with rfl | hc
      · decide
      · exact (hDigit hFraction c hc).1
  obtain ⟨hFront, hRest⟩ := span_exponent hNot hTail
  have hTake : (whole ++ '.' :: fraction).takeWhile (· != '.') = whole := by
    rw [List.takeWhile_append_of_pos fun c hc => (hDigit hWhole c hc).2]
    simp
  have hDrop : (whole ++ '.' :: fraction).dropWhile (· != '.') = '.' :: fraction := by
    rw [List.dropWhile_append_of_pos fun c hc => (hDigit hWhole c hc).2]
    simp
  rw [valueOf, hFront, hRest, hTake, hDrop]
  rfl

omit hTail in
theorem valueOf_point (hFraction : ∀ c ∈ fraction, c.isDigit = true) :
    valueOf (whole ++ '.' :: fraction) =
      Nat.ofDigitChars 10 (whole ++ fraction) 0 * 10 ^ (-fraction.length : Int) := by
  have h := valueOf_fraction [] nofun hWhole hFraction
  rwa [List.append_nil, exponentOf.eq_def, zero_sub] at h

end Parts

/-! ### Reading a decimal -/

theorem isDigit_of_mem_chars (hDigits : ∀ n ∈ ds, n < 10) : ∀ c ∈ chars ds, c.isDigit = true := by
  intro c hc
  obtain ⟨n, hn, rfl⟩ := List.mem_map.mp hc
  have hAll : ∀ n < 10, (Char.ofNat ('0'.toNat + n)).isDigit = true := by decide
  exact hAll n (hDigits n hn)

theorem chars_append (ds es : List Nat) : chars (ds ++ es) = chars ds ++ chars es :=
  List.map_append

theorem chars_zeros (n : Nat) : chars (List.replicate n 0) = List.replicate n '0' :=
  List.map_replicate

@[simp]
theorem length_chars (ds : List Nat) : (chars ds).length = ds.length :=
  List.length_map _

theorem exponentOf_toDigits (e : Int) :
    exponentOf ('e' :: (if e < 0 then '-' else '+') :: Nat.toDigits 10 e.natAbs) = e := by
  rw [exponentOf, Nat.ofDigitChars_ten_toDigits]
  split
  · rw [if_pos rfl]
    omega
  · rw [if_neg (by decide)]
    omega

theorem valueOf_scientific (hDigits : ∀ n ∈ d.digits, n < 10) :
    valueOf d.scientific = d.value := by
  have hDigit := isDigit_of_mem_chars hDigits
  have hTail : ∀ c ∈ ('e' :: (if d.point < 0 then '-' else '+') ::
      Nat.toDigits 10 d.point.natAbs).head?, c = 'e' := fun c hc => (Option.some.inj hc).symm
  unfold scientific value
  match hList : d.digits with
  | [] =>
    have h := valueOf_whole _ hTail (fun c (hc : c ∈ []) => nomatch hc)
    simpa [chars] using h
  | [a] =>
    rw [hList] at hDigit
    dsimp only
    rw [valueOf_whole _ hTail hDigit, exponentOf_toDigits]
    simp
  | a :: b :: rest =>
    rw [hList, ← List.singleton_append, chars_append] at hDigit
    dsimp only
    rw [valueOf_fraction _ hTail (fun c hc => hDigit c (List.mem_append_left _ hc))
      fun c hc => hDigit c (List.mem_append_right _ hc), exponentOf_toDigits, ← chars_append,
      length_chars]
    simp only [List.singleton_append, List.length_cons]
    push_cast
    ring_nf

theorem isDigit_of_mem_zeros (n : Nat) : ∀ c ∈ chars (List.replicate n 0), c.isDigit = true :=
  isDigit_of_mem_chars fun m hm => by
    rw [List.eq_of_mem_replicate hm]
    decide

theorem valueOf_positional (hDigits : ∀ n ∈ d.digits, n < 10) :
    valueOf d.positional = d.value := by
  have hDigit := isDigit_of_mem_chars hDigits
  have hZeros := isDigit_of_mem_zeros
  unfold positional value
  split
  case isTrue hLow =>
    have hFraction : ∀ c ∈ chars (List.replicate (-d.point - 1).toNat 0 ++ d.digits),
        c.isDigit = true := by
      rw [chars_append]
      exact fun c hc => (List.mem_append.mp hc).elim (hZeros _ c) (hDigit c)
    refine (valueOf_point (hZeros 1) hFraction).trans ?_
    rw [length_chars, List.length_append, List.length_replicate, ← chars_append,
      ← List.append_assoc,
      List.replicate_append_replicate, chars_append, chars_zeros, Nat.ofDigitChars_append,
      Nat.ofDigitChars_replicate_zero, Nat.mul_zero]
    congr 2
    omega
  case isFalse hHigh =>
    dsimp only
    generalize hSize : d.point.toNat + 1 = size
    have hPoint : d.point + 1 = size := by omega
    by_cases hShort : d.digits.length ≤ size
    · have hLength : (d.digits ++ List.replicate (size - d.digits.length) 0).length = size := by
        rw [List.length_append, List.length_replicate]
        omega
      have hPadded : ∀ c ∈ chars (d.digits ++ List.replicate (size - d.digits.length) 0),
          c.isDigit = true := by
        rw [chars_append]
        exact fun c hc => (List.mem_append.mp hc).elim (hDigit c) (hZeros _ c)
      rw [List.drop_of_length_le hLength.le, List.take_of_length_le hLength.le, List.isEmpty_nil,
        if_pos rfl]
      refine (valueOf_point hPadded (hZeros 1)).trans ?_
      rw [← chars_append, List.append_assoc, List.replicate_append_replicate, chars_append,
        chars_zeros, Nat.ofDigitChars_append, Nat.ofDigitChars_replicate_zero, hPoint,
        show (size : Int) - d.digits.length = (size - d.digits.length : Nat) by omega, zpow_natCast]
      push_cast
      rw [pow_succ, length_chars, List.length_singleton, Nat.cast_one, zpow_neg_one]
      field_simp
    · rw [Nat.sub_eq_zero_of_le (by omega), List.replicate_zero, List.append_nil,
        if_neg (by rw [List.isEmpty_iff, List.drop_eq_nil_iff]; omega)]
      have hTake : ∀ c ∈ chars (d.digits.take size), c.isDigit = true := fun c hc =>
        hDigit c (List.map_subset _ (List.take_subset _ _) hc)
      have hDrop : ∀ c ∈ chars (d.digits.drop size), c.isDigit = true := fun c hc =>
        hDigit c (List.map_subset _ (List.drop_subset _ _) hc)
      refine (valueOf_point hTake hDrop).trans ?_
      rw [← chars_append, List.take_append_drop, length_chars, List.length_drop, hPoint,
        Nat.cast_sub (by omega), neg_sub]

/-- A decimal is read as the number that it stands for. -/
theorem valueOf_text (hDigits : ∀ n ∈ d.digits, n < 10) : valueOf d.text = d.value := by
  unfold text
  split
  · exact valueOf_positional hDigits
  · exact valueOf_scientific hDigits

/-! ### What is written -/

theorem exists_strip (ds : List Nat) : ∃ n, ds = strip ds ++ List.replicate n 0 := by
  have hZeros : ∀ d ∈ (ds.reverse.takeWhile (· == 0)).reverse, d = 0 := by
    intro d hd
    have hZero := List.mem_takeWhile_imp (List.mem_reverse.mp hd)
    exact beq_iff_eq.mp hZero
  refine ⟨(ds.reverse.takeWhile (· == 0)).reverse.length, ?_⟩
  rw [← List.eq_replicate_of_mem hZeros, strip, ← List.reverse_append,
    List.takeWhile_append_dropWhile, List.reverse_reverse]

theorem value_strip (ds : List Nat) (p : Int) :
    value ⟨strip ds, p + ds.length⟩ = Nat.ofDigitChars 10 (chars ds) 0 * 10 ^ (p + 1) := by
  obtain ⟨n, hn⟩ := exists_strip ds
  have hLength : (ds.length : Int) = (strip ds).length + n := by
    conv_lhs => rw [hn]
    rw [List.length_append, List.length_replicate, Nat.cast_add]
  conv_rhs => rw [hn, chars_append, chars_zeros, Nat.ofDigitChars_append,
    Nat.ofDigitChars_replicate_zero]
  rw [value, hLength, show p + ((strip ds).length + n) + 1 - (strip ds).length =
    (p + 1) + n by ring,
    zpow_add₀ (by norm_num), zpow_natCast]
  push_cast
  ring

theorem chars_toDigits (c : Nat) :
    chars ((Nat.toDigits 10 c).map fun d => d.toNat - '0'.toNat) = Nat.toDigits 10 c := by
  rw [chars, List.map_map]
  refine (List.map_congr_left fun d hd => ?_).trans (List.map_id _)
  have hDigit := Nat.isDigit_of_mem_toDigits (by decide) (by decide) hd
  simp only [Char.isDigit, Bool.and_eq_true, decide_eq_true_eq] at hDigit
  have hLow : 48 ≤ d.toNat := hDigit.1
  have hZero : '0'.toNat = 48 := rfl
  rw [Function.comp_apply, hZero, Nat.add_sub_cancel' hLow]
  exact Char.ofNat_toNat d

end Decimal

namespace Binary

variable {b b' : Binary} {x y : Float}

theorem shortest_digits (b : Binary) : ∀ d ∈ b.shortest.digits, d < 10 := by
  intro d hd
  have hIn : d ∈ (Nat.toDigits 10 (b.search 17 b.point).1).map fun d => d.toNat - '0'.toNat := by
    obtain ⟨n, hn⟩ := Decimal.exists_strip
      ((Nat.toDigits 10 (b.search 17 b.point).1).map fun d => d.toNat - '0'.toNat)
    rw [hn]
    exact List.mem_append_left _ hd
  obtain ⟨c, hc, rfl⟩ := List.mem_map.mp hIn
  have hDigit := Nat.isDigit_of_mem_toDigits (by decide) (by decide) hc
  simp only [Char.isDigit, Bool.and_eq_true, decide_eq_true_eq] at hDigit
  have hHigh : c.toNat ≤ 57 := hDigit.2
  have hZero : '0'.toNat = 48 := rfl
  omega

/-- The digits that are written are those that were found. -/
theorem value_shortest (b : Binary) :
    b.shortest.value = (b.search 17 b.point).1 * 10 ^ (b.search 17 b.point).2 := by
  have h := Decimal.value_strip
    ((Nat.toDigits 10 (b.search 17 b.point).1).map fun d => d.toNat - '0'.toNat)
    ((b.search 17 b.point).2 - 1)
  rw [Decimal.chars_toDigits, Nat.ofDigitChars_ten_toDigits, sub_add_cancel] at h
  rw [← h]
  unfold shortest
  dsimp only
  congr 2
  ring

/-- What is written for a number is read as something that rounds to it. -/
theorem Regular.rounds_text (hb : b.Regular) : b.Rounds (Decimal.valueOf b.shortest.text) := by
  rw [Decimal.valueOf_text b.shortest_digits, value_shortest]
  exact hb.rounds_search

end Binary

namespace Decimal

variable {x y : Float} {d : Decimal}

/-! ### The text of a number -/

/-- The text of a magnitude. -/
def magnitude : Option Binary → List Char
  | some b => b.shortest.text
  | none => ['0', '.', '0']

theorem ofFloat_toList (x : Float) : (ofFloat x).toList =
    (if x.toBits.toNat / Nat.pow 2 63 = 1 then ['-'] else []) ++ magnitude (Binary.ofFloat? x) := by
  unfold ofFloat
  dsimp only
  rw [String.toList_ofList]
  cases Binary.ofFloat? x
  all_goals
    split <;> rfl

/-- A character of a decimal, other than a digit. -/
def marks : List Char :=
  ['.', 'e', '-', '+']

/-- A decimal starts with digits, and then there is a point or an exponent. -/
theorem exists_text (hDigits : ∀ n ∈ d.digits, n < 10) :
    ∃ ds c rest, d.text = chars ds ++ c :: rest ∧
    (∀ n ∈ ds, n < 10) ∧ (c = '.' ∨ c = 'e') ∧ ∀ c ∈ rest, c.isDigit = true ∨ c ∈ marks := by
  have hPadded : ∀ {n : Nat}, ∀ e ∈ d.digits ++ List.replicate n 0, e < 10 := by
    intro n e he
    rcases List.mem_append.mp he with he | he
    · exact hDigits e he
    · rw [List.eq_of_mem_replicate he]
      decide
  have hExponent : ∀ c ∈ (if d.point < 0 then '-' else '+') :: Nat.toDigits 10 d.point.natAbs,
      c.isDigit = true ∨ c ∈ marks := by
    intro c hc
    rcases List.mem_cons.mp hc with rfl | hc
    · right
      split <;> decide
    · exact .inl (Nat.isDigit_of_mem_toDigits (by decide) (by decide) hc)
  unfold text
  split
  · unfold positional
    split
    · refine ⟨[0], '.', _, rfl, by decide, .inl rfl,
        fun c hc => .inl (isDigit_of_mem_chars ?_ c hc)⟩
      intro n hn
      rcases List.mem_append.mp hn with hn | hn
      · rw [List.eq_of_mem_replicate hn]
        decide
      · exact hDigits n hn
    · refine ⟨_, '.', _, rfl, fun n hn => hPadded n (List.take_subset _ _ hn), .inl rfl, fun c hc =>
        .inl (isDigit_of_mem_chars ?_ c hc)⟩
      intro n hn
      split at hn
      · rw [List.mem_singleton.mp hn]
        decide
      · exact hPadded n (List.drop_subset _ _ hn)
  · unfold scientific
    match hList : d.digits with
    | [] => exact ⟨[], 'e', _, rfl, by decide, .inr rfl, hExponent⟩
    | [a] => exact ⟨[a], 'e', _, rfl, hList ▸ hDigits, .inr rfl, hExponent⟩
    | a :: b :: rest =>
      rw [hList] at hDigits
      obtain ⟨ha, hRest⟩ := List.forall_mem_cons.mp hDigits
      refine ⟨[a], '.', _, List.append_assoc .., by simpa using ha, .inl rfl, fun c hc => ?_⟩
      rcases List.mem_append.mp hc with hc | hc
      · exact .inl (isDigit_of_mem_chars hRest c hc)
      · rcases List.mem_cons.mp hc with rfl | hc
        · exact .inr (by decide)
        · exact hExponent c hc

/-- What is written for a magnitude starts with digits, and then there is a point or an
exponent. -/
theorem exists_magnitude (m : Option Binary) : ∃ ds c rest, magnitude m = chars ds ++ c :: rest ∧
    (∀ n ∈ ds, n < 10) ∧ (c = '.' ∨ c = 'e') ∧ ∀ c ∈ rest, c.isDigit = true ∨ c ∈ marks := by
  cases m with
  | some b => exact exists_text b.shortest_digits
  | none => exact ⟨[0], '.', ['0'], rfl, by decide, .inl rfl, fun c hc =>
    .inl (List.mem_singleton.mp hc ▸ rfl)⟩

theorem head_magnitude (m : Option Binary) : ∀ c ∈ (magnitude m).head?, c ≠ '-' := by
  obtain ⟨ds, c, rest, hText, hDigits, hMark, -⟩ := exists_magnitude m
  rw [hText]
  intro e he
  cases ds with
  | nil =>
    obtain rfl : c = e := Option.some.inj he
    rcases hMark with rfl | rfl <;> decide
  | cons n ds =>
    have hDigit := isDigit_of_mem_chars hDigits e
      (List.mem_of_mem_head? (by simpa [chars] using he))
    rintro rfl
    cases hDigit

/-- A floating-point number is written with digits and marks, and a point or an exponent is among
them. -/
theorem mem_ofFloat (x : Float) : (∀ c ∈ (ofFloat x).toList, c.isDigit = true ∨ c ∈ marks) ∧
    ∃ c ∈ (ofFloat x).toList, c = '.' ∨ c = 'e' := by
  rw [ofFloat_toList]
  obtain ⟨ds, c, rest, hText, hDigits, hMark, hRest⟩ := exists_magnitude (Binary.ofFloat? x)
  rw [hText]
  refine ⟨fun e he => ?_, c,
    List.mem_append_right _ (List.mem_append_right _ List.mem_cons_self), hMark⟩
  rcases List.mem_append.mp he with he | he
  · split at he
    · exact .inr (List.mem_singleton.mp he ▸ by decide)
    · cases he
  · rcases List.mem_append.mp he with he | he
    · exact .inl (isDigit_of_mem_chars hDigits e he)
    · rcases List.mem_cons.mp he with rfl | he
      · rcases hMark with rfl | rfl <;> exact .inr (by decide)
      · exact hRest e he

theorem magnitude_inj {m m' : Option Binary} (hm : ∀ b ∈ m, b.Regular) (hm' : ∀ b ∈ m', b.Regular)
    (h : magnitude m = magnitude m') : m = m' := by
  have hZero : valueOf (magnitude none) = 0 := by
    simp [magnitude, valueOf, Nat.ofDigitChars_cons]
  have hPos : ∀ b : Binary, b.Regular → valueOf (magnitude (some b)) ≠ 0 := by
    intro b hb hValue
    have hLow : 0 < b.low := by
      have := hb.pos
      have := b.gap_le
      refine mul_pos ?_ b.scale_pos
      rw [Nat.cast_pos]
      omega
    have hLe := hb.rounds_text.low_le
    exact absurd (hLow.trans_le hLe) (not_lt.mpr hValue.le)
  cases m with
  | none =>
    cases m' with
    | none => rfl
    | some b' => exact absurd (h ▸ hZero) (hPos b' (hm' b' rfl))
  | some b =>
    cases m' with
    | none => exact absurd (h ▸ hZero) (hPos b (hm b rfl))
    | some b' =>
      have hRounds := (hm b rfl).rounds_text
      have hRounds' := (hm' b' rfl).rounds_text
      rw [show b.shortest.text = b'.shortest.text from h] at hRounds
      rw [(hm b rfl).eq_of_rounds (hm' b' rfl) hRounds hRounds']

/-- Finite floating-point numbers that are written alike are the same. -/
theorem ofFloat_inj (hx : x.isFinite = true) (hy : y.isFinite = true) (h : ofFloat x = ofFloat y) :
    x = y := by
  have hList := congrArg String.toList h
  rw [ofFloat_toList, ofFloat_toList] at hList
  have hHead : ∀ m m', magnitude m ≠ '-' :: magnitude m' := fun m m' hSame =>
    head_magnitude m '-' (by rw [hSame]; rfl) rfl
  have hBoth : (x.toBits.toNat / Nat.pow 2 63 = 1 ↔ y.toBits.toNat / Nat.pow 2 63 = 1) ∧
      magnitude (Binary.ofFloat? x) = magnitude (Binary.ofFloat? y) := by
    split at hList <;> split at hList
    · exact ⟨iff_of_true ‹_› ‹_›, List.append_cancel_left hList⟩
    · exact absurd hList.symm (hHead _ _)
    · exact absurd hList (hHead _ _)
    · exact ⟨iff_of_false ‹_› ‹_›, hList⟩
  exact Binary.eq_of_ofFloat? hx hy hBoth.1 (magnitude_inj
    (fun b => Binary.regular_of_ofFloat?) (fun b => Binary.regular_of_ofFloat?) hBoth.2)

end Decimal

end LiveMarkup
