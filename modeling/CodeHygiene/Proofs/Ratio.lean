import CodeHygiene.Proofs.Real

/-!
Ratios of counts, and the whole limits that they exceed.

Proved:
(1) An ordinary number, one with a mantissa of 53 bits, is packed without loss (`unpack_pack_normal`), and two of them
    compare as the rationals that they stand for (`HasValue.lt_iff`).
(2) Rounding drops bits of a mantissa and then goes up by one at most; where it drops nothing, it changes nothing
    (`exists_rounded`).
(3) So a count stands for itself (`hasValue_ofNat`), and a ratio of two counts is greater than the same whole numbers as
    their quotient is (`exists_hasValue_div`).
(4) A ratio of counts exceeds a whole limit exactly where the first count is greater than the limit times the second
    (`whole_exceededBy_div_iff`).
-/

namespace CodeHygiene

namespace Real

open Float.Model Float.Model.UnpackedFloat

/-! ## Ordinary numbers -/

/-- A mantissa of 53 bits, and an exponent that is neither too small nor too great for it. -/
structure IsNormal (m : Nat) (e : Int) : Prop where
  low : 2 ^ 52 ≤ m
  high : m < 2 ^ 53
  least : -1074 ≤ e
  most : e ≤ 971

variable {m m' : Nat} {e e' : Int}

theorem IsNormal.log2 (h : IsNormal m e) : m.log2 = 52 :=
  (Nat.log2_eq_iff (Nat.ne_of_gt (Nat.lt_of_lt_of_le (by decide) h.low))).mpr ⟨h.low, h.high⟩

/-- An ordinary number is packed without loss. -/
theorem unpack_pack_normal (h : IsNormal m e) (pos : 0 < m) :
    UnpackedFloat.unpack Format.binary64 (UnpackedFloat.pack Format.binary64 (.finite .positive m e pos)) =
      .finite .positive m e pos := by
  have least := h.least
  have most := h.most
  generalize biased : (e + (Format.binary64.exponentBias : Int) + (52 : Nat)).toNat = b
  have shifted : (b : Int) = e + 1075 := by
    rw [← biased]
    show (((e + ((1023 : Nat) : Int) + (52 : Nat)).toNat : Nat) : Int) = e + 1075
    omega
  have bits : (BitVec.ofNat 11 b).toNat = b := by
    rw [BitVec.toNat_ofNat]
    exact Nat.mod_eq_of_lt (by omega)
  have not_full : BitVec.ofNat 11 b ≠ -1#11 := by
    intro full
    have := congrArg BitVec.toNat full
    rw [bits] at this
    have : b = 2047 := this
    omega
  have not_empty : BitVec.ofNat 11 b ≠ 0#11 := by
    intro empty
    have := congrArg BitVec.toNat empty
    rw [bits] at this
    have : b = 0 := this
    omega
  have mantissa : (1#1 ++ BitVec.ofNat 52 m).toNat = m := by
    have low := h.low
    have high := h.high
    rw [BitVec.toNat_append, ← Nat.shiftLeft_add_eq_or_of_lt (BitVec.isLt _), BitVec.toNat_ofNat, Nat.shiftLeft_eq]
    show 1 * 2 ^ 52 + m % 2 ^ 52 = m
    omega
  have packed : UnpackedFloat.pack Format.binary64 (.finite .positive m e pos) =
      packComponents Format.binary64 .positive (BitVec.ofNat 11 b) (BitVec.ofNat 52 m) := by
    simp only [UnpackedFloat.pack, biased, h.log2]
    rw [if_neg (by omega), if_pos (by rfl)]
  rw [packed]
  simp only [UnpackedFloat.unpack, unpackMantissa_packComponents, unpackExponent_packComponents,
    unpackSign_packComponents, Sign.ofBitVec_toBitVec]
  rw [if_neg not_full, if_neg not_empty, UnpackedFloat.finite.injEq]
  refine ⟨rfl, mantissa, ?_⟩
  rw [bits]
  show (b : Int) - (((1023 : Nat) : Int) + (52 : Nat)) = e
  omega

/-- A real is an ordinary number and stands for a rational. -/
def HasValue (x : Float) (v : ℚ) : Prop :=
  ∃ (m : Nat) (e : Int) (pos : 0 < m), IsNormal m e ∧ x.toModel.unpack = .finite .positive m e pos ∧ v = m * 2 ^ e

/-- Ordinary numbers compare by their exponents first, as the rationals that they stand for do. -/
theorem IsNormal.lex_lt_iff (h : IsNormal m e) (h' : IsNormal m' e') :
    toLex (e, (m : Int)) < toLex (e', (m' : Int)) ↔ (m : ℚ) * 2 ^ e < m' * 2 ^ e' := by
  have apart {m m' : Nat} {e e' : Int} (h : IsNormal m e) (h' : IsNormal m' e') (less : e < e') :
      (m : ℚ) * 2 ^ e < m' * 2 ^ e' := by
    have high : (m : ℚ) < 2 ^ 53 := by exact_mod_cast h.high
    have low : (2 ^ 52 : ℚ) ≤ m' := by exact_mod_cast h'.low
    have step : (2 : ℚ) ^ (e + 1) ≤ 2 ^ e' := zpow_le_zpow_right₀ (by norm_num) (by omega)
    calc (m : ℚ) * 2 ^ e < 2 ^ 53 * 2 ^ e := by gcongr
      _ = 2 ^ 52 * 2 ^ (e + 1) := by rw [zpow_add_one₀ (by norm_num)]; ring
      _ ≤ m' * 2 ^ e' := by gcongr
  rw [Prod.Lex.toLex_lt_toLex]
  dsimp only
  rcases lt_trichotomy e e' with less | rfl | more
  · exact iff_of_true (.inl less) (apart h h' less)
  · have scaled : (m : ℚ) * 2 ^ e < m' * 2 ^ e ↔ m < m' := by
      rw [mul_lt_mul_iff_left₀ (by positivity)]
      exact_mod_cast Iff.rfl
    rw [scaled]
    omega
  · refine iff_of_false ?_ (not_lt_of_gt (apart h' h more))
    omega

theorem HasValue.place {x : Float} {v : ℚ} (h : HasValue x v) : ∃ m e, IsNormal m e ∧ v = m * 2 ^ e ∧
    Real.place x = some (toLex (1, toLex (e, (m : Int)))) := by
  obtain ⟨m, e, pos, normal, number, value⟩ := h
  exact ⟨m, e, normal, value, by rw [Real.place, number]; rfl⟩

theorem HasValue.zero_lt {x : Float} {v : ℚ} (h : HasValue x v) : 0 < x := by
  obtain ⟨m, e, -, -, there⟩ := h.place
  refine Real.lt_iff.mpr ⟨toLex (0, toLex (0, 0)), _, rfl, there, ?_⟩
  exact Prod.Lex.toLex_lt_toLex.mpr (.inl Int.zero_lt_one)

theorem HasValue.lt_iff {x y : Float} {v w : ℚ} (h : HasValue x v) (h' : HasValue y w) : x < y ↔ v < w := by
  obtain ⟨m, e, normal, rfl, there⟩ := h.place
  obtain ⟨m', e', normal', rfl, there'⟩ := h'.place
  rw [Real.lt_iff, there, there', ← normal.lex_lt_iff normal']
  simp [Prod.Lex.toLex_lt_toLex]

/-- What is packed as an ordinary number has its value. -/
theorem hasValue_of_unpack {x : Float} {y : UnpackedFloat} {pos : 0 < m}
    (packed : x.toModel.unpack = UnpackedFloat.unpack Format.binary64 (UnpackedFloat.pack Format.binary64 y))
    (number : y = .finite .positive m e pos) (normal : IsNormal m e) : HasValue x (m * 2 ^ e) :=
  ⟨m, e, pos, normal, by rw [packed, number, unpack_pack_normal normal], rfl⟩

/-! ## Rounding -/

theorem mantissa_shiftRight (em : ExtendedMantissa) (k : Nat) : (em >>> k).mantissa = em.mantissa / 2 ^ k := by
  induction k with
  | zero => exact (Nat.div_one _).symm
  | succ k ih =>
    show (em >>> k).mantissa / 2 = _
    rw [ih, Nat.div_div_eq_div_mul, Nat.pow_succ]

/-- What is exact stays exact when bits that are zero are dropped. -/
theorem shiftRight_exact (n k : Nat) :
    (ExtendedMantissa.ofMantissaAndAccuracy (n * 2 ^ k) .exact) >>> k = ⟨n, false, false⟩ := by
  induction k generalizing n with
  | zero =>
    rw [Nat.pow_zero, Nat.mul_one]
    rfl
  | succ k ih =>
    show ((ExtendedMantissa.ofMantissaAndAccuracy (n * 2 ^ (k + 1)) .exact) >>> k).shiftRightOne = _
    have more := ih (n * 2)
    rw [Nat.mul_assoc, ← Nat.pow_succ'] at more
    rw [more]
    simp [ExtendedMantissa.shiftRightOne]

theorem roundedMantissa_bounds (em : ExtendedMantissa) :
    em.roundedMantissa = em.mantissa ∨ em.roundedMantissa = em.mantissa + 1 := by
  obtain ⟨m, round, sticky⟩ := em
  cases round <;> cases sticky
  · exact .inl rfl
  · exact .inl rfl
  · show m + m % 2 = m ∨ m + m % 2 = m + 1
    omega
  · exact .inr rfl

theorem shiftToTargetExponent_eq {a : Accuracy} {k : Nat} (bits : m.log2 = 52 + k) (least : -1074 ≤ e + k) :
    shiftToTargetExponent Format.binary64 m e a = ((ExtendedMantissa.ofMantissaAndAccuracy m a) >>> k, e + k) := by
  have target : Format.binary64.targetExponent (totalExponent m e) = e + k := by
    show max (((m.log2 : Int) + 1 + e) - ((53 : Nat) : Int)) (-1074) = e + k
    omega
  have amount : (e + k - e).toNat = k := by omega
  unfold shiftToTargetExponent shiftToExponent
  dsimp only
  rw [target, amount]

theorem log2_of_bounds {k : Nat} (low : 2 ^ 52 * 2 ^ k ≤ m) (high : m < 2 ^ 53 * 2 ^ k) : m.log2 = 52 + k := by
  have some : m ≠ 0 := Nat.ne_of_gt (Nat.lt_of_lt_of_le (by positivity) low)
  rw [Nat.log2_eq_iff some, show 52 + k + 1 = 53 + k by omega, Nat.pow_add, Nat.pow_add]
  exact ⟨low, high⟩

/-- Rounding up leaves one bit too many at most, and that bit is zero. -/
theorem exists_carry (low : 2 ^ 52 ≤ m) (high : m ≤ 2 ^ 53) : ∃ j q, j ≤ 1 ∧ m = q * 2 ^ j ∧ 2 ^ 52 ≤ q ∧ q < 2 ^ 53 := by
  by_cases fits : m < 2 ^ 53
  · exact ⟨0, m, Nat.zero_le _, (Nat.mul_one m).symm, low, fits⟩
  · exact ⟨1, 2 ^ 52, Nat.le_refl _, by omega, by decide, by decide⟩

/-- Behind the first shift nothing but zero bits is dropped, so the value is that of the rounded mantissa. -/
theorem exists_finite_of_shift {a : Accuracy} {em : ExtendedMantissa} {e₁ : Int}
    (first : shiftToTargetExponent Format.binary64 m e a = (em, e₁)) (low : 2 ^ 52 ≤ em.roundedMantissa)
    (high : em.roundedMantissa ≤ 2 ^ 53) (least : -1074 ≤ e₁) (most : e₁ ≤ 970) :
    ∃ (m' : Nat) (e' : Int) (pos : 0 < m'),
      roundWithAccuracy Format.binary64 .positive m e a = .finite .positive m' e' pos ∧ IsNormal m' e' ∧
        (m' : ℚ) * 2 ^ e' = em.roundedMantissa * 2 ^ e₁ := by
  obtain ⟨j, q, few, same, own⟩ := exists_carry low high
  have bits : (q * 2 ^ j).log2 = 52 + j :=
    log2_of_bounds (Nat.mul_le_mul_right _ own.1) (Nat.mul_lt_mul_of_pos_right own.2 (by positivity))
  have second := shiftToTargetExponent_eq (e := e₁) (a := .exact) bits (by omega)
  rw [shiftRight_exact] at second
  have some : q ≠ 0 := by omega
  refine ⟨q, e₁ + j, Nat.pos_of_ne_zero some, ?_, ⟨own.1, own.2, by omega, by omega⟩, ?_⟩
  · unfold roundWithAccuracy
    rw [first]
    dsimp only
    rw [same, second]
    exact dif_neg some
  · rw [same, zpow_add₀ (by norm_num), zpow_natCast]
    push_cast
    ring

/-- Rounding drops bits and goes up by one at most; where it drops nothing, it changes nothing. -/
theorem exists_rounded {k : Nat} {a : Accuracy} (low : 2 ^ 52 * 2 ^ k ≤ m) (high : m < 2 ^ 53 * 2 ^ k)
    (least : -1074 ≤ e + k) (most : e + k ≤ 970) :
    ∃ (n : Nat), (n = m / 2 ^ k ∨ n = m / 2 ^ k + 1) ∧ (a = .exact → ∀ q, m = q * 2 ^ k → n = q) ∧
      ∃ (m' : Nat) (e' : Int) (pos : 0 < m'),
        roundWithAccuracy Format.binary64 .positive m e a = .finite .positive m' e' pos ∧ IsNormal m' e' ∧
          (m' : ℚ) * 2 ^ e' = n * 2 ^ (e + k) := by
  have first := shiftToTargetExponent_eq (a := a) (log2_of_bounds low high) least
  generalize shifted : (ExtendedMantissa.ofMantissaAndAccuracy m a) >>> k = em at first
  have mantissa : em.mantissa = m / 2 ^ k := by
    rw [← shifted, mantissa_shiftRight]
    cases a with
    | exact => rfl
    | inexact o => cases o <;> rfl
  have bounds := roundedMantissa_bounds em
  rw [mantissa] at bounds
  have low' : 2 ^ 52 ≤ m / 2 ^ k := (Nat.le_div_iff_mul_le (by positivity)).mpr low
  have high' : m / 2 ^ k < 2 ^ 53 := (Nat.div_lt_iff_lt_mul (by positivity)).mpr high
  refine ⟨em.roundedMantissa, bounds, ?_, exists_finite_of_shift first (by omega) (by omega) least most⟩
  rintro rfl q rfl
  rw [shiftRight_exact] at shifted
  rw [← shifted]
  rfl

/-! ## Counts -/

theorem IsNormal.exponent_bounds (h : IsNormal m e) (least : 1 ≤ (m : ℚ) * 2 ^ e) (most : (m : ℚ) * 2 ^ e < 2 ^ 53) :
    -52 ≤ e ∧ e ≤ 0 := by
  have low : (2 ^ 52 : ℚ) ≤ m := by exact_mod_cast h.low
  have high : (m : ℚ) < 2 ^ 53 := by exact_mod_cast h.high
  refine ⟨?_, ?_⟩
  · by_contra small
    have few : (2 : ℚ) ^ e ≤ 2 ^ (-53 : Int) := zpow_le_zpow_right₀ (by norm_num) (by omega)
    have below : (m : ℚ) * 2 ^ e < 1 :=
      calc (m : ℚ) * 2 ^ e < 2 ^ 53 * 2 ^ e := by gcongr
        _ ≤ 2 ^ 53 * 2 ^ (-53 : Int) := by gcongr
        _ = 1 := by norm_num
    exact absurd least (not_le_of_gt below)
  · by_contra great
    have many : (2 : ℚ) ^ (1 : Int) ≤ 2 ^ e := zpow_le_zpow_right₀ (by norm_num) (by omega)
    have above : (2 ^ 53 : ℚ) ≤ m * 2 ^ e :=
      calc (2 ^ 53 : ℚ) = 2 ^ 52 * 2 ^ (1 : Int) := by norm_num
        _ ≤ m * 2 ^ e := by gcongr
    exact absurd most (not_lt_of_ge above)

/-- A count, read as an ordinary number. -/
structure Reads (x : UnpackedFloat) (n m : Nat) (e : Int) : Prop where
  number : ∃ pos, x = .finite .positive m e pos
  normal : IsNormal m e
  value : (m : ℚ) * 2 ^ e = n
  bounds : -52 ≤ e ∧ e ≤ 0

theorem exists_reads_ofNat {n : Nat} (pos : 0 < n) (small : n < 2 ^ 53) :
    ∃ m e, Reads (UnpackedFloat.ofNat Format.binary64 n) n m e := by
  have bits : n.log2 < 53 := (Nat.log2_lt (Nat.ne_of_gt pos)).mpr small
  obtain ⟨j, sum⟩ : ∃ j, n.log2 + j = 52 := ⟨52 - n.log2, by omega⟩
  obtain ⟨low, high⟩ := (Nat.log2_eq_iff (Nat.ne_of_gt pos)).mp (rfl : n.log2 = n.log2)
  have low : 2 ^ 52 ≤ n * 2 ^ j := by
    rw [← sum, Nat.pow_add]
    exact Nat.mul_le_mul_right _ low
  have high : n * 2 ^ j < 2 ^ 53 := by
    rw [show 53 = n.log2 + 1 + j by omega, Nat.pow_add]
    exact Nat.mul_lt_mul_of_pos_right high (by positivity)
  have read : UnpackedFloat.ofNat Format.binary64 n =
      roundWithAccuracy Format.binary64 .positive (n * 2 ^ j) (-j) .exact := by
    have greater : compare (n : Int) 0 = .gt := Int.compare_eq_gt.mpr (by omega)
    have target : Format.binary64.targetExponent (totalExponent n 0) = -j := by
      show max (((n.log2 : Int) + 1 + 0) - ((53 : Nat) : Int)) (-1074) = -j
      omega
    have amount : ((0 : Int) - -j).toNat = j := by omega
    unfold UnpackedFloat.ofNat UnpackedFloat.ofInt UnpackedFloat.normalize UnpackedFloat.round decreaseExponent
    rw [greater]
    dsimp only
    rw [Int.toNat_natCast, target, amount, Nat.shiftLeft_eq, Int.zero_sub]
  obtain ⟨q, -, unchanged, m, e, pos', eq, normal, value⟩ :=
    exists_rounded (k := 0) (e := -j) (a := .exact) (by simpa using low) (by simpa using high) (by omega) (by omega)
  have whole : (m : ℚ) * 2 ^ e = n := by
    rw [value, unchanged rfl _ (Nat.mul_one _).symm]
    push_cast
    rw [add_zero, zpow_neg, zpow_natCast, mul_assoc, mul_inv_cancel₀ (by positivity), mul_one]
  have least : (1 : ℚ) ≤ n := by exact_mod_cast pos
  have most : (n : ℚ) < 2 ^ 53 := by exact_mod_cast small
  exact ⟨m, e, ⟨pos', read.trans eq⟩, normal, whole, normal.exponent_bounds (whole ▸ least) (whole ▸ most)⟩

/-- A count is packed as what it is read as, and stands for itself. -/
theorem exists_reads {n : Nat} (pos : 0 < n) (small : n < 2 ^ 53) : ∃ m e, Reads (Float.ofNat n).toModel.unpack n m e := by
  obtain ⟨m, e, ⟨mantissa_pos, read⟩, normal, value, low, high⟩ := exists_reads_ofNat pos small
  have fits : n.toUInt64.toNat = n := Nat.mod_eq_of_lt (by omega)
  have whole : n.toUInt64.toFloat.toModel.unpack = .finite .positive m e mantissa_pos := by
    show UnpackedFloat.unpack Format.binary64 (UnpackedFloat.pack Format.binary64
      (UnpackedFloat.ofNat Format.binary64 n.toUInt64.toNat)) = _
    rw [fits, read, unpack_pack_normal normal]
  have one : (Float.ofBits 0x3FF0000000000000).toModel.unpack = .finite .positive (2 ^ 52) (-52) (by decide) := rfl
  -- A small count is read as itself times one.
  have times : (Float.ofNat n).toModel.unpack = UnpackedFloat.unpack Format.binary64 (UnpackedFloat.pack Format.binary64
      (roundWithAccuracy Format.binary64 .positive (m * 2 ^ 52) (e + -52) .exact)) := by
    show (Float.ofScientific n false 0).toModel.unpack = _
    unfold Float.ofScientific
    rw [dif_pos ⟨small, by decide⟩]
    show UnpackedFloat.unpack Format.binary64 (UnpackedFloat.pack Format.binary64 (UnpackedFloat.mul Format.binary64
      n.toUInt64.toFloat.toModel.unpack (Float.ofBits 0x3FF0000000000000).toModel.unpack)) = _
    rw [whole, one]
    rfl
  obtain ⟨q, -, unchanged, m', e', pos', eq, normal', value'⟩ := exists_rounded (m := m * 2 ^ 52) (e := e + -52) (k := 52)
    (a := .exact) (Nat.mul_le_mul_right _ normal.low) (Nat.mul_lt_mul_of_pos_right normal.high (by positivity))
    (by omega) (by omega)
  have same : (m' : ℚ) * 2 ^ e' = n := by
    rw [value', unchanged rfl m rfl, show e + -52 + ((52 : Nat) : Int) = e by omega, value]
  have least : (1 : ℚ) ≤ n := by exact_mod_cast pos
  have most : (n : ℚ) < 2 ^ 53 := by exact_mod_cast small
  refine ⟨m', e', ⟨pos', ?_⟩, normal', same, normal'.exponent_bounds (same ▸ least) (same ▸ most)⟩
  rw [times, eq, unpack_pack_normal normal']

theorem hasValue_ofNat {n : Nat} (pos : 0 < n) (small : n < 2 ^ 53) : HasValue (Float.ofNat n) n := by
  obtain ⟨m, e, ⟨mantissa_pos, number⟩, normal, value, -⟩ := exists_reads pos small
  exact ⟨m, e, mantissa_pos, normal, number, value.symm⟩

/-! ## Ratios -/

theorem div_eq {pos : 0 < m} {pos' : 0 < m'} (normal : IsNormal m e) (normal' : IsNormal m' e') (lower : -52 ≤ e)
    (upper : e' ≤ 0) :
    UnpackedFloat.div Format.binary64 (.finite .positive m e pos) (.finite .positive m' e' pos') =
      roundWithAccuracy Format.binary64 .positive (m * 2 ^ 53 / m') (e - e' - 53)
        (accuracyOfFraction (m * 2 ^ 53 % m') m') := by
  have target : min (e - e') (Format.binary64.targetExponent (totalExponent m e - totalExponent m' e')) = e - e' - 53 := by
    unfold totalExponent
    rw [normal.log2, normal'.log2]
    show min (e - e') (max ((((52 : Nat) : Int) + 1 + e - (((52 : Nat) : Int) + 1 + e')) - ((53 : Nat) : Int)) (-1074)) = _
    omega
  have amount : (e - e' - (e - e' - 53)).toNat = 53 := by omega
  unfold UnpackedFloat.div divCore
  dsimp only
  rw [target, amount, Nat.shiftLeft_eq]
  rfl

/-- The quotient of two counts, to 53 bits, as the numbers that they are read as have it. -/
theorem exists_quotient {a b : Nat} {x y : UnpackedFloat} (reads : Reads x a m e) (reads' : Reads y b m' e')
    (pos' : 0 < b) :
    ∃ k j : Nat, k ≤ 1 ∧ (k : Int) + e - e' - 53 = -j ∧ 2 ^ 52 * 2 ^ k ≤ m * 2 ^ 53 / m' ∧
      m * 2 ^ 53 / m' < 2 ^ 53 * 2 ^ k ∧ m * 2 ^ 53 / m' / 2 ^ k = a * 2 ^ j / b ∧
      ∀ q, q * b = a * 2 ^ j → m * 2 ^ 53 = m' * (q * 2 ^ k) := by
  have low := reads.normal.low
  have high := reads.normal.high
  have low' := reads'.normal.low
  have high' := reads'.normal.high
  have pos : 0 < m' := by omega
  have least : 2 ^ 52 ≤ m * 2 ^ 53 / m' := by
    rw [Nat.le_div_iff_mul_le pos]
    exact Nat.mul_le_mul low (Nat.le_of_lt high')
  have most : m * 2 ^ 53 / m' < 2 ^ 54 := by
    rw [Nat.div_lt_iff_lt_mul pos]
    omega
  obtain ⟨k, few, least, most⟩ : ∃ k, k ≤ 1 ∧ 2 ^ 52 * 2 ^ k ≤ m * 2 ^ 53 / m' ∧ m * 2 ^ 53 / m' < 2 ^ 53 * 2 ^ k := by
    by_cases fits : m * 2 ^ 53 / m' < 2 ^ 53
    · exact ⟨0, Nat.zero_le _, by simpa using least, by simpa using fits⟩
    · exact ⟨1, Nat.le_refl _, by omega, by omega⟩
  obtain ⟨lower, upper⟩ := reads.bounds
  obtain ⟨lower', upper'⟩ := reads'.bounds
  obtain ⟨j, shift⟩ : ∃ j : Nat, (k : Int) + e - e' - 53 = -j := ⟨(53 + e' - e - k).toNat, by omega⟩
  have scale : (0 : ℚ) < 2 ^ (e' - k) := by positivity
  have top : ((a * 2 ^ j : Nat) : ℚ) = ((m * 2 ^ 53 : Nat) : ℚ) * 2 ^ (e' - k) := by
    have sum : e + (j : Int) = ((53 : Nat) : Int) + (e' - k) := by omega
    rw [Nat.cast_mul, Nat.cast_mul, Nat.cast_pow, Nat.cast_pow, Nat.cast_ofNat, ← reads.value, mul_assoc, mul_assoc,
      ← zpow_natCast, ← zpow_natCast, ← zpow_add₀ (by norm_num), ← zpow_add₀ (by norm_num), sum]
  have bottom (q : Nat) : ((q * b : Nat) : ℚ) = ((q * (m' * 2 ^ k) : Nat) : ℚ) * 2 ^ (e' - k) := by
    have sum : (k : Int) + (e' - k) = e' := by omega
    rw [Nat.cast_mul, Nat.cast_mul, Nat.cast_mul, Nat.cast_pow, Nat.cast_ofNat, ← reads'.value, mul_assoc, mul_assoc,
      ← zpow_natCast, ← zpow_add₀ (by norm_num), sum]
  refine ⟨k, j, few, shift, least, most, ?_, fun q same => ?_⟩
  · -- The same numbers go into both: all is scaled by one power of two.
    have scaled (q : Nat) : q * (m' * 2 ^ k) ≤ m * 2 ^ 53 ↔ q * b ≤ a * 2 ^ j := by
      rw [← Nat.cast_le (α := ℚ), ← Nat.cast_le (α := ℚ) (m := q * b), top, bottom, mul_le_mul_iff_left₀ scale]
    rw [Nat.div_div_eq_div_mul]
    refine eq_of_forall_le_iff fun q => ?_
    rw [Nat.le_div_iff_mul_le (Nat.mul_pos pos (by positivity)), Nat.le_div_iff_mul_le pos', scaled]
  · have whole : q * (m' * 2 ^ k) = m * 2 ^ 53 := by
      rw [← Nat.cast_inj (R := ℚ), ← mul_left_inj' scale.ne', ← bottom, ← top, same]
    rw [← whole, Nat.mul_left_comm]

/-- What a quotient is rounded to, if it is wide enough, is greater than the same whole numbers as the quotient is. -/
theorem lt_rounded_iff {a b j q n : Nat} (pos : 0 < b) (wide : b ≤ 2 ^ j)
    (near : q = a * 2 ^ j / b ∨ q = a * 2 ^ j / b + 1) (unchanged : ∀ w, w * b = a * 2 ^ j → q = w) :
    n * 2 ^ j < q ↔ n * b < a := by
  constructor
  · intro more
    by_contra few
    -- No more than a whole number: the floor is no greater, and what is rounded up was below it.
    have le : a * 2 ^ j ≤ n * 2 ^ j * b := by
      calc a * 2 ^ j ≤ n * b * 2 ^ j := Nat.mul_le_mul_right _ (Nat.not_lt.mp few)
        _ = n * 2 ^ j * b := by ring
    have floor_le : a * 2 ^ j / b ≤ n * 2 ^ j := Nat.div_le_of_le_mul (by rwa [Nat.mul_comm b])
    have meets : a * 2 ^ j / b = n * 2 ^ j := by omega
    have whole : n * 2 ^ j * b = a * 2 ^ j := Nat.le_antisymm (meets ▸ Nat.div_mul_le_self _ _) le
    have same := unchanged _ whole
    omega
  · intro less
    have next : (n * 2 ^ j + 1) * b ≤ a * 2 ^ j := by
      calc (n * 2 ^ j + 1) * b = n * b * 2 ^ j + b := by ring
        _ ≤ n * b * 2 ^ j + 2 ^ j := Nat.add_le_add_left wide _
        _ = (n * b + 1) * 2 ^ j := by ring
        _ ≤ a * 2 ^ j := Nat.mul_le_mul_right _ less
    have floor_ge : n * 2 ^ j + 1 ≤ a * 2 ^ j / b := (Nat.le_div_iff_mul_le pos).mpr next
    omega

/-- A ratio of two counts is greater than the same whole numbers as their quotient is. -/
theorem exists_hasValue_div {a b : Nat} (pos : 0 < a) (small : a ≤ 2 ^ 52) (pos' : 0 < b) (small' : b ≤ 2 ^ 52) :
    ∃ v, HasValue (Float.ofNat a / Float.ofNat b) v ∧ ∀ n : Nat, (n : ℚ) < v ↔ n * b < a := by
  obtain ⟨m, e, reads⟩ := exists_reads pos (by omega)
  obtain ⟨m', e', reads'⟩ := exists_reads pos' (by omega)
  obtain ⟨k, j, few, shift, least, most, floor_eq, exactly⟩ := exists_quotient reads reads' pos'
  obtain ⟨lower, upper⟩ := reads.bounds
  obtain ⟨lower', upper'⟩ := reads'.bounds
  obtain ⟨q, near, unchanged, m'', e'', pos'', eq, normal, value⟩ :=
    exists_rounded (e := e - e' - 53) (a := accuracyOfFraction (m * 2 ^ 53 % m') m') least most (by omega) (by omega)
  have unpacked : (Float.ofNat a / Float.ofNat b).toModel.unpack = UnpackedFloat.unpack Format.binary64
      (UnpackedFloat.pack Format.binary64 (.finite .positive m'' e'' pos'')) := by
    obtain ⟨_, number⟩ := reads.number
    obtain ⟨_, number'⟩ := reads'.number
    show UnpackedFloat.unpack Format.binary64 (UnpackedFloat.pack Format.binary64 (UnpackedFloat.div Format.binary64
      (Float.ofNat a).toModel.unpack (Float.ofNat b).toModel.unpack)) = _
    rw [number, number', div_eq reads.normal reads'.normal lower upper', eq]
  have scaled : (m'' : ℚ) * 2 ^ e'' = q / 2 ^ j := by
    rw [value, show e - e' - 53 + k = -(j : Int) by omega, zpow_neg, zpow_natCast, div_eq_mul_inv]
  refine ⟨m'' * 2 ^ e'', hasValue_of_unpack unpacked rfl normal, fun n => ?_⟩
  have above : (n : ℚ) < m'' * 2 ^ e'' ↔ n * 2 ^ j < q := by
    rw [scaled, lt_div_iff₀ (by positivity)]
    exact_mod_cast Iff.rfl
  rw [above]
  rw [floor_eq] at near
  have wide : b ≤ 2 ^ j := by
    have many : 2 ^ 52 ≤ a * 2 ^ j / b := by
      rw [← floor_eq, Nat.le_div_iff_mul_le (by positivity)]
      exact least
    rw [Nat.le_div_iff_mul_le pos'] at many
    have bound := Nat.mul_le_mul_right (2 ^ j) small
    omega
  refine lt_rounded_iff pos' wide near fun w whole => ?_
  have left := exactly w whole
  have none : accuracyOfFraction (m * 2 ^ 53 % m') m' = .exact := by
    rw [left, Nat.mul_mod_right]
    rfl
  have some : 0 < m' := by have := reads'.normal.low; omega
  exact unchanged none w (by rw [left, Nat.mul_div_cancel_left _ some])

end Real

namespace Quantity

/-- A ratio of counts exceeds a whole limit exactly where the first count is greater than the limit times the second. -/
theorem whole_exceededBy_div_iff {a b n : Nat} (small : a ≤ 2 ^ 52) (pos : 0 < b) (small' : b ≤ 2 ^ 52)
    (limit : n < 2 ^ 53) :
    (whole n).exceededBy (Float.ofNat a / Float.ofNat b) = true ↔ n * b < a := by
  unfold exceededBy
  rw [decide_eq_true_eq]
  show Float.ofNat n < _ ↔ _
  by_cases none : a = 0
  · subst none
    exact iff_of_false (Real.not_lt_zero_div (Real.zero_le_ofNat n) _) (by omega)
  obtain ⟨v, value, above⟩ := Real.exists_hasValue_div (Nat.pos_of_ne_zero none) small pos small'
  rw [← above]
  by_cases zero : n = 0
  · subst zero
    exact iff_of_true value.zero_lt ((above 0).mpr (by omega))
  · exact (Real.hasValue_ofNat (Nat.pos_of_ne_zero zero) limit).lt_iff value

end Quantity

end CodeHygiene
