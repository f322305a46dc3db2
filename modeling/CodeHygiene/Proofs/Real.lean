import CodeHygiene.Quantity
import Mathlib

/-!
The order of the reals that limits and ratios are compared by. Proved:

(1) Two numbers compare as their places in a linear order do (`compare_eq`), and what is not a number has
    no place; so `≤` and `<` chain (`lt_of_le_of_lt`), and equal reals are not apart (`not_lt_of_beq`).
(2) Packing a number keeps its sign (`sign?_unpack_pack`), and so do rounding and a product; a natural
    number is no less than zero as a real (`zero_le_ofNat`), and neither is a limit (`Quantity.zero_toFloat_le`).
(3) A limit that is no less than zero is not exceeded by nothing in whatever (`not_lt_zero_div`).
-/

namespace CodeHygiene

namespace Real

open Float.Model Float.Model.UnpackedFloat

variable {x y z : Float}

/-! ## (1) The order -/

theorem compare_natCast (m n : Nat) : compare (m : Int) n = compare m n := by
  grind [Int.compare_eq_ite_lt, Nat.compare_eq_ite_lt]

theorem compare_neg (a b : Int) : compare (-a) (-b) = compare b a := by
  grind [Int.compare_eq_ite_lt]

/-- The place of a number among the others: first its sign and whether it is finite, then its exponent, then its
mantissa. -/
def rank : UnpackedFloat → Option (Int ×ₗ Int ×ₗ Int)
  | .notANumber => none
  | .zero _ => some (toLex (0, toLex (0, 0)))
  | .infinity .positive => some (toLex (2, toLex (0, 0)))
  | .infinity .negative => some (toLex (-2, toLex (0, 0)))
  | .finite .positive m e _ => some (toLex (1, toLex (e, (m : Int))))
  | .finite .negative m e _ => some (toLex (-1, toLex (-e, -(m : Int))))

theorem compare_eq (x y : UnpackedFloat) :
    x.compare y = (rank x).bind fun r => (rank y).map fun s => compare r s := by
  cases x with
  | notANumber => cases y <;> rfl
  | zero =>
    cases y with
    | notANumber | zero => rfl
    | infinity t | finite t => cases t <;> rfl
  | infinity s =>
    cases y with
    | notANumber | zero => cases s <;> rfl
    | infinity t | finite t => cases s <;> cases t <;> rfl
  | finite s m e =>
    cases y with
    | notANumber | zero => cases s <;> rfl
    | infinity t => cases s <;> cases t <;> rfl
    | finite t n f =>
      -- Only two of one sign compare by what follows the sign.
      cases s <;> cases t
      case negative.negative =>
        show some ((compare e f).then (compare m n)).swap =
          some ((compare (-e) (-f)).then (compare (-(m : Int)) (-(n : Int))))
        rw [compare_neg, compare_neg, compare_natCast, Ordering.swap_then, ← Std.OrientedOrd.eq_swap,
          ← Std.OrientedOrd.eq_swap]
      case positive.positive =>
        show some ((compare e f).then (compare m n)) = some ((compare e f).then (compare (m : Int) n))
        rw [compare_natCast]
      all_goals rfl

/-- The place of a real. -/
def place (x : Float) : Option (Int ×ₗ Int ×ₗ Int) := rank x.toModel.unpack

theorem lt_iff : x < y ↔ ∃ r s, place x = some r ∧ place y = some s ∧ r < s := by
  have compared : x < y ↔ (x.toModel.unpack.compare y.toModel.unpack == some .lt) = true := decide_eq_true_iff
  rw [compared, compare_eq, beq_iff_eq, Option.bind_eq_some_iff]
  simp only [Option.map_eq_some_iff, compare_lt_iff_lt, place, ← exists_and_left]

theorem le_iff : x ≤ y ↔ ∃ r s, place x = some r ∧ place y = some s ∧ r ≤ s := by
  have compared : x ≤ y ↔ (x.toModel.unpack.compare y.toModel.unpack).any (·.isLE) = true := decide_eq_true_iff
  rw [compared, compare_eq, place, place]
  cases rank x.toModel.unpack with
  | none => simp
  | some r => cases rank y.toModel.unpack <;> simp [Ordering.isLE_iff_ne_gt, compare_le_iff_le]

theorem lt_of_le_of_lt (le : x ≤ y) (lt : y < z) : x < z := by
  obtain ⟨r, s, hr, hs, le⟩ := le_iff.mp le
  obtain ⟨s', t, hs', ht, lt⟩ := lt_iff.mp lt
  cases hs.symm.trans hs'
  exact lt_iff.mpr ⟨r, t, hr, ht, le.trans_lt lt⟩

theorem not_lt_of_beq (eq : (x == y) = true) : ¬ x < y := by
  have equal : x.toModel.unpack.compare y.toModel.unpack = some .eq := beq_iff_eq.mp eq
  intro lt
  have less : x.toModel.unpack.compare y.toModel.unpack = some .lt := beq_iff_eq.mp (decide_eq_true_iff.mp lt)
  cases equal.symm.trans less

/-! ## (2) Signs -/

/-- The sign of a number. -/
def sign? : UnpackedFloat → Option Sign
  | .notANumber => none
  | .zero s | .infinity s | .finite s .. => some s

theorem zero_le_of_sign? (positive : sign? x.toModel.unpack = some .positive) : 0 ≤ x := by
  have zero : (0 : Float).toModel.unpack = .zero .positive := rfl
  refine decide_eq_true_iff.mpr ?_
  show ((0 : Float).toModel.unpack.compare x.toModel.unpack).any (·.isLE) = true
  rw [zero]
  cases number : x.toModel.unpack with
  | notANumber => rw [number] at positive; cases positive
  | zero => rfl
  | infinity | finite => rw [number] at positive; cases positive; rfl

section Packing

variable {spec : Format} {s : Sign}

theorem sign?_unpack_packComponents {e : BitVec spec.exponentBits} {m : BitVec spec.mantissaBitsWithoutImplicit}
    (number : e = -1#_ → m = 0#_) : sign? (UnpackedFloat.unpack spec (packComponents spec s e m)) = some s := by
  simp only [UnpackedFloat.unpack, unpackMantissa_packComponents, unpackExponent_packComponents,
    unpackSign_packComponents, Sign.ofBitVec_toBitVec]
  split
  next full => rw [if_pos (number full)]; rfl
  next =>
    split
    next => split <;> rfl
    next => rfl

theorem sign?_unpack_pack {x : UnpackedFloat} (signed : sign? x = some s) :
    sign? (UnpackedFloat.unpack spec (UnpackedFloat.pack spec x)) = some s := by
  cases x with
  | notANumber => cases signed
  | zero | infinity => cases signed; exact sign?_unpack_packComponents fun _ => rfl
  | finite =>
    cases signed
    simp only [UnpackedFloat.pack]
    split
    next => exact sign?_unpack_packComponents fun _ => rfl
    next fits =>
      -- An exponent that fits is not the one that marks what is no number.
      have below : ∀ n, n + 1 < 2 ^ spec.exponentBits → BitVec.ofNat spec.exponentBits n ≠ -1#_ := by
        intro n bound full
        rw [BitVec.neg_one_eq_allOnes, ← BitVec.toNat_inj, BitVec.toNat_ofNat, Nat.mod_eq_of_lt (by omega),
          BitVec.toNat_allOnes] at full
        omega
      have several := Nat.one_lt_two_pow spec.he.ne'
      split
      · exact sign?_unpack_packComponents fun full => absurd full (below _ (by omega))
      · exact sign?_unpack_packComponents fun full => absurd full (below 0 (by omega))

theorem sign?_roundWithAccuracy (m : Nat) (e : Int) (a : Accuracy) :
    sign? (roundWithAccuracy spec s m e a) = some s := by
  simp only [roundWithAccuracy]
  split <;> rfl

theorem sign?_mul {x y : UnpackedFloat} (signed : sign? x = some s) {t : Sign} {m : Nat} {e : Int} {pos : 0 < m}
    (factor : y = .finite t m e pos) : sign? (UnpackedFloat.mul spec x y) = some (s * t) := by
  subst factor
  cases x with
  | notANumber => cases signed
  | zero | infinity => cases signed; rfl
  | finite => cases signed; exact sign?_roundWithAccuracy ..

theorem sign?_ofNat (n : Nat) : sign? (UnpackedFloat.ofNat spec n) = some .positive := by
  rw [UnpackedFloat.ofNat, UnpackedFloat.ofInt, UnpackedFloat.normalize]
  split
  next lt => rw [Int.compare_eq_lt] at lt; omega
  next => rfl
  next => exact sign?_roundWithAccuracy ..

theorem sign?_ofScientific (n : Nat) (e : Int) : sign? (UnpackedFloat.ofScientific spec n e) = some .positive := by
  rw [UnpackedFloat.ofScientific]
  split; next => rfl
  split; next => rfl
  split; next => rfl
  split
  · exact sign?_roundWithAccuracy ..
  · exact sign?_roundWithAccuracy ..

end Packing

theorem zero_le_ofNat (n : Nat) : 0 ≤ Float.ofNat n := by
  refine zero_le_of_sign? ?_
  show sign? (Float.ofScientific n false 0).toModel.unpack = some .positive
  rw [Float.ofScientific]
  split
  · -- A small number is read as itself times one.
    have one : (Float.ofBits 0x3FF0000000000000).toModel.unpack = .finite .positive (2 ^ 52) (-52) (by decide) := rfl
    exact sign?_unpack_pack (sign?_mul (sign?_unpack_pack (sign?_ofNat _)) one)
  · exact sign?_unpack_pack (sign?_ofScientific n _)

/-- Nothing, divided by whatever, is nothing or no number. -/
theorem place_zero_div (y : Float) : place (Float.ofNat 0 / y) = none ∨ place (Float.ofNat 0 / y) = place 0 := by
  have zero : (Float.ofNat 0).toModel.unpack = .zero .positive := by rfl
  have packed (z : UnpackedFloat) (kind : z = .notANumber ∨ ∃ s, z = .zero s) :
      rank (UnpackedFloat.unpack Format.binary64 (UnpackedFloat.pack Format.binary64 z)) = none ∨
        rank (UnpackedFloat.unpack Format.binary64 (UnpackedFloat.pack Format.binary64 z)) = place 0 := by
    rcases kind with rfl | ⟨s, rfl⟩
    · exact .inl rfl
    · cases s <;> exact .inr rfl
  refine packed (UnpackedFloat.div Format.binary64 (Float.ofNat 0).toModel.unpack y.toModel.unpack) ?_
  rw [zero]
  cases y.toModel.unpack with
  | notANumber | zero => exact .inl rfl
  | infinity | finite => exact .inr ⟨_, rfl⟩

theorem not_lt_zero_div (nonneg : 0 ≤ x) (y : Float) : ¬ x < Float.ofNat 0 / y := by
  intro lt
  obtain ⟨r, s, hr, hs, lt⟩ := lt_iff.mp lt
  obtain ⟨t, r', ht, hr', le⟩ := le_iff.mp nonneg
  cases hr.symm.trans hr'
  rcases place_zero_div y with none | zero
  · cases hs.symm.trans none
  · cases hs.symm.trans (zero.trans ht)
    exact absurd lt (not_lt_of_ge le)

end Real

namespace Quantity

/-- A limit that is no less than zero. -/
def IsNonnegative : Quantity → Prop
  | .whole n => 0 ≤ n
  | .real x => 0 ≤ x

theorem zero_toFloat_le {limit : Quantity} (nonneg : limit.IsNonnegative) : (whole 0).toFloat ≤ limit.toFloat := by
  have zero : (whole 0).toFloat = 0 := rfl
  rw [zero]
  cases limit with
  | real x => exact nonneg
  | whole n =>
    obtain ⟨m, rfl⟩ := Int.eq_ofNat_of_zero_le nonneg
    exact Real.zero_le_ofNat m

end Quantity

end CodeHygiene
