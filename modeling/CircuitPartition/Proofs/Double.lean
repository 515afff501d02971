import CircuitPartition.Double
import CircuitPartition.Partition.State
import Mathlib

/-!
What rounding leaves alone: which doubles are finite, and which are not negative. From this alone it
follows that a double is close to itself just if it is finite.
-/

namespace CircuitPartition.Double

open Float.Model (Format UnpackedFloat)
open Float.Model.UnpackedFloat

def number (x : Double) : UnpackedFloat :=
  x.toFloat.toModel.unpack

theorem isFinite_unpack (b : BitVec (Format.numBits .binary64)) :
    (unpack .binary64 b).isFinite = decide (unpackExponent b ≠ -1#11) := by
  unfold unpack
  dsimp only
  split
  . next hmax =>
    rw [decide_eq_false (not_not.mpr hmax)]
    split <;> rfl
  . next hmax =>
    rw [decide_eq_true hmax]
    split
    . split <;> rfl
    . rfl

theorem isFinite_eq (x : Double) :
    x.isFinite = decide (@unpackExponent .binary64 x.bits.toBitVec ≠ -1#11) := by
  have hexponent : (@unpackExponent .binary64 x.bits.toBitVec).toNat = x.biasedExponent := by
    simp [unpackExponent, biasedExponent, Word.count]
  unfold isFinite
  rw [Bool.eq_iff_iff, bne_iff_ne, decide_eq_true_eq, ← hexponent, ne_eq, ne_eq, ← BitVec.toNat_inj]
  exact not_congr Nat.succ_inj

theorem isFinite_number (x : Double) : x.number.isFinite = x.isFinite := by
  have hnumber : x.number
      = unpack .binary64 (pack .binary64 (unpack .binary64 x.bits.toBitVec)) := rfl
  rw [hnumber, pack_unpack, isFinite_eq]
  split
  . next hnan =>
    unfold isNaNBits at hnan
    rw [decide_eq_true_eq] at hnan
    rw [unpack_packedNaN, decide_eq_false (not_not.mpr hnan.left)]
    rfl
  . rw [isFinite_unpack]

/-! ### Signs -/

def nonnegative (x : UnpackedFloat) : Bool :=
  UnpackedFloat.le (.zero .positive) x

theorem nonnegative_unpack {exponent : BitVec 11} {mantissa : BitVec 52}
    (h : exponent = -1#11 → mantissa = 0#52) :
    nonnegative (unpack .binary64 (packComponents .binary64 .positive exponent mantissa)) = true := by
  unfold unpack
  simp only [unpackExponent_packComponents, unpackMantissa_packComponents,
    unpackSign_packComponents, Sign.ofBitVec_toBitVec]
  split
  . next hmax =>
    rw [if_pos (h hmax)]
    rfl
  . split
    . split <;> rfl
    . rfl

theorem pack_finite (sign : Sign) {m : Nat} (e : Int) (hm : 0 < m) :
    ∃ exponent mantissa,
      pack .binary64 (.finite sign m e hm) = packComponents .binary64 sign exponent mantissa ∧
        (exponent = -1#11 → mantissa = 0#52) := by
  unfold pack
  dsimp only
  split
  . exact ⟨_, _, rfl, fun _ => rfl⟩
  . split
    . refine ⟨_, _, rfl, fun hmax => absurd hmax ?_⟩
      bv_omega
    . exact ⟨_, _, rfl, fun hmax => absurd hmax (by decide)⟩

theorem nonnegative_pack {x : UnpackedFloat} (h : nonnegative x = true) :
    nonnegative (unpack .binary64 (pack .binary64 x)) = true := by
  cases x with
  | notANumber => exact absurd h (by decide)
  | infinity sign =>
    cases sign with
    | negative => exact absurd h (by decide)
    | positive => decide
  | zero sign => cases sign <;> decide
  | finite sign m e hm =>
    cases sign with
    | negative => exact absurd h (by simp [nonnegative, UnpackedFloat.le, UnpackedFloat.compare])
    | positive =>
      obtain ⟨exponent, mantissa, hpack, hmax⟩ := pack_finite .positive e hm
      rw [hpack]
      exact nonnegative_unpack hmax

theorem le_iff (x y : Double) : x ≤ y ↔ x.number.le y.number = true :=
  decide_eq_true_iff

theorem lt_iff (x y : Double) : x < y ↔ x.number.lt y.number = true :=
  decide_eq_true_iff

theorem zero_le_iff (x : Double) : 0 ≤ x ↔ nonnegative x.number = true :=
  le_iff 0 x

theorem number_mul (x y : Double) :
    (x * y).number
      =
    unpack .binary64 (pack .binary64 (UnpackedFloat.mul .binary64 x.number y.number)) := by
  have hstored : (x * y).toFloat = x.toFloat * y.toFloat := Float.ofBits_toBits _
  unfold number
  rw [hstored]
  rfl

theorem sub_eq (x y : Double) :
    x - y = ⟨.ofBitVec (pack .binary64 (UnpackedFloat.sub .binary64 x.number y.number))⟩ :=
  rfl

theorem sub_self_of_isFinite {x : Double} (h : x.isFinite = true) : x - x = 0 := by
  rw [← isFinite_number] at h
  have hzero : UnpackedFloat.sub .binary64 x.number x.number = .zero .positive := by
    cases hx : x.number with
    | notANumber => simp [hx, UnpackedFloat.isFinite] at h
    | infinity sign => simp [hx, UnpackedFloat.isFinite] at h
    | zero sign => cases sign <;> rfl
    | finite sign m e hm => simp [UnpackedFloat.sub, UnpackedFloat.normalize]
  rw [sub_eq, hzero]
  decide

theorem sub_self_of_isFinite_eq_false {x : Double} (h : x.isFinite = false) : x - x = nan := by
  rw [← isFinite_number] at h
  have hnan : UnpackedFloat.sub .binary64 x.number x.number = .notANumber := by
    cases hx : x.number with
    | notANumber => rfl
    | infinity sign => cases sign <;> rfl
    | zero sign => simp [hx, UnpackedFloat.isFinite] at h
    | finite sign m e hm => simp [hx, UnpackedFloat.isFinite] at h
  rw [sub_eq, hnan]
  decide

theorem not_nan_le (x : Double) : ¬nan ≤ x := by
  rw [le_iff]
  have hnan : nan.number = .notANumber := rfl
  rw [hnan]
  simp [UnpackedFloat.le, UnpackedFloat.compare]

theorem nonnegative_of_one_lt {x : UnpackedFloat} (h : (number 1).lt x = true) :
    nonnegative x = true := by
  have hone : number 1 = .finite .positive (2 ^ 52) (-52) (by decide) := rfl
  rw [hone] at h
  cases x with
  | notANumber => simp [UnpackedFloat.lt, UnpackedFloat.compare] at h
  | infinity sign =>
    cases sign with
    | negative => simp [UnpackedFloat.lt, UnpackedFloat.compare] at h
    | positive => rfl
  | zero sign => rfl
  | finite sign m e hm =>
    cases sign with
    | negative => simp [UnpackedFloat.lt, UnpackedFloat.compare] at h
    | positive => rfl

theorem zero_le_max_one (x : Double) : 0 ≤ Scalar.max x 1 := by
  unfold Scalar.max
  rw [if_pos (by decide)]
  split
  . next hlt => exact (zero_le_iff x).mpr (nonnegative_of_one_lt ((lt_iff 1 x).mp hlt))
  . decide

theorem nonnegative_mul {m : Nat} {e : Int} (hm : 0 < m) {x : UnpackedFloat}
    (h : nonnegative x = true) :
    nonnegative (UnpackedFloat.mul .binary64 (.finite .positive m e hm) x) = true := by
  cases x with
  | notANumber => exact absurd h (by decide)
  | infinity sign =>
    cases sign with
    | negative => exact absurd h (by decide)
    | positive => rfl
  | zero sign => rfl
  | finite sign m e hm =>
    cases sign with
    | negative => exact absurd h (by simp [nonnegative, UnpackedFloat.le, UnpackedFloat.compare])
    | positive =>
      simp only [UnpackedFloat.mul, UnpackedFloat.roundWithAccuracy]
      split <;> rfl

theorem zero_le_tolerance_mul {x : Double} (h : 0 ≤ x) :
    0 ≤ PartitionState.driftTolerance * x := by
  rw [zero_le_iff] at h ⊢
  rw [number_mul]
  apply nonnegative_pack
  exact nonnegative_mul _ h

theorem approxEq_self (x : Double) :
    approxEq x x PartitionState.driftTolerance = x.isFinite := by
  unfold approxEq
  dsimp only
  cases hx : x.isFinite with
  | true =>
    have hzero : Scalar.abs (0 : Double) = 0 := by decide
    rw [sub_self_of_isFinite hx, hzero, decide_eq_true_eq]
    exact zero_le_tolerance_mul (zero_le_max_one _)
  | false =>
    have hnan : Scalar.abs nan = nan := by decide
    rw [sub_self_of_isFinite_eq_false hx, hnan, decide_eq_false_iff_not]
    exact not_nan_le _

end CircuitPartition.Double
