import CircuitPartition.Proofs.Whole

/-!
Rounding keeps to the order: what a sum rounds to lies on the same side of every double as the sum
does. Doubles are counted in units of the least positive one for this.
-/

namespace CircuitPartition.Double

open Float.Model (Format UnpackedFloat totalExponent)
open Float.Model.UnpackedFloat

/-! ### Units -/

structure Canonical (m : Nat) (e : ℤ) : Prop where
  mantissa_lt : m < 2 ^ 53
  exponent_ge : -1074 ≤ e
  full : e = -1074 ∨ 2 ^ 52 ≤ m

def magnitude (m : Nat) (e : ℤ) : Nat :=
  m * 2 ^ (e + 1074).toNat

def IsCanonical : UnpackedFloat → Prop
  | .finite _ m e _ => Canonical m e
  | .zero _ => True
  | _ => False

def units : UnpackedFloat → ℤ
  | .finite sign m e _ => sign.apply (magnitude m e)
  | _ => 0

def overflow : Nat :=
  2 ^ 2098

theorem overflow_pos : 0 < overflow := by
  unfold overflow
  positivity

theorem magnitude_pos {m : Nat} (hm : 0 < m) (e : ℤ) : 0 < magnitude m e := by
  unfold magnitude
  positivity

theorem magnitude_mono {m₁ m₂ : Nat} (h : m₁ ≤ m₂) (e : ℤ) : magnitude m₁ e ≤ magnitude m₂ e :=
  Nat.mul_le_mul_right _ h

section Order

variable {m₁ m₂ : Nat} {e₁ e₂ : ℤ} (h₁ : Canonical m₁ e₁) (h₂ : Canonical m₂ e₂)

include h₁ h₂

theorem Canonical.magnitude_lt (h : e₁ < e₂) : magnitude m₁ e₁ < magnitude m₂ e₂ := by
  have hge := h₁.exponent_ge
  have hfull : 2 ^ 52 ≤ m₂ := h₂.full.resolve_left (by omega)
  obtain ⟨k, hk⟩ : ∃ k, (e₂ + 1074).toNat = (e₁ + 1074).toNat + 1 + k :=
    ⟨(e₂ - e₁ - 1).toNat, by omega⟩
  unfold magnitude
  calc m₁ * 2 ^ (e₁ + 1074).toNat
      < 2 ^ 53 * 2 ^ (e₁ + 1074).toNat :=
        Nat.mul_lt_mul_of_pos_right h₁.mantissa_lt (by positivity)
    _ = 2 ^ 52 * 2 ^ ((e₁ + 1074).toNat + 1) := by ring
    _ ≤ m₂ * 2 ^ (e₂ + 1074).toNat := by
        rw [hk]
        apply Nat.mul_le_mul hfull
        apply Nat.pow_le_pow_right (by decide)
        omega

theorem Canonical.compare_eq :
    (compare e₁ e₂).then (compare m₁ m₂) = compare (magnitude m₁ e₁) (magnitude m₂ e₂) := by
  rcases lt_trichotomy e₁ e₂ with h | rfl | h
  . rw [compare_lt_iff_lt.mpr h, compare_lt_iff_lt.mpr (h₁.magnitude_lt h₂ h)]
    rfl
  . have hmono : StrictMono fun m => magnitude m e₁ := strictMono_mul_right_of_pos (by positivity)
    rw [compare_eq_iff_eq.mpr rfl, ← cmp_eq_compare, ← cmp_eq_compare]
    exact (hmono.cmp_map_eq m₁ m₂).symm
  . rw [compare_gt_iff_gt.mpr h, compare_gt_iff_gt.mpr (h₂.magnitude_lt h₁ h)]
    rfl

end Order

theorem compare_natCast (a b : Nat) : compare (a : ℤ) b = compare a b := by
  rw [← cmp_eq_compare, ← cmp_eq_compare, Int.natCast_strictMono.cmp_map_eq]

theorem compare_neg (a b : ℤ) : compare (-a) (-b) = (compare a b).swap := by
  have hanti : StrictAnti fun n : ℤ => -n := fun _ _ => Int.neg_lt_neg
  rw [← cmp_eq_compare, ← cmp_eq_compare, cmp_swap]
  exact hanti.cmp_map_eq a b

theorem compare_eq_units {x y : UnpackedFloat} (hx : IsCanonical x) (hy : IsCanonical y) :
    x.compare y = some (compare (units x) (units y)) := by
  have hsigns {a b : Nat} (ha : 0 < a) (hb : 0 < b) : (-a : ℤ) < b := by omega
  cases x with
  | notANumber => exact hx.elim
  | infinity sign => exact hx.elim
  | zero sign =>
    cases y with
    | notANumber => exact hy.elim
    | infinity sign => exact hy.elim
    | zero sign => rfl
    | finite sign m e hm =>
      have hpos := magnitude_pos hm e
      cases sign with
      | negative =>
        have hgt : compare (0 : ℤ) (-magnitude m e) = .gt := compare_gt_iff_gt.mpr (by omega)
        exact congrArg some hgt.symm
      | positive =>
        have hlt : compare (0 : ℤ) (magnitude m e) = .lt := compare_lt_iff_lt.mpr (by omega)
        exact congrArg some hlt.symm
  | finite sign m e hm =>
    have hpos := magnitude_pos hm e
    cases y with
    | notANumber => exact hy.elim
    | infinity sign => exact hy.elim
    | zero sign' =>
      cases sign with
      | negative =>
        have hlt : compare (-magnitude m e : ℤ) 0 = .lt := compare_lt_iff_lt.mpr (by omega)
        exact congrArg some hlt.symm
      | positive =>
        have hgt : compare (magnitude m e : ℤ) 0 = .gt := compare_gt_iff_gt.mpr (by omega)
        exact congrArg some hgt.symm
    | finite sign' m' e' hm' =>
      have hpos' := magnitude_pos hm' e'
      have hcompare := Canonical.compare_eq hx hy
      rw [← compare_natCast (magnitude m e)] at hcompare
      cases sign with
      | negative =>
        cases sign' with
        | negative =>
          show some ((compare e e').then (compare m m')).swap = some (compare (-_ : ℤ) (-_))
          rw [hcompare, compare_neg]
        | positive =>
          have hlt : compare (-magnitude m e : ℤ) (magnitude m' e') = .lt :=
            compare_lt_iff_lt.mpr (by omega)
          exact congrArg some hlt.symm
      | positive =>
        cases sign' with
        | negative =>
          have hgt : compare (magnitude m e : ℤ) (-magnitude m' e') = .gt :=
            compare_gt_iff_gt.mpr (by omega)
          exact congrArg some hgt.symm
        | positive => exact congrArg some hcompare

theorem le_iff_units_le {x y : UnpackedFloat} (hx : IsCanonical x) (hy : IsCanonical y) :
    x.le y = true ↔ units x ≤ units y := by
  unfold UnpackedFloat.le
  rw [compare_eq_units hx hy, Option.any_some, ← Ordering.ne_gt_iff_isLE]
  exact compare_le_iff_le

theorem lt_iff_units_lt {x y : UnpackedFloat} (hx : IsCanonical x) (hy : IsCanonical y) :
    x.lt y = true ↔ units x < units y := by
  unfold UnpackedFloat.lt
  rw [compare_eq_units hx hy, beq_iff_eq, Option.some.injEq, compare_lt_iff_lt]

/-! ### Storing -/

theorem magnitude_lt_iff {m : Nat} {e : ℤ} (h : Canonical m e) :
    magnitude m e < overflow ↔ e < 972 := by
  have hge := h.exponent_ge
  unfold magnitude overflow
  constructor
  . intro hlt
    by_contra hlarge
    have hfull : 2 ^ 52 ≤ m := h.full.resolve_left (by omega)
    apply absurd hlt
    rw [not_lt]
    calc 2 ^ 2098 = 2 ^ 52 * 2 ^ 2046 := by rw [← pow_add]
      _ ≤ m * 2 ^ (e + 1074).toNat := by
        apply Nat.mul_le_mul hfull
        apply Nat.pow_le_pow_right (by decide)
        omega
  . intro hlt
    calc m * 2 ^ (e + 1074).toNat
        < 2 ^ 53 * 2 ^ (e + 1074).toNat :=
          Nat.mul_lt_mul_of_pos_right h.mantissa_lt (by positivity)
      _ ≤ 2 ^ 53 * 2 ^ 2045 := by
        apply Nat.mul_le_mul_left
        apply Nat.pow_le_pow_right (by decide)
        omega
      _ = 2 ^ 2098 := by rw [← pow_add]

theorem unpack_pack_subnormal (sign : Sign) {m : Nat} (hm : 0 < m) (hlt : m < 2 ^ 52) :
    unpack .binary64 (pack .binary64 (.finite sign m (-1074) hm)) = .finite sign m (-1074) hm := by
  have hlog : m.log2 < 52 := (Nat.log2_lt hm.ne').mpr hlt
  have hpack : pack .binary64 (.finite sign m (-1074) hm)
      = packComponents .binary64 sign 0#11 (BitVec.ofNat 52 m) := by
    unfold pack
    dsimp only
    rw [if_neg (by decide), if_neg (by show m.log2 + 1 ≠ 53; omega)]
  have hmantissa : (BitVec.ofNat 52 m).toNat = m := by
    rw [BitVec.toNat_ofNat, Nat.mod_eq_of_lt hlt]
  have hzero : BitVec.ofNat 52 m ≠ 0#52 := by
    intro hzero
    rw [hzero] at hmantissa
    exact hm.ne hmantissa
  rw [hpack]
  unfold unpack
  dsimp only
  simp only [unpackExponent_packComponents, unpackMantissa_packComponents,
    unpackSign_packComponents, Sign.ofBitVec_toBitVec]
  rw [if_neg (by decide), if_pos trivial, dif_neg hzero, UnpackedFloat.finite.injEq]
  exact ⟨rfl, hmantissa, rfl⟩

theorem unpack_pack_of_lt (sign : Sign) {m : Nat} {e : ℤ} (hm : 0 < m) (h : Canonical m e)
    (hlt : e < 972) :
    unpack .binary64 (pack .binary64 (.finite sign m e hm)) = .finite sign m e hm := by
  by_cases hfull : 2 ^ 52 ≤ m
  . have hlog : m.log2 = 52 := by
      have hlt := (Nat.log2_lt hm.ne').mpr h.mantissa_lt
      have hle := (Nat.le_log2 hm.ne').mpr hfull
      omega
    exact unpack_pack_finite hlog h.exponent_ge hlt sign
  . have he : e = -1074 := h.full.resolve_right hfull
    subst he
    exact unpack_pack_subnormal sign hm (not_le.mp hfull)

theorem unpack_pack_of_le (sign : Sign) {m : Nat} {e : ℤ} (hm : 0 < m) (hle : 972 ≤ e) :
    unpack .binary64 (pack .binary64 (.finite sign m e hm)) = .infinity sign := by
  have hpack : pack .binary64 (.finite sign m e hm) = packedInfinity .binary64 sign := by
    have hbias : Format.exponentBias .binary64 = 1023 := rfl
    unfold pack
    dsimp only
    rw [if_pos]
    show 2 ^ 11 ≤ (e + Format.exponentBias .binary64 + (52 : Nat)).toNat + 1
    omega
  rw [hpack]
  cases sign <;> rfl

theorem natAbs_units_finite (sign : Sign) {m : Nat} (e : ℤ) (hm : 0 < m) :
    (units (.finite sign m e hm)).natAbs = magnitude m e := by
  cases sign with
  | negative => exact Int.natAbs_neg _
  | positive => rfl

theorem toNat_leadingOne (b : BitVec (Format.numBits .binary64)) :
    (1#1 ++ @unpackMantissa .binary64 b).toNat
      =
    2 ^ 52 + (@unpackMantissa .binary64 b).toNat := by
  rw [BitVec.toNat_append, ← Nat.shiftLeft_add_eq_or_of_lt (BitVec.isLt _)]
  simp

theorem canonical_unpack {b : BitVec (Format.numBits .binary64)}
    (h : (unpack .binary64 b).isFinite = true) :
    IsCanonical (unpack .binary64 b) ∧ (units (unpack .binary64 b)).natAbs < overflow := by
  have hcanonical {sign : Sign} {m : Nat} {e : ℤ} (hm : 0 < m) (h : Canonical m e)
      (hlt : e < 972) : IsCanonical (.finite sign m e hm) ∧
        (units (.finite sign m e hm)).natAbs < overflow := by
    rw [natAbs_units_finite]
    exact ⟨h, (magnitude_lt_iff h).mpr hlt⟩
  have hexponent : (@unpackExponent .binary64 b).toNat < 2 ^ 11 := BitVec.isLt _
  have hmantissa : (@unpackMantissa .binary64 b).toNat < 2 ^ 52 := BitVec.isLt _
  have hbias : Format.exponentBias .binary64 = 1023 := rfl
  revert h
  unfold unpack
  dsimp only
  rw [hbias]
  split
  . split <;> simp [UnpackedFloat.isFinite]
  . next hmax =>
    intro _
    split
    . next hzero =>
      rw [hzero]
      split
      . exact ⟨trivial, overflow_pos⟩
      . apply hcanonical
        . exact ⟨by omega, by decide, .inl (by decide)⟩
        . decide
    . next hzero =>
      have hne : (@unpackExponent .binary64 b).toNat ≠ 0 := by
        intro h
        exact hzero (BitVec.eq_of_toNat_eq h)
      have hne' : (@unpackExponent .binary64 b).toNat ≠ 2047 := by
        intro h
        exact hmax (BitVec.eq_of_toNat_eq h)
      apply hcanonical
      . rw [toNat_leadingOne]
        constructor
        . omega
        . push_cast
          omega
        . exact .inr (by omega)
      . push_cast
        omega

theorem number_eq_unpack {x : Double} (h : x.isFinite = true) :
    x.number = unpack .binary64 x.bits.toBitVec := by
  have hnumber : x.number
      = unpack .binary64 (pack .binary64 (unpack .binary64 x.bits.toBitVec)) := rfl
  rw [hnumber, pack_unpack, if_neg]
  rw [isFinite_eq, decide_eq_true_eq] at h
  unfold isNaNBits
  rw [decide_eq_true_eq]
  exact fun hnan => h hnan.left

theorem canonical_number {x : Double} (h : x.isFinite = true) :
    IsCanonical x.number ∧ (units x.number).natAbs < overflow := by
  rw [← isFinite_number] at h
  exact canonical_unpack h

theorem unpack_pack_cases {x : UnpackedFloat} (h : IsCanonical x) :
    unpack .binary64 (pack .binary64 x) = x ∧ (units x).natAbs < overflow ∨
      unpack .binary64 (pack .binary64 x) = .infinity .negative ∧ units x ≤ -overflow ∨
      unpack .binary64 (pack .binary64 x) = .infinity .positive ∧ overflow ≤ units x := by
  cases x with
  | notANumber => exact h.elim
  | infinity sign => exact h.elim
  | zero sign =>
    refine .inl ⟨?_, overflow_pos⟩
    cases sign <;> rfl
  | finite sign m e hm =>
    by_cases hlt : e < 972
    . refine .inl ⟨unpack_pack_of_lt sign hm h hlt, ?_⟩
      rw [natAbs_units_finite]
      exact (magnitude_lt_iff h).mpr hlt
    . have hle : overflow ≤ magnitude m e := not_lt.mp (mt (magnitude_lt_iff h).mp hlt)
      apply Or.inr
      rw [unpack_pack_of_le sign hm (not_lt.mp hlt)]
      cases sign with
      | negative => exact .inl ⟨rfl, neg_le_neg (Int.ofNat_le.mpr hle)⟩
      | positive => exact .inr ⟨rfl, Int.ofNat_le.mpr hle⟩

/-! ### Rounding -/

theorem mantissa_shiftRight (em : ExtendedMantissa) (k : Nat) :
    (em >>> k).mantissa = em.mantissa / 2 ^ k := by
  show (k.repeat ExtendedMantissa.shiftRightOne em).mantissa = _
  induction k with
  | zero => simp [Nat.repeat]
  | succ k ih =>
    rw [Nat.repeat, pow_succ, ← Nat.div_div_eq_div_mul, ← ih]
    rfl

theorem roundedMantissa_mem (em : ExtendedMantissa) :
    em.mantissa ≤ em.roundedMantissa ∧ em.roundedMantissa ≤ em.mantissa + 1 := by
  obtain ⟨m, round, sticky⟩ := em
  unfold ExtendedMantissa.roundedMantissa
  cases round with
  | false => cases sticky <;> simp [ExtendedMantissa.accuracy, Accuracy.roundToNearestEven]
  | true =>
    cases sticky with
    | false =>
      simp only [ExtendedMantissa.accuracy, Accuracy.roundToNearestEven]
      omega
    | true => simp [ExtendedMantissa.accuracy, Accuracy.roundToNearestEven]

theorem roundedMantissa_shiftRight (m k : Nat) :
    let r := ((⟨m, false, false⟩ : ExtendedMantissa) >>> k).roundedMantissa
    m / 2 ^ k ≤ r ∧ r * 2 ^ k < m + 2 ^ k := by
  have hpow : 0 < 2 ^ k := by positivity
  dsimp only
  by_cases hdvd : 2 ^ k ∣ m
  . obtain ⟨c, rfl⟩ := hdvd
    rw [mul_comm, shiftRight_mul_two_pow, Nat.mul_div_cancel _ hpow]
    exact ⟨le_refl c, Nat.lt_add_of_pos_right hpow⟩
  . obtain ⟨hle, hlt⟩ := roundedMantissa_mem ((⟨m, false, false⟩ : ExtendedMantissa) >>> k)
    rw [mantissa_shiftRight] at hle hlt
    refine ⟨hle, ?_⟩
    have hrest : 0 < m % 2 ^ k := Nat.pos_of_ne_zero (mt Nat.dvd_of_mod_eq_zero hdvd)
    have hsplit := Nat.div_add_mod' m (2 ^ k)
    calc _ ≤ (m / 2 ^ k + 1) * 2 ^ k := Nat.mul_le_mul_right _ hlt
      _ = m / 2 ^ k * 2 ^ k + 2 ^ k := by ring
      _ < m + 2 ^ k := by omega

theorem roundedMantissa_le {m k : Nat} (h : m < 2 ^ 53 * 2 ^ k) :
    ((⟨m, false, false⟩ : ExtendedMantissa) >>> k).roundedMantissa ≤ 2 ^ 53 := by
  obtain ⟨_, hlt⟩ := roundedMantissa_shiftRight m k
  have hless : _ * 2 ^ k < (2 ^ 53 + 1) * 2 ^ k := calc
    _ < m + 2 ^ k := hlt
    _ ≤ 2 ^ 53 * 2 ^ k + 2 ^ k := Nat.add_le_add_right h.le _
    _ = (2 ^ 53 + 1) * 2 ^ k := by rw [add_mul, one_mul]
  exact Nat.le_of_lt_succ (Nat.lt_of_mul_lt_mul_right hless)

structure Rounds (exact : Nat) (sign : Sign) (x : UnpackedFloat) (r k : Nat) : Prop where
  canonical : IsCanonical x
  units_eq : units x = sign.apply (r * 2 ^ k : Nat)
  ge : exact / 2 ^ k ≤ r
  lt : r * 2 ^ k < exact + 2 ^ k
  full : k = 0 ∨ 2 ^ 52 * 2 ^ k ≤ exact

theorem shiftToTargetExponent_small {m : Nat} {e : ℤ} (hm : m < 2 ^ 53) (he : -1074 ≤ e) :
    shiftToTargetExponent .binary64 m e .exact = (⟨m, false, false⟩, e) := by
  have hlog : m.log2 ≤ 52 := by
    by_cases hzero : m = 0
    . subst hzero
      decide
    . exact Nat.le_of_lt_succ ((Nat.log2_lt hzero).mpr hm)
  have hshift : (Format.targetExponent .binary64 (totalExponent m e) - e).toNat = 0 := by
    rw [targetExponent_eq, totalExponent]
    omega
  unfold shiftToTargetExponent shiftToExponent
  dsimp only
  rw [hshift]
  exact Prod.ext rfl (add_zero e)

theorem roundWithAccuracy_of_shift (sign : Sign) {m r : Nat} {e t : ℤ} {em : ExtendedMantissa}
    (hshift : shiftToTargetExponent .binary64 m e .exact = (em, t)) (hr : em.roundedMantissa = r)
    (hle : r ≤ 2 ^ 53) (ht : -1074 ≤ t) (hfull : t = -1074 ∨ 2 ^ 52 ≤ r) :
    IsCanonical (roundWithAccuracy .binary64 sign m e .exact) ∧
      units (roundWithAccuracy .binary64 sign m e .exact)
        = sign.apply (r * 2 ^ (t + 1074).toNat : Nat) := by
  -- A carry out of the mantissa goes into the exponent, and what is left is short enough.
  unfold roundWithAccuracy
  rw [hshift]
  dsimp only
  rw [hr]
  by_cases hlt : r < 2 ^ 53
  . rw [shiftToTargetExponent_small hlt ht]
    dsimp only
    split
    . next hzero =>
      subst hzero
      rw [zero_mul]
      cases sign <;> exact ⟨trivial, rfl⟩
    . exact ⟨⟨hlt, ht, hfull⟩, rfl⟩
  . have hcarry : r = 2 ^ 52 * 2 ^ 1 := by omega
    have hagain : shiftToTargetExponent .binary64 (2 ^ 52 * 2 ^ 1) (t + 1 - (1 : Nat)) .exact
        = (⟨2 ^ 52, false, false⟩, t + 1) :=
      shiftToTargetExponent_eq (by decide) (by omega) 1
    rw [Nat.cast_one, add_sub_cancel_right] at hagain
    rw [hcarry, hagain]
    dsimp only
    refine ⟨⟨by decide, by omega, .inr (le_refl _)⟩, ?_⟩
    have hunits : magnitude (2 ^ 52) (t + 1) = 2 ^ 52 * 2 ^ 1 * 2 ^ (t + 1074).toNat := by
      have hexponent : (t + 1 + 1074).toNat = 1 + (t + 1074).toNat := by omega
      unfold magnitude
      rw [hexponent, pow_add, mul_assoc]
    rw [dif_neg (by decide), ← hunits]
    rfl

theorem roundWithAccuracy_rounds (sign : Sign) {m : Nat} {e t : ℤ} (hm : 0 < m) (he : -1074 ≤ e)
    (ht : Format.targetExponent .binary64 (totalExponent m e) = t) (het : e ≤ t) :
    ∃ r, Rounds (magnitude m e) sign (roundWithAccuracy .binary64 sign m e .exact) r
      (t + 1074).toNat := by
  obtain ⟨k, rfl⟩ : ∃ k : Nat, t = e + k := ⟨(t - e).toNat, by omega⟩
  have hshift : shiftToTargetExponent .binary64 m e .exact
      = ((⟨m, false, false⟩ : ExtendedMantissa) >>> k, e + k) := by
    unfold shiftToTargetExponent shiftToExponent
    dsimp only
    rw [ht, add_sub_cancel_left, Int.toNat_natCast]
    rfl
  rw [targetExponent_eq, totalExponent] at ht
  have hshort : m < 2 ^ 53 * 2 ^ k := by
    rw [← pow_add]
    apply lt_of_lt_of_le Nat.lt_log2_self
    apply Nat.pow_le_pow_right (by decide)
    omega
  obtain ⟨hge, hlt⟩ := roundedMantissa_shiftRight m k
  have hle := roundedMantissa_le hshort
  generalize hr : ((⟨m, false, false⟩ : ExtendedMantissa) >>> k).roundedMantissa = r at hge hlt hle
  have hpow : 0 < 2 ^ k := by positivity
  have hunit : 2 ^ (e + k + 1074).toNat = 2 ^ k * 2 ^ (e + 1074).toNat := by
    rw [← pow_add]
    congr 1
    omega
  have hfull : e + k = -1074 ∨ 2 ^ 52 * 2 ^ k ≤ m := by
    by_cases hleast : e + k = -1074
    . exact .inl hleast
    . apply Or.inr
      have hlog : 52 + k = m.log2 := by omega
      rw [← pow_add, hlog]
      exact Nat.log2_self_le hm.ne'
  have hfull' : e + k = -1074 ∨ 2 ^ 52 ≤ r := by
    apply hfull.imp_right
    intro hlong
    exact le_trans ((Nat.le_div_iff_mul_le hpow).mpr hlong) hge
  obtain ⟨hcanonical, hunits⟩ := roundWithAccuracy_of_shift sign hshift hr hle (by omega) hfull'
  refine ⟨r, hcanonical, hunits, ?_, ?_, ?_⟩
  . rw [hunit, magnitude, Nat.mul_div_mul_right _ _ (by positivity)]
    exact hge
  . rw [hunit, magnitude, ← mul_assoc, ← add_mul]
    exact Nat.mul_lt_mul_of_pos_right hlt (by positivity)
  . rw [hunit, magnitude, ← mul_assoc]
    apply hfull.imp
    . intro hleast
      omega
    . intro hlong
      exact Nat.mul_le_mul_right _ hlong

theorem round_rounds (sign : Sign) {m : Nat} {e : ℤ} (hm : 0 < m) (he : -1074 ≤ e) :
    ∃ r k, Rounds (magnitude m e) sign (UnpackedFloat.round .binary64 sign m e) r k := by
  generalize ht : Format.targetExponent .binary64 (totalExponent m e) = t
  obtain ⟨j, hj⟩ : ∃ j : Nat, (e - t).toNat = j := ⟨_, rfl⟩
  have hround : UnpackedFloat.round .binary64 sign m e
      = roundWithAccuracy .binary64 sign (m * 2 ^ j) (e - j) .exact := by
    unfold UnpackedFloat.round decreaseExponent
    dsimp only
    rw [ht, hj, Nat.shiftLeft_eq]
  have htotal : totalExponent (m * 2 ^ j) (e - j) = totalExponent m e := by
    unfold totalExponent
    rw [log2_mul_two_pow hm.ne']
    omega
  have hleast : -1074 ≤ t := by
    rw [← ht, targetExponent_eq]
    omega
  have hmagnitude : magnitude m e = magnitude (m * 2 ^ j) (e - j) := by
    have hexponent : (e + 1074).toNat = j + (e - j + 1074).toNat := by omega
    unfold magnitude
    rw [hexponent, pow_add, mul_assoc]
  rw [hround, hmagnitude]
  obtain ⟨r, hr⟩ := roundWithAccuracy_rounds sign (m := m * 2 ^ j) (e := e - j) (by positivity)
    (by omega) (by rw [htotal, ht]) (by omega)
  exact ⟨r, _, hr⟩

namespace Rounds

variable {exact r k m : Nat} {sign : Sign} {x : UnpackedFloat} {e : ℤ}

theorem magnitude_cases (h : Canonical m e) (k : Nat) :
    (∃ c, magnitude m e = c * 2 ^ k) ∨ magnitude m e < 2 ^ 52 * 2 ^ k := by
  unfold magnitude
  by_cases hk : k ≤ (e + 1074).toNat
  . obtain ⟨j, hj⟩ := Nat.exists_eq_add_of_le' hk
    rw [hj, pow_add, ← mul_assoc]
    exact .inl ⟨_, rfl⟩
  . apply Or.inr
    obtain ⟨j, rfl⟩ := Nat.exists_eq_add_of_lt (not_le.mp hk)
    calc m * 2 ^ (e + 1074).toNat
        < 2 ^ 53 * 2 ^ (e + 1074).toNat :=
          Nat.mul_lt_mul_of_pos_right h.mantissa_lt (by positivity)
      _ = 2 ^ 52 * 2 ^ ((e + 1074).toNat + 1) := by ring
      _ ≤ 2 ^ 52 * 2 ^ ((e + 1074).toNat + j + 1) := by
        apply Nat.mul_le_mul_left
        apply Nat.pow_le_pow_right (by decide)
        omega

theorem le_of_le (h : Rounds exact sign x r k) (hm : Canonical m e) (hle : magnitude m e ≤ exact) :
    magnitude m e ≤ r * 2 ^ k := by
  have hpow : 0 < 2 ^ k := by positivity
  cases magnitude_cases hm k with
  | inl hmultiple =>
    obtain ⟨c, hc⟩ := hmultiple
    rw [hc] at hle ⊢
    apply Nat.mul_le_mul_right
    exact le_trans ((Nat.le_div_iff_mul_le hpow).mpr hle) h.ge
  | inr hsmall =>
    cases h.full with
    | inl hzero =>
      subst hzero
      have := h.ge
      rw [pow_zero, Nat.div_one] at this
      omega
    | inr hfull =>
      apply le_trans hsmall.le
      apply Nat.mul_le_mul_right
      exact le_trans ((Nat.le_div_iff_mul_le hpow).mpr hfull) h.ge

theorem ge_of_ge (h : Rounds exact sign x r k) (hm : Canonical m e) (hge : exact ≤ magnitude m e) :
    r * 2 ^ k ≤ magnitude m e := by
  have hlt := h.lt
  cases magnitude_cases hm k with
  | inl hmultiple =>
    obtain ⟨c, hc⟩ := hmultiple
    rw [hc] at hge ⊢
    apply Nat.mul_le_mul_right
    have : r * 2 ^ k < (c + 1) * 2 ^ k := by
      rw [add_mul, one_mul]
      omega
    exact Nat.le_of_lt_succ (Nat.lt_of_mul_lt_mul_right this)
  | inr hsmall =>
    cases h.full with
    | inl hzero =>
      subst hzero
      rw [pow_zero, mul_one] at hlt ⊢
      omega
    | inr hfull => omega

variable {y : UnpackedFloat} (h : Rounds exact sign x r k) (hy : IsCanonical y)

include h hy

theorem natAbs_le (hle : (units y).natAbs ≤ exact) : (units y).natAbs ≤ r * 2 ^ k := by
  cases y with
  | notANumber => exact hy.elim
  | infinity sign => exact hy.elim
  | zero sign => exact Nat.zero_le _
  | finite sign m e hm =>
    rw [natAbs_units_finite] at hle ⊢
    exact h.le_of_le hy hle

theorem le_natAbs (hge : exact ≤ (units y).natAbs) : r * 2 ^ k ≤ (units y).natAbs := by
  cases y with
  | notANumber => exact hy.elim
  | infinity sign => exact hy.elim
  | zero sign =>
    have hlt := h.lt
    have hzero : exact = 0 := Nat.le_zero.mp hge
    rw [hzero, zero_add] at hlt
    have : r < 1 := Nat.lt_of_mul_lt_mul_right (by rwa [one_mul])
    simp [Nat.lt_one_iff.mp this]
  | finite sign m e hm =>
    rw [natAbs_units_finite] at hge ⊢
    exact h.ge_of_ge hy hge

end Rounds

structure Near (n : ℤ) (x : UnpackedFloat) : Prop where
  canonical : IsCanonical x
  above : ∀ y, IsCanonical y → units y ≤ n → units y ≤ units x
  below : ∀ y, IsCanonical y → n ≤ units y → units x ≤ units y

theorem near_units {x : UnpackedFloat} (h : IsCanonical x) : Near (units x) x where
  canonical := h
  above _ _ hle := hle
  below _ _ hge := hge

theorem Rounds.near {exact r k : Nat} {sign : Sign} {x : UnpackedFloat}
    (h : Rounds exact sign x r k) : Near (sign.apply exact) x := by
  have hunits := h.units_eq
  cases sign with
  | negative =>
    have hunits : units x = -(r * 2 ^ k : Nat) := hunits
    have hexact : Sign.apply .negative exact = -(exact : ℤ) := rfl
    refine ⟨h.canonical, ?_, ?_⟩
    . intro y hy hle
      have := h.le_natAbs hy
      omega
    . intro y hy hge
      have := h.natAbs_le hy
      omega
  | positive =>
    have hunits : units x = (r * 2 ^ k : Nat) := hunits
    have hexact : Sign.apply .positive exact = (exact : ℤ) := rfl
    refine ⟨h.canonical, ?_, ?_⟩
    . intro y hy hle
      have := h.natAbs_le hy
      omega
    . intro y hy hge
      have := h.le_natAbs hy
      omega

theorem near_normalize (n : ℤ) {e : ℤ} (he : -1074 ≤ e) :
    Near (n * 2 ^ (e + 1074).toNat) (UnpackedFloat.normalize .binary64 n e .positive) := by
  unfold UnpackedFloat.normalize
  rcases lt_trichotomy n 0 with hn | rfl | hn
  . rw [compare_lt_iff_lt.mpr hn]
    obtain ⟨m, rfl⟩ : ∃ m : Nat, n = -m := ⟨n.natAbs, by omega⟩
    have hexact : -(m : ℤ) * 2 ^ (e + 1074).toNat = Sign.apply .negative (magnitude m e) := by
      unfold magnitude
      push_cast
      exact neg_mul _ _
    dsimp only
    rw [neg_neg, Int.toNat_natCast, hexact]
    obtain ⟨r, k, h⟩ := round_rounds .negative (m := m) (by omega) he
    exact h.near
  . rw [compare_eq_iff_eq.mpr rfl, zero_mul]
    exact near_units (x := .zero .positive) trivial
  . rw [compare_gt_iff_gt.mpr hn]
    obtain ⟨m, rfl⟩ : ∃ m : Nat, n = m := ⟨n.natAbs, by omega⟩
    have hexact : (m : ℤ) * 2 ^ (e + 1074).toNat = Sign.apply .positive (magnitude m e) := by
      unfold magnitude
      push_cast
      rfl
    dsimp only
    rw [Int.toNat_natCast, hexact]
    obtain ⟨r, k, h⟩ := round_rounds .positive (m := m) (by omega) he
    exact h.near

theorem apply_decreaseExponent (sign : Sign) (m : Nat) {e t : ℤ} (ht : -1074 ≤ t) (hte : t ≤ e) :
    sign.apply (decreaseExponent m e t).1 * 2 ^ (t + 1074).toNat = sign.apply (magnitude m e) := by
  have hexponent : (e + 1074).toNat = (e - t).toNat + (t + 1074).toNat := by omega
  have hmagnitude : magnitude m e = (decreaseExponent m e t).1 * 2 ^ (t + 1074).toNat := by
    unfold magnitude decreaseExponent
    dsimp only
    rw [hexponent, pow_add, Nat.shiftLeft_eq, mul_assoc]
  rw [hmagnitude]
  push_cast
  cases sign with
  | negative => exact neg_mul _ _
  | positive => rfl

theorem near_add {x y : UnpackedFloat} (hx : IsCanonical x) (hy : IsCanonical y) :
    Near (units x + units y) (UnpackedFloat.add .binary64 x y) := by
  cases x with
  | notANumber => exact hx.elim
  | infinity sign => exact hx.elim
  | zero sign =>
    have hzero : units (.zero sign) = 0 := rfl
    rw [hzero, zero_add]
    cases y with
    | notANumber => exact hy.elim
    | infinity sign' => exact hy.elim
    | zero sign' =>
      have hsum : ∃ sum, UnpackedFloat.add .binary64 (.zero sign) (.zero sign') = .zero sum := by
        cases sign <;> cases sign' <;> exact ⟨_, rfl⟩
      obtain ⟨sum, hsum⟩ := hsum
      rw [hsum]
      exact near_units (x := .zero sum) trivial
    | finite sign' m' e' hm' => exact near_units hy
  | finite sign m e hm =>
    cases y with
    | notANumber => exact hy.elim
    | infinity sign' => exact hy.elim
    | zero sign' =>
      have hzero : units (.zero sign') = 0 := rfl
      rw [hzero, add_zero]
      exact near_units hx
    | finite sign' m' e' hm' =>
      have hleast : -1074 ≤ min e e' := le_min hx.exponent_ge hy.exponent_ge
      have hnear := near_normalize (sign.apply (decreaseExponent m e (min e e')).1
        + sign'.apply (decreaseExponent m' e' (min e e')).1) hleast
      rw [add_mul, apply_decreaseExponent sign m hleast (min_le_left e e'),
        apply_decreaseExponent sign' m' hleast (min_le_right e e')] at hnear
      exact hnear

theorem near_sub {x y : UnpackedFloat} (hx : IsCanonical x) (hy : IsCanonical y) :
    Near (units x - units y) (UnpackedFloat.sub .binary64 x y) := by
  have hneg : IsCanonical y.neg ∧ units y.neg = -units y := by
    cases y with
    | notANumber => exact hy.elim
    | infinity sign => exact hy.elim
    | zero sign => exact ⟨trivial, rfl⟩
    | finite sign m e hm =>
      refine ⟨hy, ?_⟩
      cases sign with
      | negative => exact (neg_neg _).symm
      | positive => rfl
  rw [sub_eq_add_neg, Int.sub_eq_add_neg, ← hneg.right]
  exact near_add hx hneg.left

/-! ### Sums and differences -/

theorem number_add (x y : Double) :
    (x + y).number
      =
    unpack .binary64 (pack .binary64 (UnpackedFloat.add .binary64 x.number y.number)) := by
  have hstored : (x + y).toFloat = x.toFloat + y.toFloat := Float.ofBits_toBits _
  unfold number
  rw [hstored]
  rfl

theorem number_sub (x y : Double) :
    (x - y).number
      =
    unpack .binary64 (pack .binary64 (UnpackedFloat.sub .binary64 x.number y.number)) := by
  have hstored : (x - y).toFloat = x.toFloat - y.toFloat := Float.ofBits_toBits _
  unfold number
  rw [hstored]
  rfl

section

variable {x y z : Double}

theorem le_iff_of_isFinite (hx : x.isFinite = true) (hy : y.isFinite = true) :
    x ≤ y ↔ units x.number ≤ units y.number := by
  rw [le_iff, le_iff_units_le (canonical_number hx).left (canonical_number hy).left]

theorem lt_iff_of_isFinite (hx : x.isFinite = true) (hy : y.isFinite = true) :
    x < y ↔ units x.number < units y.number := by
  rw [lt_iff, lt_iff_units_lt (canonical_number hx).left (canonical_number hy).left]

theorem isFinite_of_canonical (h : IsCanonical x.number) : x.isFinite = true := by
  rw [← isFinite_number]
  revert h
  cases x.number <;> simp [IsCanonical, UnpackedFloat.isFinite]

theorem isFinite_of_le_of_lt (hx : x.isFinite = true) (hz : z.isFinite = true) (hle : x ≤ y)
    (hlt : y < z) : y.isFinite = true := by
  rw [le_iff] at hle
  rw [lt_iff] at hlt
  rw [← isFinite_number] at hx hz ⊢
  cases hy : y.number with
  | notANumber => simp [hy, UnpackedFloat.lt, UnpackedFloat.compare] at hlt
  | infinity sign =>
    cases sign with
    | negative =>
      revert hx hle
      rw [hy]
      cases x.number <;>
        simp [UnpackedFloat.isFinite, UnpackedFloat.le, UnpackedFloat.compare]
    | positive =>
      revert hz hlt
      rw [hy]
      cases z.number <;>
        simp [UnpackedFloat.isFinite, UnpackedFloat.lt, UnpackedFloat.compare]
  | zero sign => rfl
  | finite sign m e hm => rfl

theorem le_infinity (hx : x.isFinite = true) : x.number.le (.infinity .positive) = true := by
  rw [← isFinite_number] at hx
  revert hx
  cases x.number <;> simp [UnpackedFloat.isFinite, UnpackedFloat.le, UnpackedFloat.compare]

theorem le_add_of_nonneg (hx : 0 ≤ x) (hy : y.isFinite = true) : y ≤ x + y := by
  obtain ⟨hcanonical, hrange⟩ := canonical_number hy
  rw [le_iff, number_add]
  by_cases hfinite : x.isFinite = true
  . rw [le_iff_of_isFinite (by decide) hfinite] at hx
    have hzero : units (number 0) = 0 := rfl
    have hsum := near_add (canonical_number hfinite).left hcanonical
    have hle := hsum.above _ hcanonical (by omega)
    obtain ⟨heq, _⟩ | ⟨_, hless⟩ | ⟨heq, _⟩ := unpack_pack_cases hsum.canonical
    . rw [heq, le_iff_units_le hcanonical hsum.canonical]
      exact hle
    . omega
    . rw [heq]
      exact le_infinity hy
  . rw [zero_le_iff] at hx
    have hinfinite : x.number = .infinity .positive := by
      rw [← isFinite_number] at hfinite
      revert hx hfinite
      cases x.number with
      | infinity sign => cases sign <;> simp [nonnegative, UnpackedFloat.le, UnpackedFloat.compare]
      | notANumber => simp [nonnegative, UnpackedFloat.le, UnpackedFloat.compare]
      | zero sign => simp [UnpackedFloat.isFinite]
      | finite sign m e hm => simp [UnpackedFloat.isFinite]
    have hsum : UnpackedFloat.add .binary64 x.number y.number = .infinity .positive := by
      rw [hinfinite]
      revert hcanonical
      cases y.number <;> simp [IsCanonical, UnpackedFloat.add]
    rw [hsum]
    exact le_infinity hy

theorem sub_nonneg_of_le (hx : x.isFinite = true) (hy : y.isFinite = true) (h : y ≤ x) :
    0 ≤ x - y := by
  rw [le_iff_of_isFinite hy hx] at h
  have hdifference := near_sub (canonical_number hx).left (canonical_number hy).left
  have hle := hdifference.above (.zero .positive) trivial (by
    have hzero : units (.zero .positive) = 0 := rfl
    omega)
  rw [zero_le_iff, number_sub]
  apply nonnegative_pack
  unfold nonnegative
  rw [le_iff_units_le (x := .zero .positive) trivial hdifference.canonical]
  exact hle

theorem isFinite_sub_of_le (hx : x.isFinite = true) (hy : y.isFinite = true) (hnonneg : 0 ≤ y)
    (h : y ≤ x) : (x - y).isFinite = true := by
  obtain ⟨hcanonical, hrange⟩ := canonical_number hx
  rw [le_iff_of_isFinite hy hx] at h
  rw [le_iff_of_isFinite (by decide) hy] at hnonneg
  have hzero : units (number 0) = 0 := rfl
  have hdifference := near_sub hcanonical (canonical_number hy).left
  have habove := hdifference.above (number 0) trivial (by omega)
  have hbelow := hdifference.below _ hcanonical (by omega)
  apply isFinite_of_canonical
  rw [number_sub]
  obtain ⟨heq, _⟩ | ⟨_, hless⟩ | ⟨_, hmore⟩ := unpack_pack_cases hdifference.canonical
  . rw [heq]
    exact hdifference.canonical
  . omega
  . omega

theorem mul_nonneg_of_isFinite (hx : x.isFinite = true) (hy : y.isFinite = true) (hx' : 0 ≤ x)
    (hy' : 0 ≤ y) : 0 ≤ x * y := by
  rw [zero_le_iff] at hx' hy' ⊢
  rw [number_mul]
  apply nonnegative_pack
  rw [← isFinite_number] at hx hy
  cases hnumber : x.number with
  | notANumber => simp [hnumber, UnpackedFloat.isFinite] at hx
  | infinity sign => simp [hnumber, UnpackedFloat.isFinite] at hx
  | zero sign =>
    revert hy
    cases y.number <;> simp [UnpackedFloat.isFinite, UnpackedFloat.mul, nonnegative,
      UnpackedFloat.le, UnpackedFloat.compare]
  | finite sign m e hm =>
    cases sign with
    | negative =>
      simp [hnumber, nonnegative, UnpackedFloat.le, UnpackedFloat.compare] at hx'
    | positive => exact nonnegative_mul hm hy'

theorem min_eq_of_isFinite (hy : y.isFinite = true) :
    Scalar.min x y = if x < y then x else y := by
  have hcanonical := (canonical_number hy).left
  apply if_pos
  show y.number.beq y.number = true
  unfold UnpackedFloat.beq
  rw [compare_eq_units hcanonical hcanonical, compare_eq_iff_eq.mpr rfl]
  rfl

theorem min_cases (hx : x.isFinite = true) (hy : y.isFinite = true) :
    (Scalar.min x y = x ∨ Scalar.min x y = y) ∧ Scalar.min x y ≤ x ∧ Scalar.min x y ≤ y := by
  rw [min_eq_of_isFinite hy]
  split
  . next hlt =>
    rw [lt_iff_of_isFinite hx hy] at hlt
    rw [le_iff_of_isFinite hx hx, le_iff_of_isFinite hx hy]
    exact ⟨.inl rfl, le_refl _, hlt.le⟩
  . next hge =>
    rw [lt_iff_of_isFinite hx hy, not_lt] at hge
    rw [le_iff_of_isFinite hy hx, le_iff_of_isFinite hy hy]
    exact ⟨.inr rfl, hge, le_refl _⟩

theorem neg_half_eq : (-0.5 : Double) = ⟨0xbfe0000000000000⟩ := by
  decide +kernel

theorem nonneg_neg_half_mul (hx : x.isFinite = true) (hneg : x ≤ 0) : 0 ≤ -0.5 * x := by
  have hnumber : (-0.5 : Double).number = .finite .negative (2 ^ 52) (-53) (by decide) := by
    rw [neg_half_eq]
    rfl
  rw [le_iff_of_isFinite hx (by decide)] at hneg
  rw [← isFinite_number] at hx
  rw [zero_le_iff, number_mul, hnumber]
  apply nonnegative_pack
  cases hx' : x.number with
  | notANumber => simp [hx', UnpackedFloat.isFinite] at hx
  | infinity sign => simp [hx', UnpackedFloat.isFinite] at hx
  | zero sign => cases sign <;> rfl
  | finite sign m e hm =>
    cases sign with
    | negative =>
      simp only [UnpackedFloat.mul, UnpackedFloat.roundWithAccuracy]
      split <;> rfl
    | positive =>
      rw [hx'] at hneg
      have hpos := magnitude_pos hm e
      exact absurd (Int.ofNat_lt.mpr hpos) (not_lt.mpr hneg)

theorem pos_of_neg_half_mul_lt (hx : x.isFinite = true) (h : -0.5 * x < x) : 0 < x := by
  by_contra hpos
  rw [lt_iff_of_isFinite (by decide) hx, not_lt] at hpos
  have hle : x ≤ 0 := (le_iff_of_isFinite hx (by decide)).mpr hpos
  have hnonneg := nonneg_neg_half_mul hx hle
  have hfinite := isFinite_of_le_of_lt (by decide) hx hnonneg h
  rw [le_iff_of_isFinite (by decide) hfinite] at hnonneg
  rw [lt_iff_of_isFinite hfinite hx] at h
  omega

end

end CircuitPartition.Double
