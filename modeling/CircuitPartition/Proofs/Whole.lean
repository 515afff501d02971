import CircuitPartition.Proofs.Double

/-!
Whole numbers as doubles. Below `2 ^ 53` they are stored as they are, and so are their sums and
differences: rounding changes nothing.
-/

namespace CircuitPartition.Double

open Float.Model (Format UnpackedFloat totalExponent)
open Float.Model.UnpackedFloat

def whole (n : ℤ) : Double :=
  ⟨.ofBitVec (pack .binary64 (UnpackedFloat.ofInt .binary64 n))⟩

theorem log2_mul_two_pow {m : Nat} (hm : m ≠ 0) (k : Nat) : (m * 2 ^ k).log2 = m.log2 + k := by
  induction k with
  | zero => simp
  | succ k ih =>
    have hshift : m * 2 ^ (k + 1) = 2 * (m * 2 ^ k) := by ring
    rw [hshift, Nat.log2_two_mul (by positivity), ih]
    omega

theorem shiftRight_mul_two_pow (m k : Nat) :
    (⟨m * 2 ^ k, false, false⟩ : ExtendedMantissa) >>> k = ⟨m, false, false⟩ := by
  show k.repeat ExtendedMantissa.shiftRightOne _ = _
  induction k generalizing m with
  | zero => simp [Nat.repeat]
  | succ k ih =>
    have hshift : m * 2 ^ (k + 1) = m * 2 * 2 ^ k := by ring
    rw [Nat.repeat, hshift, ih]
    simp [ExtendedMantissa.shiftRightOne]

theorem targetExponent_eq (e : ℤ) : Format.targetExponent .binary64 e = max (e - 53) (-1074) :=
  rfl

section Normal

variable {c : Nat} (hlog : c.log2 = 52) {t : ℤ}

include hlog

theorem pos_of_log2_eq : 0 < c := by
  apply Nat.pos_of_ne_zero
  rintro rfl
  simp at hlog

theorem shiftToTargetExponent_eq (ht : -1074 ≤ t) (j : Nat) :
    shiftToTargetExponent .binary64 (c * 2 ^ j) (t - j) .exact = (⟨c, false, false⟩, t) := by
  have hc : c ≠ 0 := (pos_of_log2_eq hlog).ne'
  have htarget : Format.targetExponent .binary64 (totalExponent (c * 2 ^ j) (t - j)) = t := by
    rw [targetExponent_eq, totalExponent, log2_mul_two_pow hc, hlog]
    omega
  have hshift : (t - (t - j)).toNat = j := by omega
  unfold shiftToTargetExponent shiftToExponent
  dsimp only
  rw [htarget, hshift]
  simp only [ExtendedMantissa.ofMantissaAndAccuracy, shiftRight_mul_two_pow, sub_add_cancel]

theorem roundWithAccuracy_eq (ht : -1074 ≤ t) (sign : Sign) (j : Nat) :
    roundWithAccuracy .binary64 sign (c * 2 ^ j) (t - j) .exact
      =
    .finite sign c t (pos_of_log2_eq hlog) := by
  have hagain := shiftToTargetExponent_eq hlog ht 0
  rw [pow_zero, mul_one, Nat.cast_zero, sub_zero] at hagain
  have hrounded : ExtendedMantissa.roundedMantissa ⟨c, false, false⟩ = c := rfl
  unfold roundWithAccuracy
  rw [shiftToTargetExponent_eq hlog ht]
  dsimp only
  simp only [hrounded, hagain]
  rw [dif_neg (pos_of_log2_eq hlog).ne']

theorem toNat_one_append : (1#1 ++ BitVec.ofNat 52 c).toNat = c := by
  have hle := Nat.log2_self_le (pos_of_log2_eq hlog).ne'
  have hlt := Nat.lt_log2_self (n := c)
  rw [hlog] at hle hlt
  rw [BitVec.toNat_append, ← Nat.shiftLeft_add_eq_or_of_lt (BitVec.isLt _)]
  simp
  omega

theorem unpack_pack_finite (hle : -1074 ≤ t) (hlt : t < 972) (sign : Sign) :
    unpack .binary64 (pack .binary64 (.finite sign c t (pos_of_log2_eq hlog)))
      =
    .finite sign c t (pos_of_log2_eq hlog) := by
  obtain ⟨biased, hbiased, hpos, hbound⟩ :
      ∃ biased : Nat, (biased : ℤ) = t + 1075 ∧ 0 < biased ∧ biased < 2047 := by
    refine ⟨(t + 1075).toNat, ?_, ?_, ?_⟩ <;> omega
  have hpack : pack .binary64 (.finite sign c t (pos_of_log2_eq hlog))
      = packComponents .binary64 sign (BitVec.ofNat 11 biased) (BitVec.ofNat 52 c) := by
    have hexponent : (t + (Format.exponentBias .binary64 : ℤ) + (52 : Nat)).toNat = biased := by
      have hbias : Format.exponentBias .binary64 = 1023 := rfl
      omega
    unfold pack
    dsimp only
    rw [hexponent, if_neg (by show ¬2 ^ 11 ≤ biased + 1; omega), if_pos (by rw [hlog]; rfl)]
  have hmax : BitVec.ofNat 11 biased ≠ -1#11 := by bv_omega
  have hzero : BitVec.ofNat 11 biased ≠ 0#11 := by bv_omega
  rw [hpack]
  unfold unpack
  dsimp only
  simp only [unpackExponent_packComponents, unpackMantissa_packComponents,
    unpackSign_packComponents, Sign.ofBitVec_toBitVec]
  rw [if_neg hmax, if_neg hzero, UnpackedFloat.finite.injEq]
  refine ⟨rfl, toNat_one_append hlog, ?_⟩
  have hexponent : (BitVec.ofNat 11 biased).toNat = biased := by
    rw [BitVec.toNat_ofNat]
    omega
  have hbias : Format.exponentBias .binary64 = 1023 := rfl
  rw [hexponent, hbias]
  push_cast
  omega

end Normal

def signOf (n : ℤ) : Sign :=
  if n < 0 then .negative else .positive

theorem log2_scaled {m : Nat} (hm : m ≠ 0) (hlt : m < 2 ^ 53) :
    (m * 2 ^ (52 - m.log2)).log2 = 52 := by
  have := (Nat.log2_lt hm).mpr hlt
  rw [log2_mul_two_pow hm]
  omega

theorem scaled_pos {m : Nat} (hm : m ≠ 0) : 0 < m * 2 ^ (52 - m.log2) := by
  positivity

def canonical (n : ℤ) : UnpackedFloat :=
  if h : n = 0 then
    .zero .positive
  else
    .finite (signOf n) (n.natAbs * 2 ^ (52 - n.natAbs.log2)) (n.natAbs.log2 - 52)
      (scaled_pos (Int.natAbs_ne_zero.mpr h))

theorem round_eq {m : Nat} (hm : m ≠ 0) (hlt : m < 2 ^ 53) (sign : Sign) (k : Nat) :
    UnpackedFloat.round .binary64 sign (m * 2 ^ k) (-k)
      =
    .finite sign (m * 2 ^ (52 - m.log2)) (m.log2 - 52) (scaled_pos hm) := by
  have hlog : m.log2 < 53 := (Nat.log2_lt hm).mpr hlt
  have htarget : Format.targetExponent .binary64 (totalExponent (m * 2 ^ k) (-k)) = m.log2 - 52 := by
    rw [targetExponent_eq, totalExponent, log2_mul_two_pow hm]
    omega
  -- What there is beyond the mantissa: zeros in front of it, or behind it.
  obtain ⟨i, j, hi, hij⟩ : ∃ i j : Nat, (-(k : ℤ) - (m.log2 - 52)).toNat = i ∧
      k + i = 52 - m.log2 + j := by
    refine ⟨_, k - (52 - m.log2), rfl, ?_⟩
    omega
  have hmantissa : (m * 2 ^ k) <<< i = m * 2 ^ (52 - m.log2) * 2 ^ j := by
    rw [Nat.shiftLeft_eq, mul_assoc, mul_assoc, ← pow_add, ← pow_add, hij]
  have hexponent : -(k : ℤ) - i = m.log2 - 52 - j := by omega
  unfold UnpackedFloat.round decreaseExponent
  dsimp only
  rw [htarget, hi, hmantissa, hexponent]
  apply roundWithAccuracy_eq (log2_scaled hm hlt)
  omega

theorem canonical_zero : canonical 0 = .zero .positive :=
  rfl

theorem canonical_of_ne {n : ℤ} (h : n ≠ 0) :
    canonical n
      =
    .finite (signOf n) (n.natAbs * 2 ^ (52 - n.natAbs.log2)) (n.natAbs.log2 - 52)
      (scaled_pos (Int.natAbs_ne_zero.mpr h)) :=
  dif_neg h

theorem normalize_eq {n : ℤ} (hlt : n.natAbs < 2 ^ 53) (k : Nat) :
    UnpackedFloat.normalize .binary64 (n * 2 ^ k) (-k) .positive = canonical n := by
  have hpow : (0 : ℤ) < 2 ^ k := by positivity
  unfold UnpackedFloat.normalize
  rcases Int.lt_trichotomy n 0 with hn | rfl | hn
  . have habs : (-(n * 2 ^ k)).toNat = n.natAbs * 2 ^ k := by
      zify
      rw [Int.toNat_of_nonneg (by nlinarith), abs_of_neg hn]
      ring
    rw [Int.compare_eq_lt.mpr (mul_neg_of_neg_of_pos hn hpow), canonical_of_ne hn.ne, habs]
    dsimp only
    rw [round_eq (Int.natAbs_ne_zero.mpr hn.ne) hlt]
    simp [signOf, hn]
  . rw [zero_mul, canonical_zero]
    rfl
  . have habs : (n * 2 ^ k).toNat = n.natAbs * 2 ^ k := by
      zify
      rw [Int.toNat_of_nonneg (by positivity), abs_of_pos hn]
    rw [Int.compare_eq_gt.mpr (mul_pos hn hpow), canonical_of_ne hn.ne', habs]
    dsimp only
    rw [round_eq (Int.natAbs_ne_zero.mpr hn.ne') hlt]
    simp [signOf, hn.le]

theorem ofInt_eq {n : ℤ} (hlt : n.natAbs < 2 ^ 53) :
    UnpackedFloat.ofInt .binary64 n = canonical n := by
  unfold UnpackedFloat.ofInt
  simpa using normalize_eq hlt 0

theorem unpack_pack_canonical {n : ℤ} (hlt : n.natAbs < 2 ^ 53) :
    unpack .binary64 (pack .binary64 (canonical n)) = canonical n := by
  unfold canonical
  split
  . rfl
  . next hn =>
    have hne := Int.natAbs_ne_zero.mpr hn
    have hlog : n.natAbs.log2 < 53 := (Nat.log2_lt hne).mpr hlt
    apply unpack_pack_finite (log2_scaled hne hlt)
    . omega
    . omega

theorem number_whole {n : ℤ} (hlt : n.natAbs < 2 ^ 53) : (whole n).number = canonical n := by
  have hnumber : (whole n).number = unpack .binary64 (pack .binary64
      (unpack .binary64 (pack .binary64 (UnpackedFloat.ofInt .binary64 n)))) := rfl
  rw [hnumber, ofInt_eq hlt, unpack_pack_canonical hlt, unpack_pack_canonical hlt]

theorem isFinite_whole {n : ℤ} (hlt : n.natAbs < 2 ^ 53) : (whole n).isFinite = true := by
  rw [← isFinite_number, number_whole hlt]
  unfold canonical
  split <;> rfl

theorem apply_signOf (n : ℤ) (k : Nat) :
    (signOf n).apply (n.natAbs * 2 ^ k : Nat) = n * 2 ^ k := by
  unfold signOf
  push_cast
  split
  . next hn =>
    rw [abs_of_neg hn]
    simp [Sign.apply]
  . next hn =>
    rw [abs_of_nonneg (not_lt.mp hn)]
    rfl

theorem decreaseExponent_scaled {m : Nat} (hlog : m.log2 ≤ 52) {k : Nat} (hk : 52 ≤ m.log2 + k) :
    (decreaseExponent (m * 2 ^ (52 - m.log2)) (m.log2 - 52) (-k)).1 = m * 2 ^ k := by
  have hshift : ((m.log2 : ℤ) - 52 - -k).toNat = m.log2 + k - 52 := by omega
  have hsum : 52 - m.log2 + (m.log2 + k - 52) = k := by omega
  unfold decreaseExponent
  dsimp only
  rw [hshift, Nat.shiftLeft_eq, mul_assoc, ← pow_add, hsum]

theorem add_canonical {a b : ℤ} (ha : a.natAbs < 2 ^ 53) (hb : b.natAbs < 2 ^ 53)
    (hsum : (a + b).natAbs < 2 ^ 53) :
    UnpackedFloat.add .binary64 (canonical a) (canonical b) = canonical (a + b) := by
  by_cases hzero : a = 0
  . subst hzero
    rw [zero_add, canonical_zero]
    unfold canonical
    split <;> rfl
  by_cases hzero' : b = 0
  . subst hzero'
    rw [add_zero, canonical_zero, canonical_of_ne hzero]
    rfl
  have hloga : a.natAbs.log2 ≤ 52 :=
    Nat.le_of_lt_succ ((Nat.log2_lt (Int.natAbs_ne_zero.mpr hzero)).mpr ha)
  have hlogb : b.natAbs.log2 ≤ 52 :=
    Nat.le_of_lt_succ ((Nat.log2_lt (Int.natAbs_ne_zero.mpr hzero')).mpr hb)
  obtain ⟨k, hk⟩ : ∃ k : Nat, min ((a.natAbs.log2 : ℤ) - 52) (b.natAbs.log2 - 52) = -k := by
    refine ⟨52 - min a.natAbs.log2 b.natAbs.log2, ?_⟩
    omega
  rw [← normalize_eq hsum k, add_mul, ← apply_signOf a, ← apply_signOf b, canonical_of_ne hzero,
    canonical_of_ne hzero']
  unfold UnpackedFloat.add
  dsimp only
  rw [hk, decreaseExponent_scaled hloga (by omega), decreaseExponent_scaled hlogb (by omega)]

theorem sub_eq_add_neg (x y : UnpackedFloat) :
    UnpackedFloat.sub .binary64 x y = UnpackedFloat.add .binary64 x y.neg := by
  have happly (sign : Sign) (m : ℤ) : (-sign).apply m = -sign.apply m := by
    cases sign
    . exact (neg_neg m).symm
    . rfl
  cases x <;> cases y <;>
    simp only [UnpackedFloat.sub, UnpackedFloat.add, UnpackedFloat.neg, happly, Int.sub_eq_add_neg]

theorem neg_canonical {n : ℤ} (h : n ≠ 0) : (canonical n).neg = canonical (-n) := by
  have hsign : -signOf n = signOf (-n) := by
    unfold signOf
    rcases Int.lt_or_gt_of_ne h with hn | hn
    . rw [if_pos hn, if_neg (by omega)]
      rfl
    . rw [if_neg (by omega), if_pos (by omega)]
      rfl
  rw [canonical_of_ne h, canonical_of_ne (Int.neg_ne_zero.mpr h)]
  simp only [UnpackedFloat.neg, hsign, Int.natAbs_neg]

theorem sub_canonical {a b : ℤ} (ha : a.natAbs < 2 ^ 53) (hb : b.natAbs < 2 ^ 53)
    (hdifference : (a - b).natAbs < 2 ^ 53) :
    UnpackedFloat.sub .binary64 (canonical a) (canonical b) = canonical (a - b) := by
  by_cases hzero : b = 0
  . subst hzero
    rw [sub_zero, canonical_zero]
    unfold canonical
    split <;> rfl
  . rw [sub_eq_add_neg, neg_canonical hzero, Int.sub_eq_add_neg]
    rw [Int.sub_eq_add_neg] at hdifference
    exact add_canonical ha (by rwa [Int.natAbs_neg]) hdifference

section Operations

variable {a b : ℤ} (ha : a.natAbs < 2 ^ 53) (hb : b.natAbs < 2 ^ 53)

include ha hb

theorem whole_add (hsum : (a + b).natAbs < 2 ^ 53) : whole a + whole b = whole (a + b) := by
  have hadd : whole a + whole b = ⟨.ofBitVec (pack .binary64
      (UnpackedFloat.add .binary64 (whole a).number (whole b).number))⟩ := rfl
  rw [hadd, number_whole ha, number_whole hb, add_canonical ha hb hsum, ← ofInt_eq hsum]
  rfl

theorem whole_sub (hdifference : (a - b).natAbs < 2 ^ 53) : whole a - whole b = whole (a - b) := by
  rw [sub_eq, number_whole ha, number_whole hb, sub_canonical ha hb hdifference,
    ← ofInt_eq hdifference]
  rfl

end Operations

end CircuitPartition.Double
