import CircuitPartition.Json.Number
import Mathlib.Data.List.TakeWhile

/-!
Numbers in JSON texts. Numerals are words of the lexer, and a whole number reads back.
-/

namespace CircuitPartition

namespace Decimal

theorem valueOf_toDigits (n : Nat) : valueOf (Nat.toDigits 10 n) = n := by
  unfold valueOf
  rw [← Nat.ofDigitChars_eq_foldl, Nat.ofDigitChars_ten_toDigits]

theorem toDigits_cons (n : Nat) :
    ∃ c digits, Nat.toDigits 10 n = c :: digits ∧ (c = '0' → digits = []) := by
  induction n using Nat.strongRecOn with
  | ind n ih =>
    rw [Nat.toDigits_eq_if (by decide)]
    split
    . exact ⟨_, [], rfl, fun _ => rfl⟩
    . next hn =>
      obtain ⟨c, digits, heq, hzero⟩ := ih (n / 10) (by omega)
      refine ⟨c, digits ++ [(n % 10).digitChar], by rw [heq]; rfl, ?_⟩
      intro hc
      -- A quotient written as a single zero would be zero, and the number a digit.
      have hquotient := valueOf_toDigits (n / 10)
      rw [heq, hc, hzero hc, show valueOf ['0'] = 0 by decide] at hquotient
      omega

namespace Numeral

theorem read?_digits {digits : List Char} (h : ∀ c ∈ digits, c.isDigit = true) (negative : Bool) :
    read? negative digits = some ⟨negative, digits, none, none⟩ := by
  unfold read?
  rw [List.dropWhile_eq_nil_iff.mpr h, List.takeWhile_eq_self_iff.mpr h]
  rfl

end Numeral

end Decimal

namespace Json

theorem numeral?_toDigits (n : Nat) :
    numeral? (Nat.toDigits 10 n) = some ⟨false, Nat.toDigits 10 n, none, none⟩ := by
  have hdigits : ∀ c ∈ Nat.toDigits 10 n, c.isDigit = true := by
    intro c
    exact Nat.isDigit_of_mem_toDigits (by decide) (by decide)
  obtain ⟨c, digits, heq, hzero⟩ := Decimal.toDigits_cons n
  rw [heq] at hdigits ⊢
  have hsign : c ≠ '-' := by
    rintro rfl
    exact absurd (hdigits '-' List.mem_cons_self) (by decide)
  unfold numeral?
  split
  . next rest hrest =>
    rw [List.cons.injEq] at hrest
    exact absurd hrest.left hsign
  . rw [Decimal.Numeral.read?_digits hdigits]
    simp only [Option.bind_eq_bind, Option.bind_some]
    split
    . next hnil => simp at hnil
    . next hwhole =>
      rw [List.cons.injEq] at hwhole
      simp [hzero hwhole.left] at hwhole
    . next hfraction _ _ => simp at hfraction
    . rfl

theorem nat?_ofNat {n limit : Nat} (h : n < limit) : nat? limit (ofNat n) = some n := by
  unfold nat? ofNat
  rw [Nat.toString_eq_ofList_toDigits]
  simp [numeral?_toDigits, Decimal.Numeral.isWhole, Decimal.valueOf_toDigits, h]

theorem isWordChar_of_isDigit {c : Char} (h : c.isDigit = true) : isWordChar c = true := by
  simp [isWordChar, Char.isAlphanum, h]

theorem forall_isWordChar_exponent {text : List Char} {e : Decimal.Exponent}
    (h : Decimal.Exponent.read? text = some e) : ∀ c ∈ text, isWordChar c = true := by
  have hgo {negative : Bool} {digits : List Char} {e : Decimal.Exponent}
      (h : Decimal.Exponent.read?.go negative digits = some e) :
      ∀ c ∈ digits, isWordChar c = true := by
    unfold Decimal.Exponent.read?.go at h
    split at h
    . next hdigits =>
      simp only [Bool.and_eq_true, List.all_eq_true] at hdigits
      intro c hc
      exact isWordChar_of_isDigit (hdigits.right c hc)
    . simp at h
  unfold Decimal.Exponent.read? at h
  split at h
  . exact List.forall_mem_cons.mpr ⟨by decide, hgo h⟩
  . exact List.forall_mem_cons.mpr ⟨by decide, hgo h⟩
  . exact hgo h

theorem forall_isWordChar_tail {text : List Char} {numeral n : Decimal.Numeral}
    (h : Decimal.Numeral.read?.tail numeral text = some n) : ∀ c ∈ text, isWordChar c = true := by
  unfold Decimal.Numeral.read?.tail at h
  split at h
  . simp
  . next c rest =>
    split at h
    . next hc =>
      obtain ⟨e, he, _⟩ := Option.map_eq_some_iff.mp h
      refine List.forall_mem_cons.mpr ⟨?_, forall_isWordChar_exponent he⟩
      cases hc with
      | inl hc =>
        subst hc
        decide
      | inr hc =>
        subst hc
        decide
    . simp at h

theorem forall_isWordChar_read? {negative : Bool} {text : List Char} {n : Decimal.Numeral}
    (h : Decimal.Numeral.read? negative text = some n) : ∀ c ∈ text, isWordChar c = true := by
  have hdigits (text : List Char) : ∀ c ∈ text.takeWhile Char.isDigit, isWordChar c = true := by
    intro c hc
    exact isWordChar_of_isDigit (List.mem_takeWhile_imp hc)
  have hsplit {text : List Char}
      (h : ∀ c ∈ text.dropWhile Char.isDigit, isWordChar c = true) :
      ∀ c ∈ text, isWordChar c = true := by
    rw [← List.takeWhile_append_dropWhile (p := Char.isDigit) (l := text), List.forall_mem_append]
    exact ⟨hdigits text, h⟩
  unfold Decimal.Numeral.read? at h
  dsimp only at h
  apply hsplit
  split at h
  . next rest hrest =>
    rw [hrest]
    exact List.forall_mem_cons.mpr ⟨by decide, hsplit (forall_isWordChar_tail h)⟩
  . exact forall_isWordChar_tail h

theorem forall_isWordChar_of_numeral? {word : List Char} {n : Decimal.Numeral}
    (h : numeral? word = some n) : word ≠ [] ∧ ∀ c ∈ word, isWordChar c = true := by
  constructor
  . rintro rfl
    have : numeral? [] = none := by decide
    rw [this] at h
    simp at h
  . unfold numeral? at h
    dsimp only at h
    split at h
    . obtain ⟨m, hm, _⟩ := Option.bind_eq_some_iff.mp h
      exact List.forall_mem_cons.mpr ⟨by decide, forall_isWordChar_read? hm⟩
    . obtain ⟨m, hm, _⟩ := Option.bind_eq_some_iff.mp h
      exact forall_isWordChar_read? hm

end Json

end CircuitPartition
