import CircuitPartition.Proofs.Random.Ensures
import CircuitPartition.Proofs.Rounding

/-!
What may be relied on in a source of random numbers. Whatever the random words are, that which makes
everything out of words keeps to it.
-/

namespace CircuitPartition.Random

open Float.Model (Format UnpackedFloat)
open Float.Model.UnpackedFloat

variable {σ : Type}

def Distinct (length count : Nat) (ns : List Nat) : Prop :=
  ns.Nodup ∧ ns.length = count ∧ ∀ n ∈ ns, n < length

structure Sampler.Sound (sampler : Sampler σ) : Prop where
  below32 : ∀ range, 0 < range → Ensures (sampler.below32 range) (· < range)
  below64 : ∀ range, 0 < range → Ensures (sampler.below64 range) (· < range)
  between? : ∀ low high, isDrawable low high = true →
    Ensures (sampler.between? low high) fun x => ∃ y, x = some y ∧ low ≤ y ∧ y < high
  choose_nil : Ensures (sampler.choose []) (· = none)
  choose : ∀ items, items ≠ [] →
    Ensures (sampler.choose items) fun item => ∃ n ∈ items, item = some n
  positions : ∀ length count, count ≤ length →
    Ensures (sampler.positions length count) (Distinct length count)

/-! ### Numbers -/

theorem ensures_below {width range : Nat} {draw : Draw Nat} (hrange : 0 < range)
    (hdraw : Ensures draw (· < Word.count width)) :
    Ensures (below width draw range) (· < range) := by
  have hattempt : ∀ n, Ensures (below.attempt width draw range n) (· < range) := by
    intro n
    induction n with
    | zero => exact ensures_pure hrange
    | succ n ih =>
      apply ensures_bind hdraw
      intro word hword
      split
      . next k hk => exact ensures_pure (scaleWord?_lt hword hk hrange)
      . exact ih
  unfold below
  split
  . exact hattempt _
  . next hwide =>
    apply Ensures.mono hdraw
    intro word hword
    omega

theorem ensures_below32 {range : Nat} (hrange : 0 < range) :
    Ensures (below32 range) (· < range) := by
  apply ensures_below hrange
  exact ⟨fun _ => UInt32.toNat_lt _⟩

theorem ensures_below64 {range : Nat} (hrange : 0 < range) :
    Ensures (below64 range) (· < range) := by
  apply ensures_below hrange
  exact ⟨fun _ => UInt64.toNat_lt _⟩

/-! ### Doubles -/

theorem one_le_of_fraction (w : UInt64) :
    (⟨w >>> 12 ||| 0x3ff0000000000000⟩ : Double).isFinite = true ∧
      (1 : Double) ≤ ⟨w >>> 12 ||| 0x3ff0000000000000⟩ := by
  generalize hx : (⟨w >>> 12 ||| 0x3ff0000000000000⟩ : Double) = x
  have hbits : x.bits.toBitVec = w.toBitVec >>> 12 ||| 0x3ff0000000000000#64 := by
    rw [← hx]
    rfl
  have hexponent : @unpackExponent .binary64 x.bits.toBitVec = 1023#11 := by
    rw [hbits]
    unfold unpackExponent
    ext i hi
    interval_cases i <;> simp
    exact BitVec.getLsbD_of_ge _ _ (by decide)
  have hsign : @unpackSign .binary64 x.bits.toBitVec = 0#1 := by
    rw [hbits]
    unfold unpackSign
    ext i hi
    interval_cases i
    simp
    exact BitVec.getLsbD_of_ge _ _ (by decide)
  have hfinite : x.isFinite = true := by
    rw [Double.isFinite_eq, hexponent]
    decide
  have hfull : 2 ^ 52 ≤ (1#1 ++ @unpackMantissa .binary64 x.bits.toBitVec).toNat := by
    rw [Double.toNat_leadingOne]
    exact Nat.le_add_right _ _
  have hnumber : x.number
      = .finite .positive (1#1 ++ @unpackMantissa .binary64 x.bits.toBitVec).toNat (-52)
        (Nat.lt_of_lt_of_le (by decide) hfull) := by
    rw [Double.number_eq_unpack hfinite]
    unfold unpack
    dsimp only
    rw [hexponent, hsign, if_neg (by decide), if_neg (by decide)]
    rfl
  have hone : Double.number 1 = .finite .positive (2 ^ 52) (-52) (by decide) := rfl
  refine ⟨hfinite, ?_⟩
  rw [Double.le_iff_of_isFinite (by decide) hfinite, hone, hnumber]
  exact Int.ofNat_le.mpr (Double.magnitude_mono hfull _)

theorem ensures_fraction : Ensures fraction fun x => x.isFinite = true ∧ 0 ≤ x := by
  constructor
  intro source
  obtain ⟨hfinite, hone⟩ := one_le_of_fraction (doubleWord.run source).1
  constructor
  . exact Double.isFinite_sub_of_le hfinite (by decide) (by decide) hone
  . exact Double.sub_nonneg_of_le hfinite (by decide) hone

theorem isDrawable_iff {low high : Double} :
    isDrawable low high = true
      ↔
    low < high ∧ low.isFinite = true ∧ high.isFinite = true ∧ (high - low).isFinite = true := by
  unfold isDrawable
  simp only [Bool.and_eq_true, decide_eq_true_eq, and_assoc]

theorem ensures_between? {low high : Double} (h : isDrawable low high = true) :
    Ensures (between? low high) fun x => ∃ y, x = some y ∧ low ≤ y ∧ y < high := by
  obtain ⟨hlt, hlow, hhigh, hwidth⟩ := isDrawable_iff.mp h
  have hle : low ≤ low := (Double.le_iff_of_isFinite hlow hlow).mpr (le_refl _)
  have hle' : low ≤ high := by
    rw [Double.lt_iff_of_isFinite hlow hhigh] at hlt
    exact (Double.le_iff_of_isFinite hlow hhigh).mpr hlt.le
  have hattempt : ∀ n, Ensures (between?.attempt low high n) fun x => low ≤ x ∧ x < high := by
    intro n
    induction n with
    | zero => exact ensures_pure ⟨hle, hlt⟩
    | succ n ih =>
      apply ensures_bind ensures_fraction
      rintro x ⟨hfinite, hnonneg⟩
      dsimp only
      split
      . next hless =>
        apply ensures_pure
        refine ⟨Double.le_add_of_nonneg ?_ hlow, hless⟩
        apply Double.mul_nonneg_of_isFinite hfinite hwidth hnonneg
        exact Double.sub_nonneg_of_le hhigh hlow hle'
      . exact ih
  unfold between?
  rw [if_pos h, map_eq_pure_bind]
  apply ensures_bind (hattempt _)
  intro x hx
  exact ensures_pure ⟨x, rfl, hx⟩

/-! ### Items and positions -/

theorem ensures_choose {β : Type} {items : List β} (h : items ≠ []) :
    Ensures (choose items) fun item => ∃ x ∈ items, item = some x := by
  unfold choose
  rw [if_neg (by simpa using h)]
  apply ensures_bind (ensures_below32 (List.length_pos_iff.mpr h))
  intro i hi
  apply ensures_pure
  exact ⟨items[i], List.getElem_mem hi, List.getElem?_eq_getElem hi⟩

theorem exchange_perm (items : Array Nat) (i j : Nat) :
    (exchange items i j).toList.Perm items.toList := by
  unfold exchange
  rw [Array.swapIfInBounds_def]
  split
  . split
    . exact (Array.swap_perm _ _).toList
    . exact List.Perm.refl _
  . exact List.Perm.refl _

theorem Distinct.perm {length count : Nat} {ns ms : List Nat} (h : Distinct length count ns)
    (hperm : ms.Perm ns) : Distinct length count ms := by
  obtain ⟨hnodup, hcount, hlt⟩ := h
  refine ⟨hperm.nodup_iff.mpr hnodup, by rw [hperm.length_eq, hcount], ?_⟩
  intro n hn
  exact hlt n (hperm.mem_iff.mp hn)

theorem ensures_shuffleFront {length count : Nat} (h : count ≤ length) :
    Ensures (shuffleFront length count) (Distinct length count) := by
  refine ensures_bind
    (Ensures.foldlM (fun _ positions => positions.toList.Perm (List.range length)) ?_ ?_) ?_
  . rw [Array.toList_range]
  . intro k i positions hget hperm
    have hk : k < count := by simpa using (List.getElem?_eq_some_iff.mp hget).1
    have hi : k = i := by simpa [hk] using hget
    apply ensures_bind (ensures_below32 (by omega))
    intro j _
    exact ensures_pure ((exchange_perm positions i _).trans hperm)
  . intro positions hperm
    apply ensures_pure
    refine ⟨?_, ?_, ?_⟩
    . exact (hperm.nodup_iff.mpr List.nodup_range).sublist (List.take_sublist _ _)
    . rw [List.length_take, hperm.length_eq, List.length_range]
      omega
    . intro n hn
      exact List.mem_range.mp (hperm.mem_iff.mp (List.mem_of_mem_take hn))

theorem insertBefore_perm {t : Nat} (n : Nat) {ms : List Nat} (h : t ∈ ms) :
    (insertBefore t n ms).Perm (n :: ms) := by
  induction ms with
  | nil => exact absurd h List.not_mem_nil
  | cons m ms ih =>
    unfold insertBefore
    split
    . exact List.Perm.refl _
    . next hne =>
      have hmem := (List.mem_cons.mp h).resolve_left (Ne.symm hne)
      exact ((ih hmem).cons m).trans (List.Perm.swap n m ms)

theorem Distinct.cons {length count n : Nat} {ns : List Nat} (h : Distinct length count ns)
    (hn : n ∉ ns) (hlt : n < length + 1) : Distinct (length + 1) (count + 1) (n :: ns) := by
  obtain ⟨hnodup, hcount, hall⟩ := h
  refine ⟨List.nodup_cons.mpr ⟨hn, hnodup⟩, by rw [List.length_cons, hcount], ?_⟩
  rw [List.forall_mem_cons]
  refine ⟨hlt, ?_⟩
  intro m hm
  exact Nat.lt_succ_of_lt (hall m hm)

theorem ensures_selectFloyd_step {ordered : Bool} {first k : Nat} {chosen : List Nat}
    (h : Distinct (first + k) k chosen) :
    Ensures (selectFloyd.step ordered first chosen k) (Distinct (first + k + 1) (k + 1)) := by
  -- The position that becomes eligible has not been chosen, and replaces any that has.
  have hnew : first + k ∉ chosen := fun hmem => lt_irrefl _ (h.right.right _ hmem)
  refine ensures_bind (ensures_below32 (Nat.succ_pos _)) ?_
  intro t ht
  split
  . next hmem =>
    rw [List.contains_iff_mem] at hmem
    apply ensures_pure
    apply (h.cons hnew (Nat.lt_succ_self _)).perm
    split
    . exact insertBefore_perm _ hmem
    . exact List.perm_append_singleton _ _
  . next hmem =>
    rw [List.contains_iff_mem] at hmem
    apply ensures_pure
    exact (h.cons hmem ht).perm (List.perm_append_singleton _ _)

theorem ensures_selectFloyd {length count : Nat} (h : count ≤ length) :
    Ensures (selectFloyd length count) (Distinct length count) := by
  have hlength : length - count + count = length := Nat.sub_add_cancel h
  refine ensures_bind
    (Ensures.foldlM (fun k chosen => Distinct (length - count + k) k chosen) ?_ ?_) ?_
  . exact ⟨List.nodup_nil, rfl, List.forall_mem_nil _⟩
  . intro k i chosen hget hchosen
    have hk : k < count := by simpa using (List.getElem?_eq_some_iff.mp hget).1
    have hi : k = i := by simpa [hk] using hget
    subst hi
    exact ensures_selectFloyd_step hchosen
  . intro chosen hchosen
    rw [List.length_range, hlength] at hchosen
    dsimp only
    split
    . exact ensures_pure hchosen
    . refine ensures_bind
        (Ensures.foldlM (fun _ positions => positions.toList.Perm chosen) (List.Perm.refl _) ?_) ?_
      . intro k i positions hget hperm
        have hk : k < count - 1 := by simpa using (List.getElem?_eq_some_iff.mp hget).1
        apply ensures_bind (ensures_below32 (Nat.succ_pos _))
        intro j _
        exact ensures_pure ((exchange_perm positions _ j).trans hperm)
      . intro positions hperm
        exact ensures_pure (hchosen.perm hperm)

theorem ensures_positions {length count : Nat} (h : count ≤ length) :
    Ensures (positions length count) (Distinct length count) := by
  unfold positions
  rw [min_eq_left h]
  dsimp only
  split
  . exact ensures_shuffleFront h
  . exact ensures_selectFloyd h

theorem Sampler.sound_words : Sampler.words.Sound where
  below32 _ := ensures_below32
  below64 _ := ensures_below64
  between? _ _ := ensures_between?
  choose_nil := ensures_pure rfl
  choose _ := ensures_choose
  positions _ _ := ensures_positions

end CircuitPartition.Random
