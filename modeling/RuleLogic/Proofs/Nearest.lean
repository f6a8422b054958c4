import RuleLogic.Proofs.RoundingOrder

/-!
# Rounding to the nearest

The count that a quotient is rounded to is as near to it as the count of any other double: other
multiples of the spacing are not nearer, and a double that is none lies below the leading bit of the
quotient, which is one.  Where two are equally near, the rounded one is an even multiple of what
they are apart.  So an integer is rounded to a nearest double, to the even one of two, and as whole
counts stay whole, to an integer again.

    |roundMagnitude num den - num / den| ≤ |count - num / den|            (roundMagnitude_nearest)
    |(ofInt n).value - n| ≤ |y.value - n|                                          (ofInt_nearest)
    |y.value - n| = |(ofInt n).value - n| → y.value ≠ (ofInt n).value →
        ∃ k, (ofInt n).value = 2 * k * ((ofInt n).value - y.value)                     (ofInt_tie)
    2 ^ t ∣ num → 2 ^ t ∣ roundMagnitude num 1                         (two_pow_dvd_roundMagnitude)
-/

namespace RuleLogic.Double

/-! ## Counts -/

/-- No multiple of the denominator is nearer than the one that the quotient is rounded to. -/
theorem roundDiv_nearest (num : Nat) {den : Nat} (hden : 0 < den) (k : Nat) :
    ((roundDiv num den * den : Nat) - num : Int).natAbs ≤ ((k * den : Nat) - num : Int).natAbs := by
  have hnum := Nat.div_add_mod' num den
  have hr := Nat.mod_lt num hden
  have hsucc := Nat.add_one_mul (num / den) den
  rcases Nat.lt_or_ge (num / den) k with hk | hk
  · have hmul : (num / den + 1) * den ≤ k * den := Nat.mul_le_mul_right den hk
    rcases roundDiv_cases num den with ⟨hd, h2⟩ | ⟨hd, h2⟩ <;>
    · rw [hd]
      omega
  · have hmul : k * den ≤ num / den * den := Nat.mul_le_mul_right den hk
    rcases roundDiv_cases num den with ⟨hd, h2⟩ | ⟨hd, h2⟩ <;>
    · rw [hd]
      omega

/-- Where another multiple of the denominator is as near, it is the next one and the rounded
quotient is even. -/
theorem roundDiv_tie {num den k : Nat} (hden : 0 < den)
    (h : ((k * den : Nat) - num : Int).natAbs = ((roundDiv num den * den : Nat) - num : Int).natAbs)
    (hne : k ≠ roundDiv num den) :
    roundDiv num den % 2 = 0 ∧ (k = roundDiv num den + 1 ∨ roundDiv num den = k + 1) := by
  have hnum := Nat.div_add_mod' num den
  have hr := Nat.mod_lt num hden
  have hsucc := Nat.add_one_mul (num / den) den
  have hround := roundDiv_cases num den
  -- neither side of the two neighbours of the quotient is near enough
  have hneighbour : k = num / den ∨ k = num / den + 1 := by
    rcases Nat.lt_trichotomy k (num / den) with hk | hk | hk
    · have hmul : (k + 1) * den ≤ num / den * den := Nat.mul_le_mul_right den hk
      rw [Nat.add_one_mul] at hmul
      rcases hround with ⟨hd, h2⟩ | ⟨hd, h2⟩ <;>
      · rw [hd] at h
        omega
    · exact .inl hk
    · rcases Nat.eq_or_lt_of_le hk with hk | hk
      · exact .inr hk.symm
      · have hmul : (num / den + 1 + 1) * den ≤ k * den := Nat.mul_le_mul_right den hk
        rw [Nat.add_one_mul] at hmul
        rcases hround with ⟨hd, h2⟩ | ⟨hd, h2⟩ <;>
        · rw [hd] at h
          omega
  -- so the remainder is half the denominator
  have hhalf : 2 * (num % den) = den := by
    rcases hneighbour with rfl | rfl <;> rcases hround with ⟨hd, h2⟩ | ⟨hd, h2⟩ <;>
    · rw [hd] at h hne
      omega
  have heven : roundDiv num den = num / den + num / den % 2 := by
    simp only [roundDiv, hhalf, Nat.lt_irrefl, if_false]
  omega

/-- The count of a double is a multiple of the spacing around a quotient, or lies below the leading
bit of that. -/
theorem spacing_dvd_or_lt (q : Nat) {count : Nat} (hc : spacing count ∣ count) :
    spacing q ∣ count ∨ q ≠ 0 ∧ count < 2 ^ q.log2 := by
  by_cases hq : q = 0
  · rw [hq]
    exact .inl (one_dvd count)
  rcases Nat.lt_or_ge count (2 ^ q.log2) with hlt | hge
  · exact .inr ⟨hq, hlt⟩
  · have hne : count ≠ 0 := Nat.ne_of_gt (Nat.lt_of_lt_of_le (Nat.two_pow_pos _) hge)
    have hlog : q.log2 ≤ count.log2 := (Nat.le_log2 hne).2 hge
    exact .inl (Nat.dvd_trans (Nat.pow_dvd_pow 2 (by omega)) hc)

/-- The leading bit of a quotient is a multiple of its spacing. -/
theorem exists_mul_spacing_eq (q : Nat) : ∃ k, k * spacing q = 2 ^ q.log2 := by
  refine ⟨2 ^ (q.log2 - (q.log2 - 52)), ?_⟩
  rw [spacing, Nat.pow_eq, ← Nat.pow_add]
  congr 1
  omega

/-- No count of a double is nearer to a quotient than the one that it is rounded to. -/
theorem roundMagnitude_nearest (num : Nat) {den count : Nat} (hden : 0 < den)
    (hc : spacing count ∣ count) : ((roundMagnitude num den * den : Nat) - num : Int).natAbs ≤
      ((count * den : Nat) - num : Int).natAbs := by
  have hs : 0 < den * spacing (num / den) := Nat.mul_pos hden (Nat.two_pow_pos _)
  have hmul (k : Nat) : k * spacing (num / den) * den = k * (den * spacing (num / den)) := by
    rw [Nat.mul_assoc, Nat.mul_comm den]
  rw [roundMagnitude, hmul]
  rcases spacing_dvd_or_lt (num / den) hc with ⟨k, rfl⟩ | ⟨hq, hlt⟩
  · rw [Nat.mul_comm (spacing _) k, hmul]
    exact roundDiv_nearest num hs k
  · -- the leading bit of the quotient lies between the count and the quotient
    obtain ⟨k, hk⟩ := exists_mul_spacing_eq (num / den)
    have hnear := roundDiv_nearest num hs k
    rw [← hmul k, hk] at hnear
    have hbelow : count * den ≤ 2 ^ (num / den).log2 * den :=
      Nat.mul_le_mul_right den (Nat.le_of_lt hlt)
    have hleading : 2 ^ (num / den).log2 * den ≤ num :=
      (Nat.le_div_iff_mul_le hden).1 (Nat.log2_self_le hq)
    omega

/-- Another count of a double that is as near to a quotient as the rounded one is one step away from
it, and the rounded one is an even number of steps. -/
theorem roundMagnitude_tie {num den count : Nat} (hden : 0 < den) (hc : spacing count ∣ count)
    (h : ((count * den : Nat) - num : Int).natAbs =
      ((roundMagnitude num den * den : Nat) - num : Int).natAbs)
    (hne : count ≠ roundMagnitude num den) :
    ∃ j s, roundMagnitude num den = 2 * j * s ∧
      (count = roundMagnitude num den + s ∨ roundMagnitude num den = count + s) := by
  have hs : 0 < den * spacing (num / den) := Nat.mul_pos hden (Nat.two_pow_pos _)
  have hmul (k : Nat) : k * spacing (num / den) * den = k * (den * spacing (num / den)) := by
    rw [Nat.mul_assoc, Nat.mul_comm den]
  rw [roundMagnitude] at h hne ⊢
  rw [hmul] at h
  rcases spacing_dvd_or_lt (num / den) hc with ⟨k, rfl⟩ | ⟨hq, hlt⟩
  · rw [Nat.mul_comm (spacing _) k, hmul] at h
    have hk : k ≠ roundDiv num (den * spacing (num / den)) := by
      rintro rfl
      exact hne (Nat.mul_comm _ _)
    obtain ⟨heven, hnext⟩ := roundDiv_tie hs h hk
    refine ⟨_, spacing (num / den), by rw [Nat.mul_div_cancel' (Nat.dvd_of_mod_eq_zero heven)], ?_⟩
    rw [Nat.mul_comm (spacing _) k, ← Nat.add_one_mul, ← Nat.add_one_mul]
    exact hnext.imp (congrArg (· * _)) (congrArg (· * _))
  · -- the leading bit of the quotient is nearer
    obtain ⟨k, hk⟩ := exists_mul_spacing_eq (num / den)
    have hnear := roundDiv_nearest num hs k
    rw [← hmul k, hk] at hnear
    have hbelow : count * den < 2 ^ (num / den).log2 * den := Nat.mul_lt_mul_of_pos_right hlt hden
    have hleading : 2 ^ (num / den).log2 * den ≤ num :=
      (Nat.le_div_iff_mul_le hden).1 (Nat.log2_self_le hq)
    omega

/-- Rounding keeps whole numbers of a unit whole. -/
theorem two_pow_dvd_roundMagnitude {num t : Nat} (h : 2 ^ t ∣ num) :
    2 ^ t ∣ roundMagnitude num 1 := by
  rcases Nat.le_total t (num.log2 - 52) with ht | ht
  · have hs : spacing (num / 1) ∣ roundMagnitude num 1 := Nat.dvd_mul_left _ _
    rw [Nat.div_one] at hs
    exact Nat.dvd_trans (Nat.pow_dvd_pow 2 ht) hs
  · have hs : spacing num ∣ num := Nat.dvd_trans (Nat.pow_dvd_pow 2 ht) h
    have hr := roundMagnitude_mul Nat.one_pos hs
    rw [Nat.mul_one] at hr
    rwa [hr]

/-! ## Doubles -/

theorem roundedSize_nearest (size : Nat) (y : Double) :
    ((roundedSize size : Int) - size).natAbs ≤ ((y.magnitude : Int) - size).natAbs := by
  have hy := magnitude_le_largest y
  unfold roundedSize
  split
  · have hnear := roundMagnitude_nearest size Nat.one_pos y.spacing_dvd
    rwa [Nat.mul_one, Nat.mul_one] at hnear
  · next hlimit =>
    -- a size that is rounded beyond the doubles is beyond the largest of them
    have hlarge : largest.magnitude ≤ size := by
      by_contra hsmall
      have hmono := roundMagnitude_mono Nat.one_pos (Nat.le_of_not_le hsmall)
      rw [roundMagnitude_magnitude] at hmono
      exact hlimit (Nat.lt_of_le_of_lt hmono largest.magnitude_lt)
    omega

theorem ofCount_nearest (count : Int) (y : Double) :
    ((ofCount count).units - count).natAbs ≤ (y.units - count).natAbs := by
  have hnear := roundedSize_nearest count.natAbs y
  have hy := y.natAbs_units
  rw [units_ofCount]
  split <;> omega

theorem roundedSize_tie {size : Nat} {y : Double}
    (h : ((y.magnitude : Int) - size).natAbs = ((roundedSize size : Int) - size).natAbs)
    (hne : y.magnitude ≠ roundedSize size) :
    ∃ j s, roundedSize size = 2 * j * s ∧
      (y.magnitude = roundedSize size + s ∨ roundedSize size = y.magnitude + s) := by
  have hy := magnitude_le_largest y
  have hnear := roundedSize_nearest size largest
  by_cases hlimit : roundMagnitude size 1 < limit
  · have hround : roundedSize size = roundMagnitude size 1 := if_pos hlimit
    rw [hround] at h hne ⊢
    refine roundMagnitude_tie Nat.one_pos y.spacing_dvd ?_ hne
    rwa [Nat.mul_one, Nat.mul_one]
  · -- beyond the doubles there is but one nearest
    have hround : roundedSize size = largest.magnitude := if_neg hlimit
    have hlarge : largest.magnitude ≤ size := by
      by_contra hsmall
      have hmono := roundMagnitude_mono Nat.one_pos (Nat.le_of_not_le hsmall)
      rw [roundMagnitude_magnitude] at hmono
      exact hlimit (Nat.lt_of_le_of_lt hmono largest.magnitude_lt)
    omega

/-- Of two doubles that are equally near to a count the even one is taken: it is an even number of
steps from zero, where the step is from it to the other. -/
theorem ofCount_tie {count : Int} {y : Double}
    (h : (y.units - count).natAbs = ((ofCount count).units - count).natAbs)
    (hne : y.units ≠ (ofCount count).units) :
    ∃ k : Int, (ofCount count).units = 2 * k * ((ofCount count).units - y.units) := by
  have hy := y.natAbs_units
  have hzero : ((roundedSize count.natAbs : Int) - count.natAbs).natAbs ≤
      ((0 : Int) - count.natAbs).natAbs := roundedSize_nearest count.natAbs (.zero false)
  rw [units_ofCount] at h hne ⊢
  generalize hround : roundedSize count.natAbs = size at h hne hzero ⊢
  -- the other double has the sign of the count
  have hsign : y.units = if count < 0 then -(y.magnitude : Int) else y.magnitude := by
    split at h <;> split <;> omega
  obtain ⟨j, s, heven, hnext⟩ : ∃ j s, size = 2 * j * s ∧
      (y.magnitude = size + s ∨ size = y.magnitude + s) := by
    rw [← hround]
    refine roundedSize_tie ?_ ?_
    · rw [hround]
      split at h <;> split at hsign <;> omega
    · rw [hround]
      rintro heq
      rw [heq] at hsign
      exact hne hsign
  have hint : (size : Int) = 2 * j * s := by
    rw [heven]
    push_cast
    rfl
  have hstep (d : Int) (hd : d = s ∨ d = -s) : ∃ k : Int, (size : Int) = 2 * k * d := by
    rcases hd with rfl | rfl
    · exact ⟨j, hint⟩
    · exact ⟨-j, by rw [hint]; ring⟩
  rw [hsign]
  split
  · obtain ⟨k, hk⟩ := hstep (y.magnitude - size) (by omega)
    exact ⟨-k, (congrArg Neg.neg hk).trans (by ring)⟩
  · exact hstep _ (by omega)

theorem abs_value_sub (x : Double) (n : Int) :
    |x.value - n| = ((x.units - n * unitsPerOne).natAbs : ℚ) / unitsPerOne := by
  have hu : (0 : ℚ) < unitsPerOne := Nat.cast_pos.2 unitsPerOne_pos
  rw [value, div_sub' hu.ne', abs_div, abs_of_pos hu, Nat.cast_natAbs]
  push_cast
  rw [mul_comm]

/-- No double is nearer to an integer than the one that stands for it. -/
theorem ofInt_nearest (n : Int) (y : Double) : |(ofInt n).value - n| ≤ |y.value - n| := by
  rw [abs_value_sub, abs_value_sub, ofInt_eq_ofCount]
  refine div_le_div_of_nonneg_right ?_ (Nat.cast_nonneg _)
  exact_mod_cast ofCount_nearest (n * unitsPerOne) y

/-- Of two doubles that are equally near to an integer the even one stands for it. -/
theorem ofInt_tie {n : Int} {y : Double} (h : |y.value - n| = |(ofInt n).value - n|)
    (hne : y.value ≠ (ofInt n).value) :
    ∃ k : Int, (ofInt n).value = 2 * k * ((ofInt n).value - y.value) := by
  have hu : (unitsPerOne : ℚ) ≠ 0 := Nat.cast_ne_zero.2 (Nat.ne_of_gt unitsPerOne_pos)
  rw [abs_value_sub, abs_value_sub, ofInt_eq_ofCount, div_left_inj' hu, Nat.cast_inj] at h
  rw [Ne, value_eq_iff, ofInt_eq_ofCount] at hne
  obtain ⟨k, hk⟩ := ofCount_tie h hne
  refine ⟨k, ?_⟩
  rw [ofInt_eq_ofCount, value, value, ← sub_div, ← mul_div_assoc, div_left_inj' hu]
  exact_mod_cast hk

/-- The double that stands for an integer is an integer. -/
theorem exists_value_ofInt_eq (n : Int) : ∃ m : Int, (ofInt n).value = m := by
  have hsize : unitsPerOne ∣ roundedSize (n * unitsPerOne).natAbs := by
    have hnum : unitsPerOne ∣ (n * unitsPerOne).natAbs := by
      rw [Int.natAbs_mul, Int.natAbs_natCast]
      exact Nat.dvd_mul_left _ _
    unfold roundedSize
    split
    · rw [unitsPerOne_eq] at hnum ⊢
      exact two_pow_dvd_roundMagnitude hnum
    · decide +kernel
  have hunits : (ofInt n).units.natAbs = roundedSize (n * unitsPerOne).natAbs := by
    rw [ofInt_eq_ofCount, units_ofCount]
    split <;> omega
  rw [← hunits] at hsize
  obtain ⟨m, hm⟩ := Int.natCast_dvd.2 hsize
  refine ⟨m, value_eq_intCast_iff.2 ?_⟩
  rw [hm, Int.mul_comm]

/-- Rounding does not bring an integer across one of at most 53 bits. -/
theorem value_ofInt_side {n m k : Int} (hm : (ofInt n).value = m) (hk : k.natAbs ≤ 2 ^ 53) :
    (k ≤ n → k ≤ m) ∧ (n ≤ k → m ≤ k) := by
  have hunits : (ofInt n).units = m * unitsPerOne := value_eq_intCast_iff.1 hm
  constructor
  · intro h
    have hle := le_iff.1 (ofInt_mono h)
    rw [units_ofInt hk, hunits] at hle
    exact Int.le_of_mul_le_mul_right hle intCast_unitsPerOne_pos
  · intro h
    have hle := le_iff.1 (ofInt_mono h)
    rw [units_ofInt hk, hunits] at hle
    exact Int.le_of_mul_le_mul_right hle intCast_unitsPerOne_pos

end RuleLogic.Double
