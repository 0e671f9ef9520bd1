import Mathlib.Algebra.Order.Field.Rat
import Mathlib.Tactic.FieldSimp
import Mathlib.Tactic.Ring
import ViewIndex.Proofs.Key.Decoding

/-!
# Numbers by their exact values

A finite number denotes a rational one, and is known by it up to the sign of zero, since a magnitude
determines its significand and its scale. An integer of 64 bits becomes a finite number; one of
fifty-three bits becomes the number that denotes it.
-/

namespace ViewIndex.Binary64

variable {x y : Binary64} {n shift : Nat} {i : Int}

/-! ## Magnitudes -/

theorem eq_of_fields (hsign : x.isNegative = y.isNegative)
    (hexponent : x.exponentField = y.exponentField) (hfraction : x.fraction = y.fraction) :
    x = y := by
  have hx := x.bits.toNat_lt
  have hy := y.bits.toNat_lt
  have hboth : 2 ^ 63 ≤ x.bits.toNat ↔ 2 ^ 63 ≤ y.bits.toNat := by
    rw [← KeyPart.isNegative_iff, ← KeyPart.isNegative_iff, hsign]
  simp only [exponentField, fraction, leadingBit] at hexponent hfraction
  have hbits : x.bits.toNat = y.bits.toNat := by omega
  cases x
  cases y
  exact congrArg mk (UInt64.toNat_inj.mp hbits)

theorem fraction_lt (x : Binary64) : x.fraction < 2 ^ 52 := Nat.mod_lt _ (by decide)

theorem significand_lt (x : Binary64) : x.significand < 2 ^ 53 := by
  have hfraction := x.fraction_lt
  unfold significand leadingBit
  split <;> omega

theorem le_significand_of_one_lt_scale (h : 1 < x.scale) : 2 ^ 52 ≤ x.significand := by
  unfold scale at h
  unfold significand leadingBit
  split <;> omega

/-- Of two ways to write a magnitude, the one of the smaller scale has the greater significand, and
that would take more than fifty-three bits. -/
theorem not_scale_lt (h : x.units = y.units) : ¬ x.scale < y.scale := by
  intro hlt
  obtain ⟨k, hk⟩ := Nat.exists_eq_add_of_lt hlt
  have hsig : x.significand = y.significand * 2 ^ (k + 1) := by
    simp only [units, Nat.shiftLeft_eq, hk, Nat.add_assoc, Nat.pow_add 2 x.scale] at h
    rw [Nat.mul_comm (2 ^ x.scale), ← Nat.mul_assoc] at h
    exact Nat.eq_of_mul_eq_mul_right (Nat.two_pow_pos _) h
  have hbig : 2 ^ 52 ≤ y.significand := by
    apply le_significand_of_one_lt_scale
    have : 1 ≤ x.scale := Nat.le_max_right _ _
    omega
  have hpow : 2 ≤ 2 ^ (k + 1) := by
    rw [Nat.pow_succ]
    exact Nat.le_mul_of_pos_left 2 (Nat.two_pow_pos k)
  have hlarge : 2 ^ 52 * 2 ≤ x.significand := by
    rw [hsig]
    exact Nat.mul_le_mul hbig hpow
  have hsmall := x.significand_lt
  omega

/-- A magnitude determines exponent and fraction. -/
theorem fields_of_units (h : x.units = y.units) :
    x.exponentField = y.exponentField ∧ x.fraction = y.fraction := by
  have hscale : x.scale = y.scale :=
    Nat.le_antisymm (Nat.le_of_not_lt (not_scale_lt h.symm)) (Nat.le_of_not_lt (not_scale_lt h))
  have hsig : x.significand = y.significand := by
    rw [units, units, hscale, Nat.shiftLeft_eq, Nat.shiftLeft_eq] at h
    exact Nat.eq_of_mul_eq_mul_right (Nat.two_pow_pos _) h
  have hx := x.fraction_lt
  have hy := y.fraction_lt
  unfold scale at hscale
  unfold significand leadingBit at hsig
  split at hsig <;> split at hsig <;> omega

/-- The magnitude of a whole number in units. The shift is a variable so that no power of it is
computed. -/
theorem units_of_wholeMagnitude? (hshift : shift = 1075) (h : x.wholeMagnitude? = some n) :
    x.units = n * 2 ^ shift := by
  unfold wholeMagnitude? at h
  rw [← hshift] at h
  rw [units, Nat.shiftLeft_eq]
  split at h
  next hle =>
    obtain rfl := Option.some.inj h
    rw [Nat.shiftLeft_eq, Nat.mul_assoc, ← Nat.pow_add, Nat.sub_add_cancel hle]
  next hlt =>
    dsimp only at h
    split at h
    next hwhole =>
      obtain rfl := Option.some.inj h
      rw [Nat.one_shiftLeft] at hwhole ⊢
      have hdiv := Nat.div_mul_cancel (Nat.dvd_of_mod_eq_zero hwhole)
      have hsum := Nat.sub_add_cancel (Nat.le_of_not_le hlt)
      conv => lhs; rw [← hdiv]
      rw [Nat.mul_assoc, ← Nat.pow_add, hsum]
    next => cases h

theorem units_eq_zero_iff : x.units = 0 ↔ x.isZero = true := by
  have hbits := x.bits.toNat_lt
  have hsig : x.units = 0 ↔ x.significand = 0 := by
    rw [units, Nat.shiftLeft_eq, Nat.mul_eq_zero]
    exact or_iff_left (Nat.two_pow_pos _).ne'
  have hcases : x.isZero = true ↔ x.bits.toNat = 0 ∨ x.bits.toNat = 2 ^ 63 := by
    rw [isZero, Bool.or_eq_true, beq_iff_eq, beq_iff_eq, ← UInt64.toNat_inj, ← UInt64.toNat_inj]
    rfl
  rw [hsig, hcases, significand, exponentField, fraction, leadingBit]
  split <;> omega

theorem exists_of_toInt? (h : x.toInt? = some i) :
    ∃ n, x.wholeMagnitude? = some n ∧ i = if x.isNegative then -(n : Int) else n := by
  unfold toInt? at h
  split at h
  next =>
    cases hn : x.wholeMagnitude? with
    | none => rw [hn] at h; cases h
    | some n => rw [hn] at h; cases h; exact ⟨n, rfl, rfl⟩
  next => cases h

/-! ## Values -/

/-- The value of a finite number. -/
def value (x : Binary64) : ℚ :=
  (if x.isNegative then -1 else 1) * x.significand * 2 ^ ((x.scale : ℤ) - 1075)

/-- The magnitude in units, with its sign. -/
def signedUnits (x : Binary64) : ℤ := if x.isNegative then -x.units else x.units

theorem value_eq (hshift : shift = 1075) : x.value = x.signedUnits / 2 ^ shift := by
  have hpower : (2 : ℚ) ^ ((x.scale : ℤ) - 1075) = 2 ^ x.scale / 2 ^ shift := by
    have hcast : (1075 : ℤ) = (shift : ℤ) := by omega
    rw [hcast, zpow_sub₀ two_ne_zero, zpow_natCast, zpow_natCast]
  have hunits : (x.units : ℚ) = x.significand * 2 ^ x.scale := by
    rw [units, Nat.shiftLeft_eq]
    push_cast
    rfl
  rw [value, hpower, signedUnits]
  split <;> push_cast <;> rw [hunits] <;> ring

/-- The value that a whole number is shown as. -/
theorem value_of_toInt? (h : x.toInt? = some i) : x.value = i := by
  obtain ⟨shift, hshift⟩ : ∃ shift, shift = 1075 := ⟨_, rfl⟩
  obtain ⟨n, hn, rfl⟩ := exists_of_toInt? h
  rw [value_eq hshift, signedUnits, units_of_wholeMagnitude? hshift hn]
  split <;> push_cast <;> field_simp

/-- A number is known by its value, up to the sign of zero. -/
theorem eq_of_value (h : x.value = y.value) (hsettledX : x.unsignedZero = x)
    (hsettledY : y.unsignedZero = y) : x = y := by
  obtain ⟨shift, hshift⟩ : ∃ shift, shift = 1075 := ⟨_, rfl⟩
  have hsigned : x.signedUnits = y.signedUnits := by
    rw [value_eq hshift, value_eq hshift, div_left_inj' (pow_ne_zero shift two_ne_zero)] at h
    exact_mod_cast h
  have hunits : x.units = y.units := by
    unfold signedUnits at hsigned
    split at hsigned <;> split at hsigned <;> omega
  by_cases hzero : x.units = 0
  · rw [← hsettledX, ← hsettledY, unsignedZero, unsignedZero,
      if_pos (units_eq_zero_iff.mp hzero), if_pos (units_eq_zero_iff.mp (hunits ▸ hzero))]
  · have hsign : x.isNegative = y.isNegative := by
      unfold signedUnits at hsigned
      cases hx : x.isNegative <;> cases hy : y.isNegative <;>
        simp only [hx, hy, if_true, Bool.false_eq_true, if_false] at hsigned ⊢ <;> omega
    obtain ⟨hexponent, hfraction⟩ := fields_of_units hunits
    exact eq_of_fields hsign hexponent hfraction

/-! ## Integers -/

/-- The carry of rounding takes a significand of fifty-three bits to the next power of two at
most. -/
theorem roundShift_le (h : n < 2 ^ (53 + shift)) : roundShift n shift ≤ 2 ^ 53 := by
  have hquotient : n / 1 <<< shift < 2 ^ 53 := by
    rw [Nat.shiftLeft_eq, Nat.one_mul]
    apply Nat.div_lt_of_lt_mul
    rwa [Nat.mul_comm, ← Nat.pow_add]
  unfold roundShift
  dsimp only
  split <;> omega

theorem shiftLeft_log2_lt (htop : n.log2 ≤ 52) : n <<< (52 - n.log2) < 2 ^ 53 := by
  rw [Nat.shiftLeft_eq]
  calc n * 2 ^ (52 - n.log2)
    _ < 2 ^ (n.log2 + 1) * 2 ^ (52 - n.log2) :=
        Nat.mul_lt_mul_of_pos_right Nat.lt_log2_self (Nat.two_pow_pos _)
    _ = 2 ^ 53 := by
        rw [← Nat.pow_add]
        congr 1
        omega

theorem natBits_lt_infinityBits (h : n < 2 ^ 64) : natBits n < infinityBits := by
  unfold natBits infinityBits leadingBit
  split
  next => decide
  next hne =>
    have htop : n.log2 < 64 := (Nat.log2_lt hne).mpr h
    dsimp only
    split
    next hsmall =>
      have hshifted := shiftLeft_log2_lt hsmall
      omega
    next hlarge =>
      have hrounded : roundShift n (n.log2 - 52) ≤ 2 ^ 53 := by
        apply roundShift_le
        have hshift : 53 + (n.log2 - 52) = n.log2 + 1 := by omega
        rw [hshift]
        exact Nat.lt_log2_self
      omega

/-- The sign leaves the other bits as they are. -/
theorem toNat_ofInt (h : i.natAbs < 2 ^ 64) :
    (ofInt i).bits.toNat = natBits i.natAbs + if i < 0 then 2 ^ 63 else 0 := by
  have hbits := natBits_lt_infinityBits h
  unfold infinityBits leadingBit at hbits
  have hword : (UInt64.ofNat (natBits i.natAbs)).toNat = natBits i.natAbs := by
    rw [UInt64.toNat_ofNat']
    exact Nat.mod_eq_of_lt (by omega)
  rw [ofInt]
  split
  next =>
    have hsign : signBit.toNat = 2 ^ 63 * 1 := rfl
    have hlow : natBits i.natAbs < 2 ^ 63 := by omega
    rw [UInt64.toNat_or, hword, hsign, Nat.or_comm, ← Nat.two_pow_add_eq_or_of_lt hlow]
    omega
  next => exact hword

theorem isNegative_ofInt (h : i.natAbs < 2 ^ 64) : (ofInt i).isNegative = decide (i < 0) := by
  have hbits := natBits_lt_infinityBits h
  unfold infinityBits leadingBit at hbits
  rw [Bool.eq_iff_iff, KeyPart.isNegative_iff, toNat_ofInt h, decide_eq_true_iff]
  split <;> omega

theorem isFinite_ofInt (h : i.natAbs < 2 ^ 64) : (ofInt i).isFinite = true := by
  have hbits := natBits_lt_infinityBits h
  rw [isFinite, exponentField, toNat_ofInt h, bne_iff_ne]
  unfold infinityBits leadingBit at *
  split <;> omega

theorem le_shiftLeft_log2 (hn : n ≠ 0) (htop : n.log2 ≤ 52) : 2 ^ 52 ≤ n <<< (52 - n.log2) := by
  rw [Nat.shiftLeft_eq]
  calc 2 ^ 52
    _ = 2 ^ n.log2 * 2 ^ (52 - n.log2) := by rw [← Nat.pow_add, Nat.add_sub_cancel' htop]
    _ ≤ n * 2 ^ (52 - n.log2) := Nat.mul_le_mul_right _ (Nat.log2_self_le hn)

/-- An integer of fifty-three bits needs no rounding: its digits are the significand, shifted until
the first of them is the leading one. -/
theorem significand_ofInt (hi : i ≠ 0) (h : i.natAbs < 2 ^ 53) :
    (ofInt i).significand = i.natAbs <<< (52 - i.natAbs.log2) ∧
      (ofInt i).scale = i.natAbs.log2 + 1023 := by
  have hne : i.natAbs ≠ 0 := Int.natAbs_ne_zero.mpr hi
  have htop : i.natAbs.log2 ≤ 52 := Nat.le_of_lt_succ ((Nat.log2_lt hne).mpr h)
  have hbits := toNat_ofInt (Nat.lt_trans h (by decide))
  rw [natBits, if_neg hne, leadingBit] at hbits
  simp only [if_pos htop] at hbits
  have hlow := le_shiftLeft_log2 hne htop
  have hhigh := shiftLeft_log2_lt htop
  have hexponent : (ofInt i).exponentField = i.natAbs.log2 + 1023 := by
    rw [exponentField, hbits, leadingBit]
    split <;> omega
  have hfraction : (ofInt i).fraction + 2 ^ 52 = i.natAbs <<< (52 - i.natAbs.log2) := by
    rw [fraction, hbits, leadingBit]
    split <;> omega
  refine ⟨?_, by rw [scale, hexponent]; omega⟩
  rw [significand, hexponent, if_neg (Nat.succ_ne_zero _)]
  exact hfraction

theorem units_ofInt (hshift : shift = 1075) (h : i.natAbs < 2 ^ 53) :
    (ofInt i).units = i.natAbs * 2 ^ shift := by
  by_cases hi : i = 0
  · rw [hi, Int.natAbs_zero, Nat.zero_mul, units_eq_zero_iff]
    rfl
  · obtain ⟨hsignificand, hscale⟩ := significand_ofInt hi h
    have htop : i.natAbs.log2 ≤ 52 :=
      Nat.le_of_lt_succ ((Nat.log2_lt (Int.natAbs_ne_zero.mpr hi)).mpr h)
    rw [units, hsignificand, hscale, Nat.shiftLeft_eq, Nat.shiftLeft_eq, Nat.mul_assoc,
      ← Nat.pow_add]
    congr 2
    omega

theorem value_ofInt (h : i.natAbs < 2 ^ 53) : (ofInt i).value = i := by
  obtain ⟨shift, hshift⟩ : ∃ shift, shift = 1075 := ⟨_, rfl⟩
  have hsigned : (ofInt i).signedUnits = i * 2 ^ shift := by
    rw [signedUnits, isNegative_ofInt (Nat.lt_trans h (by decide)), units_ofInt hshift h]
    push_cast
    split
    next hneg => rw [abs_of_neg (of_decide_eq_true hneg)]; ring
    next hneg => rw [abs_of_nonneg (by simpa using hneg)]
  rw [value_eq hshift, hsigned]
  push_cast
  field_simp

/-- No integer becomes a negative zero. -/
theorem unsignedZero_ofInt (h : i.natAbs < 2 ^ 53) : (ofInt i).unsignedZero = ofInt i := by
  by_cases hi : i = 0
  · rw [hi]
    rfl
  · obtain ⟨shift, hshift⟩ : ∃ shift, shift = 1075 := ⟨_, rfl⟩
    have hzero : (ofInt i).isZero ≠ true := by
      rw [ne_eq, ← units_eq_zero_iff, units_ofInt hshift h, Nat.mul_eq_zero]
      exact not_or_intro (Int.natAbs_ne_zero.mpr hi) (Nat.two_pow_pos _).ne'
    rw [unsignedZero, if_neg hzero]

/-- The number that a whole number of fifty-three bits becomes when it is read as an integer. -/
theorem ofInt_of_toInt? (h : x.toInt? = some i) (hbound : i.natAbs < 2 ^ 53)
    (hsettled : x.unsignedZero = x) : ofInt i = x :=
  eq_of_value ((value_ofInt hbound).trans (value_of_toInt? h).symm) (unsignedZero_ofInt hbound)
    hsettled

end ViewIndex.Binary64
