import ViewIndex.Proofs.Float.Signs

/-!
# Magnitudes of sums

The sum of two numbers is at most twice the larger one, and so is what it is rounded to, because
that is the nearest number and a power of two is one. So sums stay finite as long as the numbers are
neither too large nor too many.
-/

namespace ViewIndex

namespace Floats

open Float.Model.UnpackedFloat
open Float.Model (Format UnpackedFloat totalExponent)

/-! ## Rounding -/

/-- A mantissa with the digits shifted out of it is at most this number. -/
def AtMost (n : Nat) (em : ExtendedMantissa) : Prop :=
  em.mantissa < n ∨ em.mantissa = n ∧ em.roundBit = false ∧ em.stickyBit = false

theorem atMost_shiftRightOne {n : Nat} {em : ExtendedMantissa} (h : AtMost (2 * n) em) :
    AtMost n em.shiftRightOne := by
  unfold AtMost ExtendedMantissa.shiftRightOne at *
  rcases h with h | ⟨h, hround, hsticky⟩
  · left
    dsimp only
    omega
  · right
    simp [h, hround, hsticky]

theorem atMost_shiftRight {n j : Nat} {em : ExtendedMantissa} (h : AtMost (n * 2 ^ j) em) :
    AtMost n (em >>> j) := by
  change AtMost n (j.repeat ExtendedMantissa.shiftRightOne em)
  induction j generalizing n with
  | zero =>
      rw [Nat.pow_zero, Nat.mul_one] at h
      exact h
  | succ j ih =>
      refine atMost_shiftRightOne (ih ?_)
      rwa [Nat.pow_succ', ← Nat.mul_assoc, Nat.mul_comm n 2] at h

theorem roundedMantissa_le {n : Nat} {em : ExtendedMantissa} (h : AtMost n em) :
    em.roundedMantissa ≤ n := by
  obtain ⟨m, roundBit, stickyBit⟩ := em
  rcases h with h | ⟨rfl, rfl, rfl⟩
  · have hlt : m < n := h
    cases roundBit <;> cases stickyBit <;>
      simp only [ExtendedMantissa.roundedMantissa, ExtendedMantissa.accuracy,
        Accuracy.roundToNearestEven] <;> omega
  · exact Nat.le_refl m

theorem mantissa_le {n : Nat} {em : ExtendedMantissa} (h : AtMost n em) : em.mantissa ≤ n := by
  rcases h with h | ⟨h, -⟩ <;> omega

/-! ## Bounds on magnitudes -/

/-- Finite, and at most `2 ^ k` in magnitude. -/
def Within (k : Nat) : UnpackedFloat → Prop
  | .zero _ => True
  | .finite _ m e _ => -1074 ≤ e ∧ e + 52 ≤ k ∧ m ≤ 2 ^ (k - e).toNat
  | _ => False

/-- Whatever is at most `2 ^ k` is rounded to fifty-three digits, but none below `2 ^ (-1074)`. -/
theorem targetExponent_le {k m : Nat} {e : Int} (he : e ≤ k) (hm : m ≤ 2 ^ (k - e).toNat) :
    -1074 ≤ Format.binary64.targetExponent (totalExponent m e) ∧
      Format.binary64.targetExponent (totalExponent m e) + 52 ≤ k := by
  have htarget : Format.binary64.targetExponent (totalExponent m e)
      = max ((m.log2 : Int) + 1 + e - 53) (-1074) := rfl
  have hlog : m.log2 ≤ (k - e).toNat := by
    rcases Nat.eq_zero_or_pos m with rfl | hpos
    · exact Nat.zero_le _
    · have hpow : 2 ^ m.log2 ≤ m := Nat.log2_self_le (Nat.ne_of_gt hpos)
      exact (Nat.pow_le_pow_iff_right Nat.one_lt_two).mp (Nat.le_trans hpow hm)
  omega

theorem shiftToTargetExponent_bounds {k m : Nat} {e : Int} (he : e + 52 ≤ k)
    (hm : m ≤ 2 ^ (k - e).toNat) {em : ExtendedMantissa} {f : Int}
    (h : shiftToTargetExponent .binary64 m e .exact = (em, f)) :
    -1074 ≤ f ∧ f + 52 ≤ k ∧ AtMost (2 ^ (k - f).toNat) em := by
  obtain ⟨hlow, hhigh⟩ := targetExponent_le (by omega) hm
  rw [shiftToTargetExponent, shiftToExponent] at h
  generalize Format.binary64.targetExponent (totalExponent m e) = t at *
  obtain ⟨rfl, rfl⟩ := Prod.mk.inj h
  refine ⟨by omega, by omega, atMost_shiftRight ?_⟩
  rw [← Nat.pow_add]
  have hdigits : (k - (e + (t - e).toNat)).toNat + (t - e).toNat = (k - e).toNat := by omega
  rw [hdigits]
  rcases Nat.lt_or_eq_of_le hm with hlt | heq
  · exact .inl hlt
  · exact .inr ⟨heq, rfl, rfl⟩

theorem within_roundWithAccuracy (s : Sign) {k m : Nat} {e : Int} (he : e + 52 ≤ k)
    (hm : m ≤ 2 ^ (k - e).toNat) : Within k (roundWithAccuracy .binary64 s m e .exact) := by
  rw [roundWithAccuracy]
  cases hfirst : shiftToTargetExponent .binary64 m e .exact with
  | mk em₁ e₁ =>
      obtain ⟨-, hhigh, hbound⟩ := shiftToTargetExponent_bounds he hm hfirst
      dsimp only
      cases hsecond : shiftToTargetExponent .binary64 em₁.roundedMantissa e₁ .exact with
      | mk em₂ e₂ =>
          obtain ⟨hlow, hhigh', hbound'⟩ :=
            shiftToTargetExponent_bounds hhigh (roundedMantissa_le hbound) hsecond
          dsimp only
          split
          · trivial
          · exact ⟨hlow, hhigh', mantissa_le hbound'⟩

theorem shiftLeft_le {k m : Nat} {e f : Int} (hf : f ≤ e) (he : e ≤ k)
    (hm : m ≤ 2 ^ (k - e).toNat) : m <<< (e - f).toNat ≤ 2 ^ (k - f).toNat := by
  have hdigits : (k - f).toNat = (k - e).toNat + (e - f).toNat := by omega
  rw [Nat.shiftLeft_eq, hdigits, Nat.pow_add]
  exact Nat.mul_le_mul_right _ hm

theorem within_round (s : Sign) {k m : Nat} {e : Int} (he : e ≤ k)
    (hm : m ≤ 2 ^ (k - e).toNat) : Within k (round .binary64 s m e) := by
  obtain ⟨-, hhigh⟩ := targetExponent_le he hm
  rw [UnpackedFloat.round, decreaseExponent]
  dsimp only
  generalize Format.binary64.targetExponent (totalExponent m e) = t at *
  refine within_roundWithAccuracy s (by omega) ?_
  have hmin : e - (e - t).toNat = min e t := by omega
  have hshift : (e - t).toNat = (e - min e t).toNat := by omega
  rw [hmin, hshift]
  exact shiftLeft_le (Int.min_le_left e t) he hm

theorem within_normalize (zeroSign : Sign) {k : Nat} {m e : Int} (he : e ≤ k)
    (hm : m.natAbs ≤ 2 ^ (k - e).toNat) : Within k (normalize .binary64 m e zeroSign) := by
  rw [UnpackedFloat.normalize]
  split
  · exact within_round _ he (by omega)
  · trivial
  · exact within_round _ he (by omega)

theorem Within.mono {k l : Nat} (hkl : k ≤ l) {u : UnpackedFloat} (h : Within k u) :
    Within l u := by
  cases u with
  | zero => trivial
  | notANumber | infinity => cases h
  | finite s m e hm =>
      obtain ⟨hlow, hhigh, hbound⟩ := h
      exact ⟨hlow, by omega, Nat.le_trans hbound (Nat.pow_le_pow_right Nat.zero_lt_two (by omega))⟩

theorem natAbs_apply (s : Sign) (n : Nat) : (s.apply n).natAbs = n := by
  cases s
  · exact Int.natAbs_neg n
  · rfl

/-- The sum of two numbers is at most twice the larger one, rounded or not. -/
theorem within_add {k : Nat} {u v : UnpackedFloat} (hu : Within k u) (hv : Within k v) :
    Within (k + 1) (UnpackedFloat.add .binary64 u v) := by
  cases u with
  | notANumber | infinity => cases hu
  | zero s =>
      cases v with
      | notANumber | infinity => cases hv
      | zero t => cases s <;> cases t <;> trivial
      | finite => exact hv.mono (Nat.le_succ k)
  | finite s m e hm =>
      cases v with
      | notANumber | infinity => cases hv
      | zero => exact hu.mono (Nat.le_succ k)
      | finite t n f hn =>
          obtain ⟨-, hhigh, hbound⟩ := hu
          obtain ⟨-, hhigh', hbound'⟩ := hv
          have hleft := shiftLeft_le (Int.min_le_left e f) (by omega) hbound
          have hright := shiftLeft_le (Int.min_le_right e f) (by omega) hbound'
          have hdouble : 2 ^ ((k + 1 : Nat) - min e f).toNat = 2 * 2 ^ (k - min e f).toNat := by
            have hdigits : ((k + 1 : Nat) - min e f).toNat = (k - min e f).toNat + 1 := by omega
            rw [hdigits, Nat.pow_succ']
          refine within_normalize _ (by omega) (Nat.le_trans (Int.natAbs_add_le _ _) ?_)
          rw [natAbs_apply, natAbs_apply, hdouble, Nat.two_mul]
          exact Nat.add_le_add hleft hright

/-! ## Packed numbers -/

/-- The leading digit of a normal number is cut off by packing and put back. -/
theorem within_unpack_normal (s : Sign) {k m : Nat} {e : Int} (hlow : -1074 ≤ e)
    (hhigh : e + 52 ≤ k) (hk : k ≤ 1023) (hbound : m ≤ 2 ^ (k - e).toNat) (hdigits : 2 ^ 52 ≤ m) :
    Within k (UnpackedFloat.unpack .binary64
      (packComponents .binary64 s (BitVec.ofNat 11 (e + 1075).toNat) (BitVec.ofNat 52 m))) := by
  have hfield : (BitVec.ofNat 11 (e + 1075).toNat).toNat = (e + 1075).toNat := by
    rw [BitVec.toNat_ofNat, Nat.mod_eq_of_lt (by omega)]
  have hfull : BitVec.ofNat 11 (e + 1075).toNat ≠ -1#11 := fun h => by
    have hall : (e + 1075).toNat = 2047 := by rw [← hfield, h]; rfl
    omega
  have hempty : BitVec.ofNat 11 (e + 1075).toNat ≠ 0#11 := fun h => by
    have hnone : (e + 1075).toNat = 0 := by rw [← hfield, h]; rfl
    omega
  have hmantissa : (1#1 ++ BitVec.ofNat 52 m).toNat ≤ m := by
    rw [BitVec.toNat_append, ← Nat.shiftLeft_add_eq_or_of_lt (BitVec.isLt _), BitVec.toNat_ofNat]
    change 2 ^ 52 + m % 2 ^ 52 ≤ m
    omega
  have hexponent : ((e + 1075).toNat : Int) - (Format.binary64.exponentBias + (52 : Nat)) = e := by
    change ((e + 1075).toNat : Int) - ((1023 : Nat) + (52 : Nat)) = e
    omega
  simp only [UnpackedFloat.unpack, unpackExponent_packComponents, unpackMantissa_packComponents,
    if_neg hfull, if_neg hempty, hfield, Within, hexponent]
  exact ⟨hlow, hhigh, Nat.le_trans hmantissa hbound⟩

theorem within_unpack_subnormal (s : Sign) {k m : Nat} (hbound : m ≤ 2 ^ (k + 1074)) :
    Within k (UnpackedFloat.unpack .binary64
      (packComponents .binary64 s 0#11 (BitVec.ofNat 52 m))) := by
  simp only [UnpackedFloat.unpack, unpackExponent_packComponents, unpackMantissa_packComponents]
  rw [if_neg (by decide), if_pos trivial]
  split
  next => trivial
  next =>
    have hmantissa : (BitVec.ofNat 52 m).toNat ≤ m := Nat.mod_le m _
    have hpower : ((k : Int) - (-1074)).toNat = k + 1074 := by omega
    refine ⟨Int.le_refl _, ?_, Nat.le_trans hmantissa (Nat.le_trans hbound ?_)⟩
    · change (-1074 : Int) + 52 ≤ k
      omega
    · exact Nat.pow_le_pow_right Nat.zero_lt_two (Nat.le_of_eq hpower.symm)

/-- Packing does not make a number larger. -/
theorem within_repack {k : Nat} (hk : k ≤ 1023) {u : UnpackedFloat} (h : Within k u) :
    Within k (repack u) := by
  cases u with
  | zero s => cases s <;> trivial
  | notANumber | infinity => cases h
  | finite s m e hm =>
      obtain ⟨hlow, hhigh, hbound⟩ := h
      have hbias : (e + Format.binary64.exponentBias + (52 : Nat)).toNat = (e + 1075).toNat := by
        change (e + (1023 : Nat) + (52 : Nat)).toNat = _
        omega
      rw [repack, UnpackedFloat.pack]
      dsimp only
      rw [hbias, if_neg (by omega)]
      split
      next hnormal =>
        have hlog : m.log2 = 52 := Nat.succ.inj hnormal
        have hdigits : 2 ^ 52 ≤ m := hlog ▸ Nat.log2_self_le (Nat.ne_of_gt hm)
        exact within_unpack_normal s hlow hhigh hk hbound hdigits
      next =>
        refine within_unpack_subnormal s (Nat.le_trans hbound ?_)
        exact Nat.pow_le_pow_right Nat.zero_lt_two (by omega)

/-- The mantissa of a finite number has at most fifty-three digits. -/
theorem mantissa_lt {b : BitVec Format.binary64.numBits} {s : Sign} {m : Nat} {e : Int}
    {hm : 0 < m} (h : UnpackedFloat.unpack .binary64 b = .finite s m e hm) :
    -1074 ≤ e ∧ m < 2 ^ 53 := by
  have hfraction : (unpackMantissa b).toNat < 2 ^ 52 := (unpackMantissa b).isLt
  rw [UnpackedFloat.unpack] at h
  dsimp only at h
  split at h
  · split at h <;> cases h
  next =>
    split at h
    next hfield =>
      split at h
      next => cases h
      next =>
        obtain ⟨-, hmantissa, hexponent⟩ := UnpackedFloat.finite.inj h
        have hzero : (unpackExponent b).toNat = 0 := by rw [hfield]; rfl
        have hbias : ((unpackExponent b).toNat : Int) - ((1023 : Nat) + (52 : Nat)) + 1 = e :=
          hexponent
        exact ⟨by omega, by omega⟩
    next hfield =>
      obtain ⟨-, hmantissa, hexponent⟩ := UnpackedFloat.finite.inj h
      have hpos : (unpackExponent b).toNat ≠ 0 := fun hzero => hfield (BitVec.eq_of_toNat_eq hzero)
      have hbias : ((unpackExponent b).toNat : Int) - ((1023 : Nat) + (52 : Nat)) = e := hexponent
      exact ⟨by omega, hmantissa ▸ (1#1 ++ unpackMantissa b).isLt⟩

/-- Numbers below `10 ^ 230` are within `2 ^ 765`, in either direction. -/
theorem within_of_le {x : Float} (hlow : -1e230 ≤ x) (hhigh : x ≤ 1e230) :
    Within 765 (parts x) := by
  have hleast : (-1e230 : Float) = .ofBits 0xefb07d457124123d := by decide +kernel
  have hgreatest : (1e230 : Float) = .ofBits 0x6fb07d457124123d := by decide +kernel
  have hleast' : parts (.ofBits 0xefb07d457124123d)
      = .finite .negative 4641336831775293 712 (by decide) := rfl
  have hgreatest' : parts (.ofBits 0x6fb07d457124123d)
      = .finite .positive 4641336831775293 712 (by decide) := rfl
  rw [hleast, le_iff_parts, hleast'] at hlow
  rw [hgreatest, le_iff_parts, hgreatest'] at hhigh
  cases hparts : parts x with
  | notANumber => simp [hparts, UnpackedFloat.le, UnpackedFloat.compare] at hlow
  | infinity s =>
      cases s <;> simp [hparts, UnpackedFloat.le, UnpackedFloat.compare] at hlow hhigh
  | zero s => trivial
  | finite s m e hm =>
      have hexponent : e ≤ 712 := by
        rw [hparts] at hlow hhigh
        cases s with
        | negative =>
            refine Int.not_lt.mp fun hlarge => ?_
            have horder : compare (712 : Int) e = .lt := Int.compare_eq_lt.mpr hlarge
            simp [UnpackedFloat.le, UnpackedFloat.compare, horder] at hlow
        | positive =>
            refine Int.not_lt.mp fun hlarge => ?_
            have horder : compare e (712 : Int) = .gt := Int.compare_eq_gt.mpr hlarge
            simp [UnpackedFloat.le, UnpackedFloat.compare, horder] at hhigh
      obtain ⟨hlow, hdigits⟩ := mantissa_lt hparts
      refine ⟨hlow, by omega, Nat.le_trans (Nat.le_of_lt hdigits) ?_⟩
      exact Nat.pow_le_pow_right Nat.zero_lt_two (by omega)

theorem isNaN_of_within {k : Nat} {x : Float} (h : Within k (parts x)) : x.isNaN = false := by
  change (parts x).isNaN = false
  cases hparts : parts x with
  | notANumber => rw [hparts] at h; cases h
  | infinity | zero | finite => rfl

theorem within_parts_add {k : Nat} (hk : k < 1023) {x y : Float} (hx : Within k (parts x))
    (hy : Within k (parts y)) : Within (k + 1) (parts (x + y)) :=
  within_repack hk (within_add hx hy)

end Floats

end ViewIndex
