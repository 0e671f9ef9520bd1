import Mathlib
import ViewIndex.Reducer

/-!
# Floating-point numbers

A number is taken apart into sign, mantissa and exponent for every operation, and the result is
packed again. Packing may turn a finite number into an infinity or into zero, but not into a NaN,
and not into a number of the other sign. So a sum is a NaN only if a NaN or infinities of opposite
sign are added, and adding numbers on one side of zero stays there.
-/

namespace ViewIndex

namespace Floats

open Float.Model.UnpackedFloat
open Float.Model (UnpackedFloat)

/-! ## Packing -/

/-- The parts of a number. -/
def parts (x : Float) : UnpackedFloat := x.toModel.unpack

/-- What is left of the parts of a result once it is packed. -/
def repack (u : UnpackedFloat) : UnpackedFloat := unpack .binary64 (pack .binary64 u)

/-- The sign of everything but a NaN. -/
def sign? : UnpackedFloat → Option Sign
  | .notANumber => none
  | .infinity s | .zero s | .finite s .. => some s

theorem sign?_unpack_packComponents (s : Sign) {e : BitVec 11} (he : e ≠ -1#11) (m : BitVec 52) :
    sign? (unpack .binary64 (packComponents .binary64 s e m)) = some s := by
  simp only [unpack, unpackExponent_packComponents, unpackMantissa_packComponents,
    unpackSign_packComponents, Sign.ofBitVec_toBitVec]
  rw [if_neg he]
  split
  · split <;> rfl
  · rfl

/-- Packing keeps the sign, and a NaN stays one. -/
theorem sign?_repack (u : UnpackedFloat) : sign? (repack u) = sign? u := by
  cases u with
  | notANumber => rfl
  | infinity s => cases s <;> rfl
  | zero s => cases s <;> rfl
  | finite s m e hm =>
      rw [repack, pack]
      dsimp only
      split
      next => cases s <;> rfl
      next hsmall =>
        split
        next =>
          refine sign?_unpack_packComponents s (fun h => hsmall ?_) _
          have hfield := congrArg BitVec.toNat h
          rw [BitVec.toNat_ofNat, Nat.mod_eq_of_lt (by omega)] at hfield
          exact Nat.le_of_eq (congrArg (· + 1) hfield.symm)
        next => exact sign?_unpack_packComponents s (by decide) _

theorem isNaN_eq_isNone (u : UnpackedFloat) : u.isNaN = (sign? u).isNone := by
  cases u <;> rfl

theorem isNaN_repack (u : UnpackedFloat) : (repack u).isNaN = u.isNaN := by
  rw [isNaN_eq_isNone, sign?_repack, ← isNaN_eq_isNone]

/-! ## Comparing a number with itself -/

theorem beq_self_eq_not_isNaN (x : Float) : (x == x) = !x.isNaN := by
  rw [Float.isNaN_eq_decide_eq_nan, Bool.eq_iff_iff, Float.beq_self_iff]
  simp

theorem le_iff_parts (x y : Float) : x ≤ y ↔ (parts x).le (parts y) = true := by
  change decide ((parts x).le (parts y) = true) = true ↔ _
  exact decide_eq_true_iff

/-- A number is as close to itself as the comparison of sums wants it, unless it is a NaN. -/
theorem close_self (x : Float) : Aggregate.close x x = !x.isNaN := by
  unfold Aggregate.close
  rw [beq_self_eq_not_isNaN]
  cases hnan : x.isNaN with
  | false => rfl
  | true =>
      have hparts : parts x = .notANumber := isNaN_iff.mp hnan
      have hdifference : parts (x - x).abs = .notANumber := by
        change repack (repack (UnpackedFloat.sub .binary64 (parts x) (parts x))).abs = _
        rw [hparts]
        rfl
      have hle (bound : Float) : ¬ (x - x).abs ≤ bound := by
        rw [le_iff_parts, hdifference]
        exact Bool.false_ne_true
      simp [hle]

/-! ## Sums and products -/

theorem sign?_roundWithAccuracy (s : Sign) (m : Nat) (e : Int) (accuracy : Accuracy) :
    sign? (roundWithAccuracy .binary64 s m e accuracy) = some s := by
  rw [roundWithAccuracy]
  dsimp only
  split <;> rfl

theorem sign?_normalize (m e : Int) (zeroSign : Sign) :
    sign? (normalize .binary64 m e zeroSign)
      = some (if m < 0 then .negative else if 0 < m then .positive else zeroSign) := by
  rw [UnpackedFloat.normalize]
  cases horder : compare m 0 with
  | lt =>
      rw [if_pos (Int.compare_eq_lt.mp horder)]
      exact sign?_roundWithAccuracy _ _ _ _
  | eq =>
      obtain rfl := Int.compare_eq_eq.mp horder
      rfl
  | gt =>
      have hpos := Int.compare_eq_gt.mp horder
      rw [if_neg (by omega), if_pos hpos]
      exact sign?_roundWithAccuracy _ _ _ _

/-- Infinities of opposite sign. -/
def Opposed (x y : Float) : Prop :=
  x.isInf = true ∧ y.isInf = true ∧ (x == y) = false

/-- A sum is a NaN if one of the numbers is, or both are infinities and do not agree. -/
theorem isNaN_add (x y : Float) :
    (x + y).isNaN = true ↔ x.isNaN = true ∨ y.isNaN = true ∨ Opposed x y := by
  change (repack (UnpackedFloat.add .binary64 (parts x) (parts y))).isNaN = true ↔
    (parts x).isNaN = true ∨ (parts y).isNaN = true ∨
      (parts x).isInf = true ∧ (parts y).isInf = true ∧ (parts x).beq (parts y) = false
  rw [isNaN_repack]
  cases parts x with
  | notANumber => simp [UnpackedFloat.add, isNaN]
  | infinity s =>
      cases parts y with
      | infinity t => cases s <;> cases t <;> decide
      | notANumber | zero | finite => simp [UnpackedFloat.add, isNaN, isInf]
  | zero s =>
      cases parts y with
      | zero t => cases s <;> cases t <;> decide
      | notANumber | infinity | finite => simp [UnpackedFloat.add, isNaN, isInf]
  | finite s m e hm =>
      cases parts y with
      | finite t n k hn =>
          rw [isNaN_eq_isNone, UnpackedFloat.add, sign?_normalize]
          simp [isNaN, isInf]
      | notANumber | infinity | zero => simp [UnpackedFloat.add, isNaN, isInf]

theorem isNaN_eq_false_of_add {x y : Float} (h : (x + y).isNaN = false) :
    x.isNaN = false ∧ y.isNaN = false := by
  rw [Bool.eq_false_iff, ne_eq, isNaN_add] at h
  exact ⟨Bool.eq_false_iff.mpr fun hx => h (.inl hx),
    Bool.eq_false_iff.mpr fun hy => h (.inr (.inl hy))⟩

/-! ## Sides of zero -/

/-- Zero, or a number of this sign. -/
def OnSide (s : Sign) : UnpackedFloat → Prop
  | .zero _ => True
  | u => sign? u = some s

theorem onSide_of_sign? {s : Sign} {u : UnpackedFloat} (h : sign? u = some s) : OnSide s u := by
  cases u with
  | zero => trivial
  | notANumber | infinity | finite => exact h

theorem onSide_repack {s : Sign} {u : UnpackedFloat} (h : OnSide s u) : OnSide s (repack u) := by
  cases u with
  | zero t => cases t <;> trivial
  | notANumber | infinity | finite => exact onSide_of_sign? ((sign?_repack _).trans h)

theorem shiftLeft_pos {m : Nat} (hm : 0 < m) (k : Nat) : 0 < m <<< k := by
  rw [Nat.shiftLeft_eq]
  exact Nat.mul_pos hm (Nat.two_pow_pos k)

/-- A sum of numbers on one side of zero stays there. -/
theorem onSide_add {s : Sign} {u v : UnpackedFloat} (hu : OnSide s u) (hv : OnSide s v) :
    OnSide s (UnpackedFloat.add .binary64 u v) := by
  cases u with
  | notANumber => cases hu
  | infinity t =>
      cases v with
      | notANumber => cases hv
      | infinity t' =>
          cases hu
          cases hv
          cases s <;> rfl
      | zero | finite => exact hu
  | zero t =>
      cases v with
      | notANumber => cases hv
      | zero t' => cases t <;> cases t' <;> trivial
      | infinity | finite => exact hv
  | finite t m e hm =>
      cases v with
      | notANumber => cases hv
      | infinity => exact hv
      | zero => exact hu
      | finite t' n k hn =>
          cases hu
          cases hv
          have hleft := shiftLeft_pos hm (e - min e k).toNat
          have hright := shiftLeft_pos hn (k - min e k).toNat
          refine onSide_of_sign? ?_
          rw [UnpackedFloat.add, sign?_normalize]
          cases s with
          | negative =>
              have hlt : -((m <<< (e - min e k).toNat : Nat) : Int)
                  + -((n <<< (k - min e k).toNat : Nat) : Int) < 0 := by omega
              exact congrArg some (if_pos hlt)
          | positive =>
              have hgt : 0 < ((m <<< (e - min e k).toNat : Nat) : Int)
                  + ((n <<< (k - min e k).toNat : Nat) : Int) := by omega
              exact congrArg some ((if_neg (Int.not_lt.mpr (Int.le_of_lt hgt))).trans (if_pos hgt))

/-- A square is not negative. -/
theorem onSide_mul_self {u : UnpackedFloat} (hu : u.isNaN = false) :
    OnSide .positive (UnpackedFloat.mul .binary64 u u) := by
  cases u with
  | notANumber => cases hu
  | infinity s => cases s <;> rfl
  | zero s => trivial
  | finite s m e hm =>
      refine onSide_of_sign? ?_
      rw [UnpackedFloat.mul, sign?_roundWithAccuracy]
      cases s <;> rfl

theorem parts_zero : parts 0.0 = .zero .positive := rfl

theorem zero_le_iff (x : Float) : 0.0 ≤ x ↔ OnSide .positive (parts x) := by
  rw [le_iff_parts, parts_zero]
  cases parts x with
  | notANumber => simp [UnpackedFloat.le, UnpackedFloat.compare, OnSide, sign?]
  | infinity s | zero s | finite s =>
      cases s <;> simp [UnpackedFloat.le, UnpackedFloat.compare, OnSide, sign?]

theorem le_zero_iff (x : Float) : x ≤ 0.0 ↔ OnSide .negative (parts x) := by
  rw [le_iff_parts, parts_zero]
  cases parts x with
  | notANumber => simp [UnpackedFloat.le, UnpackedFloat.compare, OnSide, sign?]
  | infinity s | zero s | finite s =>
      cases s <;> simp [UnpackedFloat.le, UnpackedFloat.compare, OnSide, sign?]

theorem isNaN_of_onSide {s : Sign} {x : Float} (h : OnSide s (parts x)) : x.isNaN = false := by
  change (parts x).isNaN = false
  cases hparts : parts x with
  | notANumber => rw [hparts] at h; cases h
  | infinity | zero | finite => rfl

theorem onSide_parts_add {s : Sign} {x y : Float} (hx : OnSide s (parts x))
    (hy : OnSide s (parts y)) : OnSide s (parts (x + y)) :=
  onSide_repack (onSide_add hx hy)

theorem onSide_parts_mul_self {x : Float} (hx : x.isNaN = false) :
    OnSide .positive (parts (x * x)) :=
  onSide_repack (onSide_mul_self hx)

/-! ## The lesser and the greater of two numbers -/

theorem isNaN_choice {x : Float} (hx : x.isNaN = false) (y : Float) (p : Prop) [Decidable p] :
    (if y.isNaN then x else if p then x else y).isNaN = false := by
  split
  next => exact hx
  next hy =>
    split
    next => exact hx
    next => exact Bool.eq_false_iff.mpr hy

theorem isNaN_lesser {x : Float} (hx : x.isNaN = false) (y : Float) :
    (lesser x y).isNaN = false :=
  isNaN_choice hx y (x < y)

theorem isNaN_greater {x : Float} (hx : x.isNaN = false) (y : Float) :
    (greater x y).isNaN = false :=
  isNaN_choice hx y (y < x)

end Floats

end ViewIndex
