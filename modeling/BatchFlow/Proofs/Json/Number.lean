import BatchFlow.Json.Number
import BatchFlow.Proofs.Decimal.Shortest
import Mathlib

namespace BatchFlow

/-!
# Equality of numbers

Equality of doubles is symmetric and transitive, and NaN is the only double that is not equal to
itself. No JSON number is NaN as a double, so equality of the values of numbers is an equivalence
relation.

* `isNaN_floatOfInt`, `Number.isNaN_toFloat` — the double of a number is not NaN.
* `Number.toFloat_equivalence` — equality of the values of numbers.
* `Number.same_equivalence`, `Number.toFloat_beq_of_same` — equality of the representations, which
  is finer.
-/

open Float.Model (UnpackedFloat)

/-! ### Doubles -/

/-- Bits whose exponent field is not full, or whose mantissa field is empty, are not NaN. -/
theorem isNaN_unpack {bits : BitVec 64}
    (h : @UnpackedFloat.unpackExponent .binary64 bits ≠ -1#11 ∨
      @UnpackedFloat.unpackMantissa .binary64 bits = 0#52) :
    (UnpackedFloat.unpack .binary64 bits).isNaN = false := by
  unfold UnpackedFloat.unpack
  dsimp only
  split
  · rename_i hexponent
    rw [if_pos (h.resolve_left fun hne => hne hexponent)]
    rfl
  · split
    · split <;> rfl
    · rfl

/-- What is not NaN is not packed as NaN. -/
theorem isNaN_pack {x : UnpackedFloat} (h : x.isNaN = false) :
    (Float.Model.pack x).unpack.isNaN = false := by
  apply isNaN_unpack
  show @UnpackedFloat.unpackExponent .binary64 (UnpackedFloat.pack .binary64 x) ≠ -1#11 ∨
    @UnpackedFloat.unpackMantissa .binary64 (UnpackedFloat.pack .binary64 x) = 0#52
  cases x with
  | notANumber => cases h
  | infinity s => exact Or.inr UnpackedFloat.unpackMantissa_packComponents
  | zero s => exact Or.inr UnpackedFloat.unpackMantissa_packComponents
  | finite s m e hm =>
    unfold UnpackedFloat.pack
    dsimp only
    split
    · exact Or.inr UnpackedFloat.unpackMantissa_packComponents
    · rename_i hsmall
      left
      split
      · -- the exponent field is not full, or the number would have been packed as infinite
        rw [UnpackedFloat.unpackExponent_packComponents]
        intro hfull
        have hfield := congrArg BitVec.toNat hfull
        rw [BitVec.toNat_ofNat] at hfield
        have hfull' : (-1#11).toNat = 2047 := rfl
        have hbits : 2 ^ Float.Model.Format.binary64.exponentBits = 2048 := rfl
        rw [hbits] at hsmall hfield
        rw [hfull', Nat.mod_eq_of_lt (by omega)] at hfield
        omega
      · rw [UnpackedFloat.unpackExponent_packComponents]
        decide

/-- The negative of a double that is not NaN is not NaN. -/
theorem isNaN_neg {x : Float} (h : x.isNaN = false) : (-x).isNaN = false := by
  have hneg : x.toModel.unpack.neg.isNaN = false := by
    have hunpacked : x.toModel.unpack.isNaN = false := h
    cases hx : x.toModel.unpack with
    | notANumber =>
      rw [hx] at hunpacked
      cases hunpacked
    | _ => rfl
  exact isNaN_pack hneg

/-- Rounding never gives NaN. -/
theorem isNaN_roundWithAccuracy (spec : Float.Model.Format) (sign : UnpackedFloat.Sign) (m : ℕ)
    (e : ℤ) (accuracy : UnpackedFloat.Accuracy) :
    (UnpackedFloat.roundWithAccuracy spec sign m e accuracy).isNaN = false := by
  unfold UnpackedFloat.roundWithAccuracy
  dsimp only
  split <;> rfl

/-- A natural number is never NaN as a double. -/
theorem isNaN_toFloat (n : UInt64) : n.toFloat.isNaN = false := by
  apply isNaN_pack
  unfold UnpackedFloat.ofUInt64 UnpackedFloat.ofNat UnpackedFloat.ofInt UnpackedFloat.normalize
  split
  · exact isNaN_roundWithAccuracy ..
  · rfl
  · exact isNaN_roundWithAccuracy ..

/-- An integer is never NaN as a double. -/
theorem isNaN_floatOfInt (i : ℤ) : (floatOfInt i).isNaN = false := by
  unfold floatOfInt
  split
  · exact isNaN_neg (isNaN_toFloat _)
  · exact isNaN_toFloat _

namespace Number

/-- The double of a number is not NaN. -/
theorem isNaN_toFloat (n : Number) : n.toFloat.isNaN = false := by
  cases n with
  | int i => exact isNaN_floatOfInt i
  | float x => exact (isNaN_isInf_of_isFinite x.isFinite).1

/-- Equality of the values of numbers is an equivalence relation. -/
theorem toFloat_equivalence : Equivalence fun a b : Number => (a.toFloat == b.toFloat) = true where
  refl n := by
    have hnan := n.isNaN_toFloat
    rw [Float.isNaN_eq_decide_eq_nan, decide_eq_false_iff_not] at hnan
    exact Float.beq_self_iff.2 hnan
  symm h := BEq.symm h
  trans h h' := BEq.trans h h'

/-- The integer that a number is written as, if it is written as one. -/
def int? : Number → Option ℤ
  | .int i => some i
  | .float _ => none

/-- Numbers of one representation are the same integer, or doubles of equal values. -/
theorem same_iff {a b : Number} :
    a.same b = true ↔ a.int? = b.int? ∧ (a.toFloat == b.toFloat) = true := by
  -- numbers of different kinds are never the same, so an integer decides by itself
  cases a with
  | int i =>
    cases b with
    | int i' =>
      rw [same, beq_iff_eq]
      constructor
      · rintro rfl
        exact ⟨rfl, toFloat_equivalence.refl (.int i)⟩
      · rintro ⟨h, -⟩
        exact Option.some.inj h
    | float y => exact iff_of_false nofun fun h => nomatch h.1
  | float x =>
    cases b with
    | int i' => exact iff_of_false nofun fun h => nomatch h.1
    | float y =>
      have hkinds : (Number.float x).int? = (Number.float y).int? := rfl
      rw [and_iff_right hkinds]
      rfl

/-- Numbers of one representation have equal values. -/
theorem toFloat_beq_of_same {a b : Number} (h : a.same b = true) :
    (a.toFloat == b.toFloat) = true :=
  (same_iff.1 h).2

/-- Equality of the representations of numbers is an equivalence relation. -/
theorem same_equivalence : Equivalence fun a b : Number => a.same b = true where
  refl n := same_iff.2 ⟨rfl, toFloat_equivalence.refl n⟩
  symm h := same_iff.2 ⟨(same_iff.1 h).1.symm, toFloat_equivalence.symm (same_iff.1 h).2⟩
  trans h h' := same_iff.2 ⟨(same_iff.1 h).1.trans (same_iff.1 h').1,
    toFloat_equivalence.trans (same_iff.1 h).2 (same_iff.1 h').2⟩

end Number

end BatchFlow
