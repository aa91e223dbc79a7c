import BatchFlow.Decimal.Shortest
import Mathlib.Algebra.Order.Field.Power
import Mathlib.Algebra.Order.Ring.Rat
import Mathlib.Tactic.FieldSimp
import Mathlib.Tactic.Linarith
import Mathlib.Tactic.Positivity
import Mathlib.Tactic.Ring

namespace BatchFlow

/-!
# A shortest decimal belongs to one double

The reals that round to a double form an interval. The intervals of two doubles have no real in
common: at a common end the one with the even mantissa has it. The search for a shortest decimal
ends at a grid that is finer than a quarter of the spacing at the latest, and what it returns lies
in the interval. So different magnitudes never have the same shortest decimal.

* `Decimal.value` — the number that a decimal is.
* `Decimal.Interval.Contains`, `Decimal.Interval.holds_iff` — the interval as a set of numbers.
* `Decimal.Interval.Canonical`, `canonical_binaryParts` — the mantissas and exponents of doubles.
* `Decimal.Interval.eq_of_contains` — intervals of doubles have no number in common.
* `Decimal.contains_shortest` — a shortest decimal lies in its interval.
* `Decimal.shortest_injective` — and in no other one.
* `binaryParts_injective` — sign, mantissa and exponent make the double.
-/

/-! ### Powers -/

/-- A power with a negative exponent goes to the other side. -/
theorem zpow_toNat {a : ℚ} (ha : a ≠ 0) (n : ℤ) : a ^ n.toNat = a ^ n * a ^ (-n).toNat := by
  rw [← zpow_natCast, ← zpow_natCast, ← zpow_add₀ ha]
  congr 1
  omega

/-- A power of ten lies below a power of two when the exponents do by enough: `10 ^ 3 < 2 ^ 10`, and
    below one `2 ^ 33 < 10 ^ 10` is nearer. -/
theorem ten_zpow_le_two_zpow {k q : ℤ} (hpos : 0 ≤ k → 10 * k ≤ 3 * q)
    (hneg : k < 0 → 33 * k ≤ 10 * q) : (10 : ℚ) ^ k ≤ 2 ^ q := by
  rcases le_or_gt 0 k with hk | hk
  · obtain ⟨n, rfl⟩ := Int.eq_ofNat_of_zero_le hk
    have hn := hpos hk
    obtain ⟨p, rfl⟩ := Int.eq_ofNat_of_zero_le (show 0 ≤ q by omega)
    -- compare the cubes, as 10 ^ 3 ≤ 2 ^ 10
    have hcubes : (10 ^ n) ^ 3 ≤ (2 ^ p) ^ 3 := calc
      (10 ^ n) ^ 3 = (10 ^ 3) ^ n := by rw [← pow_mul, ← pow_mul, Nat.mul_comm]
      _ ≤ (2 ^ 10) ^ n := Nat.pow_le_pow_left (by norm_num) n
      _ = 2 ^ (10 * n) := by rw [← pow_mul]
      _ ≤ 2 ^ (p * 3) := Nat.pow_le_pow_right (by norm_num) (by omega)
      _ = (2 ^ p) ^ 3 := by rw [← pow_mul]
    have hle : 10 ^ n ≤ 2 ^ p := (Nat.pow_le_pow_iff_left (by norm_num)).1 hcubes
    simpa using (by exact_mod_cast hle : (10 : ℚ) ^ n ≤ 2 ^ p)
  · have hn := hneg hk
    rcases le_or_gt 0 q with hq | hq
    · exact (zpow_le_one_of_nonpos₀ (by norm_num) hk.le).trans (one_le_zpow₀ (by norm_num) hq)
    obtain ⟨n, hn'⟩ := Int.eq_ofNat_of_zero_le (show 0 ≤ -k by omega)
    obtain ⟨p, hp'⟩ := Int.eq_ofNat_of_zero_le (show 0 ≤ -q by omega)
    obtain rfl : k = -n := by omega
    obtain rfl : q = -p := by omega
    -- compare the tenth powers, as 2 ^ 33 ≤ 10 ^ 10
    have htenths : (2 ^ p) ^ 10 ≤ (10 ^ n) ^ 10 := calc
      (2 ^ p) ^ 10 = 2 ^ (p * 10) := by rw [← pow_mul]
      _ ≤ 2 ^ (33 * n) := Nat.pow_le_pow_right (by norm_num) (by omega)
      _ = (2 ^ 33) ^ n := by rw [← pow_mul]
      _ ≤ (10 ^ 10) ^ n := Nat.pow_le_pow_left (by norm_num) n
      _ = (10 ^ n) ^ 10 := by rw [← pow_mul, ← pow_mul, Nat.mul_comm]
    have hle : 2 ^ p ≤ 10 ^ n := (Nat.pow_le_pow_iff_left (by norm_num)).1 htenths
    rw [zpow_neg, zpow_neg, zpow_natCast, zpow_natCast]
    exact inv_anti₀ (by positivity) (by exact_mod_cast hle)

namespace Decimal

/-- The number that a decimal is. -/
def value (d : Decimal) : ℚ := d.significand * 10 ^ d.exponent

namespace Interval

/-- A quarter of the spacing. -/
def unit (i : Interval) : ℚ := 2 ^ (i.exponent - 2)

/-- The unit of an interval is positive. -/
theorem unit_pos (i : Interval) : 0 < i.unit := zpow_pos (by norm_num) _

/-- The reals that round to a double; the ends do when its mantissa is even. -/
def Contains (i : Interval) (x : ℚ) : Prop :=
  if i.mantissa % 2 = 0 then i.lower * i.unit ≤ x ∧ x ≤ i.upper * i.unit
  else i.lower * i.unit < x ∧ x < i.upper * i.unit

/-- Both scales count in the same unit. -/
theorem scales_eq (i : Interval) (e : ℤ) : ∃ common : ℚ, 0 < common ∧
    ((i.scales e).1 : ℚ) = 10 ^ e * common ∧ ((i.scales e).2 : ℚ) = i.unit * common := by
  refine ⟨10 ^ (-e).toNat * 2 ^ (2 - i.exponent).toNat, by positivity, ?_, ?_⟩
  · show ((10 ^ e.toNat * 2 ^ (2 - i.exponent).toNat : ℕ) : ℚ) = _
    push_cast
    rw [zpow_toNat (by norm_num) e]
    ring
  · have hflip : (2 - i.exponent).toNat = (-(i.exponent - 2)).toNat := by
      congr 1
      omega
    show ((10 ^ (-e).toNat * 2 ^ (i.exponent - 2).toNat : ℕ) : ℚ) = _
    push_cast
    rw [zpow_toNat (by norm_num) (i.exponent - 2), hflip, unit]
    ring

/-- The test on scaled integers says whether a decimal lies in the interval. -/
theorem holds_iff {i : Interval} {e : ℤ} {c : ℕ} :
    i.holds e c ↔ i.Contains (value ⟨c, e⟩) := by
  obtain ⟨common, hpos, hgrid, hquarter⟩ := i.scales_eq e
  -- both sides are compared after division by the common scale
  have hle (a b : ℕ) : a * (i.scales e).2 ≤ b * (i.scales e).1 ↔
      a * i.unit ≤ b * (10 : ℚ) ^ e := by
    rw [← Nat.cast_le (α := ℚ)]
    push_cast
    rw [hgrid, hquarter, ← mul_assoc, ← mul_assoc, mul_le_mul_iff_of_pos_right hpos]
  have hle' (a b : ℕ) : b * (i.scales e).1 ≤ a * (i.scales e).2 ↔
      b * (10 : ℚ) ^ e ≤ a * i.unit := by
    rw [← Nat.cast_le (α := ℚ)]
    push_cast
    rw [hgrid, hquarter, ← mul_assoc, ← mul_assoc, mul_le_mul_iff_of_pos_right hpos]
  unfold holds Contains value
  dsimp only
  by_cases heven : i.mantissa % 2 = 0
  · rw [if_pos heven, if_pos heven, Bool.and_eq_true, decide_eq_true_eq, decide_eq_true_eq, hle,
      hle']
  · rw [if_neg heven, if_neg heven, Bool.and_eq_true, decide_eq_true_eq, decide_eq_true_eq,
      ← not_le, ← not_le, hle, hle', not_le, not_le]

/-! ### Intervals of doubles -/

/-- The mantissas and exponents of doubles. A mantissa with less than 53 digits stands with the
    least exponent. -/
structure Canonical (i : Interval) : Prop where
  mantissa_lt : i.mantissa < 2 ^ 53
  normal : leastBinaryExponent < i.exponent → 2 ^ 52 ≤ i.mantissa
  least : leastBinaryExponent ≤ i.exponent
  greatest : i.exponent ≤ 971

variable {i k : Interval} {x : ℚ}

/-- What lies in an interval is not below its lower end. -/
theorem Contains.lower_le (h : i.Contains x) : i.lower * i.unit ≤ x := by
  unfold Contains at h
  split at h
  · exact h.1
  · exact h.1.le

/-- What lies in an interval is not above its upper end. -/
theorem Contains.le_upper (h : i.Contains x) : x ≤ i.upper * i.unit := by
  unfold Contains at h
  split at h
  · exact h.2
  · exact h.2.le

/-- The ends of the interval of an odd mantissa do not belong to it. -/
theorem Contains.of_odd (h : i.Contains x) (hodd : i.mantissa % 2 = 1) :
    i.lower * i.unit < x ∧ x < i.upper * i.unit := by
  unfold Contains at h
  rwa [if_neg (by omega)] at h

/-- An interval that begins where another one ends, or later, has no number of it, as only one of
    two odd and even mantissas has the end. -/
theorem Contains.disjoint (h : i.Contains x) (hle : i.upper * i.unit ≤ k.lower * k.unit)
    (hend : i.mantissa % 2 = 1 ∨ k.mantissa % 2 = 1 ∨ i.upper * i.unit < k.lower * k.unit) :
    ¬ k.Contains x := by
  intro h'
  have := h.le_upper
  have := h'.lower_le
  rcases hend with hodd | hodd | hlt
  · have := (h.of_odd hodd).2
    linarith
  · have := (h'.of_odd hodd).1
    linarith
  · linarith

/-- The lower end is at most half a spacing below the double. -/
theorem le_lower (i : Interval) : 4 * i.mantissa - 2 ≤ i.lower := by
  unfold lower
  split <;> omega

/-- The lower end lies below the double. -/
theorem lower_lt (hpos : 0 < i.mantissa) : i.lower + 1 ≤ 4 * i.mantissa := by
  unfold lower
  split <;> omega

/-- Of two intervals with the same exponent, that with the greater mantissa lies above. -/
theorem disjoint_of_mantissa_lt (hexponent : i.exponent = k.exponent)
    (hlt : i.mantissa < k.mantissa) (h : i.Contains x) : ¬ k.Contains x := by
  have hunit : k.unit = i.unit := by rw [unit, unit, hexponent]
  have hpos := i.unit_pos
  have hlower := k.le_lower
  have hupper : i.upper = 4 * i.mantissa + 2 := rfl
  rcases Nat.lt_or_ge (i.mantissa + 1) k.mantissa with hfar | hnear
  · have hstrict : i.upper * i.unit < k.lower * k.unit := by
      rw [hunit]
      exact mul_lt_mul_of_pos_right (by exact_mod_cast (by omega : i.upper < k.lower)) hpos
    exact h.disjoint hstrict.le (Or.inr (Or.inr hstrict))
  · refine h.disjoint ?_ (by omega)
    rw [hunit]
    exact mul_le_mul_of_nonneg_right (by exact_mod_cast (by omega : i.upper ≤ k.lower)) hpos.le

/-- Of the intervals of two doubles, that with the greater exponent lies above. -/
theorem disjoint_of_exponent_lt (hi : i.Canonical) (hk : k.Canonical)
    (hlt : i.exponent < k.exponent) (h : i.Contains x) : ¬ k.Contains x := by
  have hpos := i.unit_pos
  have hunit : 2 * i.unit ≤ k.unit := by
    rw [unit, unit, ← zpow_one_add₀ (by norm_num)]
    exact zpow_le_zpow_right₀ (by norm_num) (by omega)
  have hmantissa := hi.mantissa_lt
  have hnormal := hk.normal (lt_of_le_of_lt hi.least hlt)
  -- a quarter of the spacing below the least normal mantissa, in units of the lower spacing
  have hlower : 2 ^ 54 - 1 ≤ k.lower := by
    unfold lower
    split <;> rename_i hpower
    · omega
    · have : k.mantissa ≠ 2 ^ 52 := fun he =>
        hpower ⟨he, lt_of_le_of_lt hi.least hlt⟩
      omega
  have hupper : i.upper = 4 * i.mantissa + 2 := rfl
  have hbelow : ((2 ^ 55 - 2 : ℕ) : ℚ) * i.unit ≤ k.lower * k.unit := calc
    ((2 ^ 55 - 2 : ℕ) : ℚ) * i.unit = ((2 ^ 54 - 1 : ℕ) : ℚ) * (2 * i.unit) := by
      norm_num
      ring
    _ ≤ k.lower * k.unit := by
      apply mul_le_mul (by exact_mod_cast hlower) hunit (by linarith) (by positivity)
  rcases Nat.lt_or_ge i.upper (2 ^ 55 - 2) with hfar | hnear
  · have hstrict : i.upper * i.unit < k.lower * k.unit := lt_of_lt_of_le
      (mul_lt_mul_of_pos_right (by exact_mod_cast hfar) hpos) hbelow
    exact h.disjoint hstrict.le (Or.inr (Or.inr hstrict))
  · refine h.disjoint (le_trans ?_ hbelow) (by omega)
    exact mul_le_mul_of_nonneg_right (by exact_mod_cast (by omega : i.upper ≤ 2 ^ 55 - 2)) hpos.le

/-- The intervals of two doubles have no number in common. -/
theorem eq_of_contains (hi : i.Canonical) (hk : k.Canonical) (h : i.Contains x)
    (h' : k.Contains x) : i = k := by
  rcases lt_trichotomy i.exponent k.exponent with hlt | hexponent | hlt
  · exact absurd h' (disjoint_of_exponent_lt hi hk hlt h)
  · rcases lt_trichotomy i.mantissa k.mantissa with hlt | hmantissa | hlt
    · exact absurd h' (disjoint_of_mantissa_lt hexponent hlt h)
    · obtain ⟨m, q⟩ := i
      obtain ⟨m', q'⟩ := k
      cases hmantissa
      cases hexponent
      rfl
    · exact absurd h (disjoint_of_mantissa_lt hexponent.symm hlt h')
  · exact absurd h (disjoint_of_exponent_lt hk hi hlt h')

/-! ### The search -/

/-- What the search takes from a grid lies in the interval. -/
theorem contains_of_nearest? {tie : Tie} {e : ℤ} {c : ℕ} (h : i.nearest? tie e = some c) :
    i.Contains (value ⟨c, e⟩) := by
  rw [← holds_iff]
  unfold nearest? at h
  dsimp only at h
  -- each of the four cases returns a candidate that was tested
  split at h
  · cases h
  · rename_i hbelow _
    cases h
    exact hbelow
  · rename_i habove
    cases h
    exact habove
  · rename_i hbelow habove
    split at h
    · cases h
      exact hbelow
    · split at h
      · cases h
        exact habove
      · cases h
        unfold Tie.choose
        cases tie with
        | toEven =>
          dsimp only
          split
          · exact hbelow
          · exact habove
        | up => exact habove

/-- A grid that is as fine as a quarter of the spacing meets the interval just below the value. -/
theorem isSome_nearest? (hpos : 0 < i.mantissa) (tie : Tie) {e : ℤ}
    (hfine : (10 : ℚ) ^ e ≤ i.unit) : (i.nearest? tie e).isSome := by
  obtain ⟨common, hcommon, hgrid, hquarter⟩ := i.scales_eq e
  have hgridPos : 0 < (i.scales e).1 := by
    have : (0 : ℚ) < (i.scales e).1 := by
      rw [hgrid]
      positivity
    exact_mod_cast this
  have hle : (i.scales e).1 ≤ (i.scales e).2 := by
    have : ((i.scales e).1 : ℚ) ≤ (i.scales e).2 := by
      rw [hgrid, hquarter]
      exact mul_le_mul_of_nonneg_right hfine hcommon.le
    exact_mod_cast this
  -- the candidate below is within half a spacing, as the grid is finer than the unit
  have hholds : i.holds e (4 * i.mantissa * (i.scales e).2 / (i.scales e).1) = true := by
    have hbelow := Nat.div_mul_le_self (4 * i.mantissa * (i.scales e).2) (i.scales e).1
    have habove := Nat.lt_div_mul_add hgridPos (a := 4 * i.mantissa * (i.scales e).2)
    have hlower := Nat.mul_le_mul_right (i.scales e).2 (lower_lt hpos)
    have hupper : i.upper * (i.scales e).2 =
        4 * i.mantissa * (i.scales e).2 + 2 * (i.scales e).2 := by
      rw [upper, Nat.add_mul]
    rw [Nat.add_mul, Nat.one_mul] at hlower
    unfold holds
    dsimp only
    split
    · rw [Bool.and_eq_true, decide_eq_true_eq, decide_eq_true_eq]
      constructor <;> omega
    · rw [Bool.and_eq_true, decide_eq_true_eq, decide_eq_true_eq]
      constructor <;> omega
  unfold nearest?
  dsimp only
  rw [hholds]
  split
  · rename_i hnone _
    cases hnone
  · rfl
  · rfl
  · split
    · rfl
    · split <;> rfl

/-- The search returns a number of the interval when the last grid is fine enough. -/
theorem contains_search (hpos : 0 < i.mantissa) (tie : Tie) {steps : ℕ} {e : ℤ}
    (hfine : (10 : ℚ) ^ (e - steps) ≤ i.unit) :
    i.Contains (i.search tie (steps + 1) e).value := by
  induction steps generalizing e with
  | zero =>
    obtain ⟨c, hc⟩ := Option.isSome_iff_exists.1 (isSome_nearest? hpos tie (by simpa using hfine))
    rw [search, hc]
    exact contains_of_nearest? hc
  | succ steps ih =>
    rw [search]
    split
    · rename_i c hc
      exact contains_of_nearest? hc
    · refine ih ?_
      rwa [show e - 1 - (steps : ℤ) = e - ((steps + 1 : ℕ) : ℤ) by push_cast; ring]

/-- The last grid of the search is fine enough for every double. -/
theorem fine_of_canonical (h : i.Canonical) (hpos : 0 < i.mantissa) :
    (10 : ℚ) ^ (ceilingExponent i.mantissa i.exponent - 23) ≤ i.unit := by
  have hlog : i.mantissa.log2 < 53 := (Nat.log2_lt (by omega)).2 h.mantissa_lt
  have hleast : -1074 ≤ i.exponent := h.least
  have hgreatest := h.greatest
  unfold ceilingExponent unit
  apply ten_zpow_le_two_zpow
  · intro _
    omega
  · intro _
    omega

end Interval

/-- A shortest decimal lies in the interval of its double. -/
theorem contains_shortest (tie : Tie) {m : ℕ} {q : ℤ} (h : (Interval.mk m q).Canonical)
    (hm : m ≠ 0) : (Interval.mk m q).Contains (shortest tie m q).value := by
  have hfine := Interval.fine_of_canonical h (Nat.pos_of_ne_zero hm)
  have hsearch : (Interval.mk m q).Contains
      ((Interval.mk m q).search tie (23 + 1) (ceilingExponent m q)).value :=
    Interval.contains_search (Nat.pos_of_ne_zero hm) tie (by exact_mod_cast hfine)
  rw [shortest, if_neg hm]
  exact hsearch

/-- The shortest decimal of zero is zero. -/
theorem shortest_zero (tie : Tie) (q : ℤ) : (shortest tie 0 q).value = 0 := by
  simp [shortest, value]

/-- The shortest decimal of a positive double is positive. -/
theorem shortest_pos (tie : Tie) {m : ℕ} {q : ℤ} (h : (Interval.mk m q).Canonical) (hm : m ≠ 0) :
    0 < (shortest tie m q).value := by
  have hlower : 0 < (Interval.mk m q).lower := by
    have hle : 4 * m - 2 ≤ (Interval.mk m q).lower := (Interval.mk m q).le_lower
    omega
  refine lt_of_lt_of_le ?_ (contains_shortest tie h hm).lower_le
  exact mul_pos (by exact_mod_cast hlower) (Interval.unit_pos _)

/-- Different magnitudes have different shortest decimals. -/
theorem shortest_injective (tie : Tie) {m m' : ℕ} {q q' : ℤ} (h : (Interval.mk m q).Canonical)
    (h' : (Interval.mk m' q').Canonical)
    (he : (shortest tie m q).value = (shortest tie m' q').value) : m = m' ∧ q = q' := by
  -- a mantissa of zero stands with the least exponent
  have hzero {q : ℤ} (h : (Interval.mk 0 q).Canonical) : q = leastBinaryExponent := by
    have hle : leastBinaryExponent ≤ q := h.least
    by_contra hne
    have hnormal : 2 ^ 52 ≤ 0 := h.normal (show leastBinaryExponent < q by omega)
    omega
  by_cases hm : m = 0
  · subst hm
    by_cases hm' : m' = 0
    · subst hm'
      exact ⟨rfl, (hzero h).trans (hzero h').symm⟩
    · have hpos := shortest_pos tie h' hm'
      rw [← he, shortest_zero] at hpos
      exact absurd hpos (lt_irrefl 0)
  · by_cases hm' : m' = 0
    · subst hm'
      have hpos := shortest_pos tie h hm
      rw [he, shortest_zero] at hpos
      exact absurd hpos (lt_irrefl 0)
    · have hsame := Interval.eq_of_contains h h' (contains_shortest tie h hm)
        (he ▸ contains_shortest tie h' hm')
      exact Interval.mk.inj hsame

end Decimal

/-! ### The parts of a double -/

/-- A double is known by its bits. -/
theorem eq_of_toBits {x y : Float} (h : x.toBits = y.toBits) : x = y := by
  obtain ⟨⟨b, hb⟩⟩ := x
  obtain ⟨⟨c, hc⟩⟩ := y
  cases h
  rfl

open Float.Model (UnpackedFloat)

/-- The exponent field of a double. -/
theorem toNat_unpackExponent (bits : BitVec 64) :
    (@UnpackedFloat.unpackExponent .binary64 bits).toNat =
      bits.toNat / 2 ^ 52 % 2 ^ 11 := by
  unfold UnpackedFloat.unpackExponent
  rw [BitVec.toNat_cast, BitVec.extractLsb_toNat, Nat.shiftRight_eq_div_pow]
  rfl

/-- The exponent field of a finite double is not full. -/
theorem biased_lt_of_isFinite {x : Float} (h : x.isFinite = true) :
    x.toBits.toNat / 2 ^ 52 % 2 ^ 11 < 2047 := by
  -- a full exponent field means infinite or not a number
  have hne : @UnpackedFloat.unpackExponent .binary64 x.toBits.toBitVec ≠ -1#11 := by
    intro he
    have hnot : x.isFinite = false := by
      show UnpackedFloat.isFinite (UnpackedFloat.unpack .binary64 x.toBits.toBitVec) = false
      unfold UnpackedFloat.unpack
      dsimp only
      rw [if_pos he]
      split <;> rfl
    rw [h] at hnot
    cases hnot
  have hfield := toNat_unpackExponent x.toBits.toBitVec
  rw [UInt64.toNat_toBitVec] at hfield
  have hlt : x.toBits.toNat / 2 ^ 52 % 2 ^ 11 < 2048 := Nat.mod_lt _ (by norm_num)
  have hne' : x.toBits.toNat / 2 ^ 52 % 2 ^ 11 ≠ 2047 := by
    intro he
    apply hne
    apply BitVec.eq_of_toNat_eq
    rw [hfield, he]
    rfl
  omega

/-- A finite double is neither infinite nor NaN. -/
theorem isNaN_isInf_of_isFinite {x : Float} (h : x.isFinite = true) :
    x.isNaN = false ∧ x.isInf = false := by
  have hfinite : x.toModel.unpack.isFinite = true := h
  show x.toModel.unpack.isNaN = false ∧ x.toModel.unpack.isInf = false
  cases hparts : x.toModel.unpack with
  | infinity sign =>
    rw [hparts] at hfinite
    cases hfinite
  | notANumber =>
    rw [hparts] at hfinite
    cases hfinite
  | zero sign => exact ⟨rfl, rfl⟩
  | finite sign mantissa exponent hpos => exact ⟨rfl, rfl⟩

/-- A finite double has the mantissa and the exponent of one. -/
theorem canonical_binaryParts {x : Float} (h : x.isFinite = true) :
    (Decimal.Interval.mk (binaryParts x).2.1 (binaryParts x).2.2).Canonical := by
  have hbiased := biased_lt_of_isFinite h
  have hfraction : x.toBits.toNat % 2 ^ 52 < 2 ^ 52 := Nat.mod_lt _ (by norm_num)
  unfold binaryParts leastBinaryExponent
  simp only [Nat.pow_eq]
  split
  · constructor <;> simp only [leastBinaryExponent] <;> omega
  · constructor <;> simp only [leastBinaryExponent] <;> omega

/-- Sign, mantissa and exponent make the double. -/
theorem binaryParts_injective {x y : Float} (h : binaryParts x = binaryParts y) : x = y := by
  apply eq_of_toBits
  apply UInt64.toNat.inj
  have hx := x.toBits.toNat_lt
  have hy := y.toBits.toNat_lt
  unfold binaryParts leastBinaryExponent at h
  simp only [Nat.pow_eq] at h
  -- the bits are the sign, the exponent field and the fraction in order
  split at h <;> split at h <;> simp only [Prod.mk.injEq, beq_eq_beq] at h <;> omega

end BatchFlow
