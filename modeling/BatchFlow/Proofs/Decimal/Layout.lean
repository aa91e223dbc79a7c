import BatchFlow.Decimal.Layout
import BatchFlow.Proofs.Decimal.Shortest
import Mathlib.Data.List.TakeWhile

namespace BatchFlow

/-!
# The text of a double determines the double

What is written in JSON documents can be read as an exact number: digits with a point, and perhaps
an exponent. This number is the decimal that was written, wherever the point stands, so two doubles
with the same text have the same sign and the same shortest decimal.

* `Decimal.numberOf` — the exact number that an unsigned text is.
* `Decimal.Layout.numberOf_writeDecimal` — the text of a decimal is the decimal.
* `Decimal.Layout.write_injective` — different finite doubles have different texts.
* `Decimal.Layout.writeDecimal_chars` — which characters are in such a text.
-/

namespace Decimal

/-- Digits with a point, as a number. -/
def mantissaOf (text : List Char) : ℚ :=
  let whole := text.takeWhile (· ≠ '.')
  let fraction := (text.dropWhile (· ≠ '.')).drop 1
  Nat.ofDigitChars 10 (whole ++ fraction) 0 * 10 ^ (-(fraction.length : ℤ))

/-- What stands behind the mark of an exponent, as a number. -/
def exponentOf : List Char → ℤ
  | '-' :: digits => -(Nat.ofDigitChars 10 digits 0 : ℤ)
  | '+' :: digits => Nat.ofDigitChars 10 digits 0
  | _ => 0

/-- The number that an unsigned text is. -/
def numberOf (text : List Char) : ℚ :=
  mantissaOf (text.takeWhile (· ≠ 'e')) *
    10 ^ exponentOf ((text.dropWhile (· ≠ 'e')).drop 1)

/-- Digits stand before a mark. -/
theorem takeWhile_mark {mark : Char} {text : List Char} (h : ∀ c ∈ text, c ≠ mark)
    (rest : List Char) :
    (text ++ mark :: rest).takeWhile (· ≠ mark) = text ∧
      (text ++ mark :: rest).dropWhile (· ≠ mark) = mark :: rest := by
  have hall : ∀ c ∈ text, decide (c ≠ mark) = true := fun c hc => decide_eq_true (h c hc)
  rw [List.takeWhile_append_of_pos hall, List.dropWhile_append_of_pos hall]
  simp

/-- Without a mark the whole text stands before it. -/
theorem takeWhile_unmarked {mark : Char} {text : List Char} (h : ∀ c ∈ text, c ≠ mark) :
    text.takeWhile (· ≠ mark) = text ∧ text.dropWhile (· ≠ mark) = [] := by
  have hall : ∀ c ∈ text, decide (c ≠ mark) = true := fun c hc => decide_eq_true (h c hc)
  exact ⟨List.takeWhile_eq_self_iff.2 hall, List.dropWhile_eq_nil_iff.2 hall⟩

/-- A digit is no mark. -/
theorem ne_of_isDigit {c mark : Char} (h : c.isDigit = true) (hmark : mark.isDigit = false) :
    c ≠ mark := by
  rintro rfl
  rw [h] at hmark
  cases hmark

/-- A point shifts the digits by the length of what stands behind it. -/
theorem mantissaOf_point {whole fraction : List Char} (h : ∀ c ∈ whole, c.isDigit = true) :
    mantissaOf (whole ++ '.' :: fraction) =
      Nat.ofDigitChars 10 (whole ++ fraction) 0 * 10 ^ (-(fraction.length : ℤ)) := by
  have hwhole : ∀ c ∈ whole, c ≠ '.' := fun c hc => ne_of_isDigit (h c hc) rfl
  obtain ⟨htake, hdrop⟩ := takeWhile_mark hwhole fraction
  rw [mantissaOf, htake, hdrop]
  rfl

/-- Digits without a point are a natural number. -/
theorem mantissaOf_digits {digits : List Char} (h : ∀ c ∈ digits, c.isDigit = true) :
    mantissaOf digits = Nat.ofDigitChars 10 digits 0 := by
  have hdigits : ∀ c ∈ digits, c ≠ '.' := fun c hc => ne_of_isDigit (h c hc) rfl
  obtain ⟨htake, hdrop⟩ := takeWhile_unmarked hdigits
  rw [mantissaOf, htake, hdrop]
  simp

/-- A text without an exponent is its mantissa. -/
theorem numberOf_unmarked {text : List Char} (h : ∀ c ∈ text, c ≠ 'e') :
    numberOf text = mantissaOf text := by
  obtain ⟨htake, hdrop⟩ := takeWhile_unmarked h
  rw [numberOf, htake, hdrop]
  simp [exponentOf]

/-- The mark for the exponent parts a text in two. -/
theorem numberOf_marked {text rest : List Char} (h : ∀ c ∈ text, c ≠ 'e') :
    numberOf (text ++ 'e' :: rest) = mantissaOf text * 10 ^ exponentOf rest := by
  obtain ⟨htake, hdrop⟩ := takeWhile_mark h rest
  rw [numberOf, htake, hdrop]
  rfl

namespace Layout

/-! ### Positional writing -/

/-- The digits before and behind a point, which are those of a decimal and zeros. -/
structure Parts (digits : List Char) (exponent : ℤ) (whole fraction : List Char) : Prop where
  whole_ne_nil : whole ≠ []
  isDigit : ∀ c ∈ whole ++ fraction, c.isDigit = true
  number : (Nat.ofDigitChars 10 (whole ++ fraction) 0 : ℚ) * 10 ^ (-(fraction.length : ℤ)) =
    Nat.ofDigitChars 10 digits 0 * 10 ^ exponent

/-- Zeros are digits. -/
theorem isDigit_zeros (n : Nat) : ∀ c ∈ List.replicate n '0', c.isDigit = true := by
  intro c hc
  rw [List.eq_of_mem_replicate hc]
  rfl

section Point

variable {digits : List Char} (hdigits : ∀ c ∈ digits, c.isDigit = true)
include hdigits

/-- Zeros stand between the digits and the point, and one behind it. -/
theorem parts_of_whole (hne : digits ≠ []) (n : Nat) :
    Parts digits n (digits ++ List.replicate n '0') ['0'] where
  whole_ne_nil := by simp [hne]
  isDigit := by
    simp only [List.forall_mem_append]
    exact ⟨⟨hdigits, isDigit_zeros n⟩, isDigit_zeros 1⟩
  number := by
    rw [show ['0'] = List.replicate 1 '0' from rfl, Nat.ofDigitChars_append,
      Nat.ofDigitChars_append, Nat.ofDigitChars_replicate_zero, Nat.ofDigitChars_replicate_zero]
    push_cast
    rw [List.length_singleton, zpow_natCast, Nat.cast_one, zpow_neg, zpow_one]
    ring

/-- The point stands inside the digits. -/
theorem parts_of_within (hne : digits ≠ []) {n : Nat} (hpos : 0 < n) {exponent : ℤ}
    (hn : (digits.length : ℤ) + exponent = n) (hneg : exponent < 0) :
    Parts digits exponent (digits.take n) (digits.drop n) where
  whole_ne_nil := by
    intro hnil
    rcases List.take_eq_nil_iff.1 hnil with hnil | hnil
    · omega
    · exact hne hnil
  isDigit := by rwa [List.take_append_drop]
  number := by
    have hlength : ((digits.drop n).length : ℤ) = -exponent := by
      rw [List.length_drop]
      omega
    rw [List.take_append_drop, hlength, neg_neg]

/-- A zero stands before the point, and more of them between the point and the digits. -/
theorem parts_of_fraction {n : Nat} {exponent : ℤ} (hn : -((digits.length : ℤ) + exponent) = n) :
    Parts digits exponent ['0'] (List.replicate n '0' ++ digits) where
  whole_ne_nil := List.cons_ne_nil _ _
  isDigit := by
    simp only [List.forall_mem_append]
    exact ⟨isDigit_zeros 1, isDigit_zeros n, hdigits⟩
  number := by
    have hlength : ((List.replicate n '0' ++ digits).length : ℤ) = -exponent := by
      rw [List.length_append, List.length_replicate]
      omega
    rw [hlength, neg_neg, show ['0'] = List.replicate 1 '0' from rfl, Nat.ofDigitChars_append,
      Nat.ofDigitChars_append, Nat.ofDigitChars_replicate_zero, Nat.ofDigitChars_replicate_zero]
    simp

/-- In positional writing a point stands somewhere among the digits, to which zeros have been added
    so that the number is the decimal. -/
theorem point_eq (hne : digits ≠ []) (exponent : ℤ) :
    ∃ whole fraction, json.point digits exponent = whole ++ '.' :: fraction ∧
      Parts digits exponent whole fraction := by
  -- the point stands behind all digits, between them, or before all of them
  unfold point
  split
  · rename_i hexponent
    obtain ⟨n, rfl⟩ := Int.eq_ofNat_of_zero_le hexponent
    refine ⟨digits ++ List.replicate n '0', ['0'], ?_, parts_of_whole hdigits hne n⟩
    simp [json]
  · rename_i hexponent
    dsimp only
    split
    · rename_i hwhole
      obtain ⟨n, hn⟩ := Int.eq_ofNat_of_zero_le hwhole.le
      rw [hn, Int.toNat_natCast]
      exact ⟨_, _, rfl, parts_of_within hdigits hne (by omega) hn (by omega)⟩
    · rename_i hwhole
      obtain ⟨n, hn⟩ := Int.eq_ofNat_of_zero_le (by omega : 0 ≤ -((digits.length : ℤ) + exponent))
      rw [hn, Int.toNat_natCast]
      exact ⟨_, _, rfl, parts_of_fraction hdigits hn⟩

end Point

/-- A number written with a point, or with zeros for it, is read back. -/
theorem numberOf_point {digits : List Char} (hne : digits ≠ [])
    (hdigits : ∀ c ∈ digits, c.isDigit = true) (exponent : ℤ) :
    numberOf (json.point digits exponent) = Nat.ofDigitChars 10 digits 0 * 10 ^ exponent := by
  obtain ⟨whole, fraction, htext, -, hall, hnumber⟩ := point_eq hdigits hne exponent
  have hunmarked : ∀ c ∈ whole ++ '.' :: fraction, c ≠ 'e' := by
    intro c hc
    rcases List.mem_append.1 hc with hc | hc
    · exact ne_of_isDigit (hall c (List.mem_append_left _ hc)) rfl
    · rcases List.mem_cons.1 hc with rfl | hc
      · decide
      · exact ne_of_isDigit (hall c (List.mem_append_right _ hc)) rfl
  rw [htext, numberOf_unmarked hunmarked,
    mantissaOf_point fun c hc => hall c (List.mem_append_left _ hc), hnumber]

/-! ### Writing with an exponent -/

/-- The exponent is read as it was written. -/
theorem exponentOf_sign (leading : ℤ) :
    exponentOf ((if leading < 0 then '-' else '+') :: (toString leading.natAbs).toList) =
      leading := by
  have hdigits : Nat.ofDigitChars 10 (toString leading.natAbs).toList 0 = leading.natAbs := by
    rw [Nat.toString_eq_ofList_toDigits, String.toList_ofList]
    exact Nat.ofDigitChars_ten_toDigits
  split
  · rw [exponentOf, hdigits]
    omega
  · rw [exponentOf, hdigits]
    omega

/-- With an exponent the point stands behind the first digit, if there are more. -/
theorem mantissaOf_scientific {first : Char} {fraction : List Char}
    (hdigits : ∀ c ∈ first :: fraction, c.isDigit = true) :
    mantissaOf ([first] ++ if fraction.isEmpty then [] else '.' :: fraction) =
      Nat.ofDigitChars 10 (first :: fraction) 0 * 10 ^ (-(fraction.length : ℤ)) := by
  have hfirst : ∀ c ∈ [first], c.isDigit = true := fun c hc =>
    hdigits c (List.mem_cons.2 (Or.inl (List.mem_singleton.1 hc)))
  cases fraction with
  | nil => simpa using mantissaOf_digits hfirst
  | cons c rest => exact mantissaOf_point hfirst

/-- A number written with an exponent is read back. -/
theorem numberOf_scientific {first : Char} {fraction : List Char}
    (hdigits : ∀ c ∈ first :: fraction, c.isDigit = true) (leading : ℤ) :
    numberOf (scientific (first :: fraction) leading) =
      Nat.ofDigitChars 10 (first :: fraction) 0 * 10 ^ (leading - fraction.length) := by
  -- the mark cannot occur before the exponent
  have hunmarked : ∀ c ∈ [first] ++ (if fraction.isEmpty then [] else '.' :: fraction),
      c ≠ 'e' := by
    intro c hc
    rcases List.mem_append.1 hc with hc | hc
    · exact ne_of_isDigit (hdigits c (List.mem_cons.2 (Or.inl (List.mem_singleton.1 hc)))) rfl
    · split at hc
      · cases hc
      · rcases List.mem_cons.1 hc with rfl | hc
        · decide
        · exact ne_of_isDigit (hdigits c (List.mem_cons_of_mem _ hc)) rfl
  have htext : scientific (first :: fraction) leading =
      ([first] ++ if fraction.isEmpty then [] else '.' :: fraction) ++
        'e' :: ((if leading < 0 then '-' else '+') :: (toString leading.natAbs).toList) := rfl
  rw [htext, numberOf_marked hunmarked, mantissaOf_scientific hdigits, exponentOf_sign, mul_assoc,
    ← zpow_add₀ (by norm_num)]
  congr 2
  omega

/-! ### All decimals -/

/-- The digits of a natural number. -/
theorem digits_eq (n : ℕ) : (toString n).toList ≠ [] ∧
    (∀ c ∈ (toString n).toList, c.isDigit = true) ∧
    Nat.ofDigitChars 10 (toString n).toList 0 = n := by
  rw [Nat.toString_eq_ofList_toDigits, String.toList_ofList]
  exact ⟨Nat.toDigits_ne_nil, fun c hc => Nat.isDigit_of_mem_toDigits (by norm_num) le_rfl hc,
    Nat.ofDigitChars_ten_toDigits⟩

/-- A decimal is written in one of two ways. -/
theorem writeDecimal_cases (d : Decimal) :
    json.writeDecimal d = json.point (toString d.significand).toList d.exponent ∨
    json.writeDecimal d = scientific (toString d.significand).toList
      (d.exponent + (toString d.significand).toList.length - 1) := by
  unfold writeDecimal
  dsimp only [json]
  split
  · exact Or.inl rfl
  · exact Or.inr rfl

/-- The text of a decimal is the decimal. -/
theorem numberOf_writeDecimal (d : Decimal) : numberOf (json.writeDecimal d) = d.value := by
  obtain ⟨hne, hdigits, hvalue⟩ := digits_eq d.significand
  have hcases := writeDecimal_cases d
  rw [value, ← hvalue]
  generalize (toString d.significand).toList = digits at hne hdigits hcases
  rcases hcases with htext | htext
  · rw [htext, numberOf_point hne hdigits]
  · obtain ⟨first, fraction, rfl⟩ := List.exists_cons_of_ne_nil hne
    rw [htext, numberOf_scientific hdigits]
    congr 2
    rw [List.length_cons]
    push_cast
    ring

/-- A text begins with a digit and has a point or a mark for the exponent besides digits. -/
theorem writeDecimal_chars (d : Decimal) :
    (∃ first rest, json.writeDecimal d = first :: rest ∧ first.isDigit = true) ∧
      ('.' ∈ json.writeDecimal d ∨ 'e' ∈ json.writeDecimal d) ∧
      ∀ c ∈ json.writeDecimal d, c.isDigit = true ∨ c ∈ ['.', 'e', '+', '-'] := by
  obtain ⟨hne, hdigits, -⟩ := digits_eq d.significand
  have hcases := writeDecimal_cases d
  generalize (toString d.significand).toList = digits at hne hdigits hcases
  -- either layout starts with a digit and has a mark in it
  rcases hcases with htext | htext
  · obtain ⟨whole, fraction, hpoint, hwhole, hall, -⟩ := point_eq hdigits hne d.exponent
    rw [htext, hpoint]
    refine ⟨?_, by simp, fun c hc => ?_⟩
    · obtain ⟨first, rest, rfl⟩ := List.exists_cons_of_ne_nil hwhole
      exact ⟨first, _, rfl, hall first List.mem_cons_self⟩
    · rcases List.mem_append.1 hc with hc | hc
      · exact Or.inl (hall c (List.mem_append_left _ hc))
      · rcases List.mem_cons.1 hc with rfl | hc
        · exact Or.inr (by decide)
        · exact Or.inl (hall c (List.mem_append_right _ hc))
  · obtain ⟨first, fraction, rfl⟩ := List.exists_cons_of_ne_nil hne
    rw [htext]
    refine ⟨⟨first, _, rfl, hdigits first List.mem_cons_self⟩, Or.inr (by simp [scientific]),
      fun c hc => ?_⟩
    have hexponent := (digits_eq (d.exponent + (first :: fraction).length - 1).natAbs).2.1
    rw [scientific] at hc
    simp only [List.drop_one, List.tail_cons, List.take_succ_cons, List.take_zero, List.mem_append,
      List.mem_cons, List.not_mem_nil, or_false] at hc
    rcases hc with (rfl | hc) | rfl | rfl | hc
    · exact Or.inl (hdigits _ List.mem_cons_self)
    · split at hc
      · cases hc
      · rcases List.mem_cons.1 hc with rfl | hc
        · exact Or.inr (by decide)
        · exact Or.inl (hdigits c (List.mem_cons_of_mem _ hc))
    · exact Or.inr (by decide)
    · split
      · exact Or.inr (by decide)
      · exact Or.inr (by decide)
    · exact Or.inl (hexponent c hc)

/-! ### Doubles -/

/-- A finite double is written as its shortest decimal behind its sign. -/
theorem write_eq {x : Float} (h : x.isFinite = true) : (json.write x).toList =
    (if (binaryParts x).1 then ['-'] else []) ++
      json.writeDecimal (shortest .toEven (binaryParts x).2.1 (binaryParts x).2.2) := by
  obtain ⟨hnan, hinf⟩ := isNaN_isInf_of_isFinite h
  unfold write
  rw [hnan, hinf, if_neg Bool.false_ne_true]
  dsimp only
  rw [String.toList_ofList, if_neg Bool.false_ne_true]
  cases (binaryParts x).1 <;> rfl

/-- Different finite doubles have different texts. -/
theorem write_injective {x y : Float} (hx : x.isFinite = true) (hy : y.isFinite = true)
    (h : json.write x = json.write y) : x = y := by
  have htext := congrArg String.toList h
  rw [write_eq hx, write_eq hy] at htext
  obtain ⟨⟨first, rest, hfirst, hdigit⟩, -, -⟩ :=
    writeDecimal_chars (shortest .toEven (binaryParts x).2.1 (binaryParts x).2.2)
  obtain ⟨⟨first', rest', hfirst', hdigit'⟩, -, -⟩ :=
    writeDecimal_chars (shortest .toEven (binaryParts y).2.1 (binaryParts y).2.2)
  have hparts : (binaryParts x).1 = (binaryParts y).1 ∧
      json.writeDecimal (shortest .toEven (binaryParts x).2.1 (binaryParts x).2.2) =
        json.writeDecimal (shortest .toEven (binaryParts y).2.1 (binaryParts y).2.2) := by
    -- a sign is no digit
    have hminus : ('-' : Char).isDigit = false := rfl
    rw [hfirst, hfirst'] at htext ⊢
    cases hs : (binaryParts x).1 <;> cases hs' : (binaryParts y).1 <;> rw [hs, hs'] at htext
    · exact ⟨rfl, htext⟩
    · exact absurd (List.cons.inj htext).1 (ne_of_isDigit hdigit hminus)
    · exact absurd (List.cons.inj htext).1.symm (ne_of_isDigit hdigit' hminus)
    · exact ⟨rfl, (List.cons.inj htext).2⟩
  obtain ⟨hsign, hdecimal⟩ := hparts
  have hvalue := congrArg numberOf hdecimal
  rw [numberOf_writeDecimal, numberOf_writeDecimal] at hvalue
  obtain ⟨hmantissa, hexponent⟩ :=
    shortest_injective .toEven (canonical_binaryParts hx) (canonical_binaryParts hy) hvalue
  exact binaryParts_injective (Prod.ext hsign (Prod.ext hmantissa hexponent))

end Layout

end Decimal

end BatchFlow
