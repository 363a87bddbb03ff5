import Mathlib.Data.List.TakeDrop
import Mathlib.Tactic.Ring
import CommodoreBasic.Numeric.Shortest
import CommodoreBasic.Proofs.Lexical.Rule

/-!
# Numbers read back from their text

A magnitude is its significand times a power of two, in units of the least positive number. A
quotient of exactly that value is rounded to it (`Magnitude.ofRatio_of_exact`), so the exact decimal
expansion reads back, and so does whatever `Magnitude.shorten` takes in its place
(`Magnitude.readsFrom_shorten`). What is left is to see that the positional notation of digits
denotes them (`positional_eq_numeral`) and is read so (`Magnitude.ofNumeral_numeral`).

`Binary64.ofText_text` puts this together, and `Binary64.ofText_numeral` says what numerals without
a sign are read as.
-/

namespace CommodoreBasic

/-! ## Rounding -/

theorem roundQuotient_mul_left {den : Nat} (positive : 0 < den) (n : Nat) :
    roundQuotient (den * n) den = n := by
  have quotient : den * n / den = n := Nat.mul_div_cancel_left n positive
  have remainder : den * n % den = 0 := Nat.mul_mod_right den n
  simp only [roundQuotient]
  rw [quotient, remainder, Nat.mul_zero, if_pos positive]

/-- A quotient may be reduced before it is rounded. -/
theorem roundQuotient_mul_mul {c : Nat} (positive : 0 < c) (num den : Nat) :
    roundQuotient (num * c) (den * c) = roundQuotient num den := by
  have below : 2 * (num % den * c) < den * c ↔ 2 * (num % den) < den := by
    rw [← Nat.mul_assoc]
    exact Nat.mul_lt_mul_right positive
  have above : den * c < 2 * (num % den * c) ↔ den < 2 * (num % den) := by
    rw [← Nat.mul_assoc]
    exact Nat.mul_lt_mul_right positive
  simp only [roundQuotient]
  rw [Nat.mul_div_mul_right num den positive, Nat.mul_mod_mul_right]
  simp only [below, above]

namespace Magnitude

theorem ofRatio_mul_mul {c : Nat} (positive : 0 < c) (num den : Nat) :
    ofRatio (num * c) (den * c) = ofRatio num den := by
  have units : (num * c) <<< 1074 = num <<< 1074 * c := by
    rw [Nat.shiftLeft_eq, Nat.shiftLeft_eq, Nat.mul_right_comm]
  have shifted : ∀ k, (den * c) <<< k = den <<< k * c := by
    intro k
    rw [Nat.shiftLeft_eq, Nat.shiftLeft_eq, Nat.mul_right_comm]
  simp only [ofRatio]
  rw [units, Nat.mul_div_mul_right _ _ positive, shifted, roundQuotient_mul_mul positive]

theorem fractionCount_pos : 0 < fractionCount := by decide

/-- The ordinal is put together from scale and significand. -/
theorem ordinal_eq (x : Magnitude) : x.scale * fractionCount + x.significand = x.ordinal := by
  unfold scale significand
  split
  · next small => rw [Nat.div_eq_of_lt small, Nat.zero_sub, Nat.zero_mul, Nat.zero_add]
  · next large =>
    have parts := Nat.div_add_mod x.ordinal fractionCount
    have positive := Nat.div_pos (Nat.le_of_not_lt large) fractionCount_pos
    generalize x.ordinal / fractionCount = q at *
    obtain ⟨q, rfl⟩ : ∃ n, q = n + 1 := ⟨q - 1, by omega⟩
    rw [Nat.mul_succ] at parts
    rw [Nat.add_sub_cancel, Nat.mul_comm]
    omega

theorem significand_lt (x : Magnitude) : x.significand < 2 ^ 53 := by
  have size : fractionCount = 2 ^ 52 := rfl
  have remainder : x.ordinal % fractionCount < fractionCount := Nat.mod_lt _ (by decide)
  unfold significand
  split
  · omega
  · omega

/-- Only the least magnitudes have no leading bit. -/
theorem le_significand {x : Magnitude} (scaled : x.scale ≠ 0) : 2 ^ 52 ≤ x.significand := by
  have size : fractionCount = 2 ^ 52 := rfl
  unfold scale at scaled
  unfold significand
  split
  · next small =>
    rw [Nat.div_eq_of_lt small] at scaled
    contradiction
  · omega

/-- The scale is found again in the size of the value. -/
theorem log2_value (x : Magnitude) : (x.significand * 2 ^ x.scale).log2 - 52 = x.scale := by
  by_cases scaled : x.scale = 0
  · rw [scaled, Nat.pow_zero, Nat.mul_one]
    by_cases zero : x.significand = 0
    · rw [zero]
      rfl
    · have bound := (Nat.log2_lt zero).mpr x.significand_lt
      omega
  · have leading := le_significand scaled
    have nonzero : x.significand ≠ 0 := by omega
    have size : (x.significand * 2 ^ x.scale).log2 = 52 + x.scale := by
      rw [Nat.log2_eq_iff (Nat.mul_ne_zero nonzero (Nat.pow_pos (by decide)).ne')]
      constructor
      · rw [Nat.pow_add]
        exact Nat.mul_le_mul_right _ leading
      · rw [show 52 + x.scale + 1 = 53 + x.scale by omega, Nat.pow_add]
        exact (Nat.mul_lt_mul_right (Nat.pow_pos (by decide))).mpr x.significand_lt
    omega

/-- A quotient that is a magnitude exactly is read as this magnitude. -/
theorem ofRatio_of_exact {x : Magnitude} {num den : Nat} (positive : 0 < den)
    (exact : num <<< 1074 = den * (x.significand * 2 ^ x.scale)) : ofRatio num den = x := by
  have regroup : den * (x.significand * 2 ^ x.scale) = den <<< x.scale * x.significand := by
    rw [Nat.shiftLeft_eq]
    ring
  have shifted : 0 < den <<< x.scale := by
    rw [Nat.shiftLeft_eq]
    exact Nat.mul_pos positive (Nat.pow_pos (by decide))
  -- the rounding finds the scale again, and then a quotient that it need not round
  simp only [ofRatio]
  rw [exact, Nat.mul_div_cancel_left _ positive, log2_value, regroup,
    roundQuotient_mul_left shifted, ordinal_eq]
  have within := x.ordinal_le
  cases x
  simp only [ofOrdinal, mk.injEq]
  exact Nat.min_eq_left within

/-- The expansion is exact: shifting by the unit gives the value, in as many decimal places. -/
theorem expansion_exact (significand scale unit : Nat) :
    (significand <<< (scale - unit) * 5 ^ (unit - scale)) <<< unit =
      10 ^ (unit - scale) * (significand * 2 ^ scale) := by
  -- the powers of two on both sides add up to the same one
  have powers : 2 ^ (scale - unit) * 2 ^ unit = 2 ^ (unit - scale) * 2 ^ scale := by
    rw [← Nat.pow_add, ← Nat.pow_add]
    apply congrArg
    omega
  rw [Nat.shiftLeft_eq, Nat.shiftLeft_eq, show 10 = 2 * 5 from rfl, Nat.mul_pow]
  calc significand * 2 ^ (scale - unit) * 5 ^ (unit - scale) * 2 ^ unit
      = significand * 5 ^ (unit - scale) * (2 ^ (scale - unit) * 2 ^ unit) := by ring
    _ = significand * 5 ^ (unit - scale) * (2 ^ (unit - scale) * 2 ^ scale) := by rw [powers]
    _ = 2 ^ (unit - scale) * 5 ^ (unit - scale) * (significand * 2 ^ scale) := by ring

theorem readsFrom_iff (x : Magnitude) (digits : Nat) :
    x.readsFrom digits = true ↔ ofRatio digits (Nat.pow 10 x.places) = x := by
  unfold readsFrom
  exact decide_eq_true_iff

/-- The exact expansion reads back. -/
theorem readsFrom_expansion (x : Magnitude) : x.readsFrom x.expansion = true := by
  have exact : x.expansion <<< 1074 = Nat.pow 10 x.places * (x.significand * 2 ^ x.scale) := by
    rw [expansion, places, Nat.pow_eq, Nat.pow_eq]
    exact expansion_exact x.significand x.scale 1074
  rw [readsFrom_iff]
  exact ofRatio_of_exact (Nat.pow_pos (by decide)) exact

theorem nearer_eq_some {exact below above digits : Nat} {lower upper : Bool}
    (h : nearer exact below above lower upper = some digits) :
    digits = below ∧ lower = true ∨ digits = above ∧ upper = true := by
  unfold nearer at h
  split at h
  · obtain rfl := Option.some.inj h
    split
    · exact Or.inl ⟨rfl, rfl⟩
    · exact Or.inr ⟨rfl, rfl⟩
  · exact Or.inl ⟨(Option.some.inj h).symm, rfl⟩
  · exact Or.inr ⟨(Option.some.inj h).symm, rfl⟩
  · contradiction

theorem readsFrom_of_neighbour? {x : Magnitude} {step digits : Nat}
    (h : x.neighbour? step = some digits) : x.readsFrom digits = true := by
  unfold neighbour? at h
  rcases nearer_eq_some h with ⟨rfl, reads⟩ | ⟨rfl, reads⟩
  · exact reads
  · exact reads

/-- Whatever is written in place of the exact expansion reads back. -/
theorem readsFrom_shorten (x : Magnitude) (n : Nat) : x.readsFrom (x.shorten n) = true := by
  induction n with
  | zero => exact readsFrom_expansion x
  | succ n ih =>
    rw [shorten]
    cases shorter : x.neighbour? (Nat.pow 10 (n + 1)) with
    | none => exact ih
    | some digits => exact readsFrom_of_neighbour? shorter

theorem ofRatio_shortest (x : Magnitude) : ofRatio x.shortest (10 ^ x.places) = x :=
  (readsFrom_iff x _).mp (readsFrom_shorten x _)

end Magnitude

/-! ## Positional notation -/

/-- Zeros at the end of a text, apart from the rest. -/
theorem split_final_zeros (s : Text) :
    ∃ zeros, s = (s.reverse.dropWhile (· = '0')).reverse ++ List.replicate zeros '0' := by
  have parts := List.takeWhile_append_dropWhile (p := fun c => decide (c = '0')) (l := s.reverse)
  have same : s.reverse.takeWhile (· = '0') =
      List.replicate (s.reverse.takeWhile (· = '0')).length '0' := by
    rw [List.eq_replicate_iff]
    refine ⟨rfl, ?_⟩
    intro c hc
    exact of_decide_eq_true (List.all_eq_true.mp List.all_takeWhile c hc)
  refine ⟨(s.reverse.takeWhile (· = '0')).length, ?_⟩
  rw [← List.reverse_replicate, ← same, ← List.reverse_append, parts, List.reverse_reverse]

theorem decimal_injective : Function.Injective decimal := by
  intro n m same
  rw [← ofDigitChars_decimal n, same, ofDigitChars_decimal m]

/-- The value of digits that are cut in two at the point, the fraction padded to its places. -/
theorem ofDigitChars_padded {digits places : Nat}
    (fits : (decimal (digits % 10 ^ places)).length ≤ places) :
    Nat.ofDigitChars 10 (List.replicate (places - (decimal (digits % 10 ^ places)).length) '0' ++
      decimal (digits % 10 ^ places)) (digits / 10 ^ places) = digits := by
  have fraction : Nat.ofDigitChars 10 (decimal (digits % 10 ^ places)) 0 = digits % 10 ^ places :=
    ofDigitChars_decimal _
  rw [Nat.ofDigitChars_append, Nat.ofDigitChars_replicate_zero,
    Nat.ofDigitChars_eq_ofDigitChars_zero, fraction, ← Nat.mul_assoc, ← Nat.pow_add,
    Nat.add_sub_cancel' fits]
  exact Nat.div_add_mod digits (10 ^ places)

/-- Positional notation is a numeral that denotes its digits over the power of ten. -/
theorem positional_eq_numeral (digits places : Nat) :
    ∃ fraction : Text,
      positional digits places = numeral (decimal (digits / 10 ^ places)) fraction ∧
      (∀ c ∈ fraction, c.isDigit = true) ∧
      ∃ zeros, places = fraction.length + zeros ∧
        Nat.ofDigitChars 10 (decimal (digits / 10 ^ places) ++ fraction) 0 * 10 ^ zeros =
          digits := by
  let padded := List.replicate (places - (decimal (digits % 10 ^ places)).length) '0' ++
    decimal (digits % 10 ^ places)
  let kept := (padded.reverse.dropWhile (· = '0')).reverse
  have notation_eq : positional digits places = numeral (decimal (digits / 10 ^ places)) kept := by
    show _ ++ (if kept.isEmpty = true then [] else '.' :: kept) = _
    simp only [List.isEmpty_iff]
    rfl
  obtain ⟨zeros, split⟩ := split_final_zeros padded
  have split : padded = kept ++ List.replicate zeros '0' := split
  refine ⟨kept, notation_eq, ?_, ?_⟩
  · intro c hc
    have member : c ∈ padded := split ▸ List.mem_append_left _ hc
    rcases List.mem_append.mp member with h | h
    · rw [List.eq_of_mem_replicate h]
      rfl
    · exact isDigit_of_mem_decimal c h
  · cases places with
    | zero =>
      -- the fraction of a whole number is a single zero, which is left out
      have nothing : kept = [] := by
        show ((List.replicate (0 - (decimal (digits % 1)).length) '0' ++
          decimal (digits % 1)).reverse.dropWhile _).reverse = []
        rw [Nat.mod_one]
        rfl
      refine ⟨0, by rw [nothing]; rfl, ?_⟩
      rw [nothing, List.append_nil, ofDigitChars_decimal, Nat.pow_zero, Nat.div_one, Nat.mul_one]
    | succ places =>
      have fits : (decimal (digits % 10 ^ (places + 1))).length ≤ places + 1 :=
        (Nat.length_toDigits_le_iff (by decide) (Nat.succ_pos places)).mpr
          (Nat.mod_lt _ (Nat.pow_pos (by decide)))
      have size : padded.length = places + 1 := by
        rw [List.length_append, List.length_replicate]
        omega
      have value := ofDigitChars_padded fits
      rw [show List.replicate _ '0' ++ _ = kept ++ List.replicate zeros '0' from split,
        Nat.ofDigitChars_append, Nat.ofDigitChars_replicate_zero] at value
      refine ⟨zeros, ?_, ?_⟩
      · rw [← size, split, List.length_append, List.length_replicate]
      · rw [Nat.ofDigitChars_append, ofDigitChars_decimal, Nat.mul_comm]
        exact value

namespace Magnitude

/-- An exponent below zero divides by a power of ten. -/
theorem ofScaled_neg (digits k : Nat) :
    ofScaled digits (0 - (k : Int)) = ofRatio digits (10 ^ k) := by
  cases k with
  | zero =>
    show ofRatio (digits * 1) 1 = _
    rw [Nat.mul_one, Nat.pow_zero]
  | succ k =>
    rw [Int.zero_sub, show -((k + 1 : Nat) : Int) = Int.negSucc k from rfl, ofScaled, Nat.pow_eq]

theorem span_of_stops {accepts : Char → Bool} {s rest : Text}
    (inside : ∀ c ∈ s, accepts c = true) (stop : Text.Stops accepts rest) :
    (s ++ rest).span accepts = (s, rest) := by
  have taken := Text.takeWhile_append_of_stops inside stop
  have parts := List.takeWhile_append_dropWhile (p := accepts) (l := s ++ rest)
  rw [taken] at parts
  rw [List.span_eq_takeWhile_dropWhile, taken, List.append_cancel_left parts]

/-- A numeral without an exponent denotes its digits over a power of ten. -/
theorem ofNumeral_numeral {whole fraction : Text} (wholeDigits : ∀ c ∈ whole, c.isDigit = true)
    (fractionDigits : ∀ c ∈ fraction, c.isDigit = true) (nonempty : whole ++ fraction ≠ []) :
    ofNumeral (numeral whole fraction) =
      some (ofRatio (Nat.ofDigitChars 10 (whole ++ fraction) 0) (10 ^ fraction.length)) := by
  have digits : (whole ++ fraction).isEmpty = false := by
    rw [Bool.eq_false_iff, ne_eq, List.isEmpty_iff]
    exact nonempty
  let point : Text := if fraction = [] then [] else '.' :: fraction
  have ends : Text.Stops Char.isDigit point := by
    show Text.Stops Char.isDigit (if fraction = [] then [] else '.' :: fraction)
    split
    · exact Text.stops_nil _
    · exact Text.stops_cons rfl
  have parts : splitFraction point = (fraction, []) := by
    show splitFraction (if fraction = [] then [] else '.' :: fraction) = _
    split
    · next empty =>
      rw [empty]
      rfl
    · have all := span_of_stops fractionDigits (Text.stops_nil Char.isDigit)
      rwa [List.append_nil] at all
  have cut : (numeral whole fraction).span Char.isDigit = (whole, point) :=
    span_of_stops wholeDigits ends
  unfold ofNumeral
  rw [cut]
  simp only [parts, digits, Bool.false_eq_true, if_false]
  show some (ofScaled _ (0 - (fraction.length : Int))) = _
  rw [ofScaled_neg]

/-- The text of a finite magnitude is a numeral that reads as it. -/
theorem text_eq_numeral {x : Magnitude} (finite : x ≠ .infinity) :
    ∃ whole fraction : Text, x.text = numeral whole fraction ∧ whole ≠ [] ∧
      (∀ c ∈ whole, c.isDigit = true) ∧ (∀ c ∈ fraction, c.isDigit = true) ∧
      ofNumeral x.text = some x := by
  obtain ⟨fraction, shown, fractionDigits, zeros, size, value⟩ :=
    positional_eq_numeral x.shortest x.places
  have nonempty : decimal (x.shortest / 10 ^ x.places) ≠ [] := Nat.toDigits_ne_nil
  have text : x.text = numeral (decimal (x.shortest / 10 ^ x.places)) fraction := by
    rw [Magnitude.text, if_neg finite, shown]
  refine ⟨_, fraction, text, nonempty, isDigit_of_mem_decimal, fractionDigits, ?_⟩
  rw [text, ofNumeral_numeral isDigit_of_mem_decimal fractionDigits (by simp [nonempty])]
  -- the zeros that are left out at the end are powers of ten on both sides
  have exact := ofRatio_shortest x
  rw [size, Nat.pow_add, ← value] at exact
  rw [ofRatio_mul_mul (Nat.pow_pos (by decide))] at exact
  exact congrArg some exact

theorem text_infinity : infinity.text = "inf".toList := rfl

/-- The text of a finite magnitude begins with a digit. -/
theorem text_head {x : Magnitude} (finite : x ≠ .infinity) :
    ∃ c t, x.text = c :: t ∧ c.isDigit = true := by
  obtain ⟨whole, fraction, shown, nonempty, digits, -⟩ := text_eq_numeral finite
  obtain ⟨c, t, rfl⟩ := List.exists_cons_of_ne_nil nonempty
  exact ⟨c, _, shown, digits c List.mem_cons_self⟩

/-- So it is not that of infinity. -/
theorem text_ne_infinity {x : Magnitude} (finite : x ≠ .infinity) :
    x.text ≠ infinity.text := by
  intro same
  obtain ⟨c, t, shown, digit⟩ := text_head finite
  rw [shown, text_infinity] at same
  rw [(List.cons.inj same).1] at digit
  contradiction

/-- The text of a magnitude tells it apart from all others. -/
theorem text_injective : Function.Injective text := by
  intro x y same
  by_cases infinite : x = .infinity
  · rw [infinite] at same ⊢
    by_contra other
    exact text_ne_infinity (Ne.symm other) same.symm
  · by_cases infinite' : y = .infinity
    · rw [infinite'] at same
      exact absurd same (text_ne_infinity infinite)
    · obtain ⟨-, -, -, -, -, -, reads⟩ := text_eq_numeral infinite
      obtain ⟨-, -, -, -, -, -, reads'⟩ := text_eq_numeral infinite'
      rw [same, reads'] at reads
      exact (Option.some.inj reads).symm

/-- No magnitude is written with anything but digits, a point and letters. -/
theorem mem_text {x : Magnitude} : ∀ c ∈ x.text, c.isAlphanum = true ∨ c = '.' := by
  intro c member
  by_cases infinite : x = .infinity
  · rw [infinite, text_infinity] at member
    have letters : "inf".toList.all Char.isAlphanum = true := rfl
    exact Or.inl (List.all_eq_true.mp letters c member)
  · obtain ⟨whole, fraction, shown, -, wholeDigits, fractionDigits, -⟩ := text_eq_numeral infinite
    have alphanumeric : c.isDigit = true → c.isAlphanum = true := by
      intro digit
      rw [Char.isAlphanum, digit, Bool.or_true]
    rw [shown, numeral, List.mem_append] at member
    rcases member with member | member
    · exact Or.inl (alphanumeric (wholeDigits c member))
    · split at member
      · contradiction
      · rcases List.mem_cons.mp member with rfl | member
        · exact Or.inr rfl
        · exact Or.inl (alphanumeric (fractionDigits c member))

end Magnitude

/-! ## Numbers of program text -/

namespace Binary64

theorem sameLetters_eq_false {c d : Char} {s t : Text} (letter : c.isAlpha = false)
    (other : d.toUpper.isAlpha = true) : Text.sameLetters (c :: s) (d :: t) = false := by
  have first : c ≠ d.toUpper := by
    rintro rfl
    rw [letter] at other
    contradiction
  show (c.toUpper :: Text.upper s == d.toUpper :: Text.upper t) = false
  rw [Keyword.toUpper_eq_of_not_isAlpha letter, beq_eq_false_iff_ne]
  intro same
  exact first (List.cons.inj same).1

/-- A numeral has no sign and is no name. -/
theorem ofText_numeral {whole fraction : Text} (wholeDigits : ∀ c ∈ whole, c.isDigit = true)
    (nonempty : whole ++ fraction ≠ []) :
    ofText (numeral whole fraction) =
      (Magnitude.ofNumeral (numeral whole fraction)).map (signed false) := by
  obtain ⟨c, t, split, head⟩ := Rule.numeral_head wholeDigits nonempty
  have plain : c.isAlpha = false ∧ Keyword.isOperator c = false := by
    rcases head with digit | rfl
    · exact ⟨(Rule.isDigit_plain digit).1, (Rule.isDigit_plain digit).2.1⟩
    · decide
  obtain ⟨letter, operator⟩ := plain
  have unsigned : splitSign (c :: t) = (false, c :: t) := by
    unfold splitSign
    split
    · next same =>
      rw [(List.cons.inj same).1] at operator
      contradiction
    · next same =>
      rw [(List.cons.inj same).1] at operator
      contradiction
    · rfl
  have nan : Text.sameLetters (c :: t) "nan".toList = false := sameLetters_eq_false letter rfl
  have inf : Text.sameLetters (c :: t) "inf".toList = false := sameLetters_eq_false letter rfl
  have infinity : Text.sameLetters (c :: t) "infinity".toList = false :=
    sameLetters_eq_false letter rfl
  rw [split, ofText, unsigned]
  simp only [nan, inf, infinity, Bool.or_self, Bool.false_eq_true, if_false]

/-- No magnitude is written like a number with a sign, or like what is no number. -/
theorem text_signed_ne (x : Magnitude) {c : Char} {t : Text} (other : c = '-' ∨ c = 'N') :
    x.text ≠ c :: t := by
  intro same
  by_cases infinite : x = .infinity
  · rw [infinite, Magnitude.text_infinity] at same
    rw [← (List.cons.inj same).1] at other
    revert other
    decide
  · obtain ⟨d, s, shown, digit⟩ := Magnitude.text_head infinite
    rw [shown] at same
    rw [(List.cons.inj same).1] at digit
    rcases other with rfl | rfl <;> contradiction

/-- The text of a number tells it apart from all others. -/
theorem text_injective : Function.Injective text := by
  intro a b same
  match a, b with
  | nan, nan => rfl
  | nan, signed false y => exact absurd same.symm (text_signed_ne y (Or.inr rfl))
  | nan, signed true y => exact absurd (List.cons.inj same).1 (by decide)
  | signed false x, nan => exact absurd same (text_signed_ne x (Or.inr rfl))
  | signed true x, nan => exact absurd (List.cons.inj same).1 (by decide)
  | signed false x, signed false y => rw [Magnitude.text_injective same]
  | signed true x, signed true y => rw [Magnitude.text_injective (List.cons.inj same).2]
  | signed false x, signed true y => exact absurd same (text_signed_ne x (Or.inl rfl))
  | signed true x, signed false y => exact absurd same.symm (text_signed_ne y (Or.inl rfl))

/-- No number is written with anything but digits, a point, letters and a sign. -/
theorem mem_text {a : Binary64} : ∀ c ∈ a.text, c.isAlphanum = true ∨ c = '.' ∨ c = '-' := by
  intro c member
  match a with
  | nan =>
    have letters : "NaN".toList.all Char.isAlphanum = true := rfl
    exact Or.inl (List.all_eq_true.mp letters c member)
  | signed false x => exact (Magnitude.mem_text c member).imp_right Or.inl
  | signed true x =>
    rcases List.mem_cons.mp member with rfl | member
    · exact Or.inr (Or.inr rfl)
    · exact (Magnitude.mem_text c member).imp_right Or.inl

/-- A finite number without a sign reads back from its text. -/
theorem ofText_text {x : Magnitude} (finite : x ≠ .infinity) :
    ofText (signed false x).text = some (signed false x) := by
  obtain ⟨whole, fraction, shown, nonempty, wholeDigits, -, reads⟩ :=
    Magnitude.text_eq_numeral finite
  show ofText x.text = _
  rw [shown] at reads ⊢
  rw [ofText_numeral wholeDigits (by simp [nonempty]), reads]
  rfl

end Binary64

end CommodoreBasic
