import QueryMarkup.Value
import QueryMarkup.Proofs.Markup.Token
import QueryMarkup.Proofs.Numbers.Rounding

/-!
# Numerals that are written

The numeral of an integer denotes the integer, and that of a finite double reads back as the same
double: whichever decimal is the shortest, it was chosen because it reads back, and the exact one
behind it has the double's own value.
-/

namespace QueryMarkup

namespace Decimal

theorem pow_trailingZeros_dvd (d : Decimal) : 10 ^ d.trailingZeros ∣ d.digits := by
  have hzeros : (Nat.toDigits 10 d.digits).reverse.takeWhile (· = '0') =
      List.replicate d.trailingZeros '0' := by
    refine List.eq_replicate_iff.2 ⟨rfl, fun c hc => ?_⟩
    simpa using List.mem_takeWhile_imp hc
  have hsplit : Nat.toDigits 10 d.digits =
      ((Nat.toDigits 10 d.digits).reverse.dropWhile (· = '0')).reverse ++
        List.replicate d.trailingZeros '0' := by
    have h := List.takeWhile_append_dropWhile (p := (· = '0'))
      (l := (Nat.toDigits 10 d.digits).reverse)
    rw [hzeros] at h
    have hr := congrArg List.reverse h
    rw [List.reverse_append, List.reverse_replicate, List.reverse_reverse] at hr
    exact hr.symm
  refine ⟨Nat.ofDigitChars 10
    ((Nat.toDigits 10 d.digits).reverse.dropWhile (· = '0')).reverse 0, ?_⟩
  rw [← Nat.ofDigitChars_replicate_zero, ← Nat.ofDigitChars_append, ← hsplit,
    Nat.ofDigitChars_ten_toDigits]

theorem toRat_stripped (d : Decimal) : d.stripped.toRat = d.toRat := by
  have hdigits : d.digits / 10 ^ d.trailingZeros * 10 ^ d.trailingZeros = d.digits :=
    Nat.div_mul_cancel d.pow_trailingZeros_dvd
  show ((d.digits / 10 ^ d.trailingZeros : Nat) : Rat) *
    (10 : Rat) ^ (d.exponent + (d.trailingZeros : Int)) = (d.digits : Rat) * (10 : Rat) ^ d.exponent
  conv_rhs => rw [← hdigits]
  rw [zpow_add₀ (by norm_num), zpow_natCast]
  push_cast
  ring

end Decimal

/-! ## Written numerals -/

namespace Numeral

theorem isDigits_toDigits (n : Nat) : IsDigits (Nat.toDigits 10 n) :=
  ⟨Nat.toDigits_ne_nil, fun _ hc => Nat.isDigit_of_mem_toDigits (by decide) (by decide) hc⟩

theorem head?_toDigits {n : Nat} (h : n ≠ 0) : (Nat.toDigits 10 n).head? ≠ some '0' := by
  induction n using Nat.strongRecOn with
  | ind n ih =>
    by_cases hlt : n < 10
    · have hdigit : ∀ m < 10, m ≠ 0 → m.digitChar ≠ '0' := by decide
      rw [Nat.toDigits_of_lt_base hlt]
      simpa using hdigit n hlt h
    · rw [Nat.toDigits_of_base_le (by decide) (not_lt.1 hlt),
        List.head?_append_of_ne_nil _ Nat.toDigits_ne_nil]
      exact ih (n / 10) (by omega) (by omega)

theorem isDigits_append {s t : List Char} (hs : IsDigits s) (ht : ∀ c ∈ t, c.isDigit = true) :
    IsDigits (s ++ t) := by
  refine ⟨by simp [hs.1], fun c hc => ?_⟩
  rcases List.mem_append.1 hc with hc | hc
  · exact hs.2 c hc
  · exact ht c hc

theorem isDigit_of_mem_replicate {n : Nat} {c : Char} (h : c ∈ List.replicate n '0') :
    c.isDigit = true := by
  rw [List.eq_of_mem_replicate h]
  rfl

theorem toInt_ofInt (i : Int) : (ofInt i).toInt = i := by
  unfold ofInt toInt
  simp only [Nat.ofDigitChars_ten_toDigits, decide_eq_true_eq]
  split <;> omega

theorem isWritten_ofInt (i : Int) : (ofInt i).IsWritten :=
  ⟨isDigits_toDigits _, by simp [ofInt]⟩

section
variable (negative : Bool) (d : Decimal)

/-- The digits of a decimal with as many zeros in front as it takes to reach the point. -/
def padded (d : Decimal) : List Char :=
  List.replicate ((-d.exponent).toNat + 1 - (Nat.toDigits 10 d.digits).length) '0' ++
    Nat.toDigits 10 d.digits

theorem lt_length_padded : (-d.exponent).toNat < (padded d).length := by
  rw [padded, List.length_append, List.length_replicate]
  omega

theorem isDigit_of_mem_padded {c : Char} (h : c ∈ padded d) : c.isDigit = true := by
  rcases List.mem_append.1 h with h | h
  · exact isDigit_of_mem_replicate h
  · exact (isDigits_toDigits _).2 c h

theorem ofDigitChars_padded : Nat.ofDigitChars 10 (padded d) 0 = d.digits := by
  rw [padded, Nat.ofDigitChars_append, Nat.ofDigitChars_replicate_zero, Nat.mul_zero,
    Nat.ofDigitChars_ten_toDigits]

theorem ofDecimal_of_nonneg (h : 0 ≤ d.exponent) : ofDecimal negative d =
    ⟨negative, Nat.toDigits 10 d.digits ++ List.replicate d.exponent.toNat '0', some ['0']⟩ := by
  unfold ofDecimal
  rw [if_pos h]

theorem ofDecimal_of_neg (h : ¬ 0 ≤ d.exponent) : ofDecimal negative d =
    ⟨negative, (padded d).take ((padded d).length - (-d.exponent).toNat),
      some ((padded d).drop ((padded d).length - (-d.exponent).toNat))⟩ := by
  unfold ofDecimal
  rw [if_neg h]
  rfl

theorem isWritten_ofDecimal : (ofDecimal negative d).IsWritten := by
  by_cases h : 0 ≤ d.exponent
  · rw [ofDecimal_of_nonneg negative d h]
    refine ⟨isDigits_append (isDigits_toDigits _) fun c => isDigit_of_mem_replicate, ?_⟩
    rintro _ ⟨⟩
    exact ⟨by simp, by simp⟩
  · rw [ofDecimal_of_neg negative d h]
    have hlt := lt_length_padded d
    refine ⟨⟨?_, fun c hc => isDigit_of_mem_padded d (List.mem_of_mem_take hc)⟩, ?_⟩
    · rw [Ne, List.take_eq_nil_iff]
      rintro (h | h)
      · omega
      · rw [h] at hlt
        exact absurd hlt (Nat.not_lt_zero _)
    · rintro _ ⟨⟩
      refine ⟨?_, fun c hc => isDigit_of_mem_padded d (List.mem_of_mem_drop hc)⟩
      rw [Ne, List.drop_eq_nil_iff]
      omega

theorem fraction_ofDecimal : (ofDecimal negative d).fraction.isSome = true := by
  unfold ofDecimal
  split <;> rfl

theorem negative_ofDecimal : (ofDecimal negative d).negative = negative := by
  unfold ofDecimal
  split <;> rfl

theorem toRat_ofDecimal : (ofDecimal negative d).toDecimal.toRat = d.toRat := by
  by_cases h : 0 ≤ d.exponent
  · obtain ⟨k, hk⟩ := Int.eq_ofNat_of_zero_le h
    have hdigits : Nat.ofDigitChars 10
        (Nat.toDigits 10 d.digits ++ List.replicate d.exponent.toNat '0' ++ ['0']) 0 =
          10 * (10 ^ k * d.digits) := by
      rw [Nat.ofDigitChars_append, Nat.ofDigitChars_append, Nat.ofDigitChars_replicate_zero,
        Nat.ofDigitChars_ten_toDigits, hk]
      rfl
    rw [ofDecimal_of_nonneg negative d h]
    show ((Nat.ofDigitChars 10
      (Nat.toDigits 10 d.digits ++ List.replicate d.exponent.toNat '0' ++ ['0']) 0 : Nat) : Rat) *
        (10 : Rat) ^ (-1 : Int) = _
    rw [hdigits, Decimal.toRat, hk, zpow_natCast]
    push_cast
    rw [zpow_neg_one]
    ring
  · have hlt := lt_length_padded d
    have hplaces : ((padded d).drop ((padded d).length - (-d.exponent).toNat)).length =
        (-d.exponent).toNat := by
      rw [List.length_drop]
      omega
    rw [ofDecimal_of_neg negative d h]
    show ((Nat.ofDigitChars 10 (_ ++ _) 0 : Nat) : Rat) * (10 : Rat) ^ (-(List.length _ : Int)) = _
    rw [Option.getD_some, List.take_append_drop, ofDigitChars_padded, hplaces, Decimal.toRat]
    congr 2
    omega

end

end Numeral

/-! ## Shortest decimals -/

namespace Binary64

theorem readsBack_iff {x : Binary64} {d : Decimal} :
    x.readsBack d = true ↔ nearest x.isNegative d.toRat = x := by
  rw [readsBack, beq_iff_eq]

theorem nearer_cases (ties : TieRule) (q : Rat) (low : Decimal) :
    nearer ties q low = low ∨ nearer ties q low = { low with digits := low.digits + 1 } := by
  unfold nearer
  simp only
  split
  · exact .inl rfl
  · split
    · exact .inr rfl
    · cases ties with
      | greater => exact .inr rfl
      | even =>
        simp only
        split
        · exact .inl rfl
        · exact .inr rfl

/-- The decimals that are tried are those that read back. -/
theorem readsBack_of_withDigits {ties : TieRule} {x : Binary64} {count : Nat} {d : Decimal}
    (h : withDigits ties x count = some d) : x.readsBack d = true := by
  unfold withDigits at h
  simp only at h
  split at h
  · rename_i hlow hhigh
    obtain rfl := Option.some.inj h
    rcases nearer_cases ties x.magnitude
      ⟨(x.magnitude * (10 : Rat) ^ (-(decimalExponent x.magnitude - (count : Int)))).floor.toNat,
        decimalExponent x.magnitude - (count : Int)⟩ with he | he <;> rw [he] <;> assumption
  · rename_i hlow _
    obtain rfl := Option.some.inj h
    exact hlow
  · rename_i _ hhigh
    obtain rfl := Option.some.inj h
    exact hhigh
  · cases h

theorem exponent_ge (x : Binary64) : -1074 ≤ x.exponent := by
  unfold exponent
  split
  · omega
  · rename_i h
    unfold hiddenBit at *
    omega

/-- All doubles are multiples of the smallest, so that enough places hold their value. -/
theorem magnitude_mul_pow {x : Binary64} {places k : Nat} (h : x.exponent + places = k) :
    x.magnitude * (10 : Rat) ^ (places : Int) =
      ((x.significand * 2 ^ k * 5 ^ places : Nat) : Rat) := by
  have hten : (10 : Rat) ^ (places : Int) = (2 : Rat) ^ places * (5 : Rat) ^ places := by
    rw [zpow_natCast, ← mul_pow]
    norm_num
  have htwo : (2 : Rat) ^ x.exponent * (2 : Rat) ^ places = (2 : Rat) ^ k := two_zpow_mul_pow h
  rw [magnitude, hten]
  push_cast
  rw [← htwo]
  ring

theorem toRat_exactDecimal (x : Binary64) : x.exactDecimal.toRat = x.magnitude := by
  have hge := x.exponent_ge
  obtain ⟨k, hk⟩ := Int.eq_ofNat_of_zero_le (show 0 ≤ x.exponent + (1074 : Nat) by omega)
  have hwhole := magnitude_mul_pow hk
  have hfloor : (x.magnitude * (10 : Rat) ^ ((1074 : Nat) : Int)).floor.toNat =
      x.significand * 2 ^ k * 5 ^ 1074 := by
    rw [hwhole, floor_natCast, Int.toNat_natCast]
  show (((x.magnitude * (10 : Rat) ^ ((1074 : Nat) : Int)).floor.toNat : Nat) : Rat) *
    (10 : Rat) ^ (-((1074 : Nat) : Int)) = _
  rw [hfloor, ← hwhole, mul_assoc, ← zpow_add₀ (by norm_num), add_neg_cancel, zpow_zero, mul_one]

theorem nearest_shortest {ties : TieRule} {x : Binary64} (hf : x.isFinite = true) :
    nearest x.isNegative (x.shortest ties).toRat = x := by
  unfold shortest
  split
  · rename_i h
    have hz : (Decimal.mk 0 0).toRat = 0 := by simp [Decimal.toRat]
    rw [hz, nearest, if_pos rfl, zero, ← h, ofMagnitudeBits_magnitudeBits]
  · split
    · rename_i d hd
      obtain ⟨count, -, hcount⟩ := List.exists_of_findSome?_eq_some hd
      rw [Decimal.toRat_stripped]
      exact readsBack_iff.1 (readsBack_of_withDigits hcount)
    · rw [Decimal.toRat_stripped, toRat_exactDecimal, nearest_magnitude hf]

end Binary64

namespace Numeral

/-- A finite double is read back from its numeral. -/
theorem toBinary64_ofBinary64 {ties : Binary64.TieRule} {x : Binary64} (hf : x.isFinite = true) :
    (ofBinary64 ties x).toBinary64 = x := by
  unfold ofBinary64 toBinary64
  rw [negative_ofDecimal, toRat_ofDecimal, Binary64.nearest_shortest hf]

end Numeral

end QueryMarkup
