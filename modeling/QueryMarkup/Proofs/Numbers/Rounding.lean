import Mathlib.Algebra.Order.Field.Power
import Mathlib.Data.Rat.Floor
import Mathlib.Tactic.FieldSimp
import Mathlib.Tactic.Linarith
import Mathlib.Tactic.Positivity
import QueryMarkup.Binary64

/-!
# Rounding what is a double

The value of a finite double is a significand times a power of two. Rounding it finds the same
exponent again, and a quotient that is an integer, so it gives back the double.
-/

namespace QueryMarkup.Binary64

theorem two_zpow_mul_pow {e : Int} {m n : Nat} (h : e + m = n) :
    (2 : Rat) ^ e * (2 : Rat) ^ m = (2 : Rat) ^ n := by
  rw [← zpow_natCast, ← zpow_natCast, ← zpow_add₀ (by norm_num), h]

theorem binaryExponent_eq {q : Rat} {b : Int} (h : (2 : Rat) ^ b ≤ q)
    (h' : q < (2 : Rat) ^ (b + 1)) : binaryExponent q = b := by
  have hpos : 0 < q := lt_of_lt_of_le (zpow_pos (by norm_num) b) h
  have hnum : 0 < q.num := Rat.num_pos.2 hpos
  have hden : (0 : Rat) < (q.den : Rat) := by exact_mod_cast q.den_pos
  have hq : q = (q.num.natAbs : Rat) / (q.den : Rat) := by
    have hcast : (q.num.natAbs : Rat) = (q.num : Rat) :=
      congrArg (Int.cast : Int → Rat) (Int.natAbs_of_nonneg hnum.le)
    rw [hcast, Rat.num_div_den]
  have hn : (2 : Rat) ^ q.num.natAbs.log2 ≤ (q.num.natAbs : Rat) := by
    exact_mod_cast Nat.log2_self_le (by omega)
  have hn' : (q.num.natAbs : Rat) < (2 : Rat) ^ (q.num.natAbs.log2 + 1) := by
    exact_mod_cast Nat.lt_log2_self
  have hd : (2 : Rat) ^ q.den.log2 ≤ (q.den : Rat) := by
    exact_mod_cast Nat.log2_self_le q.den_nz
  have hd' : (q.den : Rat) < (2 : Rat) ^ (q.den.log2 + 1) := by
    exact_mod_cast Nat.lt_log2_self
  generalize hm : q.num.natAbs.log2 = m at hn hn'
  generalize hk : q.den.log2 = k at hd hd'
  -- the quotient of the powers is at most one step off
  have hlow : (2 : Rat) ^ ((m : Int) - k - 1) < q := by
    have hsplit : (2 : Rat) ^ ((m : Int) - k - 1) * (2 : Rat) ^ (k + 1) = (2 : Rat) ^ m :=
      two_zpow_mul_pow (by omega)
    rw [hq, lt_div_iff₀ hden]
    calc (2 : Rat) ^ ((m : Int) - k - 1) * (q.den : Rat)
        < (2 : Rat) ^ ((m : Int) - k - 1) * (2 : Rat) ^ (k + 1) := by gcongr
      _ = (2 : Rat) ^ m := hsplit
      _ ≤ (q.num.natAbs : Rat) := hn
  have hhigh : q < (2 : Rat) ^ ((m : Int) - k + 1) := by
    have hsplit : (2 : Rat) ^ ((m : Int) - k + 1) * (2 : Rat) ^ k = (2 : Rat) ^ (m + 1) :=
      two_zpow_mul_pow (by omega)
    rw [hq, div_lt_iff₀ hden]
    calc (q.num.natAbs : Rat) < (2 : Rat) ^ (m + 1) := hn'
      _ = (2 : Rat) ^ ((m : Int) - k + 1) * (2 : Rat) ^ k := hsplit.symm
      _ ≤ (2 : Rat) ^ ((m : Int) - k + 1) * (q.den : Rat) := by gcongr
  have hup : (m : Int) - k - 1 < b + 1 :=
    (zpow_lt_zpow_iff_right₀ (by norm_num)).1 (hlow.trans h')
  have hdown : b < (m : Int) - k + 1 :=
    (zpow_lt_zpow_iff_right₀ (by norm_num)).1 (h.trans_lt hhigh)
  unfold binaryExponent
  simp only [hm, hk]
  split
  · rename_i hg
    have := (zpow_lt_zpow_iff_right₀ (by norm_num)).1 (hg.trans_lt h')
    omega
  · rename_i hg
    have := (zpow_lt_zpow_iff_right₀ (by norm_num)).1 (h.trans_lt (not_le.1 hg))
    omega

theorem floor_natCast (n : Nat) : (n : Rat).floor = n := by
  exact_mod_cast Rat.floor_intCast (n : Int)

theorem nearestInteger_natCast (n : Nat) : nearestInteger (n : Rat) = n := by
  unfold nearestInteger
  rw [floor_natCast]
  simp only [Int.toNat_natCast, sub_self]
  rw [if_pos (by norm_num)]

/-! ## Doubles -/

theorem ofMagnitudeBits_magnitudeBits (x : Binary64) :
    ofMagnitudeBits x.isNegative x.magnitudeBits = x := by
  obtain ⟨bits⟩ := x
  have hlt := bits.toNat_lt
  have hbits : (if decide (signBit ≤ bits.toNat) = true then signBit + bits.toNat % signBit
      else bits.toNat % signBit) = bits.toNat := by
    by_cases h : signBit ≤ bits.toNat
    · rw [if_pos (decide_eq_true h)]
      unfold signBit at *
      omega
    · rw [if_neg (by simpa using h)]
      exact Nat.mod_eq_of_lt (Nat.lt_of_not_le h)
  unfold ofMagnitudeBits isNegative magnitudeBits
  rw [hbits, UInt64.ofNat_toNat]

theorem magnitudeBits_eq_of_normal {x : Binary64} (h : ¬ x.magnitudeBits < hiddenBit) :
    x.magnitudeBits = (x.exponent + 1074).toNat * hiddenBit + x.significand := by
  unfold exponent significand
  rw [if_neg h, if_neg h]
  unfold hiddenBit at *
  omega

theorem magnitudeBits_eq_of_subnormal {x : Binary64} (h : x.magnitudeBits < hiddenBit) :
    x.exponent = -1074 ∧ x.significand = x.magnitudeBits := by
  unfold exponent significand
  rw [if_pos h, if_pos h]
  exact ⟨rfl, Nat.mod_eq_of_lt h⟩

theorem binaryExponent_mul {s : Nat} (hs : s ≠ 0) (e : Int) :
    binaryExponent ((s : Rat) * (2 : Rat) ^ e) = s.log2 + e := by
  have hlow : (2 : Rat) ^ s.log2 ≤ (s : Rat) := by exact_mod_cast Nat.log2_self_le hs
  have hhigh : (s : Rat) < (2 : Rat) ^ (s.log2 + 1) := by exact_mod_cast Nat.lt_log2_self
  refine binaryExponent_eq ?_ ?_
  · rw [zpow_add₀ (by norm_num), zpow_natCast]
    gcongr
  · have hsplit : (2 : Rat) ^ ((s.log2 : Int) + e + 1) = (2 : Rat) ^ (s.log2 + 1) * (2 : Rat) ^ e := by
      rw [← zpow_natCast, ← zpow_add₀ (by norm_num)]
      congr 1
      push_cast
      omega
    rw [hsplit]
    gcongr

theorem significand_ne_zero {x : Binary64} (h : x.magnitudeBits ≠ 0) : x.significand ≠ 0 := by
  by_cases hs : x.magnitudeBits < hiddenBit
  · rwa [(magnitudeBits_eq_of_subnormal hs).2]
  · unfold significand
    rw [if_neg hs]
    unfold hiddenBit
    omega

/-- Rounding takes the spacing of a double for the scale of its significand. -/
theorem spacingExponent_magnitude {x : Binary64} (h : x.magnitudeBits ≠ 0) :
    spacingExponent x.magnitude = x.exponent := by
  have hne := significand_ne_zero h
  unfold spacingExponent
  rw [magnitude, binaryExponent_mul hne]
  by_cases hs : x.magnitudeBits < hiddenBit
  · obtain ⟨he, hsig⟩ := magnitudeBits_eq_of_subnormal hs
    have hlog : x.significand.log2 < 52 := (Nat.log2_lt hne).2 (by rwa [hsig])
    omega
  · have hlog : x.significand.log2 = 52 := by
      refine (Nat.log2_eq_iff hne).2 ?_
      unfold significand
      rw [if_neg hs]
      have hmod : x.magnitudeBits % hiddenBit < hiddenBit := Nat.mod_lt _ (by decide)
      unfold hiddenBit at *
      omega
    have he : -1074 ≤ x.exponent := by
      unfold exponent
      rw [if_neg hs]
      unfold hiddenBit at *
      omega
    omega

theorem nearestBits_magnitude {x : Binary64} (h : x.magnitudeBits ≠ 0) (hf : x.isFinite = true) :
    nearestBits x.magnitude = x.magnitudeBits := by
  have hfinite : x.magnitudeBits < infinityBits := by simpa [isFinite] using hf
  have hscale : x.magnitude * (2 : Rat) ^ (-x.exponent) = (x.significand : Rat) := by
    rw [magnitude, mul_assoc, ← zpow_add₀ (by norm_num), add_neg_cancel, zpow_zero, mul_one]
  simp only [nearestBits, spacingExponent_magnitude h, hscale, nearestInteger_natCast]
  by_cases hs : x.magnitudeBits < hiddenBit
  · obtain ⟨he, hsig⟩ := magnitudeBits_eq_of_subnormal hs
    rw [he, hsig]
    show min _ (0 * _ + _) = _
    omega
  · rw [← magnitudeBits_eq_of_normal hs]
    omega

/-- A finite double is the one nearest to its own value. -/
theorem nearest_magnitude {x : Binary64} (hf : x.isFinite = true) :
    nearest x.isNegative x.magnitude = x := by
  by_cases h : x.magnitudeBits = 0
  · have hz : x.magnitude = 0 := by
      obtain ⟨-, hsig⟩ := magnitudeBits_eq_of_subnormal (x := x) (by rw [h]; decide)
      rw [magnitude, hsig, h, Nat.cast_zero, zero_mul]
    rw [nearest, if_pos hz, zero, ← h, ofMagnitudeBits_magnitudeBits]
  · have hne : x.magnitude ≠ 0 := by
      have hs : (x.significand : Rat) ≠ 0 := by exact_mod_cast significand_ne_zero h
      exact mul_ne_zero hs (zpow_ne_zero _ (by norm_num))
    rw [nearest, if_neg hne, nearestBits_magnitude h hf, ofMagnitudeBits_magnitudeBits]

end QueryMarkup.Binary64
