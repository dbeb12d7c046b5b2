import QueryMarkup.Document.Equality
import QueryMarkup.Proofs.Numbers.Rounding

/-!
# Literals that are equal

Doubles compare as numbers. A number is rational or infinite, of two zeros there is but one, and a
NaN is no number at all. `Literal.Same` says which literals are equal.
-/

namespace QueryMarkup

/-- What a double that is not a NaN stands for. -/
inductive Number where
  | finite (value : Rat)
  | infinite (negative : Bool)

namespace Binary64

variable {x y : Binary64}

def number? (x : Binary64) : Option Number :=
  if x.isNaN then none
  else if x.isFinite then some (.finite (if x.isNegative then -x.magnitude else x.magnitude))
  else some (.infinite x.isNegative)

theorem magnitude_nonneg (x : Binary64) : 0 ≤ x.magnitude := by
  unfold magnitude
  positivity

theorem magnitude_eq_zero_iff : x.magnitude = 0 ↔ x.magnitudeBits = 0 := by
  constructor
  · intro h
    by_contra hbits
    have hsignificand : (x.significand : Rat) ≠ 0 := by exact_mod_cast significand_ne_zero hbits
    exact mul_ne_zero hsignificand (zpow_ne_zero _ (by norm_num)) h
  · intro h
    have hsmall : x.magnitudeBits < hiddenBit := by
      rw [h]
      decide
    rw [magnitude, (magnitudeBits_eq_of_subnormal hsmall).2, h, Nat.cast_zero, zero_mul]

theorem isNaN_of_isFinite (h : x.isFinite = true) : x.isNaN = false := by
  have hlt : x.magnitudeBits < infinityBits := of_decide_eq_true h
  exact decide_eq_false (Nat.lt_asymm hlt)

theorem number?_of_isFinite (h : x.isFinite = true) :
    x.number? = some (.finite (if x.isNegative then -x.magnitude else x.magnitude)) := by
  rw [number?, isNaN_of_isFinite h, if_neg Bool.false_ne_true, if_pos h]

theorem number?_of_not_isFinite (h : x.isNaN = false) (h' : x.isFinite = false) :
    x.number? = some (.infinite x.isNegative) := by
  rw [number?, h, if_neg Bool.false_ne_true, h', if_neg Bool.false_ne_true]

theorem number?_eq_none_iff : x.number? = none ↔ x.isNaN = true := by
  unfold number?
  split
  · simp [*]
  · split <;> simp [*]

/-- Finite doubles of one value are the same, or both are zeros. -/
theorem eq_or_zeros (hx : x.isFinite = true) (hy : y.isFinite = true)
    (h : (if x.isNegative then -x.magnitude else x.magnitude) =
      if y.isNegative then -y.magnitude else y.magnitude) :
    x = y ∨ x.magnitudeBits = 0 ∧ y.magnitudeBits = 0 := by
  have hxpos := x.magnitude_nonneg
  have hypos := y.magnitude_nonneg
  have hsame : x.isNegative = y.isNegative → x.magnitude = y.magnitude → x = y := fun hsign hm => by
    rw [← nearest_magnitude hx, ← nearest_magnitude hy, hsign, hm]
  have hzeros : x.magnitude = -y.magnitude → x.magnitudeBits = 0 ∧ y.magnitudeBits = 0 := fun hm =>
    ⟨magnitude_eq_zero_iff.1 (by linarith), magnitude_eq_zero_iff.1 (by linarith)⟩
  cases hsx : x.isNegative <;> cases hsy : y.isNegative <;>
    simp only [hsx, hsy, if_true, Bool.false_eq_true, if_false] at h
  · exact .inl (hsame (hsx.trans hsy.symm) h)
  · exact .inr (hzeros h)
  · exact .inr (hzeros (by linarith))
  · exact .inl (hsame (hsx.trans hsy.symm) (by linarith))

theorem magnitudeBits_of_not_isFinite (h : x.isNaN = false) (h' : x.isFinite = false) :
    x.magnitudeBits = infinityBits :=
  Nat.le_antisymm (Nat.not_lt.1 (of_decide_eq_false h)) (Nat.not_lt.1 (of_decide_eq_false h'))

theorem number?_of_magnitudeBits (h : x.magnitudeBits = 0) : x.number? = some (.finite 0) := by
  have hfinite : x.isFinite = true := by
    refine decide_eq_true ?_
    rw [h]
    decide
  rw [number?_of_isFinite hfinite, magnitude_eq_zero_iff.2 h, neg_zero, ite_self]

theorem sameNumber_iff : x.sameNumber y = true ↔ ∃ n, x.number? = some n ∧ y.number? = some n := by
  constructor
  · intro h
    simp only [sameNumber, Bool.and_eq_true, Bool.or_eq_true, Bool.not_eq_true', beq_iff_eq] at h
    obtain ⟨⟨hx, -⟩, rfl | ⟨hzero, hzero'⟩⟩ := h
    · cases hn : x.number? with
      | none => simp [number?_eq_none_iff.1 hn] at hx
      | some n => exact ⟨n, rfl, rfl⟩
    · exact ⟨_, number?_of_magnitudeBits hzero, number?_of_magnitudeBits hzero'⟩
  · rintro ⟨n, hx, hy⟩
    have hxnumber : x.isNaN = false :=
      Bool.eq_false_iff.2 fun h => by simp [number?_eq_none_iff.2 h] at hx
    have hynumber : y.isNaN = false :=
      Bool.eq_false_iff.2 fun h => by simp [number?_eq_none_iff.2 h] at hy
    have hsame : x = y ∨ x.magnitudeBits = 0 ∧ y.magnitudeBits = 0 := by
      cases hxfinite : x.isFinite <;> cases hyfinite : y.isFinite
      · rw [number?_of_not_isFinite hxnumber hxfinite, ← hy,
          number?_of_not_isFinite hynumber hyfinite] at hx
        refine .inl ?_
        rw [← ofMagnitudeBits_magnitudeBits x, ← ofMagnitudeBits_magnitudeBits y,
          magnitudeBits_of_not_isFinite hxnumber hxfinite,
          magnitudeBits_of_not_isFinite hynumber hyfinite, Number.infinite.inj (Option.some.inj hx)]
      · rw [number?_of_not_isFinite hxnumber hxfinite, ← hy, number?_of_isFinite hyfinite] at hx
        cases hx
      · rw [number?_of_isFinite hxfinite, ← hy, number?_of_not_isFinite hynumber hyfinite] at hx
        cases hx
      · rw [number?_of_isFinite hxfinite, ← hy, number?_of_isFinite hyfinite] at hx
        exact eq_or_zeros hxfinite hyfinite (Number.finite.inj (Option.some.inj hx))
    simpa [sameNumber, hxnumber, hynumber] using hsame

end Binary64

/-- Literals of one kind with the same value, doubles as numbers. -/
inductive Literal.Same : Literal → Literal → Prop where
  | null : Same .null .null
  | bool (b : Bool) : Same (.bool b) (.bool b)
  | int (i : Int64) : Same (.int i) (.int i)
  | float {x y : Binary64} {n : Number} : x.number? = some n → y.number? = some n →
      Same (.float x) (.float y)
  | string (s : String) : Same (.string s) (.string s)

namespace Literal

theorem equal_iff {a b : Literal} : a.equal b = true ↔ a.Same b := by
  constructor
  · intro h
    cases a with
    | float x =>
      cases b with
      | float y =>
        obtain ⟨n, hx, hy⟩ := Binary64.sameNumber_iff.1 h
        exact .float hx hy
      | _ => cases beq_iff_eq.1 h
    | null => exact beq_iff_eq.1 h ▸ .null
    | bool v => exact beq_iff_eq.1 h ▸ .bool v
    | int i => exact beq_iff_eq.1 h ▸ .int i
    | string s => exact beq_iff_eq.1 h ▸ .string s
  · intro h
    cases h with
    | float hx hy => exact Binary64.sameNumber_iff.2 ⟨_, hx, hy⟩
    | _ => exact beq_iff_eq.2 rfl

theorem Same.symm {a b : Literal} (h : a.Same b) : b.Same a := by
  cases h with
  | float hx hy => exact .float hy hx
  | null => exact .null
  | bool b => exact .bool b
  | int i => exact .int i
  | string s => exact .string s

theorem Same.trans {a b c : Literal} (h : a.Same b) (k : b.Same c) : a.Same c := by
  cases h with
  | float hx hy =>
    cases k with
    | float hy' hz =>
      obtain rfl := Option.some.inj (hy.symm.trans hy')
      exact .float hx hz
  | _ => exact k

end Literal

end QueryMarkup
