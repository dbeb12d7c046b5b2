import QueryMarkup.Json.Read
import QueryMarkup.Proofs.Numbers.Numeral
import QueryMarkup.Proofs.Printing.Literal
import QueryMarkup.Proofs.Reading.Lexeme

/-!
# Scanning JSON

How a JSON text is cut into tokens from its end: a sign, a string or the numeral of an integer in
front of a text is the first token of the longer text. A numeral of an integer is read with the sign
and the digits it is written with, and where it is a double, `LeavesOut` tells which of the digits
count for it.
-/

namespace QueryMarkup

namespace Numeral

/-- The numeral of an integer, or of minus zero: the sign, and digits without a leading zero. -/
def ofMagnitude (negative : Bool) (magnitude : Nat) : Numeral :=
  ⟨negative, Nat.toDigits 10 magnitude, none⟩

section
variable (negative : Bool) (magnitude : Nat)

theorem isWritten_ofMagnitude : (ofMagnitude negative magnitude).IsWritten :=
  ⟨isDigits_toDigits _, by simp [ofMagnitude]⟩

theorem text_ofMagnitude : (ofMagnitude negative magnitude).text =
    (if negative then ['-'] else []) ++ Nat.toDigits 10 magnitude := by
  rw [text, ofMagnitude, List.append_nil]

theorem toInt_ofMagnitude : (ofMagnitude negative magnitude).toInt =
    if negative then -(magnitude : Int) else magnitude := by
  simp only [ofMagnitude, toInt, Nat.ofDigitChars_ten_toDigits]

end

end Numeral

namespace Json

/-- The last digits of `n` are left out, and so many of them as it takes for the others to fit in
sixty-four bits. -/
structure LeavesOut (n skipped : Nat) : Prop where
  fits : n / 10 ^ skipped ≤ maxWord
  least : ∀ fewer < skipped, maxWord < n / 10 ^ fewer

theorem LeavesOut.eq_zero_iff {n skipped : Nat} (h : LeavesOut n skipped) :
    skipped = 0 ↔ n ≤ maxWord := by
  constructor
  · rintro rfl
    simpa using h.fits
  · intro hn
    by_contra hne
    have hlt := h.least 0 (Nat.pos_of_ne_zero hne)
    rw [Nat.pow_zero, Nat.div_one] at hlt
    omega

section
variable {digits : List Char}

theorem ofDigitChars_lt_pow (h : ∀ c ∈ digits, c.isDigit = true) :
    Nat.ofDigitChars 10 digits 0 < 10 ^ digits.length := by
  induction digits with
  | nil => simp
  | cons c rest ih =>
    obtain ⟨hc, hrest⟩ := List.forall_mem_cons.1 h
    have hdigit : c.toNat - '0'.toNat ≤ 9 := by
      have hle : c.toNat ≤ '9'.toNat := (Char.isDigit_iff_toNat.1 hc).2
      have hnine : '9'.toNat - '0'.toNat = 9 := rfl
      omega
    have hpow := Nat.mul_le_mul_left (10 ^ rest.length) hdigit
    rw [Nat.ofDigitChars_cons, Nat.mul_zero, Nat.zero_add, Nat.ofDigitChars_eq_ofDigitChars_zero,
      List.length_cons, Nat.pow_succ]
    have hlt := ih hrest
    omega

theorem ofDigitChars_div_pow (h : ∀ c ∈ digits, c.isDigit = true) (n : Nat) :
    Nat.ofDigitChars 10 digits n / 10 ^ digits.length = n := by
  have hpos : 0 < 10 ^ digits.length := Nat.pow_pos (by decide)
  rw [Nat.ofDigitChars_eq_ofDigitChars_zero, Nat.mul_add_div hpos,
    Nat.div_eq_of_lt (ofDigitChars_lt_pow h), Nat.add_zero]

/-- By induction on the digits. Where the next one does not fit, what was read so far is the quotient
by the power of ten of all that are left. -/
theorem leading_spec (h : ∀ c ∈ digits, c.isDigit = true) {significand : Nat}
    (hs : significand ≤ maxWord) :
    LeavesOut (Nat.ofDigitChars 10 digits significand) (leading significand digits).2.length ∧
    (leading significand digits).1 =
      Nat.ofDigitChars 10 digits significand / 10 ^ (leading significand digits).2.length := by
  induction digits generalizing significand with
  | nil =>
    refine ⟨⟨by simpa [leading] using hs, nofun⟩, ?_⟩
    simp [leading]
  | cons c rest ih =>
    have hrest := (List.forall_mem_cons.1 h).2
    have hquotient := ofDigitChars_div_pow h significand
    rw [Nat.ofDigitChars_cons] at hquotient ⊢
    rcases le_or_gt (10 * significand + (c.toNat - '0'.toNat)) maxWord with hle | hlt
    · rw [leading_cons_of_le rest hle]
      exact ih hrest hle
    · rw [leading_cons_of_lt rest hlt, hquotient]
      refine ⟨⟨hquotient.symm ▸ hs, fun fewer hfewer => ?_⟩, rfl⟩
      have hpow : 10 ^ fewer ≤ 10 ^ rest.length :=
        Nat.pow_le_pow_right (by decide) (Nat.le_of_lt_succ hfewer)
      calc maxWord < 10 * significand + (c.toNat - '0'.toNat) := hlt
        _ = Nat.ofDigitChars 10 rest (10 * significand + (c.toNat - '0'.toNat)) / 10 ^ rest.length :=
          (ofDigitChars_div_pow hrest _).symm
        _ ≤ Nat.ofDigitChars 10 rest (10 * significand + (c.toNat - '0'.toNat)) / 10 ^ fewer :=
          Nat.div_le_div_left hpow (Nat.pow_pos (by decide))

end

section
variable (negative : Bool) (magnitude : Nat)

theorem exists_leading_toDigits : ∃ skipped, LeavesOut magnitude skipped.length ∧
    leading 0 (Nat.toDigits 10 magnitude) = (magnitude / 10 ^ skipped.length, skipped) := by
  obtain ⟨hleaves, hvalue⟩ := leading_spec (Numeral.isDigits_toDigits magnitude).2
    (Nat.zero_le maxWord)
  rw [Nat.ofDigitChars_ten_toDigits] at hleaves hvalue
  exact ⟨_, hleaves, Prod.ext hvalue rfl⟩

theorem exists_leavesOut_ofDigits : ∃ skipped, LeavesOut magnitude skipped ∧
    ofDigits negative (Nat.toDigits 10 magnitude) [] 0 =
      scaled negative (magnitude / 10 ^ skipped) skipped := by
  obtain ⟨skipped, hleaves, hleading⟩ := exists_leading_toDigits magnitude
  refine ⟨skipped.length, hleaves, ?_⟩
  rw [ofDigits, hleading]
  simp [leading]

-- The double of an integer is not always the nearest one.
example : ofDigits false "615937734814659186399".toList [] 0 = ⟨0x4440B1ED3537CD41⟩ ∧
    Binary64.nearest false 615937734814659186399 = ⟨0x4440B1ED3537CD42⟩ := by
  decide +kernel

theorem ofInteger_toDigits : ofInteger negative (Nat.toDigits 10 magnitude) =
    if maxWord < magnitude ∨ negative = true ∧ (magnitude = 0 ∨ 0x8000000000000000 < magnitude) then
      double (ofDigits negative (Nat.toDigits 10 magnitude) [] 0)
    else integer (if negative then -(magnitude : Int) else magnitude) := by
  obtain ⟨skipped, hleaves, hleading⟩ := exists_leading_toDigits magnitude
  have hempty : skipped.isEmpty = true ↔ magnitude ≤ maxWord := by
    rw [List.isEmpty_iff, ← List.length_eq_zero_iff, hleaves.eq_zero_iff]
  rw [ofInteger, hleading]
  dsimp only
  by_cases hfits : magnitude ≤ maxWord
  · rw [hempty.2 hfits, hleaves.eq_zero_iff.2 hfits]
    simp [not_lt.2 hfits]
  · have hne : skipped.isEmpty = false := Bool.eq_false_iff.2 (mt hempty.1 hfits)
    simp [hne, not_le.1 hfits]

end

theorem whole?_toDigits (n : Nat) : whole? (Nat.toDigits 10 n) = some (Nat.toDigits 10 n, []) := by
  obtain ⟨hne, hdigits⟩ := Numeral.isDigits_toDigits n
  have htake : (Nat.toDigits 10 n).takeWhile Char.isDigit = Nat.toDigits 10 n :=
    List.takeWhile_eq_self_iff.2 hdigits
  have hdrop : (Nat.toDigits 10 n).dropWhile Char.isDigit = [] :=
    List.dropWhile_eq_nil_iff.2 hdigits
  have hread : digits? (Nat.toDigits 10 n) = some (Nat.toDigits 10 n, []) := by
    simp [digits?, htake, hdrop, hne]
  unfold whole?
  rw [hread]
  split
  · rename_i c rest more heq
    obtain ⟨hlist, -⟩ := Prod.mk.inj (Option.some.inj heq)
    have hzero : n = 0 := by
      by_contra hn
      exact Numeral.head?_toDigits hn (by rw [hlist]; rfl)
    subst hzero
    cases hlist
  · rfl

/-- A numeral behind its sign. -/
def unsigned? (negative : Bool) (text : List Char) : Option Json := do
  let (whole, text) ← whole? text
  let (fraction, text) ← fraction? text
  let exponent ← exponent? text
  if fraction.isNone && exponent.isNone then return ofInteger negative whole
  else return double (ofDigits negative whole (fraction.getD []) (exponent.getD 0))

theorem number?_eq (text : List Char) :
    number? text =
      if text.head? = some '-' then unsigned? true text.tail else unsigned? false text := by
  cases text with
  | nil => rfl
  | cons c rest =>
    by_cases hc : c = '-'
    · subst hc
      rfl
    · have hsign : ¬ (c :: rest).head? = some '-' := by simpa using hc
      rw [if_neg hsign]
      unfold number?
      split
      rename_i negative text hsplit
      split at hsplit
      · rename_i heq
        exact absurd (List.cons.inj heq).1 hc
      · obtain ⟨rfl, rfl⟩ := Prod.mk.inj hsplit
        rfl

theorem unsigned?_toDigits (negative : Bool) (n : Nat) :
    unsigned? negative (Nat.toDigits 10 n) = some (ofInteger negative (Nat.toDigits 10 n)) := by
  rw [unsigned?, whole?_toDigits]
  rfl

theorem number?_text_ofMagnitude (negative : Bool) (magnitude : Nat) :
    number? (Numeral.ofMagnitude negative magnitude).text =
      some (ofInteger negative (Nat.toDigits 10 magnitude)) := by
  rw [Numeral.text_ofMagnitude, number?_eq]
  cases negative with
  | true => exact unsigned?_toDigits true magnitude
  | false =>
    have hplain : ¬ (Nat.toDigits 10 magnitude).head? = some '-' := by
      intro h
      have hdigit := (Numeral.isDigits_toDigits magnitude).2 '-' (List.mem_of_mem_head? h)
      exact absurd hdigit (by decide)
    rw [if_neg Bool.false_ne_true, List.nil_append, if_neg hplain, unsigned?_toDigits]

section
variable {rest : List Char} {ts : List Token}

theorem isBlank_isNumeralPart_of_isSign {c : Char} (h : isSign c = true) :
    isBlank c = false ∧ isNumeralPart c = false := by
  have hall : ['[', ']', '\x7b', '\x7d', ',', ':'].all
      (fun c => !isBlank c && !isNumeralPart c) = true := by decide
  have hc : c ∈ ['[', ']', '\x7b', '\x7d', ',', ':'] := by
    simpa [isSign, or_assoc] using h
  simpa using List.all_eq_true.1 hall c hc

theorem isNumeralPart_of_isBlank {c : Char} (h : isBlank c = true) : isNumeralPart c = false := by
  have hall : [' ', '\t', '\n', '\r'].all (fun c => !isNumeralPart c) = true := by decide
  have hc : c ∈ [' ', '\t', '\n', '\r'] := by
    simpa [isBlank, or_assoc] using h
  simpa using List.all_eq_true.1 hall c hc

theorem tokens_sign {c : Char} (hc : isSign c = true) (h : tokens rest = some ts) :
    tokens (c :: rest) = some (.sign c :: ts) := by
  rw [tokens_cons, (isBlank_isNumeralPart_of_isSign hc).1, if_neg Bool.false_ne_true, token,
    if_pos hc]
  simp only [List.drop_zero, h, Option.map_some]

theorem tokens_quote (text : List Char) (h : tokens rest = some ts) :
    tokens (Escaped.quote text ++ rest) =
      some (.scalar (.string (String.ofList text)) :: ts) := by
  have hquote : Escaped.quote text ++ rest = '"' :: (Escaped.encode text ++ '"' :: rest) := by
    simp [Escaped.quote]
  have hbody : Quoted.body '"' (Escaped.encode text ++ '"' :: rest) =
      (some (Escaped.encode text), (Escaped.encode text).length + 1) :=
    Parse.body_complete (.inl rfl) (Escaped.isBody_encode text)
  have htoken : token '"' (Escaped.encode text ++ '"' :: rest) =
      some (.scalar (.string (String.ofList text)), (Escaped.encode text).length + 1) := by
    simp only [token, hbody, Option.bind_some, string?, Escaped.decode_encode]
    rfl
  have hdrop : (Escaped.encode text ++ '"' :: rest).drop ((Escaped.encode text).length + 1) =
      rest := by
    rw [List.drop_append]
    simp
  have hblank : isBlank '"' = false := rfl
  rw [hquote, tokens_cons, hblank, if_neg Bool.false_ne_true, htoken]
  simp only [hdrop, h, Option.map_some]

theorem isNumeralPart_of_mem_text {negative : Bool} {magnitude : Nat} {c : Char}
    (h : c ∈ (Numeral.ofMagnitude negative magnitude).text) : isNumeralPart c = true := by
  rw [Numeral.text_ofMagnitude] at h
  rcases List.mem_append.1 h with h | h
  · cases negative with
    | true =>
      rw [List.mem_singleton.1 h]
      rfl
    | false => cases h
  · simp [isNumeralPart, (Numeral.isDigits_toDigits magnitude).2 c h]

theorem isSign_isBlank_of_isNumeralPart {c : Char} (h : isNumeralPart c = true) :
    isSign c = false ∧ isBlank c = false ∧ c ≠ '"' := by
  refine ⟨Bool.eq_false_iff.2 fun hs => ?_, Bool.eq_false_iff.2 fun hb => ?_, ?_⟩
  · rw [(isBlank_isNumeralPart_of_isSign hs).2] at h
    cases h
  · rw [isNumeralPart_of_isBlank hb] at h
    cases h
  · rintro rfl
    exact absurd h (by decide)

/-- A numeral starts with no letter, so it is neither a word nor anything else. -/
theorem token_of_starts {c : Char} (h : c = '-' ∨ c.isDigit = true) (rest : List Char) :
    isBlank c = false ∧ token c rest =
      (number? (c :: rest.takeWhile isNumeralPart)).map fun j =>
        (.scalar j, (rest.takeWhile isNumeralPart).length) := by
  have hpart : isNumeralPart c = true := by
    rcases h with rfl | h
    · rfl
    · simp [isNumeralPart, h]
  have halpha : c.isAlpha = false := by
    rcases h with rfl | h
    · rfl
    · exact (Bool.or_eq_false_iff.1 (Identifier.isStart_of_isDigit h)).1
  obtain ⟨hsign, hblank, hquote⟩ := isSign_isBlank_of_isNumeralPart hpart
  refine ⟨hblank, ?_⟩
  simp only [token, hsign, hquote, halpha, if_neg Bool.false_ne_true, if_false]

theorem tokens_numeral (negative : Bool) (magnitude : Nat)
    (hr : ∀ c ∈ rest.head?, isNumeralPart c = false) (h : tokens rest = some ts) :
    tokens ((Numeral.ofMagnitude negative magnitude).text ++ rest) =
      some (.scalar (ofInteger negative (Nat.toDigits 10 magnitude)) :: ts) := by
  obtain ⟨c, t, ht, hc⟩ := (Numeral.isWritten_ofMagnitude negative magnitude).starts
  have htake : (t ++ rest).takeWhile isNumeralPart = t :=
    takeWhile_append_of_head
      (fun d hd => isNumeralPart_of_mem_text (ht ▸ List.mem_cons_of_mem c hd)) hr
  obtain ⟨hblank, htoken⟩ := token_of_starts hc (t ++ rest)
  rw [htake, ← ht, number?_text_ofMagnitude] at htoken
  rw [ht, List.cons_append, tokens_cons, hblank, if_neg Bool.false_ne_true, htoken]
  simp only [Option.map_some, List.drop_left, h]

end

end Json

end QueryMarkup
