import QueryMarkup.Proofs.Markup.Derivation
import QueryMarkup.Proofs.Numbers.Numeral

/-!
# Written literals

The text of a literal is spelled by a lexeme that denotes it: integers and doubles by numerals,
strings by their characters escaped.
-/

namespace QueryMarkup

namespace Escaped

open Quoted

theorem hexValue?_hexDigit {n : Nat} (h : n < 16) : hexValue? (hexDigit n) = some n := by
  have hall : ∀ n < 16, hexValue? (hexDigit n) = some n := by decide
  exact hall n h

/-- A hexadecimal digit stands for itself in a quoted string. -/
theorem isBody_hexDigit {n : Nat} (h : n < 16) {rest : List Char} (hr : IsBody '"' rest) :
    IsBody '"' (hexDigit n :: rest) := by
  have hall : ∀ n < 16, hexDigit n ≠ '"' ∧ hexDigit n ≠ '\\' ∧ isLineBreak (hexDigit n) = false := by
    decide
  obtain ⟨hquote, hescape, hline⟩ := hall n h
  exact .plain hquote hescape hline hr

/-- A character is written by its letter, by its number or as itself. -/
theorem encodeChar_cases (c : Char) :
    (∃ e, encodeChar c = ['\\', e] ∧ isLineBreak e = false ∧ (e, c) ∈ simpleEscapes) ∨
    (c.toNat < 0x20 ∧ encodeChar c =
      ['\\', 'u', '0', '0', hexDigit (c.toNat / 16), hexDigit (c.toNat % 16)]) ∨
    (0x20 ≤ c.toNat ∧ c ≠ '"' ∧ c ≠ '\\' ∧ isLineBreak c = false ∧ encodeChar c = [c]) := by
  unfold encodeChar
  split
  · rename_i h; subst h; exact .inl ⟨'"', rfl, by decide⟩
  split
  · rename_i h; subst h; exact .inl ⟨'\\', rfl, by decide⟩
  split
  · rename_i h; subst h; exact .inl ⟨'b', rfl, by decide⟩
  split
  · rename_i h; subst h; exact .inl ⟨'f', rfl, by decide⟩
  split
  · rename_i h; subst h; exact .inl ⟨'n', rfl, by decide⟩
  split
  · rename_i h; subst h; exact .inl ⟨'r', rfl, by decide⟩
  split
  · rename_i h; subst h; exact .inl ⟨'t', rfl, by decide⟩
  split
  · rename_i h
    exact .inr (.inl ⟨h, rfl⟩)
  · rename_i hquote hescape _ _ hfeed hreturn _ h
    refine .inr (.inr ⟨by omega, hquote, hescape, ?_, rfl⟩)
    simp [isLineBreak, hfeed, hreturn]

/-- Escaped text may stand between double quotes. -/
theorem isBody_encode (text : List Char) : IsBody '"' (encode text) := by
  induction text with
  | nil => exact .nil
  | cons c text ih =>
    show IsBody '"' (encodeChar c ++ encode text)
    rcases encodeChar_cases c with ⟨e, he, hline, -⟩ | ⟨h, he⟩ | ⟨-, hquote, hescape, hline, he⟩
    · rw [he]
      exact .escaped hline ih
    · rw [he]
      have hzero : (0 : Nat) < 16 := by decide
      exact .escaped (by decide) (isBody_hexDigit hzero (isBody_hexDigit hzero
        (isBody_hexDigit (by omega) (isBody_hexDigit (by omega) ih))))
    · rw [he]
      exact .plain hquote hescape hline ih

/-- Escaped text stands for the text. -/
theorem denotes_encode (text : List Char) : Quoted.Denotes (encode text) text := by
  induction text with
  | nil => exact .nil
  | cons c text ih =>
    show Quoted.Denotes (encodeChar c ++ encode text) (c :: text)
    rcases encodeChar_cases c with ⟨e, he, -, hmem⟩ | ⟨h, he⟩ | ⟨hplain, -, hescape, -, he⟩
    · rw [he]
      exact .simple hmem ih
    · have hunit : IsUnit ['0', '0', hexDigit (c.toNat / 16), hexDigit (c.toNat % 16)]
          (((0 * 16 + 0) * 16 + c.toNat / 16) * 16 + c.toNat % 16) :=
        .intro rfl rfl (hexValue?_hexDigit (by omega)) (hexValue?_hexDigit (by omega))
      have hvalue : ((0 * 16 + 0) * 16 + c.toNat / 16) * 16 + c.toNat % 16 = c.toNat := by omega
      rw [hvalue] at hunit
      have hdenotes := Quoted.Denotes.unit hunit (.inl (by omega)) ih
      rw [Char.ofNat_toNat] at hdenotes
      rw [he]
      exact hdenotes
    · rw [he]
      exact .plain hplain hescape ih

/-- What is escaped is spelled as between double quotes. -/
theorem doubleQuoted_encode (text : List Char) : doubleQuoted (encode text) = encode text := by
  induction text with
  | nil => rfl
  | cons c text ih =>
    show doubleQuoted (encodeChar c ++ encode text) = encodeChar c ++ encode text
    rcases encodeChar_cases c with ⟨e, he, -, hmem⟩ | ⟨h, he⟩ | ⟨-, hquote, hescape, -, he⟩
    · have hne : e ≠ '\'' := by
        rintro rfl
        obtain rfl : c = '\'' := by simpa [simpleEscapes] using hmem
        exact absurd he (by decide)
      rw [he, List.cons_append, List.singleton_append, doubleQuoted_escape hne, ih]
    · have hunit : IsUnit ['0', '0', hexDigit (c.toNat / 16), hexDigit (c.toNat % 16)] _ :=
        .intro rfl rfl (hexValue?_hexDigit (by omega)) (hexValue?_hexDigit (by omega))
      have hbehind := doubleQuoted_unit hunit (encode text)
      rw [ih] at hbehind
      rw [he]
      exact (doubleQuoted_escape (by decide) _).trans (congrArg ('\\' :: 'u' :: ·) hbehind)
    · rw [he, List.singleton_append, doubleQuoted_plain hescape hquote, ih]

theorem decode_encode (text : List Char) : Escaped.decode (encode text) = .ok text := by
  have h : Quoted.decode (encode text) = .ok text :=
    Quoted.decode_eq_ok_iff.2 (denotes_encode text)
  rw [Quoted.decode, doubleQuoted_encode] at h
  cases hd : Escaped.decode (encode text) with
  | ok text' =>
    rw [hd] at h
    exact congrArg Except.ok (Except.ok.inj h)
  | error fault =>
    rw [hd] at h
    cases h

end Escaped

namespace Literal

/-- Not a double that is no finite number. -/
def IsWritable (l : Literal) : Prop := ∀ x, l = .float x → x.isFinite = true

theorem text_of_isWritable {l : Literal} (h : l.IsWritable) :
    ∃ text x, l.text = .ok text ∧ Lexeme.Spelled x text ∧ x.Denotes l := by
  cases l with
  | null => exact ⟨_, .word "null".toList, rfl, .word (by decide), .null⟩
  | bool b =>
    cases b with
    | true => exact ⟨_, .word "true".toList, rfl, .word (by decide), .true⟩
    | false => exact ⟨_, .word "false".toList, rfl, .word (by decide), .false⟩
  | int i =>
    exact ⟨_, .numeral (.ofInt i.toInt), rfl, .numeral (Numeral.isWritten_ofInt _),
      .integer rfl (Numeral.toInt_ofInt _)⟩
  | float x =>
    have hf := h x rfl
    have hback : (floatNumeral x).toBinary64 = x := Numeral.toBinary64_ofBinary64 hf
    have hdenotes : (Lexeme.numeral (floatNumeral x)).Denotes (.float (floatNumeral x).toBinary64) :=
      .float (Numeral.fraction_ofDecimal _ _) (by rw [hback, hf])
    rw [hback] at hdenotes
    refine ⟨(floatNumeral x).text, .numeral (floatNumeral x), ?_,
      .numeral (Numeral.isWritten_ofDecimal _ _), hdenotes⟩
    rw [text, if_pos hf]
  | string s =>
    have hdenotes : (Lexeme.quoted '"' (some (Escaped.encode s.toList))).Denotes
        (.string (String.ofList s.toList)) := .string (Escaped.denotes_encode s.toList)
    rw [String.ofList_toList] at hdenotes
    exact ⟨_, .quoted '"' (some (Escaped.encode s.toList)), rfl,
      .quoted (.inl rfl) (Escaped.isBody_encode _), hdenotes⟩

end Literal

end QueryMarkup
