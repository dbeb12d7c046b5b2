import QueryMarkup.Json.Read
import QueryMarkup.Proofs.Markup.Escape
import QueryMarkup.Proofs.Markup.Token

/-!
# Texts that are one JSON string

`JsonString.read` reads a whole text as a string: from the opening quote it goes on character by
character until a quote comes that is not part of an escape, and nothing but blanks may stand behind
that one. It finds the closing quote on its own, so it can close a string early and leave text
behind. `read_quote` says that this does not happen where the inside was a body for double quotes:
then reading comes down to decoding the inside.
-/

namespace QueryMarkup

namespace JsonString

open Escaped Quoted

/-- Why a text is not one string: it does not start with a quote, what stands behind the quote is no
row of characters up to another quote, or there is text behind that one. -/
inductive Fault where
  | noString
  | broken
  | textBehind
  deriving DecidableEq

/-- Reads up to the closing quote, behind `skip` characters, and tells what stands behind it. -/
def upToQuoteBehind (skip : Nat) : List Char → Option (List Char × List Char)
  | [] => none
  | c :: rest =>
    match skip with
    | skip + 1 => upToQuoteBehind skip rest
    | 0 =>
      if c = '"' then some ([], rest)
      else
        match character c rest with
        | .error _ => none
        | .ok (d, count) => (upToQuoteBehind count rest).map fun r => (d :: r.1, r.2)

def upToQuote (text : List Char) : Option (List Char × List Char) := upToQuoteBehind 0 text

def read (text : List Char) : Except Fault (List Char) :=
  match text.dropWhile Json.isBlank with
  | '"' :: rest =>
    match upToQuote rest with
    | none => .error .broken
    | some (text, behind) => if behind.all Json.isBlank then .ok text else .error .textBehind
  | _ => .error .noString

theorem upToQuoteBehind_eq (skip : Nat) (text : List Char) :
    upToQuoteBehind skip text = upToQuote (text.drop skip) := by
  induction text generalizing skip with
  | nil => simp [upToQuote, upToQuoteBehind]
  | cons c rest ih =>
    cases skip with
    | zero => rfl
    | succ skip => exact ih skip

theorem upToQuote_cons {c : Char} (hc : c ≠ '"') (rest : List Char) :
    upToQuote (c :: rest) =
      match character c rest with
      | .error _ => none
      | .ok (d, count) => (upToQuote (rest.drop count)).map fun r => (d :: r.1, r.2) := by
  rw [upToQuote, upToQuoteBehind, if_neg hc]
  simp only [upToQuoteBehind_eq]

/-! ## A quote behind a character

What is read of a character does not depend on whether the text ends there or a quote comes. -/

theorem exists_of_append_quote {s tail rest more : List Char} (hs : '"' ∉ s)
    (h : s ++ tail = rest ++ '"' :: more) : ∃ t, rest = s ++ t ∧ tail = t ++ '"' :: more := by
  rcases List.append_eq_append_iff.1 h with ⟨t, ht, htail⟩ | ⟨t, rfl, ht⟩
  · exact ⟨t, ht, htail⟩
  · cases t with
    | nil => exact ⟨[], by simp, ht.symm⟩
    | cons c t =>
      obtain rfl : c = '"' := (List.cons.inj ht).1.symm
      exact absurd (List.mem_append_right rest List.mem_cons_self) hs

theorem quote_not_mem_unit {digits : List Char} {u : Nat} (h : IsUnit digits u) :
    '"' ∉ digits := by
  cases h with
  | intro ha hb hc hd =>
    simp only [List.mem_cons, List.not_mem_nil, or_false, not_or]
    exact ⟨(hexValue?_isSome_ne ha).2.1.symm, (hexValue?_isSome_ne hb).2.1.symm,
      (hexValue?_isSome_ne hc).2.1.symm, (hexValue?_isSome_ne hd).2.1.symm⟩

section
variable {rest : List Char} (more : List Char)

theorem hexFour_append_quote {u : Nat} :
    hexFour (rest ++ '"' :: more) = .ok u ↔ hexFour rest = .ok u := by
  rw [hexFour_eq_ok_iff, hexFour_eq_ok_iff]
  constructor
  · rintro ⟨digits, tail, h, hu⟩
    obtain ⟨t, ht, -⟩ := exists_of_append_quote (quote_not_mem_unit hu) h.symm
    exact ⟨digits, t, ht, hu⟩
  · rintro ⟨digits, tail, rfl, hu⟩
    exact ⟨digits, tail ++ '"' :: more, List.append_assoc .., hu⟩

theorem secondHalf_append_quote {u : Nat} {c : Char} :
    secondHalf u (rest ++ '"' :: more) = .ok c ↔ secondHalf u rest = .ok c := by
  rw [secondHalf_eq_ok_iff, secondHalf_eq_ok_iff]
  constructor
  · rintro ⟨tail, v, h, hv, htrailing, hc⟩
    obtain ⟨t, ht, rfl⟩ := exists_of_append_quote (s := ['\\', 'u']) (by decide) h.symm
    exact ⟨t, v, ht, (hexFour_append_quote more).1 hv, htrailing, hc⟩
  · rintro ⟨tail, v, rfl, hv, htrailing, hc⟩
    exact ⟨tail ++ '"' :: more, v, rfl, (hexFour_append_quote more).2 hv, htrailing, hc⟩

theorem unicode_append_quote {r : Char × Nat} :
    unicode (rest ++ '"' :: more) = .ok r ↔ unicode rest = .ok r := by
  obtain ⟨c, n⟩ := r
  rw [unicode_eq_ok_iff, unicode_eq_ok_iff]
  refine exists_congr fun u => ?_
  rw [hexFour_append_quote]
  refine and_congr_right fun h => ?_
  obtain ⟨digits, tail, rfl, hu⟩ := hexFour_eq_ok_iff.1 h
  have hfour : (digits ++ tail).drop 4 = tail := by cases hu; rfl
  have hfour' : (digits ++ tail ++ '"' :: more).drop 4 = tail ++ '"' :: more := by cases hu; rfl
  rw [hfour, hfour', secondHalf_append_quote]

/-- Only a backslash at the very end would take the quote for its own. -/
theorem character_append_quote {c : Char} {r : Char × Nat} (h : IsBody '"' (c :: rest)) :
    character c (rest ++ '"' :: more) = .ok r ↔ character c rest = .ok r := by
  obtain ⟨d, n⟩ := r
  cases h with
  | plain _ hc _ _ => rw [character_plain hc, character_plain hc]
  | @escaped e rest _ _ =>
    show escape (e :: (rest ++ '"' :: more)) = _ ↔ escape (e :: rest) = _
    rw [escape_eq_ok_iff, escape_eq_ok_iff]
    simp only [unicode_append_quote]

end

theorem isBody_of_unit {digits rest : List Char} {u : Nat} (hu : IsUnit digits u)
    (h : IsBody '"' (digits ++ rest)) : IsBody '"' rest := by
  have hdigit : ∀ {c : Char} {v : Nat} {rest : List Char}, hexValue? c = some v →
      IsBody '"' (c :: rest) → IsBody '"' rest := by
    intro c v rest hv h
    cases h with
    | plain _ _ _ hr => exact hr
    | escaped _ _ => exact absurd rfl (hexValue?_isSome_ne hv).1
  cases hu with
  | intro ha hb hc hd => exact hdigit hd (hdigit hc (hdigit hb (hdigit ha h)))

theorem isBody_of_escape {e : Char} {rest : List Char} (h : IsBody '"' ('\\' :: e :: rest)) :
    IsBody '"' rest := by
  cases h with
  | plain _ hc _ _ => exact absurd rfl hc
  | escaped _ hr => exact hr

/-- Behind a character the rest is a body again. -/
theorem isBody_behind {c d : Char} {rest : List Char} {n : Nat} (h : IsBody '"' (c :: rest))
    (hc : character c rest = .ok (d, n)) : n ≤ rest.length ∧ IsBody '"' (rest.drop n) := by
  by_cases hb : c = '\\'
  · subst hb
    obtain _ | ⟨e, rest⟩ := rest
    · cases hc
    have hrest : IsBody '"' rest := isBody_of_escape h
    rcases escape_eq_ok_iff.1 hc with ⟨-, rfl⟩ | ⟨rfl, m, hu, rfl⟩
    · exact ⟨by simp, hrest⟩
    · obtain ⟨u, h4, hcase⟩ := unicode_eq_ok_iff.1 hu
      obtain ⟨digits, tail, rfl, hd⟩ := hexFour_eq_ok_iff.1 h4
      have htail : IsBody '"' tail := isBody_of_unit hd hrest
      have hfour : (digits ++ tail).drop 4 = tail := by cases hd; rfl
      rcases hcase with ⟨-, -, rfl⟩ | ⟨-, h2, rfl⟩
      · cases hd
        exact ⟨by simp, htail⟩
      · rw [hfour] at h2
        obtain ⟨tail, v, rfl, h4', -, -⟩ := secondHalf_eq_ok_iff.1 h2
        obtain ⟨digits', tail, rfl, hd'⟩ := hexFour_eq_ok_iff.1 h4'
        have htail' : IsBody '"' tail := isBody_of_unit hd' (isBody_of_escape htail)
        cases hd
        cases hd'
        exact ⟨by simp, htail'⟩
  · obtain ⟨-, hr⟩ := (character_plain hb).1 hc
    obtain ⟨rfl, rfl⟩ := Prod.mk.inj hr
    cases h with
    | plain _ _ _ hrest => exact ⟨Nat.zero_le _, hrest⟩
    | escaped _ _ => exact absurd rfl hb

/-- A body is read up to the quote that ends it, if it can be decoded. -/
theorem upToQuote_body {body : List Char} (h : IsBody '"' body) (more : List Char) :
    upToQuote (body ++ '"' :: more) =
      match Escaped.decode body with
      | .ok text => some (text, more)
      | .error _ => none := by
  -- An escape takes several characters at once, so the induction is on the length.
  induction hn : body.length using Nat.strongRecOn generalizing body with
  | ind n ih =>
    subst hn
    cases body with
    | nil => rfl
    | cons c rest =>
      have hc : c ≠ '"' := by
        cases h with
        | plain hc _ _ _ => exact hc
        | escaped _ _ => decide
      rw [List.cons_append, upToQuote_cons hc, decode_cons]
      cases hr : character c rest with
      | error fault =>
        cases hr' : character c (rest ++ '"' :: more) with
        | error fault' => rfl
        | ok r =>
          rw [(character_append_quote more h).1 hr'] at hr
          cases hr
      | ok r =>
        obtain ⟨d, count⟩ := r
        obtain ⟨hcount, hrest⟩ := isBody_behind h hr
        have hshort : (rest.drop count).length < (c :: rest).length := by
          rw [List.length_drop, List.length_cons]
          omega
        rw [(character_append_quote more h).2 hr]
        dsimp only
        rw [List.drop_append_of_le_length hcount, ih _ hshort hrest rfl]
        cases Escaped.decode (rest.drop count) <;> rfl

/-- A body between double quotes is read as what it is decoded to, and no text is left behind. -/
theorem read_quote {body : List Char} (h : IsBody '"' body) :
    read ('"' :: (body ++ ['"'])) =
      match Escaped.decode body with
      | .ok text => .ok text
      | .error _ => .error .broken := by
  show (match upToQuote (body ++ ['"']) with
    | none => Except.error Fault.broken
    | some (text, behind) => if behind.all Json.isBlank then .ok text else .error .textBehind) = _
  rw [upToQuote_body h []]
  cases Escaped.decode body <;> rfl

end JsonString

end QueryMarkup
