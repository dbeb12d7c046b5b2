import QueryMarkup.Proofs.Reading.Lexeme
import QueryMarkup.Proofs.Text.JsonString

/-!
# Decoding string tokens

A string token is decoded by its body alone, and its body splits into units: raw characters and
escapes, each of which denotes one character. Decoding spells the body as between double quotes and
decodes that as a JSON string. The new spelling makes no escape and breaks none, and the only quote
that ends the JSON string is the one put behind it.
-/

namespace QueryMarkup

namespace Quoted

/-- A unit of a body and the character that it denotes. A raw quote denotes itself, whether or not
it is of the kind that the string stands between. -/
inductive UnitDenotes : List Char → Char → Prop where
  | raw {c : Char} : 0x20 ≤ c.toNat → c ≠ '\\' → UnitDenotes [c] c
  | letter {e c : Char} : (e, c) ∈ simpleEscapes → UnitDenotes ['\\', e] c
  | number {digits : List Char} {u : Nat} : IsUnit digits u → u < 0xD800 ∨ 0xE000 ≤ u →
      UnitDenotes ('\\' :: 'u' :: digits) (Char.ofNat u)
  | pair {digits digits' : List Char} {u v : Nat} : IsUnit digits u → 0xD800 ≤ u → u < 0xDC00 →
      IsUnit digits' v → 0xDC00 ≤ v → v < 0xE000 →
      UnitDenotes ('\\' :: 'u' :: (digits ++ '\\' :: 'u' :: digits'))
        (Char.ofNat (0x10000 + (u - 0xD800) * 0x400 + (v - 0xDC00)))

/-- The body is a row of units, and the text the row of their characters. -/
def SplitsInto (body text : List Char) : Prop :=
  ∃ units : List (List Char × Char), (∀ x ∈ units, UnitDenotes x.1 x.2) ∧
    body = units.flatMap Prod.fst ∧ text = units.map Prod.snd

theorem SplitsInto.cons {spelling body text : List Char} {c : Char} (hx : UnitDenotes spelling c)
    (h : SplitsInto body text) : SplitsInto (spelling ++ body) (c :: text) := by
  obtain ⟨units, hunits, rfl, rfl⟩ := h
  exact ⟨(spelling, c) :: units, List.forall_mem_cons.2 ⟨hx, hunits⟩, rfl, rfl⟩

theorem UnitDenotes.denotes {spelling body text : List Char} {c : Char}
    (hx : UnitDenotes spelling c) (h : Denotes body text) :
    Denotes (spelling ++ body) (c :: text) := by
  cases hx with
  | raw hc hne => exact .plain hc hne h
  | letter he => exact .simple he h
  | number hu hr => exact .unit hu hr h
  | pair hu hu1 hu2 hv hv1 hv2 =>
    have hpair := Denotes.pair hu hu1 hu2 hv hv1 hv2 h
    rwa [List.cons_append, List.cons_append, List.append_assoc]

theorem denotes_iff_splitsInto {body text : List Char} :
    Denotes body text ↔ SplitsInto body text := by
  constructor
  · intro h
    induction h with
    | nil => exact ⟨[], by simp, rfl, rfl⟩
    | plain hc hne _ ih => exact .cons (.raw hc hne) ih
    | simple he _ ih => exact .cons (.letter he) ih
    | unit hu hr _ ih => exact .cons (.number hu hr) ih
    | pair hu hu1 hu2 hv hv1 hv2 _ ih =>
      have hsplit := SplitsInto.cons (.pair hu hu1 hu2 hv hv1 hv2) ih
      rwa [List.cons_append, List.cons_append, List.append_assoc] at hsplit
  · rintro ⟨units, hunits, rfl, rfl⟩
    induction units with
    | nil => exact .nil
    | cons x units ih =>
      obtain ⟨hx, hunits⟩ := List.forall_mem_cons.1 hunits
      exact hx.denotes (ih hunits)

/-- The JSON string that a body is decoded as. -/
def json (body : List Char) : List Char := '"' :: (doubleQuoted body ++ ['"'])

theorem isBody_doubleQuoted {quote : Char} {body : List Char} (h : IsBody quote body) :
    IsBody '"' (doubleQuoted body) := by
  induction h with
  | nil => exact .nil
  | @plain c rest _ hc hline _ ih =>
    by_cases hquote : c = '"'
    · rw [hquote, doubleQuoted_double]
      exact .escaped (by decide) ih
    · rw [doubleQuoted_plain hc hquote]
      exact .plain hquote hc hline ih
  | @escaped c rest hline _ ih =>
    by_cases hquote : c = '\''
    · rw [hquote, doubleQuoted_quote]
      exact .plain (by decide) (by decide) (by decide) ih
    · rw [doubleQuoted_escape hquote]
      exact .escaped hline ih

/-- Decoding a body is reading its JSON string, which nothing follows. -/
theorem read_json {quote : Char} {body : List Char} (h : IsBody quote body) :
    JsonString.read (json body) =
      match decode body with
      | .ok text => .ok text
      | .error _ => .error .broken := by
  rw [json, JsonString.read_quote (isBody_doubleQuoted h), decode]
  cases Escaped.decode (doubleQuoted body) <;> rfl

end Quoted

/-! ## Tokens -/

namespace Parse

open Quoted

/-- A body between quotes of a kind that it holds only behind backslashes is read as a token. -/
theorem result_lexeme_quoted {c : Cursor} {quote : Char} {body more : List Char}
    (hquote : quote = '"' ∨ quote = '\'') (hbody : IsBody quote body)
    (hc : c.rest = quote :: (body ++ quote :: more)) :
    (lexeme.run c).result = .ok (.quoted quote (some body), c.drop (body.length + 2)) := by
  have hcount : 1 + (body.length + 1) = body.length + 2 := by omega
  rw [result_lexeme hc, if_pos hquote, result_quoted, Cursor.rest_drop_one hc,
    body_complete hquote hbody, Cursor.drop_drop, hcount]

theorem result_literal_quoted {c : Cursor} {quote : Char} {body more : List Char}
    (hquote : quote = '"' ∨ quote = '\'') (hbody : IsBody quote body)
    (hc : c.bare.rest = quote :: (body ++ quote :: more)) :
    (literal.run c).result =
      match decode body with
      | .ok text => .ok (.string (String.ofList text), c.bare.drop (body.length + 2))
      | .error reason =>
        .error ⟨.badString reason, c.bare, c.bare.drop (body.length + 2), 0⟩ := by
  rw [literal, result_bind_of_ok _ (result_blanks c), result_check,
    result_lexeme_quoted hquote hbody hc]
  dsimp only [Lexeme.meaning]
  cases decode body <;> rfl

/-- What a token was read from. -/
theorem token_of_lexeme {c d : Cursor} {quote : Char} {body : List Char}
    (h : (lexeme.run c).result = .ok (.quoted quote (some body), d)) :
    (quote = '"' ∨ quote = '\'') ∧ IsBody quote body ∧ c.rest = quote :: (body ++ quote :: d.rest) := by
  obtain ⟨word, hword, hread⟩ := lexeme_passed h (by simp)
  cases hread with
  | quoted hquote hbody => exact ⟨hquote, hbody, by simpa using hword⟩

/-- A string token is decoded exactly if its body splits into units, and as the characters that they
denote. A body that does not is no JSON string either, and never for text behind the closing quote.
Nothing but the body matters: wherever it stands between quotes, of this kind or the other, the same
is read. -/
theorem string_decodes_by_units {c d : Cursor} {quote : Char} {body : List Char}
    (h : (lexeme.run c).result = .ok (.quoted quote (some body), d)) :
    c.rest = quote :: (body ++ quote :: d.rest) ∧
    (∀ text, decode body = .ok text ↔ SplitsInto body text) ∧
    (∀ text, decode body = .ok text → JsonString.read (json body) = .ok text) ∧
    (∀ reason, decode body = .error reason → JsonString.read (json body) = .error .broken) ∧
    ∀ (c' : Cursor) (other : Char) (more : List Char), other = '"' ∨ other = '\'' →
      IsBody other body → c'.bare.rest = other :: (body ++ other :: more) →
      (literal.run c').result =
        match decode body with
        | .ok text => .ok (.string (String.ofList text), c'.bare.drop (body.length + 2))
        | .error reason =>
          .error ⟨.badString reason, c'.bare, c'.bare.drop (body.length + 2), 0⟩ := by
  obtain ⟨-, hbody, hc⟩ := token_of_lexeme h
  have hjson := read_json hbody
  refine ⟨hc, fun text => decode_eq_ok_iff.trans denotes_iff_splitsInto, fun text ht => ?_,
    fun reason hr => ?_, fun c' other more hother hbody' hc' => result_literal_quoted hother hbody' hc'⟩
  · rw [hjson, ht]
  · rw [hjson, hr]

/-- A raw quote, an escaped one and a pair of surrogates. -/
theorem string_decodes_by_units_pair : ∃ c d body,
    c = Cursor.start "'\"\\'\\ud83d\\uDE00')".toList ∧
    (lexeme.run c).result = .ok (.quoted '\'' (some body), d) ∧
    c.rest = '\'' :: (body ++ '\'' :: d.rest) ∧ SplitsInto body "\"'😀".toList ∧
    JsonString.read (json body) = .ok "\"'😀".toList ∧
    (literal.run c).result = .ok (.string "\"'😀", c.bare.drop (body.length + 2)) := by
  let body : List Char := "\"\\'\\ud83d\\uDE00".toList
  have hbody : IsBody '\'' body :=
    (body_sound (s := body ++ ['\'', ')']) (by decide +kernel)).1
  have hdecode : decode body = .ok "\"'😀".toList := by decide +kernel
  let c := Cursor.start "'\"\\'\\ud83d\\uDE00')".toList
  have hrest : c.rest = '\'' :: (body ++ '\'' :: [')']) := rfl
  have hlexeme := result_lexeme_quoted (.inr rfl) hbody hrest
  obtain ⟨hc, hunits, hjson, -, hliteral⟩ := string_decodes_by_units hlexeme
  have hread := hliteral c '\'' [')'] (.inr rfl) hbody rfl
  rw [hdecode] at hread
  exact ⟨c, _, body, rfl, hlexeme, hc, (hunits _).1 hdecode, hjson _ hdecode, hread⟩

end Parse

end QueryMarkup
