import QueryMarkup.Proofs.Markup.Derivation
import QueryMarkup.Proofs.Reading.Result

/-!
# Reading lexemes

The scanners of numerals, strings and words against the spelling of lexemes, and the meaning of a
lexeme against what it denotes. A scanner reads on as far as it can, so a lexeme is read as it was
spelled only if the text behind it cannot go on with it: this is `Delimited`.
-/

namespace QueryMarkup

section
variable {p : Char → Bool} {s t : List Char}

theorem takeWhile_append_of_head (hs : ∀ c ∈ s, p c = true) (ht : ∀ c ∈ t.head?, p c = false) :
    (s ++ t).takeWhile p = s := by
  rw [List.takeWhile_append_of_pos hs]
  cases t with
  | nil => simp
  | cons c t => simp [ht c rfl]

theorem dropWhile_append_of_head (hs : ∀ c ∈ s, p c = true) (ht : ∀ c ∈ t.head?, p c = false) :
    (s ++ t).dropWhile p = t := by
  rw [List.dropWhile_append_of_pos hs]
  cases t with
  | nil => rfl
  | cons c t => rw [List.dropWhile_cons_of_neg (by simp [ht c rfl])]

end

/-- No name, numeral or word goes on with this text. -/
def Delimited (text : List Char) : Prop :=
  ∀ c ∈ text.head?, Identifier.isPart c = false ∧ c ≠ '.'

theorem isPart_of_isDigit {c : Char} (h : c.isDigit = true) : Identifier.isPart c = true := by
  simp [Identifier.isPart, Char.isAlphanum, h]

theorem Delimited.isDigit {text : List Char} (h : Delimited text) :
    ∀ c ∈ text.head?, c.isDigit = false := by
  intro c hc
  cases hd : c.isDigit with
  | false => rfl
  | true => exact absurd (h c hc).1 (by simp [isPart_of_isDigit hd])

/-! ## Meanings -/

namespace Lexeme

theorem ofInt?_eq_some_iff {i : Int} {l : Literal} :
    Literal.ofInt? i = some l ↔ ∃ j : Int64, i = j.toInt ∧ l = .int j := by
  unfold Literal.ofInt?
  constructor
  · intro h
    split at h
    · rename_i hr
      have hi : (Int64.ofInt i).toInt = i :=
        Int64.toInt_ofInt_of_le hr.1 (Int.lt_add_one_of_le hr.2)
      exact ⟨Int64.ofInt i, hi.symm, (Option.some.inj h).symm⟩
    · cases h
  · rintro ⟨j, rfl, rfl⟩
    rw [if_pos ⟨Int64.minValue_le_toInt j, Int64.toInt_le j⟩, Int64.ofInt_toInt]

theorem ofNumeral_eq_ok_iff {n : Numeral} {l : Literal} :
    ofNumeral n = .ok l ↔ (Lexeme.numeral n).Denotes l := by
  unfold ofNumeral
  constructor
  · intro h
    split at h
    · rename_i hf
      split at h
      · rename_i hx
        obtain rfl := Except.ok.inj h
        exact .float hf hx
      · cases h
    · rename_i hf
      split at h
      · rename_i l' hl
        obtain rfl := Except.ok.inj h
        obtain ⟨j, hj, rfl⟩ := ofInt?_eq_some_iff.1 hl
        exact .integer (by simpa using hf) hj
      · cases h
  · intro h
    cases h with
    | integer hf hi => simp [hf, ofInt?_eq_some_iff.2 ⟨_, hi, rfl⟩]
    | float hf hx => simp [hf, hx]

theorem keyword?_eq_some_iff {word : List Char} {l : Literal} :
    keyword? word = some l ↔ (Lexeme.word word).Denotes l := by
  unfold keyword?
  constructor
  · intro h
    split at h
    · rename_i hw
      obtain rfl := Option.some.inj h
      exact hw ▸ .null
    · split at h
      · rename_i hw
        obtain rfl := Option.some.inj h
        exact hw ▸ .true
      · split at h
        · rename_i hw
          obtain rfl := Option.some.inj h
          exact hw ▸ .false
        · cases h
  · intro h
    cases h <;> rfl

/-- A lexeme is read as the literal that it denotes. -/
theorem meaning_eq_ok_iff {x : Lexeme} {l : Literal} : x.meaning = .ok l ↔ x.Denotes l := by
  cases x with
  | word text =>
    rw [← keyword?_eq_some_iff, meaning]
    cases keyword? text <;> simp
  | numeral n => exact ofNumeral_eq_ok_iff
  | quoted quote body =>
    cases body with
    | none =>
      constructor
      · intro h; cases h
      · intro h; cases h
    | some body =>
      constructor
      · intro h
        rw [meaning] at h
        split at h
        · rename_i text ht
          obtain rfl := Except.ok.inj h
          exact .string (Quoted.decode_eq_ok_iff.1 ht)
        · cases h
      · intro h
        cases h with
        | string hb => rw [meaning, Quoted.decode_eq_ok_iff.2 hb]

theorem Denotes.unique {x : Lexeme} {l l' : Literal} (h : x.Denotes l) (h' : x.Denotes l') :
    l = l' :=
  Except.ok.inj ((meaning_eq_ok_iff.2 h).symm.trans (meaning_eq_ok_iff.2 h'))

theorem Denotes.admits {x : Lexeme} {l : Literal} (h : x.Denotes l) : x.Admits l :=
  fun _ h' => h.unique h'

theorem Denotes.mem_keywords {text : List Char} {l : Literal} (h : (Lexeme.word text).Denotes l) :
    text ∈ keywords := by
  rw [← keyword?_eq_some_iff, keyword?] at h
  split at h
  · simp [keywords, *]
  · split at h
    · simp [keywords, *]
    · split at h
      · simp [keywords, *]
      · cases h

/-- Every lexeme may be taken for some literal. -/
theorem exists_admits (x : Lexeme) : ∃ l, x.Admits l := by
  by_cases h : ∃ l, x.Denotes l
  · obtain ⟨l, hl⟩ := h
    exact ⟨l, hl.admits⟩
  · exact ⟨.null, fun l hl => (h ⟨l, hl⟩).elim⟩

/-- What a lexeme was read from, whether or not it has a meaning. -/
inductive IsReadFrom : Lexeme → List Char → Prop where
  | word (word : List Char) : IsReadFrom (.word word) word
  | numeral {n : Numeral} : n.IsWritten → IsReadFrom (.numeral n) n.text
  | quoted {quote : Char} {body : List Char} : quote = '"' ∨ quote = '\'' →
      Quoted.IsBody quote body → IsReadFrom (.quoted quote (some body)) (quote :: (body ++ [quote]))

end Lexeme

/-- The causes that lie in what a literal means and not in its shape. -/
def Cause.IsMeaning : Cause → Prop
  | .integerRange _ | .numberRange _ | .badString _ => True
  | _ => False

theorem Lexeme.meaning_eq_error {x : Lexeme} {cause : Cause} (h : x.meaning = .error cause) :
    cause.IsMeaning ∨ (∃ word, x = .word word ∧ cause = .unknownWord word) ∨
      ∃ quote, x = .quoted quote none ∧ cause = .unterminated quote := by
  cases x with
  | word word =>
    rw [meaning] at h
    split at h
    · cases h
    · exact .inr (.inl ⟨word, rfl, (Except.error.inj h).symm⟩)
  | numeral n =>
    refine .inl ?_
    rw [meaning, ofNumeral] at h
    split at h
    · split at h
      · cases h
      · obtain rfl := Except.error.inj h
        trivial
    · split at h
      · cases h
      · obtain rfl := Except.error.inj h
        trivial
  | quoted quote body =>
    cases body with
    | none => exact .inr (.inr ⟨quote, rfl, (Except.error.inj h).symm⟩)
    | some body =>
      rw [meaning] at h
      split at h
      · cases h
      · obtain rfl := Except.error.inj h
        exact .inl trivial

/-- A lexeme of the right shape can only lack a meaning. -/
theorem Lexeme.Spelled.meaning {x : Lexeme} {text : List Char} (h : x.Spelled text) :
    (∃ l, x.meaning = .ok l) ∨ ∃ cause, x.meaning = .error cause ∧ cause.IsMeaning := by
  cases hm : x.meaning with
  | ok l => exact .inl ⟨l, rfl⟩
  | error cause =>
    refine .inr ⟨cause, rfl, ?_⟩
    rcases meaning_eq_error hm with hc | ⟨word, rfl, -⟩ | ⟨quote, rfl, -⟩
    · exact hc
    · cases h with
      | word hw =>
        simp only [keywords, List.mem_cons, List.not_mem_nil, or_false] at hw
        rcases hw with rfl | rfl | rfl <;> cases hm
    · cases h

namespace Parse

/-! ## Numerals and strings -/

theorem result_digits (c : Cursor) :
    (digits.run c).result =
      if c.rest.takeWhile Char.isDigit = [] then .error ⟨.unexpected .digit c.rest.head?, c, c, 0⟩
      else .ok (c.rest.takeWhile Char.isDigit,
        c.drop (c.rest.takeWhile Char.isDigit).length) := by
  rw [digits, result_bind_of_ok _ (result_takeWhile _ c)]
  by_cases h : c.rest.takeWhile Char.isDigit = []
  · simp only [h, List.isEmpty_nil, if_true, List.length_nil, Cursor.drop_zero]
    exact result_expected .digit c
  · simp only [List.isEmpty_iff, h, if_false, run_pure]

theorem digits_complete {c : Cursor} {ds rest : List Char} (hc : c.rest = ds ++ rest)
    (hd : Numeral.IsDigits ds) (hr : ∀ x ∈ rest.head?, x.isDigit = false) :
    ∃ d, (digits.run c).result = .ok (ds, d) ∧ d.rest = rest := by
  have ht : c.rest.takeWhile Char.isDigit = ds := by
    rw [hc]; exact takeWhile_append_of_head hd.2 hr
  exact ⟨_, by rw [result_digits, ht, if_neg hd.1], Cursor.rest_drop_length hc⟩

theorem digits_sound {c d : Cursor} {ds : List Char} (h : (digits.run c).result = .ok (ds, d)) :
    c.rest = ds ++ d.rest ∧ Numeral.IsDigits ds := by
  rw [result_digits] at h
  split at h
  · cases h
  · rename_i hne
    obtain ⟨rfl, rfl⟩ := Prod.mk.inj (Except.ok.inj h)
    rw [Cursor.rest_drop_takeWhile]
    exact ⟨List.takeWhile_append_dropWhile.symm, hne, fun x hx => List.mem_takeWhile_imp hx⟩

/-- A numeral behind its sign. -/
def unsigned (negative : Bool) : Parse Numeral := do
  let whole ← digits
  if (← look) = some '.' then
    next
    return ⟨negative, whole, some (← digits)⟩
  else
    return ⟨negative, whole, none⟩

theorem result_numeral (c : Cursor) :
    (numeral.run c).result =
      if c.rest.head? = some '-' then ((unsigned true).run (c.drop 1)).result
      else ((unsigned false).run c).result := by
  rw [numeral, result_bind_of_ok _ (result_look c)]
  by_cases h : c.rest.head? = some '-'
  · simp only [h, if_true, decide_true]
    rw [result_bind_of_ok _ (result_next c)]
    rfl
  · simp only [h, if_false, decide_false]
    rfl

theorem unsigned_complete {c : Cursor} {negative : Bool} {whole rest : List Char}
    {fraction : Option (List Char)}
    (hc : c.rest = whole ++ (fraction.elim [] ('.' :: ·) ++ rest))
    (hn : Numeral.IsWritten ⟨negative, whole, fraction⟩) (hr : Delimited rest) :
    ∃ d, ((unsigned negative).run c).result = .ok (⟨negative, whole, fraction⟩, d) ∧
      d.rest = rest := by
  obtain ⟨hw, hf⟩ := hn
  cases fraction with
  | none =>
    obtain ⟨d, hd, he⟩ := digits_complete hc hw hr.isDigit
    have he : d.rest = rest := he
    have hp : ¬ d.rest.head? = some '.' := fun h => (hr '.' (he ▸ h)).2 rfl
    refine ⟨d, ?_, he⟩
    rw [unsigned, result_bind_of_ok _ hd, result_bind_of_ok _ (result_look d), if_neg hp, run_pure]
  | some ds =>
    obtain ⟨d, hd, he⟩ := digits_complete hc hw (by simp)
    have he : d.rest = '.' :: (ds ++ rest) := he
    obtain ⟨e, hds, hrest⟩ :=
      digits_complete (c := d.drop 1) (Cursor.rest_drop_one he) (hf ds rfl) hr.isDigit
    refine ⟨e, ?_, hrest⟩
    rw [unsigned, result_bind_of_ok _ hd, result_bind_of_ok _ (result_look d), if_pos (by simp [he]),
      result_bind_of_ok _ (result_next d), result_bind_of_ok _ hds, run_pure]

theorem unsigned_sound {c d : Cursor} {negative : Bool} {n : Numeral}
    (h : ((unsigned negative).run c).result = .ok (n, d)) :
    n.negative = negative ∧ n.IsWritten ∧
      c.rest = n.whole ++ (n.fraction.elim [] ('.' :: ·) ++ d.rest) := by
  obtain ⟨whole, e, hw, h⟩ := result_bind_eq_ok h
  obtain ⟨hc, hwd⟩ := digits_sound hw
  rw [result_bind_of_ok _ (result_look e)] at h
  by_cases hp : e.rest.head? = some '.'
  · rw [if_pos hp, result_bind_of_ok _ (result_next e)] at h
    obtain ⟨ds, _, hds, h⟩ := result_bind_eq_ok h
    obtain ⟨rfl, rfl⟩ := Prod.mk.inj (Except.ok.inj h)
    obtain ⟨he, hdd⟩ := digits_sound hds
    obtain ⟨t, ht⟩ := List.head?_eq_some_iff.1 hp
    rw [Cursor.rest_drop_one ht] at he
    refine ⟨rfl, ⟨hwd, ?_⟩, ?_⟩
    · rintro _ ⟨⟩
      exact hdd
    · rw [hc, ht, he]
      rfl
  · rw [if_neg hp] at h
    obtain ⟨rfl, rfl⟩ := Prod.mk.inj (Except.ok.inj h)
    exact ⟨rfl, ⟨hwd, by simp⟩, hc⟩

theorem numeral_text_eq (n : Numeral) :
    n.text = (if n.negative then ['-'] else []) ++ (n.whole ++ n.fraction.elim [] ('.' :: ·)) := by
  rw [Numeral.text, List.append_assoc]
  cases n.fraction <;> rfl

theorem numeral_complete {c : Cursor} {n : Numeral} {rest : List Char} (hc : c.rest = n.text ++ rest)
    (hn : n.IsWritten) (hr : Delimited rest) :
    ∃ d, (numeral.run c).result = .ok (n, d) ∧ d.rest = rest := by
  obtain ⟨negative, whole, fraction⟩ := n
  rw [numeral_text_eq, List.append_assoc, List.append_assoc] at hc
  rw [result_numeral]
  cases negative with
  | true =>
    rw [if_pos (by simp [hc])]
    exact unsigned_complete (Cursor.rest_drop_one hc) hn hr
  | false =>
    obtain ⟨d, ds, rfl⟩ := List.exists_cons_of_ne_nil hn.1.1
    have hd : d ≠ '-' := by
      rintro rfl
      exact absurd (hn.1.2 '-' (by simp)) (by decide)
    rw [if_neg (by simpa [hc] using hd)]
    exact unsigned_complete hc hn hr

theorem numeral_sound {c d : Cursor} {n : Numeral} (h : (numeral.run c).result = .ok (n, d)) :
    c.rest = n.text ++ d.rest ∧ n.IsWritten := by
  rw [result_numeral] at h
  by_cases hm : c.rest.head? = some '-'
  · rw [if_pos hm] at h
    obtain ⟨hneg, hn, hc⟩ := unsigned_sound h
    obtain ⟨t, ht⟩ := List.head?_eq_some_iff.1 hm
    rw [Cursor.rest_drop_one ht] at hc
    refine ⟨?_, hn⟩
    rw [numeral_text_eq, hneg, ht, hc]
    simp
  · rw [if_neg hm] at h
    obtain ⟨hneg, hn, hc⟩ := unsigned_sound h
    refine ⟨?_, hn⟩
    rw [numeral_text_eq, hneg, hc]
    simp

theorem body_complete {quote : Char} (hq : quote = '"' ∨ quote = '\'') {text rest : List Char}
    (h : Quoted.IsBody quote text) :
    Quoted.body quote (text ++ quote :: rest) = (some text, text.length + 1) := by
  induction h with
  | nil => exact Quoted.body_quote
  | @plain c t hne hb hl _ ih =>
    rw [List.cons_append, Quoted.body_plain hne hl hb, ih]
    rfl
  | @escaped c t hl _ ih =>
    have hne : '\\' ≠ quote := by rcases hq with rfl | rfl <;> decide
    rw [List.cons_append, List.cons_append, Quoted.body_escape hne hl, ih]
    rfl

theorem body_sound {quote : Char} {s text : List Char}
    (h : (Quoted.body quote s).1 = some text) :
    Quoted.IsBody quote text ∧ (Quoted.body quote s).2 = text.length + 1 ∧
      ∃ rest, s = text ++ quote :: rest := by
  induction s using Quoted.body.induct quote generalizing text with
  | case1 => cases h
  | case2 rest =>
    rw [Quoted.body_quote] at h ⊢
    obtain rfl := Option.some.inj h
    exact ⟨.nil, rfl, rest, rfl⟩
  | case3 c rest hne hl =>
    rw [Quoted.body_lineBreak hne hl] at h
    cases h
  | case4 hne =>
    rw [Quoted.body_backslash hne] at h
    cases h
  | case5 c rest hc hne =>
    rw [Quoted.body_escapedLineBreak hne hc] at h
    cases h
  | case6 c rest hc _ _ _ hne _ ih =>
    have hc : Quoted.isLineBreak c = false := Bool.eq_false_iff.2 hc
    rw [Quoted.body_escape hne hc] at h ⊢
    obtain ⟨t, ht, rfl⟩ := Option.map_eq_some_iff.1 h
    obtain ⟨hb, hn, more, he⟩ := ih ht
    exact ⟨.escaped hc hb, by simp [hn], more, by simp [he]⟩
  | case7 c rest hne hl hc _ _ _ ih =>
    have hl : Quoted.isLineBreak c = false := Bool.eq_false_iff.2 hl
    rw [Quoted.body_plain hne hl hc] at h ⊢
    obtain ⟨t, ht, rfl⟩ := Option.map_eq_some_iff.1 h
    obtain ⟨hb, hn, more, he⟩ := ih ht
    exact ⟨.plain hne hc hl hb, by simp [hn], more, by simp [he]⟩

theorem result_quoted (quote : Char) (c : Cursor) :
    ((quoted quote).run c).result =
      .ok (.quoted quote (Quoted.body quote (c.drop 1).rest).1,
        (c.drop 1).drop (Quoted.body quote (c.drop 1).rest).2) := rfl

/-! ## Lexemes -/

theorem result_lexeme {c : Cursor} {x : Char} {t : List Char} (hc : c.rest = x :: t) :
    (lexeme.run c).result =
      if x = '"' ∨ x = '\'' then ((quoted x).run c).result
      else if x = '-' ∨ x.isDigit = true then ((Lexeme.numeral <$> numeral).run c).result
      else if Identifier.isStart x = true then
        .ok (.word (c.rest.takeWhile Identifier.isPart),
          c.drop (c.rest.takeWhile Identifier.isPart).length)
      else .error ⟨.unexpected .literal (some x), c, c, 0⟩ := by
  rw [lexeme, result_bind_of_ok _ (result_look c), hc]
  simp only [List.head?_cons, Bool.or_eq_true, decide_eq_true_eq]
  split
  · rfl
  · split
    · rfl
    · split
      · rw [result_bind_of_ok _ (result_takeWhile _ c), run_pure, hc]
      · rw [result_expected, hc, List.head?_cons]

theorem result_lexeme_word {c : Cursor} (h : c.rest.head?.any Identifier.isStart = true) :
    (lexeme.run c).result =
      .ok (.word (c.rest.takeWhile Identifier.isPart),
        c.drop (c.rest.takeWhile Identifier.isPart).length) := by
  cases hc : c.rest with
  | nil => simp [hc] at h
  | cons x t =>
    have hx : Identifier.isStart x = true := by simpa [hc] using h
    have hq : ¬ (x = '"' ∨ x = '\'') := by
      rintro (rfl | rfl) <;> exact absurd hx (by decide)
    have hn : ¬ (x = '-' ∨ x.isDigit = true) := by
      rintro (rfl | hd)
      · exact absurd hx (by decide)
      · rw [Identifier.isStart_of_isDigit hd] at hx
        cases hx
    rw [result_lexeme hc, if_neg hq, if_neg hn, if_pos hx, hc]

/-- A lexeme is read as it was spelled. -/
theorem lexeme_complete {c : Cursor} {x : Lexeme} {word rest : List Char}
    (hx : x.Spelled word) (hc : c.rest = word ++ rest) (hr : Delimited rest) :
    ∃ d, (lexeme.run c).result = .ok (x, d) ∧ d.rest = rest := by
  cases hx with
  | word hw =>
    have hs := Lexeme.isStart_of_mem_keywords hw
    have ht : c.rest.takeWhile Identifier.isPart = word := by
      rw [hc]
      exact takeWhile_append_of_head (Lexeme.isPart_of_mem_keywords hw) fun y hy => (hr y hy).1
    have hh : c.rest.head?.any Identifier.isStart = true := by
      cases word with
      | nil => cases hs
      | cons x t => rw [hc]; exact hs
    exact ⟨_, by rw [result_lexeme_word hh, ht], Cursor.rest_drop_length hc⟩
  | @numeral n hn =>
    obtain ⟨d, hd, he⟩ := numeral_complete hc hn hr
    obtain ⟨x, t, ht, hx⟩ := hn.starts
    have hq : ¬ (x = '"' ∨ x = '\'') := by
      rintro (rfl | rfl) <;> exact absurd hx (by decide)
    refine ⟨d, ?_, he⟩
    rw [result_lexeme (hc.trans (by rw [ht, List.cons_append])), if_neg hq, if_pos hx,
      map_eq_pure_bind, result_bind_of_ok _ hd, run_pure]
  | @quoted quote body hq hb =>
    have hc : c.rest = quote :: (body ++ quote :: rest) := by simpa using hc
    rw [result_lexeme hc, if_pos hq, result_quoted, Cursor.rest_drop_one hc, body_complete hq hb]
    refine ⟨_, rfl, ?_⟩
    rw [Cursor.drop, Cursor.rest_drop_one hc]
    simp [List.drop_append]

/-- A lexeme whose string is closed takes up the text that it was read from. -/
theorem lexeme_passed {c d : Cursor} {x : Lexeme} (h : (lexeme.run c).result = .ok (x, d))
    (hx : ∀ quote, x ≠ .quoted quote none) :
    ∃ word, c.rest = word ++ d.rest ∧ x.IsReadFrom word := by
  cases hc : c.rest with
  | nil =>
    rw [lexeme, result_bind_of_ok _ (result_look c), hc] at h
    rw [List.head?_nil, result_expected] at h
    cases h
  | cons y t =>
    rw [result_lexeme hc] at h
    split at h
    · rename_i hq
      rw [result_quoted, Cursor.rest_drop_one hc] at h
      obtain ⟨rfl, rfl⟩ := Prod.mk.inj (Except.ok.inj h)
      cases hb : (Quoted.body y t).1 with
      | none => rw [hb] at hx; exact absurd rfl (hx y)
      | some body =>
        obtain ⟨hib, hn, rest, rfl⟩ := body_sound hb
        refine ⟨_, ?_, .quoted hq hib⟩
        rw [hn, Cursor.drop, Cursor.rest_drop_one hc]
        simp [List.drop_append]
    · split at h
      · rw [map_eq_pure_bind] at h
        obtain ⟨n, e, hn, h⟩ := result_bind_eq_ok h
        obtain ⟨rfl, rfl⟩ := Prod.mk.inj (Except.ok.inj h)
        obtain ⟨he, hw⟩ := numeral_sound hn
        exact ⟨n.text, hc ▸ he, .numeral hw⟩
      · split at h
        · obtain ⟨rfl, rfl⟩ := Prod.mk.inj (Except.ok.inj h)
          refine ⟨_, ?_, .word _⟩
          rw [Cursor.rest_drop_takeWhile, List.takeWhile_append_dropWhile, hc]
        · cases h

/-- A lexeme with a meaning was spelled where it was read. -/
theorem lexeme_sound {c d : Cursor} {x : Lexeme} {l : Literal}
    (h : (lexeme.run c).result = .ok (x, d)) (hl : x.Denotes l) :
    ∃ word, c.rest = word ++ d.rest ∧ x.Spelled word := by
  have hclosed : ∀ quote, x ≠ .quoted quote none := by
    rintro quote rfl
    cases hl
  obtain ⟨word, hword, hx⟩ := lexeme_passed h hclosed
  refine ⟨word, hword, ?_⟩
  cases hx with
  | word => exact .word hl.mem_keywords
  | numeral hn => exact .numeral hn
  | quoted hq hb => exact .quoted hq hb

end Parse

end QueryMarkup
