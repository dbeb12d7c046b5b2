import QueryMarkup.Proofs.Markup.Token

/-!
# Opening parentheses

Which parentheses of a text are signs, and not characters of a string, is decided by the text alone:
`Within` tells whether a prefix of it ends in a string. However a text is taken apart into tokens,
they hold as many opening parentheses as the text does outside of strings.
-/

namespace QueryMarkup

/-- Where a text ends, as to strings in quotes of either kind. -/
inductive Within where
  | text
  | string (quote : Char)
  | escape (quote : Char)
  deriving DecidableEq

def Within.after : Within → Char → Within
  | text, c => if c = '"' ∨ c = '\'' then string c else text
  | string quote, c => if c = quote then text else if c = '\\' then escape quote else string quote
  | escape quote, _ => string quote

/-- The opening parentheses outside of strings. -/
def openingsFrom (within : Within) : List Char → Nat
  | [] => 0
  | c :: rest => (if within = .text ∧ c = '(' then 1 else 0) + openingsFrom (within.after c) rest

def openings (text : List Char) : Nat := openingsFrom .text text

/-- So many parentheses open in the text, and its end is outside of strings. -/
def Opens (text : List Char) (count : Nat) : Prop :=
  ∀ rest, openings (text ++ rest) = count + openings rest

namespace Opens

theorem nil : Opens [] 0 := fun rest => (Nat.zero_add (openings rest)).symm

theorem append {s t : List Char} {m n : Nat} (h : Opens s m) (k : Opens t n) :
    Opens (s ++ t) (m + n) := by
  intro rest
  rw [List.append_assoc, h, k, Nat.add_assoc]

/-- Characters other than quotes leave the text outside of strings. -/
theorem single {c : Char} (h : c ≠ '"') (k : c ≠ '\'') : Opens [c] (if c = '(' then 1 else 0) := by
  intro rest
  show (if Within.text = .text ∧ c = '(' then 1 else 0) +
    openingsFrom (Within.text.after c) rest = _
  rw [Within.after, if_neg (not_or.2 ⟨h, k⟩)]
  simp only [true_and]
  rfl

theorem plain {s : List Char} (h : ∀ c ∈ s, c ∉ ['"', '\'', '(']) : Opens s 0 := by
  induction s with
  | nil => exact nil
  | cons c s ih =>
    obtain ⟨hc, hs⟩ := List.forall_mem_cons.1 h
    simp only [List.mem_cons, List.not_mem_nil, or_false, not_or] at hc
    have hone := single hc.1 hc.2.1
    rw [if_neg hc.2.2] at hone
    exact hone.append (ih hs)

/-- A body of a string leaves the text in the string. -/
theorem openingsFrom_body {quote : Char} (hquote : quote ≠ '\\') {body : List Char}
    (h : Quoted.IsBody quote body) (rest : List Char) :
    openingsFrom (.string quote) (body ++ rest) = openingsFrom (.string quote) rest := by
  have hinside : ∀ c, ¬((Within.string quote) = .text ∧ c = '(') := fun c h => by cases h.1
  induction h with
  | nil => rfl
  | plain hc hescape _ _ ih =>
    rw [List.cons_append, openingsFrom, if_neg (hinside _), Nat.zero_add, Within.after, if_neg hc,
      if_neg hescape, ih]
  | @escaped c body _ _ ih =>
    have hescape : (Within.string quote).after '\\' = .escape quote := by
      rw [Within.after, if_neg hquote.symm, if_pos rfl]
    rw [List.cons_append, List.cons_append, openingsFrom, if_neg (hinside _), hescape, openingsFrom,
      if_neg (fun h => by cases h.1), Nat.zero_add, Nat.zero_add]
    exact ih

theorem quoted {quote : Char} (hquote : quote = '"' ∨ quote = '\'') {body : List Char}
    (h : Quoted.IsBody quote body) : Opens (quote :: (body ++ [quote])) 0 := by
  have hne : quote ≠ '\\' ∧ quote ≠ '(' := by
    rcases hquote with rfl | rfl <;> decide
  intro rest
  rw [List.cons_append, List.append_assoc]
  show (if Within.text = .text ∧ quote = '(' then 1 else 0) +
    openingsFrom (Within.text.after quote) (body ++ ([quote] ++ rest)) = _
  rw [if_neg (fun h => hne.2 h.2), Within.after, if_pos hquote, openingsFrom_body hne.1 h,
    List.singleton_append, openingsFrom, if_neg (fun h => by cases h.1), Within.after, if_pos rfl,
    Nat.zero_add, Nat.zero_add, Nat.zero_add]
  rfl

end Opens

theorem not_mem_of_isPart {c : Char} (h : Identifier.isPart c = true) : c ∉ ['"', '\'', '('] := by
  intro hc
  have hall : ['"', '\'', '('].all (fun c => !Identifier.isPart c) = true := by decide
  have := List.all_eq_true.1 hall c hc
  simp [h] at this

theorem Blanks.opens {text : List Char} (h : Blanks text) : Opens text 0 := by
  refine .plain fun c hc hmem => ?_
  have hall : ['"', '\'', '('].all (fun c => !Parse.isBlank c) = true := by decide
  have := List.all_eq_true.1 hall c hmem
  simp [h c hc] at this

theorem Lexeme.Spelled.opens {x : Lexeme} {word : List Char} (h : x.Spelled word) :
    Opens word 0 := by
  cases h with
  | word hw => exact .plain fun c hc => not_mem_of_isPart (Lexeme.isPart_of_mem_keywords hw c hc)
  | numeral hn =>
    refine .plain fun c hc => ?_
    rcases hn.mem_cases hc with rfl | rfl | hd
    · decide
    · decide
    · exact not_mem_of_isPart (by simp [Identifier.isPart, Char.isAlphanum, hd])
  | quoted hquote hbody => exact .quoted hquote hbody

theorem Token.Spelled.opens {x : Token} {word : List Char} (h : x.Spelled word) :
    Opens word ([x].count (.sign '(')) := by
  cases h with
  | @sign c hc =>
    have hquotes : c ≠ '"' ∧ c ≠ '\'' := by
      constructor <;> (rintro rfl; exact absurd hc (by decide))
    have hcount : [Token.sign c].count (.sign '(') = if c = '(' then 1 else 0 := by
      simp [List.count_singleton]
    exact hcount ▸ .single hquotes.1 hquotes.2
  | name hn => exact .plain fun c hc => not_mem_of_isPart (Identifier.isPart_of_mem hn c hc)
  | literal hx => exact hx.opens

/-- However a text is taken apart, as many of its tokens are opening parentheses. -/
theorem Spells.opens {text : List Char} {tokens : List Token} (h : Spells text tokens) :
    Opens text (tokens.count (.sign '(')) := by
  induction h with
  | done hb => exact hb.opens
  | @next blanks word rest x tokens hb hw _ ih =>
    have hall := hb.opens.append (hw.opens.append ih)
    rwa [Nat.zero_add, ← List.count_append] at hall

theorem Spells.openings_eq {text : List Char} {tokens : List Token} (h : Spells text tokens) :
    openings text = tokens.count (.sign '(') := by
  have hall := h.opens []
  rw [List.append_nil] at hall
  exact hall

end QueryMarkup
