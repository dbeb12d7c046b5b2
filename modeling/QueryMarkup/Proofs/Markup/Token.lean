import Mathlib.Data.List.TakeWhile
import QueryMarkup.Reader.Literal

/-!
# Tokens and their spelling

What a text of the markup is made of: signs, names and literals, with blanks anywhere between
them. `Spells` relates a text to lists of tokens. It is no scanner: it says nothing about how far a
token reaches, and one text may spell several lists (`null` is a name and a literal).
-/

namespace QueryMarkup

/-- What may stand between two quotes of a kind: anything on one line, but a quote of that kind only
behind a backslash. -/
inductive Quoted.IsBody (quote : Char) : List Char → Prop where
  | nil : IsBody quote []
  | plain {c : Char} {rest : List Char} : c ≠ quote → c ≠ '\\' → isLineBreak c = false →
      IsBody quote rest → IsBody quote (c :: rest)
  | escaped {c : Char} {rest : List Char} : isLineBreak c = false →
      IsBody quote rest → IsBody quote ('\\' :: c :: rest)

namespace Numeral

def IsDigits (text : List Char) : Prop := text ≠ [] ∧ ∀ c ∈ text, c.isDigit = true

/-- At least one digit before the point, and behind it if there is one. -/
def IsWritten (n : Numeral) : Prop := IsDigits n.whole ∧ ∀ digits ∈ n.fraction, IsDigits digits

end Numeral

namespace Lexeme

def keywords : List (List Char) := ["null".toList, "true".toList, "false".toList]

/-- A literal in the form it is written, and its text. -/
inductive Spelled : Lexeme → List Char → Prop where
  | word {text : List Char} : text ∈ keywords → Spelled (.word text) text
  | numeral {n : Numeral} : n.IsWritten → Spelled (.numeral n) n.text
  | quoted {quote : Char} {body : List Char} : quote = '"' ∨ quote = '\'' →
      Quoted.IsBody quote body → Spelled (.quoted quote (some body)) (quote :: (body ++ [quote]))

end Lexeme

inductive Token where
  | sign (c : Char)
  | name (text : String)
  | literal (lexeme : Lexeme)
  deriving DecidableEq

namespace Token

def signs : List Char := ['{', '}', '(', ')', ',', ':', '.']

inductive Spelled : Token → List Char → Prop where
  | sign {c : Char} : c ∈ signs → Spelled (.sign c) [c]
  | name {text : String} : Identifier.isIdentifier text.toList = true →
      Spelled (.name text) text.toList
  | literal {x : Lexeme} {text : List Char} : x.Spelled text → Spelled (.literal x) text

end Token

def Blanks (text : List Char) : Prop := ∀ c ∈ text, Parse.isBlank c = true

/-- Tokens one behind the other, blanks around them. -/
inductive Spells : List Char → List Token → Prop where
  | done {blanks : List Char} : Blanks blanks → Spells blanks []
  | next {blanks word rest : List Char} {t : Token} {tokens : List Token} : Blanks blanks →
      t.Spelled word → Spells rest tokens → Spells (blanks ++ (word ++ rest)) (t :: tokens)

/-! ## First characters and blanks -/

/-- The characters that a name or a literal starts with. -/
def startsWord (c : Char) : Bool :=
  Identifier.isStart c || c = '-' || c.isDigit || c = '"' || c = '\''

theorem isBlank_iff {c : Char} :
    Parse.isBlank c = true ↔ c ∈ [' ', '\t', '\n', '\x0c', '\r'] := by
  simp [Parse.isBlank, or_assoc]

theorem startsWord_of_isBlank {c : Char} (h : Parse.isBlank c = true) : startsWord c = false := by
  have hall : [' ', '\t', '\n', '\x0c', '\r'].all (fun c => !startsWord c) = true := by decide
  simpa using List.all_eq_true.1 hall c (isBlank_iff.1 h)

theorem startsWord_of_mem_signs {c : Char} (h : c ∈ Token.signs) : startsWord c = false := by
  have hall : Token.signs.all (fun c => !startsWord c) = true := by decide
  simpa using List.all_eq_true.1 hall c h

theorem isBlank_of_mem_signs {c : Char} (h : c ∈ Token.signs) : Parse.isBlank c = false := by
  have hall : Token.signs.all (fun c => !Parse.isBlank c) = true := by decide
  simpa using List.all_eq_true.1 hall c h

theorem isBlank_of_startsWord {c : Char} (h : startsWord c = true) : Parse.isBlank c = false := by
  cases hb : Parse.isBlank c with
  | false => rfl
  | true => rw [startsWord_of_isBlank hb] at h; cases h

theorem Identifier.exists_cons {name : List Char} (h : Identifier.isIdentifier name = true) :
    ∃ c rest, name = c :: rest ∧ Identifier.isStart c = true ∧
      ∀ d ∈ rest, Identifier.isPart d = true := by
  cases name with
  | nil => simp [Identifier.isIdentifier] at h
  | cons c rest =>
    simp only [Identifier.isIdentifier, Bool.and_eq_true, List.all_eq_true] at h
    exact ⟨c, rest, rfl, h.1, h.2⟩

theorem Identifier.isPart_of_isStart {c : Char} (h : Identifier.isStart c = true) :
    Identifier.isPart c = true := by
  simp only [Identifier.isStart, Identifier.isPart, Char.isAlphanum, Bool.or_eq_true] at h ⊢
  rcases h with h | h
  · exact .inl (.inl (.inl h))
  · exact .inl (.inr h)

theorem Identifier.isPart_of_mem {name : List Char} (h : Identifier.isIdentifier name = true) :
    ∀ c ∈ name, Identifier.isPart c = true := by
  obtain ⟨x, rest, rfl, hs, hp⟩ := Identifier.exists_cons h
  intro c hc
  rcases List.mem_cons.1 hc with rfl | hc
  · exact Identifier.isPart_of_isStart hs
  · exact hp c hc

theorem Identifier.isStart_of_isDigit {c : Char} (h : c.isDigit = true) :
    Identifier.isStart c = false := by
  have hle : c.val ≤ '9'.val := UInt32.le_iff_toNat_le.2 (Char.isDigit_iff_toNat.1 h).2
  have hupper : c.isUpper = false :=
    decide_eq_false fun hu => absurd (UInt32.le_trans hu.1 hle) (by decide)
  have hlower : decide ('a'.val ≤ c.val) = false :=
    decide_eq_false fun hl => absurd (UInt32.le_trans hl hle) (by decide)
  have hunderscore : c ≠ '_' := by
    rintro rfl
    exact absurd h (by decide)
  show ((c.isUpper || (decide ('a'.val ≤ c.val) && decide (c.val ≤ 'z'.val))) ||
    decide (c = '_')) = false
  rw [hupper, hlower, decide_eq_false hunderscore]
  rfl

theorem Numeral.IsWritten.starts {n : Numeral} (h : n.IsWritten) :
    ∃ c rest, n.text = c :: rest ∧ (c = '-' ∨ c.isDigit = true) := by
  obtain ⟨⟨hne, hd⟩, -⟩ := h
  obtain ⟨d, ds, hw⟩ := List.exists_cons_of_ne_nil hne
  cases hneg : n.negative with
  | true => exact ⟨'-', _, by simp only [Numeral.text, hneg, if_true]; rfl, .inl rfl⟩
  | false =>
    exact ⟨d, _, by simp only [Numeral.text, hneg, hw]; rfl, .inr (hd d (by simp [hw]))⟩

/-- A numeral is made of digits, a sign and a point. -/
theorem Numeral.IsWritten.mem_cases {n : Numeral} (h : n.IsWritten) {c : Char} (hc : c ∈ n.text) :
    c = '-' ∨ c = '.' ∨ c.isDigit = true := by
  obtain ⟨negative, whole, fraction⟩ := n
  obtain ⟨⟨-, hwhole⟩, hfraction⟩ := h
  rcases List.mem_append.1 hc with hc | hc
  · rcases List.mem_append.1 hc with hc | hc
    · cases negative with
      | true => exact .inl (List.mem_singleton.1 hc)
      | false => cases hc
    · exact .inr (.inr (hwhole c hc))
  · cases fraction with
    | none => cases hc
    | some digits =>
      rcases List.mem_cons.1 hc with rfl | hc
      · exact .inr (.inl rfl)
      · exact .inr (.inr ((hfraction digits rfl).2 c hc))

theorem Lexeme.isPart_of_mem_keywords {word : List Char} (h : word ∈ keywords) :
    ∀ c ∈ word, Identifier.isPart c = true := by
  have hall : keywords.all (fun word => word.all Identifier.isPart) = true := by decide
  exact List.all_eq_true.1 (List.all_eq_true.1 hall word h)

theorem Lexeme.isStart_of_mem_keywords {word : List Char} (h : word ∈ keywords) :
    word.head?.any Identifier.isStart = true := by
  have hall : keywords.all (fun word => word.head?.any Identifier.isStart) = true := by decide
  exact List.all_eq_true.1 hall word h

theorem Lexeme.Spelled.starts {x : Lexeme} {text : List Char} (h : x.Spelled text) :
    ∃ c rest, text = c :: rest ∧ startsWord c = true := by
  cases h with
  | word hw =>
    simp only [keywords, List.mem_cons, List.not_mem_nil, or_false] at hw
    rcases hw with rfl | rfl | rfl <;> exact ⟨_, _, rfl, by decide⟩
  | numeral hn =>
    obtain ⟨c, rest, ht, hc⟩ := hn.starts
    exact ⟨c, rest, ht, by rcases hc with rfl | hc <;> simp [startsWord, *]⟩
  | quoted hq _ => rcases hq with rfl | rfl <;> exact ⟨_, _, rfl, by decide⟩

/-- Tokens other than signs start like words. -/
theorem Token.Spelled.starts {t : Token} {text : List Char} (h : t.Spelled text) :
    ∃ c rest, text = c :: rest ∧ (t = .sign c ∧ c ∈ Token.signs ∨
      (∀ s, t ≠ .sign s) ∧ startsWord c = true) := by
  cases h with
  | @sign c hc => exact ⟨c, [], rfl, .inl ⟨rfl, hc⟩⟩
  | @name n hn =>
    obtain ⟨c, rest, hw, hs, -⟩ := Identifier.exists_cons hn
    exact ⟨c, rest, hw, .inr ⟨by simp, by simp [startsWord, hs]⟩⟩
  | literal hx =>
    obtain ⟨c, rest, hw, hs⟩ := hx.starts
    exact ⟨c, rest, hw, .inr ⟨by simp, hs⟩⟩

theorem Token.Spelled.isBlank {t : Token} {c : Char} {rest : List Char}
    (h : t.Spelled (c :: rest)) : Parse.isBlank c = false := by
  obtain ⟨d, rest', he, hd⟩ := h.starts
  obtain ⟨rfl, -⟩ := List.cons.inj he
  rcases hd with ⟨-, hs⟩ | ⟨-, hs⟩
  · exact isBlank_of_mem_signs hs
  · exact isBlank_of_startsWord hs

theorem Blanks.append {s t : List Char} (h : Blanks s) (k : Blanks t) : Blanks (s ++ t) := by
  intro c hc
  rcases List.mem_append.1 hc with hc | hc
  · exact h c hc
  · exact k c hc

theorem Blanks.dropWhile_append {s t : List Char} (h : Blanks s) :
    (s ++ t).dropWhile Parse.isBlank = t.dropWhile Parse.isBlank :=
  List.dropWhile_append_of_pos h

theorem Blanks.dropWhile {s : List Char} (h : Blanks s) : s.dropWhile Parse.isBlank = [] := by
  simpa using h.dropWhile_append (t := [])

theorem blanks_takeWhile (text : List Char) : Blanks (text.takeWhile Parse.isBlank) :=
  fun _ hc => List.mem_takeWhile_imp hc

namespace Spells

/-! ## Texts and their tokens -/

theorem nil : Spells [] [] := .done (by simp [Blanks])

theorem blanks {s t : List Char} {tokens : List Token} (h : Blanks s) (k : Spells t tokens) :
    Spells (s ++ t) tokens := by
  cases k with
  | done hb => exact .done (h.append hb)
  | next hb hw hr =>
    rw [← List.append_assoc]
    exact .next (h.append hb) hw hr

theorem append {s t : List Char} {a b : List Token} (h : Spells s a) (k : Spells t b) :
    Spells (s ++ t) (a ++ b) := by
  induction h with
  | done hb => exact k.blanks hb
  | next hb hw _ ih =>
    rw [List.append_assoc, List.append_assoc]
    exact .next hb hw ih

theorem cons {word t : List Char} {x : Token} {tokens : List Token} (h : x.Spelled word)
    (k : Spells t tokens) : Spells (word ++ t) (x :: tokens) := by
  have hb : Blanks [] := by simp [Blanks]
  exact next hb h k

theorem single {word : List Char} {x : Token} (h : x.Spelled word) : Spells word [x] := by
  simpa using cons h nil

theorem sign {c : Char} {t : List Char} {tokens : List Token} (h : c ∈ Token.signs)
    (k : Spells t tokens) : Spells (c :: t) (.sign c :: tokens) := cons (.sign h) k

/-- Without tokens there are only blanks. -/
theorem dropWhile_nil {t : List Char} (h : Spells t []) : t.dropWhile Parse.isBlank = [] := by
  cases h with
  | done hb => exact hb.dropWhile

/-- Behind the blanks the first token comes next. -/
theorem first {t : List Char} {x : Token} {tokens : List Token} (h : Spells t (x :: tokens)) :
    ∃ word rest, t.dropWhile Parse.isBlank = word ++ rest ∧ x.Spelled word ∧
      Spells rest tokens := by
  cases h with
  | @next blanks word rest _ _ hb hw hr =>
    refine ⟨word, rest, ?_, hw, hr⟩
    obtain ⟨c, word, rfl, -⟩ := hw.starts
    rw [hb.dropWhile_append, List.cons_append, List.dropWhile_cons_of_neg]
    simp [hw.isBlank]

theorem dropWhile {t : List Char} {tokens : List Token} (h : Spells t tokens) :
    Spells (t.dropWhile Parse.isBlank) tokens := by
  cases tokens with
  | nil => rw [h.dropWhile_nil]; exact nil
  | cons x tokens =>
    obtain ⟨word, rest, ht, hw, hr⟩ := h.first
    rw [ht]
    exact cons hw hr

/-- Behind the blanks comes a sign exactly if the first token is that sign. -/
theorem head?_eq_sign_iff {t : List Char} {tokens : List Token} (h : Spells t tokens) {c : Char}
    (hc : c ∈ Token.signs) :
    (t.dropWhile Parse.isBlank).head? = some c ↔ tokens.head? = some (.sign c) := by
  cases tokens with
  | nil => simp [h.dropWhile_nil]
  | cons x tokens =>
    obtain ⟨word, rest, ht, hw, -⟩ := h.first
    obtain ⟨d, word, rfl, hd⟩ := hw.starts
    rw [ht]
    rcases hd with ⟨rfl, -⟩ | ⟨hs, hd⟩
    · simp
    · have hne : d ≠ c := fun e => by
        rw [e, startsWord_of_mem_signs hc] at hd; cases hd
      simp [hne, hs c]

end Spells

end QueryMarkup
