import QueryMarkup.Text.Quoted

/-!
# What quoted strings denote

The body of a string is a row of units: a character that stands for itself, a letter behind a
backslash, four hexadecimal digits behind `\u`, or two such units that are the halves of one
character. `Denotes` says which text a body stands for, and `decode_eq_ok_iff` that this is the text
that is decoded.
-/

namespace QueryMarkup

namespace Quoted

/-- The letters that may stand behind a backslash, and what they stand for. -/
def simpleEscapes : List (Char × Char) :=
  [('"', '"'), ('\'', '\''), ('\\', '\\'), ('/', '/'), ('b', '\x08'), ('f', '\x0c'), ('n', '\n'),
   ('r', '\r'), ('t', '\t')]

/-- Four hexadecimal digits and the number they are. -/
inductive IsUnit : List Char → Nat → Prop where
  | intro {a b c d : Char} {w x y z : Nat} : Escaped.hexValue? a = some w →
      Escaped.hexValue? b = some x → Escaped.hexValue? c = some y →
      Escaped.hexValue? d = some z → IsUnit [a, b, c, d] (((w * 16 + x) * 16 + y) * 16 + z)

/-- The text that a body stands for. Numbers from `D800` to `DFFF` are no characters: the lower half
of them leads a pair and the upper half ends it. -/
inductive Denotes : List Char → List Char → Prop where
  | nil : Denotes [] []
  | plain {c : Char} {rest text : List Char} : 0x20 ≤ c.toNat → c ≠ '\\' →
      Denotes rest text → Denotes (c :: rest) (c :: text)
  | simple {e c : Char} {rest text : List Char} : (e, c) ∈ simpleEscapes →
      Denotes rest text → Denotes ('\\' :: e :: rest) (c :: text)
  | unit {digits rest text : List Char} {u : Nat} : IsUnit digits u → u < 0xD800 ∨ 0xE000 ≤ u →
      Denotes rest text → Denotes ('\\' :: 'u' :: (digits ++ rest)) (Char.ofNat u :: text)
  | pair {digits digits' rest text : List Char} {u v : Nat} :
      IsUnit digits u → 0xD800 ≤ u → u < 0xDC00 → IsUnit digits' v → 0xDC00 ≤ v → v < 0xE000 →
      Denotes rest text →
      Denotes ('\\' :: 'u' :: (digits ++ '\\' :: 'u' :: (digits' ++ rest)))
        (Char.ofNat (0x10000 + (u - 0xD800) * 0x400 + (v - 0xDC00)) :: text)

end Quoted

namespace Escaped

open Quoted

theorem hexFour_eq_ok_iff {text : List Char} {u : Nat} :
    hexFour text = .ok u ↔ ∃ digits rest, text = digits ++ rest ∧ IsUnit digits u := by
  constructor
  · intro h
    unfold hexFour at h
    split at h
    · rename_i a b c d rest
      split at h
      · rename_i w x y z hw hx hy hz
        cases h
        exact ⟨[a, b, c, d], rest, rfl, .intro hw hx hy hz⟩
      · cases h
    · cases h
  · rintro ⟨_, rest, rfl, hu⟩
    cases hu with
    | intro hw hx hy hz => simp [hexFour, hw, hx, hy, hz]

theorem simpleEscape?_u : simpleEscape? 'u' = none := rfl

/-- Between double quotes a single quote is not escaped. -/
theorem simpleEscape?_eq_some_iff {e c : Char} :
    simpleEscape? e = some c ↔ (e, c) ∈ simpleEscapes ∧ e ≠ '\'' := by
  constructor
  · intro h
    unfold simpleEscape? at h
    repeat' split at h
    all_goals first
      | contradiction
      | (rename_i he; subst he; obtain rfl := Option.some.inj h; decide)
  · rintro ⟨h, hne⟩
    simp only [simpleEscapes, List.mem_cons, Prod.mk.injEq, List.not_mem_nil, or_false] at h
    rcases h with ⟨rfl, rfl⟩ | ⟨rfl, rfl⟩ | ⟨rfl, rfl⟩ | ⟨rfl, rfl⟩ | ⟨rfl, rfl⟩ | ⟨rfl, rfl⟩ |
      ⟨rfl, rfl⟩ | ⟨rfl, rfl⟩ | ⟨rfl, rfl⟩
    all_goals first
      | rfl
      | exact absurd rfl hne

theorem isLeading_iff {u : Nat} : isLeading u = true ↔ 0xD800 ≤ u ∧ u < 0xDC00 := by
  rw [isLeading, decide_eq_true_iff]

theorem isTrailing_iff {u : Nat} : isTrailing u = true ↔ 0xDC00 ≤ u ∧ u < 0xE000 := by
  rw [isTrailing, decide_eq_true_iff]

theorem secondHalf_eq_ok_iff {u : Nat} {text : List Char} {c : Char} :
    secondHalf u text = .ok c ↔ ∃ rest v, text = '\\' :: 'u' :: rest ∧ hexFour rest = .ok v ∧
      isTrailing v = true ∧ paired u v = c := by
  constructor
  · intro h
    unfold secondHalf at h
    split at h
    · rename_i rest
      split at h
      · contradiction
      · rename_i v hv
        split at h
        · rename_i ht
          exact ⟨rest, v, rfl, hv, ht, Except.ok.inj h⟩
        · contradiction
    · contradiction
    · contradiction
  · rintro ⟨rest, v, rfl, hv, ht, hc⟩
    simp only [secondHalf, hv, ht, if_true, hc]

/-- A number is that of a character, or leads a pair. -/
theorem unicode_eq_ok_iff {text : List Char} {c : Char} {n : Nat} :
    unicode text = .ok (c, n) ↔ ∃ u, hexFour text = .ok u ∧
      ((u < 0xD800 ∨ 0xE000 ≤ u) ∧ Char.ofNat u = c ∧ 4 = n ∨
        isLeading u = true ∧ secondHalf u (text.drop 4) = .ok c ∧ 10 = n) := by
  unfold unicode
  cases hexFour text with
  | error fault => simp only [reduceCtorEq, false_and, exists_false]
  | ok u =>
    simp only [Except.ok.injEq, exists_eq_left']
    by_cases ht : isTrailing u = true
    · have hn : ¬ (u < 0xD800 ∨ 0xE000 ≤ u) := by have := isTrailing_iff.1 ht; omega
      have hl : ¬ isLeading u = true := fun hl => by
        have := isTrailing_iff.1 ht; have := isLeading_iff.1 hl; omega
      simp only [ht, hl, hn, if_true, reduceCtorEq, false_and, or_self]
    · by_cases hl : isLeading u = true
      · have hn : ¬ (u < 0xD800 ∨ 0xE000 ≤ u) := by have := isLeading_iff.1 hl; omega
        cases secondHalf u (text.drop 4) <;>
          simp only [ht, hl, hn, Except.map, Except.ok.injEq, Prod.mk.injEq, reduceCtorEq, if_true,
            Bool.false_eq_true, if_false, false_and, and_false, true_and, false_or, or_self]
      · have hn : u < 0xD800 ∨ 0xE000 ≤ u := by
          rw [isTrailing_iff] at ht; rw [isLeading_iff] at hl; omega
        simp only [ht, hl, hn, Except.ok.injEq, Prod.mk.injEq, Bool.false_eq_true, if_false,
          false_and, true_and, or_false]

theorem escape_eq_ok_iff {e c : Char} {rest : List Char} {n : Nat} :
    escape (e :: rest) = .ok (c, n) ↔ simpleEscape? e = some c ∧ 1 = n ∨
      e = 'u' ∧ ∃ m, unicode rest = .ok (c, m) ∧ m + 1 = n := by
  rw [escape]
  by_cases hu : e = 'u'
  · subst hu
    rw [simpleEscape?_u]
    cases hr : unicode rest with
    | error fault => simp [Except.map]
    | ok r =>
      obtain ⟨d, m⟩ := r
      simp [Except.map, and_assoc]
  · cases simpleEscape? e <;> simp [hu]

theorem decode_cons_eq_ok_iff {c : Char} {rest text : List Char} :
    decode (c :: rest) = .ok text ↔ ∃ d n more, character c rest = .ok (d, n) ∧
      decode (rest.drop n) = .ok more ∧ d :: more = text := by
  rw [decode_cons]
  constructor
  · intro h
    split at h
    · contradiction
    · rename_i d n hc
      cases hd : decode (rest.drop n) with
      | error fault => rw [hd] at h; contradiction
      | ok more => rw [hd] at h; exact ⟨d, n, more, hc, hd, Except.ok.inj h⟩
  · rintro ⟨d, n, more, hc, hd, rfl⟩
    simp only [hc, hd, Except.map]

theorem character_plain {c : Char} {rest : List Char} {r : Char × Nat} (hne : c ≠ '\\') :
    character c rest = .ok r ↔ 0x20 ≤ c.toNat ∧ (c, 0) = r := by
  by_cases hc : c.toNat < 0x20
  · simp only [character, hne, hc, if_true, if_false, reduceCtorEq, false_iff]
    omega
  · simp only [character, hne, hc, if_false, Except.ok.injEq, Nat.not_lt.1 hc, true_and]

theorem decode_plain {c : Char} {rest text : List Char} (hne : c ≠ '\\') :
    decode (c :: rest) = .ok text ↔
      0x20 ≤ c.toNat ∧ ∃ more, decode rest = .ok more ∧ c :: more = text := by
  rw [decode_cons_eq_ok_iff]
  constructor
  · rintro ⟨d, n, more, hd, hm, rfl⟩
    obtain ⟨hc, hr⟩ := (character_plain hne).1 hd
    obtain ⟨rfl, rfl⟩ := Prod.mk.inj hr
    exact ⟨hc, more, hm, rfl⟩
  · rintro ⟨hc, more, hm, rfl⟩
    exact ⟨c, 0, more, (character_plain hne).2 ⟨hc, rfl⟩, hm, rfl⟩

theorem decode_escape {rest text : List Char} :
    decode ('\\' :: rest) = .ok text ↔ ∃ d n more, escape rest = .ok (d, n) ∧
      decode (rest.drop n) = .ok more ∧ d :: more = text := decode_cons_eq_ok_iff

theorem decode_simple {e c : Char} {rest text : List Char} (h : simpleEscape? e = some c) :
    decode ('\\' :: e :: rest) = .ok text ↔ ∃ more, decode rest = .ok more ∧ c :: more = text := by
  have he : escape (e :: rest) = .ok (c, 1) := escape_eq_ok_iff.2 (.inl ⟨h, rfl⟩)
  rw [decode_escape]
  constructor
  · rintro ⟨d, n, more, hd, hm, rfl⟩
    obtain ⟨rfl, rfl⟩ := Prod.mk.inj (Except.ok.inj (he.symm.trans hd))
    exact ⟨more, hm, rfl⟩
  · rintro ⟨more, hm, rfl⟩
    exact ⟨c, 1, more, he, hm, rfl⟩

end Escaped

namespace Quoted

open Escaped

/-! ## Spelling as between double quotes -/

theorem doubleQuoted_quote (rest : List Char) :
    doubleQuoted ('\\' :: '\'' :: rest) = '\'' :: doubleQuoted rest := rfl

theorem doubleQuoted_escape {c : Char} (h : c ≠ '\'') (rest : List Char) :
    doubleQuoted ('\\' :: c :: rest) = '\\' :: c :: doubleQuoted rest := by
  rw [doubleQuoted]
  exact fun e => h e

theorem doubleQuoted_double (rest : List Char) :
    doubleQuoted ('"' :: rest) = '\\' :: '"' :: doubleQuoted rest := by
  rw [doubleQuoted]

theorem doubleQuoted_plain {c : Char} (h : c ≠ '\\') (k : c ≠ '"') (rest : List Char) :
    doubleQuoted (c :: rest) = c :: doubleQuoted rest := by
  rw [doubleQuoted]
  · exact fun _ e => absurd e h
  · exact fun _ _ e => absurd e h
  · exact fun e => k e

theorem hexValue?_isSome_ne {c : Char} {v : Nat} (h : hexValue? c = some v) :
    c ≠ '\\' ∧ c ≠ '"' ∧ c ≠ '\'' := by
  refine ⟨?_, ?_, ?_⟩ <;> rintro rfl <;> simp [hexValue?] at h

theorem doubleQuoted_digit {c : Char} {v : Nat} (h : hexValue? c = some v) (rest : List Char) :
    doubleQuoted (c :: rest) = c :: doubleQuoted rest :=
  doubleQuoted_plain (hexValue?_isSome_ne h).1 (hexValue?_isSome_ne h).2.1 rest

theorem doubleQuoted_unit {digits : List Char} {u : Nat} (h : IsUnit digits u) (rest : List Char) :
    doubleQuoted (digits ++ rest) = digits ++ doubleQuoted rest := by
  cases h with
  | intro ha hb hc hd =>
    simp only [List.cons_append, List.nil_append, doubleQuoted_digit ha, doubleQuoted_digit hb,
      doubleQuoted_digit hc, doubleQuoted_digit hd]

/-- A hexadecimal digit was one before. -/
theorem cons_of_doubleQuoted {c : Char} {v : Nat} {body rest : List Char}
    (h : hexValue? c = some v) (k : doubleQuoted body = c :: rest) :
    ∃ body', body = c :: body' ∧ doubleQuoted body' = rest := by
  obtain ⟨h1, -, h3⟩ := hexValue?_isSome_ne h
  unfold doubleQuoted at k
  split at k
  · cases k
  · cases k; exact absurd rfl h3
  · cases k; exact absurd rfl h1
  · cases k; exact absurd rfl h1
  · rename_i d body' _ _ _
    obtain ⟨rfl, rfl⟩ := List.cons.inj k
    exact ⟨body', rfl, rfl⟩

theorem unit_of_doubleQuoted {digits body rest : List Char} {u : Nat} (h : IsUnit digits u)
    (k : doubleQuoted body = digits ++ rest) :
    ∃ body', body = digits ++ body' ∧ doubleQuoted body' = rest := by
  cases h with
  | intro ha hb hc hd =>
    obtain ⟨_, rfl, k1⟩ := cons_of_doubleQuoted ha k
    obtain ⟨_, rfl, k2⟩ := cons_of_doubleQuoted hb k1
    obtain ⟨_, rfl, k3⟩ := cons_of_doubleQuoted hc k2
    obtain ⟨s, rfl, k4⟩ := cons_of_doubleQuoted hd k3
    exact ⟨s, rfl, k4⟩

/-- So was the start of a further escape. -/
theorem escape_of_doubleQuoted {body rest : List Char}
    (k : doubleQuoted body = '\\' :: 'u' :: rest) :
    ∃ body', body = '\\' :: 'u' :: body' ∧ doubleQuoted body' = rest := by
  unfold doubleQuoted at k
  split at k
  · cases k
  · cases k
  · rename_i c body' _
    obtain ⟨-, k⟩ := List.cons.inj k
    obtain ⟨rfl, rfl⟩ := List.cons.inj k
    exact ⟨body', rfl, rfl⟩
  · cases k
  · rename_i d body' _ h _
    obtain ⟨rfl, k⟩ := List.cons.inj k
    cases body' with
    | nil => cases k
    | cons e body' => exact (h e body' rfl rfl).elim

/-! ## Decoding -/

theorem decode_of_denotes {body text : List Char} (h : Denotes body text) :
    Escaped.decode (doubleQuoted body) = .ok text := by
  induction h with
  | nil => rfl
  | @plain c rest text hc hne _ ih =>
    by_cases hq : c = '"'
    · subst hq
      rw [doubleQuoted_double, decode_simple (c := '"') rfl]
      exact ⟨text, ih, rfl⟩
    · rw [doubleQuoted_plain hne hq, decode_plain hne]
      exact ⟨hc, text, ih, rfl⟩
  | @simple e c rest text he _ ih =>
    by_cases hq : e = '\''
    · subst hq
      have hc : c = '\'' := by simpa [simpleEscapes] using he
      subst hc
      rw [doubleQuoted_quote, decode_plain (by decide)]
      exact ⟨by decide, text, ih, rfl⟩
    · rw [doubleQuoted_escape hq, decode_simple (simpleEscape?_eq_some_iff.2 ⟨he, hq⟩)]
      exact ⟨text, ih, rfl⟩
  | @unit digits rest text u hu hr _ ih =>
    rw [doubleQuoted_escape (by decide), doubleQuoted_unit hu, decode_escape]
    refine ⟨_, 5, text, escape_eq_ok_iff.2 (.inr ⟨rfl, 4, ?_, rfl⟩), ?_, rfl⟩
    · exact unicode_eq_ok_iff.2 ⟨u, hexFour_eq_ok_iff.2 ⟨_, _, rfl, hu⟩, .inl ⟨hr, rfl, rfl⟩⟩
    · cases hu; exact ih
  | @pair digits digits' rest text u v hu hu1 hu2 hv hv1 hv2 _ ih =>
    rw [doubleQuoted_escape (by decide), doubleQuoted_unit hu, doubleQuoted_escape (by decide),
      doubleQuoted_unit hv, decode_escape]
    refine ⟨_, 11, text, escape_eq_ok_iff.2 (.inr ⟨rfl, 10, ?_, rfl⟩), ?_, rfl⟩
    · refine unicode_eq_ok_iff.2 ⟨u, hexFour_eq_ok_iff.2 ⟨_, _, rfl, hu⟩,
        .inr ⟨isLeading_iff.2 ⟨hu1, hu2⟩, ?_, rfl⟩⟩
      refine secondHalf_eq_ok_iff.2 ⟨digits' ++ doubleQuoted rest, v, ?_,
        hexFour_eq_ok_iff.2 ⟨_, _, rfl, hv⟩, isTrailing_iff.2 ⟨hv1, hv2⟩, rfl⟩
      cases hu; rfl
    · cases hu; cases hv; exact ih

/-- An escape that is decoded behind its backslash is a unit or a pair of the body. -/
theorem denotes_escape {c : Char} {n : Nat} {e : Char} {rest more : List Char} (hq : e ≠ '\'')
    (he : escape (e :: doubleQuoted rest) = .ok (c, n))
    (ih : ∀ body text : List Char, body.length ≤ rest.length →
      Escaped.decode (doubleQuoted body) = .ok text → Denotes body text)
    (hm : Escaped.decode ((e :: doubleQuoted rest).drop n) = .ok more) :
    Denotes ('\\' :: e :: rest) (c :: more) := by
  rcases escape_eq_ok_iff.1 he with ⟨hs, rfl⟩ | ⟨rfl, m, hu, rfl⟩
  · exact .simple (simpleEscape?_eq_some_iff.1 hs).1 (ih rest more (Nat.le_refl _) hm)
  · obtain ⟨u, h4, hcase⟩ := unicode_eq_ok_iff.1 hu
    obtain ⟨digits, tail, ht, hd⟩ := hexFour_eq_ok_iff.1 h4
    obtain ⟨rest, rfl, rfl⟩ := unit_of_doubleQuoted hd ht
    rcases hcase with ⟨hr, rfl, rfl⟩ | ⟨hl, h2, rfl⟩
    · refine .unit hd hr (ih rest more (by simp) ?_)
      rw [ht] at hm; cases hd; exact hm
    · obtain ⟨tail, v, hd4, h4', hv, rfl⟩ := secondHalf_eq_ok_iff.1 h2
      have hrest : doubleQuoted rest = '\\' :: 'u' :: tail := by
        rw [ht] at hd4; cases hd; exact hd4
      obtain ⟨rest, rfl, rfl⟩ := escape_of_doubleQuoted hrest
      obtain ⟨digits', tail, ht', hd'⟩ := hexFour_eq_ok_iff.1 h4'
      obtain ⟨rest, rfl, rfl⟩ := unit_of_doubleQuoted hd' ht'
      refine .pair hd (isLeading_iff.1 hl).1 (isLeading_iff.1 hl).2 hd' (isTrailing_iff.1 hv).1
        (isTrailing_iff.1 hv).2 (ih rest more (by simp; omega) ?_)
      rw [ht, hrest, ht'] at hm; cases hd; cases hd'; exact hm

theorem denotes_of_decode {body text : List Char}
    (h : Escaped.decode (doubleQuoted body) = .ok text) : Denotes body text := by
  -- units have several lengths, hence an induction on the length of the body
  induction hn : body.length using Nat.strongRecOn generalizing body text with
  | ind n ih =>
    subst hn
    cases body with
    | nil =>
      obtain rfl := Except.ok.inj h
      exact .nil
    | cons c rest =>
      by_cases hb : c = '\\'
      · subst hb
        cases rest with
        | nil => contradiction
        | cons e rest =>
          by_cases hq : e = '\''
          · subst hq
            rw [doubleQuoted_quote, decode_plain (by decide)] at h
            obtain ⟨-, more, hm, rfl⟩ := h
            exact .simple (by decide) (ih _ (by simp only [List.length_cons]; omega) hm rfl)
          · rw [doubleQuoted_escape hq, decode_escape] at h
            obtain ⟨d, k, more, he, hm, rfl⟩ := h
            refine denotes_escape hq he (fun body text hl hb => ih _ ?_ hb rfl) hm
            simp only [List.length_cons]
            omega
      · by_cases hq : c = '"'
        · subst hq
          rw [doubleQuoted_double, decode_simple (c := '"') rfl] at h
          obtain ⟨more, hm, rfl⟩ := h
          exact .plain (by decide) hb (ih _ (Nat.lt_succ_self _) hm rfl)
        · rw [doubleQuoted_plain hb hq] at h
          obtain ⟨hc, more, hm, rfl⟩ := (decode_plain hb).1 h
          exact .plain hc hb (ih _ (Nat.lt_succ_self _) hm rfl)

/-- Decoding gives the text that the body denotes, and fails if it denotes none. -/
theorem decode_eq_ok_iff {body text : List Char} : decode body = .ok text ↔ Denotes body text := by
  have hd : decode body = .ok text ↔ Escaped.decode (doubleQuoted body) = .ok text := by
    unfold decode
    cases Escaped.decode (doubleQuoted body) with
    | ok t => exact ⟨fun h => congrArg _ (Except.ok.inj h), fun h => congrArg _ (Except.ok.inj h)⟩
    | error e => exact ⟨nofun, nofun⟩
  exact hd.trans ⟨denotes_of_decode, decode_of_denotes⟩

end Quoted

end QueryMarkup
