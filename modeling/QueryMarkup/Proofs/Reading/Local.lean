import QueryMarkup.Proofs.Reading.Lexeme

/-!
# What a reading depends on

A reading depends on the characters it passed over and the next one. `Alike` relates cursors whose
texts agree up to a character `x` and go on differently behind it; where a rule stops at `x` at the
latest, it does the same at both. Only a rule that looks further ahead needs an argument of its own:
`startsPair` looks for the colon behind a name.
-/

namespace QueryMarkup

variable {α β : Type}

/-- Whether the failure says what was expected, or refuses a selection for its depth. -/
def Cause.IsPointed : Cause → Prop
  | .unexpected _ _ | .tooDeep _ => True
  | _ => False

section
variable (x : Char) (t t' : List Char)

/-- The texts agree up to `x`, behind which `t` and `t'` stand. -/
def Alike (c c' : Cursor) : Prop := ∃ s, c.rest = s ++ x :: t ∧ c'.rest = s ++ x :: t'

/-- The reading stops at the character in front of `t` at the latest. -/
def Stays (r : Except Failure (α × Cursor)) : Prop :=
  match r with
  | .ok (_, d) => t.length < d.rest.length
  | .error f => t.length < f.mark.rest.length ∧ f.cause.IsPointed

/-- The same value at places alike, or the same failure. -/
def Similar (r r' : Except Failure (α × Cursor)) : Prop :=
  match r, r' with
  | .ok (a, d), .ok (a', d') => a = a' ∧ Alike x t t' d d'
  | .error f, .error f' => f.cause = f'.cause
  | _, _ => False

end

variable {x : Char} {t t' : List Char}

theorem Alike.head? {c c' : Cursor} (h : Alike x t t' c c') : c.rest.head? = c'.rest.head? := by
  obtain ⟨s, hc, hc'⟩ := h
  rw [hc, hc']
  cases s <;> rfl

theorem Similar.of_ok {r' : Except Failure (α × Cursor)} {a : α} {d : Cursor}
    (h : Similar x t t' (.ok (a, d)) r') : ∃ d', r' = .ok (a, d') ∧ Alike x t t' d d' := by
  cases r' with
  | error f => exact h.elim
  | ok r =>
    obtain ⟨a', d'⟩ := r
    obtain ⟨rfl, hd⟩ := h
    exact ⟨d', rfl, hd⟩

theorem Similar.of_error {r' : Except Failure (α × Cursor)} {f : Failure}
    (h : Similar x t t' (.error f) r') : ∃ f', r' = .error f' ∧ f.cause = f'.cause := by
  cases r' with
  | error f' => exact ⟨f', rfl, h⟩
  | ok r => exact h.elim

/-- As long as the common character is not passed over, the classes of characters are the same. -/
theorem takeWhile_local (t' : List Char) {p : Char → Bool} {s : List Char}
    (h : t.length < ((s ++ x :: t).dropWhile p).length) :
    (s ++ x :: t').takeWhile p = (s ++ x :: t).takeWhile p ∧
      ∃ u, (s ++ x :: t).dropWhile p = u ++ x :: t ∧ (s ++ x :: t').dropWhile p = u ++ x :: t' := by
  induction s with
  | nil =>
    rw [List.nil_append] at h
    by_cases hx : p x = true
    · rw [List.dropWhile_cons_of_pos hx] at h
      have := (List.dropWhile_suffix (l := t) p).length_le
      omega
    · refine ⟨?_, [], ?_, ?_⟩ <;> simp [hx]
  | cons y s ih =>
    rw [List.cons_append] at h
    by_cases hy : p y = true
    · rw [List.dropWhile_cons_of_pos hy] at h
      obtain ⟨ht, u, hu, hu'⟩ := ih h
      refine ⟨?_, u, ?_, ?_⟩
      · simp [hy, ht]
      · rw [List.cons_append, List.dropWhile_cons_of_pos hy, hu]
      · rw [List.cons_append, List.dropWhile_cons_of_pos hy, hu']
    · refine ⟨?_, y :: s, ?_, ?_⟩ <;> simp [hy]

namespace Parse

/-- What the rule does at this cursor it does at those alike, if it stays in front of the texts
behind them. -/
def LocalAt (p : Parse α) (c : Cursor) : Prop :=
  ∀ x t t' c', Alike x t t' c c' → Stays t (p.run c).result →
    Similar x t t' (p.run c).result (p.run c').result

theorem stays_of_bind {p : Parse α} {next : α → Parse β} {c : Cursor}
    (h : Stays t ((p >>= next).run c).result) : Stays t (p.run c).result := by
  rw [result_bind] at h
  cases hr : (p.run c).result with
  | error f => rwa [hr] at h
  | ok r =>
    obtain ⟨a, d⟩ := r
    rw [hr] at h
    have hf := (next a).forward d
    unfold Outcome.Forward at hf
    show t.length < d.rest.length
    cases hn : ((next a).run d).result with
    | error f =>
      simp only [hn] at h hf
      exact Nat.lt_of_lt_of_le h.1 hf.2.1.length_le
    | ok r =>
      simp only [hn] at h hf
      exact Nat.lt_of_lt_of_le h hf.reaches.length_le

theorem LocalAt.bind {p : Parse α} {next : α → Parse β} {c : Cursor} (hp : LocalAt p c)
    (hn : ∀ a d, (p.run c).result = .ok (a, d) → LocalAt (next a) d) :
    LocalAt (p >>= next) c := by
  intro x t t' c' hc h
  have hs := hp x t t' c' hc (stays_of_bind h)
  cases hr : (p.run c).result with
  | error f =>
    rw [hr] at hs
    obtain ⟨f', hr', hcause⟩ := hs.of_error
    rw [result_bind_of_error _ hr, result_bind_of_error _ hr']
    exact hcause
  | ok r =>
    obtain ⟨a, d⟩ := r
    rw [hr] at hs
    obtain ⟨d', hr', hd⟩ := hs.of_ok
    rw [result_bind_of_ok _ hr] at h ⊢
    rw [result_bind_of_ok _ hr']
    exact hn a d hr x t t' d' hd h

theorem localAt_pure (a : α) (c : Cursor) : LocalAt (pure a) c :=
  fun _ _ _ _ hc _ => ⟨rfl, hc⟩

theorem LocalAt.congr {p q : Parse α} {c : Cursor} (hq : LocalAt q c)
    (h : ∀ c, (p.run c).result = (q.run c).result) : LocalAt p c := by
  intro x t t' c' hc hs
  rw [h] at hs ⊢
  rw [h]
  exact hq x t t' c' hc hs

theorem LocalAt.traced {p : Parse α} {c : Cursor} (rule : Rule) (h : LocalAt p c) :
    LocalAt (traced rule p) c :=
  h.congr (result_traced rule p)

theorem LocalAt.inside {p : Parse α} {c : Cursor} (h : LocalAt p c) : LocalAt (inside p) c := by
  intro x t t' c' hc hs
  rw [result_inside] at hs ⊢
  rw [result_inside]
  have hp := h x t t' c' hc
  cases hr : (p.run c).result with
  | error f =>
    simp only [hr] at hs hp
    obtain ⟨f', hr', hcause⟩ := (hp hs).of_error
    rw [hr']
    exact hcause
  | ok r =>
    obtain ⟨a, d⟩ := r
    simp only [hr] at hs hp
    obtain ⟨d', hr', hd⟩ := (hp hs).of_ok
    rw [hr']
    exact ⟨rfl, hd⟩

theorem LocalAt.ite {b : Prop} [Decidable b] {p q : Parse α} {c : Cursor} (hp : LocalAt p c)
    (hq : LocalAt q c) : LocalAt (if b then p else q) c := by
  split
  · exact hp
  · exact hq

/-! ## Characters, signs and literals -/

theorem localAt_look (c : Cursor) : LocalAt look c := by
  intro x t t' c' hc _
  rw [result_look, result_look]
  exact ⟨hc.head?, hc⟩

theorem localAt_next (c : Cursor) : LocalAt next c := by
  rintro x t t' c' ⟨s, hc, hc'⟩ h
  rw [result_next] at h ⊢
  rw [result_next]
  refine ⟨rfl, ?_⟩
  have h : t.length < (c.drop 1).rest.length := h
  cases s with
  | nil =>
    rw [Cursor.rest_drop_one hc] at h
    omega
  | cons y s => exact ⟨s, Cursor.rest_drop_one hc, Cursor.rest_drop_one hc'⟩

theorem localAt_takeWhile (p : Char → Bool) (c : Cursor) : LocalAt (takeWhile p) c := by
  rintro x t t' c' ⟨s, hc, hc'⟩ h
  rw [result_takeWhile] at h ⊢
  rw [result_takeWhile]
  have h : t.length < (c.drop (c.rest.takeWhile p).length).rest.length := h
  rw [Cursor.rest_drop_takeWhile, hc] at h
  obtain ⟨ht, u, hu, hu'⟩ := takeWhile_local t' h
  refine ⟨by rw [hc, hc', ht], u, ?_, ?_⟩
  · rw [Cursor.rest_drop_takeWhile, hc, hu]
  · rw [Cursor.rest_drop_takeWhile, hc', hu']

theorem localAt_expected (what : Expected) (c : Cursor) :
    LocalAt (expected what : Parse α) c := by
  intro x t t' c' hc _
  rw [result_expected, result_expected]
  show Cause.unexpected _ _ = Cause.unexpected _ _
  rw [hc.head?]

theorem localAt_fail (cause : Cause) (c : Cursor) : LocalAt (fail cause : Parse α) c :=
  fun _ _ _ _ _ _ => rfl

theorem localAt_blanks (c : Cursor) : LocalAt blanks c :=
  (localAt_takeWhile _ c).bind fun _ d _ => localAt_pure _ d

theorem localAt_eat (sign : Char) (c : Cursor) : LocalAt (eat sign) c :=
  (localAt_blanks c).bind fun _ d _ => (localAt_look d).bind fun _ e _ =>
    .ite ((localAt_next e).bind fun _ e _ => localAt_pure _ e) (localAt_pure _ e)

theorem localAt_expect (sign : Char) (what : Expected) (c : Cursor) :
    LocalAt (expect sign what) c :=
  (localAt_eat sign c).bind fun _ d _ => .ite (localAt_pure _ d) (localAt_expected what d)

theorem localAt_finish (c : Cursor) : LocalAt finish c :=
  (localAt_blanks c).bind fun _ d _ => (localAt_look d).bind fun _ e _ =>
    .ite (localAt_expected _ e) (localAt_pure _ e)

theorem localAt_identifier (c : Cursor) : LocalAt identifier c := by
  refine (localAt_blanks c).bind fun _ d _ => (localAt_look d).bind fun next e _ => ?_
  cases next with
  | none => exact localAt_expected _ e
  | some y =>
    exact .ite ((localAt_takeWhile _ e).bind fun _ e _ => localAt_pure _ e) (localAt_expected _ e)

theorem localAt_digits (c : Cursor) : LocalAt digits c :=
  (localAt_takeWhile _ c).bind fun _ d _ => .ite (localAt_expected _ d) (localAt_pure _ d)

theorem localAt_unsigned (negative : Bool) (c : Cursor) : LocalAt (unsigned negative) c :=
  (localAt_digits c).bind fun _ d _ => (localAt_look d).bind fun _ d _ =>
    .ite ((localAt_next d).bind fun _ d _ => (localAt_digits d).bind fun _ d _ => localAt_pure _ d)
      (localAt_pure _ d)

theorem localAt_numeral (c : Cursor) : LocalAt numeral c :=
  (localAt_look c).bind fun _ d _ =>
    .ite ((localAt_next d).bind fun _ d _ => localAt_unsigned _ d) (localAt_unsigned _ d)

theorem body_pos (quote : Char) (x : Char) (t : List Char) : 0 < (Quoted.body quote (x :: t)).2 := by
  rw [Quoted.body.eq_def]
  simp only
  split
  · omega
  · split
    · omega
    · split
      · split
        · omega
        · split <;> simp
      · simp

/-- Behind a backslash a further character is looked at. -/
theorem one_lt_body_backslash {quote : Char} (hquote : '\\' ≠ quote) (x : Char) (t : List Char) :
    1 < (Quoted.body quote ('\\' :: x :: t)).2 := by
  cases hx : Quoted.isLineBreak x with
  | true =>
    rw [Quoted.body_escapedLineBreak hquote hx]
    exact Nat.lt_succ_self 1
  | false =>
    rw [Quoted.body_escape hquote hx]
    exact Nat.succ_lt_succ (Nat.succ_pos _)

/-- A string is scanned up to its quote, or over the end of the line or the text. -/
theorem body_local {quote : Char} {s : List Char}
    (h : (Quoted.body quote (s ++ x :: t)).2 ≤ s.length) :
    Quoted.body quote (s ++ x :: t') = Quoted.body quote (s ++ x :: t) := by
  induction s using Quoted.body.induct quote with
  | case1 => exact absurd h (Nat.not_le.2 (body_pos quote x t))
  | case2 rest => rw [List.cons_append, List.cons_append, Quoted.body_quote, Quoted.body_quote]
  | case3 c rest hne hl =>
    rw [List.cons_append, List.cons_append, Quoted.body_lineBreak hne hl,
      Quoted.body_lineBreak hne hl]
  | case4 hne => exact absurd h (Nat.not_le.2 (one_lt_body_backslash hne x t))
  | case5 d rest hd hne =>
    rw [List.cons_append, List.cons_append, List.cons_append, List.cons_append,
      Quoted.body_escapedLineBreak hne hd, Quoted.body_escapedLineBreak hne hd]
  | case6 d rest hd _ _ _ hne _ ih =>
    have hd : Quoted.isLineBreak d = false := Bool.eq_false_iff.2 hd
    rw [List.cons_append, List.cons_append, Quoted.body_escape hne hd] at h
    rw [List.cons_append, List.cons_append, List.cons_append, List.cons_append,
      Quoted.body_escape hne hd, Quoted.body_escape hne hd, ih (by simpa using h)]
  | case7 c rest hne hl hc _ _ _ ih =>
    have hl : Quoted.isLineBreak c = false := Bool.eq_false_iff.2 hl
    rw [List.cons_append, Quoted.body_plain hne hl hc] at h
    rw [List.cons_append, List.cons_append, Quoted.body_plain hne hl hc,
      Quoted.body_plain hne hl hc, ih (by simpa using h)]

theorem localAt_quoted (quote : Char) (c : Cursor) : LocalAt (quoted quote) c := by
  refine (localAt_next c).bind fun _ d _ => LocalAt.bind ?_ fun _ d _ => localAt_pure _ d
  rintro x t t' d' ⟨s, hd, hd'⟩ h
  have h : t.length < (d.drop (Quoted.body quote d.rest).2).rest.length := h
  have hcount : (Quoted.body quote (s ++ x :: t)).2 ≤ s.length := by
    simp only [Cursor.drop, hd, List.length_drop, List.length_append, List.length_cons] at h
    omega
  have hbody : Quoted.body quote d'.rest = Quoted.body quote d.rest := by
    rw [hd, hd', body_local hcount]
  show Similar x t t' (.ok (_, d.drop _)) (.ok (_, d'.drop _))
  rw [hbody]
  refine ⟨rfl, s.drop (Quoted.body quote d.rest).2, ?_, ?_⟩
  · rw [Cursor.drop, hd, List.drop_append_of_le_length hcount]
  · rw [Cursor.drop, hd', hd, List.drop_append_of_le_length hcount]

theorem localAt_lexeme (c : Cursor) : LocalAt lexeme c := by
  refine (localAt_look c).bind fun next d _ => ?_
  cases next with
  | none => exact localAt_expected _ d
  | some y =>
    refine .ite (localAt_quoted y d) (.ite ?_ (.ite ?_ (localAt_expected _ d)))
    · exact (localAt_numeral d).bind fun _ d _ => localAt_pure _ d
    · exact (localAt_takeWhile _ d).bind fun _ d _ => localAt_pure _ d

theorem LocalAt.check {p : Parse α} {meaning : α → Except Cause β} {c : Cursor} (hp : LocalAt p c)
    (hm : ∀ a cause, meaning a = .error cause → ¬ cause.IsPointed) :
    LocalAt (check p meaning) c := by
  intro x t t' c' hc h
  rw [result_check] at h ⊢
  rw [result_check]
  have hp := hp x t t' c' hc
  cases hr : (p.run c).result with
  | error f =>
    simp only [hr] at h hp
    obtain ⟨f', hr', hcause⟩ := (hp h).of_error
    rw [hr']
    exact hcause
  | ok r =>
    obtain ⟨a, d⟩ := r
    simp only [hr] at h hp
    cases ha : meaning a with
    | error cause =>
      simp only [ha] at h
      exact (hm a cause ha h.2).elim
    | ok b =>
      simp only [ha] at h
      obtain ⟨d', hr', hd⟩ := (hp h).of_ok
      simp only [hr', ha]
      exact ⟨rfl, hd⟩

theorem not_isPointed_meaning (l : Lexeme) (cause : Cause) (h : l.meaning = .error cause) :
    ¬ cause.IsPointed := by
  rcases Lexeme.meaning_eq_error h with hc | ⟨word, -, rfl⟩ | ⟨quote, -, rfl⟩
  · cases cause <;> first | exact hc.elim | exact id
  · exact id
  · exact id

theorem localAt_literal (c : Cursor) : LocalAt literal c :=
  (localAt_blanks c).bind fun _ d _ => (localAt_lexeme d).check not_isPointed_meaning

/-! ## Arguments and rules -/

theorem localAt_afterEach {sign : Char} {item : Parse α} (hi : ∀ c, LocalAt item c) (c : Cursor) :
    LocalAt (afterEach sign item) c := by
  induction hn : c.rest.length using Nat.strongRecOn generalizing c with
  | ind n ih =>
    rw [afterEach_eq]
    refine (localAt_eat sign c).bind fun again d hd => ?_
    cases again with
    | false => exact localAt_pure _ d
    | true =>
      have hlt := length_lt_of_eat hd
      refine (hi d).bind fun a e he => ?_
      have hle := item.length_le he
      exact (ih e.rest.length (by omega) e rfl).bind fun _ e _ => localAt_pure _ e

theorem localAt_commaSeparated {item : Parse α} (hi : ∀ c, LocalAt item c) (c : Cursor) :
    LocalAt (commaSeparated item) c :=
  (hi c).bind fun _ d _ => (localAt_afterEach hi d).bind fun _ d _ => localAt_pure _ d

theorem localAt_pair (c : Cursor) : LocalAt pair c :=
  (localAt_identifier c).bind fun _ d _ => (localAt_expect _ _ d).bind fun _ d _ =>
    (localAt_literal d).bind fun _ d _ => localAt_pure _ d

/-- The text behind the name that comes next, blanks left out. -/
def behindName (text : List Char) : List Char :=
  ((text.dropWhile isBlank).dropWhile Identifier.isPart).dropWhile isBlank

theorem head?_append_cons (u v v' : List Char) : (u ++ x :: v).head? = (u ++ x :: v').head? := by
  cases u <;> rfl

/-- The look ahead for a pair is the same if it ends in front of the texts that differ. -/
theorem startsPair_local {s : List Char} (t' : List Char)
    (h : t.length < (behindName (s ++ x :: t)).length) :
    startsPair (s ++ x :: t') = startsPair (s ++ x :: t) := by
  unfold behindName at h
  have hle (p : Char → Bool) (l : List Char) : (l.dropWhile p).length ≤ l.length :=
    (List.dropWhile_suffix p).length_le
  obtain ⟨-, u, hu, hu'⟩ := takeWhile_local t' (Nat.lt_of_lt_of_le h ((hle _ _).trans (hle _ _)))
  rw [hu] at h
  obtain ⟨-, v, hv, hv'⟩ := takeWhile_local t' (Nat.lt_of_lt_of_le h (hle _ _))
  rw [hv] at h
  obtain ⟨-, w, hw, hw'⟩ := takeWhile_local t' h
  simp only [startsPair, hu, hu', hv, hv', hw, hw', head?_append_cons _ t' t]

theorem startsPair_of_not_isStart {text : List Char}
    (h : (text.dropWhile isBlank).head?.any Identifier.isStart = false) :
    startsPair text = false := by
  simp only [startsPair, h, Bool.false_and]

theorem stays_blanks {c : Cursor} (h : Stays t (blanks.run c).result) :
    t.length < c.bare.rest.length := h

theorem stays_expect {sign : Char} {what : Expected} {c : Cursor}
    (h : Stays t ((expect sign what).run c).result) : t.length < c.bare.rest.length :=
  stays_blanks (stays_of_bind (stays_of_bind h))

theorem rest_behindName (c : Cursor) :
    (c.bare.drop (c.bare.rest.takeWhile Identifier.isPart).length).bare.rest =
      behindName c.rest := by
  rw [Cursor.rest_bare, Cursor.rest_drop_takeWhile, Cursor.rest_bare]
  rfl

theorem stays_pair {c : Cursor} (hp : startsPair c.rest = true)
    (h : Stays t (pair.run c).result) : t.length < (behindName c.rest).length := by
  have hs : c.bare.rest.head?.any Identifier.isStart = true := by
    rw [Cursor.rest_bare]
    exact (Bool.and_eq_true_iff.1 hp).1
  rw [pair, result_bind_of_ok _ ((result_identifier c).trans (if_pos hs))] at h
  rw [← rest_behindName]
  exact stays_expect (stays_of_bind h)

/-- A positional argument that is a word ends where the look ahead for a pair saw no colon. -/
theorem stays_positional {c : Cursor} {next : Literal → Parse β}
    (hs : c.bare.rest.head?.any Identifier.isStart = true)
    (h : Stays t ((do let l ← literal; expect ')' .closeParenthesis; next l).run c).result) :
    t.length < (behindName c.rest).length := by
  have hx := result_lexeme_word hs
  have hl : (literal.run c).result = ((check lexeme Lexeme.meaning).run c.bare).result :=
    result_bind_of_ok _ (result_blanks c)
  rw [result_check, hx] at hl
  cases hm : (Lexeme.word (c.bare.rest.takeWhile Identifier.isPart)).meaning with
  | ok l =>
    simp only [hm] at hl
    rw [result_bind_of_ok _ hl] at h
    rw [← rest_behindName]
    exact stays_expect (stays_of_bind h)
  | error cause =>
    simp only [hm] at hl
    rw [result_bind_of_error _ hl] at h
    exact (not_isPointed_meaning _ _ hm h.2).elim

/-- Arguments up to the parenthesis that closes them, at least one. -/
def closedArguments : Parse Arguments := do
  let args ← someArguments
  expect ')' .closeParenthesis
  return args

theorem result_closedArguments (c : Cursor) :
    (closedArguments.run c).result =
      if startsPair c.rest = true then
        ((do
          let pairs ← commaSeparated pair
          expect ')' .closeParenthesis
          return .named (.ofList pairs) : Parse Arguments).run c).result
      else
        ((do
          let l ← literal
          expect ')' .closeParenthesis
          return .positional l : Parse Arguments).run c).result := by
  rw [closedArguments, result_bind, result_someArguments]
  by_cases h : startsPair c.rest = true
  · rw [if_pos h, if_pos h, ← result_bind, bind_assoc]
    simp only [pure_bind]
  · rw [if_neg h, if_neg h, ← result_bind, bind_assoc]
    simp only [pure_bind]

theorem localAt_closedArguments (c : Cursor) : LocalAt closedArguments c := by
  rintro x t t' c' ⟨s, hc, hc'⟩ h
  rw [result_closedArguments] at h ⊢
  rw [result_closedArguments]
  cases hp : startsPair c.rest with
  | true =>
    rw [hp, if_pos rfl] at h
    have hname := stays_pair hp (stays_of_bind (stays_of_bind h))
    have hp' : startsPair c'.rest = true := by
      rw [hc] at hname hp
      rw [hc', startsPair_local t' hname, hp]
    rw [if_pos rfl, if_pos hp']
    refine LocalAt.bind (localAt_commaSeparated localAt_pair c) (fun pairs d _ => ?_) x t t' c'
      ⟨s, hc, hc'⟩ h
    exact (localAt_expect _ _ d).bind fun _ d _ => localAt_pure _ d
  | false =>
    rw [hp, if_neg Bool.false_ne_true] at h
    have hp' : startsPair c'.rest = false := by
      cases hs : c.bare.rest.head?.any Identifier.isStart with
      | true =>
        have hname := stays_positional hs h
        rw [hc] at hname hp
        rw [hc', startsPair_local t' hname, hp]
      | false =>
        have hbare := stays_blanks (stays_of_bind (stays_of_bind h))
        rw [Cursor.rest_bare, hc] at hbare hs
        obtain ⟨-, u, hu, hu'⟩ := takeWhile_local t' hbare
        rw [hu] at hs
        rw [hc']
        refine startsPair_of_not_isStart ?_
        rw [hu', ← head?_append_cons u t t', hs]
    rw [if_neg Bool.false_ne_true, if_neg (by rw [hp']; exact Bool.false_ne_true)]
    refine LocalAt.bind (localAt_literal c) (fun l d _ => ?_) x t t' c' ⟨s, hc, hc'⟩ h
    exact (localAt_expect _ _ d).bind fun _ d _ => localAt_pure _ d

theorem localAt_arguments (c : Cursor) : LocalAt arguments c := by
  refine .traced _ ((localAt_eat _ c).bind fun b d _ => ?_)
  cases b with
  | true => exact localAt_pure _ d
  | false => exact localAt_closedArguments d

theorem localAt_filter (c : Cursor) : LocalAt filter c :=
  .traced _ ((localAt_identifier c).bind fun _ d _ => (localAt_expect _ _ d).bind fun _ d _ =>
    (localAt_arguments d).bind fun _ d _ => localAt_pure _ d)

theorem localAt_params (c : Cursor) : LocalAt params c :=
  (localAt_eat _ c).bind fun _ d _ =>
    .ite ((localAt_arguments d).bind fun _ d _ => localAt_pure _ d) (localAt_pure _ d)

theorem localAt_headerAfter (name : String) (c : Cursor) : LocalAt (headerAfter name) c :=
  .traced _ ((localAt_params c).bind fun _ d _ => (localAt_afterEach localAt_filter d).bind
    fun _ d _ => localAt_pure _ d)

theorem localAt_property {after : String → Parse Selection}
    (h : ∀ n c, LocalAt (after n) c) (c : Cursor) : LocalAt (property after) c :=
  .traced _ ((localAt_identifier c).bind fun n d _ => (localAt_blanks d).bind fun _ d _ =>
    (localAt_look d).bind fun _ d _ =>
      .ite ((h n d).bind fun _ d _ => localAt_pure _ d) (localAt_pure _ d))

theorem localAt_selectionAfter (limit : Nat) :
    (room : Nat) → (name : String) → (c : Cursor) → LocalAt (selectionAfter limit room name) c
  | 0, _, c => .traced _ (.inside (localAt_fail _ c))
  | room + 1, name, c =>
    .traced _ (.inside ((localAt_headerAfter name c).bind fun _ d _ =>
      (localAt_expect _ _ d).bind fun _ d _ =>
        (localAt_commaSeparated (localAt_property (localAt_selectionAfter limit room)) d).bind
          fun _ d _ => (localAt_expect _ _ d).bind fun _ d _ => localAt_pure _ d))

theorem localAt_object (limit room : Nat) (c : Cursor) : LocalAt (object limit room) c :=
  (localAt_identifier c).bind fun name d _ => localAt_selectionAfter limit room name d

theorem localAt_document (limit room : Nat) (c : Cursor) : LocalAt (document limit room) c :=
  .traced _ ((localAt_expect _ _ c).bind fun _ d _ =>
    (localAt_commaSeparated (localAt_object limit room) d).bind fun _ d _ =>
      (localAt_expect _ _ d).bind fun _ d _ => (localAt_finish d).bind fun _ d _ =>
        localAt_pure _ d)

end Parse

end QueryMarkup
