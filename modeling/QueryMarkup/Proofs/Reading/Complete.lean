import QueryMarkup.Proofs.Reading.Lexeme

/-!
# Reading what is spelled

Every rule reads the tokens that the grammar derives for it, and stops in front of those behind
them. A reading may be excused from this when it fails for certain causes: with the causes that lie
in the meaning of literals excused, the same is true of texts whose literals only have the right
shape.
-/

namespace QueryMarkup

variable {α β : Type} {excused : Cause → Prop}

/-- The reading returns `a` in front of the tokens `more`, or fails for an excused cause. -/
def Outcome.Yields (excused : Cause → Prop) (o : Outcome α) (a : α) (more : List Token) : Prop :=
  match o.result with
  | .ok (b, d) => b = a ∧ Spells d.rest more
  | .error f => excused f.cause

theorem Outcome.Yields.of_ok {o : Outcome α} {a : α} {d : Cursor} {more : List Token}
    (h : o.result = .ok (a, d)) (hd : Spells d.rest more) : o.Yields excused a more := by
  unfold Yields
  rw [h]
  exact ⟨rfl, hd⟩

/-- No name, numeral or word could go on with the next token. -/
def EndsWord (more : List Token) : Prop := ∀ t ∈ more.head?, ∃ c, t = .sign c

/-- No literal could go on with the next token. -/
def EndsLiteral (more : List Token) : Prop := ∀ t ∈ more.head?, t = .sign ',' ∨ t = .sign ')'

theorem endsWord_sign (c : Char) (more : List Token) : EndsWord (.sign c :: more) := by
  rintro _ ⟨⟩
  exact ⟨c, rfl⟩

theorem EndsLiteral.endsWord {more : List Token} (h : EndsLiteral more) : EndsWord more := by
  intro t ht
  rcases h t ht with rfl | rfl <;> exact ⟨_, rfl⟩

theorem isPart_of_isBlank {c : Char} (h : Parse.isBlank c = true) :
    Identifier.isPart c = false ∧ c ≠ '.' := by
  have hall : [' ', '\t', '\n', '\x0c', '\r'].all
      (fun c => !Identifier.isPart c && c != '.') = true := by decide
  simpa using List.all_eq_true.1 hall c (isBlank_iff.1 h)

theorem isBlank_of_isPart {c : Char} (h : Identifier.isPart c = true) :
    Parse.isBlank c = false := by
  refine Bool.eq_false_iff.2 fun hb => ?_
  rw [(isPart_of_isBlank hb).1] at h
  cases h

/-- Blanks, commas and closing parentheses go on with no literal. -/
theorem delimited_of_head {text : List Char}
    (h : ∀ c ∈ text.head?, Parse.isBlank c = true ∨ c = ',' ∨ c = ')') : Delimited text := by
  intro c hc
  rcases h c hc with hb | rfl | rfl
  · exact isPart_of_isBlank hb
  · decide
  · decide

theorem isPart_of_mem_signs {c : Char} (h : c ∈ Token.signs) : Identifier.isPart c = false := by
  have hall : Token.signs.all (fun c => !Identifier.isPart c) = true := by decide
  simpa using List.all_eq_true.1 hall c h

/-- The next character is a blank or starts the next token. -/
theorem Spells.head?_cases {t : List Char} {more : List Token} (h : Spells t more) :
    ∀ c ∈ t.head?, Parse.isBlank c = true ∨
      ∃ x ∈ more.head?, ∃ rest, x.Spelled (c :: rest) := by
  intro c hc
  cases h with
  | done hb => exact .inl (hb c (List.mem_of_mem_head? hc))
  | @next blanks word rest x _ hb hw _ =>
    cases blanks with
    | nil =>
      obtain ⟨d, word, rfl, -⟩ := hw.starts
      obtain rfl : d = c := by simpa using hc
      exact .inr ⟨x, rfl, word, hw⟩
    | cons b blanks =>
      obtain rfl : b = c := by simpa using hc
      exact .inl (hb b (by simp))

theorem Token.Spelled.sign_inv {c d : Char} {rest : List Char}
    (h : Token.Spelled (.sign c) (d :: rest)) : d = c ∧ c ∈ Token.signs := by
  cases h with
  | sign hc => exact ⟨rfl, hc⟩

theorem EndsWord.isPart {t : List Char} {more : List Token} (h : EndsWord more)
    (ht : Spells t more) : ∀ c ∈ t.head?, Identifier.isPart c = false := by
  intro c hc
  rcases ht.head?_cases c hc with hb | ⟨x, hx, rest, hw⟩
  · exact (isPart_of_isBlank hb).1
  · obtain ⟨s, rfl⟩ := h x hx
    obtain ⟨rfl, hs⟩ := hw.sign_inv
    exact isPart_of_mem_signs hs

theorem EndsLiteral.delimited {t : List Char} {more : List Token} (h : EndsLiteral more)
    (ht : Spells t more) : Delimited t := by
  refine delimited_of_head fun c hc => ?_
  rcases ht.head?_cases c hc with hb | ⟨x, hx, rest, hw⟩
  · exact .inl hb
  · rcases h x hx with rfl | rfl
    · exact .inr (.inl hw.sign_inv.1)
    · exact .inr (.inr hw.sign_inv.1)

namespace Parse

/-- Reads the tokens `s` as `a` when the tokens `more` stand behind them. -/
def Reads (excused : Cause → Prop) (p : Parse α) (s : List Token) (a : α) (more : List Token) :
    Prop :=
  ∀ c : Cursor, Spells c.rest (s ++ more) → (p.run c).Yields excused a more

theorem Reads.pure (a : α) (more : List Token) : Reads excused (pure a) [] a more :=
  fun _ hc => .of_ok rfl hc

theorem Reads.bind {p : Parse α} {next : α → Parse β} {s t more : List Token} {a : α} {b : β}
    (hp : Reads excused p s a (t ++ more)) (hn : Reads excused (next a) t b more) :
    Reads excused (p >>= next) (s ++ t) b more := by
  intro c hc
  have hy := hp c (List.append_assoc s t more ▸ hc)
  unfold Outcome.Yields at hy ⊢
  rw [result_bind]
  cases hr : (p.run c).result with
  | error f => rwa [hr] at hy
  | ok r =>
    obtain ⟨b, d⟩ := r
    rw [hr] at hy
    obtain ⟨rfl, hd⟩ := hy
    exact hn d hd

theorem Reads.cons {p : Parse α} {next : α → Parse β} {x : Token} {t more : List Token} {a : α}
    {b : β} (hp : Reads excused p [x] a (t ++ more)) (hn : Reads excused (next a) t b more) :
    Reads excused (p >>= next) (x :: t) b more := hp.bind hn

theorem Reads.skip {p : Parse α} {next : α → Parse β} {t more : List Token} {a : α} {b : β}
    (hp : Reads excused p [] a (t ++ more)) (hn : Reads excused (next a) t b more) :
    Reads excused (p >>= next) t b more := hp.bind hn

theorem Reads.map {p : Parse α} {s more : List Token} {a : α} (f : α → β)
    (h : Reads excused p s a more) : Reads excused (do return f (← p)) s (f a) more := by
  rw [← List.append_nil s]
  exact Reads.bind h (.pure (f a) more)

theorem Reads.congr {p q : Parse α} {s more : List Token} {a : α} (hq : Reads excused q s a more)
    (h : ∀ c, (p.run c).result = (q.run c).result) : Reads excused p s a more := by
  intro c hc
  have hy := hq c hc
  unfold Outcome.Yields at hy ⊢
  rwa [h c]

theorem Reads.traced {p : Parse α} {s more : List Token} {a : α} (rule : Rule)
    (h : Reads excused p s a more) : Reads excused (traced rule p) s a more :=
  h.congr (result_traced rule p)

theorem Reads.inside {p : Parse α} {s more : List Token} {a : α} (h : Reads excused p s a more) :
    Reads excused (inside p) s a more := by
  intro c hc
  have hy := h c hc
  unfold Outcome.Yields at hy ⊢
  rw [result_inside]
  cases hr : (p.run c).result <;> rw [hr] at hy <;> exact hy

/-! ## Signs, names and literals -/

section
variable {sign : Char} {more : List Token}

theorem sign_bare {c : Cursor} (h : Spells c.rest (.sign sign :: more)) :
    c.bare.rest.head? = some sign ∧ Spells (c.bare.drop 1).rest more := by
  obtain ⟨word, rest, ht, hw, hr⟩ := h.first
  cases hw with
  | sign =>
    rw [← Cursor.rest_bare] at ht
    exact ⟨by simp [ht], by rwa [Cursor.rest_drop_one ht]⟩

theorem reads_eat : Reads excused (eat sign) [.sign sign] true more := by
  intro c hc
  obtain ⟨hh, hr⟩ := sign_bare hc
  exact .of_ok (by rw [result_eat, if_pos hh]) hr

theorem reads_eat_not (hs : sign ∈ Token.signs) (h : more.head? ≠ some (.sign sign)) :
    Reads excused (eat sign) [] false more := by
  intro c hc
  have hh : ¬ c.bare.rest.head? = some sign := by
    rwa [Cursor.rest_bare, hc.head?_eq_sign_iff hs]
  refine .of_ok (by rw [result_eat, if_neg hh]) ?_
  rw [Cursor.rest_bare]
  exact hc.dropWhile

theorem reads_expect (what : Expected) : Reads excused (expect sign what) [.sign sign] () more := by
  intro c hc
  obtain ⟨hh, hr⟩ := sign_bare hc
  exact .of_ok (by rw [result_expect, if_pos hh]) hr

end

theorem reads_finish : Reads excused finish [] () [] := by
  intro c hc
  have hb : c.bare.rest = [] := by rw [Cursor.rest_bare, hc.dropWhile_nil]
  exact .of_ok (d := c.bare) (by rw [result_finish, if_pos hb]) (hb ▸ Spells.nil)

theorem reads_identifier {n : String} {more : List Token} (h : EndsWord more) :
    Reads excused identifier [.name n] n more := by
  intro c hc
  obtain ⟨word, rest, ht, hw, hr⟩ := hc.first
  cases hw with
  | name hn =>
    rw [← Cursor.rest_bare] at ht
    obtain ⟨x, t, hx, hs, -⟩ := Identifier.exists_cons hn
    have htw : c.bare.rest.takeWhile Identifier.isPart = n.toList := by
      rw [ht]
      exact takeWhile_append_of_head (Identifier.isPart_of_mem hn) (h.isPart hr)
    refine .of_ok (a := n) ?_ (d := c.bare.drop n.toList.length) ?_
    · rw [result_identifier, if_pos (by simp [ht, hx, hs]), htw, String.ofList_toList]
    · simpa [Cursor.drop, ht] using hr

/-- What a lexeme may mean is what it is read as, unless it has no meaning for an excused cause. -/
def ReadAs (Means : Lexeme → Literal → Prop) (excused : Cause → Prop) : Prop :=
  ∀ {x : Lexeme} {word : List Char} {l : Literal}, x.Spelled word → Means x l →
    x.meaning = .ok l ∨ ∃ cause, x.meaning = .error cause ∧ excused cause

theorem readAs_denotes : ReadAs Lexeme.Denotes excused :=
  fun _ h => .inl (Lexeme.meaning_eq_ok_iff.2 h)

theorem readAs_admits : ReadAs Lexeme.Admits Cause.IsMeaning := by
  intro x word l hx hl
  rcases hx.meaning with ⟨l', hm⟩ | h
  · exact .inl (by rw [hm, hl l' (Lexeme.meaning_eq_ok_iff.1 hm)])
  · exact .inr h

section
variable {Means : Lexeme → Literal → Prop} (hM : ReadAs Means excused)
include hM

theorem reads_literal {x : Lexeme} {l : Literal} {more : List Token} (hl : Means x l)
    (h : EndsLiteral more) : Reads excused literal [.literal x] l more := by
  intro c hc
  obtain ⟨word, rest, ht, hw, hr⟩ := hc.first
  cases hw with
  | literal hx =>
    rw [← Cursor.rest_bare] at ht
    obtain ⟨d, hd, rfl⟩ := lexeme_complete hx ht (h.delimited hr)
    unfold Outcome.Yields
    rw [literal, result_bind_of_ok _ (result_blanks c), result_check, hd]
    rcases hM hx hl with hm | ⟨cause, hm, he⟩
    · simp only [hm, true_and]
      exact hr
    · simpa only [hm] using he

end

/-! ## Lists and arguments -/

section
variable {item : Parse α} {Item : List Token → α → Prop}

theorem reads_afterEach_nil {sign : Char} (hs : sign ∈ Token.signs) {more : List Token}
    (h : more.head? ≠ some (.sign sign)) : Reads excused (afterEach sign item) [] [] more := by
  intro c hc
  have hh : ¬ c.bare.rest.head? = some sign := by
    rwa [Cursor.rest_bare, hc.head?_eq_sign_iff hs]
  refine .of_ok (by rw [result_afterEach, if_neg hh]) ?_
  rw [Cursor.rest_bare]
  exact hc.dropWhile

theorem reads_afterEach_cons {sign : Char} {s t more : List Token} {a : α} {as : List α}
    (ha : Reads excused item s a (t ++ more))
    (has : Reads excused (afterEach sign item) t as more) :
    Reads excused (afterEach sign item) (.sign sign :: (s ++ t)) (a :: as) more := by
  intro c hc
  obtain ⟨hh, hr⟩ := sign_bare hc
  have hb : Reads excused (do let a ← item; let others ← afterEach sign item; return a :: others)
      (s ++ t) (a :: as) more := ha.bind (has.map (a :: ·))
  have hy := hb (c.bare.drop 1) hr
  unfold Outcome.Yields at hy ⊢
  rwa [result_afterEach, if_pos hh]

/-- Items are read one by one if each is read in front of a comma and of what ends the list. -/
theorem reads_commaSeparated {s more : List Token} {as : List α}
    (hs : Grammar.Separated Item s as) (hm : more.head? ≠ some (.sign ','))
    (hi : ∀ s a t, Item s a → t = more ∨ t.head? = some (.sign ',') → Reads excused item s a t) :
    Reads excused (commaSeparated item) s as more := by
  have hc : ',' ∈ Token.signs := by decide
  induction hs with
  | @single s a ha =>
    have hn : Reads excused (afterEach ',' item) [] [] more := reads_afterEach_nil hc hm
    rw [← List.append_nil s]
    exact (hi s a more ha (.inl rfl)).bind (hn.map (a :: ·))
  | @cons s t a as ha _ ih =>
    refine (hi s a _ ha (.inr rfl)).bind (Reads.map (a :: ·) ?_)
    intro c hr
    obtain ⟨hh, hr⟩ := sign_bare hr
    have hy := ih (c.bare.drop 1) hr
    unfold Outcome.Yields at hy ⊢
    rwa [result_afterEach, if_pos hh]

end

theorem startsPair_of_pair {n : String} {text : List Char} {more : List Token}
    (h : Spells text (.name n :: .sign ':' :: more)) : startsPair text = true := by
  obtain ⟨word, rest, ht, hw, hr⟩ := h.first
  cases hw with
  | name hn =>
    obtain ⟨x, t, hx, hs, -⟩ := Identifier.exists_cons hn
    have hdw : (n.toList ++ rest).dropWhile Identifier.isPart = rest :=
      dropWhile_append_of_head (Identifier.isPart_of_mem hn) ((endsWord_sign _ _).isPart hr)
    have hc := (hr.head?_eq_sign_iff (c := ':') (by decide)).2 rfl
    simp only [startsPair, ht, hdw, hc]
    simp [hx, hs]

theorem startsPair_of_literal {x : Lexeme} {text : List Char} {more : List Token}
    (h : Spells text (.literal x :: more)) (hm : EndsLiteral more) : startsPair text = false := by
  obtain ⟨word, rest, ht, hw, hr⟩ := h.first
  cases hw with
  | literal hx =>
    cases hx with
    | word hw =>
      have hdw : (word ++ rest).dropWhile Identifier.isPart = rest :=
        dropWhile_append_of_head (Lexeme.isPart_of_mem_keywords hw) (hm.endsWord.isPart hr)
      have hc : (rest.dropWhile isBlank).head? ≠ some ':' := by
        rw [Ne, hr.head?_eq_sign_iff (c := ':') (by decide)]
        intro he
        rcases hm _ he with h | h <;> exact absurd h (by decide)
      simp [startsPair, ht, hdw, hc]
    | numeral hn =>
      obtain ⟨y, t, hy, hs⟩ := hn.starts
      have hf : Identifier.isStart y = false := by
        rcases hs with rfl | hs
        · decide
        · exact Identifier.isStart_of_isDigit hs
      simp [startsPair, ht, hy, hf]
    | @quoted quote body hq _ =>
      have hf : Identifier.isStart quote = false := by
        rcases hq with rfl | rfl <;> rfl
      simp [startsPair, ht, hf]

theorem endsLiteral_close (more : List Token) : EndsLiteral (.sign ')' :: more) := by
  rintro _ ⟨⟩
  exact .inr rfl

/-! ## Rules -/

section
variable {Means : Lexeme → Literal → Prop} (hM : ReadAs Means excused)
include hM

theorem reads_pair {s more : List Token} {p : String × Literal} (hp : Grammar.IsPair Means s p)
    (hm : EndsLiteral more) : Reads excused pair s p more := by
  cases hp with
  | @intro n x l hl =>
    exact (reads_identifier (endsWord_sign _ _)).cons ((reads_expect _).cons
      ((reads_literal hM hl hm).map (n, ·)))

theorem reads_someArguments_positional {x : Lexeme} {l : Literal} {more : List Token}
    (hl : Means x l) (hm : EndsLiteral more) :
    Reads excused someArguments [.literal x] (.positional l) more := by
  intro c hc
  have hy := (reads_literal hM hl hm).map Arguments.positional c hc
  unfold Outcome.Yields at hy ⊢
  rw [result_someArguments, startsPair_of_literal hc hm]
  exact hy

theorem reads_someArguments_named {s more : List Token} {pairs : List (String × Literal)}
    {m : ArgMap} (hs : Grammar.Separated (Grammar.IsPair Means) s pairs) (hp : m.Collects pairs)
    (hm : more.head? = some (.sign ')')) :
    Reads excused someArguments s (.named m) more := by
  intro c hc
  have hstarts : startsPair c.rest = true := by
    obtain ⟨u, _, t, hu, rfl⟩ := hs.first
    cases hu
    exact startsPair_of_pair hc
  have hr : Reads excused (commaSeparated pair) s pairs more := by
    refine reads_commaSeparated hs (by simp [hm]) fun s a t hst ht => reads_pair hM hst ?_
    intro x hx
    rcases ht with rfl | ht
    · exact .inr (Option.some.inj (hx.symm.trans hm))
    · exact .inl (Option.some.inj (hx.symm.trans ht))
  have hy := hr.map (fun pairs => Arguments.named (.ofList pairs)) c hc
  rw [← OrderedMap.collects_iff.1 hp] at hy
  unfold Outcome.Yields at hy ⊢
  rw [result_someArguments, hstarts]
  exact hy

/-- Arguments are read behind their opening parenthesis. -/
theorem reads_arguments {s more : List Token} {a : Arguments}
    (h : Grammar.IsArguments Means (.sign '(' :: s) a) : Reads excused arguments s a more := by
  have hc : ')' ∈ Token.signs := by decide
  refine .traced _ ?_
  generalize ht : Token.sign '(' :: s = t at h
  cases h with
  | none =>
    obtain rfl := (List.cons.inj ht).2
    exact reads_eat.cons (.pure _ _)
  | positional hl =>
    obtain rfl := (List.cons.inj ht).2
    refine (reads_eat_not hc (by simp)).skip ?_
    exact (reads_someArguments_positional hM hl (endsLiteral_close _)).cons ((reads_expect _).map _)
  | named hs hp =>
    obtain rfl := (List.cons.inj ht).2
    refine (reads_eat_not hc ?_).skip ?_
    · obtain ⟨u, _, t, hu, rfl⟩ := hs.first
      cases hu
      simp
    · exact (reads_someArguments_named hM hs hp rfl).bind ((reads_expect _).map _)

theorem reads_filter {s more : List Token} {f : Filter}
    (h : Grammar.IsFilter Means (.sign '.' :: s) f) : Reads excused filter s f more := by
  refine .traced _ ?_
  generalize ht : Token.sign '.' :: s = t at h
  cases h with
  | @intro n u a ha =>
    obtain rfl := (List.cons.inj ht).2
    obtain ⟨t, rfl⟩ := ha.exists_cons
    exact (reads_identifier (endsWord_sign _ _)).cons ((reads_expect _).cons
      ((reads_arguments hM ha).map fun a => Filter.mk n a.filterValue))

theorem reads_filters {s more : List Token} {filters : List Filter}
    (h : Grammar.Repeated (Grammar.IsFilter Means) s filters)
    (hm : more.head? ≠ some (.sign '.')) :
    Reads excused (afterEach '.' filter) s filters more := by
  induction h with
  | nil => exact reads_afterEach_nil (by decide) hm
  | @cons s t f filters hf _ ih =>
    obtain ⟨u, rfl⟩ := hf.exists_cons
    exact reads_afterEach_cons (reads_filter hM hf) ih

theorem reads_params {s more : List Token} {p : Option Value} (h : Grammar.IsParams Means s p)
    (hm : more.head? ≠ some (.sign '(')) : Reads excused params s p more := by
  cases h with
  | absent => exact (reads_eat_not (by decide) hm).skip (.pure _ _)
  | present ha =>
    obtain ⟨t, rfl⟩ := ha.exists_cons
    exact reads_eat.cons ((reads_arguments hM ha).map _)

/-- A header is read behind its name, in front of what cannot go on with it. -/
theorem reads_headerAfter {n : String} {s more : List Token} {header : Header}
    (h : Grammar.IsHeader Means (.name n :: s) header) (ha : more.head? ≠ some (.sign '('))
    (hd : more.head? ≠ some (.sign '.')) : Reads excused (headerAfter n) s header more := by
  refine .traced _ ?_
  generalize ht : Token.name n :: s = t at h
  cases h with
  | @intro n' s' t' p filters hp hf =>
    obtain ⟨hn, rfl⟩ := List.cons.inj ht
    obtain rfl := Token.name.inj hn
    refine (reads_params hM hp ?_).bind ((reads_filters hM hf hd).map _)
    cases hf with
    | nil => exact ha
    | cons hf _ =>
      obtain ⟨u, rfl⟩ := hf.exists_cons
      simp

end

/-- Whether the next token makes the name before it that of a selection. -/
def opens (tokens : List Token) : Bool :=
  match tokens with
  | .sign c :: _ => opensSelection c
  | _ => false

theorem exists_cons_of_opens {t : List Token} (h : opens t = true) :
    ∃ c u, t = .sign c :: u := by
  cases t with
  | nil => cases h
  | cons x t =>
    cases x with
    | sign c => exact ⟨c, t, rfl⟩
    | name n => cases h
    | literal x => cases h

theorem any_opensSelection {text : List Char} {tokens : List Token} (h : Spells text tokens) :
    (text.dropWhile isBlank).head?.any opensSelection = opens tokens := by
  cases tokens with
  | nil => simp [h.dropWhile_nil, opens]
  | cons x tokens =>
    obtain ⟨word, rest, ht, hw, -⟩ := h.first
    obtain ⟨d, word, rfl, hd⟩ := hw.starts
    rw [ht]
    rcases hd with ⟨rfl, -⟩ | ⟨hs, hd⟩
    · simp [opens]
    · have ho : opensSelection d = false := by
        cases ho : opensSelection d with
        | false => rfl
        | true =>
          have hm : d ∈ Token.signs := by
            simp only [opensSelection, Bool.or_eq_true, decide_eq_true_eq] at ho
            rcases ho with (rfl | rfl) | rfl <;> decide
          rw [startsWord_of_mem_signs hm] at hd
          cases hd
      cases x with
      | sign c => exact absurd rfl (hs c)
      | name n => simpa [opens] using ho
      | literal x => simpa [opens] using ho

/-- Behind blanks, reads in one way or the other by what the next sign opens. -/
theorem Reads.choose {p q : Parse β} {t more : List Token} {b : β}
    (h : Reads excused (if opens (t ++ more) = true then p else q) t b more) :
    Reads excused (do blanks; if (← look).any opensSelection = true then p else q) t b more := by
  intro c hc
  have hb : c.bare.rest.head?.any opensSelection = opens (t ++ more) := by
    rw [Cursor.rest_bare, any_opensSelection hc]
  have hy := h c.bare (by rw [Cursor.rest_bare]; exact hc.dropWhile)
  unfold Outcome.Yields at hy ⊢
  rw [result_bind_of_ok _ (result_blanks c), result_bind_of_ok _ (result_look c.bare), hb]
  exact hy

/-- Selections are read behind their names as `after` says. -/
def ReadsNested (excused : Cause → Prop) (Nested : List Token → Selection → Prop)
    (after : String → Parse Selection) : Prop :=
  ∀ {s : List Token} {x : Selection}, Nested s x → ∃ n t, s = .name n :: t ∧ opens t = true ∧
    ∀ more, Reads excused (after n) t x more

section
variable {Nested : List Token → Selection → Prop} {after : String → Parse Selection}
variable (hN : ReadsNested excused Nested after)
include hN

theorem reads_property {s more : List Token} {x : Property} (h : Grammar.IsProperty Nested s x)
    (hm : EndsWord more) (ho : opens more = false) :
    Reads excused (property after) s x more := by
  refine .traced _ ?_
  cases h with
  | @field n =>
    refine (reads_identifier hm).cons (.choose ?_)
    rw [List.nil_append, ho, if_neg Bool.false_ne_true]
    exact .pure _ _
  | @selection s x hx =>
    obtain ⟨n, t, rfl, ht, hr⟩ := hN hx
    obtain ⟨c, u, rfl⟩ := exists_cons_of_opens ht
    refine (reads_identifier (endsWord_sign _ _)).cons (.choose ?_)
    rw [List.cons_append, if_pos (show opens (.sign c :: (u ++ more)) = true from ht)]
    exact (hr more).map _

end

theorem opens_of_head? {c : Char} {more : List Token} (hc : c ∈ [',', '}'])
    (h : more.head? = some (.sign c)) : EndsWord more ∧ opens more = false := by
  obtain ⟨t, rfl⟩ := List.head?_eq_some_iff.1 h
  have hall : [',', '}'].all (fun c => !opensSelection c) = true := by decide
  have ho : opensSelection c = false := by simpa using List.all_eq_true.1 hall c hc
  exact ⟨endsWord_sign c t, ho⟩

section
variable {Means : Lexeme → Literal → Prop} (hM : ReadAs Means excused)
include hM

omit hM in
theorem opens_behind_header {n : String} {s : List Token} {header : Header}
    (h : Grammar.IsHeader Means (.name n :: s) header) (more : List Token) :
    opens (s ++ .sign '{' :: more) = true := by
  generalize ht : Token.name n :: s = t at h
  cases h with
  | @intro _ s' t' p filters hp hf =>
    obtain rfl := (List.cons.inj ht).2
    cases hp with
    | absent =>
      cases hf with
      | nil => rfl
      | cons hf _ =>
        obtain ⟨u, rfl⟩ := hf.exists_cons
        rfl
    | present ha =>
      obtain ⟨u, rfl⟩ := ha.exists_cons
      rfl

/-- One level of nesting: a selection is read if those inside it are. -/
theorem reads_selection {limit room : Nat} {Nested : List Token → Selection → Prop}
    (hN : ReadsNested excused Nested (selectionAfter limit room)) :
    ReadsNested excused (Grammar.IsSelection Means Nested) (selectionAfter limit (room + 1)) := by
  rintro _ _ (@⟨s, t, header, properties, hh, hp⟩)
  obtain ⟨n, u, rfl⟩ : ∃ n u, s = .name n :: u := by
    cases hh
    exact ⟨_, _, rfl⟩
  refine ⟨n, u ++ .sign '{' :: (t ++ [.sign '}']), rfl, opens_behind_header hh _, fun more => ?_⟩
  have hproperties : Reads excused (commaSeparated (property (selectionAfter limit room))) t
      properties (.sign '}' :: more) := by
    refine reads_commaSeparated hp (by simp) fun s x more' hx hmore => ?_
    have hend : EndsWord more' ∧ opens more' = false := by
      rcases hmore with rfl | hmore
      · exact opens_of_head? (c := '}') (by decide) rfl
      · exact opens_of_head? (c := ',') (by decide) hmore
    exact reads_property hN hx hend.1 hend.2
  refine .traced _ (.inside ?_)
  exact (reads_headerAfter hM hh (by simp) (by simp)).bind ((reads_expect _).cons
    (hproperties.bind ((reads_expect _).map _)))

theorem readsNested_object (limit : Nat) :
    (room : Nat) → ReadsNested excused (Grammar.IsObject Means room) (selectionAfter limit room)
  | 0 => fun h => h.elim
  | room + 1 => reads_selection hM (readsNested_object limit room)

theorem reads_object {limit room : Nat} {s : List Token} {x : Selection}
    (h : Grammar.IsObject Means room s x) (more : List Token) :
    Reads excused (object limit room) s x more := by
  obtain ⟨n, t, rfl, ht, hr⟩ := readsNested_object hM limit room h
  obtain ⟨c, u, rfl⟩ := exists_cons_of_opens ht
  exact (reads_identifier (endsWord_sign _ _)).cons (hr more)

theorem reads_document {limit room : Nat} {s : List Token} {d : Document}
    (h : Grammar.IsDocument Means room s d) : Reads excused (document limit room) s d [] := by
  obtain @⟨s, selections, hs⟩ := h
  have hselections : Reads excused (commaSeparated (object limit room)) s selections
      [.sign '}'] :=
    reads_commaSeparated hs (by simp) fun s x more hx _ => reads_object hM hx more
  exact .traced _ ((reads_expect _).cons (hselections.bind ((reads_expect _).cons
    (reads_finish.map _))))

end

end Parse

end QueryMarkup
