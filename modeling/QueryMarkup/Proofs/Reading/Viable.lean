import QueryMarkup.Proofs.Reading.Sound

/-!
# Failures behind viable texts

The text in front of a failure goes on to one that the grammar derives, whatever literals mean, and
if the failure says what was expected there, each word of that kind is a way to go on.
-/

namespace QueryMarkup

variable {α β : Type}

/-- The words of a kind. Behind the end of the input there are none. -/
def Expected.IsWord : Expected → List Char → Prop
  | openBrace, w => w = ['{']
  | commaOrCloseBrace, w => w = [','] ∨ w = ['}']
  | openParenthesis, w => w = ['(']
  | closeParenthesis, w => w = [')']
  | colon, w => w = [':']
  | dot, w => w = ['.']
  | identifier, w => Identifier.isIdentifier w = true
  | literal, w => ∃ x : Lexeme, x.Spelled w
  | digit, w => ∃ c : Char, c.isDigit = true ∧ w = [c]
  | endOfInput, _ => False

theorem Expected.exists_isWord {what : Expected} (h : what ≠ .endOfInput) : ∃ w, what.IsWord w := by
  cases what with
  | openBrace => exact ⟨_, rfl⟩
  | commaOrCloseBrace => exact ⟨_, .inl rfl⟩
  | openParenthesis => exact ⟨_, rfl⟩
  | closeParenthesis => exact ⟨_, rfl⟩
  | colon => exact ⟨_, rfl⟩
  | dot => exact ⟨_, rfl⟩
  | identifier => exact ⟨['a'], rfl⟩
  | literal => exact ⟨"null".toList, .word "null".toList, .word (by decide)⟩
  | digit => exact ⟨['0'], '0', by decide, rfl⟩
  | endOfInput => exact absurd rfl h

/-- The text goes on to one whose tokens stand for something. -/
def Completes (T : List Token → α → Prop) (text : List Char) : Prop :=
  ∃ rest tokens a, Spells (text ++ rest) tokens ∧ T tokens a

/-- The text may go on, with each word of the expected kind if there is one. -/
def Cause.Allows (cause : Cause) (goesOn : List Char → Prop) : Prop :=
  match cause with
  | .unexpected what _ => what ≠ .endOfInput ∧ ∀ w, what.IsWord w → goesOn w
  | _ => goesOn []

theorem Cause.Allows.imp {cause : Cause} {P Q : List Char → Prop} (h : cause.Allows P)
    (hi : ∀ w, P w → Q w) : cause.Allows Q := by
  cases cause with
  | unexpected what found => exact ⟨h.1, fun w hw => hi w (h.2 w hw)⟩
  | _ => exact hi [] h

theorem Cause.Allows.exists_word {cause : Cause} {P : List Char → Prop} (h : cause.Allows P) :
    ∃ w, P w := by
  cases cause with
  | unexpected what found =>
    obtain ⟨w, hw⟩ := Expected.exists_isWord h.1
    exact ⟨w, h.2 w hw⟩
  | _ => exact ⟨[], h⟩

/-- The text up to the failure goes on to one whose tokens stand for something. -/
def Failure.IsBehind (f : Failure) (text : List Char) (T : List Token → α → Prop) : Prop :=
  ∃ passed, text = passed ++ f.mark.rest ∧
    f.cause.Allows fun word => Completes T (passed ++ word)

theorem Failure.IsBehind.imp {f : Failure} {text : List Char} {S : List Token → α → Prop}
    {T : List Token → β → Prop} (h : f.IsBehind text S)
    (hi : ∀ s a, S s a → ∃ rest t b, Spells rest t ∧ T (s ++ t) b) : f.IsBehind text T := by
  obtain ⟨passed, ht, ha⟩ := h
  refine ⟨passed, ht, ha.imp ?_⟩
  rintro w ⟨rest, s, a, hs, hS⟩
  obtain ⟨rest', t, b, ht, hT⟩ := hi s a hS
  exact ⟨rest ++ rest', s ++ t, b, by rw [← List.append_assoc]; exact hs.append ht, hT⟩

theorem Failure.IsBehind.after {f : Failure} {text passed : List Char} {s : List Token}
    {T : List Token → α → Prop} (hs : Spells passed s)
    (h : f.IsBehind text fun t => T (s ++ t)) : f.IsBehind (passed ++ text) T := by
  obtain ⟨v, rfl, ha⟩ := h
  refine ⟨passed ++ v, (List.append_assoc _ _ _).symm, ha.imp ?_⟩
  rintro w ⟨rest, t, a, ht, hT⟩
  exact ⟨rest, s ++ t, a, by simpa [List.append_assoc] using hs.append ht, hT⟩

namespace Parse

/-- Fails only behind texts that go on to one whose tokens stand for something. -/
def Viable (p : Parse α) (T : List Token → α → Prop) : Prop :=
  ∀ c f, (p.run c).result = .error f → f.IsBehind c.rest T

theorem Viable.bind {p : Parse α} {next : α → Parse β} {S : List Token → α → Prop}
    {T : List Token → β → Prop} (hv : Viable p S) (hf : Finds p S)
    (hS : ∀ s a, S s a → ∃ rest t b, Spells rest t ∧ T (s ++ t) b)
    (hn : ∀ s a, S s a → Viable (next a) fun t b => T (s ++ t) b) : Viable (p >>= next) T := by
  intro c f hr
  rcases result_bind_eq_error hr with he | ⟨a, d, ha, he⟩
  · exact (hv c f he).imp hS
  · obtain ⟨u, s, hc, hu, hs⟩ := hf c d a ha
    rw [hc]
    exact (hn s a hs d f he).after hu

theorem Viable.map {p : Parse α} {S : List Token → α → Prop} {T : List Token → β → Prop}
    (f : α → β) (hv : Viable p S) (h : ∀ s a, S s a → T s (f a)) :
    Viable (do return f (← p)) T := by
  intro c g hr
  rcases result_bind_eq_error hr with he | ⟨a, d, ha, he⟩
  · exact (hv c g he).imp fun s a hs => ⟨[], [], f a, .nil, by simpa using h s a hs⟩
  · cases he

theorem viable_pure (a : α) (T : List Token → α → Prop) : Viable (pure a) T := by
  rintro c f ⟨⟩

theorem Viable.mono {p : Parse α} {S T : List Token → α → Prop} (hv : Viable p S)
    (h : ∀ s a, S s a → T s a) : Viable p T :=
  fun c f hr => (hv c f hr).imp fun s a hs => ⟨[], [], a, .nil, by simpa using h s a hs⟩

theorem viable_scan (look : List Char → α × Nat) (T : List Token → α → Prop) :
    Viable (scan look) T := by
  rintro c f ⟨⟩

theorem Viable.congr {p q : Parse α} {T : List Token → α → Prop} (hq : Viable q T)
    (h : ∀ c, (p.run c).result = (q.run c).result) : Viable p T :=
  fun c f hr => hq c f (h c ▸ hr)

theorem Viable.traced {p : Parse α} {T : List Token → α → Prop} (rule : Rule) (h : Viable p T) :
    Viable (traced rule p) T :=
  h.congr (result_traced rule p)

theorem Viable.inside {p : Parse α} {T : List Token → α → Prop} (h : Viable p T) :
    Viable (inside p) T := by
  intro c f hr
  obtain ⟨g, hg, rfl⟩ := result_inside_eq_error hr
  exact h c g hg

/-! ## Signs, names and literals -/

/-- What fails behind the blanks goes on with each word of the kind that it expects. -/
theorem isBehind_bare {c : Cursor} {what : Expected} {found : Option Char} {opened : Nat}
    {stop : Cursor} {T : List Token → α → Prop} (hwhat : what ≠ .endOfInput)
    (h : ∀ w, what.IsWord w → ∃ tokens a, Spells w tokens ∧ T tokens a) :
    Failure.IsBehind ⟨.unexpected what found, c.bare, stop, opened⟩ c.rest T := by
  refine ⟨_, rest_eq_bare c, hwhat, fun w hw => ?_⟩
  obtain ⟨tokens, a, hs, hT⟩ := h w hw
  exact ⟨[], tokens, a, by rw [List.append_nil]; exact hs.blanks (blanks_takeWhile _), hT⟩

theorem viable_eat (sign : Char) (T : List Token → Bool → Prop) : Viable (eat sign) T := by
  intro c f hr
  rw [result_eat] at hr
  split at hr <;> cases hr

theorem viable_expect {sign : Char} (hs : sign ∈ Token.signs) {what : Expected}
    (hwhat : what ≠ .endOfInput) (hw : ∀ w, what.IsWord w → w = [sign]) :
    Viable (expect sign what) fun t _ => t = [.sign sign] := by
  intro c f hr
  rw [result_expect] at hr
  split at hr
  · cases hr
  · obtain rfl := Except.error.inj hr
    refine isBehind_bare hwhat fun w h => ?_
    obtain rfl := hw w h
    exact ⟨_, (), .single (.sign hs), rfl⟩

theorem viable_identifier : Viable identifier fun t n => t = [.name n] := by
  intro c f hr
  rw [result_identifier] at hr
  split at hr
  · cases hr
  · obtain rfl := Except.error.inj hr
    refine isBehind_bare (by decide) fun w h => ?_
    have hn : (Token.name (String.ofList w)).Spelled (String.ofList w).toList :=
      .name (by rw [String.toList_ofList]; exact h)
    rw [String.toList_ofList] at hn
    exact ⟨_, _, .single hn, rfl⟩

theorem result_digits_eq_error {c : Cursor} {f : Failure} (h : (digits.run c).result = .error f) :
    ∃ found, f = ⟨.unexpected .digit found, c, c, 0⟩ := by
  rw [result_digits] at h
  split at h
  · exact ⟨_, (Except.error.inj h).symm⟩
  · cases h

/-- Numerals are cut short where a digit goes on. -/
theorem unsigned_eq_error {negative : Bool} {c : Cursor} {f : Failure}
    (h : ((unsigned negative).run c).result = .error f) :
    ∃ passed found, c.rest = passed ++ f.mark.rest ∧ f.cause = .unexpected .digit found ∧
      ∀ d : Char, d.isDigit = true → ∃ n : Numeral, n.negative = negative ∧ n.IsWritten ∧
        passed ++ [d] = n.whole ++ n.fraction.elim [] ('.' :: ·) := by
  have hone : ∀ d : Char, d.isDigit = true → Numeral.IsDigits [d] := by
    intro d hd
    refine ⟨by simp, ?_⟩
    rintro x hx
    rwa [List.mem_singleton.1 hx]
  rcases result_bind_eq_error h with he | ⟨whole, e, hw, h⟩
  · obtain ⟨found, rfl⟩ := result_digits_eq_error he
    exact ⟨[], found, rfl, rfl, fun d hd =>
      ⟨⟨negative, [d], none⟩, rfl, ⟨hone d hd, by simp⟩, rfl⟩⟩
  · obtain ⟨hc, hwd⟩ := digits_sound hw
    rw [result_bind_of_ok _ (result_look e)] at h
    by_cases hp : e.rest.head? = some '.'
    · obtain ⟨t, ht⟩ := List.head?_eq_some_iff.1 hp
      rw [if_pos hp, result_bind_of_ok _ (result_next e)] at h
      rcases result_bind_eq_error h with he | ⟨ds, _, _, h⟩
      · obtain ⟨found, rfl⟩ := result_digits_eq_error he
        refine ⟨whole ++ ['.'], found, ?_, rfl, fun d hd =>
          ⟨⟨negative, whole, some [d]⟩, rfl, ⟨hwd, ?_⟩, ?_⟩⟩
        · show c.rest = _ ++ (e.drop 1).rest
          rw [Cursor.rest_drop_one ht, hc, ht]
          simp
        · rintro _ ⟨⟩
          exact hone d hd
        · simp
      · cases h
    · rw [if_neg hp] at h
      cases h

theorem numeral_eq_error {c : Cursor} {f : Failure} (h : (numeral.run c).result = .error f) :
    ∃ passed found, c.rest = passed ++ f.mark.rest ∧ f.cause = .unexpected .digit found ∧
      ∀ d : Char, d.isDigit = true → ∃ n : Numeral, n.IsWritten ∧ passed ++ [d] = n.text := by
  rw [result_numeral] at h
  by_cases hm : c.rest.head? = some '-'
  · rw [if_pos hm] at h
    obtain ⟨t, ht⟩ := List.head?_eq_some_iff.1 hm
    obtain ⟨passed, found, hc, hcause, hd⟩ := unsigned_eq_error h
    rw [Cursor.rest_drop_one ht] at hc
    refine ⟨'-' :: passed, found, by rw [ht, hc]; rfl, hcause, fun d hdigit => ?_⟩
    obtain ⟨n, hneg, hn, htext⟩ := hd d hdigit
    exact ⟨n, hn, by rw [numeral_text_eq, hneg, ← htext]; rfl⟩
  · rw [if_neg hm] at h
    obtain ⟨passed, found, hc, hcause, hd⟩ := unsigned_eq_error h
    refine ⟨passed, found, hc, hcause, fun d hdigit => ?_⟩
    obtain ⟨n, hneg, hn, htext⟩ := hd d hdigit
    exact ⟨n, hn, by rw [numeral_text_eq, hneg, ← htext]; rfl⟩

theorem lexeme_eq_error {c : Cursor} {f : Failure} (h : (lexeme.run c).result = .error f) :
    (∃ found, f = ⟨.unexpected .literal found, c, c, 0⟩) ∨
      ∃ passed found, c.rest = passed ++ f.mark.rest ∧ f.cause = .unexpected .digit found ∧
        ∀ d : Char, d.isDigit = true → ∃ x : Lexeme, x.Spelled (passed ++ [d]) := by
  cases hc : c.rest with
  | nil =>
    rw [lexeme, result_bind_of_ok _ (result_look c), hc, List.head?_nil, result_expected] at h
    exact .inl ⟨_, (Except.error.inj h).symm⟩
  | cons y t =>
    rw [result_lexeme hc] at h
    split at h
    · cases h
    · split at h
      · rw [map_eq_pure_bind] at h
        rcases result_bind_eq_error h with he | ⟨n, d, -, h⟩
        · obtain ⟨passed, found, hpassed, hcause, hd⟩ := numeral_eq_error he
          refine .inr ⟨passed, found, hc ▸ hpassed, hcause, fun d hdigit => ?_⟩
          obtain ⟨n, hn, htext⟩ := hd d hdigit
          exact ⟨.numeral n, htext ▸ .numeral hn⟩
        · cases h
      · split at h
        · cases h
        · exact .inl ⟨_, (Except.error.inj h).symm⟩

theorem viable_literal : Viable literal fun t l => ∃ x, t = [.literal x] ∧ x.Admits l := by
  intro c f hr
  have hword : ∀ (w : List Char) (x : Lexeme), x.Spelled w →
      ∃ tokens l, Spells w tokens ∧ ∃ y, tokens = [.literal y] ∧ y.Admits l := by
    intro w x hx
    obtain ⟨l, hl⟩ := x.exists_admits
    exact ⟨_, l, .single (.literal hx), x, rfl, hl⟩
  rw [literal, result_bind_of_ok _ (result_blanks c), result_check] at hr
  cases hx : (lexeme.run c.bare).result with
  | error g =>
    rw [hx] at hr
    obtain rfl := Except.error.inj hr
    rcases lexeme_eq_error hx with ⟨found, rfl⟩ | ⟨passed, found, hc, hcause, hd⟩
    · refine isBehind_bare (by decide) ?_
      rintro w ⟨x, h⟩
      exact hword w x h
    · rw [rest_eq_bare c]
      refine Failure.IsBehind.after (.done (blanks_takeWhile _)) ⟨passed, hc, ?_⟩
      rw [hcause]
      refine ⟨by decide, ?_⟩
      rintro _ ⟨d, hdigit, rfl⟩
      obtain ⟨x, h⟩ := hd d hdigit
      obtain ⟨tokens, l, hs, hl⟩ := hword _ x h
      exact ⟨[], tokens, l, by rwa [List.append_nil], hl⟩
  | ok r =>
    obtain ⟨x, d⟩ := r
    simp only [hx] at hr
    split at hr
    · cases hr
    · rename_i cause hm
      obtain rfl := Except.error.inj hr
      refine ⟨_, rest_eq_bare c, ?_⟩
      have hnull : Completes (fun t l => ∃ x : Lexeme, t = [.literal x] ∧ x.Admits l)
          (c.rest.takeWhile isBlank ++ []) := by
        obtain ⟨tokens, l, hs, hl⟩ := hword "null".toList _ (.word (by decide))
        rw [List.append_nil]
        exact ⟨_, tokens, l, hs.blanks (blanks_takeWhile _), hl⟩
      rcases Lexeme.meaning_eq_error hm with hcause | ⟨word, -, rfl⟩ | ⟨quote, -, rfl⟩
      · cases cause <;> first | exact hcause.elim | exact hnull
      · exact hnull
      · exact hnull

/-! ## Lists and arguments -/

section
variable {item : Parse α} {Item : List Token → α → Prop}

theorem viable_afterEach {sign : Char} (hs : sign ∈ Token.signs) (hv : Viable item Item)
    (hf : Finds item Item) :
    Viable (afterEach sign item) (Grammar.Repeated (Behind sign Item)) := by
  intro c
  refine afterEach_induction (P := fun c r => ∀ f, r = .error f →
    f.IsBehind c.rest (Grammar.Repeated (Behind sign Item))) ?_ ?_ ?_ c
  · rintro c - f ⟨⟩
  · rintro c f hh he _ ⟨⟩
    obtain ⟨passed, hc, hp⟩ := passed_sign hs hh
    rw [hc]
    refine Failure.IsBehind.after hp ((hv _ f he).imp fun s a ha => ?_)
    refine ⟨[], [], [a], .nil, ?_⟩
    show Grammar.Repeated _ ((.sign sign :: s) ++ []) [a]
    exact .cons ⟨s, rfl, ha⟩ .nil
  · intro c a d hh ha ih f hr
    obtain ⟨passed, hc, hp⟩ := passed_sign hs hh
    obtain ⟨u, s, hu, hus, ha'⟩ := hf _ _ _ ha
    have hf : f.IsBehind d.rest (Grammar.Repeated (Behind sign Item)) := by
      cases ho : ((afterEach sign item).run d).result with
      | error g =>
        rw [ho] at hr
        exact ih f (ho.trans hr)
      | ok r =>
        rw [ho] at hr
        cases hr
    rw [hc, hu, ← List.append_assoc]
    refine Failure.IsBehind.after (hp.append hus) (hf.imp fun t as has => ?_)
    refine ⟨[], [], a :: as, .nil, ?_⟩
    rw [List.append_nil]
    exact .cons ⟨s, rfl, ha'⟩ has

theorem viable_commaSeparated (hv : Viable item Item) (hf : Finds item Item) :
    Viable (commaSeparated item) (Grammar.Separated Item) :=
  hv.bind hf (fun s a ha => ⟨[], [], [a], .nil, by rw [List.append_nil]; exact .single ha⟩)
    fun _ _ ha => (viable_afterEach (by decide) hv hf).map _ fun _ _ => separated_of_repeated ha

/-- Items with commas between them, and what closes the list. -/
def closed (item : Parse α) (close : Char) (what : Expected) : Parse (List α) := do
  let as ← commaSeparated item
  expect close what
  return as

/-- The items between braces or parentheses, with what closes them. -/
def IsClosed (Item : List Token → α → Prop) (close : Char) (t : List Token) (as : List α) : Prop :=
  ∃ s, t = s ++ [.sign close] ∧ Grammar.Separated Item s as

theorem finds_closed {close : Char} (hs : close ∈ Token.signs) (what : Expected)
    (hf : Finds item Item) : Finds (closed item close what) (IsClosed Item close) := by
  refine (finds_commaSeparated hf).bind fun s as hs' => ?_
  refine (finds_expect hs what).bind fun t _ ht => .pure ?_
  subst ht
  exact ⟨s, by simp, hs'⟩

theorem separated_snoc {s t : List Token} {a : α} {as : List α}
    (h : Grammar.Separated Item s as) (ha : Item t a) :
    Grammar.Separated Item (s ++ .sign ',' :: t) (as ++ [a]) := by
  induction h with
  | single hb => exact .cons hb (.single ha)
  | cons hb _ ih =>
    rw [List.append_assoc]
    exact .cons hb ih

/-- Behind the items either a comma and one more item or what closes the list goes on. -/
theorem viable_closed {close : Char} (hs : close ∈ Token.signs) {what : Expected}
    (hwhat : what ≠ .endOfInput) (hw : ∀ w, what.IsWord w → w = [close] ∨ w = [','])
    (hv : Viable item Item) (hf : Finds item Item)
    (hsome : ∃ text s a, Spells text s ∧ Item s a) :
    Viable (closed item close what) (IsClosed Item close) := by
  refine (viable_commaSeparated hv hf).bind (finds_commaSeparated hf) ?_ fun s as has => ?_
  · intro s as has
    exact ⟨[close], [.sign close], as, .single (.sign hs), s, rfl, has⟩
  · intro c f hr
    rcases result_bind_eq_error hr with he | ⟨_, d, -, he⟩
    · rw [result_expect] at he
      split at he
      · cases he
      · obtain rfl := Except.error.inj he
        refine ⟨_, rest_eq_bare c, hwhat, fun w hword => ?_⟩
        rcases hw w hword with rfl | rfl
        · refine ⟨[], [.sign close], as, ?_, s, rfl, has⟩
          rw [List.append_nil]
          exact (Spells.single (.sign hs)).blanks (blanks_takeWhile _)
        · obtain ⟨text, t, a, ht, ha⟩ := hsome
          refine ⟨text ++ [close], .sign ',' :: (t ++ [.sign close]), as ++ [a], ?_,
            s ++ .sign ',' :: t, by simp, separated_snoc has ha⟩
          rw [List.append_assoc]
          exact ((ht.append (.single (.sign hs))).sign (by decide)).blanks (blanks_takeWhile _)
    · cases he

end

theorem spells_null : Spells "null".toList [.literal (.word "null".toList)] :=
  .single (.literal (.word (by decide)))

theorem viable_pair : Viable pair (Grammar.IsPair Lexeme.Admits) := by
  refine viable_identifier.bind finds_identifier ?_ fun s n hs => ?_
  · rintro _ n rfl
    refine ⟨":null".toList, [.sign ':', .literal (.word "null".toList)], (n, .null), ?_, ?_⟩
    · exact Spells.sign (by decide) spells_null
    · exact .intro Lexeme.Denotes.null.admits
  · refine (viable_expect (by decide) (by decide) fun w (h : Expected.colon.IsWord w) => h).bind
      (finds_expect (by decide) _) ?_ fun t _ ht => ?_
    · rintro _ _ rfl
      subst hs
      refine ⟨"null".toList, [.literal (.word "null".toList)], (n, .null), ?_, ?_⟩
      · exact spells_null
      · exact .intro Lexeme.Denotes.null.admits
    · refine viable_literal.map (n, ·) fun u l hu => ?_
      obtain ⟨x, rfl, hx⟩ := hu
      subst hs ht
      exact .intro hx

/-- Arguments up to the parenthesis that closes them, at least one. -/
theorem viable_someArguments : Viable someArguments fun s a =>
    Grammar.IsArguments Lexeme.Admits (.sign '(' :: (s ++ [.sign ')'])) a := by
  intro c f hr
  rw [result_someArguments] at hr
  split at hr
  · refine Viable.map (fun pairs => Arguments.named (.ofList pairs))
      (viable_commaSeparated viable_pair (finds_pair Lexeme.Denotes.admits))
      (fun s pairs hs => ?_) c f hr
    exact .named hs (OrderedMap.collects_ofList pairs)
  · refine Viable.map Arguments.positional viable_literal (fun s l hs => ?_) c f hr
    obtain ⟨x, rfl, hx⟩ := hs
    exact .positional hx

theorem viable_arguments :
    Viable arguments fun s a => Grammar.IsArguments Lexeme.Admits (.sign '(' :: s) a := by
  refine .traced _ ((viable_eat _ _).bind (finds_eat (by decide)) ?_ fun s b hs => ?_)
  · rintro s b rfl
    cases b with
    | true => exact ⟨[], [], .none, .nil, .none⟩
    | false => exact ⟨[')'], [.sign ')'], .none, .single (.sign (by decide)), .none⟩
  · cases b with
    | true => exact viable_pure _ _
    | false =>
      subst hs
      refine viable_someArguments.bind (finds_someArguments Lexeme.Denotes.admits) ?_ fun t a ha => ?_
      · intro s a ha
        exact ⟨[')'], [.sign ')'], a, .single (.sign (by decide)), ha⟩
      · refine (viable_expect (by decide) (by decide)
          fun w (h : Expected.closeParenthesis.IsWord w) => h).map (fun _ => a) fun u _ hu => ?_
        subst hu
        exact ha

theorem viable_filter :
    Viable filter fun s f => Grammar.IsFilter Lexeme.Admits (.sign '.' :: s) f := by
  refine .traced _ (viable_identifier.bind finds_identifier ?_ fun s n hs => ?_)
  · rintro _ n rfl
    refine ⟨"()".toList, [.sign '(', .sign ')'], ⟨n, _⟩, ?_, .intro .none⟩
    exact Spells.sign (by decide) (.single (.sign (by decide)))
  · subst hs
    refine (viable_expect (by decide) (by decide)
      fun w (h : Expected.openParenthesis.IsWord w) => h).bind (finds_expect (by decide) _) ?_
        fun t _ ht => ?_
    · rintro _ _ rfl
      exact ⟨")".toList, [.sign ')'], ⟨n, _⟩, .single (.sign (by decide)), .intro .none⟩
    · subst ht
      exact viable_arguments.map _ fun u a ha => .intro ha

theorem viable_params : Viable params (Grammar.IsParams Lexeme.Admits) := by
  refine (viable_eat _ _).bind (finds_eat (by decide)) ?_ fun s b hs => ?_
  · rintro s b rfl
    cases b with
    | true => exact ⟨")".toList, [.sign ')'], _, .single (.sign (by decide)), .present .none⟩
    | false => exact ⟨[], [], _, .nil, .absent⟩
  · cases b with
    | true =>
      subst hs
      exact viable_arguments.map _ fun t a ha => .present ha
    | false => exact viable_pure _ _

theorem viable_headerAfter (n : String) : Viable (headerAfter n) fun s header =>
    Grammar.IsHeader Lexeme.Admits (.name n :: s) header := by
  have hfilter : Finds filter fun s f => Grammar.IsFilter Lexeme.Admits (.sign '.' :: s) f :=
    finds_filter Lexeme.Denotes.admits
  refine .traced _ (viable_params.bind (finds_params Lexeme.Denotes.admits) ?_ fun s p hs => ?_)
  · intro s p hs
    exact ⟨[], [], _, .nil, .intro hs .nil⟩
  · refine (viable_afterEach (by decide) viable_filter hfilter).map _ fun t filters ht => ?_
    refine .intro hs (ht.imp ?_)
    rintro _ f ⟨v, rfl, hv⟩
    exact hv

/-! ## Selections -/

/-- The failure lies at the cursor itself and refuses a selection for its depth. -/
def RefusedAt (c : Cursor) (f : Failure) : Prop := f.mark = c ∧ ∃ limit, f.cause = .tooDeep limit

theorem viable_blanks (T : List Token → Unit → Prop) : Viable blanks T := by
  intro c f hr
  rw [result_blanks] at hr
  cases hr

/-- A selection that is refused could have been a field. -/
theorem viable_property {Nested : List Token → Selection → Prop} {after : String → Parse Selection}
    (h : ∀ n c f, ((after n).run c).result = .error f →
      RefusedAt c f ∨ f.IsBehind c.rest fun s x => Nested (.name n :: s) x) :
    Viable (property after) (Grammar.IsProperty Nested) := by
  refine .traced _ (viable_identifier.bind finds_identifier ?_ fun s n hs => ?_)
  · rintro _ n rfl
    exact ⟨[], [], _, .nil, .field⟩
  · subst hs
    refine (viable_blanks _).bind finds_blanks ?_ fun t _ ht => ?_
    · rintro _ _ rfl
      exact ⟨[], [], _, .nil, .field⟩
    · subst ht
      refine (viable_scan _ _).bind finds_look ?_ fun u next hu => ?_
      · rintro _ _ rfl
        exact ⟨[], [], _, .nil, .field⟩
      · subst hu
        split
        · intro c f hr
          rcases result_bind_eq_error hr with he | ⟨_, _, _, he⟩
          · rcases h n c f he with ⟨hmark, limit, hcause⟩ | hbehind
            · refine ⟨[], by rw [hmark]; rfl, ?_⟩
              rw [hcause]
              exact ⟨[], [], .field n, .nil, .field⟩
            · exact hbehind.imp fun s x hx => ⟨[], [], .ofSelection x, .nil, .selection (by simpa)⟩
          · cases he
        · exact viable_pure _ _

theorem closed_bind (item : Parse α) (close : Char) (what : Expected) (next : List α → Parse β) :
    (do let as ← commaSeparated item; expect close what; next as) =
      closed item close what >>= next := by
  simp only [closed, bind_assoc, pure_bind]

theorem spells_field : Spells ['a'] [.name "a"] := .single (.name (by decide))

theorem spells_fields : Spells ['a', '}'] [.name "a", .sign '}'] :=
  spells_field.append (.single (.sign (by decide)))

theorem viable_selection {room limit : Nat}
    (h : ∀ n c f, ((selectionAfter limit room n).run c).result = .error f →
      RefusedAt c f ∨ f.IsBehind c.rest fun s x =>
        Grammar.IsObject Lexeme.Admits room (.name n :: s) x) (n : String) :
    Viable (selectionAfter limit (room + 1) n) fun s x =>
      Grammar.IsObject Lexeme.Admits (room + 1) (.name n :: s) x := by
  have hfinds := finds_property (finds_selectionAfter Lexeme.Denotes.admits limit room)
  have hfield : Grammar.Separated (Grammar.IsProperty (Grammar.IsObject Lexeme.Admits room))
      [.name "a"] [.field "a"] := .single .field
  refine .traced _ (.inside ((viable_headerAfter n).bind (finds_headerAfter Lexeme.Denotes.admits n)
    ?_ fun s header hs => ?_))
  · intro s header hs
    exact ⟨['{', 'a', '}'], [.sign '{', .name "a", .sign '}'], ⟨header, [.field "a"]⟩,
      spells_fields.sign (by decide), .intro hs hfield⟩
  · refine (viable_expect (by decide) (by decide) fun w (h : Expected.openBrace.IsWord w) => h).bind
      (finds_expect (by decide) _) ?_ fun t _ ht => ?_
    · rintro _ _ rfl
      exact ⟨['a', '}'], [.name "a", .sign '}'], ⟨header, [.field "a"]⟩,
      spells_fields, .intro hs hfield⟩
    · subst ht
      rw [closed_bind]
      refine (viable_closed (by decide) (by decide)
        (fun w (hw : Expected.commaOrCloseBrace.IsWord w) => hw.symm) (viable_property h) hfinds
        ⟨_, _, _, spells_field, .field⟩).map _ fun t properties ht => ?_
      obtain ⟨u, rfl, hu⟩ := ht
      exact .intro hs hu

theorem viable_selectionAfter (limit : Nat) : (room : Nat) → (n : String) → (c : Cursor) →
    (f : Failure) → ((selectionAfter limit room n).run c).result = .error f →
      RefusedAt c f ∨ f.IsBehind c.rest fun s x =>
        Grammar.IsObject Lexeme.Admits room (.name n :: s) x
  | 0, n, c, f, hr => by
    rw [selectionAfter, result_traced, result_inside] at hr
    obtain rfl := Except.error.inj hr
    exact .inl ⟨rfl, limit, rfl⟩
  | room + 1, n, c, f, hr => .inr (viable_selection (viable_selectionAfter limit room) n c f hr)

/-- A selection may have a single field. -/
theorem isObject_field {n : String} (room : Nat) : Grammar.IsObject Lexeme.Admits (room + 1)
    [.name n, .sign '{', .name "a", .sign '}'] ⟨⟨n, none, []⟩, [.field "a"]⟩ := by
  have hheader : Grammar.IsHeader Lexeme.Admits [.name n] ⟨n, none, []⟩ := .intro .absent .nil
  exact .intro hheader (.single .field)

theorem viable_object (limit room : Nat) :
    Viable (object limit (room + 1)) (Grammar.IsObject Lexeme.Admits (room + 1)) := by
  refine viable_identifier.bind finds_identifier ?_ fun s n hs => ?_
  · rintro _ n rfl
    exact ⟨['{', 'a', '}'], [.sign '{', .name "a", .sign '}'], _,
      spells_fields.sign (by decide), isObject_field room⟩
  · subst hs
    exact viable_selection (viable_selectionAfter limit room) n

/-- A document up to the brace that closes it. -/
def front (limit room : Nat) : Parse (List Selection) := do
  expect '{' .openBrace
  closed (object limit room) '}' .commaOrCloseBrace

theorem result_document (limit room : Nat) (c : Cursor) :
    ((document limit room).run c).result =
      ((do let selections ← front limit room; finish; return ⟨selections⟩ : Parse Document).run
        c).result := by
  rw [document, result_traced, front, closed]
  simp only [bind_assoc, pure_bind]

theorem finds_front (limit room : Nat) : Finds (front limit room) fun t selections =>
    Grammar.IsDocument Lexeme.Admits room t ⟨selections⟩ := by
  refine (finds_expect (by decide) _).bind fun s _ hs => ?_
  subst hs
  refine (finds_closed (by decide) _ (finds_object Lexeme.Denotes.admits limit room)).mono ?_
  rintro _ selections ⟨s, rfl, hs⟩
  exact .intro hs

theorem viable_front (limit room : Nat) : Viable (front limit (room + 1)) fun t selections =>
    Grammar.IsDocument Lexeme.Admits (room + 1) t ⟨selections⟩ := by
  have hobject : Spells ['a', '{', 'a', '}'] [.name "a", .sign '{', .name "a", .sign '}'] :=
    spells_field.append (spells_fields.sign (by decide))
  refine (viable_expect (by decide) (by decide) fun w (h : Expected.openBrace.IsWord w) => h).bind
    (finds_expect (by decide) _) ?_ fun t _ ht => ?_
  · rintro _ _ rfl
    refine ⟨['a', '{', 'a', '}', '}'], [.name "a", .sign '{', .name "a", .sign '}', .sign '}'],
      _, hobject.append (.single (.sign (by decide))), .intro (.single (isObject_field room))⟩
  · subst ht
    refine (viable_closed (by decide) (by decide)
      (fun w (hw : Expected.commaOrCloseBrace.IsWord w) => hw.symm) (viable_object limit room)
      (finds_object Lexeme.Denotes.admits limit (room + 1))
      ⟨_, _, _, hobject, isObject_field room⟩).mono ?_
    rintro _ selections ⟨s, rfl, hs⟩
    exact .intro hs

/-- A document fails behind a text that goes on to a document, or behind one. -/
theorem viable_document {limit room : Nat} {c : Cursor} {f : Failure}
    (h : ((document limit (room + 1)).run c).result = .error f) :
    f.IsBehind c.rest (Grammar.IsDocument Lexeme.Admits (room + 1)) ∨
      (∃ found, f.cause = .unexpected .endOfInput found) ∧ ∃ passed d,
        c.rest = passed ++ f.mark.rest ∧ Grammar.Derives Lexeme.Admits (room + 1) passed d := by
  rw [result_document] at h
  rcases result_bind_eq_error h with he | ⟨selections, d, hs, h⟩
  · exact .inl ((viable_front limit room c f he).imp fun t selections ht =>
      ⟨[], [], ⟨selections⟩, .nil, by rwa [List.append_nil]⟩)
  · rcases result_bind_eq_error h with he | ⟨_, _, _, h⟩
    · obtain ⟨u, t, hc, hu, ht⟩ := finds_front _ _ _ _ _ hs
      rw [result_finish] at he
      split at he
      · cases he
      · obtain rfl := Except.error.inj he
        refine .inr ⟨⟨_, rfl⟩, u ++ d.rest.takeWhile isBlank, ⟨selections⟩, ?_, t, ?_, ht⟩
        · rw [List.append_assoc, ← rest_eq_bare, hc]
        · have := hu.append (.done (blanks_takeWhile d.rest))
          rwa [List.append_nil] at this
    · cases h

end Parse

end QueryMarkup
