import QueryMarkup.Proofs.Offsets.Agreement
import QueryMarkup.Proofs.Reading.Lexeme

/-!
# Signs, names and literals by offsets

What stands between two places that were passed is a slice, and so is the line around a place: the
reports of the machine are those of the reading. A token that is taken for a literal is read again
from its slice.
-/

namespace QueryMarkup.Checked

open Parse (result_bind result_bind_of_ok)

variable {α β : Type} {text : List Char} {depth : Nat} {c : Cursor}

theorem context?_eq (hr : (Cursor.start text).Reaches c) :
    Run.context? text c.position = some (Failure.context text c) := by
  have hbehind := slice?_rest hr
  obtain ⟨before, htext, hposition, hoffset⟩ := exists_before hr
  rw [afterAll_start] at hposition
  have hbefore : slice? text 0 c.position.offset = some before :=
    slice?_eq_some.2 ⟨[], c.rest, htext, rfl, by rw [hoffset, Nat.zero_add]⟩
  have hstop : (find? '\n' c.rest).elim (byteSize text) (c.position.offset + ·) =
      byteSize before + (find? '\n' c.rest).getD (byteSize c.rest) := by
    rw [hposition]
    cases find? '\n' c.rest with
    | none => rw [htext, byteSize_append]; rfl
    | some offset => rfl
  have hline : slice? text (lineStart before)
      (byteSize before + (find? '\n' c.rest).getD (byteSize c.rest)) =
        some (lastLine before ++ firstLine c.rest) := by
    rw [htext]
    exact slice?_line before c.rest
  have hcolumn : 1 ≤ c.position.column := by
    rw [hposition]
    exact Nat.le_add_right 1 _
  rw [Failure.context, lineAround_eq htext]
  simp only [Run.context?, hbefore, hbehind, hstop, hline, Option.bind_eq_bind, Option.bind_some,
    ↓guard_of_pos hcolumn]
  rfl

/-- Failing at a place that was passed reports the failure. -/
theorem failAt_eq (hr : (Cursor.start text).Reaches c) (cause : Cause) (d : Cursor) (opened : Nat)
    (m : Machine) : (Run.failAt text c.position cause : Run α) m =
      some (.error (Failure.report ⟨cause, c, d, opened⟩ text), m) := by
  rw [Run.failAt, ofOption_bind (context?_eq hr)]
  rfl

theorem agrees_fail (cause : Cause) :
    Agrees text depth (Run.place >>= fun mark => Run.failAt text mark cause : Run α)
      (Parse.fail cause) c :=
  .place fun hr m hm => ⟨m, failAt_eq hr cause c 0 m, hm⟩

theorem agrees_unexpected (what : Expected) :
    Agrees text depth (Run.unexpected text what : Run α) (Parse.expected what) c := by
  exact agrees_peek.bind fun found d _ => agrees_fail _

def skipping (belongs : Char → Bool) : Parse Unit := do
  let _ ← Parse.takeWhile belongs

/-- One step of skipping, which goes on behind a character of the class. -/
def skippingStep (belongs : Char → Bool) : Parse (Unit ⊕ Unit) := do
  match ← Parse.look with
  | some c =>
    if belongs c then
      Parse.next
      return .inl ()
    else return .inr ()
  | none => return .inr ()

theorem result_skipping (belongs : Char → Bool) (c : Cursor) :
    ((skipping belongs).run c).result =
      .ok ((), c.drop (c.rest.takeWhile belongs).length) := rfl

theorem result_skippingStep (belongs : Char → Bool) (c : Cursor) :
    ((skippingStep belongs).run c).result =
      if c.rest.head?.any belongs then .ok (.inl (), c.drop 1) else .ok (.inr (), c) := by
  rw [skippingStep, result_bind_of_ok _ (Parse.result_look c)]
  cases c.rest with
  | nil => rfl
  | cons x rest =>
    by_cases hx : belongs x = true
    · rw [List.head?_cons, Option.any_some, if_pos hx]
      dsimp only
      rw [if_pos hx]
      rfl
    · rw [List.head?_cons, Option.any_some, if_neg hx]
      dsimp only
      rw [if_neg hx]
      rfl

theorem agrees_skipWhile (belongs : Char → Bool) :
    Agrees text depth (Run.skipWhile text belongs) (skipping belongs) c := by
  refine agrees_repeatedly (fun _ => skippingStep belongs) (fun _ => skipping belongs)
    (fun _ d _ => ?_) (fun _ d => ?_) (fun _ _ d e he => ?_) ()
  · refine agrees_peek.bind fun found _ _ => ?_
    cases found with
    | none => exact .pure _
    | some x => exact .ite (fun _ => .next fun _ => .pure _) fun _ => .pure _
  · rw [goOn, result_bind, result_skippingStep, result_skipping]
    by_cases h : d.rest.head?.any belongs = true
    · rw [if_pos h]
      dsimp only
      cases hd : d.rest with
      | nil => simp [hd] at h
      | cons x rest =>
        have hx : belongs x = true := by simpa [hd] using h
        rw [result_skipping, Cursor.rest_drop_one hd, List.takeWhile_cons_of_pos hx,
          List.length_cons, Nat.add_comm, ← Cursor.drop_drop]
    · rw [if_neg h]
      cases hd : d.rest with
      | nil =>
        simp only [List.takeWhile_nil, List.length_nil, Cursor.drop_zero]
        rfl
      | cons x rest =>
        have hx : ¬belongs x = true := by simpa [hd] using h
        rw [List.takeWhile_cons_of_neg hx, List.length_nil, Cursor.drop_zero]
        rfl
  · rw [result_skippingStep] at he
    split at he
    · rename_i hfound
      obtain ⟨-, rfl⟩ := Prod.mk.inj (Except.ok.inj he)
      refine Cursor.length_drop_lt (fun hd => ?_) Nat.one_pos
      simp [hd] at hfound
    · cases he

theorem agrees_blanks : Agrees text depth (Run.skipWhile text Parse.isBlank) Parse.blanks c :=
  agrees_skipWhile Parse.isBlank

/-- Looking behind the blanks for the next sign. -/
theorem Agrees.peekSign {k : Option Char → Run α} {n : Option Char → Parse α}
    (h : ∀ sign d, c.Reaches d → Agrees text depth (k sign) (n sign) d) :
    Agrees text depth (Run.peekSign text >>= k) (Parse.blanks >>= fun _ => Parse.look >>= n) c := by
  have hbind : Agrees text depth (Run.peekSign text >>= k)
      ((Parse.blanks >>= fun _ => Parse.look) >>= n) c :=
    (agrees_blanks.bind fun _ _ _ => agrees_peek).bind fun sign d hd =>
      h sign d (Parse.reaches_of_ok hd)
  rwa [bind_assoc] at hbind

theorem agrees_eat (sign : Char) : Agrees text depth (Run.eat text sign) (Parse.eat sign) c :=
  .peekSign fun _ _ _ => .ite (fun _ => .next fun _ => .pure _) fun _ => .pure _

theorem agrees_expect (sign : Char) (what : Expected) :
    Agrees text depth (Run.expect text sign what) (Parse.expect sign what) c :=
  (agrees_eat sign).bind fun found _ _ => by
    cases found with
    | true => exact .pure _
    | false => exact agrees_unexpected what

theorem agrees_finish : Agrees text depth (Run.finish text) Parse.finish c := by
  refine agrees_blanks.bind fun _ d _ => .place fun hr m hm => ?_
  have hsize := byteSize_eq_offset_add hr
  rw [result_bind_of_ok _ (Parse.result_look d)]
  cases hd : d.rest with
  | nil =>
    rw [hd] at hsize
    rw [if_pos (show byteSize text ≤ d.position.offset from Nat.le_of_eq hsize)]
    exact ⟨m, rfl, hm⟩
  | cons x rest =>
    have hx := x.utf8Size_pos
    rw [hd, byteSize] at hsize
    rw [if_neg (show ¬byteSize text ≤ d.position.offset by omega)]
    exact agrees_unexpected .endOfInput hr m hm

/-! ## Numerals and strings -/

theorem slice?_passed {d : Cursor} {word : List Char} (hr : (Cursor.start text).Reaches c)
    (hd : c.Reaches d) (hword : c.rest = word ++ d.rest) :
    slice? text c.position.offset d.position.offset = some word := by
  obtain ⟨before, htext, -, hoffset⟩ := exists_before hr
  refine slice?_eq_some.2 ⟨before, d.rest, by rw [htext, hword], hoffset, ?_⟩
  obtain ⟨passed, hpassed, hposition'⟩ := hd
  obtain rfl := List.append_cancel_right (hword.symm.trans hpassed)
  rw [hposition', Position.offset_afterAll]

theorem agrees_since {start : Cursor} {word : List Char}
    (hstart : (Cursor.start text).Reaches start) (hc : start.Reaches c)
    (hword : start.rest = word ++ c.rest) :
    Agrees text depth (Run.since text start.position) (pure word) c := by
  refine .place fun hr m hm => ?_
  rw [Run.slice, slice?_passed hstart hc hword]
  exact ⟨m, rfl, hm⟩

theorem agrees_identifier : Agrees text depth (Run.identifier text) Parse.identifier c := by
  refine agrees_blanks.bind fun _ d _ => .place (agrees_peek.bind fun found e he => ?_)
  rw [Parse.result_look] at he
  obtain ⟨rfl, rfl⟩ := Prod.mk.inj (Except.ok.inj he)
  cases hd : d.rest with
  | nil => exact agrees_unexpected _
  | cons x rest =>
    refine .ite (fun hx hr => ?_) fun _ => agrees_unexpected _
    have hword : d.rest.takeWhile Identifier.isPart = x :: rest.takeWhile Identifier.isPart := by
      rw [hd, List.takeWhile_cons_of_pos (Identifier.isPart_of_isStart hx)]
    have hsame : (d.drop 1).drop (rest.takeWhile Identifier.isPart).length =
        d.drop (d.rest.takeWhile Identifier.isPart).length := by
      rw [Cursor.drop_drop, hword, List.length_cons, Nat.add_comm]
    refine Agrees.congr (p := Parse.next >>= fun _ => skipping Identifier.isPart >>= fun _ =>
      Pure.pure (d.rest.takeWhile Identifier.isPart) >>= fun word => Pure.pure (String.ofList word))
      ?_ ?_ hr
    · refine .next fun _ => (agrees_skipWhile _).bind fun _ e he => ?_
      rw [result_skipping, Cursor.rest_drop_one hd, hsame] at he
      obtain ⟨-, rfl⟩ := Prod.mk.inj (Except.ok.inj he)
      refine (agrees_since hr (d.reaches_drop _) ?_).bind fun _ _ _ => .pure _
      rw [Cursor.rest_drop_takeWhile, List.takeWhile_append_dropWhile]
    · rw [result_bind_of_ok _ (Parse.result_next d), result_bind_of_ok _ (result_skipping _ _),
        Cursor.rest_drop_one hd, hsame]
      rfl

/-- A reading whose value does not matter. -/
def passing (p : Parse α) : Parse Unit := do
  let _ ← p

theorem agrees_digits : Agrees text depth (Run.digits text) (passing Parse.digits) c := by
  refine Agrees.congr (p := Parse.look >>= fun found =>
    if found.any Char.isDigit then skipping Char.isDigit else Parse.expected .digit) ?_ ?_
  · exact agrees_peek.bind fun _ _ _ => .ite (fun _ => agrees_skipWhile _) fun _ =>
      agrees_unexpected _
  · rw [passing, result_bind, Parse.result_digits, result_bind_of_ok _ (Parse.result_look c)]
    cases hc : c.rest with
    | nil =>
      have he := Parse.result_expected (α := Unit) .digit c
      rw [hc] at he
      exact he.symm
    | cons x rest =>
      by_cases hx : x.isDigit = true
      · rw [List.takeWhile_cons_of_pos hx, if_neg (List.cons_ne_nil _ _), List.head?_cons,
          Option.any_some, if_pos hx, result_skipping, hc, List.takeWhile_cons_of_pos hx]
        rfl
      · rw [List.takeWhile_cons_of_neg hx, if_pos rfl, List.head?_cons, Option.any_some, if_neg hx,
          Parse.result_expected, hc, List.head?_cons]

/-- The digits, and the point and the digits behind it if there is one. -/
theorem agrees_unsigned (negative : Bool) :
    Agrees text depth (do
      Run.digits text
      if (← Run.peek text) = some '.' then
        let _ ← Run.next text
        Run.digits text) (passing (Parse.unsigned negative)) c := by
  refine Agrees.congr (p := passing Parse.digits >>= fun _ => Parse.look >>= fun found =>
    if found = some '.' then Parse.next >>= fun _ => passing Parse.digits else pure ()) ?_ ?_
  · exact agrees_digits.bind fun _ _ _ => agrees_peek.bind fun _ _ _ =>
      .ite (fun _ => .next fun _ => agrees_digits) fun _ => .pure _
  · rw [passing, passing, Parse.unsigned, bind_assoc, bind_assoc]
    cases hd : (Parse.digits.run c).result with
    | error f => rw [Parse.result_bind_of_error _ hd, Parse.result_bind_of_error _ hd]
    | ok result =>
      obtain ⟨whole, d⟩ := result
      rw [result_bind_of_ok _ hd, result_bind_of_ok _ hd, pure_bind, bind_assoc,
        result_bind_of_ok _ (Parse.result_look d), result_bind_of_ok _ (Parse.result_look d)]
      split
      · rw [bind_assoc, result_bind_of_ok _ (Parse.result_next d),
          result_bind_of_ok _ (Parse.result_next d), bind_assoc]
        rfl
      · rfl

theorem agrees_numeral : Agrees text depth (Run.numeral text) (passing Parse.numeral) c := by
  refine Agrees.congr (p := Parse.look >>= fun found =>
    if found = some '-' then Parse.next >>= fun _ => passing (Parse.unsigned true)
    else passing (Parse.unsigned false)) ?_ ?_
  · exact agrees_peek.bind fun _ _ _ =>
      .ite (fun _ => .next fun _ => agrees_unsigned true) fun _ => agrees_unsigned false
  · rw [passing, result_bind, Parse.result_numeral, result_bind_of_ok _ (Parse.result_look c)]
    by_cases h : c.rest.head? = some '-'
    · rw [if_pos h, if_pos h, result_bind_of_ok _ (Parse.result_next c), passing, result_bind]
    · rw [if_neg h, if_neg h, passing, result_bind]

theorem result_advance (c : Cursor) : (advance.run c).result = .ok (c.rest.head?, c.drop 1) := by
  rw [advance, result_bind_of_ok _ (Parse.result_look c), result_bind_of_ok _ (Parse.result_next c)]
  rfl

/-- Whether the string is closed. -/
def closing (quote : Char) : Parse Bool :=
  Parse.scan fun rest => ((Quoted.body quote rest).1.isSome, (Quoted.body quote rest).2)

def closingStep (quote : Char) : Parse (Unit ⊕ Bool) := do
  match ← advance with
  | some c =>
    if c = quote then return .inr true
    else if c = '\\' then
      match ← advance with
      | some d => if Quoted.isLineBreak d then return .inr false else return .inl ()
      | none => return .inr false
    else if Quoted.isLineBreak c then return .inr false
    else return .inl ()
  | none => return .inr false

theorem result_closing (quote : Char) (c : Cursor) :
    ((closing quote).run c).result =
      .ok ((Quoted.body quote c.rest).1.isSome, c.drop (Quoted.body quote c.rest).2) := rfl

theorem result_closingStep (quote : Char) (c : Cursor) :
    ((closingStep quote).run c).result =
      match c.rest with
      | [] => .ok (.inr false, c.drop 1)
      | x :: rest =>
        if x = quote then .ok (.inr true, c.drop 1)
        else if x = '\\' then
          if rest.head?.all Quoted.isLineBreak then .ok (.inr false, c.drop 2)
          else .ok (.inl (), c.drop 2)
        else if Quoted.isLineBreak x then .ok (.inr false, c.drop 1)
        else .ok (.inl (), c.drop 1) := by
  rw [closingStep, result_bind_of_ok _ (result_advance c)]
  cases hc : c.rest with
  | nil => rfl
  | cons x rest =>
    dsimp only [List.head?_cons]
    split
    · rfl
    · split
      · rw [result_bind_of_ok _ (result_advance _), Cursor.rest_drop_one hc, Cursor.drop_drop]
        cases rest with
        | nil => rfl
        | cons y rest =>
          by_cases hy : Quoted.isLineBreak y = true
          · simp only [List.head?_cons, Option.all_some, hy, if_true]
            rfl
          · simp only [List.head?_cons, Option.all_some, hy]
            rfl
      · split <;> rfl

/-- A string is scanned step by step. -/
theorem result_closing_eq (quote : Char) (c : Cursor) :
    ((closing quote).run c).result =
      ((goOn (closingStep quote) fun _ => closing quote).run c).result := by
  rw [goOn, result_bind, result_closingStep, result_closing]
  cases hc : c.rest with
  | nil =>
    rw [Cursor.drop_of_nil hc, Cursor.drop_of_nil hc]
    rfl
  | cons x rest =>
    dsimp only
    by_cases hquote : x = quote
    · rw [if_pos hquote, hquote, Quoted.body_quote]
      rfl
    rw [if_neg hquote]
    by_cases hescape : x = '\\'
    · subst hescape
      rw [if_pos rfl]
      cases rest with
      | nil =>
        have hstay : c.drop 2 = c.drop 1 := by
          rw [← c.drop_drop 1 1, Cursor.drop_of_nil (Cursor.rest_drop_one hc)]
        rw [Quoted.body_backslash hquote, List.head?_nil, Option.all_none, if_pos rfl, hstay]
        rfl
      | cons y rest =>
        have hrest : (c.drop 2).rest = rest := by
          show c.rest.drop 2 = rest
          rw [hc]
          rfl
        rw [List.head?_cons, Option.all_some]
        cases hy : Quoted.isLineBreak y with
        | true =>
          rw [Quoted.body_escapedLineBreak hquote hy, if_pos rfl]
          rfl
        | false =>
          rw [Quoted.body_escape hquote hy, if_neg Bool.false_ne_true]
          dsimp only
          rw [result_closing, hrest, Cursor.drop_drop, Option.isSome_map, Nat.add_comm]
    · rw [if_neg hescape]
      cases hbreak : Quoted.isLineBreak x with
      | true =>
        rw [Quoted.body_lineBreak hquote hbreak, if_pos rfl]
        rfl
      | false =>
        rw [Quoted.body_plain hquote hbreak hescape, if_neg Bool.false_ne_true]
        dsimp only
        rw [result_closing, Cursor.rest_drop_one hc, Cursor.drop_drop, Option.isSome_map,
          Nat.add_comm]

theorem agrees_stringBody (quote : Char) :
    Agrees text depth (Run.stringBody text quote) (closing quote) c := by
  refine agrees_repeatedly (fun _ => closingStep quote) (fun _ => closing quote)
    (fun _ d _ => ?_) (fun _ d => result_closing_eq quote d) (fun _ _ d e he => ?_) ()
  · refine agrees_next.bind fun found _ _ => ?_
    cases found with
    | none => exact .pure _
    | some x =>
      refine .ite (fun _ => .pure _) fun _ => .ite (fun _ => ?_) fun _ =>
        .ite (fun _ => .pure _) fun _ => .pure _
      refine agrees_next.bind fun found _ _ => ?_
      cases found with
      | none => exact .pure _
      | some y => exact .ite (fun _ => .pure _) fun _ => .pure _
  · rw [result_closingStep] at he
    split at he
    · cases he
    · rename_i x rest hd
      have hne : d.rest ≠ [] := hd ▸ List.cons_ne_nil x rest
      repeat' split at he
      all_goals cases he
      · exact Cursor.length_drop_lt hne Nat.two_pos
      · exact Cursor.length_drop_lt hne Nat.one_pos

/-! ## Tokens and literals -/

/-- The kind of token that a lexeme is, if its string is closed. -/
def kindOf : Lexeme → Except Cause Run.TokenKind
  | .word _ => .ok .word
  | .numeral _ => .ok .numeral
  | .quoted quote none => .error (.unterminated quote)
  | .quoted _ (some _) => .ok .string

theorem agrees_string (quote : Char) :
    Agrees text depth (do
      Run.string text quote c.position
      return .string) (Parse.check (Parse.quoted quote) kindOf) c := by
  intro hr m hm
  obtain ⟨m₁, hm₁, hat₁⟩ := agrees_next.ok hr hm (result_advance c)
  obtain ⟨m₂, hm₂, hat₂⟩ := (agrees_stringBody quote).ok (hr.trans (c.reaches_drop 1)) hat₁
    (result_closing quote (c.drop 1))
  have hstring : Run.string text quote c.position m =
      (if (Quoted.body quote (c.drop 1).rest).1.isSome then pure ()
        else Run.failAt text c.position (.unterminated quote) : Run Unit) m₂ := by
    rw [Run.string, run_bind_of_ok hm₁, run_bind_of_ok hm₂]
  rw [Parse.result_check, Parse.result_quoted]
  cases hbody : (Quoted.body quote (c.drop 1).rest).1 with
  | none =>
    rw [hbody] at hstring
    exact ⟨m₂, run_bind_of_error (hstring.trans (failAt_eq hr _ _ 0 m₂)), hat₂⟩
  | some body =>
    rw [hbody] at hstring
    exact ⟨m₂, run_bind_of_ok hstring, hat₂⟩

theorem agrees_token : Agrees text depth (Run.token text c.position)
    (Parse.check Parse.lexeme kindOf) c := by
  refine Agrees.congr (p := Parse.look >>= fun found =>
    match found with
    | some x =>
      if x = '"' ∨ x = '\'' then Parse.check (Parse.quoted x) kindOf
      else if x = '-' ∨ x.isDigit then passing Parse.numeral >>= fun _ => pure .numeral
      else if Identifier.isStart x then skipping Identifier.isPart >>= fun _ => pure .word
      else Parse.expected .literal
    | none => Parse.expected .literal) ?_ ?_
  · refine agrees_peek.bind fun found d hd => ?_
    rw [Parse.result_look] at hd
    obtain ⟨rfl, rfl⟩ := Prod.mk.inj (Except.ok.inj hd)
    cases c.rest with
    | nil => exact agrees_unexpected _
    | cons x rest =>
      exact .ite (fun _ => agrees_string x) fun _ =>
        .ite (fun _ => agrees_numeral.bind fun _ _ _ => .pure _) fun _ =>
        .ite (fun _ => (agrees_skipWhile _).bind fun _ _ _ => .pure _) fun _ => agrees_unexpected _
  · rw [Parse.result_check, result_bind_of_ok _ (Parse.result_look c)]
    cases hc : c.rest with
    | nil =>
      rw [Parse.lexeme, result_bind_of_ok _ (Parse.result_look c), hc, List.head?_nil,
        Parse.result_expected, Parse.result_expected]
    | cons x rest =>
      rw [Parse.result_lexeme hc, List.head?_cons]
      dsimp only
      by_cases hquote : x = '"' ∨ x = '\''
      · rw [if_pos hquote, if_pos hquote, Parse.result_check]
      rw [if_neg hquote, if_neg hquote]
      by_cases hnumeral : x = '-' ∨ x.isDigit = true
      · rw [if_pos hnumeral, if_pos hnumeral, map_eq_pure_bind, passing, bind_assoc, result_bind,
          result_bind]
        cases (Parse.numeral.run c).result <;> rfl
      rw [if_neg hnumeral, if_neg hnumeral]
      by_cases hword : Identifier.isStart x = true
      · rw [if_pos hword, if_pos hword]
        rfl
      · rw [if_neg hword, if_neg hword, Parse.result_expected, hc, List.head?_cons]

theorem numeralOf_text {n : Numeral} (h : n.IsWritten) : numeralOf n.text = n := by
  obtain ⟨negative, whole, fraction⟩ := n
  obtain ⟨⟨hne, hdigits⟩, -⟩ := h
  have hwhole : ∀ c ∈ whole, decide (c ≠ '.') = true := by
    intro c hc
    refine decide_eq_true fun he => ?_
    rw [he] at hc
    exact absurd (hdigits '.' hc) (by decide)
  have hpoint : ∀ c ∈ (fraction.elim [] ('.' :: ·)).head?, decide (c ≠ '.') = false := by
    cases fraction with
    | none => simp
    | some digits => simp
  have htake := takeWhile_append_of_head hwhole hpoint
  have hdrop := dropWhile_append_of_head hwhole hpoint
  have hfraction : (fraction.elim [] ('.' :: ·)).tail? = fraction := by cases fraction <;> rfl
  rw [Parse.numeral_text_eq]
  cases negative with
  | true =>
    show Numeral.mk true (List.takeWhile _ (whole ++ _)) (List.dropWhile _ (whole ++ _)).tail? = _
    rw [htake, hdrop, hfraction]
  | false =>
    obtain ⟨d, ds, rfl⟩ := List.exists_cons_of_ne_nil hne
    have hminus : ¬some d = some '-' := by
      intro he
      rw [Option.some.inj he] at hdigits
      exact absurd (hdigits '-' List.mem_cons_self) (by decide)
    unfold numeralOf
    simp only [Bool.false_eq_true, if_false, List.nil_append, List.cons_append, List.head?_cons,
      hminus, decide_false]
    rw [← List.cons_append, htake, hdrop, hfraction]

theorem doubleQuoted?_escape {c : Char} (h : c ≠ '\'') (rest : List Char) :
    doubleQuoted? ('\\' :: c :: rest) = (doubleQuoted? rest).map ('\\' :: c :: ·) := by
  rw [doubleQuoted?]
  exact fun e => h e

theorem doubleQuoted?_plain {c : Char} (h : c ≠ '\\') (k : c ≠ '"') (rest : List Char) :
    doubleQuoted? (c :: rest) = (doubleQuoted? rest).map (c :: ·) := by
  rw [doubleQuoted?]
  · exact fun e => absurd e h
  · exact fun _ e => absurd e h
  · exact fun _ _ e => absurd e h
  · exact fun e => k e

/-- No backslash stands alone at the end of a body. -/
theorem doubleQuoted?_eq {quote : Char} {body : List Char} (h : Quoted.IsBody quote body) :
    doubleQuoted? body = some (Quoted.doubleQuoted body) := by
  induction h with
  | nil => rfl
  | @plain c rest _ hc _ _ ih =>
    by_cases hquote : c = '"'
    · rw [hquote, doubleQuoted?, ih, Quoted.doubleQuoted_double]
      rfl
    · rw [doubleQuoted?_plain hc hquote, ih, Quoted.doubleQuoted_plain hc hquote]
      rfl
  | @escaped c rest _ _ ih =>
    by_cases hquote : c = '\''
    · rw [hquote, doubleQuoted?, ih, Quoted.doubleQuoted_quote]
      rfl
    · rw [doubleQuoted?_escape hquote, ih, Quoted.doubleQuoted_escape hquote]
      rfl

theorem decode?_eq {quote : Char} (hquote : quote = '"' ∨ quote = '\'') {body : List Char}
    (h : Quoted.IsBody quote body) :
    decode? (quote :: (body ++ [quote])) = some (Lexeme.quoted quote (some body)).meaning := by
  have hone : quote.utf8Size = 1 := by rcases hquote with rfl | rfl <;> rfl
  have hsize : byteSize (quote :: (body ++ [quote])) = byteSize body + 2 := by
    rw [byteSize, byteSize_append, byteSize, byteSize, hone]
    omega
  have hlong : 1 ≤ byteSize (quote :: (body ++ [quote])) := by omega
  have hbody : slice? (quote :: (body ++ [quote])) 1 (byteSize (quote :: (body ++ [quote])) - 1) =
      some body := by
    refine slice?_eq_some.2 ⟨[quote], [quote], rfl, ?_, ?_⟩
    · rw [byteSize, byteSize, hone]
    · omega
  have hquoted : quote :: (body ++ [quote]) = '"' :: (body ++ ['"']) ∨
      quote :: (body ++ [quote]) = '\'' :: (body ++ ['\'']) := by
    rcases hquote with rfl | rfl
    · exact .inl rfl
    · exact .inr rfl
  rw [decode?, guard_of_pos hlong, Option.bind_eq_bind, Option.bind_some, hbody,
    Option.bind_eq_bind, Option.bind_some, guard_of_pos hquoted, Option.bind_some,
    doubleQuoted?_eq h, Option.bind_some]
  rw [Lexeme.meaning, Quoted.decode]
  cases Escaped.decode (Quoted.doubleQuoted body) <;> rfl

theorem convert?_eq {x : Lexeme} {kind : Run.TokenKind} {word : List Char} (hx : x.IsReadFrom word)
    (hkind : kindOf x = .ok kind) : convert? kind word = some x.meaning := by
  cases hx with
  | word =>
    obtain rfl := Except.ok.inj hkind
    rfl
  | numeral hn =>
    obtain rfl := Except.ok.inj hkind
    rw [convert?, numeralOf_text hn]
  | quoted hquote hbody =>
    obtain rfl := Except.ok.inj hkind
    exact decode?_eq hquote hbody

/-- Without a kind a lexeme has no meaning. -/
theorem meaning_of_kindOf_eq_error {x : Lexeme} {cause : Cause} (h : kindOf x = .error cause) :
    x.meaning = .error cause := by
  cases x with
  | word word => cases h
  | numeral n => cases h
  | quoted quote body =>
    cases body with
    | none =>
      obtain rfl := Except.error.inj h
      rfl
    | some body => cases h

theorem agrees_literal : Agrees text depth (Run.literal text) Parse.literal c := by
  refine agrees_blanks.bind fun _ d _ => .place fun hr m hm => ?_
  rw [Parse.result_check]
  cases hx : (Parse.lexeme.run d).result with
  | error f =>
    obtain ⟨m', hm', hat⟩ := agrees_token.error (f := f) hr hm (by rw [Parse.result_check, hx])
    exact ⟨m', run_bind_of_error hm', hat⟩
  | ok result =>
    obtain ⟨x, e⟩ := result
    cases hkind : kindOf x with
    | error cause =>
      obtain ⟨m', hm', hat⟩ := agrees_token.error (f := ⟨cause, d, e, 0⟩) hr hm (by
        rw [Parse.result_check, hx]
        simp only [hkind])
      rw [run_bind_of_error hm']
      simp only [meaning_of_kindOf_eq_error hkind]
      exact ⟨m', rfl, hat⟩
    | ok kind =>
      obtain ⟨m', hm', hat⟩ := agrees_token.ok (a := kind) (d := e) hr hm (by
        rw [Parse.result_check, hx]
        simp only [hkind])
      have hclosed : ∀ quote, x ≠ .quoted quote none := by
        rintro quote rfl
        cases hkind
      obtain ⟨word, hword, hread⟩ := Parse.lexeme_passed hx hclosed
      have hde := Parse.reaches_of_ok hx
      obtain ⟨m'', hm'', hat'⟩ := (agrees_since hr hde hword).ok (hr.trans hde) hat rfl
      rw [run_bind_of_ok hm', run_bind_of_ok hm'', ofOption_bind (convert?_eq hread hkind)]
      dsimp only
      cases x.meaning with
      | ok l => exact ⟨m'', rfl, hat'⟩
      | error cause => exact ⟨m'', failAt_eq hr cause e 0 m'', hat'⟩

end QueryMarkup.Checked
