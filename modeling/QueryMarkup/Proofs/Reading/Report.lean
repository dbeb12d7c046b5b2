import QueryMarkup.Proofs.Reading.Truth
import QueryMarkup.Reader.Load

/-!
# Reports point at their place

A report divides the text in two: offset, line and column are those of the place between the parts,
and the context is the line around it with a caret below. The counts are kept character by character
while reading, and `place_afterAll` says what they add up to.
-/

namespace QueryMarkup

/-- What stands behind the last line feed. -/
def lastLine (text : List Char) : List Char := (text.reverse.takeWhile (· ≠ '\n')).reverse

/-- What stands in front of the first line feed. -/
def firstLine (text : List Char) : List Char := text.takeWhile (· ≠ '\n')

/-- The text without the carriage returns at its end. -/
def trimmed (text : List Char) : List Char := (text.reverse.dropWhile (· = '\r')).reverse

theorem lastLine_append_singleton (text : List Char) (c : Char) :
    lastLine (text ++ [c]) = if c = '\n' then [] else lastLine text ++ [c] := by
  unfold lastLine
  by_cases h : c = '\n' <;> simp [h]

/-- A report of a failure at the place between two parts of a text. -/
structure Report.PointsBetween (r : Report) (before behind : List Char) : Prop where
  offset : r.offset = (String.ofList before).utf8ByteSize
  line : r.line = 1 + before.count '\n'
  column : r.column = 1 + (lastLine before).length
  context : r.context = String.ofList (trimmed (lastLine before ++ firstLine behind) ++
    '\n' :: (List.replicate (r.column - 1) ' ' ++ ['^']))
  found : ∀ (what : String) (c : Char), r.message = s!"expected {what}, found '{c}'" →
    c ≠ '\n' → c ≠ '\r' → (firstLine r.context.toList)[r.column - 1]? = some c

/-- The offset is a boundary of characters, and the report points at the place there. -/
structure Report.IsConsistent (r : Report) (text : String) : Prop where
  boundary : (String.Pos.Raw.mk r.offset).IsValid text
  place : ∃ before behind, text.toList = before ++ behind ∧ r.PointsBetween before behind

theorem byteSize_eq (text : List Char) : byteSize text = (String.ofList text).utf8ByteSize := by
  induction text with
  | nil => rfl
  | cons c text ih =>
    rw [byteSize, ih, String.ofList_cons, String.utf8ByteSize_append, String.utf8ByteSize_singleton]

theorem afterAll_start (passed : List Char) :
    Position.start.afterAll passed =
      ⟨byteSize passed, 1 + passed.count '\n', 1 + (lastLine passed).length⟩ := by
  induction passed using List.reverseRecOn with
  | nil => rfl
  | append_singleton passed c ih =>
    rw [Position.afterAll_append, ih, byteSize_append, lastLine_append_singleton]
    show Position.after _ c = _
    unfold Position.after
    by_cases h : c = '\n'
    · subst h
      simp [byteSize, List.count_append]
      omega
    · simp [h, byteSize, List.count_append]
      omega

theorem lineAround_eq {text before : List Char} {mark : Cursor} (h : text = before ++ mark.rest) :
    Failure.lineAround text mark = trimmed (lastLine before ++ firstLine mark.rest) := by
  have ht : text.take (text.length - mark.rest.length) = before := by
    rw [h, List.length_append, Nat.add_sub_cancel, List.take_left]
  unfold Failure.lineAround
  rw [ht]
  rfl

theorem trimmed_append {c : Char} (h : c ≠ '\r') (a b : List Char) :
    trimmed (a ++ c :: b) = a ++ c :: trimmed b := by
  unfold trimmed
  rw [List.reverse_append, List.reverse_cons, List.append_assoc, List.dropWhile_append]
  by_cases hb : b.reverse.dropWhile (· = '\r') = []
  · simp [hb, h]
  · simp [hb]

theorem not_mem_firstLine (text : List Char) : '\n' ∉ firstLine text := by
  intro h
  simpa using List.mem_takeWhile_imp h

theorem not_mem_lastLine (text : List Char) : '\n' ∉ lastLine text := by
  intro h
  simpa using List.mem_takeWhile_imp (List.mem_reverse.1 h)

theorem mem_of_mem_trimmed {text : List Char} {c : Char} (h : c ∈ trimmed text) : c ∈ text := by
  have := (List.dropWhile_suffix _).subset (List.mem_reverse.1 h)
  exact List.mem_reverse.1 this

theorem firstLine_append {line : List Char} (h : '\n' ∉ line) (rest : List Char) :
    firstLine (line ++ '\n' :: rest) = line := by
  refine takeWhile_append_of_head (fun c hc => ?_) ?_
  · have : c ≠ '\n' := fun he => h (he ▸ hc)
    simpa using this
  · rintro _ ⟨⟩
    rfl

/-! ## Messages -/

theorem toList_found (what : String) (c : Char) :
    (s!"expected {what}, found '{c}'").toList =
      "expected ".toList ++ (what.toList ++ ", found '".toList) ++ [c, '\''] := by
  show ("expected " ++ what ++ ", found '" ++ c.toString ++ "'").toList = _
  simp only [String.toList_append, Char.toString_eq_singleton, String.toList_singleton,
    List.append_assoc]
  rfl

theorem head?_toList_append {start rest : String} {c : Char} (h : start.toList.head? = some c) :
    (start ++ rest).toList.head? = some c := by
  rw [String.toList_append, List.head?_append, h]
  rfl

/-- The letter that a message starts with. -/
def Cause.initial : Cause → Char
  | .unexpected _ _ | .unknownWord _ => 'e'
  | .unterminated _ => 'u'
  | .integerRange _ | .badString _ => 'i'
  | .numberRange _ => 'n'
  | .tooDeep _ => 's'

theorem Cause.head?_message (cause : Cause) :
    cause.message.toList.head? = some cause.initial := by
  cases cause with
  | unexpected expected found =>
    cases found with
    | none => exact head?_toList_append (head?_toList_append rfl)
    | some c => exact congrArg List.head? (toList_found expected.text c)
  | unknownWord word => exact head?_toList_append (head?_toList_append rfl)
  | unterminated quote =>
    show "unterminated string".toList.head? = some 'u'
    decide
  | integerRange n => exact head?_toList_append (head?_toList_append rfl)
  | numberRange n => exact head?_toList_append (head?_toList_append rfl)
  | badString reason => exact head?_toList_append rfl
  | tooDeep limit => exact head?_toList_append rfl

/-- The message of a refusal is told from all others by its first letter. -/
theorem Cause.exists_tooDeep_of_message {cause : Cause} {limit : Nat}
    (h : cause.message = (Cause.tooDeep limit).message) : ∃ limit, cause = .tooDeep limit := by
  have hinitial : cause.initial = 's' := by
    have hhead := cause.head?_message
    rw [h, head?_message] at hhead
    exact (Option.some.inj hhead).symm
  cases cause with
  | tooDeep limit => exact ⟨limit, rfl⟩
  | unexpected | unknownWord | unterminated | integerRange | numberRange | badString =>
    cases hinitial

/-- Only a message about a character, or about a word of that one character, has this form. -/
theorem Cause.message_eq {cause : Cause} {what : String} {c : Char}
    (h : cause.message = s!"expected {what}, found '{c}'")
    (hw : ∀ word, cause = .unknownWord word →
      word ≠ [] ∧ ∀ x ∈ word, Identifier.isPart x = true) :
    (∃ expected, cause = .unexpected expected (some c)) ∨ cause = .unknownWord [c] := by
  have ht := (congrArg String.toList h).trans (toList_found what c)
  have hinitial : cause.initial = 'e' := by
    have hhead := cause.head?_message.symm
    rw [ht] at hhead
    exact Option.some.inj hhead
  have hlast : cause.message.toList.getLast? = some '\'' := by rw [ht, List.getLast?_append]; rfl
  cases cause with
  | unexpected expected found =>
    cases found with
    | none =>
      have hl : ("expected " ++ expected.text ++ ", found end of input").toList.getLast? = _ := hlast
      rw [String.toList_append, List.getLast?_append] at hl
      exact absurd (show some 't' = some '\'' from hl) (by decide)
    | some d =>
      have hl := (toList_found expected.text d).symm.trans ht
      have := (List.append_inj' hl rfl).2
      obtain rfl : d = c := by simpa using this
      exact .inl ⟨expected, rfl⟩
  | unknownWord word =>
    obtain ⟨hne, hp⟩ := hw word rfl
    obtain ⟨w, x, rfl⟩ : ∃ w x, word = w ++ [x] :=
      ⟨_, _, (List.dropLast_concat_getLast hne).symm⟩
    have hl : ("expected " ++ ("literal, found '" ++ String.ofList (w ++ [x])) ++ "'").toList =
        "expected ".toList ++ (what.toList ++ ", found '".toList) ++ [c, '\''] := by
      rw [← ht, ← String.append_assoc]
      rfl
    simp only [String.toList_append, String.toList_ofList] at hl
    have hsplit : "expected ".toList ++ ("literal, found '".toList ++ w) ++ [x, '\''] =
        "expected ".toList ++ (what.toList ++ ", found '".toList) ++ [c, '\''] := by
      rw [← hl]
      simp only [List.append_assoc]
      rfl
    obtain ⟨hfront, hback⟩ := List.append_inj' hsplit rfl
    obtain rfl : x = c := by simpa using hback
    rcases List.eq_nil_or_concat w with rfl | ⟨v, y, rfl⟩
    · exact .inr rfl
    · -- the quote in front of the character would be part of the word
      have hq := congrArg List.getLast? (List.append_cancel_left hfront)
      rw [List.concat_eq_append, ← List.append_assoc, List.getLast?_append, List.getLast?_append,
        List.getLast?_append] at hq
      obtain rfl : y = '\'' := Option.some.inj (show some y = some '\'' from hq)
      exact absurd (hp '\'' (by simp)) (by decide)
  | unterminated | integerRange | numberRange | badString | tooDeep => cases hinitial

/-! ## Reports -/

theorem Failure.head?_of_message {f : Failure} (hf : f.IsTruthful) {what : String} {c : Char}
    (h : f.cause.message = s!"expected {what}, found '{c}'") : f.mark.rest.head? = some c := by
  unfold Failure.IsTruthful at hf
  have hw : ∀ word, f.cause = .unknownWord word →
      word ≠ [] ∧ ∀ x ∈ word, Identifier.isPart x = true := by
    intro word he
    rw [he] at hf
    exact ⟨hf.1, hf.2.1⟩
  rcases Cause.message_eq h hw with ⟨expected, he⟩ | he
  · rw [he] at hf
    exact hf.symm
  · rw [he] at hf
    obtain ⟨t, ht⟩ := hf.2.2
    rw [← ht]
    rfl

/-- A truthful failure at a place of the text is reported consistently. -/
theorem Failure.report_isConsistent {f : Failure} {text : String} (hf : f.IsTruthful)
    (hr : (Cursor.start text.toList).Reaches f.mark) : (f.report text.toList).IsConsistent text := by
  obtain ⟨before, ht, hp⟩ := hr
  have ht : text.toList = before ++ f.mark.rest := ht
  have hp : f.mark.position =
      ⟨byteSize before, 1 + before.count '\n', 1 + (lastLine before).length⟩ :=
    hp.trans (afterAll_start before)
  have hline : lineAround text.toList f.mark = _ := lineAround_eq ht
  have hcontext : context text.toList f.mark = trimmed (lastLine before ++ firstLine f.mark.rest) ++
      '\n' :: (List.replicate (lastLine before).length ' ' ++ ['^']) := by
    rw [context, hline, hp, Nat.add_sub_cancel_left]
  have hoffset : f.mark.position.offset = (String.ofList before).utf8ByteSize := by
    rw [hp, byteSize_eq]
  have hcolumn : f.mark.position.column - 1 = (lastLine before).length := by
    rw [hp, Nat.add_sub_cancel_left]
  refine ⟨?_, before, f.mark.rest, ht, ?_⟩
  · refine String.Pos.Raw.isValid_iff_exists_append.2
      ⟨String.ofList before, String.ofList f.mark.rest, ?_, ?_⟩
    · rw [← String.ofList_append, ← ht, String.ofList_toList]
    · rw [report, hoffset]
      rfl
  · refine ⟨hoffset, congrArg Position.line hp, congrArg Position.column hp, ?_, ?_⟩
    · show String.ofList (context _ _) = _
      rw [hcontext, ← hcolumn]
      rfl
    · intro what c hm hn hcr
      obtain ⟨t, ht⟩ := List.head?_eq_some_iff.1 (f.head?_of_message hf hm)
      show (firstLine (String.ofList (context _ _)).toList)[_]? = _
      have hl : '\n' ∉ trimmed (lastLine before ++ firstLine f.mark.rest) := by
        intro hmem
        rcases List.mem_append.1 (mem_of_mem_trimmed hmem) with h | h
        · exact not_mem_lastLine _ h
        · exact not_mem_firstLine _ h
      have hc : firstLine f.mark.rest = c :: firstLine t := by
        rw [ht, firstLine, List.takeWhile_cons_of_pos (by simpa using hn)]
        rfl
      rw [String.toList_ofList, hcontext, firstLine_append hl, hc, trimmed_append hcr]
      show (_ ++ c :: _)[f.mark.position.column - 1]? = some c
      rw [hcolumn, List.getElem?_append_right (Nat.le_refl _), Nat.sub_self]
      rfl

theorem Parse.report_isConsistent {α : Type} {p : Parse α} (hp : p.Truthful) {text : String}
    {c : Cursor} (hc : (Cursor.start text.toList).Reaches c) {f : Failure}
    (hf : (p.run c).result = .error f) : (f.report text.toList).IsConsistent text := by
  have h := p.forward c
  unfold Outcome.Forward at h
  rw [hf] at h
  exact Failure.report_isConsistent (hp c f hf) (hc.trans h.2.1)

namespace Session

/-- The session is at a place of the text. -/
def IsAt (s : Session) (text : String) : Prop :=
  s.text = text.toList ∧ (Cursor.start text.toList).Reaches s.cursor

theorem isAt_start (text : String) (limit : Nat) : (start text.toList limit).IsAt text :=
  ⟨rfl, .refl _⟩

theorem IsAt.advance {s : Session} {text : String} (h : s.IsAt text) : s.advance.IsAt text := by
  have hf := (Parse.document s.limit (s.limit - s.depth)).forward s.cursor
  unfold Outcome.Forward at hf
  unfold Session.advance outcome
  split at hf
  · rename_i d e ho
    rw [ho]
    exact ⟨h.1, h.2.trans hf.reaches⟩
  · rename_i f ho
    rw [ho]
    exact ⟨h.1, h.2.trans (hf.2.1.trans hf.2.2)⟩

theorem IsAt.result {s : Session} {text : String} (h : s.IsAt text) {r : Report}
    (hr : s.result = .error r) : r.IsConsistent text := by
  unfold Session.result outcome at hr
  split at hr
  · cases hr
  · rename_i f ho
    obtain rfl := Except.error.inj hr
    rw [h.1]
    exact Parse.report_isConsistent (Parse.truthful_document _ _) h.2 ho

theorem IsAt.results {s : Session} {text : String} (h : s.IsAt text) (count : Nat) :
    ∀ r : Report, .error r ∈ s.results count → r.IsConsistent text := by
  induction count generalizing s with
  | zero =>
    intro r hr
    cases hr
  | succ count ih =>
    intro r hr
    rcases List.mem_cons.1 hr with hr | hr
    · exact h.result hr.symm
    · exact ih h.advance r hr

end Session

/-- Whatever is read, by whatever rule and however often, a report that comes of it is one about a
place of the text. -/
theorem reports_areConsistent (text : String) :
    (∀ (options : LoadOptions) (r : Report),
      Document.loadWith options text = .error (.malformed r) → r.IsConsistent text) ∧
    (∀ (rule : Rule) (r : Report),
      recognize rule text = .error (.malformed r) → r.IsConsistent text) ∧
    ∀ (limit count : Nat) (r : Report),
      .error r ∈ (Session.start text.toList limit).results count → r.IsConsistent text := by
  refine ⟨fun options r hr => ?_, fun rule r hr => ?_, fun limit count r hr => ?_⟩
  · have hm : (Session.start text.toList options.maxDepth).result.mapError Error.malformed =
        .error (.malformed r) := hr
    cases ho : (Session.start text.toList options.maxDepth).result with
    | ok d =>
      rw [ho] at hm
      cases hm
    | error r' =>
      rw [ho] at hm
      obtain rfl := Error.malformed.inj (Except.error.inj hm)
      exact (Session.isAt_start text _).result ho
  · unfold recognize at hr
    split at hr
    · cases hr
    · rename_i f ho
      obtain rfl := Error.malformed.inj (Except.error.inj hr)
      exact Parse.report_isConsistent (Parse.truthful_whole _ rule) (.refl _) ho
  · exact (Session.isAt_start text limit).results count r hr

theorem reports_areConsistent_on_two_lines :
    (∃ r, Document.loadWith {} "\x7bé\r\n" = .error (.malformed r) ∧ r.IsConsistent "\x7bé\r\n") ∧
    (∃ r, recognize .filter "\n.é" = .error (.malformed r) ∧ r.IsConsistent "\n.é") ∧
    ∃ r, .error r ∈ (Session.start "\x7ba\r\n\x7bb é".toList 5).results 2 ∧
      r.IsConsistent "\x7ba\r\n\x7bb é" := by
  refine ⟨⟨_, rfl, ?_⟩, ⟨_, rfl, ?_⟩, ⟨_, .tail _ (.head _), ?_⟩⟩
  · exact (reports_areConsistent _).1 {} _ rfl
  · exact (reports_areConsistent _).2.1 .filter _ rfl
  · exact (reports_areConsistent _).2.2 5 2 _ (.tail _ (.head _))

end QueryMarkup
