import QueryMarkup.Proofs.Printing.Compact
import QueryMarkup.Proofs.Reading.Exact
import QueryMarkup.Proofs.Reading.Strings

/-!
# Literals that delimit themselves

A written literal is read back as it was, and reading stops right behind it. A string ends at its
closing quote, whatever stands there; any other literal needs a blank, a comma, a parenthesis or
the end of the text behind it. What is written lies on one line, so the column moves on by its
characters.
-/

namespace QueryMarkup

/-- Without line breaks the line stays and every character is a column. -/
theorem Position.afterAll_of_oneLine {text : List Char}
    (h : ∀ c ∈ text, Quoted.isLineBreak c = false) (p : Position) :
    p.afterAll text = ⟨p.offset + byteSize text, p.line, p.column + text.length⟩ := by
  induction text generalizing p with
  | nil => rfl
  | cons c text ih =>
    obtain ⟨hc, htext⟩ := List.forall_mem_cons.1 h
    have hne : c ≠ '\n' := by
      rintro rfl
      cases hc
    have hoffset : p.offset + c.utf8Size + byteSize text = p.offset + byteSize (c :: text) :=
      Nat.add_assoc ..
    have hcolumn : p.column + 1 + text.length = p.column + (c :: text).length := by
      rw [List.length_cons]
      omega
    show (p.after c).afterAll text = _
    rw [ih htext, after, if_neg hne, ← hoffset, ← hcolumn]

namespace Parse

/-- A written string is read up to its closing quote, whatever stands behind. -/
theorem passes_string (s : String) (behind : List Char) :
    Passes literal (Escaped.quote s.toList) (.string s) behind := by
  intro c hc
  have hrest : c.rest = '"' :: (Escaped.encode s.toList ++ '"' :: behind) := by
    simpa [Escaped.quote] using hc
  have hbare : c.bare = c := Cursor.bare_of_cons hrest rfl
  have hdecode : Quoted.decode (Escaped.encode s.toList) = .ok s.toList :=
    Quoted.decode_eq_ok_iff.2 (Escaped.denotes_encode s.toList)
  have hlength : (Escaped.quote s.toList).length = (Escaped.encode s.toList).length + 2 := by
    simp [Escaped.quote]
  rw [result_literal_quoted (.inl rfl) (Escaped.isBody_encode s.toList) (hbare.symm ▸ hrest),
    hdecode, hbare, hlength]
  dsimp only
  rw [String.ofList_toList]

theorem passes_text {l : Literal} {text behind : List Char} (htext : l.text = .ok text)
    (hbehind : (∃ s, l = .string s) ∨ Delimited behind) : Passes literal text l behind := by
  rcases hbehind with ⟨s, rfl⟩ | hbehind
  · obtain rfl := Except.ok.inj htext
    exact passes_string s behind
  · exact passes_literal (List.forall_mem_nil _) (Literal.isWritable_of_text htext) htext hbehind

end Parse

/-- A literal that can be written has a text that is read back as the same literal wherever it
comes next, and the cursor behind it is at the very start of what follows, on the same line. Behind
a string anything may follow. -/
theorem Literal.text_delimits_itself (l : Literal) (hl : l.IsWritable) :
    ∃ text, l.text = .ok text ∧ ∀ (c : Cursor) (behind : List Char), c.rest = text ++ behind →
      ((∃ s, l = .string s) ∨
        ∀ x ∈ behind.head?, Parse.isBlank x = true ∨ x = ',' ∨ x = ')') →
      (Parse.literal.run c).result = .ok (l,
        ⟨⟨c.position.offset + byteSize text, c.position.line, c.position.column + text.length⟩,
          behind⟩) := by
  obtain ⟨text, -, htext, -⟩ := text_of_isWritable hl
  refine ⟨text, htext, fun c behind hc hbehind => ?_⟩
  rw [Parse.passes_text htext (hbehind.imp_right delimited_of_head) c hc, Cursor.drop_length hc,
    Position.afterAll_of_oneLine (isLineBreak_of_mem_text htext)]

/-- The least integer in front of a parenthesis, and a string that ends with a backslash in front of
a quote. -/
theorem Literal.text_delimits_itself_in_place :
    (Literal.int Int64.minValue).IsWritable ∧ (Literal.string "é\\").IsWritable ∧
    (Parse.literal.run ⟨⟨4, 1, 5⟩, "-9223372036854775808)".toList⟩).result =
      .ok (.int Int64.minValue, ⟨⟨24, 1, 25⟩, [')']⟩) ∧
    (Parse.literal.run ⟨⟨9, 2, 3⟩, "\"é\\\\\"\"".toList⟩).result =
      .ok (.string "é\\", ⟨⟨15, 2, 8⟩, ['"']⟩) := by
  have hint : (Literal.int Int64.minValue).IsWritable := fun x h => by cases h
  have hstring : (Literal.string "é\\").IsWritable := fun x h => by cases h
  refine ⟨hint, hstring, ?_, ?_⟩
  · have hleast : (Literal.int Int64.minValue).text = .ok "-9223372036854775808".toList := by
      decide +kernel
    obtain ⟨text, htext, hread⟩ := text_delimits_itself _ hint
    obtain rfl := Except.ok.inj (hleast.symm.trans htext)
    exact hread ⟨⟨4, 1, 5⟩, _⟩ [')'] rfl (.inr (by simp))
  · have hescaped : (Literal.string "é\\").text = .ok "\"é\\\\\"".toList := by decide +kernel
    obtain ⟨text, htext, hread⟩ := text_delimits_itself _ hstring
    obtain rfl := Except.ok.inj (hescaped.symm.trans htext)
    exact hread ⟨⟨9, 2, 3⟩, _⟩ ['"'] rfl (.inl ⟨_, rfl⟩)

end QueryMarkup
