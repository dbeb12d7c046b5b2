import QueryMarkup.Text.Escaped

/-!
# Quoted strings of the markup

A string stands between two quotes of one kind, on one line. Behind a backslash anything but a line
break is part of it, and so is a quote of the other kind. Its meaning is that of escaped text, once
quotes are spelled as in a double-quoted string.
-/

namespace QueryMarkup.Quoted

def isLineBreak (c : Char) : Bool := c = '\n' || c = '\r'

/-- The body in front of the closing quote, unless the line or the text ends before it, and the
number of characters looked at. -/
def body (quote : Char) : List Char → Option (List Char) × Nat
  | [] => (none, 0)
  | c :: rest =>
    if c = quote then (some [], 1)
    else if isLineBreak c then (none, 1)
    else if c = '\\' then
      match rest with
      | [] => (none, 1)
      | d :: rest =>
        if isLineBreak d then (none, 2)
        else
          let (text, count) := body quote rest
          (text.map fun text => c :: d :: text, count + 2)
    else
      let (text, count) := body quote rest
      (text.map fun text => c :: text, count + 1)

section
variable {quote c : Char} {rest : List Char}

theorem body_quote : body quote (quote :: rest) = (some [], 1) := by
  rw [body.eq_def]
  exact if_pos rfl

theorem body_lineBreak (hquote : c ≠ quote) (hbreak : isLineBreak c = true) :
    body quote (c :: rest) = (none, 1) := by
  rw [body.eq_def]
  simp only [hquote, hbreak, if_true, if_false]

theorem body_plain (hquote : c ≠ quote) (hbreak : isLineBreak c = false) (hescape : c ≠ '\\') :
    body quote (c :: rest) =
      ((body quote rest).1.map fun text => c :: text, (body quote rest).2 + 1) := by
  rw [body.eq_def]
  simp only [hquote, hbreak, hescape, Bool.false_eq_true, if_false]

theorem body_backslash (hquote : '\\' ≠ quote) : body quote ['\\'] = (none, 1) := by
  rw [body.eq_def]
  simp only [hquote, if_false, if_true]
  rfl

theorem body_escapedLineBreak (hquote : '\\' ≠ quote) (hbreak : isLineBreak c = true) :
    body quote ('\\' :: c :: rest) = (none, 2) := by
  have hplain : isLineBreak '\\' = false := by decide
  rw [body.eq_def]
  simp only [hquote, hplain, hbreak, Bool.false_eq_true, if_false, if_true]

theorem body_escape (hquote : '\\' ≠ quote) (hbreak : isLineBreak c = false) :
    body quote ('\\' :: c :: rest) =
      ((body quote rest).1.map fun text => '\\' :: c :: text, (body quote rest).2 + 2) := by
  have hplain : isLineBreak '\\' = false := by decide
  rw [body.eq_def]
  simp only [hquote, hplain, hbreak, Bool.false_eq_true, if_false, if_true]

end

/-- The same body between double quotes, where a double quote is escaped and a single one is not. -/
def doubleQuoted : List Char → List Char
  | [] => []
  | '\\' :: '\'' :: rest => '\'' :: doubleQuoted rest
  | '\\' :: c :: rest => '\\' :: c :: doubleQuoted rest
  | '"' :: rest => '\\' :: '"' :: doubleQuoted rest
  | c :: rest => c :: doubleQuoted rest

/-- What is wrong with a body, in words. -/
def reason (body : List Char) (fault : Escaped.Fault) : String :=
  s!"{fault.problem.message} at line 1 column {fault.column body}"

/-- The text that a body stands for, or why it stands for none. -/
def decode (body : List Char) : Except String (List Char) :=
  (Escaped.decode (doubleQuoted body)).mapError (reason (doubleQuoted body))

end QueryMarkup.Quoted
