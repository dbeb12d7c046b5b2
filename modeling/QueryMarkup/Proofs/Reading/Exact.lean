import QueryMarkup.Proofs.Printing.Literal
import QueryMarkup.Proofs.Printing.Lines
import QueryMarkup.Proofs.Reading.Lexeme

/-!
# Reading what is written

A reading passes a word if, wherever the word comes next, it takes up the word and nothing else.
What may stand behind the word is told along: a name and a literal could go on with some texts.
-/

namespace QueryMarkup

/-- A name that is read as it is, and a literal that is written. -/
def IsArgument (e : String × Literal) : Prop :=
  Identifier.isIdentifier e.1.toList = true ∧ e.2.IsWritable

namespace Line

/-- Pairs as an argument list, whether or not a name comes again. -/
def argumentList (pairs : List (String × Literal)) : Line :=
  ['('] ++ [',', ' '].intercalate (pairs.map argument) ++ [')']

/-- Pairs behind others. -/
def furtherArguments (pairs : List (String × Literal)) : Line :=
  pairs.flatMap fun e => [',', ' '] ++ argument e

theorem intercalate_argument (e : String × Literal) (rest : List (String × Literal)) :
    [',', ' '].intercalate ((e :: rest).map argument) = argument e ++ furtherArguments rest := by
  induction rest generalizing e with
  | nil =>
    rw [List.map_singleton, List.intercalate_singleton]
    exact (List.append_nil _).symm
  | cons next rest ih =>
    rw [List.map_cons, List.intercalate_cons_of_ne_nil (by simp), ih]
    simp only [furtherArguments, List.flatMap_cons, List.append_assoc]

/-- What stands behind an argument cannot go on with its literal. -/
theorem delimited_furtherArguments (pairs : List (String × Literal)) (behind : List Char) :
    Delimited (furtherArguments pairs ++ ')' :: behind) := by
  cases pairs with
  | nil =>
    rintro _ ⟨⟩
    decide
  | cons e rest =>
    rintro _ ⟨⟩
    decide

end Line

namespace Cursor

/-- Where a cursor comes from another one, the passed characters are counted. -/
theorem Reaches.eq_drop {c d : Cursor} {word : List Char} (h : c.Reaches d)
    (hc : c.rest = word ++ d.rest) : d = c.drop word.length := by
  obtain ⟨passed, hpassed, hposition⟩ := h
  obtain rfl : passed = word := List.append_cancel_right (hpassed.symm.trans hc)
  rw [drop_length hc, ← hposition]

theorem bare_of_blanks {c : Cursor} {blanks rest : List Char}
    (hblanks : ∀ x ∈ blanks, Parse.isBlank x = true) (hc : c.rest = blanks ++ rest)
    (hrest : ∀ x ∈ rest.head?, Parse.isBlank x = false) : c.bare = c.drop blanks.length := by
  rw [bare, hc, takeWhile_append_of_head hblanks hrest]

/-- Behind blanks the word comes next, whose first character is no blank. -/
theorem bare_of_startsWord {c : Cursor} {blanks word rest behind : List Char} {x : Char}
    (hblanks : ∀ y ∈ blanks, Parse.isBlank y = true) (hc : c.rest = blanks ++ (word ++ behind))
    (hword : word = x :: rest) (hx : startsWord x = true) :
    c.bare = c.drop blanks.length ∧ c.bare.rest = word ++ behind := by
  have hbare : c.bare = c.drop blanks.length := by
    refine bare_of_blanks hblanks hc fun y hy => ?_
    rw [hword] at hy
    obtain rfl := Option.some.inj hy
    exact isBlank_of_startsWord hx
  exact ⟨hbare, hbare ▸ rest_drop_length hc⟩

theorem bare_of_head? {c : Cursor} (h : ∀ x ∈ c.rest.head?, Parse.isBlank x = false) :
    c.bare = c := by
  have hbare : c.bare = c.drop [].length := bare_of_blanks (List.forall_mem_nil _) rfl h
  rwa [List.length_nil, drop_zero] at hbare

theorem bare_of_cons {c : Cursor} {x : Char} {text : List Char} (hc : c.rest = x :: text)
    (hx : Parse.isBlank x = false) : c.bare = c :=
  bare_of_head? fun y hy => by
    rw [hc] at hy
    obtain rfl := Option.some.inj hy
    exact hx

end Cursor

namespace Parse

variable {α β : Type}

/-- Where the word comes next, with `behind` behind it, exactly the word is read, as `a`. -/
def Passes (p : Parse α) (word : List Char) (a : α) (behind : List Char) : Prop :=
  ∀ c : Cursor, c.rest = word ++ behind → (p.run c).result = .ok (a, c.drop word.length)

namespace Passes

variable {p : Parse α} {a : α} {s t behind : List Char}

theorem pure (a : α) (behind : List Char) : Passes (pure a) [] a behind := fun c _ => by
  rw [List.length_nil, Cursor.drop_zero]
  rfl

theorem bind {next : α → Parse β} {b : β} (hp : Passes p s a (t ++ behind))
    (hn : Passes (next a) t b behind) : Passes (p >>= next) (s ++ t) b behind := by
  intro c hc
  rw [List.append_assoc] at hc
  rw [result_bind_of_ok _ (hp c hc), hn _ (Cursor.rest_drop_length hc), Cursor.drop_drop,
    List.length_append]

theorem map (f : α → β) (hp : Passes p s a behind) :
    Passes (do return f (← p)) s (f a) behind := by
  have h : Passes (p >>= fun a => Pure.pure (f a)) (s ++ []) (f a) behind :=
    Passes.bind hp (.pure (f a) behind)
  rwa [List.append_nil] at h

theorem traced (rule : Rule) (hp : Passes p s a behind) :
    Passes (Parse.traced rule p) s a behind := fun c hc => by
  rw [result_traced, hp c hc]

end Passes

/-! ## Signs, names, literals and pairs -/

section
variable {sign : Char} {blanks behind : List Char}

theorem passes_eat (hsign : isBlank sign = false) : Passes (eat sign) [sign] true behind := by
  intro c hc
  have hbare : c.bare = c := Cursor.bare_of_cons hc hsign
  rw [result_eat, hbare, if_pos (by rw [hc]; rfl)]
  rfl

theorem passes_eat_not (hbehind : ∀ x ∈ behind.head?, isBlank x = false ∧ x ≠ sign) :
    Passes (eat sign) [] false behind := by
  intro c hc
  have hrest : c.rest = behind := hc
  have hbare : c.bare = c := Cursor.bare_of_head? fun x hx => (hbehind x (hrest ▸ hx)).1
  rw [result_eat, hbare, if_neg, List.length_nil, Cursor.drop_zero]
  rw [hc]
  exact fun h => (hbehind sign h).2 rfl

theorem passes_expect (hsign : isBlank sign = false) (what : Expected) :
    Passes (expect sign what) [sign] () behind := by
  intro c hc
  rw [expect, result_bind_of_ok _ (passes_eat hsign c hc), if_pos rfl]
  rfl

theorem passes_identifier {name : String} (hblanks : ∀ x ∈ blanks, isBlank x = true)
    (hname : Identifier.isIdentifier name.toList = true)
    (hbehind : ∀ x ∈ behind.head?, Identifier.isPart x = false) :
    Passes identifier (blanks ++ name.toList) name behind := by
  intro c hc
  rw [List.append_assoc] at hc
  obtain ⟨x, rest, hx, hstart, -⟩ := Identifier.exists_cons hname
  obtain ⟨hbare, hrest⟩ :=
    Cursor.bare_of_startsWord hblanks hc hx (by simp [startsWord, hstart])
  have hword : c.bare.rest.takeWhile Identifier.isPart = name.toList := by
    rw [hrest, takeWhile_append_of_head (Identifier.isPart_of_mem hname) hbehind]
  rw [result_identifier, hword, if_pos (by rw [hrest, hx]; exact hstart), String.ofList_toList,
    hbare, Cursor.drop_drop, List.length_append]

theorem passes_literal {l : Literal} {text : List Char} (hblanks : ∀ x ∈ blanks, isBlank x = true)
    (hl : l.IsWritable) (htext : l.text = .ok text) (hbehind : Delimited behind) :
    Passes literal (blanks ++ text) l behind := by
  intro c hc
  obtain ⟨text', x, htext', hspelled, hdenotes⟩ := Literal.text_of_isWritable hl
  obtain rfl : text = text' := Except.ok.inj (htext.symm.trans htext')
  have hc' := hc
  rw [List.append_assoc] at hc
  obtain ⟨y, rest, hy, hstart⟩ := hspelled.starts
  obtain ⟨-, hrest⟩ := Cursor.bare_of_startsWord hblanks hc hy hstart
  obtain ⟨d, hd, hdrest⟩ := lexeme_complete hspelled hrest hbehind
  have hliteral : (literal.run c).result = .ok (l, d) := by
    rw [literal, result_bind_of_ok _ (result_blanks c), result_check, hd]
    simp only [Lexeme.meaning_eq_ok_iff.2 hdenotes]
  rw [hliteral, (reaches_of_ok hliteral).eq_drop (hdrest.symm ▸ hc')]

end

theorem isBlank_space : ∀ x ∈ [' '], isBlank x = true := List.forall_mem_singleton.2 rfl

theorem passes_pair {e : String × Literal} {blanks behind : List Char}
    (hblanks : ∀ x ∈ blanks, isBlank x = true)
    (hname : Identifier.isIdentifier e.1.toList = true) (hl : e.2.IsWritable)
    (hbehind : Delimited behind) : Passes pair (blanks ++ Line.argument e) e behind := by
  obtain ⟨text, -, htext, -⟩ := Literal.text_of_isWritable hl
  have hline : blanks ++ Line.argument e =
      (blanks ++ e.1.toList) ++ ([':'] ++ ([' '] ++ text)) := by
    simp [Line.argument, Literal.display, htext]
  rw [hline]
  refine (passes_identifier hblanks hname fun x hx => ?_).bind
    ((passes_expect (by decide) _).bind ((passes_literal isBlank_space hl htext hbehind).map _))
  obtain rfl := Option.some.inj hx
  decide

theorem passes_furtherArguments {pairs : List (String × Literal)} (h : ∀ e ∈ pairs, IsArgument e)
    (behind : List Char) :
    Passes (afterEach ',' pair) (Line.furtherArguments pairs) pairs (')' :: behind) := by
  induction pairs with
  | nil =>
    have hstop : Passes (eat ',') [] false ([] ++ ')' :: behind) :=
      passes_eat_not fun x hx => by
        obtain rfl := Option.some.inj hx
        decide
    rw [afterEach_eq]
    exact hstop.bind (.pure [] _)
  | cons e rest ih =>
    obtain ⟨⟨hname, hl⟩, hrest⟩ := List.forall_mem_cons.1 h
    have hpair : Passes pair ([' '] ++ Line.argument e) e
        (Line.furtherArguments rest ++ ')' :: behind) :=
      passes_pair isBlank_space hname hl (Line.delimited_furtherArguments rest behind)
    have hitem : Passes (do let a ← pair; let others ← afterEach ',' pair; return a :: others)
        (([' '] ++ Line.argument e) ++ Line.furtherArguments rest) (e :: rest) (')' :: behind) :=
      hpair.bind ((ih hrest).map (e :: ·))
    have hsign : Passes (eat ',') [','] true
        ((([' '] ++ Line.argument e) ++ Line.furtherArguments rest) ++ ')' :: behind) :=
      passes_eat (by decide)
    rw [afterEach_eq]
    exact hsign.bind hitem

theorem startsPair_argument {e : String × Literal}
    (hname : Identifier.isIdentifier e.1.toList = true) (behind : List Char) :
    startsPair (Line.argument e ++ behind) = true := by
  obtain ⟨x, rest, hx, hstart, -⟩ := Identifier.exists_cons hname
  have hblank : isBlank x = false := isBlank_of_startsWord (by simp [startsWord, hstart])
  have htext : Line.argument e ++ behind =
      e.1.toList ++ ':' :: (' ' :: (e.2.display.toList ++ behind)) := by
    simp [Line.argument]
  have hhead : (e.1.toList ++ ':' :: (' ' :: (e.2.display.toList ++ behind))).head? = some x := by
    rw [hx]
    rfl
  have hbare : (e.1.toList ++ ':' :: (' ' :: (e.2.display.toList ++ behind))).dropWhile isBlank =
      e.1.toList ++ ':' :: (' ' :: (e.2.display.toList ++ behind)) := by
    rw [hx, List.cons_append, List.dropWhile_cons_of_neg (by simp [hblank])]
  have hcolon := dropWhile_append_of_head (t := ':' :: (' ' :: (e.2.display.toList ++ behind)))
    (Identifier.isPart_of_mem hname) (by simp; decide)
  rw [htext, startsPair]
  simp only [hbare, hhead, hcolon, Option.any_some, hstart, Bool.true_and]
  rfl

theorem passes_someArguments {e : String × Literal} {rest : List (String × Literal)}
    (h : ∀ p ∈ e :: rest, IsArgument p) (behind : List Char) :
    Passes someArguments (Line.argument e ++ Line.furtherArguments rest)
      (.named (.ofList (e :: rest))) (')' :: behind) := by
  obtain ⟨⟨hname, hl⟩, hrest⟩ := List.forall_mem_cons.1 h
  have hpair : Passes pair ([] ++ Line.argument e) e
      (Line.furtherArguments rest ++ ')' :: behind) :=
    passes_pair (List.forall_mem_nil _) hname hl (Line.delimited_furtherArguments rest behind)
  have hpairs : Passes (commaSeparated pair) (Line.argument e ++ Line.furtherArguments rest)
      (e :: rest) (')' :: behind) :=
    hpair.bind ((passes_furtherArguments hrest behind).map (e :: ·))
  intro c hc
  have hstarts : startsPair c.rest = true := by
    rw [hc, List.append_assoc]
    exact startsPair_argument hname _
  rw [result_someArguments, if_pos hstarts]
  exact hpairs.map (fun pairs => Arguments.named (.ofList pairs)) c hc

/-- An argument list as it is written is read as the map that its pairs amount to. -/
theorem passes_argumentList {pairs : List (String × Literal)} (hne : pairs ≠ [])
    (h : ∀ e ∈ pairs, IsArgument e) (behind : List Char) :
    Passes (do expect '(' .openParenthesis; arguments) (Line.argumentList pairs)
      (.named (.ofList pairs)) behind := by
  obtain ⟨e, rest, rfl⟩ := List.exists_cons_of_ne_nil hne
  have hline : Line.argumentList (e :: rest) =
      ['('] ++ ([] ++ ((Line.argument e ++ Line.furtherArguments rest) ++ ([')'] ++ []))) := by
    rw [Line.argumentList, Line.intercalate_argument, List.append_nil, List.nil_append,
      List.append_assoc]
  rw [hline]
  refine (passes_expect (by decide) _).bind (.traced _ ?_)
  obtain ⟨x, name, hx, hstart, -⟩ := Identifier.exists_cons (h e List.mem_cons_self).1
  refine Passes.bind (passes_eat_not fun y hy => ?_)
    ((passes_someArguments h behind).bind ((passes_expect (by decide) _).bind (.pure _ _)))
  rw [Line.argument, hx] at hy
  obtain rfl := Option.some.inj hy
  refine ⟨isBlank_of_startsWord (by simp [startsWord, hstart]), ?_⟩
  rintro rfl
  exact absurd hstart (by decide)

end Parse

end QueryMarkup
