import QueryMarkup.Proofs.Markup.Size
import QueryMarkup.Proofs.Printing.Compact

/-!
# The lines of an indented layout

An indented text is a list of lines. A field is one line; a selection is a line with its header, the
lines of its properties one level deeper, and a line with a brace. Every sibling but the last has a
comma at the end of its last line. `Document.lines` says so without a word on how lines are written.
The text of every document that is printed at all splits into them at its line breaks: no argument,
whatever the string, has a line break in its text.
-/

namespace QueryMarkup

abbrev Line := List Char

namespace Line

def argument (e : String × Literal) : Line := e.1.toList ++ [':', ' '] ++ e.2.display.toList

/-- An argument list with its parentheses. -/
def arguments : Value → Line
  | .literal l => ['('] ++ l.display.toList ++ [')']
  | .mapping m => ['('] ++ [',', ' '].intercalate (m.entries.map argument) ++ [')']

def filter (f : Filter) : Line := ['.'] ++ f.name.toList ++ arguments f.value

def header (h : Header) : Line :=
  h.name.toList ++ h.params.toList.flatMap arguments ++ h.filters.flatMap filter

/-- A line that starts `depth` levels deep. -/
def indented (indent depth : Nat) (text : Line) : Line :=
  List.replicate (indent * depth) ' ' ++ text

end Line

/-- Puts a comma at the end of the last line. -/
def withComma : List Line → List Line
  | [] => []
  | [line] => [line ++ [',']]
  | line :: next :: rest => line :: withComma (next :: rest)

/-- The lines of siblings, with a comma behind each but the last. -/
def siblings : List (List Line) → List Line
  | [] => []
  | [lines] => lines
  | lines :: next :: rest => withComma lines ++ siblings (next :: rest)

mutual

def Property.lines (indent depth : Nat) : Property → List Line
  | .field name => [.indented indent depth name.toList]
  | .selection h properties =>
    .indented indent depth (.header h ++ [' ', '\x7b']) ::
      (siblings (Property.eachLines indent (depth + 1) properties)
        ++ [.indented indent depth ['\x7d']])

/-- The lines of each of some properties. -/
def Property.eachLines (indent depth : Nat) : List Property → List (List Line)
  | [] => []
  | p :: rest => p.lines indent depth :: Property.eachLines indent depth rest

end

theorem Property.eachLines_ne_nil {indent depth : Nat} {properties : List Property}
    (h : properties ≠ []) : Property.eachLines indent depth properties ≠ [] := by
  cases properties with
  | nil => exact absurd rfl h
  | cons p rest => exact List.cons_ne_nil _ _

def Document.lines (indent : Nat) (d : Document) : List Line :=
  ['\x7b'] :: (siblings (Property.eachLines indent 1 (d.selections.map .ofSelection)) ++ [['\x7d']])

def joined (lines : List Line) : List Char := ['\n'].intercalate lines

theorem joined_singleton (line : Line) : joined [line] = line := List.intercalate_singleton

theorem joined_cons (line : Line) {rest : List Line} (h : rest ≠ []) :
    joined (line :: rest) = line ++ ['\n'] ++ joined rest :=
  List.intercalate_cons_of_ne_nil h

theorem joined_append {lines more : List Line} (h : lines ≠ []) (hmore : more ≠ []) :
    joined (lines ++ more) = joined lines ++ ['\n'] ++ joined more := by
  induction lines with
  | nil => exact absurd rfl h
  | cons line rest ih =>
    cases rest with
    | nil => rw [List.singleton_append, joined_cons line hmore, joined_singleton]
    | cons next rest =>
      have hrest : next :: rest ≠ [] := List.cons_ne_nil _ _
      rw [List.cons_append, joined_cons line (List.append_ne_nil_of_left_ne_nil hrest more),
        joined_cons line hrest, ih hrest]
      simp only [List.append_assoc]

theorem withComma_ne_nil {lines : List Line} (h : lines ≠ []) : withComma lines ≠ [] := by
  match lines with
  | [] => exact absurd rfl h
  | [line] => exact List.cons_ne_nil _ _
  | line :: next :: rest => exact List.cons_ne_nil _ _

theorem joined_withComma {lines : List Line} (h : lines ≠ []) :
    joined (withComma lines) = joined lines ++ [','] := by
  induction lines with
  | nil => exact absurd rfl h
  | cons line rest ih =>
    cases rest with
    | nil => rw [withComma, joined_singleton, joined_singleton]
    | cons next rest =>
      have hrest : next :: rest ≠ [] := List.cons_ne_nil _ _
      rw [withComma, joined_cons line (withComma_ne_nil hrest), joined_cons line hrest, ih hrest]
      simp only [List.append_assoc]

theorem unbroken_withComma {lines : List Line}
    (h : ∀ line ∈ lines, ∀ c ∈ line, Quoted.isLineBreak c = false) :
    ∀ line ∈ withComma lines, ∀ c ∈ line, Quoted.isLineBreak c = false := by
  induction lines with
  | nil => exact h
  | cons line rest ih =>
    obtain ⟨hfirst, hrest⟩ := List.forall_mem_cons.1 h
    cases rest with
    | nil =>
      have hcomma : ∀ c ∈ [','], Quoted.isLineBreak c = false := List.forall_mem_singleton.2 rfl
      exact List.forall_mem_singleton.2 (List.forall_mem_append.2 ⟨hfirst, hcomma⟩)
    | cons next rest => exact List.forall_mem_cons.2 ⟨hfirst, ih hrest⟩

/-! ## Pieces of lines -/

namespace Piece

/-- The pieces are written, and the text is a line. -/
structure WritesLine (pieces : List Piece) (line : Line) : Prop where
  write_eq : write pieces = (line, none)
  unbroken : ∀ c ∈ line, Quoted.isLineBreak c = false

namespace WritesLine

theorem nil : WritesLine [] [] := ⟨rfl, fun c hc => by cases hc⟩

theorem append {pieces pieces' : List Piece} {line line' : Line} (h : WritesLine pieces line)
    (h' : WritesLine pieces' line') : WritesLine (pieces ++ pieces') (line ++ line') :=
  ⟨by rw [write_append h.write_eq, h'.write_eq],
    List.forall_mem_append.2 ⟨h.unbroken, h'.unbroken⟩⟩

theorem single {p : Piece} {text : Line} (h : p.text = .ok text)
    (hline : ∀ c ∈ text, Quoted.isLineBreak c = false) : WritesLine [p] text := by
  refine ⟨?_, hline⟩
  rw [write_cons_of_ok h, write, List.append_nil]

theorem sign {c : Char} (h : c ∈ Token.signs) : WritesLine [.sign [c]] [c] :=
  have htidy : (Piece.sign [c]).IsTidy := Layout.isTidy_sign h
  single rfl (isLineBreak_of_mem_ink htidy rfl rfl)

theorem name {n : String} (h : Identifier.isIdentifier n.toList = true) :
    WritesLine [.name n] n.toList :=
  single rfl (isLineBreak_of_mem_ink (Layout.isTidy_name h) rfl rfl)

theorem literal {l : Literal} (h : l.IsWritable) : WritesLine [.literal l] l.display.toList := by
  obtain ⟨text, -, htext, -⟩ := Literal.text_of_isWritable h
  have hdisplay : l.display.toList = text := by
    rw [Literal.display, htext, String.toList_ofList]
  rw [hdisplay]
  exact single htext (Literal.isLineBreak_of_mem_text htext)

theorem flatMap {α : Type} {pieces : α → List Piece} {line : α → Line} {as : List α}
    (h : ∀ a ∈ as, WritesLine (pieces a) (line a)) :
    WritesLine (as.flatMap pieces) (as.flatMap line) := by
  induction as with
  | nil => exact nil
  | cons a as ih =>
    obtain ⟨ha, has⟩ := List.forall_mem_cons.1 h
    rw [List.flatMap_cons, List.flatMap_cons]
    exact ha.append (ih has)

theorem intercalate {α : Type} {separator : List Piece} {between : Line}
    (hs : WritesLine separator between) {pieces : α → List Piece} {line : α → Line} {as : List α}
    (h : ∀ a ∈ as, WritesLine (pieces a) (line a)) :
    WritesLine (separator.intercalate (as.map pieces)) (between.intercalate (as.map line)) := by
  induction as with
  | nil => exact nil
  | cons a as ih =>
    obtain ⟨ha, has⟩ := List.forall_mem_cons.1 h
    cases as with
    | nil =>
      rw [List.map_singleton, List.map_singleton, List.intercalate_singleton,
        List.intercalate_singleton]
      exact ha
    | cons b as =>
      simp only [List.map_cons, List.intercalate_cons_cons] at ih ⊢
      exact (ha.append hs).append (ih has)

end WritesLine

/-- The pieces are written, and the text is some lines. -/
structure WritesLines (pieces : List Piece) (lines : List Line) : Prop where
  write_eq : write pieces = (joined lines, none)
  ne_nil : lines ≠ []
  unbroken : ∀ line ∈ lines, ∀ c ∈ line, Quoted.isLineBreak c = false

namespace WritesLines

theorem single {pieces : List Piece} {line : Line} (h : WritesLine pieces line) :
    WritesLines pieces [line] :=
  ⟨by rw [joined_singleton, h.write_eq], List.cons_ne_nil _ _,
    List.forall_mem_singleton.2 h.unbroken⟩

theorem append {indent : Nat} (hi : 0 < indent) {pieces pieces' : List Piece}
    {lines lines' : List Line} (h : WritesLines pieces lines) (h' : WritesLines pieces' lines') :
    WritesLines (pieces ++ Layout.newline indent ++ pieces') (lines ++ lines') := by
  have hbreak : Layout.newline indent = [.blank ['\n']] := if_neg (Nat.ne_of_gt hi)
  refine ⟨?_, List.append_ne_nil_of_left_ne_nil h.ne_nil _,
    List.forall_mem_append.2 ⟨h.unbroken, h'.unbroken⟩⟩
  rw [hbreak, List.append_assoc, write_append h.write_eq, List.singleton_append,
    write_cons_of_ok rfl, h'.write_eq, joined_append h.ne_nil h'.ne_nil, List.append_assoc]

theorem withComma {pieces : List Piece} {lines : List Line} (h : WritesLines pieces lines) :
    WritesLines (pieces ++ [.sign [',']]) (withComma lines) := by
  refine ⟨?_, withComma_ne_nil h.ne_nil, unbroken_withComma h.unbroken⟩
  rw [write_append h.write_eq, joined_withComma h.ne_nil]
  rfl

theorem siblings {indent : Nat} (hi : 0 < indent) {parts : List (List Piece)}
    {each : List (List Line)} (h : List.Forall₂ WritesLines parts each) (hne : each ≠ []) :
    WritesLines ((Layout.separator indent).intercalate parts) (siblings each) := by
  induction h with
  | nil => exact absurd rfl hne
  | @cons pieces lines parts each hfirst hrest ih =>
    cases hrest with
    | nil =>
      rw [List.intercalate_singleton]
      exact hfirst
    | cons hnext hrest =>
      -- The separator's comma goes to the last line of the first, its line break ends that line.
      have hall := hfirst.withComma.append hi (ih (List.cons_ne_nil _ _))
      rw [List.append_assoc pieces] at hall
      rw [List.intercalate_cons_cons]
      exact hall

end WritesLines

end Piece

namespace Layout

open Piece

variable {indent : Nat}

theorem writesLine_space (hi : 0 < indent) : WritesLine (space indent) [' '] := by
  rw [space, blank, if_neg (Nat.ne_of_gt hi)]
  exact .single rfl (List.forall_mem_singleton.2 rfl)

theorem writesLine_margin (hi : 0 < indent) (depth : Nat) :
    WritesLine (margin indent depth) (.indented indent depth []) := by
  rw [margin, blank, if_neg (Nat.ne_of_gt hi), Nat.mul_comm, Line.indented, List.append_nil]
  refine .single rfl fun c hc => ?_
  rw [List.eq_of_mem_replicate hc]
  rfl

theorem writesLine_argument (hi : 0 < indent) {e : String × Literal}
    (hn : Identifier.isIdentifier e.1.toList = true) (hl : e.2.IsWritable) :
    WritesLine (argument indent e) (Line.argument e) := by
  have hname := (WritesLine.name hn).append (.sign (c := ':') (by decide))
  have hall := (hname.append (writesLine_space hi)).append (.literal hl)
  rw [List.append_assoc e.1.toList] at hall
  exact hall

theorem writesLine_arguments (hi : 0 < indent) {v : Value} (hn : AreIdentifiers v.names)
    (hl : ∀ l ∈ v.literals, l.IsWritable) :
    WritesLine (arguments indent v) (Line.arguments v) := by
  have hopen : WritesLine [.sign ['(']] ['('] := .sign (by decide)
  have hclose : WritesLine [.sign [')']] [')'] := .sign (by decide)
  cases v with
  | literal l => exact (hopen.append (.literal (hl l (List.mem_singleton_self _)))).append hclose
  | mapping m =>
    have hcomma : WritesLine (.sign [','] :: space indent) [',', ' '] :=
      (WritesLine.sign (c := ',') (by decide)).append (writesLine_space hi)
    have hentries : ∀ e ∈ m.entries, WritesLine (argument indent e) (Line.argument e) := fun e he =>
      writesLine_argument hi (hn e.1 (List.mem_map_of_mem he)) (hl e.2 (List.mem_map_of_mem he))
    exact (hopen.append (hcomma.intercalate hentries)).append hclose

theorem writesLine_header (hi : 0 < indent) {h : Header} (hn : AreIdentifiers h.names)
    (hl : ∀ l ∈ h.literals, l.IsWritable) : WritesLine (header indent h) (Line.header h) := by
  obtain ⟨hname, hparams, hfilters⟩ := areIdentifiers_header.1 hn
  rw [Header.literals, List.forall_mem_append, List.forall_mem_flatMap, List.forall_mem_flatMap]
    at hl
  have hfirst : WritesLine (params indent h.params) (h.params.toList.flatMap Line.arguments) := by
    rw [params_eq]
    exact .flatMap fun v hv => writesLine_arguments hi (hparams v hv) (hl.1 v hv)
  have hmore : WritesLine (h.filters.flatMap (filter indent)) (h.filters.flatMap Line.filter) :=
    .flatMap fun f hf => by
      obtain ⟨hfilter, hvalue⟩ := hfilters f hf
      exact ((WritesLine.sign (c := '.') (by decide)).append (.name hfilter)).append
        (writesLine_arguments hi hvalue (hl.2 f hf))
  exact ((WritesLine.name hname).append hfirst).append hmore

/-- A block opens at the end of a line and closes on a line of its own. -/
theorem writesLines_block (hi : 0 < indent) (depth : Nat) {front : List Piece} {first : Line}
    (hfront : WritesLine front first) {parts : List (List Piece)} {each : List (List Line)}
    (h : List.Forall₂ WritesLines parts each) (hne : each ≠ []) :
    WritesLines (front ++ block indent depth parts)
      ((first ++ ['\x7b']) :: (siblings each ++ [.indented indent depth ['\x7d']])) := by
  have hopen := WritesLines.single (hfront.append (.sign (c := '\x7b') (by decide)))
  have hclose := WritesLines.single
    ((writesLine_margin hi depth).append (.sign (c := '\x7d') (by decide)))
  have hall := (hopen.append hi (.siblings hi h hne)).append hi hclose
  simpa only [block, Line.indented, List.append_assoc, List.cons_append, List.nil_append,
    List.append_nil] using hall

mutual

theorem writesLines_property (hi : 0 < indent) (level depth : Nat) : (p : Property) →
    Violations.ofProperty level p = [] → (∀ l ∈ p.literals, l.IsWritable) →
    WritesLines (property indent depth p) (p.lines indent depth)
  | .field name, hv, _ => by
    rw [Violations.ofProperty] at hv
    have hall := (writesLine_margin hi depth).append (.name (Violations.ofName_eq_nil hv))
    rw [Line.indented, List.append_nil] at hall
    rw [property, Property.lines]
    exact .single hall
  | .selection h properties, hv, hl => by
    obtain ⟨hn, hne, hproperties⟩ := Violations.ofProperty_selection_eq_nil hv
    rw [Property.literals, List.forall_mem_append] at hl
    have hfront := ((writesLine_margin hi depth).append (writesLine_header hi hn hl.1)).append
      (writesLine_space hi)
    have heach := writesLines_each hi (level + 1) (depth + 1) properties hproperties hl.2
    have hall := writesLines_block hi depth hfront heach (Property.eachLines_ne_nil hne)
    simpa only [property, Property.lines, Line.indented, List.append_assoc, List.nil_append,
      List.singleton_append] using hall

theorem writesLines_each (hi : 0 < indent) (level depth : Nat) : (properties : List Property) →
    Violations.ofProperties level properties = [] →
    (∀ l ∈ Property.listLiterals properties, l.IsWritable) →
    List.Forall₂ WritesLines (each indent depth properties)
      (Property.eachLines indent depth properties)
  | [], _, _ => by
    rw [each, Property.eachLines]
    exact .nil
  | p :: rest, hv, hl => by
    rw [Violations.ofProperties] at hv
    rw [Property.listLiterals, List.forall_mem_append] at hl
    obtain ⟨hp, hrest⟩ := List.append_eq_nil_iff.1 hv
    rw [each, Property.eachLines]
    exact .cons (writesLines_property hi level depth p hp hl.1)
      (writesLines_each hi level depth rest hrest hl.2)

end

theorem writesLines_document (hi : 0 < indent) {d : Document} (hv : d.validate = .ok ())
    (hl : ∀ l ∈ d.literals, l.IsWritable) : WritesLines (document indent d) (d.lines indent) := by
  obtain ⟨hne, hproperties⟩ := Document.ofProperties_eq_nil hv
  have hroots : d.selections.map Property.ofSelection ≠ [] := fun hnil =>
    hne (List.map_eq_nil_iff.1 hnil)
  exact writesLines_block hi 0 .nil (writesLines_each hi 0 1 _ hproperties hl)
    (Property.eachLines_ne_nil hroots)

end Layout

/-! ## Counting lines -/

theorem length_withComma (lines : List Line) : (withComma lines).length = lines.length := by
  induction lines with
  | nil => rfl
  | cons line rest ih =>
    cases rest with
    | nil => rfl
    | cons next rest => exact congrArg (· + 1) ih

theorem length_siblings (each : List (List Line)) :
    (siblings each).length = (each.map List.length).sum := by
  induction each with
  | nil => rfl
  | cons lines each ih =>
    cases each with
    | nil => exact (Nat.add_zero _).symm
    | cons next each =>
      rw [siblings, List.length_append, length_withComma, ih]
      rfl

namespace Property

mutual

/-- A field is one line, and a selection two besides those inside of it. -/
theorem length_lines (indent depth : Nat) : (p : Property) →
    (p.lines indent depth).length =
      p.preorder.countP isField + 2 * p.preorder.countP fun q => !q.isField
  | .field name => rfl
  | .selection h properties => by
    have hinside := length_eachLines indent (depth + 1) properties
    rw [lines, preorder, List.length_cons, List.length_append, length_siblings, hinside,
      List.length_singleton, List.countP_cons, List.countP_cons]
    simp only [isField, Bool.not_false, if_true, Bool.false_eq_true, if_false]
    omega

theorem length_eachLines (indent depth : Nat) : (properties : List Property) →
    ((eachLines indent depth properties).map List.length).sum =
      (listPreorder properties).countP isField
        + 2 * (listPreorder properties).countP fun q => !q.isField
  | [] => rfl
  | p :: rest => by
    rw [eachLines, List.map_cons, List.sum_cons, length_lines indent depth p,
      length_eachLines indent depth rest, listPreorder, List.countP_append, List.countP_append]
    omega

end

end Property

namespace Document

theorem length_lines (indent : Nat) (d : Document) :
    (d.lines indent).length = 2 + d.fieldCount + 2 * d.selectionCount := by
  have hroots := Property.length_eachLines indent 1 (d.selections.map .ofSelection)
  rw [lines, List.length_cons, List.length_append, length_siblings, hroots, List.length_singleton,
    fieldCount, selectionCount, properties]
  omega

/-- A document that is printed in any layout is printed in every indented one, and its text splits
at line breaks into the lines of the document: two braces, one line for each field and two for each
selection. -/
theorem print_splits_into_lines {d : Document} {o : PrintOptions} {s : String}
    (h : d.print o = .ok s) {indent : Nat} (hi : 0 < indent) :
    ∃ text, d.print { indent } = .ok text ∧ text.toList.splitOn '\n' = d.lines indent ∧
      (text.toList.splitOn '\n').length = 2 + d.fieldCount + 2 * d.selectionCount := by
  obtain ⟨hv, hl⟩ := isPrintable_of_print h
  have hwrites := Layout.writesLines_document hi hv hl
  have hbreak : ∀ line ∈ d.lines indent, '\n' ∉ line := fun line hline hn =>
    absurd (hwrites.unbroken line hline _ hn) (by decide)
  have hsplit : (joined (d.lines indent)).splitOn '\n' = d.lines indent :=
    List.splitOn_intercalate '\n' hbreak hwrites.ne_nil
  refine ⟨_, print_eq (o := { indent }) hv hwrites.write_eq, ?_⟩
  rw [String.toList_ofList, hsplit]
  exact ⟨rfl, length_lines indent d⟩

theorem print_splits_into_lines_nested : ∃ (d : Document) (text : String),
    d.print .compacted =
      .ok "\x7ba.b(c:\"\\n\",d:null)\x7be,f(1)\x7bg\x7d\x7d,h\x7bi\x7d\x7d" ∧
    0 < 3 ∧ d.print { indent := 3 } = .ok text ∧
    text.toList.splitOn '\n' =
      ["\x7b", "   a.b(c: \"\\n\", d: null) \x7b", "      e,", "      f(1) \x7b", "         g",
        "      \x7d", "   \x7d,", "   h \x7b", "      i", "   \x7d", "\x7d"].map String.toList ∧
    (text.toList.splitOn '\n').length = 2 + 3 + 2 * 3 := by
  let a : Selection := .withFilter (.named "a") "b"
    (.mapping (.ofList [("c", .string "\n"), ("d", .null)]))
  let f : Selection := .withParams (.named "f") (.literal (.int 1))
  let d : Document :=
    ⟨[(a.withField "e").withSelection (f.withField "g"), .withField (.named "h") "i"]⟩
  have hcompact : d.print .compacted =
      .ok "\x7ba.b(c:\"\\n\",d:null)\x7be,f(1)\x7bg\x7d\x7d,h\x7bi\x7d\x7d" := by decide +kernel
  have hi : 0 < 3 := by decide
  obtain ⟨text, htext, hlines, hlength⟩ := print_splits_into_lines hcompact hi
  exact ⟨d, text, hcompact, hi, htext, hlines.trans (by decide +kernel), hlength⟩

end Document

end QueryMarkup
