import QueryMarkup.Proofs.Printing.Pieces
import QueryMarkup.Proofs.Printing.Valid
import QueryMarkup.Proofs.Reading.Language

/-!
# Printed documents are loaded documents

A document that passes validation and holds no double without a text is printed, and loading the text
gives that document back, whatever the blanks between the pieces. What is loaded can be printed, too.
So a text that was loaded can be written in any layout, and from there in any other, as if it had
been written in that one at once.
-/

namespace QueryMarkup

/-- A printer goes on with the text of the layout, if it has one. -/
theorem Printer.print_eq {d : Document} (hv : d.validate = .ok ()) {p : Printer}
    {text : List Char} (h : Piece.write (Layout.document p.indent d) = (text, none)) :
    p.print d = (.ok (), { p with output := p.output ++ String.ofList text }) := by
  simp only [Printer.print, hv, h]

theorem Document.print_eq {d : Document} (hv : d.validate = .ok ()) {o : PrintOptions}
    {text : List Char} (h : Piece.write (Layout.document o.effectiveIndent d) = (text, none)) :
    d.print o = .ok (String.ofList text) := by
  have hprint := Printer.print_eq hv (p := .new o) h
  rw [Document.print, hprint]
  show Except.ok ("" ++ String.ofList text) = _
  rw [String.empty_append]

/-- Loading undoes printing. -/
theorem Document.load_print {d : Document} (hv : d.validate = .ok ())
    (hf : ∀ x, .float x ∈ d.literals → x.isFinite = true) (o : PrintOptions) :
    ∃ text, d.print o = .ok text ∧ Document.load text = .ok d := by
  obtain ⟨tokens, ⟨text, hw, hs⟩, hd⟩ := Layout.writes_document o.effectiveIndent hv
    fun l hl x hx => hf x (hx ▸ hl)
  refine ⟨String.ofList text, Document.print_eq hv hw, Document.loadWith_of_derives ?_⟩
  rw [String.toList_ofList]
  exact ⟨tokens, hs, hd⟩

theorem Document.load_print_negative_zero : ∃ d : Document,
    d.literals = [.float (.zero true)] ∧ d.validate = .ok () ∧
    (∀ x, .float x ∈ d.literals → x.isFinite = true) ∧
    ∃ text, d.print {} = .ok text ∧ Document.load text = .ok d := by
  let d : Document := .withSelection .empty
    (.withField (.withParams (.named "a") (.literal (.float (.zero true)))) "b")
  have hl : d.literals = [.float (.zero true)] := rfl
  have hv : d.validate = .ok () := by rfl
  have hf : ∀ x, .float x ∈ d.literals → x.isFinite = true := by
    intro x hx
    rw [hl, List.mem_singleton] at hx
    rw [Literal.float.inj hx]
    decide
  exact ⟨d, hl, hv, hf, Document.load_print hv hf {}⟩

namespace Document

/-- A document is printed only if it is valid and its doubles are finite. -/
theorem isPrintable_of_print {d : Document} {o : PrintOptions} {text : String}
    (h : d.print o = .ok text) : d.validate = .ok () ∧ ∀ l ∈ d.literals, l.IsWritable := by
  unfold Document.print Printer.print at h
  cases hv : d.validate with
  | error v =>
    rw [hv] at h
    cases h
  | ok u =>
    refine ⟨rfl, ?_⟩
    rcases Piece.write_cases (Layout.document o.effectiveIndent d) with
      ⟨-, -, hl⟩ | ⟨_, x, _, text, -, hwrite, -⟩
    · rwa [Layout.literals_document] at hl
    · simp only [hv, Printer.new, hwrite] at h
      cases h

/-- What is loaded with no more nesting than validation allows can be printed. -/
theorem isPrintable_of_loadWith {options : LoadOptions} {text : String} {d : Document}
    (hdepth : options.maxDepth ≤ maxNesting) (h : loadWith options text = .ok d) :
    (d.validate = .ok () ∧ ∀ l ∈ d.literals, l.IsWritable) ∧ d.nesting ≤ options.maxDepth := by
  obtain ⟨tokens, hs, hd⟩ := derives_of_loadWith h
  exact ⟨hd.isPrintable hs.named hdepth, hd.nesting_le⟩

/-- The text of a document is loaded wherever its nesting is allowed. -/
theorem loadWith_print {d : Document} (hv : d.validate = .ok ())
    (hf : ∀ l ∈ d.literals, l.IsWritable) (o : PrintOptions) :
    ∃ text, d.print o = .ok text ∧
      ∀ options : LoadOptions, d.nesting ≤ options.maxDepth → loadWith options text = .ok d := by
  obtain ⟨tokens, ⟨text, hw, hs⟩, hd⟩ := Layout.writes_document o.effectiveIndent hv hf
  refine ⟨String.ofList text, print_eq hv hw, fun options hdepth => loadWith_of_derives ?_⟩
  rw [String.toList_ofList]
  exact ⟨tokens, hs, hd.of_nesting_le hdepth⟩

/-- What is loaded within the nesting that validation allows is valid and printed in any layout, and
its text in one layout is loaded and printed in another as it is printed at once. The documents that
are printed, in whatever layout, are those that are loaded. -/
theorem print_eq_ok_iff_load :
    (∀ (options : LoadOptions) (text : String) (d : Document), options.maxDepth ≤ maxNesting →
      loadWith options text = .ok d →
      d.validate = .ok () ∧ (∀ x, .float x ∈ d.literals → x.isFinite = true) ∧
      ∀ o₁ o₂ : PrintOptions, ∃ s₁ s₂, d.print o₁ = .ok s₁ ∧ d.print o₂ = .ok s₂ ∧
        ∀ options' : LoadOptions, options.maxDepth ≤ options'.maxDepth →
          ∃ d', loadWith options' s₁ = .ok d' ∧ d'.print o₂ = .ok s₂) ∧
    ∀ (d : Document) (o : PrintOptions), (∃ s, d.print o = .ok s) ↔ ∃ text, load text = .ok d := by
  refine ⟨fun options text d hdepth h => ?_, fun d o => ⟨?_, ?_⟩⟩
  · obtain ⟨⟨hv, hf⟩, hnesting⟩ := isPrintable_of_loadWith hdepth h
    refine ⟨hv, fun x hx => hf _ hx x rfl, fun o₁ o₂ => ?_⟩
    obtain ⟨s₁, hs₁, hload⟩ := loadWith_print hv hf o₁
    obtain ⟨s₂, hs₂, -⟩ := loadWith_print hv hf o₂
    refine ⟨s₁, s₂, hs₁, hs₂, fun options' hle => ?_⟩
    exact ⟨d, hload options' (Nat.le_trans hnesting hle), hs₂⟩
  · rintro ⟨s, hs⟩
    obtain ⟨hv, hf⟩ := isPrintable_of_print hs
    obtain ⟨text, -, hload⟩ := loadWith_print hv hf o
    obtain ⟨tokens, -, hd⟩ := Layout.writes_document o.effectiveIndent hv hf
    exact ⟨text, hload {} hd.nesting_le⟩
  · rintro ⟨text, h⟩
    obtain ⟨⟨hv, hf⟩, -⟩ := isPrintable_of_loadWith (Nat.le_refl maxNesting) h
    obtain ⟨s, hs, -⟩ := loadWith_print hv hf o
    exact ⟨s, hs⟩

theorem print_eq_ok_iff_load_nested : ∃ (options : LoadOptions) (d : Document),
    options.maxDepth ≤ maxNesting ∧
    loadWith options "\x7b a(b: 1, b: 'c').f() \x7b d(-0.5) \x7b e \x7d, g \x7d \x7d" = .ok d ∧
    d.validate = .ok () ∧ (∀ x, .float x ∈ d.literals → x.isFinite = true) ∧
    ∀ o₁ o₂ : PrintOptions, ∃ s₁ s₂, d.print o₁ = .ok s₁ ∧ d.print o₂ = .ok s₂ ∧
      ∀ options' : LoadOptions, options.maxDepth ≤ options'.maxDepth →
        ∃ d', loadWith options' s₁ = .ok d' ∧ d'.print o₂ = .ok s₂ := by
  have hdepth : LoadOptions.maxDepth { maxDepth := 2 } ≤ maxNesting := by decide
  have hok : ∀ {r : Except Error Document}, r.isOk = true → ∃ d, r = .ok d := by
    rintro (e | d) h
    · cases h
    · exact ⟨d, rfl⟩
  obtain ⟨d, hd⟩ := hok (r := loadWith { maxDepth := 2 }
    "\x7b a(b: 1, b: 'c').f() \x7b d(-0.5) \x7b e \x7d, g \x7d \x7d") (by decide +kernel)
  exact ⟨_, d, hdepth, hd, print_eq_ok_iff_load.1 _ _ d hdepth hd⟩

end Document

end QueryMarkup
