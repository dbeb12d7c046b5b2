import QueryMarkup.Proofs.Markup.Size
import QueryMarkup.Proofs.Reading.Language
import QueryMarkup.Proofs.Reading.Report
import QueryMarkup.Proofs.Reading.Room

/-!
# The limit of nesting only filters

Loading with a greater limit loads whatever is loaded with a smaller one, and more: the documents
that are nested deeper. What fails for another reason than the limit fails as before, and what was
refused gets at least as far as the refusal.
-/

namespace QueryMarkup

namespace Parse

/-- With a greater limit a document is read as before, or was refused and gets beyond that. -/
theorem document_eq_or_beyond {limit limit' : Nat} (h : limit ≤ limit') (c : Cursor) :
    (document limit' limit').run c = (document limit limit).run c ∨
      ∃ f, ((document limit limit).run c).result = .error f ∧ f.IsRefusal ∧
        Beyond f.mark ((document limit' limit').run c).result := by
  rcases Nat.eq_or_lt_of_le h with rfl | hlt
  · exact .inl rfl
  · have hquoting := quoting_document limit limit' limit c
    have hwidens : ((document limit' limit).run c).Widens ((document limit' limit').run c) :=
      widens_document hlt c
    rcases hwidens with ⟨hsame, hnot⟩ | ⟨f, hf, hrefusal, hbeyond⟩
    · refine .inl ?_
      rw [hquoting, hsame, Outcome.quoting_of_not_isRefusal hnot]
    · refine .inr ⟨f.quoting limit, ?_, ?_, hbeyond⟩
      · rw [hquoting, Outcome.quoting, hf]
        rfl
      · obtain ⟨quoted, hcause⟩ := hrefusal
        exact ⟨limit, by rw [Failure.quoting, hcause]; rfl⟩

end Parse

namespace Document

variable {options options' : LoadOptions} {text : String}

/-- A document that is loaded is loaded wherever its nesting is allowed. -/
theorem loadWith_of_nesting_le {d : Document} (h : loadWith options text = .ok d)
    (hd : d.nesting ≤ options'.maxDepth) : loadWith options' text = .ok d := by
  obtain ⟨tokens, hs, hdocument⟩ := derives_of_loadWith h
  exact loadWith_of_derives ⟨tokens, hs, hdocument.of_nesting_le hd⟩

theorem nesting_le_of_loadWith {d : Document} (h : loadWith options text = .ok d) :
    d.nesting ≤ options.maxDepth := by
  obtain ⟨tokens, -, hdocument⟩ := derives_of_loadWith h
  exact hdocument.nesting_le

/-- Loading fails with the report of a failure to read the text. -/
theorem exists_failure_of_loadWith {e : Error} (h : loadWith options text = .error e) :
    ∃ f, ((Parse.document options.maxDepth options.maxDepth).run (.start text.toList)).result =
      .error f ∧ e = .malformed (f.report text.toList) := by
  rw [loadWith_eq, Session.outcome_start] at h
  split at h
  · cases h
  · rename_i f hf
    exact ⟨f, hf, (Except.error.inj h).symm⟩

/-- The documents loaded with a limit are those loaded with a greater one and not nested deeper.
A failure that is not the refusal of a selection is the same with the greater limit; a refused text
is one of a document nested deeper, or fails no sooner than it was refused. -/
theorem loadWith_of_maxDepth_le (h : options.maxDepth ≤ options'.maxDepth) (text : String) :
    (∀ d, loadWith options text = .ok d ↔
      loadWith options' text = .ok d ∧ d.nesting ≤ options.maxDepth) ∧
    ∀ e, loadWith options text = .error e → ∃ r, e = .malformed r ∧
      (r.message ≠ s!"selections nested deeper than {options.maxDepth}" →
        loadWith options' text = .error e) ∧
      (r.message = s!"selections nested deeper than {options.maxDepth}" →
        (∃ d, loadWith options' text = .ok d ∧ options.maxDepth < d.nesting) ∨
          ∃ r', loadWith options' text = .error (.malformed r') ∧ r.offset ≤ r'.offset) := by
  have hfilters : ∀ d, loadWith options text = .ok d ↔
      loadWith options' text = .ok d ∧ d.nesting ≤ options.maxDepth := by
    refine fun d => ⟨fun hd => ?_, fun ⟨hd, hnesting⟩ => loadWith_of_nesting_le hd hnesting⟩
    have hnesting := nesting_le_of_loadWith hd
    exact ⟨loadWith_of_nesting_le hd (Nat.le_trans hnesting h), hnesting⟩
  refine ⟨hfilters, fun e he => ?_⟩
  obtain ⟨f, hf, rfl⟩ := exists_failure_of_loadWith he
  refine ⟨_, rfl, fun hmessage => ?_, fun _ => ?_⟩
  · rcases Parse.document_eq_or_beyond h (.start text.toList) with hsame | ⟨g, hg, hrefusal, -⟩
    · rw [loadWith_eq, Session.outcome_start, hsame, hf]
    · obtain rfl : f = g := Except.error.inj (hf.symm.trans hg)
      exact absurd (congrArg Cause.message (Parse.cause_of_isRefusal hf hrefusal)) hmessage
  · cases hload : loadWith options' text with
    | ok d =>
      refine .inl ⟨d, rfl, Nat.lt_of_not_le fun hnesting => ?_⟩
      rw [(hfilters d).2 ⟨hload, hnesting⟩] at he
      cases he
    | error e' =>
      obtain ⟨g, hg, rfl⟩ := exists_failure_of_loadWith hload
      refine .inr ⟨_, rfl, ?_⟩
      show f.mark.position.offset ≤ g.mark.position.offset
      rcases Parse.document_eq_or_beyond h (.start text.toList) with
        hsame | ⟨f', hf', -, hbeyond⟩
      · rw [hsame, hf] at hg
        rw [Except.error.inj hg]
      · obtain rfl : f = f' := Except.error.inj (hf.symm.trans hf')
        rw [hg] at hbeyond
        exact hbeyond.1.offset_le

theorem loadWith_of_maxDepth_le_refused :
    LoadOptions.maxDepth { maxDepth := 1 } ≤ LoadOptions.maxDepth { maxDepth := 2 } ∧
    ∃ r, loadWith { maxDepth := 1 } "\x7ba\x7bb\x7bc\x7d\x7d,d\x7b" = .error (.malformed r) ∧
      r.message = "selections nested deeper than 1" ∧
      ((∃ d, loadWith { maxDepth := 2 } "\x7ba\x7bb\x7bc\x7d\x7d,d\x7b" = .ok d ∧ 1 < d.nesting) ∨
        ∃ r', loadWith { maxDepth := 2 } "\x7ba\x7bb\x7bc\x7d\x7d,d\x7b" = .error (.malformed r') ∧
          r.offset ≤ r'.offset) := by
  have hle : LoadOptions.maxDepth { maxDepth := 1 } ≤ LoadOptions.maxDepth { maxDepth := 2 } := by
    decide
  obtain ⟨r, hr, -, hrefused⟩ :=
    (loadWith_of_maxDepth_le hle "\x7ba\x7bb\x7bc\x7d\x7d,d\x7b").2 _ rfl
  have hmessage : r.message = "selections nested deeper than 1" := by
    rw [← Error.malformed.inj hr]
    rfl
  exact ⟨hle, r, congrArg Except.error hr, hmessage, hrefused hmessage⟩

end Document

end QueryMarkup
