import QueryMarkup.Proofs.Reading.Brackets
import QueryMarkup.Proofs.Reading.Language
import QueryMarkup.Proofs.Reading.Tally

/-!
# The log tells how a document was read

Logging changes nothing of what loading returns. The records name places in order and stand like
brackets; where a document is loaded they are one bracket, which enters each rule once for all that
the document and its text hold of its kind, and where loading fails they break off inside of one. A
last record tells how loading ended.
-/

namespace QueryMarkup

/-- By line and column, the first place is not behind the second. -/
def Position.Precedes (p q : Position) : Prop :=
  p.line < q.line ∨ p.line = q.line ∧ p.column ≤ q.column

theorem Position.Precedes.refl (p : Position) : p.Precedes p := .inr ⟨rfl, Nat.le_refl _⟩

theorem Position.Precedes.trans {p q r : Position} (h : p.Precedes q) (k : q.Precedes r) :
    p.Precedes r := by
  unfold Precedes at *
  omega

theorem Position.precedes_after (p : Position) (c : Char) : p.Precedes (p.after c) := by
  unfold after
  split
  · exact .inl (Nat.lt_succ_self _)
  · exact .inr ⟨rfl, Nat.le_succ _⟩

theorem Position.precedes_afterAll (p : Position) (passed : List Char) :
    p.Precedes (p.afterAll passed) := by
  induction passed generalizing p with
  | nil => exact .refl p
  | cons c passed ih => exact (p.precedes_after c).trans (ih _)

theorem Cursor.Reaches.precedes {c d : Cursor} (h : c.Reaches d) :
    c.position.Precedes d.position := by
  obtain ⟨passed, -, hp⟩ := h
  rw [hp]
  exact c.position.precedes_afterAll passed

/-- No record names a place in front of that of an earlier one. -/
def IsOrdered (records : List TraceRecord) : Prop :=
  records.Pairwise fun r s => r.position.Precedes s.position

theorem Visits.precedes {c d : Cursor} {records : List TraceRecord} (h : Visits c records d) :
    ∀ r ∈ records, c.position.Precedes r.position := by
  induction records generalizing c with
  | nil => exact fun _ hr => nomatch hr
  | cons first records ih =>
    obtain ⟨e, hc, hfirst, hd⟩ := h
    have hplace : c.position.Precedes first.position := hfirst ▸ hc.precedes
    exact List.forall_mem_cons.2 ⟨hplace, fun r hr => hc.precedes.trans (ih hd r hr)⟩

theorem Visits.isOrdered {c d : Cursor} {records : List TraceRecord} (h : Visits c records d) :
    IsOrdered records := by
  induction records generalizing c with
  | nil => exact .nil
  | cons first records ih =>
    obtain ⟨e, -, hfirst, hd⟩ := h
    exact .cons (hfirst ▸ hd.precedes) (ih hd)

theorem Outcome.Forward.isOrdered {α : Type} {c : Cursor} {o : Outcome α} (h : o.Forward c) :
    IsOrdered (o.trace ()) := by
  unfold Outcome.Forward at h
  split at h
  · exact h.isOrdered
  · exact h.1.isOrdered

/-- The records are those of reading the text as the document. -/
structure Document.IsTracedBy (d : Document) (text : List Char) (records : List TraceRecord) :
    Prop where
  bracket : IsBracket .document records
  objects : timesEntered .object records = d.selectionCount
  headers : timesEntered .header records = d.selectionCount
  properties : timesEntered .property records = d.propertyCount
  filters : timesEntered .filter records = d.filterCount
  /-- Argument lists are written with a parenthesis each, and empty ones leave nothing else. -/
  argumentLists : ∀ tokens, Spells text tokens →
    timesEntered .argumentList records = tokens.count (.sign '(')

/-- The records break off inside of a rule. -/
def BreaksOffIn (rule : Rule) (records : List TraceRecord) : Prop :=
  records ≠ [] ∧ ∃ missing, missing ≠ [] ∧ IsBracket rule (records ++ missing)

theorem Parse.isTracedBy {limit room : Nat} {text : List Char} {d : Document} {e : Cursor}
    (h : ((document limit room).run (.start text)).result = .ok (d, e)) :
    d.IsTracedBy text (((document limit room).run (.start text)).trace ()) := by
  have htimes : ∀ rule, timesEntered rule _ = _ := fun rule => timesEntered_document rule h
  have hplain : ∀ rule, rule ≠ .document → rule ≠ .argumentList → timesEntered rule _ =
      (d.selections.map (Selection.tally rule)).sum := fun rule hdocument hlist => by
    rw [htimes, mark, owed, if_neg hdocument.symm, if_neg hlist, Nat.zero_add, Nat.add_zero]
  exact {
    bracket := isBracket_traced (isBracketed_roots limit room _) h
    objects := (hplain .object (by decide) (by decide)).trans d.sum_tally_object
    headers := (hplain .header (by decide) (by decide)).trans d.sum_tally_header
    properties := (hplain .property (by decide) (by decide)).trans d.sum_tally_property
    filters := (hplain .filter (by decide) (by decide)).trans d.sum_tally_filter
    argumentLists := fun tokens hs => by
      rw [htimes, d.sum_tally_argumentList, ← hs.openings_eq]
      exact Nat.zero_add _ }

/-- Logging is silent unless it is asked for and changes no result. The log of a text consists of
records in order and of a last one, which tells the number of root selections or the error: the
records trace the document that is loaded, or break off in it. -/
theorem Document.loadLogged_faithful (maxDepth : Nat) (text : String) :
    (loadLogged { maxDepth, debug := false } text).log = [] ∧
    (loadLogged { maxDepth, debug := true } text).result =
      (loadLogged { maxDepth, debug := false } text).result ∧
    ∃ records last,
      (loadLogged { maxDepth, debug := true } text).log = records.map .rule ++ [last] ∧
      IsOrdered records ∧
      match (loadLogged { maxDepth, debug := true } text).result with
      | .ok d => last = .loaded d.selections.length ∧ d.IsTracedBy text.toList records ∧
        Grammar.Derives Lexeme.Denotes maxDepth text.toList d
      | .error e => last = .failed e.message ∧ BreaksOffIn .document records := by
  refine ⟨rfl, rfl, (Session.start text.toList maxDepth).outcome.trace (), _, rfl,
    ((Parse.document _ _).forward _).isOrdered, ?_⟩
  have houtcome : (Session.start text.toList maxDepth).outcome =
      (Parse.document maxDepth maxDepth).run (.start text.toList) := rfl
  rw [loadLogged, Session.result, houtcome]
  cases hr : ((Parse.document maxDepth maxDepth).run (.start text.toList)).result with
  | ok r =>
    have hload : loadWith { maxDepth } text = .ok r.1 := by rw [loadWith_eq, houtcome, hr]
    exact ⟨rfl, Parse.isTracedBy hr, derives_of_loadWith hload⟩
  | error f => exact ⟨rfl, Parse.exists_isBracket_traced (Parse.isBracketed_roots _ _ _) hr⟩

end QueryMarkup
