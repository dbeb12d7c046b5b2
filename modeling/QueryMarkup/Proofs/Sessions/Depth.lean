import Mathlib.Logic.Function.Iterate
import QueryMarkup.Proofs.Reading.Report
import QueryMarkup.Proofs.Reading.Room
import QueryMarkup.Proofs.Reading.Sound
import QueryMarkup.Proofs.Reading.Trace

/-!
# The depth that a session keeps

A session reads on from where the last reading stopped, with the selections that failures left open
counted against the limit. `accountsDepth` says what that comes to: the next reading is that of a
session with the depth taken off the limit, it adds to the depth the selections that its trace leaves
open, and behind a document there is only the end of the text.
-/

namespace QueryMarkup

/-- The cursor behind a text. -/
def Cursor.behind (text : List Char) : Cursor := ⟨Position.start.afterAll text, []⟩

theorem Cursor.eq_behind {text : List Char} {c : Cursor} (h : (Cursor.start text).Reaches c)
    (hc : c.rest = []) : c = behind text := by
  obtain ⟨passed, ht, hp⟩ := h
  have htext : text = passed := by
    rw [show text = passed ++ c.rest from ht, hc, List.append_nil]
  obtain ⟨position, rest⟩ := c
  obtain rfl : rest = [] := hc
  obtain rfl : position = Position.start.afterAll passed := hp
  rw [htext, behind]

theorem Parse.result_document_of_nil (limit room : Nat) {c : Cursor} (h : c.rest = []) :
    ((document limit room).run c).result = .error ⟨.unexpected .openBrace none, c, c, 0⟩ := by
  have hbare : c.bare = c := by
    rw [Cursor.bare, h]
    exact c.drop_zero
  rw [document, result_traced]
  refine result_bind_of_error _ ?_
  rw [result_expect, hbare, h]
  rfl

namespace Session

/-! ## Runs of readings -/

theorem limit_advance (s : Session) : s.advance.limit = s.limit := by
  unfold advance
  split <;> rfl

theorem IsAt.iterate {s : Session} {text : String} (h : s.IsAt text) (calls : Nat) :
    (Session.advance^[calls] s).IsAt text := by
  induction calls with
  | zero => exact h
  | succ calls ih =>
    rw [Function.iterate_succ_apply']
    exact ih.advance

theorem limit_iterate (s : Session) (calls : Nat) : (advance^[calls] s).limit = s.limit := by
  induction calls with
  | zero => rfl
  | succ calls ih => rw [Function.iterate_succ_apply', limit_advance, ih]

theorem advance_of_ok {s : Session} {d : Document} {c : Cursor} (h : s.outcome.result = .ok (d, c)) :
    s.advance = { s with cursor := c } := by
  rw [advance, h]

theorem advance_of_error {s : Session} {f : Failure} (h : s.outcome.result = .error f) :
    s.advance = { s with cursor := f.stop, depth := s.depth + f.opened } := by
  rw [advance, h]

theorem result_eq_ok {s : Session} {d : Document} (h : s.result = .ok d) :
    ∃ c, s.outcome.result = .ok (d, c) := by
  unfold result at h
  split at h
  · rename_i d' c hr
    obtain rfl := Except.ok.inj h
    exact ⟨c, hr⟩
  · cases h

theorem result_eq_error {s : Session} {r : Report} (h : s.result = .error r) :
    ∃ f, s.outcome.result = .error f ∧ r = f.report s.text := by
  unfold result at h
  split at h
  · cases h
  · rename_i f hr
    exact ⟨f, hr, (Except.error.inj h).symm⟩

/-- Where the text ends a session stays. -/
theorem advance_of_nil {s : Session} (h : s.cursor.rest = []) : s.advance = s :=
  advance_of_error (Parse.result_document_of_nil s.limit (s.limit - s.depth) h)

theorem result_of_nil {s : Session} (h : s.cursor.rest = []) :
    s.result = .error (Failure.report ⟨.unexpected .openBrace none, s.cursor, s.cursor, 0⟩ s.text) := by
  have hr : s.outcome.result = _ := Parse.result_document_of_nil s.limit (s.limit - s.depth) h
  rw [result, hr]

/-- The session with its depth taken off its limit. -/
def relieved (s : Session) : Session := { s with limit := s.limit - s.depth, depth := 0 }

/-- The result of reading, where a refusal quotes another limit. -/
def resultQuoting (s : Session) (limit : Nat) : Except Report Document :=
  match s.outcome.result with
  | .ok (d, _) => .ok d
  | .error f => .error ((f.quoting limit).report s.text)

theorem outcome_eq_quoting (s : Session) : s.outcome = s.relieved.outcome.quoting s.limit :=
  Parse.quoting_document s.limit (s.limit - s.depth) (s.limit - s.depth) s.cursor

theorem result_eq_resultQuoting (s : Session) : s.result = s.relieved.resultQuoting s.limit := by
  rw [result, resultQuoting, outcome_eq_quoting, Outcome.quoting]
  cases s.relieved.outcome.result <;> rfl

theorem cursor_advance_relieved (s : Session) :
    s.advance.cursor = s.relieved.advance.cursor := by
  rw [advance, advance, outcome_eq_quoting, Outcome.quoting]
  cases s.relieved.outcome.result <;> rfl

theorem depth_advance_relieved (s : Session) :
    s.advance.depth = s.depth + s.relieved.advance.depth := by
  rw [advance, advance, outcome_eq_quoting, Outcome.quoting]
  cases s.relieved.outcome.result with
  | ok r => rfl
  | error f => exact congrArg (s.depth + ·) (Nat.zero_add f.opened).symm

theorem exists_openRules {s : Session} {f : Failure} (h : s.outcome.result = .error f) :
    ∃ left, openRules [] (s.outcome.trace ()) = some left ∧ left.count .object = f.opened := by
  have hb := Parse.isBracketed_document s.limit (s.limit - s.depth) s.cursor []
  have hr : ((Parse.document s.limit (s.limit - s.depth)).run s.cursor).result = .error f := h
  rw [hr] at hb
  obtain ⟨left, hleft, hcount⟩ := hb
  rw [List.append_nil] at hleft
  exact ⟨left, hleft, hcount⟩

/-- What a reading makes of the depth that the session keeps. -/
structure AccountsDepth (s : Session) : Prop where
  /-- The depth counts against the limit, which a refusal quotes in full. -/
  result : s.result = s.relieved.resultQuoting s.limit
  cursor : s.advance.cursor = s.relieved.advance.cursor
  depth : s.advance.depth = s.depth + s.relieved.advance.depth
  /-- Behind a document the text has ended, and each later reading says so. -/
  ofDocument : ∀ d, s.result = .ok d → s.advance.depth = s.depth ∧
    s.advance.cursor = .behind s.text ∧ ∀ later, ∃ r,
      (advance^[later] s.advance).result = .error r ∧
      r.message = "expected '\x7b', found end of input" ∧ r.offset = byteSize s.text
  /-- A failure adds the selections among the rules that its trace leaves open. -/
  ofReport : ∀ r, s.result = .error r → ∃ left, openRules [] (s.outcome.trace ()) = some left ∧
    s.advance.depth = s.depth + left.count .object

/-- After any number of readings the depth is accounted for. -/
theorem accountsDepth (text : String) (limit calls : Nat) :
    (advance^[calls] (start text.toList limit)).AccountsDepth := by
  have hat : (advance^[calls] (start text.toList limit)).IsAt text :=
    (isAt_start text limit).iterate calls
  generalize advance^[calls] (start text.toList limit) = s at hat
  refine ⟨s.result_eq_resultQuoting, s.cursor_advance_relieved, s.depth_advance_relieved, ?_, ?_⟩
  · intro d hd
    obtain ⟨c, hr⟩ := result_eq_ok hd
    have hadvance := advance_of_ok hr
    have hrest : s.advance.cursor.rest = [] := by
      rw [hadvance]
      exact Parse.rest_of_document hr
    have hbehind : s.advance.cursor = .behind s.text := by
      rw [hat.1]
      exact Cursor.eq_behind hat.advance.2 hrest
    refine ⟨by rw [hadvance], hbehind, fun later => ?_⟩
    rw [Function.iterate_fixed (advance_of_nil hrest)]
    refine ⟨_, result_of_nil hrest, rfl, ?_⟩
    show s.advance.cursor.position.offset = _
    rw [hbehind, Cursor.behind, afterAll_start]
  · intro r hr
    obtain ⟨f, hf, -⟩ := result_eq_error hr
    obtain ⟨left, hleft, hcount⟩ := exists_openRules hf
    exact ⟨left, hleft, by rw [advance_of_error hf, hcount]⟩

end Session

end QueryMarkup
