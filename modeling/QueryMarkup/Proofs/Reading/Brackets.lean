import QueryMarkup.Proofs.Reading.Trace

/-!
# Traces as brackets

`Bracketed` is the grammar of traces in which rules stand like brackets. A trace that leaves no rule
open is one of them, and one that leaves some open becomes one when these are matched behind it. The
trace of a document is a single bracket, and that of a failure a beginning of one.
-/

namespace QueryMarkup

/-- Each rule that is entered is matched behind what is entered and matched inside of it. -/
inductive Bracketed : List TraceRecord → Prop where
  | nil : Bracketed []
  | rule {rule : Rule} {p q : Position} {inside behind : List TraceRecord} : Bracketed inside →
      Bracketed behind →
      Bracketed (⟨.entered, rule, p⟩ :: (inside ++ ⟨.matched, rule, q⟩ :: behind))

/-- The trace is that of a rule entered first and matched last. -/
def IsBracket (rule : Rule) (trace : List TraceRecord) : Prop :=
  ∃ p q inside, Bracketed inside ∧
    trace = ⟨.entered, rule, p⟩ :: (inside ++ [⟨.matched, rule, q⟩])

/-- The trace matches the rules that were open before it, the one entered last first. -/
inductive Closes : List Rule → List TraceRecord → Prop where
  | nil {trace : List TraceRecord} : Bracketed trace → Closes [] trace
  | cons {rule : Rule} {q : Position} {opened : List Rule} {inside behind : List TraceRecord} :
      Bracketed inside → Closes opened behind →
      Closes (rule :: opened) (inside ++ ⟨.matched, rule, q⟩ :: behind)

theorem Closes.enclose {opened : List Rule} {inside behind : List TraceRecord} (rule : Rule)
    (p q : Position) (hinside : Bracketed inside) (hbehind : Closes opened behind) :
    Closes opened (⟨.entered, rule, p⟩ :: (inside ++ ⟨.matched, rule, q⟩ :: behind)) := by
  cases hbehind with
  | nil hb => exact .nil (.rule hinside hb)
  | @cons last q' opened first behind hfirst hb =>
    have hall : Bracketed (⟨.entered, rule, p⟩ :: (inside ++ ⟨.matched, rule, q⟩ :: first)) :=
      .rule hinside hfirst
    simpa only [List.cons_append, List.append_assoc] using Closes.cons (q := q') hall hb

theorem Closes.of_openRules {opened : List Rule} {trace : List TraceRecord}
    (h : openRules opened trace = some []) : Closes opened trace := by
  induction trace generalizing opened with
  | nil =>
    obtain rfl : opened = [] := Option.some.inj h
    exact .nil .nil
  | cons r trace ih =>
    obtain ⟨event, rule, p⟩ := r
    cases event with
    | entered =>
      have hcloses : Closes (rule :: opened) trace := ih h
      cases hcloses with
      | cons hinside hbehind => exact hbehind.enclose rule p _ hinside
    | matched =>
      cases opened with
      | nil => cases h
      | cons last opened =>
        rw [openRules] at h
        split at h
        · rename_i hlast
          subst hlast
          exact .cons .nil (ih h)
        · cases h

theorem Bracketed.of_openRules {trace : List TraceRecord} (h : openRules [] trace = some []) :
    Bracketed trace := by
  cases Closes.of_openRules h with
  | nil hb => exact hb

/-- The rules matched one after another at one place. -/
def matchings (opened : List Rule) (p : Position) : List TraceRecord :=
  opened.map fun rule => ⟨.matched, rule, p⟩

theorem openRules_matchings (opened : List Rule) (p : Position) :
    openRules opened (matchings opened p) = some [] := by
  induction opened with
  | nil => rfl
  | cons rule opened ih => exact (if_pos rfl).trans ih

/-- Matching the rules that are left open completes the brackets. -/
theorem Bracketed.of_open {trace : List TraceRecord} {left : List Rule}
    (h : openRules [] trace = some left) (p : Position) :
    Bracketed (trace ++ matchings left p) := by
  refine .of_openRules ?_
  rw [openRules_append, h, Option.bind_some, openRules_matchings]

namespace Parse

variable {α : Type}

theorem isBracket_traced {p : Parse α} {rule : Rule} {c d : Cursor} {a : α}
    (hp : (p.run c).IsBracketed) (h : ((traced rule p).run c).result = .ok (a, d)) :
    IsBracket rule (((traced rule p).run c).trace ()) := by
  rw [result_traced] at h
  have hb := hp []
  rw [h] at hb
  exact ⟨c.position, d.position, _, .of_openRules hb, trace_traced_of_ok rule h⟩

/-- The trace of a failure goes on to a bracket with the rule still open. -/
theorem exists_isBracket_traced {p : Parse α} {rule : Rule} {c : Cursor} {f : Failure}
    (hp : (p.run c).IsBracketed) (h : ((traced rule p).run c).result = .error f) :
    ((traced rule p).run c).trace () ≠ [] ∧
      ∃ missing, missing ≠ [] ∧ IsBracket rule (((traced rule p).run c).trace () ++ missing) := by
  rw [result_traced] at h
  have hb := hp []
  rw [h] at hb
  obtain ⟨left, hleft, -⟩ := hb
  rw [List.append_nil] at hleft
  have hcomplete := Bracketed.of_open hleft f.stop.position
  rw [trace_traced_of_error rule h]
  refine ⟨List.cons_ne_nil _ _,
    matchings left f.stop.position ++ [⟨.matched, rule, f.stop.position⟩], by simp, c.position,
    f.stop.position, _, hcomplete, ?_⟩
  rw [List.cons_append, List.append_assoc]

theorem isBracketed_roots (limit room : Nat) (c : Cursor) :
    ((do
      expect '{' .openBrace
      let selections ← commaSeparated (object limit room)
      expect '}' .commaOrCloseBrace
      finish
      return ⟨selections⟩ : Parse Document).run c).IsBracketed := by
  have h := congruence_isBracketed.roots (isBracketed_selectionAfter limit room)
  exact h c

end Parse

end QueryMarkup
