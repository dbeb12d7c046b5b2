import QueryMarkup.Proofs.Reading.Congruence

/-!
# Rules that are left open

In a trace the rules stand like brackets: each is matched inside the one entered before it.
`openRules` follows a trace with a stack of the rules that are open. A reading that succeeds leaves
open what was open before; one that fails leaves rules open on top of that, and the selections among
them are those that its failure counts.
-/

namespace QueryMarkup

variable {α : Type}

/-- The rules that are open behind a trace, the one entered last first, where `opened` were open
before it. There are none if a rule is matched that was not the one entered last. -/
def openRules : List Rule → List TraceRecord → Option (List Rule)
  | opened, [] => some opened
  | opened, ⟨.entered, rule, _⟩ :: rest => openRules (rule :: opened) rest
  | [], ⟨.matched, _, _⟩ :: _ => none
  | last :: opened, ⟨.matched, rule, _⟩ :: rest =>
    if last = rule then openRules opened rest else none

theorem openRules_append (opened : List Rule) (s t : List TraceRecord) :
    openRules opened (s ++ t) = (openRules opened s).bind fun opened => openRules opened t := by
  induction s generalizing opened with
  | nil => simp [openRules]
  | cons r s ih =>
    obtain ⟨event, rule, position⟩ := r
    cases event with
    | entered => simpa only [List.cons_append, openRules] using ih _
    | matched =>
      cases opened with
      | nil => rfl
      | cons last opened =>
        simp only [List.cons_append, openRules]
        split
        · exact ih opened
        · rfl

/-- The rules that the trace leaves open are closed where the reading succeeds, and where it fails
count the selections that the failure left open. -/
def Outcome.IsBracketed (o : Outcome α) : Prop :=
  ∀ opened, match o.result with
    | .ok _ => openRules opened (o.trace ()) = some opened
    | .error f => ∃ left, openRules opened (o.trace ()) = some (left ++ opened) ∧
        left.count .object = f.opened

namespace Parse

theorem trace_bind_of_ok {β : Type} {p : Parse α} {c d : Cursor} {a : α} (next : α → Parse β)
    (h : (p.run c).result = .ok (a, d)) :
    ((p >>= next).run c).trace () = (p.run c).trace () ++ ((next a).run d).trace () := by
  rw [run_bind]
  unfold Outcome.andThen
  rw [h]

theorem trace_bind_of_error {β : Type} {p : Parse α} {c : Cursor} {f : Failure}
    (next : α → Parse β) (h : (p.run c).result = .error f) :
    ((p >>= next).run c).trace () = (p.run c).trace () := by
  rw [run_bind]
  unfold Outcome.andThen
  rw [h]

theorem trace_traced_of_ok {p : Parse α} {c d : Cursor} {a : α} (rule : Rule)
    (h : (p.run c).result = .ok (a, d)) :
    ((traced rule p).run c).trace () =
      ⟨.entered, rule, c.position⟩ :: ((p.run c).trace () ++ [⟨.matched, rule, d.position⟩]) := by
  rw [traced, trace_bind_of_ok _ (by rw [run_note]), trace_bind_of_ok _ h]
  rfl

theorem trace_traced_of_error {p : Parse α} {c : Cursor} {f : Failure} (rule : Rule)
    (h : (p.run c).result = .error f) :
    ((traced rule p).run c).trace () = ⟨.entered, rule, c.position⟩ :: (p.run c).trace () := by
  rw [traced, trace_bind_of_ok _ (by rw [run_note]), trace_bind_of_error _ h]
  rfl

/-! ## Brackets -/

/-- A rule stands like a bracket around what it reads. -/
theorem openRules_traced_of_ok {p : Parse α} {c d : Cursor} {a : α} {rule : Rule}
    {opened : List Rule} (h : (p.run c).result = .ok (a, d))
    (hp : openRules (rule :: opened) ((p.run c).trace ()) = some (rule :: opened)) :
    openRules opened (((traced rule p).run c).trace ()) = some opened := by
  rw [trace_traced_of_ok rule h, openRules, openRules_append, hp]
  simp [openRules]

/-- A rule whose reading fails is left open below the rules that were left open inside it. -/
theorem openRules_traced_of_error {p : Parse α} {c : Cursor} {f : Failure} {rule : Rule}
    {left opened : List Rule} (h : (p.run c).result = .error f)
    (hp : openRules (rule :: opened) ((p.run c).trace ()) = some (left ++ rule :: opened)) :
    openRules opened (((traced rule p).run c).trace ()) = some ((left ++ [rule]) ++ opened) := by
  rw [trace_traced_of_error rule h, openRules, hp, List.append_assoc]
  rfl

theorem isBracketed_traced {p : Parse α} {rule : Rule} (hrule : rule ≠ .object) {c : Cursor}
    (hp : (p.run c).IsBracketed) : ((traced rule p).run c).IsBracketed := by
  intro opened
  have h := hp (rule :: opened)
  rw [result_traced]
  split
  · rename_i r hr
    rw [hr] at h
    exact openRules_traced_of_ok hr h
  · rename_i f hr
    rw [hr] at h
    obtain ⟨left, hleft, hcount⟩ := h
    refine ⟨_, openRules_traced_of_error hr hleft, ?_⟩
    rw [List.count_append, hcount, List.count_singleton]
    simp [hrule]

/-- A selection that a failure leaves open is counted by the failure and stands open in the
trace. -/
theorem isBracketed_selection {p : Parse α} {c : Cursor} (hp : (p.run c).IsBracketed) :
    ((traced .object (inside p)).run c).IsBracketed := by
  intro opened
  have h := hp (.object :: opened)
  rw [result_traced, result_inside]
  cases hr : (p.run c).result with
  | ok r =>
    rw [hr] at h
    exact openRules_traced_of_ok (p := inside p) (by rw [result_inside, hr]; rfl) h
  | error f =>
    rw [hr] at h
    obtain ⟨left, hleft, hcount⟩ := h
    refine ⟨_, openRules_traced_of_error (p := inside p) (by rw [result_inside, hr]; rfl) hleft, ?_⟩
    rw [List.count_append, hcount]
    rfl

/-- Being bracketed, as a relation that ignores its second side. -/
theorem congruence_isBracketed :
    Congruence fun {α} (o _ : Outcome α) => o.IsBracketed where
  flat {_ p} hp c opened := by
    show match (p.run c).result with | .ok _ => _ | .error f => _
    rw [hp.trace c]
    split
    · rfl
    · rename_i f hr
      exact ⟨[], rfl, (hp.failure c f hr).1.symm⟩
  bind {_ _ p _ next _} hp hn c opened := by
    have h := hp c opened
    cases hr : (p.run c).result with
    | error f =>
      rw [hr] at h
      rwa [result_bind_of_error _ hr, trace_bind_of_error _ hr]
    | ok r =>
      obtain ⟨a, d⟩ := r
      rw [hr] at h
      rw [result_bind_of_ok _ hr, trace_bind_of_ok _ hr, openRules_append, h]
      exact hn a d opened
  traced hrule hp c := isBracketed_traced hrule (hp c)

/-- Selections are bracketed, whatever room there is for others inside them. -/
theorem isBracketed_selectionAfter (limit : Nat) : (room : Nat) → (name : String) →
    Related (fun o _ => o.IsBracketed) (selectionAfter limit room name)
      (selectionAfter limit room name)
  | 0, _ => fun _ => isBracketed_selection (p := fail (.tooDeep limit)) fun _ => ⟨[], rfl, rfl⟩
  | room + 1, name =>
    congruence_isBracketed.selectionAfter_succ (isBracketed_selectionAfter limit room)
      (fun h c => isBracketed_selection (h c)) name

theorem isBracketed_document (limit room : Nat) (c : Cursor) :
    ((document limit room).run c).IsBracketed := by
  have h : Related (fun o _ => o.IsBracketed) (document limit room) (document limit room) :=
    congruence_isBracketed.document (isBracketed_selectionAfter limit room)
  exact h c

end Parse

end QueryMarkup
