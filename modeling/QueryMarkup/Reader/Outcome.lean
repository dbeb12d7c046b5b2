import QueryMarkup.Error

/-!
# Outcomes of reading

Reading ends with a value and the cursor behind it, or with a failure; beside it stands the trace of
the rules met, put together only when it is asked for. `Outcome.Forward` says that a reading only
moved forward and that its trace names places on the way, in order.
-/

namespace QueryMarkup

/-- The trace notes where a rule is entered and where it has been matched. -/
inductive TraceEvent where
  | entered
  | matched
  deriving DecidableEq

structure TraceRecord where
  event : TraceEvent
  rule : Rule
  position : Position
  deriving DecidableEq

/-- The places in the trace lie in order between the two cursors. -/
def Visits (c : Cursor) : List TraceRecord → Cursor → Prop
  | [], d => c.Reaches d
  | r :: rest, d => ∃ e, c.Reaches e ∧ r.position = e.position ∧ Visits e rest d

theorem Visits.reaches {c d : Cursor} {trace : List TraceRecord} (h : Visits c trace d) :
    c.Reaches d := by
  induction trace generalizing c with
  | nil => exact h
  | cons r rest ih =>
    obtain ⟨e, hc, _, hd⟩ := h
    exact hc.trans (ih hd)

theorem Visits.before {b c d : Cursor} {trace : List TraceRecord} (h : b.Reaches c)
    (k : Visits c trace d) : Visits b trace d := by
  cases trace with
  | nil => exact h.trans k
  | cons r rest =>
    obtain ⟨e, hc, hp, hd⟩ := k
    exact ⟨e, h.trans hc, hp, hd⟩

theorem Visits.append {c d e : Cursor} {s t : List TraceRecord} (h : Visits c s d)
    (k : Visits d t e) : Visits c (s ++ t) e := by
  induction s generalizing c with
  | nil => exact k.before h
  | cons r rest ih =>
    obtain ⟨m, hc, hp, hd⟩ := h
    exact ⟨m, hc, hp, ih hd⟩

structure Outcome (α : Type) where
  trace : Unit → List TraceRecord
  result : Except Failure (α × Cursor)

namespace Outcome

variable {α β : Type}

/-- A run that started at `c` moved forward. -/
def Forward (c : Cursor) (o : Outcome α) : Prop :=
  match o.result with
  | .ok (_, d) => Visits c (o.trace ()) d
  | .error f => Visits c (o.trace ()) f.stop ∧ c.Reaches f.mark ∧ f.mark.Reaches f.stop

/-- Goes on behind a value that was read. -/
def andThen (o : Outcome α) (next : α → Cursor → Outcome β) : Outcome β :=
  match o.result with
  | .error f => ⟨o.trace, .error f⟩
  | .ok (a, d) =>
    let n := next a d
    ⟨fun _ => o.trace () ++ n.trace (), n.result⟩

@[simp]
theorem andThen_ok (t : Unit → List TraceRecord) (a : α) (d : Cursor)
    (next : α → Cursor → Outcome β) :
    (⟨t, .ok (a, d)⟩ : Outcome α).andThen next
      = ⟨fun _ => t () ++ (next a d).trace (), (next a d).result⟩ := rfl

@[simp]
theorem andThen_error (t : Unit → List TraceRecord) (f : Failure) (next : α → Cursor → Outcome β) :
    (⟨t, .error f⟩ : Outcome α).andThen next = ⟨t, .error f⟩ := rfl

theorem andThen_pure (o : Outcome α) : o.andThen (fun a d => ⟨fun _ => [], .ok (a, d)⟩) = o := by
  obtain ⟨t, r⟩ := o
  rcases r with f | ⟨a, d⟩ <;> simp

theorem andThen_assoc {γ : Type} (o : Outcome α) (next : α → Cursor → Outcome β)
    (next' : β → Cursor → Outcome γ) :
    (o.andThen next).andThen next' = o.andThen fun a d => (next a d).andThen next' := by
  obtain ⟨t, r⟩ := o
  rcases r with f | ⟨a, d⟩
  · rfl
  · generalize hn : next a d = n
    obtain ⟨u, s⟩ := n
    rcases s with f | ⟨b, e⟩ <;> simp [hn]

theorem Forward.andThen {c : Cursor} {o : Outcome α} {next : α → Cursor → Outcome β}
    (h : o.Forward c) (k : ∀ a d, o.result = .ok (a, d) → (next a d).Forward d) :
    (o.andThen next).Forward c := by
  unfold Forward at h
  unfold Outcome.andThen
  split
  · rename_i f he
    rw [he] at h
    simpa only [Forward] using h
  · rename_i a d he
    rw [he] at h
    have hk := k a d he
    unfold Forward at hk ⊢
    simp only
    split at hk
    · exact h.append hk
    · exact ⟨h.append hk.1, h.reaches.trans hk.2.1, hk.2.2⟩

end Outcome

end QueryMarkup
