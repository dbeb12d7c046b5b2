import QueryMarkup.Reader.Outcome

/-!
# Rules that read

`Parse α` reads an `α` at a cursor. Whatever is built from the operations here only moves forward:
this is part of the type, so that a loop over a rule ends because the text behind the cursor gets
shorter.
-/

namespace QueryMarkup

structure Parse (α : Type) where
  run : Cursor → Outcome α
  forward : ∀ c, (run c).Forward c

namespace Parse

variable {α β : Type}

@[ext]
theorem ext {p q : Parse α} (h : ∀ c, p.run c = q.run c) : p = q := by
  cases p
  cases q
  congr
  exact funext h

theorem length_le {p : Parse α} {c d : Cursor} {a : α} (h : (p.run c).result = .ok (a, d)) :
    d.rest.length ≤ c.rest.length := by
  have := p.forward c
  unfold Outcome.Forward at this
  rw [h] at this
  exact this.reaches.length_le

/-- Looks at the text behind the cursor and passes over as many characters as told. -/
def scan (look : List Char → α × Nat) : Parse α where
  run c := ⟨fun _ => [], .ok ((look c.rest).1, c.drop (look c.rest).2)⟩
  forward c := c.reaches_drop _

/-- Fails at the cursor. -/
def fail (cause : Cause) : Parse α where
  run c := ⟨fun _ => [], .error ⟨cause, c, c, 0⟩⟩
  forward c := ⟨.refl c, .refl c, .refl c⟩

/-- Notes the cursor's place in the trace. -/
def note (event : TraceEvent) (rule : Rule) : Parse Unit where
  run c := ⟨fun _ => [⟨event, rule, c.position⟩], .ok ((), c)⟩
  forward c := ⟨c, .refl c, rfl, .refl c⟩

instance : Monad Parse where
  pure a := { run := fun c => ⟨fun _ => [], .ok (a, c)⟩, forward := fun c => .refl c }
  bind p next :=
    { run := fun c => (p.run c).andThen fun a => (next a).run
      forward := fun c => (p.forward c).andThen fun a d _ => (next a).forward d }

@[simp]
theorem run_pure (a : α) (c : Cursor) : (pure a : Parse α).run c = ⟨fun _ => [], .ok (a, c)⟩ := rfl

@[simp]
theorem run_bind (p : Parse α) (next : α → Parse β) (c : Cursor) :
    (p >>= next).run c = (p.run c).andThen fun a => (next a).run := rfl

@[simp]
theorem run_scan (look : List Char → α × Nat) (c : Cursor) :
    (scan look).run c = ⟨fun _ => [], .ok ((look c.rest).1, c.drop (look c.rest).2)⟩ := rfl

@[simp]
theorem run_fail (cause : Cause) (c : Cursor) :
    (fail cause : Parse α).run c = ⟨fun _ => [], .error ⟨cause, c, c, 0⟩⟩ := rfl

@[simp]
theorem run_note (event : TraceEvent) (rule : Rule) (c : Cursor) :
    (note event rule).run c = ⟨fun _ => [⟨event, rule, c.position⟩], .ok ((), c)⟩ := rfl

instance : LawfulMonad Parse := by
  refine LawfulMonad.mk' Parse (fun p => ?_) (fun a next => ?_) (fun p next next' => ?_)
  · ext c
    exact Outcome.andThen_pure _
  · ext c
    simp
  · ext c
    exact Outcome.andThen_assoc _ _ _

/-- Reads and then takes what was read at its meaning; without one, the failure points at where it
began. -/
def check (p : Parse α) (meaning : α → Except Cause β) : Parse β where
  run c :=
    (p.run c).andThen fun a d =>
      match meaning a with
      | .ok b => ⟨fun _ => [], .ok (b, d)⟩
      | .error cause => ⟨fun _ => [], .error ⟨cause, c, d, 0⟩⟩
  forward c := by
    have h := p.forward c
    unfold Outcome.Forward at h ⊢
    generalize p.run c = o at h ⊢
    obtain ⟨t, r⟩ := o
    cases r with
    | error f => exact h
    | ok r =>
      obtain ⟨a, d⟩ := r
      have h : Visits c (t ()) d := h
      simp only [Outcome.andThen_ok]
      cases meaning a with
      | ok b => simpa using h
      | error cause => simpa using ⟨h, Cursor.Reaches.refl c, h.reaches⟩

/-- Reads inside a selection, which a failure leaves open. -/
def inside (p : Parse α) : Parse α where
  run c :=
    let o := p.run c
    ⟨o.trace, o.result.mapError fun f => { f with opened := f.opened + 1 }⟩
  forward c := by
    have h := p.forward c
    unfold Outcome.Forward at h ⊢
    generalize p.run c = o at h ⊢
    obtain ⟨t, r⟩ := o
    cases r with
    | error f => exact h
    | ok r => exact h

/-- Reads by a rule that the trace shows. -/
def traced (rule : Rule) (p : Parse α) : Parse α := do
  note .entered rule
  let a ← p
  note .matched rule
  return a

/-! ## Characters and signs -/

def isBlank (c : Char) : Bool :=
  c = ' ' || c = '\t' || c = '\n' || c = '\x0c' || c = '\r'

/-- The next character, if there is one, without passing over it. -/
def look : Parse (Option Char) := scan fun text => (text.head?, 0)

/-- Passes over the next character. -/
def next : Parse Unit := scan fun _ => ((), 1)

/-- Passes over all characters of a class. -/
def takeWhile (belongs : Char → Bool) : Parse (List Char) :=
  scan fun text => (text.takeWhile belongs, (text.takeWhile belongs).length)

def blanks : Parse Unit := do
  let _ ← takeWhile isBlank

/-- Fails because something else is expected at the cursor. -/
def expected (what : Expected) : Parse α := do
  fail (.unexpected what (← look))

/-- Passes over blanks, and over `sign` if it comes next. -/
def eat (sign : Char) : Parse Bool := do
  blanks
  if (← look) = some sign then
    next
    return true
  else
    return false

/-- Passes over blanks and over `sign`. -/
def expect (sign : Char) (what : Expected) : Parse Unit := do
  unless ← eat sign do expected what

/-- Passes over blanks up to the end of the text. -/
def finish : Parse Unit := do
  blanks
  if (← look).isSome then expected .endOfInput

theorem run_eat (sign : Char) (c : Cursor) :
    (eat sign).run c =
      let d := c.drop (c.rest.takeWhile isBlank).length
      if d.rest.head? = some sign then ⟨fun _ => [], .ok (true, d.drop 1)⟩
      else ⟨fun _ => [], .ok (false, d)⟩ := by
  simp only [eat, blanks, look, next, takeWhile, run_bind, run_scan, run_pure, Outcome.andThen,
    List.nil_append, Cursor.drop_zero]
  split <;> rfl

theorem length_lt_of_eat {sign : Char} {c d : Cursor}
    (h : ((eat sign).run c).result = .ok (true, d)) : d.rest.length < c.rest.length := by
  rw [run_eat] at h
  simp only at h
  split at h
  · rename_i hs
    simp only [Except.ok.injEq, Prod.mk.injEq, true_and] at h
    rw [← h]
    have hle := (c.reaches_drop (c.rest.takeWhile isBlank).length).length_le
    cases hr : (c.drop (c.rest.takeWhile isBlank).length).rest with
    | nil => simp [hr] at hs
    | cons x xs =>
      rw [hr] at hle
      simp only [Cursor.drop] at hr ⊢
      rw [hr]
      simp only [List.length_cons] at hle
      simp only [List.drop_one, List.tail_cons]
      omega
  · simp at h

end Parse

end QueryMarkup
