import QueryMarkup.Proofs.Offsets.Machine
import QueryMarkup.Proofs.Reading.Result

/-!
# The machine does what reading does

A machine at the place of a cursor agrees with a reading from there if it ends, with the same value
at the same place or with the report of the same failure. Steps in a row agree if each of them
does, and so does a loop whose steps move forward: it does not run more often than its bound.
-/

namespace QueryMarkup.Checked

open Parse (result_bind result_bind_of_ok)

variable {α β σ : Type} {text : List Char} {depth : Nat}

theorem guard_of_pos {b : Prop} [Decidable b] (h : b) : (guard b : Option Unit) = some () :=
  if_pos h

structure Machine.IsAt (m : Machine) (c : Cursor) (depth : Nat) : Prop where
  position : m.position = c.position
  depth : m.depth = depth

/-- The machine ends where the reading does. -/
def Ends (text : List Char) (depth : Nat) (o : Option (Except Report α × Machine)) :
    Except Failure (α × Cursor) → Prop
  | .ok (a, d) => ∃ m, o = some (.ok a, m) ∧ m.IsAt d depth
  | .error f => ∃ m, o = some (.error (f.report text), m) ∧ m.IsAt f.stop (depth + f.opened)

theorem run_bind_of_ok {r : Run α} {k : α → Run β} {m m' : Machine} {a : α}
    (h : r m = some (.ok a, m')) : (r >>= k) m = k a m' := by
  simp only [bind, h]

theorem run_bind_of_error {r : Run α} {k : α → Run β} {m m' : Machine} {e : Report}
    (h : r m = some (.error e, m')) : (r >>= k) m = some (.error e, m') := by
  simp only [bind, h]

/-- With so many selections open, the machine does at `c` what reading by `p` does there. -/
def Agrees (text : List Char) (depth : Nat) (r : Run α) (p : Parse α) (c : Cursor) : Prop :=
  (Cursor.start text).Reaches c → ∀ m : Machine, m.IsAt c depth →
    Ends text depth (r m) (p.run c).result

namespace Agrees

variable {r : Run α} {p q : Parse α} {c : Cursor}

theorem congr (h : Agrees text depth r p c) (hpq : (q.run c).result = (p.run c).result) :
    Agrees text depth r q c := by
  intro hr m hm
  rw [hpq]
  exact h hr m hm

theorem pure (a : α) : Agrees text depth (pure a) (pure a) c :=
  fun _ m hm => ⟨m, rfl, hm⟩

theorem bind {k : α → Run β} {n : α → Parse β} (h : Agrees text depth r p c)
    (hk : ∀ a d, (p.run c).result = .ok (a, d) → Agrees text depth (k a) (n a) d) :
    Agrees text depth (r >>= k) (p >>= n) c := by
  intro hr m hm
  have hend := h hr m hm
  rw [result_bind]
  cases hp : (p.run c).result with
  | error f =>
    rw [hp] at hend
    obtain ⟨m', hm', hat⟩ := hend
    exact ⟨m', run_bind_of_error hm', hat⟩
  | ok result =>
    obtain ⟨a, d⟩ := result
    rw [hp] at hend
    obtain ⟨m', hm', hat⟩ := hend
    rw [run_bind_of_ok hm']
    exact hk a d hp (hr.trans (Parse.reaches_of_ok hp)) m' hat

theorem ite {b : Prop} [Decidable b] {r' : Run α} (h : b → Agrees text depth r p c)
    (h' : ¬b → Agrees text depth r' q c) :
    Agrees text depth (if b then r else r') (if b then p else q) c := by
  split
  · exact h ‹_›
  · exact h' ‹_›

/-- Asking for the place is no step of a reading. -/
theorem place {k : Position → Run α} (h : Agrees text depth (k c.position) p c) :
    Agrees text depth (Run.place >>= k) p c := by
  intro hr m hm
  show Ends text depth (k m.position m) _
  rw [hm.position]
  exact h hr m hm

theorem traced (rule : Rule) (h : Agrees text depth r p c) :
    Agrees text depth r (Parse.traced rule p) c :=
  h.congr (Parse.result_traced rule p c)

theorem ok {m : Machine} {a : α} {d : Cursor} (h : Agrees text depth r p c)
    (hr : (Cursor.start text).Reaches c) (hm : m.IsAt c depth)
    (hp : (p.run c).result = .ok (a, d)) : ∃ m', r m = some (.ok a, m') ∧ m'.IsAt d depth := by
  have hend := h hr m hm
  rwa [hp] at hend

theorem error {m : Machine} {f : Failure} (h : Agrees text depth r p c)
    (hr : (Cursor.start text).Reaches c) (hm : m.IsAt c depth) (hp : (p.run c).result = .error f) :
    ∃ m', r m = some (.error (f.report text), m') ∧ m'.IsAt f.stop (depth + f.opened) := by
  have hend := h hr m hm
  rwa [hp] at hend

/-- The value or the report that the machine ends with, at a place that was come to. -/
theorem ends {m : Machine} (h : Agrees text depth r p c) (hr : (Cursor.start text).Reaches c)
    (hm : m.IsAt c depth) :
    ∃ m' d, r m = some (((p.run c).result.map Prod.fst).mapError (·.report text), m') ∧
      c.Reaches d ∧ m'.position = d.position := by
  cases hp : (p.run c).result with
  | ok result =>
    obtain ⟨m', hm', hat⟩ := h.ok hr hm hp
    exact ⟨m', result.2, hm', Parse.reaches_of_ok hp, hat.position⟩
  | error f =>
    obtain ⟨m', hm', hat⟩ := h.error hr hm hp
    exact ⟨m', f.stop, hm', Parse.reaches_stop hp, hat.position⟩

end Agrees

section
variable {c : Cursor}

theorem exists_before (hr : (Cursor.start text).Reaches c) :
    ∃ before, text = before ++ c.rest ∧ c.position = Position.start.afterAll before ∧
      byteSize before = c.position.offset := by
  obtain ⟨before, htext, hposition⟩ := hr
  refine ⟨before, htext, hposition, ?_⟩
  rw [hposition, Position.offset_afterAll]
  exact (Nat.zero_add _).symm

theorem byteSize_eq_offset_add (hr : (Cursor.start text).Reaches c) :
    byteSize text = c.position.offset + byteSize c.rest := by
  obtain ⟨before, htext, -, hoffset⟩ := exists_before hr
  rw [htext, byteSize_append, hoffset]

theorem slice?_rest (hr : (Cursor.start text).Reaches c) :
    slice? text c.position.offset (byteSize text) = some c.rest := by
  obtain ⟨before, htext, -, hoffset⟩ := exists_before hr
  exact slice?_eq_some.2 ⟨before, [], by rw [List.append_nil, ← htext], hoffset,
    (byteSize_eq_offset_add hr).symm⟩

theorem ofOption_bind {o : Option α} {a : α} {k : α → Run β} (h : o = some a) :
    Run.ofOption o >>= k = k a := by
  rw [h]
  rfl

theorem agrees_peek : Agrees text depth (Run.peek text) Parse.look c := by
  refine .place fun hr m hm => ?_
  rw [Run.slice, ofOption_bind (slice?_rest hr), Parse.result_look]
  exact ⟨m, rfl, hm⟩

/-- Passes over the next character and tells which it was. -/
def advance : Parse (Option Char) := do
  let found ← Parse.look
  Parse.next
  return found

theorem agrees_next : Agrees text depth (Run.next text) advance c := by
  refine agrees_peek.bind fun found d hd hr m hm => ?_
  rw [Parse.result_look] at hd
  obtain ⟨rfl, rfl⟩ := Prod.mk.inj (Except.ok.inj hd)
  rw [result_bind_of_ok _ (Parse.result_next c), Parse.run_pure]
  cases hc : c.rest with
  | nil =>
    exact ⟨m, rfl, (Cursor.drop_of_nil hc 1).symm ▸ hm⟩
  | cons x rest =>
    refine ⟨_, rfl, ?_, hm.depth⟩
    show m.position.after x = c.position.afterAll (c.rest.take 1)
    rw [hm.position, hc]
    rfl

/-- Moving on without asking for the character. -/
theorem Agrees.next {k : Option Char → Run α} {n : Unit → Parse α}
    (h : ∀ found, Agrees text depth (k found) (n ()) (c.drop 1)) :
    Agrees text depth (Run.next text >>= k) (Parse.next >>= n) c := by
  have hbind : Agrees text depth (Run.next text >>= k) (advance >>= fun _ => n ()) c := by
    refine agrees_next.bind fun found d hd => ?_
    rw [advance, result_bind_of_ok _ (Parse.result_look c),
      result_bind_of_ok _ (Parse.result_next c), Parse.run_pure] at hd
    obtain ⟨-, rfl⟩ := Prod.mk.inj (Except.ok.inj hd)
    exact h found
  refine hbind.congr ?_
  rw [advance, bind_assoc, result_bind_of_ok _ (Parse.result_look c), bind_assoc,
    result_bind_of_ok _ (Parse.result_next c), result_bind_of_ok _ (Parse.result_next c), pure_bind]

end

/-- Reads on as told, unless there is a result. -/
def goOn (body : Parse (σ ⊕ α)) (more : σ → Parse α) : Parse α := do
  match ← body with
  | .inl s => more s
  | .inr a => return a

/-- A loop agrees with what it unfolds to, if its steps do and move forward. -/
theorem agrees_loop {step : σ → Run (σ ⊕ α)} {body : σ → Parse (σ ⊕ α)} {all : σ → Parse α}
    {start : Cursor}
    (hstep : ∀ s c, start.Reaches c → Agrees text depth (step s) (body s) c)
    (hall : ∀ s c, ((all s).run c).result = ((goOn (body s) all).run c).result)
    (hforward : ∀ s s' c d, ((body s).run c).result = .ok (.inl s', d) →
      d.rest.length < c.rest.length)
    (bound : Nat) {c : Cursor} (hc : start.Reaches c) (hbound : c.rest.length < bound) (s : σ) :
    Agrees text depth (Run.loop step bound s) (all s) c := by
  induction bound generalizing s c with
  | zero => exact absurd hbound (Nat.not_lt_zero _)
  | succ bound ih =>
    refine ((hstep s c hc).bind fun result d hd => ?_).congr (hall s c)
    cases result with
    | inl s' =>
      have hlt := hforward s s' c d hd
      exact ih (hc.trans (Parse.reaches_of_ok hd)) (by omega) s'
    | inr a => exact .pure a

theorem agrees_repeatedly {step : σ → Run (σ ⊕ α)} (body : σ → Parse (σ ⊕ α)) (all : σ → Parse α)
    {c : Cursor}
    (hstep : ∀ s d, c.Reaches d → Agrees text depth (step s) (body s) d)
    (hall : ∀ s c, ((all s).run c).result = ((goOn (body s) all).run c).result)
    (hforward : ∀ s s' c d, ((body s).run c).result = .ok (.inl s', d) →
      d.rest.length < c.rest.length) (s : σ) :
    Agrees text depth (Run.repeatedly text step s) (all s) c := by
  intro hr
  have hbound : c.rest.length < byteSize text + 1 := by
    have hlength : c.rest.length ≤ text.length := hr.length_le
    have := length_le_byteSize text
    omega
  exact agrees_loop hstep hall hforward _ (.refl c) hbound s hr

end QueryMarkup.Checked
